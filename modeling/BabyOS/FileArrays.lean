import BabyOS.DiskInvariant

/-!
# Files as arrays of bytes

A sequence of reads and writes of cached files, one call at a time, does to the disk
what the same sequence does to lists of bytes.
-/

set_option autoImplicit false

namespace BabyOS.FileArrays
open BabyOS.AtomicPrograms BabyOS.AtomicPrograms.Program BabyOS.ByteWords BabyOS.FileSystem
open BabyOS.DiskBlocks BabyOS.FileBlocks BabyOS.FileContents BabyOS.DiskInvariant

/-- A call of `read_inode` or `write_inode` by a process, on a slot of the inode cache. -/
inductive Request
  | read (p c off n : ℕ)
  | write (p c : ℕ) (data : Bytes) (off n : ℕ)

/-- `none` is -1. -/
inductive Reply
  | read (l : Option (List Byte))
  | wrote (n : Option ℕ)
deriving DecidableEq

def Request.slot : Request → ℕ
  | .read _ c _ _ => c
  | .write _ c _ _ _ => c

def perform : Request → Prog Reply
  | .read p c off n => do
    let l ← readInode p c off n
    pure (.read l)
  | .write p c data off n => do
    let k ← writeInode p c data off n
    pure (.wrote k)

def serve : List Request → Prog (List Reply)
  | [] => pure []
  | q :: qs => do
    let r ← perform q
    let rs ← serve qs
    pure (r :: rs)

/-! ## Lists of bytes -/

/-- The bytes of every file, by its number. -/
abbrev Files := ℕ → List Byte

def overwrite (l : List Byte) (off : ℕ) (bytes : List Byte) : List Byte :=
  l.take off ++ bytes ++ l.drop (off+bytes.length)

/-- `inum` tells which file a slot stands for. -/
def answer (inum : ℕ → ℕ) (f : Files) : Request → Reply × Files
  | .read _ c off n =>
    (.read (if off ≤ (f (inum c)).length then some (((f (inum c)).drop off).take n) else none), f)
  | .write _ c data off n =>
    if off ≤ (f (inum c)).length ∧ off+n ≤ maxFileSize*blockSize then
      (.wrote (some n), Function.update f (inum c) (overwrite (f (inum c)) off (slice data 0 n)))
    else (.wrote none, f)

def answers (inum : ℕ → ℕ) : List Request → Files → List Reply × Files
  | [], f => ([], f)
  | q :: qs, f =>
    ((answer inum f q).1 :: (answers inum qs (answer inum f q).2).1, (answers inum qs (answer inum f q).2).2)

/-! ## Contents -/

def contents (d : ℕ → Bytes) (x : DiskInode) : List Byte := slice (byteAt d x) 0 x.size.toNat

def files (sb : SuperBlock) (s : Fs) : Files := fun i =>
  if Inum sb i then contents s.disk (record s.disk i) else []

section Contents

variable {sb : SuperBlock} {i off n : ℕ} {data : Bytes} {d d' : ℕ → Bytes} {x x' : DiskInode}

theorem length_contents (d : ℕ → Bytes) (x : DiskInode) : (contents d x).length = x.size.toNat :=
  length_slice ..

theorem getElem?_slice (b : Bytes) (off n j : ℕ) :
    (slice b off n)[j]? = if j < n then some (b (off+j)) else none := by
  rw [slice, List.getElem?_map]
  by_cases hj : j < n
  · rw [if_pos hj, List.getElem?_range hj]
    rfl
  · rw [if_neg hj, List.getElem?_eq_none (by rw [List.length_range]; omega)]
    rfl

theorem take_drop_slice (b : Bytes) (off m n : ℕ) :
    ((slice b 0 m).drop off).take n = slice b off (min n (m-off)) := by
  apply List.ext_getElem?
  intro j
  rw [List.getElem?_take, List.getElem?_drop, getElem?_slice, getElem?_slice, Nat.zero_add]
  by_cases hn : j < n
  · rw [if_pos hn]
    exact if_congr (by omega) rfl rfl
  · rw [if_neg hn, if_neg (by omega)]

/-- A write overwrites and extends the list. -/
theorem contents_stored (h : Stored sb i data off n d x d' x') (hoff : off ≤ x.size.toNat) :
    contents d' x' = overwrite (contents d x) off (slice data 0 n) := by
  have hlen : ((contents d x).take off).length = off := by
    rw [List.length_take, length_contents, min_eq_left hoff]
  apply List.ext_getElem?
  intro j
  rw [overwrite, contents, getElem?_slice, h.size, List.append_assoc, Nat.zero_add]
  by_cases hbefore : j < off
  · rw [if_pos (by omega), List.getElem?_append_left (by omega), List.getElem?_take, if_pos hbefore,
      contents, getElem?_slice, if_pos (by omega), Nat.zero_add, h.outside j (by omega) (Or.inl hbefore)]
  · rw [List.getElem?_append_right (by omega), hlen]
    by_cases hin : j < off+n
    · rw [if_pos (by omega), List.getElem?_append_left (by rw [length_slice]; omega), getElem?_slice,
        if_pos (by omega), Nat.zero_add, h.inside j (by omega) hin]
    · rw [List.getElem?_append_right (by rw [length_slice]; omega), length_slice, List.getElem?_drop,
        contents, getElem?_slice]
      have hj : off+n+(j-off-n) = j := by omega
      rw [hj, Nat.zero_add]
      by_cases hlt : j < x.size.toNat
      · rw [if_pos (by omega), if_pos hlt, h.outside j hlt (by omega)]
      · rw [if_neg (by omega), if_neg hlt]

/-- The other files are as they were. -/
theorem contents_others {s : Fs} {j : ℕ} (hs : Sound sb s) (h : Stored sb i data off n s.disk x d' x')
    (hj : Inum sb j) (hji : j ≠ i) : contents d' (record s.disk j) = contents s.disk (record s.disk j) := by
  apply slice_congr
  intro o ho
  have hwhole := hs.whole j hj
  have hmapped := hwhole.mapped
  have hblock := div_lt_blocksOf ho
  have hthere := (hmapped.blocks (o/blockSize) (lt_of_lt_of_le hblock hmapped.le)).mpr hblock
  obtain ⟨hslot, hdata⟩ := h.others j hj hji (fileSlot (o/blockSize))
  rw [Nat.zero_add, byteAt, byteAt, hslot, hdata hthere]

end Contents

/-! ## The refinement -/

/-- A cached inode of a regular file. -/
def Regular (s : Fs) (c : ℕ) : Prop := 0 < (s.inodes c).ref ∧ (s.inodes c).type = typeFile

/-- The disk was not found full. -/
def notFull (_ : Fs) (e : Event) : Prop := e ≠ .branch .full

/-- The state after some requests: sound, with the files `f`, and with the same slots. -/
structure Serves (sb : SuperBlock) (s : Fs) (f : Files) (s' : Fs) : Prop where
  sound : Sound sb s'
  contents : files sb s' = f
  slots : ∀ c, (s'.inodes c).inum = (s.inodes c).inum ∧ (Regular s c → Regular s' c)

section Serving

variable {sb : SuperBlock} {s : Fs}

theorem Serves.same (h : Sound sb s) : Serves sb s (files sb s) s :=
  ⟨h, rfl, fun _ => ⟨rfl, id⟩⟩

theorem Serves.trans {s' s'' : Fs} {f f' : Files} (h : Serves sb s f s') (h' : Serves sb s' f' s'') :
    Serves sb s f' s'' :=
  ⟨h'.sound, h'.contents, fun c => ⟨(h'.slots c).1.trans (h.slots c).1, fun hr => (h'.slots c).2 ((h.slots c).2 hr)⟩⟩

theorem meets_perform {q : Request} (h : Sound sb s) (hq : Regular s q.slot) :
    (perform q).Meets true notFull s fun r s' =>
      r = (answer (fun c => (s.inodes c).inum) (files sb s) q).1 ∧
      Serves sb s (answer (fun c => (s.inodes c).inum) (files sb s) q).2 s' := by
  have hfull : ∀ s, ¬ notFull s (.branch .full) := fun _ hc => hc rfl
  obtain ⟨hc, htype⟩ := hq
  have hdev : (s.inodes q.slot).type ≠ typeDev := by
    rw [htype]
    decide
  obtain ⟨-, -, hi, hx⟩ := h.cached q.slot hc
  have hfile : files sb s (s.inodes q.slot).inum = contents s.disk (s.inodes q.slot).toDiskInode := by
    rw [files, if_pos hi, hx]
  have hlen : (files sb s (s.inodes q.slot).inum).length = (s.inodes q.slot).size.toNat := by
    rw [hfile, length_contents]
  cases q with
  | read p c off n =>
    rw [perform]
    refine meets_bind (meets_readInode h hc (fun hd => absurd hd hdev) (fun _ => meets_pure ⟨?_, ?_⟩))
    · dsimp only [Request.slot] at hfile hlen
      rw [answer, hlen, hfile, bytesFrom, contents, take_drop_slice]
    · exact Serves.same h
  | write p c data off n =>
    rw [perform]
    refine meets_bind (meets_writeInode h hc (fun _ => hfull) (fun hd => absurd hd hdev) (fun _ hout => ?_)
      (fun _ hoff hend d' x' hst => ?_))
    · dsimp only [Request.slot] at hlen
      rw [answer, hlen, if_neg (by omega)]
      exact meets_pure ⟨rfl, Serves.same h⟩
    · dsimp only [Request.slot] at hc hi hx hfile hlen htype
      rw [answer, hlen, if_pos ⟨hoff, hend⟩]
      refine meets_pure ⟨rfl, h.stored hc hst, ?_, fun j => ?_⟩
      · funext i
        dsimp only
        rw [files, put_disk]
        by_cases hin : Inum sb i
        · rw [if_pos hin, hst.records i hin]
          by_cases hij : i = (s.inodes c).inum
          · rw [if_pos hij, hij, Function.update_self, hfile]
            exact contents_stored hst hoff
          · rw [if_neg hij, Function.update_of_ne hij, files, if_pos hin]
            exact contents_others h hst hin hij
        · rw [if_neg hin, Function.update_of_ne (fun hc => hin (by rw [hc]; exact hi)), files, if_neg hin]
      · by_cases hj : j = c
        · rw [hj, put_inode]
          refine ⟨rfl, fun hr => ⟨?_, ?_⟩⟩
          · rw [put_inode]
            exact hr.1
          · rw [put_inode]
            dsimp only
            rw [hst.fields]
            exact htype
        · rw [Regular, Regular, put_other _ _ _ _ hj]
          exact ⟨rfl, id⟩

theorem meets_serve {qs : List Request} (h : Sound sb s) (hqs : ∀ q ∈ qs, Regular s q.slot) :
    (serve qs).Meets true notFull s fun rs s' =>
      rs = (answers (fun c => (s.inodes c).inum) qs (files sb s)).1 ∧
      Serves sb s (answers (fun c => (s.inodes c).inum) qs (files sb s)).2 s' := by
  induction qs generalizing s with
  | nil => exact meets_pure ⟨rfl, Serves.same h⟩
  | cons q qs ih =>
    rw [serve]
    refine meets_seq (meets_perform h (hqs q (List.mem_cons_self ..))) (fun r s' ⟨hr, hserves⟩ => ?_)
    have hinum : (fun c => (s'.inodes c).inum) = fun c => (s.inodes c).inum :=
      funext (fun c => (hserves.slots c).1)
    have hrest := ih hserves.sound (fun q' hq' => (hserves.slots _).2 (hqs q' (List.mem_cons_of_mem q hq')))
    rw [hinum, hserves.contents] at hrest
    refine meets_seq hrest (fun rs s'' ⟨hrs, hserves'⟩ => meets_pure ⟨?_, hserves.trans hserves'⟩)
    rw [answers, hr, hrs]

/-- Files refine arrays of bytes: if the disk is not found full, the requests are all answered as by
the arrays, and leave the contents that the arrays have then. -/
theorem files_refine {qs : List Request} (h : Sound sb s) (hqs : ∀ q ∈ qs, Regular s q.slot)
    (hclear : (serve qs).Clear notFull s) :
    ∃ s', (serve qs).run s = some ((answers (fun c => (s.inodes c).inum) qs (files sb s)).1, s') ∧
      Serves sb s (answers (fun c => (s.inodes c).inum) qs (files sb s)).2 s' := by
  obtain ⟨rs, s', hrun, rfl, hserves⟩ := meets_ends (meets_serve h hqs) hclear
  exact ⟨s', hrun, hserves⟩

/-- The file of the small disk gets three bytes, which are read again. -/
def greeting : List Request :=
  [.write 1 1 (fun j => BitVec.ofNat 8 (65+j)) 0 3, .read 1 1 1 100]

theorem files_refine_greeting : ∃ s', (serve greeting).run small =
      some ((answers (fun c => (small.inodes c).inum) greeting (files smallSuper small)).1, s') ∧
    Serves smallSuper small
      (answers (fun c => (small.inodes c).inum) greeting (files smallSuper small)).2 s' := by
  have hclears : (serve greeting).clears (fun _ e => decide (e ≠ .branch .full)) small = true := by
    decide +kernel
  refine files_refine small_sound (fun q hq => ?_) (clear_of_clears hclears (fun _ e h => show e ≠ .branch .full from of_decide_eq_true h))
  rw [greeting, List.mem_cons, List.mem_singleton] at hq
  obtain rfl | rfl := hq <;> exact ⟨by decide, rfl⟩

end Serving

end BabyOS.FileArrays

import BabyOS.FileArrays

/-!
# Descriptors as cursors

Reads, writes and seeks by any processes through any descriptors, shared or not: every
slot of the file table is a place in a list of bytes, never behind its end.
-/

set_option autoImplicit false

namespace BabyOS.Cursors
open BabyOS.AtomicPrograms BabyOS.AtomicPrograms.Program BabyOS.ByteWords BabyOS.FileSystem
open BabyOS.DiskBlocks BabyOS.FileBlocks BabyOS.FileContents BabyOS.DiskInvariant BabyOS.FileArrays BabyOS.BlockRules

def seekSet : ℤ := 0
def seekCur : ℤ := 1
def seekEnd : ℤ := 2

/-- `offset` of `do_seek` in a file of `size` bytes. -/
def seekOffset (off pos size : ℕ) (whence : ℤ) : Option ℕ :=
  if whence = seekCur then some ((off+pos)%2^64)
  else if whence = seekSet then some pos
  else if whence = seekEnd then some size
  else none

def doSeek (p : ℕ) (fd : ℤ) (pos : ℕ) (whence : ℤ) : Prog Answer := do
  match ← look fun s => s.file p fd with
  | none => pure .failed
  | some (f, file) =>
    match file.inode with
    | none => pure .failed
    | some i => do
      let off ← look fun s => s.offsets f
      let size ← look fun s => (s.inodes i).size.toNat
      match seekOffset off pos size whence with
      | none => pure .failed
      | some offset =>
        if offset > size then pure .failed
        else do
          act .quiet fun s => { s with offsets := Function.update s.offsets f (uint32 offset) }
          pure .ok

/-- A call on a descriptor of a process. -/
inductive Call
  | read (count : ℕ)
  | write (data : Bytes) (count : ℕ)
  | seek (pos : ℕ) (whence : ℤ)

structure Request where
  process : ℕ
  fd : ℤ
  call : Call

def perform : Request → Prog Answer
  | ⟨p, fd, .read count⟩ => doRead p fd count
  | ⟨p, fd, .write data count⟩ => doWrite p fd data count
  | ⟨p, fd, .seek pos whence⟩ => doSeek p fd pos whence

def serve : List Request → Prog (List Answer)
  | [] => pure []
  | q :: qs => do
    let r ← perform q
    let rs ← serve qs
    pure (r :: rs)

/-! ## Cursors -/

/-- The files, and where each slot of the file table stands. -/
structure Store where
  files : Files
  place : ℕ → ℕ

/-- A call on the slot `f` for the file `i`. -/
def answer (f i : ℕ) (readable writeable : Bool) : Call → Store → Answer × Store
  | .read n, t =>
    if readable then
      let l := ((t.files i).drop (t.place f)).take n
      (.data l, { t with place := Function.update t.place f (t.place f+l.length) })
    else (.failed, t)
  | .write data n, t =>
    if writeable ∧ t.place f+n ≤ maxFileSize*blockSize then
      (.number n, ⟨Function.update t.files i (overwrite (t.files i) (t.place f) (slice data 0 n)),
        Function.update t.place f (t.place f+n)⟩)
    else (.failed, t)
  | .seek pos whence, t =>
    match seekOffset (t.place f) pos (t.files i).length whence with
    | some offset =>
      if offset ≤ (t.files i).length then (.ok, { t with place := Function.update t.place f offset }) else (.failed, t)
    | none => (.failed, t)

/-- The answer to a request; only slots of files take one. -/
def respond (s : Fs) (q : Request) (t : Store) : Answer × Store :=
  match s.file q.process q.fd with
  | some (f, ⟨.inode, _, readable, writeable, some i, _, _⟩) => answer f (s.inodes i).inum readable writeable q.call t
  | _ => (.failed, t)

def responds (s : Fs) : List Request → Store → List Answer × Store
  | [], t => ([], t)
  | q :: qs, t =>
    ((respond s q t).1 :: (responds s qs (respond s q t).2).1, (responds s qs (respond s q t).2).2)

def store (sb : SuperBlock) (s : Fs) : Store := ⟨files sb s, s.offsets⟩

/-! ## Reads and writes of the file -/

section Programs

variable {σ ε α β : Type} {x : Program σ ε α} {t : Bool} {ok : σ → ε → Prop} {s : σ}

theorem meets_and {Q R : α → σ → Prop}
    (h : x.Meets t ok s Q) (h' : x.Meets t ok s R) : x.Meets t ok s fun a s => Q a s ∧ R a s := by
  induction x generalizing s with
  | done a => exact ⟨h, h'⟩
  | stop => exact h
  | access e r n k ih => exact ⟨h.1, fun hr ha => ih s (h.2 hr ha) (h'.2 hr ha)⟩

theorem meets_of_map {g : α → β} {R : β → σ → Prop}
    (h : (x >>= fun a => pure (g a)).Meets t ok s R) : x.Meets t ok s fun a s => R (g a) s := by
  change (x.bind fun a => .done (g a)).Meets t ok s R at h
  induction x generalizing s with
  | done a => exact h
  | stop => exact h
  | access e r n k ih => exact ⟨h.1, fun hr ha => ih s (h.2 hr ha)⟩

end Programs

section Reads

variable {sb : SuperBlock} {s : Fs} {p c off n : ℕ} {data : Bytes}

/-- The state after a call, with these files and places. -/
structure Tracks (sb : SuperBlock) (s : Fs) (t : Store) (s' : Fs) : Prop where
  serves : Serves sb s t.files s'
  table : s'.files = s.files
  places : s'.offsets = t.place

theorem Tracks.same (h : Sound sb s) : Tracks sb s (store sb s) s := ⟨.same h, rfl, rfl⟩

/-- An offset is set after a call. -/
theorem Tracks.move {t : Store} {s' : Fs} (h : Tracks sb s t s') {f off off' : ℕ} (hoff : uint32 off = off') :
    Tracks sb s { t with place := Function.update t.place f off' }
      { s' with offsets := Function.update s'.offsets f (uint32 off) } :=
  ⟨⟨⟨h.serves.sound.super, h.serves.sound.fits, h.serves.sound.buffers, h.serves.sound.sharing, h.serves.sound.whole,
    h.serves.sound.cached, h.serves.sound.distinct⟩, h.serves.contents, h.serves.slots⟩, h.table, by rw [h.places, hoff]⟩

theorem length_file (h : Sound sb s) (hc : Regular s c) :
    (files sb s (s.inodes c).inum).length = (s.inodes c).size.toNat := by
  obtain ⟨-, -, hi, hx⟩ := h.cached c hc.1
  rw [files, if_pos hi, ← hx, length_contents]

theorem meets_read (h : Sound sb s) (hc : Regular s c) (hoff : s.offsets n ≤ (files sb s (s.inodes c).inum).length)
    (count : ℕ) : (readInode p c (s.offsets n) count).Meets true notFull s fun r s' =>
      r = some (((files sb s (s.inodes c).inum).drop (s.offsets n)).take count) ∧ s' = s := by
  have hdev : (s.inodes c).type ≠ typeDev := by
    rw [hc.2]
    decide
  have hread := meets_of_map (g := Reply.read) (meets_perform (q := .read p c (s.offsets n) count) h hc)
  refine meets_mono (meets_and hread (meets_readInode (Q := fun _ s' => s' = s) h hc.1 (fun hd => absurd hd hdev) fun _ => rfl)) ?_
  rintro r s' ⟨⟨hr, -⟩, rfl⟩
  rw [FileArrays.answer, if_pos hoff] at hr
  exact ⟨Reply.read.inj hr, rfl⟩

theorem meets_write (h : Sound sb s) (hc : Regular s c) (hoff : off ≤ (files sb s (s.inodes c).inum).length) :
    (writeInode p c data off n).Meets true notFull s fun r s' =>
      if off+n ≤ maxFileSize*blockSize then r = some n ∧
        Tracks sb s ⟨Function.update (files sb s) (s.inodes c).inum
          (overwrite (files sb s (s.inodes c).inum) off (slice data 0 n)), s.offsets⟩ s'
      else r = none ∧ Tracks sb s (store sb s) s' := by
  have hdev : (s.inodes c).type ≠ typeDev := by
    rw [hc.2]
    decide
  have hwrite := meets_of_map (g := Reply.wrote) (meets_perform (q := .write p c data off n) h hc)
  have hframe : (writeInode p c data off n).Meets true notFull s fun _ s' => s'.files = s.files ∧ s'.offsets = s.offsets :=
    meets_writeInode h hc.1 (fun _ _ hfull => hfull rfl) (fun hd => absurd hd hdev) (fun _ _ => ⟨rfl, rfl⟩)
      (fun _ _ _ _ _ _ => ⟨rfl, rfl⟩)
  refine meets_mono (meets_and hwrite hframe) ?_
  rintro r s' ⟨⟨hr, hserves⟩, htable, hoffsets⟩
  rw [FileArrays.answer] at hr hserves
  by_cases hend : off+n ≤ maxFileSize*blockSize
  · rw [if_pos ⟨hoff, hend⟩] at hr hserves
    rw [if_pos hend]
    exact ⟨Reply.wrote.inj hr, hserves, htable, hoffsets⟩
  · rw [if_neg (fun hc => hend hc.2)] at hr hserves
    rw [if_neg hend]
    exact ⟨Reply.wrote.inj hr, hserves, htable, hoffsets⟩

/-! ## Requests -/

variable {fd : ℤ} {f ref i : ℕ} {readable writeable : Bool} {pipe socket : Option ℕ} {count : ℕ}

theorem meets_doRead (h : Sound sb s) (hfile : s.file p fd = some (f, ⟨.inode, ref, readable, writeable, some i, pipe, socket⟩))
    (hi : Regular s i) (hoff : s.offsets f ≤ (files sb s (s.inodes i).inum).length) :
    (doRead p fd count).Meets true notFull s fun r s' =>
      r = (answer f (s.inodes i).inum readable writeable (.read count) (store sb s)).1 ∧
        Tracks sb s (answer f (s.inodes i).inum readable writeable (.read count) (store sb s)).2 s' := by
  rw [doRead]
  refine meets_look ?_
  rw [hfile, answer]
  cases readable with
  | false => exact meets_pure ⟨rfl, .same h⟩
  | true =>
    refine meets_look (meets_seq (meets_read h hi hoff count) ?_)
    rintro r s' ⟨rfl, rfl⟩
    rw [if_pos rfl]
    have hlen : s'.offsets f+(((files sb s' (s'.inodes i).inum).drop (s'.offsets f)).take count).length < 2^32 := by
      have hsize := (s'.inodes i).size.isLt
      rw [length_file h hi] at hoff
      rw [List.length_take, List.length_drop, length_file h hi]
      omega
    dsimp only [store]
    generalize ((files sb s' (s'.inodes i).inum).drop (s'.offsets f)).take count = l at *
    by_cases hl : l = []
    · subst hl
      refine meets_pure ⟨rfl, ?_⟩
      have hsame : Function.update s'.offsets f (s'.offsets f+0) = s'.offsets := Function.update_eq_self f s'.offsets
      rw [List.length_nil, hsame]
      exact .same h
    · rw [if_pos hl]
      exact meets_act (meets_pure ⟨rfl, (Tracks.same h).move (uint32_of_lt hlen)⟩)

theorem meets_doWrite (h : Sound sb s) (hfile : s.file p fd = some (f, ⟨.inode, ref, readable, writeable, some i, pipe, socket⟩))
    (hi : Regular s i) (hoff : s.offsets f ≤ (files sb s (s.inodes i).inum).length) :
    (doWrite p fd data count).Meets true notFull s fun r s' =>
      r = (answer f (s.inodes i).inum readable writeable (.write data count) (store sb s)).1 ∧
        Tracks sb s (answer f (s.inodes i).inum readable writeable (.write data count) (store sb s)).2 s' := by
  rw [doWrite]
  refine meets_look ?_
  rw [hfile, answer]
  cases writeable with
  | false => exact meets_pure ⟨rfl, .same h⟩
  | true =>
    refine meets_look (meets_seq (meets_write h hi hoff) ?_)
    intro r s' hr
    dsimp only [store]
    by_cases hend : s.offsets f+count ≤ maxFileSize*blockSize
    · rw [if_pos hend] at hr
      obtain ⟨rfl, htracks⟩ := hr
      have hmax : maxFileSize*blockSize < 2^32 := by decide
      have hlt : s'.offsets f+count < 2^32 := by
        rw [htracks.places]
        exact lt_of_le_of_lt hend hmax
      simp only [true_and, if_pos hend]
      by_cases hcount : count > 0
      · rw [if_pos hcount]
        refine meets_act (meets_pure ⟨rfl, ?_⟩)
        exact htracks.move (uint32_of_lt hlt |>.trans (by rw [htracks.places]))
      · rw [if_neg hcount]
        refine meets_pure ⟨rfl, ?_⟩
        have hsame : Function.update s.offsets f (s.offsets f+count) = s.offsets := by
          rw [Nat.eq_zero_of_not_pos hcount]
          exact Function.update_eq_self f s.offsets
        rw [hsame]
        exact htracks
    · rw [if_neg hend] at hr
      obtain ⟨rfl, htracks⟩ := hr
      simp only [true_and, if_neg hend]
      exact meets_pure ⟨rfl, htracks⟩

theorem meets_doSeek {pos : ℕ} {whence : ℤ} {file : FileTable.File} (h : Sound sb s) (hfile : s.file p fd = some (f, file))
    (hinode : file.inode = some i) (hi : Regular s i) :
    (doSeek p fd pos whence).Meets true notFull s fun r s' =>
      r = (answer f (s.inodes i).inum readable writeable (.seek pos whence) (store sb s)).1 ∧
        Tracks sb s (answer f (s.inodes i).inum readable writeable (.seek pos whence) (store sb s)).2 s' := by
  have hsize : ((store sb s).files (s.inodes i).inum).length = (s.inodes i).size.toNat := length_file h hi
  have hplace : s.offsets f = (store sb s).place f := rfl
  obtain ⟨type, ref, r, w, inode, pipe, socket⟩ := file
  dsimp only at hinode
  subst hinode
  rw [doSeek]
  refine meets_look ?_
  rw [hfile, answer]
  refine meets_look (meets_look ?_)
  have hlt := (s.inodes i).size.isLt
  rw [← hsize] at hlt ⊢
  rw [hplace]
  cases seekOffset ((store sb s).place f) pos ((store sb s).files (s.inodes i).inum).length whence with
  | none => exact meets_pure ⟨rfl, .same h⟩
  | some offset =>
    dsimp only
    by_cases hle : offset ≤ ((store sb s).files (s.inodes i).inum).length
    · rw [if_neg (by omega)]
      simp only [if_pos hle]
      exact meets_act (meets_pure ⟨rfl, (Tracks.same h).move (uint32_of_lt (by omega))⟩)
    · rw [if_pos (by omega)]
      simp only [if_neg hle]
      exact meets_pure ⟨rfl, .same h⟩

/-- The descriptor is none, or that of a pipe or a socket, or stands in a file that is cached. -/
def Usable (s : Fs) (t : Store) (q : Request) : Prop :=
  ∀ f file i, s.file q.process q.fd = some (f, file) → file.inode = some i →
    file.type = .inode ∧ Regular s i ∧ t.place f ≤ (t.files (s.inodes i).inum).length

theorem meets_request {q : Request} (h : Sound sb s) (hq : Usable s (store sb s) q) :
    (perform q).Meets true notFull s fun r s' =>
      r = (respond s q (store sb s)).1 ∧ Tracks sb s (respond s q (store sb s)).2 s' := by
  obtain ⟨p, fd, call⟩ := q
  rw [respond]
  cases hfile : s.file p fd with
  | none =>
    cases call <;>
    · refine meets_look ?_
      rw [hfile]
      exact meets_pure ⟨rfl, .same h⟩
  | some slot =>
    obtain ⟨f, type, ref, readable, writeable, inode, pipe, socket⟩ := slot
    cases inode with
    | none =>
      cases call <;>
      · refine meets_look ?_
        rw [hfile]
        cases type <;> cases readable <;> cases writeable <;> exact meets_pure ⟨rfl, .same h⟩
    | some i =>
      obtain ⟨rfl, hi, hoff⟩ := hq f _ i hfile rfl
      cases call with
      | read count => exact meets_doRead h hfile hi hoff
      | write data count => exact meets_doWrite h hfile hi hoff
      | seek pos whence => exact meets_doSeek h hfile rfl hi

/-! ## Runs -/

theorem length_overwrite {l bytes : List Byte} (hoff : off ≤ l.length) :
    (overwrite l off bytes).length = max l.length (off+bytes.length) := by
  rw [overwrite, List.length_append, List.length_append, List.length_take, List.length_drop]
  omega

/-- Files only grow, no place gets behind the end, and the other slots stand where they stood. -/
theorem answer_places {t : Store} {j : ℕ} {call : Call} (hoff : t.place f ≤ (t.files j).length) :
    (∀ i, (t.files i).length ≤ ((answer f j readable writeable call t).2.files i).length) ∧
      (answer f j readable writeable call t).2.place f ≤ ((answer f j readable writeable call t).2.files j).length ∧
      ∀ f', f' ≠ f → (answer f j readable writeable call t).2.place f' = t.place f' := by
  have hsame : (∀ i, (t.files i).length ≤ (t.files i).length) ∧ t.place f ≤ (t.files j).length ∧
      ∀ f', f' ≠ f → t.place f' = t.place f' := ⟨fun _ => le_rfl, hoff, fun _ _ => rfl⟩
  have hmoved : ∀ off ≤ (t.files j).length, (∀ i, (t.files i).length ≤ (t.files i).length) ∧
      Function.update t.place f off f ≤ (t.files j).length ∧
      ∀ f', f' ≠ f → Function.update t.place f off f' = t.place f' :=
    fun off hle => ⟨fun _ => le_rfl, by rwa [Function.update_self], fun f' hne => Function.update_of_ne hne _ _⟩
  cases call with
  | read n =>
    rw [answer]
    split
    · exact hmoved _ (by rw [List.length_take, List.length_drop]; omega)
    · exact hsame
  | write data n =>
    rw [answer]
    split
    · refine ⟨fun i => ?_, ?_, fun f' hne => Function.update_of_ne hne _ _⟩
      · by_cases hij : i = j
        · subst hij
          simp only [Function.update_self, length_overwrite hoff]
          exact le_max_left _ _
        · simp only [Function.update_of_ne hij]
          exact le_rfl
      · simp only [Function.update_self, length_overwrite hoff, length_slice]
        exact le_max_right _ _
    · exact hsame
  | seek pos whence =>
    rw [answer]
    split
    · split
      next hle => exact hmoved _ hle
      · exact hsame
    · exact hsame

theorem file_table {file : FileTable.File} (h : s.file p fd = some (f, file)) : s.files.table f = file := by
  obtain ⟨f', -, heq⟩ := Option.map_eq_some_iff.mp h
  cases heq
  rfl

theorem usable_respond {q q' : Request} {t : Store} (hq : Usable s t q) (hq' : Usable s t q') :
    Usable s (respond s q t).2 q' := by
  rw [respond]
  split
  next f ref readable writeable i pipe socket hfile =>
    obtain ⟨-, -, hoff⟩ := hq f _ i hfile rfl
    obtain ⟨hgrow, hplace, hothers⟩ := @answer_places f readable writeable t (s.inodes i).inum q.call hoff
    intro f' file' i' hfile' hinode'
    obtain ⟨htype, hi', hoff'⟩ := hq' f' file' i' hfile' hinode'
    refine ⟨htype, hi', ?_⟩
    by_cases hf : f' = f
    · -- the same slot stands in the same file
      subst hf
      have hslot := (file_table hfile').symm.trans (file_table hfile)
      subst hslot
      cases hinode'
      exact hplace
    · rw [hothers f' hf]
      exact hoff'.trans (hgrow _)
  · exact hq'

theorem Tracks.store_eq {t : Store} {s' : Fs} (h : Tracks sb s t s') : store sb s' = t := by
  rw [store, h.serves.contents, h.places]

/-- What a request sees of the descriptors stays. -/
theorem Tracks.respond {t : Store} {s' : Fs} (h : Tracks sb s t s') : Cursors.respond s' = Cursors.respond s := by
  have hfile : s'.file = s.file := by
    funext p fd
    rw [Fs.file, Fs.file, h.table]
  funext q t
  rw [Cursors.respond, Cursors.respond, hfile]
  split
  · rw [(h.serves.slots _).1]
  · rfl

theorem Tracks.usable {t : Store} {s' : Fs} (h : Tracks sb s t s') {q : Request} (hq : Usable s t q) :
    Usable s' (store sb s') q := by
  intro f file i hfile hinode
  rw [Fs.file, h.table] at hfile
  obtain ⟨htype, hi, hoff⟩ := hq f file i hfile hinode
  rw [h.store_eq, (h.serves.slots i).1]
  exact ⟨htype, (h.serves.slots i).2 hi, hoff⟩

theorem responds_congr {s' : Fs} (h : Cursors.respond s' = Cursors.respond s) (qs : List Request) (t : Store) :
    responds s' qs t = responds s qs t := by
  induction qs generalizing t with
  | nil => rfl
  | cons q qs ih => rw [responds, responds, h, ih]

theorem Tracks.trans {t t' : Store} {s' s'' : Fs} (h : Tracks sb s t s') (h' : Tracks sb s' t' s'') : Tracks sb s t' s'' :=
  ⟨h.serves.trans h'.serves, h'.table.trans h.table, h'.places⟩

theorem usable_responds {qs : List Request} {t : Store} (hqs : ∀ q ∈ qs, Usable s t q) {q' : Request} (hq' : Usable s t q') :
    Usable s (responds s qs t).2 q' := by
  induction qs generalizing t with
  | nil => exact hq'
  | cons q qs ih =>
    have hq := hqs q (List.mem_cons_self ..)
    exact ih (fun q'' hq'' => usable_respond hq (hqs q'' (List.mem_cons_of_mem q hq''))) (usable_respond hq hq')

theorem meets_requests {qs : List Request} (h : Sound sb s) (hqs : ∀ q ∈ qs, Usable s (store sb s) q) :
    (serve qs).Meets true notFull s fun rs s' =>
      rs = (responds s qs (store sb s)).1 ∧ Tracks sb s (responds s qs (store sb s)).2 s' := by
  induction qs generalizing s with
  | nil => exact meets_pure ⟨rfl, .same h⟩
  | cons q qs ih =>
    have hq := hqs q (List.mem_cons_self ..)
    rw [serve]
    refine meets_seq (meets_request h hq) ?_
    rintro r s' ⟨rfl, htracks⟩
    refine meets_seq (ih htracks.serves.sound fun q' hq' =>
      htracks.usable (usable_respond hq (hqs q' (List.mem_cons_of_mem q hq')))) ?_
    rintro rs s'' ⟨rfl, htracks'⟩
    rw [responds_congr htracks.respond, htracks.store_eq] at htracks' ⊢
    exact meets_pure ⟨rfl, htracks.trans htracks'⟩

/-- Descriptors refine cursors: any reads, writes and seeks of any processes, one call at
a time, are answered as by places in lists of bytes, and no place gets behind the end of
its list, if the disk is not found full. -/
theorem cursors_refine {qs : List Request} (h : Sound sb s) (hqs : ∀ q ∈ qs, Usable s (store sb s) q)
    (hclear : (serve qs).Clear notFull s) :
    ∃ s', (serve qs).run s = some ((responds s qs (store sb s)).1, s') ∧ store sb s' = (responds s qs (store sb s)).2 ∧
      Sound sb s' ∧ ∀ q ∈ qs, Usable s' (store sb s') q := by
  obtain ⟨rs, s', hrun, rfl, htracks⟩ := meets_ends (meets_requests h hqs) hclear
  exact ⟨s', hrun, htracks.store_eq, htracks.serves.sound, fun q hq => htracks.usable (usable_responds hqs (hqs q hq))⟩

/-- Three bytes are written, and two of them are read again. -/
def again : List Request :=
  [⟨1, 0, .write (fun j => BitVec.ofNat 8 (65+j)) 3⟩, ⟨1, 0, .seek 1 seekSet⟩, ⟨1, 0, .read 100⟩]

theorem cursors_refine_again : ∃ s', (serve again).run small = some ([.number 3, .ok, .data [66, 67]], s') ∧
    s'.offsets 0 = 3 := by
  have hclears : (serve again).clears (fun _ e => decide (e ≠ .branch .full)) small = true := by
    decide +kernel
  have husable : ∀ q ∈ again, Usable small (store smallSuper small) q := by
    intro q hq f file i hfile hinode
    have hfirst : q.process = 1 ∧ q.fd = 0 := by
      simp only [again, List.mem_cons, List.not_mem_nil, or_false] at hq
      rcases hq with rfl | rfl | rfl <;> exact ⟨rfl, rfl⟩
    rw [hfirst.1, hfirst.2] at hfile
    cases hfile
    cases hinode
    exact ⟨rfl, ⟨by decide, rfl⟩, Nat.zero_le _⟩
  obtain ⟨s', hrun, hstore, -, -⟩ := cursors_refine small_sound husable
    (clear_of_clears hclears fun _ e h => show e ≠ .branch .full from of_decide_eq_true h)
  exact ⟨s', hrun, congrArg (fun t => t.place 0) hstore⟩

end Reads

end BabyOS.Cursors

import BabyOS.DirectoryMap
import BabyOS.StringCopies

/-!
# Paths lead along their names

`namei` takes the names of a path one after the other, from the root or from the
current directory. The walk is stated on the disk alone, and the loop of `namei`
follows it while it holds one reference, which is handed on from inode to inode.
-/

set_option autoImplicit false

namespace BabyOS.PathResolution
open BabyOS.AtomicPrograms BabyOS.AtomicPrograms.Program BabyOS.ByteWords BabyOS.FileSystem
open BabyOS.DiskBlocks BabyOS.BlockRules BabyOS.DiskInvariant BabyOS.SlottedMaps BabyOS.DirectoryEntries BabyOS.DirectoryLookup
open BabyOS.DirectoryMap
open BabyOS.StringCopies (names names_drop names_cons)

/-! ## Walks -/

section Walks

variable {ν κ : Type}

/-- The labels are taken one after the other; each leads to the next node, or fails. -/
inductive Walk (next : ν → κ → Option ν → Prop) : ν → List κ → Option ν → Prop
  | here (n : ν) : Walk next n [] (some n)
  | fails {n : ν} {k : κ} (ks : List κ) : next n k none → Walk next n (k :: ks) none
  | step {n m : ν} {k : κ} {ks : List κ} {o : Option ν} : next n k (some m) → Walk next m ks o →
      Walk next n (k :: ks) o

variable {next : ν → κ → Option ν → Prop} {n : ν} {ks : List κ} {o o' : Option ν}

/-- The end is determined where every step is. -/
theorem walk_unique (hnext : ∀ k ∈ ks, ∀ (m : ν) (a b : Option ν), next m k a → next m k b → a = b)
    (h : Walk next n ks o) (h' : Walk next n ks o') : o = o' := by
  induction h with
  | here n =>
    cases h'
    rfl
  | fails ks hfail =>
    cases h' with
    | fails _ _ => rfl
    | step hstep _ => exact absurd (hnext _ (List.mem_cons_self ..) _ _ _ hfail hstep) nofun
  | step hstep _ ih =>
    cases h' with
    | fails _ hfail => exact absurd (hnext _ (List.mem_cons_self ..) _ _ _ hfail hstep) nofun
    | step hstep' hrest =>
      have hsame := Option.some.inj (hnext _ (List.mem_cons_self ..) _ _ _ hstep hstep')
      rw [← hsame] at hrest
      exact ih (fun k hk => hnext k (List.mem_cons_of_mem _ hk)) hrest

end Walks

/-! ## Resolution on the disk -/

/-- The names of a path, which ends with its first zero. -/
def components (path : List Byte) : List (List Byte) := names (path.takeWhile (· ≠ 0))

/-- What the inode `n` has under a name. A name counts as its first `maxPathLen` bytes,
and one that fills its array may be passed over. -/
def Answers (d : ℕ → Bytes) (n : ℕ) (name : List Byte) : Option ℕ → Prop
  | none => (record d n).type = typeDir → name.length < maxPathLen → find name (entries d (record d n)) = none
  | some m => (record d n).type = typeDir ∧
      (∃ i, (entries d (record d n))[i]? = some (some (name.take maxPathLen, m)) ∧
        (name.length < maxPathLen → find name (entries d (record d n)) = some (i, m)))

/-- What `namei` comes to from the inode `n`: the inode, and with `parent` the last name. -/
def Resolves (d : ℕ → Bytes) (n : ℕ) (path : List (List Byte)) (parent : Bool)
    (r : Option (ℕ × List Byte)) : Prop :=
  if parent then
    match path.getLast? with
    | none => r = none
    | some last => ∃ o, Walk (Answers d) n path.dropLast o ∧
        r = (o.filter fun m => (record d m).type = typeDir).map fun m => (m, last.take maxPathLen)
  else Walk (Answers d) n path (r.map Prod.fst)

/-- The inode that the walk begins with. -/
def start (s : Fs) (p : ℕ) (path : List Byte) : ℕ :=
  if path.head? = some slash then rootInum else (s.inodes (s.cwd p)).inum

/-- The names that are looked up. -/
def lookups (path : List (List Byte)) (parent : Bool) : List (List Byte) :=
  if parent then path.dropLast else path

/-- A slot of the cache is free, while the inode `n` has one. -/
def Spare (s : Fs) (n : ℕ) : Prop := ∃ j < maxInodeCache, (s.inodes j).ref = 0 ∧
  ((∃ c, 0 < (s.inodes c).ref ∧ (s.inodes c).inum = n) ∨
    ∃ k < maxInodeCache, k ≠ j ∧ (s.inodes k).ref = 0)

/-- There is a free slot at each lookup. -/
def Roomy (s : Fs) (n : ℕ) (path : List (List Byte)) : Prop :=
  ∀ before name after m, path = before++name :: after → Walk (Answers s.disk) n before (some m) →
    (record s.disk m).type = typeDir → Spare s m

/-- The directories have whole entries, which name inodes that are in use. -/
structure Tree (sb : SuperBlock) (d : ℕ → Bytes) : Prop where
  whole : ∀ n, Inum sb n → (record d n).type = typeDir → entrySize ∣ (record d n).size.toNat
  named : ∀ n, Inum sb n → (record d n).type = typeDir → ∀ (i : ℕ) (name : List Byte) (m : ℕ),
    (entries d (record d n))[i]? = some (some (name, m)) → Inum sb m ∧ (record d m).nlinks ≠ 0

section Resolution

variable {d : ℕ → Bytes} {n m : ℕ} {first : List Byte} {rest : List (List Byte)} {parent : Bool}
  {r : Option (ℕ × List Byte)}

/-- Names with room for their zero lead to one inode. -/
theorem answers_unique {o o' : Option ℕ} (hlen : first.length < maxPathLen) (h : Answers d n first o)
    (h' : Answers d n first o') : o = o' := by
  cases o with
  | none =>
    cases o' with
    | none => rfl
    | some m' =>
      obtain ⟨htype, i, -, hfind⟩ := h'
      have hnone := h htype hlen
      rw [hfind hlen] at hnone
      cases hnone
  | some m =>
    obtain ⟨htype, i, -, hfind⟩ := h
    cases o' with
    | none =>
      have hnone := h' htype hlen
      rw [hfind hlen] at hnone
      cases hnone
    | some m' =>
      obtain ⟨-, i', -, hfind'⟩ := h'
      have hsame := (hfind hlen).symm.trans (hfind' hlen)
      rw [(Prod.mk.inj (Option.some.inj hsame)).2]

/-- The inode is determined where the names that are looked up are short. -/
theorem resolves_unique {path : List (List Byte)} {r' : Option (ℕ × List Byte)}
    (hlen : ∀ name ∈ lookups path parent, name.length < maxPathLen) (h : Resolves d n path parent r)
    (h' : Resolves d n path parent r') : r.map Prod.fst = r'.map Prod.fst := by
  have hnext : ∀ name ∈ lookups path parent, ∀ (k : ℕ) (a b : Option ℕ), Answers d k name a →
      Answers d k name b → a = b := fun name hname k a b => answers_unique (hlen name hname)
  rw [Resolves] at h h'
  cases parent with
  | false => exact walk_unique hnext h h'
  | true =>
    rw [if_pos rfl] at h h'
    cases hlast : path.getLast? with
    | none =>
      rw [hlast] at h h'
      rw [h, h']
    | some last =>
      rw [hlast] at h h'
      obtain ⟨o, hwalk, ho⟩ := h
      obtain ⟨o', hwalk', ho'⟩ := h'
      have hsame := walk_unique hnext hwalk hwalk'
      rw [ho, ho', hsame]

/-- The rest of the path from the inode that its first name leads to. -/
theorem resolves_step (h : Answers d n first (some m)) (hrest : parent = true → rest ≠ [])
    (hr : Resolves d m rest parent r) : Resolves d n (first :: rest) parent r := by
  rw [Resolves] at hr ⊢
  cases parent with
  | false => exact Walk.step h hr
  | true =>
    rw [if_pos rfl] at hr ⊢
    obtain ⟨last, hlast⟩ : ∃ last, rest.getLast? = some last :=
      Option.ne_none_iff_exists'.mp (fun hc => hrest rfl (List.getLast?_eq_none_iff.mp hc))
    have hlast' : (first :: rest).getLast? = some last := by
      rw [List.getLast?_cons, hlast, Option.getD_some]
    rw [hlast] at hr
    rw [hlast']
    obtain ⟨o, hwalk, ho⟩ := hr
    refine ⟨o, ?_, ho⟩
    rw [List.dropLast_cons_of_ne_nil (hrest rfl)]
    exact Walk.step h hwalk

/-- A name that is looked up in vain, or in an inode that is no directory. -/
theorem resolves_fails (h : Answers d n first none) (hrest : parent = true → rest ≠ []) :
    Resolves d n (first :: rest) parent none := by
  rw [Resolves]
  cases parent with
  | false => exact Walk.fails rest h
  | true =>
    rw [if_pos rfl]
    obtain ⟨last, hlast⟩ : ∃ last, (first :: rest).getLast? = some last :=
      Option.ne_none_iff_exists'.mp (fun hc => List.cons_ne_nil _ _ (List.getLast?_eq_none_iff.mp hc))
    rw [hlast, List.dropLast_cons_of_ne_nil (hrest rfl)]
    exact ⟨none, Walk.fails _ h, rfl⟩

/-- With `parent` the walk ends in front of the last name. -/
theorem resolves_last : Resolves d n [first] true
    (if (record d n).type = typeDir then some (n, first.take maxPathLen) else none) := by
  refine ⟨some n, Walk.here n, ?_⟩
  by_cases htype : (record d n).type = typeDir
  · rw [if_pos htype, Option.filter_some, if_pos (decide_eq_true htype)]
    rfl
  · rw [if_neg htype, Option.filter_some, if_neg (fun hc => htype (of_decide_eq_true hc))]
    rfl

end Resolution

/-! ## The names of a path -/

section Names

variable {path rest name : List Byte}

theorem names_nil_iff : names path = [] ↔ path.dropWhile (· = slash) = [] := by
  rw [← names_drop]
  have hhead := List.head?_dropWhile_not (· = slash) path
  cases hpath : path.dropWhile (· = slash) with
  | nil => exact iff_of_true rfl rfl
  | cons b tail =>
    rw [hpath] at hhead
    have hb : b ≠ slash := by simpa using hhead
    rw [names_cons hb]
    exact iff_of_false (List.cons_ne_nil _ _) (List.cons_ne_nil _ _)

theorem skipElem_none : skipElem path = none ↔ names path = [] := by
  rw [names_nil_iff, skipElem]
  split
  next h => exact iff_of_true rfl h
  next h => exact iff_of_false (Option.some_ne_none _) h

/-- The next name is passed over with the slashes behind it. -/
theorem skipElem_some (h : skipElem path = some (rest, name)) : ∃ first,
    names path = first :: names rest ∧ name = first.take maxPathLen ∧ rest.length < path.length ∧
    (rest = [] ↔ names rest = []) := by
  rw [skipElem] at h
  split at h
  next => cases h
  next hne =>
    obtain ⟨hrest, hname⟩ := Prod.mk.inj (Option.some.inj h)
    have hlen := (List.dropWhile_sublist (· = slash) (l := path)).length_le
    have hhead := List.head?_dropWhile_not (· = slash) path
    have hnames := names_drop path
    cases hpath : path.dropWhile (· = slash) with
    | nil => exact absurd hpath hne
    | cons b tail =>
      rw [hpath] at hrest hname hlen hhead hnames
      have hb : b ≠ slash := by simpa using hhead
      have hlong := (List.dropWhile_sublist (· ≠ slash) (l := tail)).length_le
      have htail : (b :: tail).dropWhile (· ≠ slash) = tail.dropWhile (· ≠ slash) :=
        List.dropWhile_cons_of_pos (by simpa using hb)
      have hcut := (List.dropWhile_sublist (· = slash) (l := tail.dropWhile (· ≠ slash))).length_le
      rw [htail] at hrest
      rw [List.length_cons] at hlen
      refine ⟨(b :: tail).takeWhile (· ≠ slash), ?_, hname.symm, ?_, ?_⟩
      · rw [← hnames, names_cons hb, htail, ← hrest, names_drop]
      · rw [← hrest]
        omega
      · rw [names_nil_iff, ← hrest, List.dropWhile_idempotent]

end Names

/-! ## References on the way -/

/-- What `namei` has changed while it holds references: slots were taken and given back. -/
structure Kept (sb : SuperBlock) (s s' : Fs) (held : List ℕ) (locked : Option ℕ) : Prop where
  rest : s' = { s with inodes := s'.inodes, overruns := s'.overruns }
  sound : Sound sb s'
  refs : ∀ k, (s'.inodes k).ref = (s.inodes k).ref+held.count k
  inums : ∀ k, 0 < (s.inodes k).ref → (s'.inodes k).inum = (s.inodes k).inum
  idle : ∀ k, 0 < (s'.inodes k).ref →
    (s'.inodes k).sem.waiting = [] ∧ (locked ≠ some k → 0 < (s'.inodes k).sem.count)

/-- Nobody has an inode locked. -/
def Unlocked (s : Fs) : Prop := ∀ k, 0 < (s.inodes k).ref →
  (s.inodes k).sem.waiting = [] ∧ 0 < (s.inodes k).sem.count

section References

variable {sb : SuperBlock} {s s' : Fs} {held : List ℕ} {locked : Option ℕ} {p c j n inum : ℕ}

theorem kept_self (h : Sound sb s) (hfree : Unlocked s) : Kept sb s s [] none :=
  ⟨rfl, h, fun _ => rfl, fun _ _ => rfl, fun k hk => ⟨(hfree k hk).1, fun _ => (hfree k hk).2⟩⟩

theorem Kept.disk (h : Kept sb s s' held locked) : s'.disk = s.disk := by
  rw [h.rest]

/-- The cached inodes may lose and get references, and their semaphores may change. -/
theorem sound_inodes {f : ℕ → Inode} (h : Sound sb s) (hf : ∀ k, 0 < (f k).ref → 0 < (s.inodes k).ref ∧
    (f k).dev = (s.inodes k).dev ∧ (f k).inum = (s.inodes k).inum ∧
    (f k).toDiskInode = (s.inodes k).toDiskInode) : Sound sb { s with inodes := f } := by
  refine ⟨h.super, h.fits, h.buffers, h.sharing, h.whole, fun k hk => ?_, fun k k' hk hk' heq => ?_⟩
  · obtain ⟨href, hdev, hinum, hx⟩ := hf k hk
    change k < maxInodeCache ∧ (f k).dev = rootDev ∧ Inum sb (f k).inum ∧
      (f k).toDiskInode = record s.disk (f k).inum
    rw [hdev, hinum, hx]
    exact h.cached k href
  · obtain ⟨href, -, hinum, -⟩ := hf k hk
    obtain ⟨href', -, hinum', -⟩ := hf k' hk'
    exact h.distinct k k' href href' (hinum.symm.trans (heq.trans hinum'))

theorem setInode_other (s : Fs) {k : ℕ} (x : Inode) (h : k ≠ c) : (s.setInode c x).inodes k = s.inodes k :=
  Function.update_of_ne h ..

theorem Kept.overruns (h : Kept sb s s' held locked) (m : ℕ) :
    Kept sb s { s' with overruns := m } held locked := by
  refine ⟨?_, ?_, h.refs, h.inums, h.idle⟩
  · rw [h.rest]
  · exact ⟨h.sound.super, h.sound.fits, h.sound.buffers, h.sound.sharing, h.sound.whole, h.sound.cached,
      h.sound.distinct⟩

/-- The semaphore of an inode is taken or given back. -/
theorem Kept.semaphore {locked' : Option ℕ} {x : Semaphore} (h : Kept sb s s' held locked)
    (hwait : x.waiting = []) (hcount : locked' ≠ some c → 0 < x.count)
    (hother : ∀ k, k ≠ c → locked' ≠ some k → locked ≠ some k) :
    Kept sb s (s'.setInode c { s'.inodes c with sem := x }) held locked' := by
  have hkeep : ∀ k, ((s'.setInode c { s'.inodes c with sem := x }).inodes k).ref = (s'.inodes k).ref ∧
      ((s'.setInode c { s'.inodes c with sem := x }).inodes k).dev = (s'.inodes k).dev ∧
      ((s'.setInode c { s'.inodes c with sem := x }).inodes k).inum = (s'.inodes k).inum ∧
      ((s'.setInode c { s'.inodes c with sem := x }).inodes k).toDiskInode = (s'.inodes k).toDiskInode := by
    intro k
    by_cases hk : k = c
    · rw [hk, setInode_self]
      exact ⟨rfl, rfl, rfl, rfl⟩
    · rw [setInode_other s' _ hk]
      exact ⟨rfl, rfl, rfl, rfl⟩
  refine ⟨?_, ?_, fun k => ?_, fun k hk => ?_, fun k hk => ?_⟩
  · rw [h.rest]
    rfl
  · refine sound_inodes h.sound (fun k hk => ⟨?_, (hkeep k).2⟩)
    rw [← (hkeep k).1]
    exact hk
  · rw [(hkeep k).1, h.refs]
  · rw [(hkeep k).2.2.1, h.inums k hk]
  · rw [(hkeep k).1] at hk
    obtain ⟨hwaiting, hfree⟩ := h.idle k hk
    by_cases hkc : k = c
    · rw [hkc, setInode_self]
      exact ⟨hwait, hcount⟩
    · rw [setInode_other s' _ hkc]
      exact ⟨hwaiting, fun hl => hfree (hother k hkc hl)⟩

/-- A reference is given back. -/
theorem Kept.drop (h : Kept sb s s' (c :: held) locked) :
    Kept sb s (s'.setInode c { s'.inodes c with ref := (s'.inodes c).ref-1 }) held locked := by
  have hheld := h.refs c
  rw [List.count_cons_self] at hheld
  refine ⟨?_, ?_, fun k => ?_, fun k hk => ?_, fun k hk => ?_⟩
  · rw [h.rest]
    rfl
  · refine sound_inodes h.sound (fun k hk => ?_)
    by_cases hkc : k = c
    · rw [hkc, Function.update_self] at hk ⊢
      exact ⟨by omega, rfl, rfl, rfl⟩
    · rw [Function.update_of_ne hkc] at hk ⊢
      exact ⟨hk, rfl, rfl, rfl⟩
  · by_cases hkc : k = c
    · rw [hkc, setInode_self]
      dsimp only
      omega
    · rw [setInode_other s' _ hkc, h.refs, List.count_cons_of_ne (Ne.symm hkc)]
  · by_cases hkc : k = c
    · rw [hkc] at hk ⊢
      rw [setInode_self]
      exact h.inums c hk
    · rw [setInode_other s' _ hkc]
      exact h.inums k hk
  · by_cases hkc : k = c
    · rw [hkc, setInode_self]
      exact h.idle c (by omega)
    · rw [setInode_other s' _ hkc] at hk ⊢
      exact h.idle k hk

/-- A reference is taken, of the inode with a number. -/
theorem Kept.fetched (h : Kept sb s s' held locked) (hi : Inum sb inum) (ht : target s' inum = some j) :
    Kept sb s (fetched s' j inum) (held++[j]) locked := by
  refine ⟨?_, DirectoryLookup.Sound.fetched h.sound hi ht, fun k => ?_, fun k hk => ?_, fun k hk => ?_⟩
  · rw [h.rest]
    rfl
  · rw [List.count_append, List.count_singleton]
    by_cases hkj : k = j
    · rw [hkj, beq_self_eq_true, if_pos rfl, fetched_self, ← Nat.add_assoc, ← h.refs]
      split
      next => rfl
      next hzero =>
        dsimp only
        omega
    · rw [fetched_other hkj, h.refs, beq_eq_false_iff_ne.mpr (Ne.symm hkj), if_neg Bool.false_ne_true,
        Nat.add_zero]
  · by_cases hkj : k = j
    · have href : 0 < (s'.inodes k).ref := by
        rw [h.refs]
        omega
      rw [← h.inums k hk, hkj]
      rw [hkj] at href
      rw [fetched_self, if_pos href]
    · rw [fetched_other hkj]
      exact h.inums k hk
  · by_cases hkj : k = j
    · rw [hkj, fetched_self]
      split
      next href => exact h.idle j href
      next => exact ⟨rfl, fun _ => Nat.one_pos⟩
    · rw [fetched_other hkj] at hk ⊢
      exact h.idle k hk

/-- A reference to a cached inode is taken. -/
theorem Kept.take (h : Kept sb s s' held locked) (hc : 0 < (s'.inodes c).ref) :
    Kept sb s (s'.setInode c { s'.inodes c with ref := (s'.inodes c).ref+1 }) (c :: held) locked := by
  refine ⟨?_, ?_, fun k => ?_, fun k hk => ?_, fun k hk => ?_⟩
  · rw [h.rest]
    rfl
  · refine sound_inodes h.sound (fun k hk => ?_)
    by_cases hkc : k = c
    · rw [hkc, Function.update_self]
      exact ⟨hc, rfl, rfl, rfl⟩
    · rw [Function.update_of_ne hkc] at hk ⊢
      exact ⟨hk, rfl, rfl, rfl⟩
  · by_cases hkc : k = c
    · rw [hkc, setInode_self, List.count_cons_self]
      dsimp only
      rw [h.refs, Nat.add_assoc]
    · rw [setInode_other s' _ hkc, h.refs, List.count_cons_of_ne (Ne.symm hkc)]
  · by_cases hkc : k = c
    · rw [hkc] at hk ⊢
      rw [setInode_self]
      exact h.inums c hk
    · rw [setInode_other s' _ hkc]
      exact h.inums k hk
  · by_cases hkc : k = c
    · rw [hkc, setInode_self]
      exact h.idle c hc
    · rw [setInode_other s' _ hkc] at hk ⊢
      exact h.idle k hk

/-- The cache has a free slot. -/
theorem Kept.free (h : Kept sb s s' [c] locked) (hinum : (s'.inodes c).inum = n) (hspare : Spare s n) :
    s'.empty ≠ none := by
  obtain ⟨j, hj, hfree⟩ : ∃ j < maxInodeCache, (s'.inodes j).ref = 0 := by
    have hzero : ∀ k, (s.inodes k).ref = 0 → k ≠ c → (s'.inodes k).ref = 0 := by
      intro k hk hkc
      rw [h.refs, hk, List.count_singleton, beq_eq_false_iff_ne.mpr (Ne.symm hkc),
        if_neg Bool.false_ne_true]
    have hcref : 0 < (s'.inodes c).ref := by
      rw [h.refs, List.count_singleton_self]
      exact Nat.succ_pos _
    obtain ⟨j, hj, hjfree, hother⟩ := hspare
    obtain ⟨i, hi, hisame⟩ | ⟨k, hk, hkj, hkfree⟩ := hother
    · -- the slot of the inode was in use before
      have hiref : 0 < (s'.inodes i).ref := by
        rw [h.refs]
        omega
      have hic : i = c := h.sound.distinct i c hiref hcref (by rw [h.inums i hi, hisame, hinum])
      refine ⟨j, hj, hzero j hjfree (fun hjc => ?_)⟩
      rw [hjc, ← hic] at hjfree
      omega
    · by_cases hjc : j = c
      · exact ⟨k, hk, hzero k hkfree (by omega)⟩
      · exact ⟨j, hj, hzero j hjfree hjc⟩
  intro hnone
  have hnot := List.find?_eq_none.mp hnone j (List.mem_range.mpr hj)
  exact hnot (decide_eq_true hfree)

end References

/-! ## The loop -/

section Loop

variable {t : Bool} {ok : Fs → Event → Prop} {sb : SuperBlock} {s s' : Fs} {p c n : ℕ} {parent : Bool}

theorem meets_lockInode {Q : Unit → Fs → Prop} (h : Kept sb s s' [c] none)
    (hQ : ∀ s'', Kept sb s s'' [c] (some c) → (s''.inodes c).toDiskInode = (s'.inodes c).toDiskInode →
      (s''.inodes c).inum = (s'.inodes c).inum → Q () s'') : (lockInode p c).Meets t ok s' Q := by
  have href : 0 < (s'.inodes c).ref := by
    rw [h.refs, List.count_singleton_self]
    exact Nat.succ_pos _
  obtain ⟨hwait, hfree⟩ := h.idle c href
  have hcount := hfree nofun
  refine ⟨fun _ => rfl, fun _ _ => ?_⟩
  dsimp only
  rw [if_pos hcount]
  refine hQ _ (h.semaphore ?_ (fun hc => absurd rfl hc) (fun k hk _ => nofun)) ?_ ?_
  · rw [Semaphore.down, if_pos hcount]
    exact hwait
  · rw [setInode_self]
  · rw [setInode_self]

theorem meets_unlockInode {held : List ℕ} {Q : Unit → Fs → Prop} (h : Kept sb s s' held (some c))
    (href : 0 < (s'.inodes c).ref) (hQ : ∀ s'', Kept sb s s'' held none →
      (∀ k, (s''.inodes k).inum = (s'.inodes k).inum) → Q () s'') : (unlockInode c).Meets t ok s' Q := by
  have hup : (s'.inodes c).sem.up = { (s'.inodes c).sem with count := (s'.inodes c).sem.count+1 } := by
    rw [Semaphore.up]
    split
    next => rfl
    next q qs hq => exact absurd hq (by rw [(h.idle c href).1]; exact nofun)
  apply meets_act
  rw [hup]
  refine hQ _ (h.semaphore (h.idle c href).1 (fun _ => Nat.succ_pos _) (fun k hk _ hc => ?_)) (fun k => ?_)
  · exact hk (Option.some.inj hc).symm
  · by_cases hk : k = c
    · rw [hk, setInode_self]
    · rw [setInode_other s' _ hk]

/-- The reference to an inode that has links, or that others have too, is given back. -/
theorem meets_putInode {held : List ℕ} {Q : Unit → Fs → Prop} (h : Kept sb s s' (c :: held) none)
    (hsafe : 0 < (s.inodes c).ref ∨ (s'.inodes c).nlinks ≠ 0) (hQ : ∀ s'', Kept sb s s'' held none →
      (∀ k, (s''.inodes k).inum = (s'.inodes k).inum) → Q () s'') : (putInode p c).Meets t ok s' Q := by
  have href := h.refs c
  rw [List.count_cons_self] at href
  obtain ⟨hwait, hfree⟩ := h.idle c (by omega)
  have hcount := hfree nofun
  have hkeep : (s'.inodes c).nlinks ≠ 0 ∨ (s'.inodes c).ref ≠ 1 := by
    rcases hsafe with hother | hlinks
    · exact Or.inr (by omega)
    · exact Or.inl hlinks
  have hdown : ((s'.inodes c).sem.down p).up = (s'.inodes c).sem := by
    rw [Semaphore.down, if_pos hcount, Semaphore.up]
    dsimp only
    rw [hwait]
    dsimp only
    rw [Nat.sub_add_cancel hcount, ← hwait]
  refine meets_putInode_kept hcount hkeep ?_
  rw [hdown]
  refine hQ _ h.drop (fun k => ?_)
  by_cases hk : k = c
  · rw [hk, setInode_self]
  · rw [setInode_other s' _ hk]

theorem Kept.opened {locked : Option ℕ} (h : Kept sb s s' [c] locked) (htree : Tree sb s.disk)
    (htype : (s'.inodes c).type = typeDir) : Opened sb s' c := by
  have href : 0 < (s'.inodes c).ref := by
    rw [h.refs, List.count_singleton_self]
    exact Nat.succ_pos _
  obtain ⟨-, -, hi, hx⟩ := h.sound.cached c href
  refine ⟨h.sound, href, htype, ?_⟩
  rw [hx, h.disk] at htype ⊢
  exact htree.whole _ hi htype

/-- A lookup in the directory that is held, with a reference to what it finds. -/
theorem meets_lookup {first : List Byte} {Q : Option (ℕ × ℕ) → Fs → Prop} {locked : Option ℕ}
    (h : Kept sb s s' [c] locked) (htree : Tree sb s.disk) (hinum : (s'.inodes c).inum = n)
    (htype : (s'.inodes c).type = typeDir) (hspare : Spare s n)
    (hnone : ∀ s'', Kept sb s s'' [c] locked → (∀ k, (s''.inodes k) = (s'.inodes k)) →
      Answers s.disk n first none → Q none s'')
    (hsome : ∀ s'' j m off, Kept sb s s'' [c, j] locked → Inum sb m → (record s.disk m).nlinks ≠ 0 →
      (s''.inodes c).inum = n → (s''.inodes j).inum = m → Answers s.disk n first (some m) →
      Q (some (j, off)) s'') :
    (dirLookup p c (first.take maxPathLen)).Meets t ok s' Q := by
  have hopen := h.opened htree htype
  obtain ⟨-, -, hi, hx⟩ := h.sound.cached c hopen.held
  have hslots : dirSlots s' c = entries s.disk (record s.disk n) := by
    rw [dirSlots, hx, h.disk, hinum]
  have hdir : (record s.disk n).type = typeDir := by
    rw [← htype, hx, h.disk, hinum]
  rw [hinum] at hi
  have hshort : first.length < maxPathLen → (first.take maxPathLen).length ≠ maxPathLen ∧
      first.take maxPathLen = first := by
    intro hlen
    have hsame := List.take_of_length_le (Nat.le_of_lt hlen)
    rw [hsame]
    exact ⟨Nat.ne_of_lt hlen, rfl⟩
  refine meets_dirLookup hopen (fun m hm => ?_) (fun m i inum hentry hm => ?_)
  · refine hnone _ (h.overruns m) (fun _ => rfl) (fun _ hlen => ?_)
    obtain ⟨hfull, hsame⟩ := hshort hlen
    rw [← hsame, ← hslots]
    exact (hm hfull).2
  · rw [hslots] at hentry hm
    obtain ⟨hinode, hlinks⟩ := htree.named n hi hdir i _ inum hentry
    have hk := h.overruns m
    refine meets_fetch hk.sound hopen.held (fun hc => ?_) (fun j hj => ?_)
    · rw [target] at hc
      split at hc
      next => cases hc
      next => exact absurd hc (hk.free hinum hspare)
    · obtain ⟨-, -, -, hjinum, -⟩ := fetched_target hj
      have hfound := hk.fetched hinode hj
      refine hsome _ j inum _ hfound hinode hlinks ?_ hjinum ⟨hdir, i, hentry, fun hlen => ?_⟩
      · by_cases hcj : c = j
        · have hcref : 0 < (s'.inodes j).ref := by
            rw [← hcj]
            exact hopen.held
          rw [hcj, fetched_self]
          dsimp only
          rw [if_pos hcref, ← hcj]
          exact hinum
        · rw [fetched_other hcj]
          exact hinum
      · obtain ⟨hfull, hsame⟩ := hshort hlen
        have hfind := (hm hfull).2
        rw [hsame] at hfind
        exact hfind

/-- The walk from an inode that is held. -/
theorem meets_nameiFrom {fuel : ℕ} {path name : List Byte} {Q : Option (ℕ × List Byte) → Fs → Prop}
    (htree : Tree sb s.disk) (h : Kept sb s s' [c] none) (hinum : (s'.inodes c).inum = n)
    (hsafe : 0 < (s.inodes c).ref ∨ (record s.disk n).nlinks ≠ 0) (hfuel : path.length < fuel)
    (hroom : Roomy s n (lookups (names path) parent))
    (hQ : ∀ r s'', Kept sb s s'' (r.map Prod.fst).toList none →
      Resolves s.disk n (names path) parent (r.map fun r => ((s''.inodes r.1).inum, r.2)) → Q r s'') :
    (nameiFrom p parent fuel c path name).Meets t ok s' Q := by
  induction fuel generalizing s' c n path name with
  | zero => omega
  | succ fuel ih =>
    have href : 0 < (s'.inodes c).ref := by
      rw [h.refs, List.count_singleton_self]
      exact Nat.succ_pos _
    have hrecord : (s'.inodes c).toDiskInode = record s.disk n := by
      rw [(h.sound.cached c href).2.2.2, h.disk, hinum]
    -- the reference is given back, and nothing is found
    have hput : ∀ s'', Kept sb s s'' [c] none → (s''.inodes c).inum = n →
        Resolves s.disk n (names path) parent none →
        (putInode p c >>= fun _ => (pure none : Prog (Option (ℕ × List Byte)))).Meets t ok s'' Q := by
      intro s'' hk hn hres
      have hlinks : 0 < (s.inodes c).ref ∨ (s''.inodes c).nlinks ≠ 0 := by
        have hkref : 0 < (s''.inodes c).ref := by
          rw [hk.refs, List.count_singleton_self]
          exact Nat.succ_pos _
        rw [(hk.sound.cached c hkref).2.2.2, hk.disk, hn]
        exact hsafe
      exact meets_bind (meets_putInode hk hlinks fun s₃ hk₃ _ => meets_pure (hQ none s₃ hk₃ hres))
    rw [nameiFrom]
    cases hskip : skipElem path with
    | none =>
      have hnames := skipElem_none.mp hskip
      dsimp only
      by_cases hparent : parent = true
      · rw [if_pos hparent]
        refine hput s' h hinum ?_
        rw [hnames, hparent]
        rfl
      · rw [if_neg hparent]
        refine meets_pure (hQ (some (c, name)) s' h ?_)
        rw [hnames, Bool.eq_false_iff.mpr hparent, Option.map_some, hinum]
        exact Walk.here n
    | some next =>
      obtain ⟨rest, cut⟩ := next
      obtain ⟨first, hnames, hcut, hless, hend⟩ := skipElem_some hskip
      rw [hnames] at hroom hQ hput
      dsimp only
      refine meets_bind (meets_lockInode h fun s₁ h₁ hdisk₁ hinum₁ => ?_)
      rw [hinum] at hinum₁
      rw [hrecord] at hdisk₁
      have href₁ : 0 < (s₁.inodes c).ref := by
        rw [h₁.refs, List.count_singleton_self]
        exact Nat.succ_pos _
      -- the end of the walk in front of the last name
      have hlast : parent = true ∧ rest = [] → Resolves s.disk n (first :: names rest) parent
          (if (record s.disk n).type = typeDir then some (n, cut) else none) := by
        rintro ⟨hparent, hrest⟩
        rw [hend.mp hrest, hparent, hcut]
        exact resolves_last
      have hmore : ¬ (parent = true ∧ rest = []) → parent = true → names rest ≠ [] :=
        fun hnot hparent hc => hnot ⟨hparent, hend.mpr hc⟩
      apply meets_look
      rw [hdisk₁]
      by_cases htype : (record s.disk n).type = typeDir
      · rw [if_neg (fun hc => hc htype)]
        by_cases hstop : parent = true ∧ rest = []
        · rw [if_pos hstop]
          refine meets_bind (meets_unlockInode h₁ href₁ fun s₂ h₂ hinum₂ => ?_)
          refine meets_pure (hQ (some (c, cut)) s₂ h₂ ?_)
          have hres := hlast hstop
          rw [if_pos htype] at hres
          rw [Option.map_some, hinum₂, hinum₁]
          exact hres
        · rw [if_neg hstop]
          have hlook : lookups (first :: names rest) parent = first :: lookups (names rest) parent := by
            rw [lookups, lookups]
            split
            next hparent => exact List.dropLast_cons_of_ne_nil (hmore hstop hparent)
            next => rfl
          rw [hlook] at hroom
          have hspare : Spare s n := hroom [] first (lookups (names rest) parent) n rfl (Walk.here n) htype
          have htype₁ : (s₁.inodes c).type = typeDir := by
            rw [hdisk₁]
            exact htype
          rw [hcut]
          refine meets_bind (meets_lookup h₁ htree hinum₁ htype₁ hspare (fun s₂ h₂ hsame hans => ?_)
            (fun s₂ j m off h₂ hm hlinks hinum₂ hj hans => ?_))
          · have href₂ : 0 < (s₂.inodes c).ref := by
              rw [hsame]
              exact href₁
            refine meets_bind (meets_unlockInode h₂ href₂ fun s₃ h₃ hinum₃ => ?_)
            refine hput s₃ h₃ ?_ (resolves_fails hans (hmore hstop))
            rw [hinum₃, hsame, hinum₁]
          · have href₂ : 0 < (s₂.inodes c).ref := by
              rw [h₂.refs, List.count_cons_self]
              omega
            refine meets_bind (meets_unlockInode h₂ href₂ fun s₃ h₃ hinum₃ => ?_)
            have hsafe₃ : 0 < (s.inodes c).ref ∨ (s₃.inodes c).nlinks ≠ 0 := by
              have href₃ : 0 < (s₃.inodes c).ref := by
                rw [h₃.refs, List.count_cons_self]
                omega
              rw [(h₃.sound.cached c href₃).2.2.2, h₃.disk, hinum₃, hinum₂]
              exact hsafe
            refine meets_bind (meets_putInode h₃ hsafe₃ fun s₄ h₄ hinum₄ => ?_)
            refine ih h₄ (by rw [hinum₄, hinum₃, hj]) (Or.inr hlinks) (by omega) ?_ (fun r s₅ h₅ hres => ?_)
            · intro before name' after k hsplit hwalk
              exact hroom (first :: before) name' after k (by rw [hsplit]; rfl) (Walk.step hans hwalk)
            · exact hQ r s₅ h₅ (resolves_step hans (hmore hstop) hres)
      · rw [if_pos htype]
        refine meets_bind (meets_unlockInode h₁ href₁ fun s₂ h₂ hinum₂ => ?_)
        refine hput s₂ h₂ ?_ ?_
        · rw [hinum₂, hinum₁]
        · by_cases hstop : parent = true ∧ rest = []
          · have hres := hlast hstop
            rw [if_neg htype] at hres
            exact hres
          · exact resolves_fails (fun hc => absurd hc htype) (hmore hstop)

end Loop

/-! ## The laws -/

/-- The walk of `namei` ends where the names lead to, with one reference to what it returns
and none to what it has passed; with `parent` it ends in front of the last name. Short names
lead to one inode. -/
theorem path_resolved {sb : SuperBlock} {s : Fs} {p : ℕ} {path : List Byte} {parent : Bool}
    (h : Sound sb s) (htree : Tree sb s.disk) (hfree : Unlocked s) (hcwd : 0 < (s.inodes (s.cwd p)).ref)
    (hroot : path.head? = some slash → ∃ c, 0 < (s.inodes c).ref ∧ (s.inodes c).inum = rootInum)
    (hroom : Roomy s (start s p path) (lookups (components path) parent)) :
    ∃ r s', (namei p path parent).run s = some (r, s') ∧ Kept sb s s' (r.map Prod.fst).toList none ∧
      Resolves s.disk (start s p path) (components path) parent
        (r.map fun r => ((s'.inodes r.1).inum, r.2)) ∧
      ((∀ name ∈ lookups (components path) parent, name.length < maxPathLen) →
        ∀ r', Resolves s.disk (start s p path) (components path) parent r' →
          r'.map Prod.fst = r.map fun r => (s'.inodes r.1).inum) := by
  have hhead : (path.takeWhile (· ≠ 0)).head? = some slash ↔ path.head? = some slash := by
    cases path with
    | nil => exact Iff.rfl
    | cons b tail =>
      rw [List.takeWhile_cons]
      split
      next => exact Iff.rfl
      next hb =>
        refine iff_of_false nofun (fun hc => ?_)
        obtain rfl : b = slash := Option.some.inj hc
        exact hb (by decide)
  have hkept := kept_self h hfree
  have hloop : ∀ c s', Kept sb s s' [c] none → 0 < (s.inodes c).ref →
      (s'.inodes c).inum = start s p path →
      (nameiFrom p parent ((path.takeWhile (· ≠ 0)).length+1) c (path.takeWhile (· ≠ 0)) []).Meets true
        (fun _ _ => True) s' fun r s' => Kept sb s s' (r.map Prod.fst).toList none ∧
          Resolves s.disk (start s p path) (components path) parent
            (r.map fun r => ((s'.inodes r.1).inum, r.2)) := by
    intro c s' hk href hinum
    exact meets_nameiFrom htree hk hinum (Or.inl href) (Nat.lt_succ_self _) hroom
      (fun r s'' hk' hres => ⟨hk', hres⟩)
  have hrule : (namei p path parent).Meets true (fun _ _ => True) s fun r s' =>
      Kept sb s s' (r.map Prod.fst).toList none ∧
      Resolves s.disk (start s p path) (components path) parent
        (r.map fun r => ((s'.inodes r.1).inum, r.2)) := by
    rw [namei]
    dsimp only
    by_cases habs : path.head? = some slash
    · rw [if_pos (hhead.mpr habs)]
      obtain ⟨c, href, hinum⟩ := hroot habs
      obtain ⟨hlt, hdev, -, -⟩ := h.cached c href
      refine meets_bind (meets_getInode (fun j hj => ?_) (fun j hnone _ => ?_) (fun hnone _ => ?_))
      · obtain ⟨-, hjref, -, hjinum⟩ := cached_some hj
        refine hloop j _ (hkept.take hjref) hjref ?_
        rw [setInode_self, start, if_pos habs]
        exact hjinum
      · exact absurd hinum (cached_none hnone hlt href hdev)
      · exact absurd hinum (cached_none hnone hlt href hdev)
    · rw [if_neg (fun hc => habs (hhead.mp hc))]
      refine meets_bind ⟨fun _ => rfl, fun _ _ => meets_bind (meets_pure ?_)⟩
      refine hloop (s.cwd p) _ (hkept.take hcwd) hcwd ?_
      rw [setInode_self, start, if_neg habs]
  obtain ⟨r, s', hrun, hkept', hres⟩ := meets_ends hrule (clear_all _ s)
  refine ⟨r, s', hrun, hkept', hres, fun hlen r' hres' => ?_⟩
  rw [resolves_unique hlen hres' hres, Option.map_map]
  rfl

section Small

theorem small_tree : Tree smallSuper small.disk := by
  have hslots : entries small.disk (record small.disk 1) =
      [some ([dot], 1), some ([dot, dot], 1), some (smallName, 2)] := by
    have hroot : record small.disk 1 = (small.inodes 0).toDiskInode := small_root
    rw [hroot]
    exact small_slots
  have hfile : (record small.disk 2).type ≠ typeDir := by
    change (record smallDisk 2).type ≠ typeDir
    rw [small_file]
    decide
  refine ⟨fun n hn htype => ?_, fun n hn htype i name m hentry => ?_⟩
  · obtain rfl | rfl := small_inum hn
    · change entrySize ∣ (record smallDisk 1).size.toNat
      rw [small_root]
      decide
    · exact absurd htype hfile
  · obtain rfl | rfl := small_inum hn
    · rw [hslots] at hentry
      have hmem := List.mem_of_getElem? hentry
      simp only [List.mem_cons, Option.some.injEq, Prod.mk.injEq, List.not_mem_nil, or_false] at hmem
      have hone : Inum smallSuper 1 ∧ (record small.disk 1).nlinks ≠ 0 := by
        change Inum smallSuper 1 ∧ (record smallDisk 1).nlinks ≠ 0
        rw [small_root]
        decide
      have htwo : Inum smallSuper 2 ∧ (record small.disk 2).nlinks ≠ 0 := by
        change Inum smallSuper 2 ∧ (record smallDisk 2).nlinks ≠ 0
        rw [small_file]
        decide
      obtain ⟨-, rfl⟩ | ⟨-, rfl⟩ | ⟨-, rfl⟩ := hmem
      · exact hone
      · exact hone
      · exact htwo
    · exact absurd htype hfile

theorem small_unlocked : Unlocked small := by
  intro k hk
  obtain rfl | rfl := small_cached hk <;> decide

theorem small_roomy (n : ℕ) (path : List (List Byte)) : Roomy small n path :=
  fun _ _ _ _ _ _ _ => ⟨2, by decide, rfl, Or.inr ⟨3, by decide, by decide, rfl⟩⟩

/-- The path `/../a` on the small disk. -/
theorem path_resolved_small : components [slash, dot, dot, slash, 0x61] = [[dot, dot], smallName] ∧
    ∃ r s', (namei 1 [slash, dot, dot, slash, 0x61] false).run small = some (r, s') ∧
      Kept smallSuper small s' (r.map Prod.fst).toList none ∧
      Resolves small.disk (start small 1 [slash, dot, dot, slash, 0x61])
        (components [slash, dot, dot, slash, 0x61]) false (r.map fun r => ((s'.inodes r.1).inum, r.2)) ∧
      ((∀ name ∈ lookups (components [slash, dot, dot, slash, 0x61]) false, name.length < maxPathLen) →
        ∀ r', Resolves small.disk (start small 1 [slash, dot, dot, slash, 0x61])
          (components [slash, dot, dot, slash, 0x61]) false r' →
          r'.map Prod.fst = r.map fun r => (s'.inodes r.1).inum) :=
  ⟨by decide, path_resolved small_sound small_tree small_unlocked (by decide)
    (fun _ => ⟨0, by decide, rfl⟩) (small_roomy _ _)⟩

/-- A name of 15 bytes comes back cut. -/
theorem name_cut : ¬ ∀ (sb : SuperBlock) (s : Fs) (p : ℕ) (path : List Byte), Sound sb s →
    Tree sb s.disk → Unlocked s → 0 < (s.inodes (s.cwd p)).ref →
    (path.head? = some slash → ∃ c, 0 < (s.inodes c).ref ∧ (s.inodes c).inum = rootInum) →
    Roomy s (start s p path) (lookups (components path) true) →
    ∀ c name s', (namei p path true).run s = some (some (c, name), s') →
      (components path).getLast? = some name := by
  intro h
  have hrun : ((namei 1 (List.replicate 15 0x62) true).run small).map Prod.fst =
      some (some (0, List.replicate 14 0x62)) := by
    decide +kernel
  obtain ⟨⟨r, s'⟩, hrun, rfl⟩ := Option.map_eq_some_iff.mp hrun
  have hname := h smallSuper small 1 (List.replicate 15 0x62) small_sound small_tree small_unlocked
    (by decide) (fun _ => ⟨0, by decide, rfl⟩) (small_roomy _ _) 0 _ s' hrun
  exact absurd hname (by decide)

end Small

end BabyOS.PathResolution

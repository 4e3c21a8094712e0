import BabyOS.CacheBooks

/-!
# Paths of a call in the inode cache

Every access of every call is made where the book of its process allows it, and a call
ends with empty hands, apart from the files that the process has opened.
-/

set_option autoImplicit false

namespace BabyOS.CachePaths
open BabyOS.AtomicPrograms BabyOS.AtomicPrograms.Program BabyOS.ByteWords
open BabyOS.FileSystem (DiskInode nDirect nIndirect maxFileSize blockSize maxInodeCache rootDev rootInum
  typeDir typeFile typeDev entrySize)
open BabyOS.InodeCache BabyOS.CacheBooks

section Paths

variable {p : ℕ} {α β : Type} {refs files : List ℕ} {P : Book → Prop} {v : Book} {i : ℕ}

/-! ## References -/

theorem path_forFrom {f : ℕ → Prog Unit} (hv : P v) (hf : ∀ k v, P v → Path p (f k) v fun _ v => P v) (n k : ℕ) :
    Path p (forFrom f n k) v fun _ v => P v := by
  induction n generalizing k v with
  | zero => exact hv
  | succ n ih => exact along_seq (hf k v hv) (fun _ _ hv => ih hv (k+1))

/-- In the branch of `put_inode` that frees. -/
def Freeing (refs files : List ℕ) (i : ℕ) (v : Book) : Prop :=
  ∃ dirty, (∀ j ∈ dirty, j = i) ∧ v = ⟨refs, files, dirty, none, none, some i, .none, none⟩

/-- An access that changes the inode which is freed. -/
theorem path_freed {e : Action} (hv : Freeing refs files i v)
    (hmay : ∀ s, v.freeing = some i ∧ v.buffer = .none → may p v s e)
    (hnote : note v e = { v with dirty := i :: v.dirty }) : Path p (act p e) v fun _ v => Freeing refs files i v := by
  obtain ⟨dirty, hdirty, rfl⟩ := hv
  apply path_act (fun s _ _ => hmay s ⟨rfl, rfl⟩)
  rw [hnote]
  refine ⟨i :: dirty, fun j hj => ?_, rfl⟩
  obtain rfl | hj := List.mem_cons.mp hj
  · rfl
  · exact hdirty j hj

theorem path_freeDirect (k : ℕ) (hv : Freeing refs files i v) :
    Path p (freeDirect p i k) v fun _ v => Freeing refs files i v := by
  apply path_low (only_look _)
  intro a
  split
  · exact hv
  · apply path_low (only_act (by trivial))
    intro _
    exact path_freed hv (fun _ h => h) rfl

theorem path_freeIndirect (hv : Freeing refs files i v) :
    Path p (freeIndirect p i) v fun _ v => Freeing refs files i v := by
  apply path_low (only_look _)
  intro a
  split
  · exact hv
  · apply path_low (only_wait (by trivial))
    intro _
    apply path_low (only_forFrom (only_freeEntry _) _ _)
    intro _
    apply path_low (only_act (by trivial))
    intro _
    apply path_low (only_act (by trivial))
    intro _
    apply path_low (only_act (by trivial))
    intro _
    exact path_freed hv (fun _ h => h) rfl

theorem ends_putInode (hi : i ∈ refs) : Ends p (putInode p i) refs files fun _ => refs.erase i := by
  apply ends_low (only_lockInode i)
  intro _
  apply along_bind
  intro s _ _
  by_cases hlast : (s.inodes i).last = true
  · simp only [hlast]
    refine ⟨⟨⟨⟨rfl, rfl, rfl, rfl⟩, hi, hlast⟩, rfl⟩, ?_⟩
    have hv : Freeing refs files i ⟨refs, files, [i], none, none, some i, .none, none⟩ :=
      ⟨[i], by simp, rfl⟩
    change Path p (do
      forFrom (freeDirect p i) nDirect 0
      freeIndirect p i
      act p (.shrink i)
      let _ ← saveInode p i
      act p (.erase i)) ⟨refs, files, [i], none, none, some i, .none, none⟩ _
    apply along_seq (path_forFrom hv (fun k v hv => path_freeDirect k hv) _ _)
    intro _ v hv
    apply along_seq (path_freeIndirect hv)
    intro _ v hv
    apply along_seq (path_freed (e := .shrink i) hv (fun _ h => h) rfl)
    rintro _ v ⟨dirty, hdirty, rfl⟩
    apply along_bind
    apply path_saveInode (by rfl) (by rfl) (Or.inl hi)
    intro n
    refine path_act (e := .erase i) (fun _ _ _ => ⟨rfl, hi, n, rfl⟩) ?_
    change (⟨refs.erase i, files, dirty.filter (· ≠ i), none, none, none, .none, none⟩ : Book) = _
    rw [filter_all hdirty]
    rfl
  · simp only [Bool.eq_false_of_not_eq_true hlast]
    exact ⟨⟨⟨⟨rfl, rfl, rfl, rfl⟩, hi, Bool.eq_false_of_not_eq_true hlast⟩, rfl⟩, rfl⟩

/-- The inode is unlocked and put. -/
theorem ends_release_put {x : Prog α} {f : α → List ℕ} (hi : i ∈ refs) (hx : Ends p x (refs.erase i) files f) :
    Ends p (do
      unlockInode p i
      putInode p i
      x) refs files f :=
  ends_low (only_unlockInode i) (fun _ => ends_seq (ends_putInode hi) (fun _ => hx))

theorem cached_spec {s : Cache} {dev inum j : ℕ} (h : s.cached dev inum = some j) :
    j < maxInodeCache ∧ 0 < (s.inodes j).ref ∧ (s.inodes j).dev = dev ∧ (s.inodes j).inum = inum := by
  have hfind := List.find?_some h
  have hmem := List.mem_of_find?_eq_some h
  simp only [decide_eq_true_eq] at hfind
  exact ⟨List.mem_range.mp hmem, hfind⟩

theorem empty_spec {s : Cache} {j : ℕ} (h : s.empty = some j) : j < maxInodeCache ∧ (s.inodes j).ref = 0 := by
  have hfind := List.find?_some h
  have hmem := List.mem_of_find?_eq_some h
  simp only [decide_eq_true_eq] at hfind
  exact ⟨List.mem_range.mp hmem, hfind⟩

/-- What `get_inode` does, and the book after it. -/
theorem getting_spec {s : Cache} {inum : ℕ} {o : Origin} (hfree : Free v) (hreason : ∀ i, Reason p v s i inum o) :
    may p v s (s.getting rootDev inum o) ∧ note v (s.getting rootDev inum o) = match s.got rootDev inum with
      | some j => { v with refs := j :: v.refs, known := fetched v.known j inum o, making := none }
      | none => { v with making := none } := by
  rw [Cache.getting, Cache.got]
  cases hcached : s.cached rootDev inum with
  | some j =>
    obtain ⟨-, hpos, -, hinum⟩ := cached_spec hcached
    exact ⟨⟨hfree, hpos, hinum, hreason j⟩, rfl⟩
  | none =>
    cases hempty : s.empty with
    | some j =>
      obtain ⟨hlt, hzero⟩ := empty_spec hempty
      exact ⟨⟨hfree, hlt, hzero, rfl, hcached, hreason j⟩, rfl⟩
    | none => exact ⟨trivial, rfl⟩

/-- The references after a function that may return an inode. -/
def found {γ : Type} (refs : List ℕ) (r : Option (ℕ × γ)) : List ℕ :=
  match r with
  | some (i, _) => i :: refs
  | none => refs

theorem ends_root : Ends p (getInode p rootDev rootInum .root) refs files fun r => match r with
    | some i => i :: refs
    | none => refs := by
  intro s _ _
  obtain ⟨hmay, hnote⟩ := @getting_spec p (hand refs files) s rootInum .root ⟨rfl, rfl, rfl, rfl⟩ (fun _ => rfl)
  refine ⟨⟨hmay, rfl⟩, ?_⟩
  dsimp only
  rw [hnote]
  cases s.got rootDev rootInum with
  | some j => exact rfl
  | none => exact rfl

theorem ends_dupCwd : Ends p (dupCwd p) refs files fun i => i :: refs :=
  fun _ _ ha => ⟨⟨⟨⟨rfl, rfl, rfl, rfl⟩, ha.2.home, rfl, rfl⟩, rfl⟩, rfl⟩

/-! ## Lookups -/

theorem path_readFromDisk {j id : ℕ} (hj : j ∈ refs) :
    Path p (readFromDisk p j id) { hand refs files with known := some (j, id) } fun _ v => v = hand refs files := by
  apply along_bind
  intro s _ _
  by_cases hvalid : (s.inodes j).valid = true
  · simp only [if_pos hvalid]
    refine ⟨⟨⟨hvalid, id, rfl⟩, rfl⟩, ?_⟩
    simp only [hvalid]
    exact rfl
  · simp only [if_neg hvalid]
    refine ⟨⟨trivial, rfl⟩, ?_⟩
    simp only [Bool.eq_false_of_not_eq_true hvalid]
    intro s hready _
    refine ⟨⟨⟨rfl, Option.isNone_iff_eq_none.mp hready⟩, rfl⟩, ?_⟩
    exact path_act (e := .load j id) (fun _ _ _ => ⟨rfl, hj, rfl, rfl⟩) rfl

theorem ends_dirLookupFrom (hi : i ∈ refs) (name : List Byte) (fuel k : ℕ) :
    Ends p (dirLookupFrom p i name fuel k) refs files (found refs) := by
  induction fuel generalizing k with
  | zero => exact ends_stop
  | succ fuel ih =>
    apply ends_seq (ends_readInode _ _)
    intro n
    apply ends_ite
    · intro _
      apply along_bind
      intro s _ ha
      by_cases hentry : (s.entries (s.inodes i).inum k).1 ≠ 0 ∧ (s.entries (s.inodes i).inum k).2 = name
      · have hdev : (s.inodes i).dev = rootDev := ha.2.rooted i (ha.2.used i (Or.inl hi))
        simp only [if_pos hentry, hdev]
        obtain ⟨hmay, hnote⟩ := @getting_spec p (hand refs files) s (s.entries (s.inodes i).inum k).1
          (.entry i k) ⟨rfl, rfl, rfl, rfl⟩ (fun _ => ⟨hi, rfl, hentry.1⟩)
        refine ⟨⟨hmay, rfl⟩, ?_⟩
        rw [hnote]
        cases s.got rootDev (s.entries (s.inodes i).inum k).1 with
        | none => exact trivial
        | some j =>
          apply along_seq (path_readFromDisk List.mem_cons_self)
          rintro _ v rfl
          exact rfl
      · simp only [if_neg hentry]
        exact ⟨⟨trivial, rfl⟩, ih (k+1)⟩
    · exact fun _ => ends_pure rfl

theorem ends_dirLookup (hi : i ∈ refs) (name : List Byte) :
    Ends p (dirLookup p i name) refs files (found refs) := ends_dirLookupFrom hi name _ _

/-- Hand over hand: the next inode is taken before the last one is put. -/
theorem erase_second (i j : ℕ) (refs : List ℕ) : (j :: i :: refs).erase i = j :: refs := by
  by_cases h : j = i
  · rw [h, List.erase_cons_head]
  · rw [List.erase_cons_tail (by rwa [beq_iff_eq]), List.erase_cons_head]

theorem ends_nameiFrom (parent : Bool) (fuel i : ℕ) (path name : List Byte) :
    Ends p (nameiFrom p parent fuel i path name) (i :: refs) files (found refs) := by
  have hi : ∀ i, i ∈ i :: refs := fun i => List.mem_cons_self
  induction fuel generalizing i path name with
  | zero => exact ends_stop
  | succ fuel ih =>
    rw [nameiFrom]
    split
    · apply ends_ite
      · intro _
        apply ends_seq (ends_putInode (hi i))
        intro _
        rw [List.erase_cons_head]
        exact ends_pure rfl
      · exact fun _ => ends_pure rfl
    next path name _ =>
      have hout : Ends p (do
          unlockInode p i
          putInode p i
          pure none : Prog (Option (ℕ × List Byte))) (i :: refs) files (found refs) := by
        apply ends_release_put (hi i)
        rw [List.erase_cons_head]
        exact ends_pure rfl
      apply ends_low (only_lockInode i)
      intro _
      apply ends_low (only_look _)
      intro type
      apply ends_ite
      · exact fun _ => hout
      intro _
      apply ends_ite
      · exact fun _ => ends_low (only_unlockInode i) (fun _ => ends_pure rfl)
      intro _
      apply ends_seq (ends_dirLookup (hi i) name)
      intro r
      cases r with
      | none => exact hout
      | some r =>
        obtain ⟨next, k⟩ := r
        apply ends_release_put (List.mem_cons_of_mem next (hi i))
        rw [erase_second]
        exact ih next path name

theorem ends_namei (path : List Byte) (parent : Bool) :
    Ends p (namei p path parent) refs files (found refs) := by
  apply ends_ite
  · intro _
    apply ends_seq ends_root
    intro first
    cases first with
    | none => exact ends_stop
    | some i => exact ends_nameiFrom parent _ i _ _
  · intro _
    apply ends_seq ends_dupCwd
    intro i
    exact ends_nameiFrom parent _ i _ _

/-! ## Names in a directory -/

theorem ends_freeEntryFrom (fuel k : ℕ) : Ends p (freeEntryFrom p i fuel k) refs files fun _ => refs := by
  induction fuel generalizing k with
  | zero => exact ends_stop
  | succ fuel ih =>
    apply ends_low (only_look _)
    intro size
    apply ends_ite
    · intro _
      apply ends_seq (ends_readInode _ _)
      intro n
      apply ends_ite
      · intro _
        apply ends_low (only_look _)
        intro id
        exact ends_ite (fun _ => ends_pure rfl) (fun _ => ih (k+1))
      · exact fun _ => ends_pure rfl
    · exact fun _ => ends_pure rfl

theorem ends_dirLink (hi : i ∈ refs) (name : List Byte) (inum : ℕ) :
    Ends p (dirLink p i name inum) refs files fun _ => refs := by
  apply ends_seq (ends_dirLookup hi name)
  intro r
  cases r with
  | some r => exact fun s _ ha => absurd rfl (ha.1 i)
  | none =>
    apply ends_seq (ends_freeEntryFrom _ _)
    intro r
    cases r with
    | none => exact ends_pure rfl
    | some k =>
      apply ends_low (only_look _)
      intro d
      exact ends_seq (ends_writeInode (Or.inl hi) trivial) (fun _ => ends_pure rfl)

theorem ends_dirEmpty : Ends p (dirEmpty p i) refs files fun _ => refs := by
  have hloop : ∀ fuel k, Ends p (dirEmptyFrom p i fuel k) refs files fun _ => refs := by
    intro fuel
    induction fuel with
    | zero => exact fun _ => ends_stop
    | succ fuel ih =>
      intro k
      apply ends_low (only_look _)
      intro size
      apply ends_ite
      · intro _
        apply ends_seq (ends_readInode _ _)
        intro n
        apply ends_ite
        · intro _
          apply ends_low (only_look _)
          intro id
          exact ends_ite (fun _ => ih (k+1)) (fun _ => ends_pure rfl)
        · exact fun _ => ends_stop
      · exact fun _ => ends_pure rfl
  exact hloop _ _

/-- The references after a function that may return an inode with a reference. -/
def given (refs : List ℕ) : Option ℕ → List ℕ
  | some i => i :: refs
  | none => refs

/-- `alloc_inode` returns an inode that is not read. -/
def Allocated (refs files : List ℕ) (r : Option ℕ) (v : Book) : Prop :=
  match r with
  | some i => ∃ id, v = { hand (i :: refs) files with known := some (i, id) }
  | none => v = hand refs files

theorem path_allocInodeFrom {type : BitVec 16} (htype : type ≠ 0) (k id : ℕ) :
    Path p (allocInodeFrom p rootDev type k id) (hand refs files) (Allocated refs files) := by
  induction k generalizing id with
  | zero => exact rfl
  | succ k ih =>
    have hrelease : ∀ (x : Prog (Option ℕ)) (making : Option ℕ),
        Path p x ⟨refs, files, [], none, none, none, .none, making⟩ (Allocated refs files) →
        Path p (do
          act p (.release (inodeBlock id))
          x) ⟨refs, files, [], none, none, none, .block (inodeBlock id), making⟩ (Allocated refs files) := by
      intro x making hx
      apply along_bind
      exact path_act (e := .release (inodeBlock id)) (fun _ _ _ => Or.inl rfl) hx
    intro s hready _
    refine ⟨⟨⟨rfl, Option.isNone_iff_eq_none.mp hready⟩, rfl⟩, ?_⟩
    change Path p (do
      let free ← choose p (fun s => if (s.records id).type = 0 then .make id type else .quiet)
        fun s => decide ((s.records id).type = 0)
      if free then do
        act p (.release (inodeBlock id))
        getInode p rootDev id .alloc
      else do
        act p (.release (inodeBlock id))
        allocInodeFrom p rootDev type k (id+1))
      ⟨refs, files, [], none, none, none, .block (inodeBlock id), none⟩ _
    apply along_bind
    intro s _ _
    by_cases hfree : (s.records id).type = 0
    · simp only [if_pos hfree, decide_eq_true hfree]
      refine ⟨⟨⟨rfl, hfree, htype, rfl⟩, rfl⟩, ?_⟩
      apply hrelease
      intro s _ _
      obtain ⟨hmay, hnote⟩ := @getting_spec p
        ⟨refs, files, [], none, none, none, .none, some id⟩ s id .alloc ⟨rfl, rfl, rfl, rfl⟩ (fun _ => rfl)
      refine ⟨⟨hmay, rfl⟩, ?_⟩
      dsimp only
      rw [hnote]
      cases s.got rootDev id with
      | some j => exact ⟨id, rfl⟩
      | none => exact rfl
    · simp only [if_neg hfree, decide_eq_false hfree]
      exact ⟨⟨trivial, rfl⟩, hrelease _ none (ih (id+1))⟩

theorem path_allocInode {type : BitVec 16} (htype : type ≠ 0) :
    Path p (allocInode p rootDev type) (hand refs files) (Allocated refs files) :=
  path_low (only_look _) (fun _ => path_allocInodeFrom htype _ _)

/-- A reference is lost. -/
theorem ends_lose (hi : i ∈ refs) : Ends p (act p (.lose i)) refs files fun _ => refs.erase i :=
  ends_act (fun _ _ => ⟨⟨rfl, rfl, rfl, rfl⟩, hi⟩) rfl

/-- A number that is looked up where it is known. -/
theorem ends_dev {f : ℕ → Prog α} {h : α → List ℕ} (hi : i ∈ refs) (hf : Ends p (f rootDev) refs files h) :
    Ends p (do
      let dev ← look fun s => (s.inodes i).dev
      f dev) refs files h := by
  intro s _ ha
  have hdev : (s.inodes i).dev = rootDev := ha.2.rooted i (ha.2.used i (Or.inl hi))
  refine ⟨⟨trivial, rfl⟩, ?_⟩
  simp only [hdev]
  exact hf

theorem ends_create (path : List Byte) {type : BitVec 16} (htype : type ≠ 0) (major minor : BitVec 16) :
    Ends p (create p path type major minor) refs files (given refs) := by
  apply ends_seq (ends_namei path true)
  intro r
  cases r with
  | none => exact ends_pure rfl
  | some r =>
    obtain ⟨d, name⟩ := r
    have hd : d ∈ d :: refs := List.mem_cons_self
    apply ends_low (only_lockInode d)
    intro _
    apply ends_seq (ends_dirLookup hd name)
    intro r
    cases r with
    | some r =>
      obtain ⟨i, k⟩ := r
      apply ends_release_put (List.mem_cons_of_mem i hd)
      rw [erase_second]
      apply ends_low (only_lockInode i)
      intro _
      apply ends_low (only_look _)
      intro type
      apply ends_ite
      · exact fun _ => ends_pure rfl
      · intro _
        apply ends_release_put List.mem_cons_self
        rw [List.erase_cons_head]
        exact ends_pure rfl
    | none =>
      apply ends_dev hd
      apply along_seq (path_allocInode htype)
      intro r v hv
      cases r with
      | none =>
        obtain rfl := hv
        apply ends_low (only_unlockInode d)
        intro _
        apply ends_seq (ends_lose hd)
        intro _
        rw [List.erase_cons_head]
        exact ends_pure rfl
      | some i =>
        have hi : i ∈ i :: d :: refs := List.mem_cons_self
        have hd' : d ∈ i :: d :: refs := List.mem_cons_of_mem i hd
        have hend : ∀ (inum : ℕ) (linked : Bool), Ends p (if linked then do
              let _ ← dirLink p d name inum
              unlockInode p d
              putInode p d
              pure (some i)
            else do
              unlockInode p i
              unlockInode p d
              act p (.lose i)
              act p (.lose d)
              pure none) (i :: d :: refs) files (given refs) := by
          intro inum linked
          apply ends_ite
          · intro _
            apply ends_seq (ends_dirLink hd' name inum)
            intro _
            apply ends_release_put hd'
            rw [erase_second]
            exact ends_pure rfl
          · intro _
            apply ends_low (only_unlockInode i)
            intro _
            apply ends_low (only_unlockInode d)
            intro _
            apply ends_seq (ends_lose hi)
            intro _
            rw [List.erase_cons_head]
            apply ends_seq (ends_lose hd)
            intro _
            rw [List.erase_cons_head]
            exact ends_pure rfl
        have hrest : Ends p (do
            let inum ← look fun s => (s.inodes i).inum
            let linked ← if type = typeDir then do
                changeLinks p d (·+1)
                if ← dirLink p i [FileSystem.dot] inum then dirLink p i [FileSystem.dot, FileSystem.dot] inum
                else pure false
              else pure true
            if linked then do
              let _ ← dirLink p d name inum
              unlockInode p d
              putInode p d
              pure (some i)
            else do
              unlockInode p i
              unlockInode p d
              act p (.lose i)
              act p (.lose d)
              pure none) (i :: d :: refs) files (given refs) := by
          apply ends_low (only_look _)
          intro inum
          apply ends_ite
          · intro _
            apply ends_seq (ends_changeLinks hd' _)
            intro _
            apply ends_seq (ends_dirLink hi _ inum)
            intro first
            apply ends_ite
            · exact fun _ => ends_seq (ends_dirLink hi _ inum) (hend inum)
            · exact fun _ => ends_low (only_pure _) (hend inum)
          · exact fun _ => ends_low (only_pure _) (hend inum)
        obtain ⟨id, rfl⟩ := hv
        apply path_low (only_lockInode i)
        intro _
        apply along_bind
        refine path_act (e := .init i type major minor) (fun _ _ _ => ⟨hi, rfl, rfl, htype, id, rfl⟩) ?_
        apply along_bind
        rw [Ends, ← hand_saved (i :: d :: refs) files i] at hrest
        exact path_writeToDisk (by rfl) (by rfl) (by rfl) (Or.inl hi) hrest

end Paths

/-! ## System calls -/

section Calls

variable {p i : ℕ} {files : List ℕ}

/-- The files after a call are some files. -/
def Idle (v : Book) : Prop := ∃ files, v = hand [] files

theorem call_ends {x : Prog Bool} (hx : Ends p x [] files fun _ => []) :
    Path p x (hand [] files) fun _ v => Idle v :=
  along_mono hx (fun _ _ hv => ⟨files, hv⟩)

/-- A process that has one inode, and gives it back. -/
theorem ends_last {α : Type} {x : Prog α} {f : α → List ℕ} (hx : Ends p x [] files f) : Ends p (do
      unlockInode p i
      putInode p i
      x) [i] files f := by
  apply ends_release_put List.mem_cons_self
  rw [List.erase_cons_head]
  exact hx

/-- What follows when the inode was looked for or created. -/
theorem idle_openFound (mode : BitVec 32) (room : Bool) (found : Option ℕ) (v : Book) :
    v = hand (given [] found) files → Path p (match found with
      | none => pure false
      | some i => do
        let type ← look fun s => (s.inodes i).type
        unlockInode p i
        if (type = typeDir ∧ mode ≠ FileSystem.modeRdonly) ∨ room = false then do
          act p (.lose i)
          pure false
        else do
          act p (.keep i)
          pure true : Prog Bool) v fun _ v => Idle v := by
  rintro rfl
  cases found with
  | none => exact ⟨files, rfl⟩
  | some i =>
    have hi : i ∈ [i] := List.mem_cons_self
    have hidle : ∀ files, Idle (hand ([i].erase i) files) := by
      intro files
      rw [List.erase_cons_head]
      exact ⟨files, rfl⟩
    apply path_low (only_look _)
    intro type
    apply path_low (only_unlockInode i)
    intro _
    split
    · exact fun _ _ _ => ⟨⟨⟨⟨rfl, rfl, rfl, rfl⟩, hi⟩, rfl⟩, hidle files⟩
    · exact fun _ _ _ => ⟨⟨⟨⟨rfl, rfl, rfl, rfl⟩, hi⟩, rfl⟩, hidle (i :: files)⟩

theorem idle_doOpen (path : List Byte) (mode : BitVec 32) (room : Bool) :
    Path p (doOpen p path mode room) (hand [] files) fun _ v => Idle v := by
  have hend := @idle_openFound p files mode room
  have htype : typeFile ≠ 0 := by decide
  by_cases hmode : mode &&& FileSystem.modeCreate ≠ 0
  · rw [doOpen, if_pos hmode]
    exact along_seq (ends_create path htype 0 0) hend
  · rw [doOpen, if_neg hmode]
    apply along_seq (ends_namei path false)
    rintro r v hv
    cases r with
    | none => exact hend none v hv
    | some r => exact hend (some r.1) v hv

theorem idle_doClose (k : ℕ) :
    Path p (doClose p k) (hand [] files) fun _ v => Idle v := by
  intro s _ ha
  refine ⟨⟨trivial, rfl⟩, ?_⟩
  have hfiles : s.opened p = files := ha.2.files
  simp only [hfiles]
  cases hk : files[k]? with
  | none => exact ⟨files, rfl⟩
  | some i =>
    have hi : i ∈ files := List.mem_of_getElem? hk
    intro s _ _
    refine ⟨⟨⟨⟨rfl, rfl, rfl, rfl⟩, hi⟩, rfl⟩, ?_⟩
    change Path p (do
      putInode p i
      pure true) (hand [i] (files.erase i)) _
    have hput : Ends p (putInode p i) [i] (files.erase i) fun _ => [i].erase i :=
      ends_putInode List.mem_cons_self
    rw [List.erase_cons_head] at hput
    have hend : Ends p (do
        putInode p i
        pure true) [i] (files.erase i) fun _ => [] := ends_seq hput (fun _ => ends_pure rfl)
    exact along_mono hend (fun _ _ hv => ⟨files.erase i, hv⟩)

theorem idle_doRead (k off count : ℕ) :
    Path p (doRead p k off count) (hand [] files) fun _ v => Idle v := by
  apply call_ends
  apply ends_low (only_look _)
  intro file
  cases file with
  | none => exact ends_pure rfl
  | some i => exact ends_seq (ends_readInode _ _) (fun _ => ends_pure rfl)

theorem idle_doWrite (k off count : ℕ) :
    Path p (doWrite p k off count) (hand [] files) fun _ v => Idle v := by
  intro s _ ha
  refine ⟨⟨trivial, rfl⟩, ?_⟩
  have hfiles : s.opened p = files := ha.2.files
  simp only [hfiles]
  cases hk : files[k]? with
  | none => exact ⟨files, rfl⟩
  | some i =>
    have hi : i ∈ files := List.mem_of_getElem? hk
    have hwrite : Ends p (do
        let n ← writeInode p i off count .quiet
        pure n.isSome) [] files fun _ => [] :=
      ends_seq (ends_writeInode (Or.inr hi) (by trivial)) (fun _ => ends_pure rfl)
    exact call_ends hwrite

theorem ends_make (path : List Byte) {type : BitVec 16} (htype : type ≠ 0) (major minor : BitVec 16) :
    Ends p (make p path type major minor) [] files fun _ => [] := by
  apply ends_seq (ends_create path htype major minor)
  intro r
  cases r with
  | none => exact ends_pure rfl
  | some i => exact ends_last (ends_pure rfl)

theorem ends_linkFailed : Ends p (linkFailed p i) [i] files fun _ => [] := by
  have hi : i ∈ [i] := List.mem_cons_self
  apply ends_low (only_lockInode i)
  intro _
  apply ends_seq (ends_changeLinks hi _)
  intro _
  apply ends_low (only_unlockInode i)
  intro _
  apply ends_seq (ends_lose hi)
  intro _
  rw [List.erase_cons_head]
  exact ends_pure rfl

theorem ends_doLink (old new : List Byte) : Ends p (doLink p old new) [] files fun _ => [] := by
  apply ends_seq (ends_namei old false)
  intro r
  cases r with
  | none => exact ends_pure rfl
  | some r =>
    obtain ⟨i, name⟩ := r
    have hi : i ∈ [i] := List.mem_cons_self
    apply ends_low (only_lockInode i)
    intro _
    apply ends_low (only_look _)
    intro type
    apply ends_ite
    · exact fun _ => ends_last (ends_pure rfl)
    intro _
    apply ends_seq (ends_changeLinks hi _)
    intro _
    apply ends_low (only_unlockInode i)
    intro _
    apply ends_seq (ends_namei new true)
    intro r
    cases r with
    | none => exact ends_linkFailed
    | some r =>
      obtain ⟨d, name⟩ := r
      have hend : ∀ linked : Bool, Ends p (do
          unlockInode p d
          putInode p d
          if linked then do
            putInode p i
            pure true
          else linkFailed p i) [d, i] files fun _ => [] := by
        intro linked
        apply ends_release_put List.mem_cons_self
        rw [List.erase_cons_head]
        apply ends_ite
        · intro _
          apply ends_seq (ends_putInode hi)
          intro _
          rw [List.erase_cons_head]
          exact ends_pure rfl
        · exact fun _ => ends_linkFailed
      apply ends_low (only_lockInode d)
      intro _
      apply ends_low (only_look _)
      intro other
      apply ends_low (only_look _)
      intro inum
      apply ends_ite
      · exact fun _ => ends_low (only_pure _) hend
      · exact fun _ => ends_seq (ends_dirLink List.mem_cons_self name inum) hend

theorem ends_unlinkFailed : Ends p (unlinkFailed p i) [i] files fun _ => [] := ends_last (ends_pure rfl)

theorem ends_doUnlink (path : List Byte) : Ends p (doUnlink p path) [] files fun _ => [] := by
  apply ends_seq (ends_namei path true)
  intro r
  cases r with
  | none => exact ends_pure rfl
  | some r =>
    obtain ⟨d, name⟩ := r
    have hd₀ : d ∈ [d] := List.mem_cons_self
    apply ends_low (only_lockInode d)
    intro _
    apply ends_ite
    · exact fun _ => ends_unlinkFailed
    intro _
    apply ends_seq (ends_dirLookup hd₀ name)
    intro r
    cases r with
    | none => exact ends_unlinkFailed
    | some r =>
      obtain ⟨i, k⟩ := r
      have hd : d ∈ [i, d] := List.mem_cons_of_mem i hd₀
      have hi : i ∈ [i, d] := List.mem_cons_self
      have hlast : Ends p (do
          unlockInode p d
          putInode p d
          changeLinks p i (·-1)
          unlockInode p i
          putInode p i
          pure true : Prog Bool) [i, d] files fun _ => [] := by
        apply ends_release_put hd
        rw [erase_second]
        apply ends_seq (ends_changeLinks List.mem_cons_self _)
        exact fun _ => ends_last (ends_pure rfl)
      have hend : ∀ full : Bool, Ends p (if full then do
            unlockInode p i
            putInode p i
            unlinkFailed p d
          else do
            let id ← look fun s => (s.inodes d).inum
            let _ ← writeInode p d (entrySize*k) entrySize (.name id k 0 [])
            let type ← look fun s => (s.inodes i).type
            if type = typeDir then changeLinks p d (·-1)
            unlockInode p d
            putInode p d
            changeLinks p i (·-1)
            unlockInode p i
            putInode p i
            pure true) [i, d] files fun _ => [] := by
        intro full
        apply ends_ite
        · intro _
          apply ends_release_put hi
          rw [List.erase_cons_head]
          exact ends_unlinkFailed
        · intro _
          apply ends_low (only_look _)
          intro id
          apply ends_seq (ends_writeInode (Or.inl hd) (by trivial))
          intro _
          apply ends_low (only_look _)
          intro type
          apply ends_ite
          · exact fun _ => ends_seq (ends_changeLinks hd _) (fun _ => hlast)
          · exact fun _ => hlast
      apply ends_low (only_lockInode i)
      intro _
      apply ends_low (only_look _)
      intro x
      apply ends_ite
      · intro _
        apply ends_seq (ends_lose hi)
        intro _
        rw [List.erase_cons_head]
        exact ends_unlinkFailed
      · intro _
        apply ends_ite
        · intro _
          apply ends_seq ends_dirEmpty
          exact fun _ => ends_low (only_pure _) hend
        · exact fun _ => ends_low (only_pure _) hend

/-- Every call that is taken up between calls ends between calls. -/
theorem path_program {v : Book} (hv : Idle v) (c : Call) :
    Path p (program p c) v fun _ v => Idle v := by
  obtain ⟨files, rfl⟩ := hv
  cases c with
  | doOpen path mode room => exact idle_doOpen path mode room
  | doClose k => exact idle_doClose k
  | doRead k off count => exact idle_doRead k off count
  | doWrite k off count => exact idle_doWrite k off count
  | doMkdir path => exact call_ends (ends_make path (by decide) _ _)
  | doMknod path major minor => exact call_ends (ends_make path (by decide) _ _)
  | doLink old new => exact call_ends (ends_doLink old new)
  | doUnlink path => exact call_ends (ends_doUnlink path)

end Calls

end BabyOS.CachePaths

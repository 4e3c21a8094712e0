import BabyOS.InodeAccesses

/-!
# References and locks along the paths of a call

What a process has of the inodes is a book: the references in hand, the locks, and
whether its current directory still holds its own. Every path of every call gives
back what it took, apart from the branches that are named here.
-/

set_option autoImplicit false

namespace BabyOS.InodePaths
open BabyOS.AtomicPrograms BabyOS.AtomicPrograms.Program BabyOS.ByteWords
open BabyOS.FileTable (System Phase perform maxOpenFile)
open BabyOS.FileSystem (Fs Event Inode Branch Prog Answer Call Semaphore look act mark forFrom)
open BabyOS.InodeAccesses

/-! ## The book of a process -/

/-- What a process has in hand; `home` tells that its current directory has its own
reference. -/
structure Book where
  refs : List ℕ
  locks : List ℕ
  asked : Option ℕ
  home : Bool
  phase : Phase
deriving DecidableEq

def blank : Book := ⟨[], [], none, true, .running⟩

def phaseAfter (phase : Phase) : FileTable.Event → Phase
  | .exitClose _ k => .exiting (k+1)
  | .exited _ => .zombie
  | _ => phase

/-- With `l` the locks are noted, otherwise the references alone. -/
def note (l : Bool) (b : Book) : Event → Book
  | .ask i => if l then { b with asked := some i } else b
  | .lock i => if l then { b with locks := i :: b.locks, asked := none } else b
  | .unlock i => if l then { b with locks := b.locks.erase i } else b
  | .take i => { b with refs := i :: b.refs }
  | .fresh i => { b with refs := i :: b.refs }
  | .drop i => { b with refs := b.refs.erase i }
  | .lose i => { b with refs := b.refs.erase i }
  | .keep i => { b with refs := b.refs.erase i }
  | .files e => { b with phase := phaseAfter b.phase e }
  | .withdraw e i => { b with refs := i :: b.refs, phase := phaseAfter b.phase e }
  | .leave i => { b with refs := i :: b.refs, home := false }
  | .enter i => { b with refs := b.refs.erase i, home := true }
  | .retire i => { b with refs := i :: b.refs, home := false, phase := .exiting 0 }
  | _ => b

/-- The steps of the file table that a process takes, in the phase that it is in. -/
def Own (p : ℕ) (phase : Phase) : FileTable.Event → Prop
  | .doClose q _ | .doDup q _ => q = p ∧ phase = .running
  | .exitClose q k => q = p ∧ phase = .exiting k ∧ k < maxOpenFile
  | .exited q => q = p ∧ phase = .exiting maxOpenFile
  | _ => False

/-- A lock is taken with a reference and not twice, and given back by its holder; a
reference that is given up is in hand. -/
def may (l : Bool) (p : ℕ) (b : Book) : Event → Prop
  | .ask i => l = true → i ∉ b.locks ∧ i ∈ b.refs ∧ b.asked = none
  | .lock i => l = true → i ∉ b.locks ∧ i ∈ b.refs
  | .unlock i => l = true → i ∈ b.locks
  | .drop i | .lose i | .keep i => i ∈ b.refs ∧ (l = true → i ∉ b.locks ∧ b.asked = none)
  | .enter i => i ∈ b.refs ∧ (l = true → i ∉ b.locks ∧ b.asked = none) ∧ b.home = false ∧
      b.phase = .running
  | .leave _ | .retire _ => b.home = true ∧ b.phase = .running
  | .files e | .withdraw e _ => Own p b.phase e
  | .fork _ => b.home = true ∧ b.phase = .running
  | _ => True

/-- What an access does to the counts, the semaphores, the files and the directories. -/
def effect (l : Bool) (p : ℕ) (b : Book) (c : Core) : Event → Core → Prop
  | .ask i, c' => (c.sem i).count = 0 ∧ c' = c.setSem i ((c.sem i).down p)
  | .lock i, c' => (0 < (c.sem i).count ∧ (l = true → b.asked = none) ∧
        c' = c.setSem i ((c.sem i).down p)) ∨
      (p ∈ (c.sem i).granted ∧ (l = true → b.asked = some i) ∧ c' = c.setSem i ((c.sem i).resume p))
  | .unlock i, c' => c' = c.setSem i (c.sem i).up
  | .take i, c' => (0 < c.ref i ∨ (b.home = true ∧ i = c.cwd p)) ∧ c' = c.setRef i (c.ref i+1)
  | .fresh i, c' => c.ref i = 0 ∧ c' = (c.setRef i 1).setSem i (.init 1)
  | .drop i, c' => c' = c.setRef i (c.ref i-1)
  | .lose i, c' => c' = c ∨ ∃ refused readable writeable r,
      perform c.files (.doOpen p i refused readable writeable) = some r ∧ r.opened = [] ∧
        b.phase = .running ∧ c' = { c with files := r.state }
  | .keep i, c' => ∃ refused readable writeable r,
      perform c.files (.doOpen p i refused readable writeable) = some r ∧ r.opened ≠ [] ∧
        b.phase = .running ∧ c' = { c with files := r.state }
  | .files e, c' => ∃ r, perform c.files e = some r ∧
      FileSystem.releasedInode c.files r = none ∧ c' = { c with files := r.state }
  | .withdraw e i, c' => ∃ r, perform c.files e = some r ∧
      FileSystem.releasedInode c.files r = some i ∧ c' = { c with files := r.state }
  | .leave i, c' => i = c.cwd p ∧ c' = c
  | .enter i, c' => c' = { c with cwd := Function.update c.cwd p i }
  | .retire i, c' => i = c.cwd p ∧ ∃ r, perform c.files (.exit p) = some r ∧
      c' = { c with files := r.state }
  | .fork i, c' => i = c.cwd p ∧ ∃ r, perform c.files (.fork p) = some r ∧
      c' = { c.setRef i (c.ref i+1) with
        files := r.state, cwd := Function.update c.cwd c.files.count i }
  | _, c' => c' = c

def rule (l : Bool) (p : ℕ) (b : Book) (s : Fs) (e : Event) (s' : Fs) : Prop :=
  may l p b e ∧ effect l p b (core s) e (core s')

/-- The branches on which what was taken is not given back as it was taken: `link` finds
the new name; and, where locks are noted, the inode of a path is unlocked, a second inode
is the first one, or an inode in a directory has no link. -/
def Lawful (l : Bool) : Event → Prop
  | .branch (.linkExists _) => False
  | .branch (.unlocked _) => l = false
  | .branch (.dead _) => l = false
  | .branch (.second i j) => l = true → i ≠ j
  | _ => True

/-- A process in a call exists, in the phase that its book has. -/
def Relies (p : ℕ) (b : Book) (s : Fs) : Prop :=
  p < s.files.count ∧ (s.files.procs p).phase = b.phase

section Paths

variable {l : Bool} {p : ℕ} {α β : Type} {b : Book}

def Path (l : Bool) (p : ℕ) (x : Prog α) (b : Book) (Q : α → Book → Prop) : Prop :=
  x.Along (fun b s e => Lawful l e ∧ Relies p b s) (note l) (rule l p) b Q

/-- The book at the end. -/
def Ends (l : Bool) (p : ℕ) (x : Prog α) (b : Book) (f : α → Book) : Prop :=
  Path l p x b fun a b' => b' = f a

theorem ends_pure {a : α} {f : α → Book} (h : b = f a) : Ends l p (pure a : Prog α) b f := h

theorem ends_stop {f : α → Book} : Ends l p (.stop : Prog α) b f := trivial

theorem ends_seq {x : Prog α} {g : α → Book} {f : α → Prog β} {h : β → Book} (hx : Ends l p x b g)
    (hf : ∀ a, Ends l p (f a) (g a) h) : Ends l p (x >>= f) b h := by
  apply along_seq hx
  rintro a b' rfl
  exact hf a

theorem ends_ite {c : Prop} [Decidable c] {x y : Prog α} {f : α → Book}
    (hx : c → Ends l p x b f) (hy : ¬ c → Ends l p y b f) : Ends l p (if c then x else y) b f := by
  split
  next hc => exact hx hc
  next hc => exact hy hc

theorem note_low {e : Event} (h : Low e) : note l b e = b := by
  cases e <;> first | rfl | cases h

theorem rule_low {e : Event} {s s' : Fs} (h : Low e) (hc : core s' = core s) : rule l p b s e s' := by
  cases e <;> first | exact ⟨trivial, hc⟩ | cases h

/-- Programs that only touch contents leave the book alone. -/
theorem ends_only {x : Prog α} (hx : x.Only Apart) : Ends l p x b fun _ => b :=
  along_only hx (fun _ _ _ h => ⟨note_low h.1, rule_low h.1 h.2⟩)

theorem ends_low {x : Prog α} {f : α → Prog β} {h : β → Book} (hx : x.Only Apart)
    (hf : ∀ a, Ends l p (f a) b h) : Ends l p (x >>= f) b h :=
  ends_seq (ends_only hx) hf

/-- The content of an inode is set. -/
theorem ends_set {i : ℕ} {x : Fs → Inode} {f : Unit → Prog β} {h : β → Book}
    (hx : ∀ s, (x s).ref = (s.inodes i).ref ∧ (x s).sem = (s.inodes i).sem)
    (hf : Ends l p (f ()) b h) : Ends l p (act .quiet (fun s => s.setInode i (x s)) >>= f) b h :=
  ends_low (only_act trivial (fun s => core_setInode_same (hx s).1 (hx s).2)) (fun _ => hf)

/-- One access with an event that does not depend on the state. -/
theorem ends_act {e : Event} {f : Fs → Fs} (hmay : Lawful l e → may l p b e)
    (heffect : ∀ s, Relies p b s → effect l p b (core s) e (core (f s))) :
    Ends l p (act e f) b fun _ => note l b e :=
  fun s _ ha => ⟨⟨hmay ha.1, heffect s ha.2⟩, rfl⟩

theorem ends_mark {e : Event} (hmay : Lawful l e → may l p b e)
    (heffect : ∀ c, effect l p b c e c) : Ends l p (mark e) b fun _ => note l b e :=
  ends_act hmay (fun _ _ => heffect _)

theorem ends_branch {br : Branch} {f : Unit → Prog α} {h : α → Book}
    (hf : Lawful l (.branch br) → Ends l p (f ()) b h) : Ends l p (mark (.branch br) >>= f) b h := by
  intro s _ ha
  exact ⟨⟨trivial, rfl⟩, hf ha.1⟩

/-- A book without a pending request. -/
def hand (l home : Bool) (phase : Phase) (refs locks : List ℕ) : Book :=
  ⟨refs, if l then locks else [], none, home, phase⟩

end Paths

/-! ## References and locks -/

section Hands

variable {l home : Bool} {p i : ℕ} {phase : Phase} {refs locks : List ℕ} {α β : Type}

theorem ends_lockInode (h : l = true → i ∉ locks ∧ i ∈ refs) :
    Ends l p (FileSystem.lockInode p i) (hand l home phase refs locks)
      fun _ => hand l home phase refs (i :: locks) := by
  have hmay : l = true → i ∉ (hand l home phase refs locks).locks ∧ i ∈ refs := by
    rintro rfl
    exact h rfl
  intro s _ _
  dsimp only
  split
  next hcount =>
    refine ⟨⟨hmay, Or.inl ⟨hcount, fun _ => rfl, core_sem s i _⟩⟩, ?_⟩
    cases l <;> rfl
  next hcount =>
    have hask : may l p (hand l home phase refs locks) (.ask i) :=
      fun hl => ⟨(hmay hl).1, (hmay hl).2, rfl⟩
    refine ⟨⟨hask, Nat.eq_zero_of_not_pos hcount, core_sem s i _⟩, ?_⟩
    -- the process sleeps until `up` grants it the lock
    intro s hgranted _
    have hmem : p ∈ ((core s).sem i).granted := of_decide_eq_true hgranted
    cases l with
    | false =>
      have hrule : rule false p (note false (hand false home phase refs locks) (.ask i)) s (.lock i)
          (s.setInode i { s.inodes i with sem := (s.inodes i).sem.resume p }) :=
        ⟨(nomatch ·), Or.inr ⟨hmem, (nomatch ·), core_sem s i _⟩⟩
      exact ⟨hrule, rfl⟩
    | true => exact ⟨⟨fun _ => hmay rfl, Or.inr ⟨hmem, fun _ => rfl, core_sem s i _⟩⟩, rfl⟩

theorem ends_unlockInode (h : l = true → i ∈ locks) :
    Ends l p (FileSystem.unlockInode i) (hand l home phase refs locks)
      fun _ => hand l home phase refs (locks.erase i) := by
  have hnote : note l (hand l home phase refs locks) (.unlock i) =
      hand l home phase refs (locks.erase i) := by
    cases l <;> rfl
  rw [← hnote]
  apply ends_act
  · intro _ hl
    rw [hand, hl]
    exact h hl
  · exact fun s _ => core_sem s i _

/-- The reference of an inode that is not locked is dropped or lost. -/
theorem may_giveUp (h : i ∈ refs) (hl : l = true → i ∉ locks) :
    i ∈ (hand l home phase refs locks).refs ∧
      (l = true → i ∉ (hand l home phase refs locks).locks ∧ (hand l home phase refs locks).asked = none) := by
  refine ⟨h, ?_⟩
  rintro rfl
  exact ⟨hl rfl, rfl⟩

theorem ends_lose (h : i ∈ refs) (hl : l = true → i ∉ locks) :
    Ends l p (mark (.lose i)) (hand l home phase refs locks)
      fun _ => hand l home phase (refs.erase i) locks :=
  ends_mark (fun _ => may_giveUp h hl) (fun _ => Or.inl rfl)

theorem ends_putInode (h : i ∈ refs) (hl : l = true → i ∉ locks) :
    Ends l p (FileSystem.putInode p i) (hand l home phase refs locks)
      fun _ => hand l home phase (refs.erase i) locks := by
  have hlast : Ends l p (do
      FileSystem.unlockInode i
      act (.drop i) fun s => s.setInode i { s.inodes i with ref := (s.inodes i).ref-1 })
      (hand l home phase refs (i :: locks)) fun _ => hand l home phase (refs.erase i) locks := by
    apply ends_seq (ends_unlockInode (fun _ => List.mem_cons_self))
    intro _
    rw [List.erase_cons_head]
    exact ends_act (e := .drop i) (fun _ => may_giveUp h hl) (fun s _ => core_ref s i _)
  apply ends_seq (ends_lockInode (fun hc => ⟨hl hc, h⟩))
  intro _
  apply ends_low (only_look _)
  intro x
  apply ends_ite
  · intro _
    apply ends_set (by exact fun _ => ⟨rfl, rfl⟩)
    apply ends_low (only_forFrom (fun k => only_freeDirect i k) 0)
    intro _
    apply ends_low (only_freeIndirect i)
    intro _
    apply ends_set (by exact fun _ => ⟨rfl, rfl⟩)
    apply ends_low (only_writeToDisk i)
    intro _
    exact ends_set (fun _ => ⟨rfl, rfl⟩) hlast
  · exact fun _ => hlast

theorem ends_release_put {x : Prog α} {f : α → Book} (h : i ∈ refs)
    (hl : l = true → i ∈ locks ∧ i ∉ locks.erase i)
    (hx : Ends l p x (hand l home phase (refs.erase i) (locks.erase i)) f) : Ends l p (do
      FileSystem.unlockInode i
      FileSystem.putInode p i
      x) (hand l home phase refs locks) f := by
  apply ends_seq (ends_unlockInode (fun hc => (hl hc).1))
  intro _
  exact ends_seq (ends_putInode h (fun hc => (hl hc).2)) (fun _ => hx)

/-- A reference is taken. -/
theorem ends_getInode (dev inum : ℕ) :
    Ends l p (FileSystem.getInode dev inum) (hand l home phase refs locks) fun r => match r with
      | some i => hand l home phase (i :: refs) locks
      | none => hand l home phase refs locks := by
  intro s _ _
  dsimp only
  cases hcached : s.cached dev inum with
  | some i =>
    have hpos : 0 < (s.inodes i).ref := by
      have hfind := List.find?_some hcached
      simp only [decide_eq_true_eq] at hfind
      exact hfind.1
    exact ⟨⟨trivial, Or.inl hpos, core_ref s i _⟩, rfl⟩
  | none =>
    cases hempty : s.empty with
    | some i =>
      have hzero : (s.inodes i).ref = 0 := by
        have hfind := List.find?_some hempty
        simp only [decide_eq_true_eq] at hfind
        exact hfind
      exact ⟨⟨trivial, hzero, core_setInode s i _⟩, rfl⟩
    | none => exact ⟨⟨trivial, rfl⟩, rfl⟩

theorem ends_dupCwd (hhome : home = true) :
    Ends l p (FileSystem.dupCwd p) (hand l home phase refs locks)
      fun i => hand l home phase (i :: refs) locks := by
  intro s _ _
  exact ⟨⟨trivial, Or.inr ⟨hhome, rfl⟩, core_ref s _ _⟩, rfl⟩

/-! ## Lookups -/

/-- The book after a function that may return an inode with a reference. -/
def found {γ : Type} (l home : Bool) (phase : Phase) (refs locks : List ℕ) (r : Option (ℕ × γ)) : Book :=
  hand l home phase (match r with
    | some (i, _) => i :: refs
    | none => refs) locks

/-- The entry is the one that is looked for, or the next is read. -/
theorem ends_dirFound {off : ℕ} {next : Prog (Option (ℕ × ℕ))}
    (hnext : Ends l p next (hand l home phase refs locks) (found l home phase refs locks)) (e : List Byte) (same : Bool) :
    Ends l p (if same then do
        let dev ← look fun s => (s.inodes i).dev
        match ← FileSystem.getInode dev (FileSystem.entryInum e) with
        | none => .stop
        | some j => do
          FileSystem.readFromDisk p j (FileSystem.entryInum e)
          pure (some (j, off))
      else next) (hand l home phase refs locks) (found l home phase refs locks) := by
  apply ends_ite
  · intro _
    apply ends_low (only_look _)
    intro dev
    apply ends_seq (ends_getInode _ _)
    intro j
    cases j with
    | none => exact ends_stop
    | some j => exact ends_low (only_readFromDisk j _) (fun _ => ends_pure rfl)
  · exact fun _ => hnext

theorem ends_dirLookupFrom (name : List Byte) (fuel off : ℕ) :
    Ends l p (FileSystem.dirLookupFrom p i name fuel off) (hand l home phase refs locks)
      (found l home phase refs locks) := by
  induction fuel generalizing off with
  | zero => exact ends_stop
  | succ fuel ih =>
    have hfound := @ends_dirFound l home p i phase refs locks off _ (ih (off+FileSystem.entrySize))
    apply ends_low (only_readInode i _ _)
    intro e
    cases e with
    | none => exact ends_pure rfl
    | some e =>
      apply ends_ite
      · intro _
        apply ends_ite
        · exact fun _ => ends_low (only_sameName _ _) (hfound e)
        · exact fun _ => ends_low (only_pure _) (hfound e)
      · exact fun _ => ends_pure rfl

theorem ends_dirLookup (name : List Byte) :
    Ends l p (FileSystem.dirLookup p i name) (hand l home phase refs locks)
      (found l home phase refs locks) := ends_dirLookupFrom name _ _

/-- Hand over hand: the next inode is taken before the last one is put. -/
theorem erase_second (i j : ℕ) (refs : List ℕ) : (j :: i :: refs).erase i = j :: refs := by
  by_cases h : j = i
  · rw [h, List.erase_cons_head]
  · rw [List.erase_cons_tail (by rwa [beq_iff_eq]), List.erase_cons_head]

theorem ends_nameiFrom (parent : Bool) (fuel i : ℕ) (path name : List Byte) :
    Ends l p (FileSystem.nameiFrom p parent fuel i path name) (hand l home phase (i :: refs) [])
      (found l home phase refs []) := by
  have hhead : i ∈ i :: refs := List.mem_cons_self
  have hlock : l = true → i ∈ [i] ∧ i ∉ [i].erase i := by
    intro _
    rw [List.erase_cons_head]
    exact ⟨List.mem_cons_self, List.not_mem_nil⟩
  induction fuel generalizing i path name with
  | zero => exact ends_stop
  | succ fuel ih =>
    rw [FileSystem.nameiFrom]
    split
    · apply ends_ite
      · intro _
        apply ends_seq (ends_putInode hhead (fun _ => List.not_mem_nil))
        intro _
        rw [List.erase_cons_head]
        exact ends_pure rfl
      · exact fun _ => ends_pure rfl
    next path name _ =>
      have hout : Ends l p (do
          FileSystem.unlockInode i
          FileSystem.putInode p i
          pure none : Prog (Option (ℕ × List Byte))) (hand l home phase (i :: refs) [i])
          (found l home phase refs []) := by
        apply ends_release_put hhead hlock
        rw [List.erase_cons_head, List.erase_cons_head]
        exact ends_pure rfl
      apply ends_seq (ends_lockInode (fun _ => ⟨List.not_mem_nil, hhead⟩))
      intro _
      apply ends_low (only_look _)
      intro type
      apply ends_ite
      · exact fun _ => hout
      intro _
      apply ends_ite
      · intro _
        apply ends_seq (ends_unlockInode (fun _ => List.mem_cons_self))
        intro _
        rw [List.erase_cons_head]
        exact ends_pure rfl
      intro _
      apply ends_seq (ends_dirLookup name)
      intro r
      cases r with
      | none => exact hout
      | some r =>
        obtain ⟨next, off⟩ := r
        apply ends_release_put (List.mem_cons_of_mem next hhead) hlock
        rw [erase_second, List.erase_cons_head]
        have hmem : next ∈ next :: refs := List.mem_cons_self
        apply ih next path name hmem
        intro _
        rw [List.erase_cons_head]
        exact ⟨List.mem_cons_self, List.not_mem_nil⟩

theorem ends_namei (hhome : home = true) (path : List Byte) (parent : Bool) :
    Ends l p (FileSystem.namei p path parent) (hand l home phase refs [])
      (found l home phase refs []) := by
  apply ends_ite
  · intro _
    apply ends_seq (ends_getInode _ _)
    intro first
    cases first with
    | none => exact ends_stop
    | some i => exact ends_nameiFrom parent _ i _ _
  · intro _
    apply ends_seq (ends_dupCwd hhome)
    intro i
    exact ends_nameiFrom parent _ i _ _

/-! ## Names in a directory -/

theorem ends_dirLink (name : List Byte) (inum : ℕ) :
    Ends l p (FileSystem.dirLink p i name inum) (hand l home phase refs locks)
      fun _ => hand l home phase refs locks := by
  apply ends_seq (ends_dirLookup name)
  intro r
  cases r with
  | some r => exact ends_branch False.elim
  | none =>
    apply ends_low (only_freeEntryFrom i _ _)
    intro r
    cases r with
    | none => exact ends_pure rfl
    | some off => exact ends_low (only_writeInode i _ _ _) (fun _ => ends_pure rfl)

/-- The book after a function that may return an inode. -/
def made (l home : Bool) (phase : Phase) (refs locks : List ℕ) : Option ℕ → Book
  | some i => hand l home phase (i :: refs) (i :: locks)
  | none => hand l home phase refs locks

theorem ends_allocInode (dev : ℕ) (type : BitVec 16) :
    Ends l p (FileSystem.allocInode p dev type) (hand l home phase refs locks) fun r => match r with
      | some i => hand l home phase (i :: refs) locks
      | none => hand l home phase refs locks := by
  have hloop : ∀ k i, Ends l p (FileSystem.allocInodeFrom p dev type k i)
      (hand l home phase refs locks) fun r => match r with
        | some i => hand l home phase (i :: refs) locks
        | none => hand l home phase refs locks := by
    intro k
    induction k with
    | zero => exact fun _ => ends_pure rfl
    | succ k ih =>
      intro i
      apply ends_low only_readBlock
      intro b
      apply ends_ite
      · intro _
        apply ends_low (only_writeBlock _)
        intro _
        exact ends_low only_releaseBlock (fun _ => ends_getInode dev i)
      · exact fun _ => ends_low only_releaseBlock (fun _ => ih (i+1))
  exact ends_low only_readSuperBlock (fun sb => hloop _ _)

theorem ends_create (hhome : home = true) (path : List Byte) (type major minor : BitVec 16) :
    Ends l p (FileSystem.create p path type major minor) (hand l home phase refs [])
      (made l home phase refs []) := by
  apply ends_seq (ends_namei hhome path true)
  intro r
  cases r with
  | none => exact ends_pure rfl
  | some r =>
    obtain ⟨d, name⟩ := r
    have hd : d ∈ d :: refs := List.mem_cons_self
    apply ends_seq (ends_lockInode (fun _ => ⟨List.not_mem_nil, hd⟩))
    intro _
    apply ends_seq (ends_dirLookup name)
    intro r
    cases r with
    | some r =>
      obtain ⟨i, off⟩ := r
      have hi : i ∈ i :: refs := List.mem_cons_self
      apply ends_release_put (List.mem_cons_of_mem i hd)
      · intro _
        rw [List.erase_cons_head]
        exact ⟨List.mem_cons_self, List.not_mem_nil⟩
      rw [erase_second, List.erase_cons_head]
      apply ends_seq (ends_lockInode (fun _ => ⟨List.not_mem_nil, hi⟩))
      intro _
      apply ends_low (only_look _)
      intro type
      apply ends_ite
      · exact fun _ => ends_pure rfl
      · intro _
        apply ends_release_put hi
        · intro _
          rw [List.erase_cons_head]
          exact ⟨List.mem_cons_self, List.not_mem_nil⟩
        rw [List.erase_cons_head, List.erase_cons_head]
        exact ends_pure rfl
    | none =>
      apply ends_low (only_look _)
      intro dev
      apply ends_seq (ends_allocInode dev type)
      intro r
      cases r with
      | none =>
        apply ends_seq (ends_unlockInode (fun _ => List.mem_cons_self))
        intro _
        rw [List.erase_cons_head]
        apply ends_seq (ends_lose hd (fun _ => List.not_mem_nil))
        intro _
        rw [List.erase_cons_head]
        exact ends_pure rfl
      | some i =>
        apply ends_branch
        intro hsecond
        have hne : l = true → i ≠ d := fun hl hc => hsecond hl hc.symm
        have hi : i ∈ i :: d :: refs := List.mem_cons_self
        have hend : ∀ (inum : ℕ) (linked : Bool), Ends l p (if linked then do
              let _ ← FileSystem.dirLink p d name inum
              FileSystem.unlockInode d
              FileSystem.putInode p d
              pure (some i)
            else do
              FileSystem.unlockInode i
              FileSystem.unlockInode d
              mark (.lose i)
              mark (.lose d)
              pure none) (hand l home phase (i :: d :: refs) [i, d]) (made l home phase refs []) := by
          intro inum linked
          apply ends_ite
          · intro _
            apply ends_seq (ends_dirLink name inum)
            intro _
            apply ends_release_put (List.mem_cons_of_mem i hd)
            · intro hl
              rw [erase_second]
              exact ⟨List.mem_cons_of_mem i List.mem_cons_self, fun hc => hne hl (List.mem_singleton.mp hc).symm⟩
            rw [erase_second, erase_second]
            exact ends_pure rfl
          · intro _
            apply ends_seq (ends_unlockInode (fun _ => List.mem_cons_self))
            intro _
            rw [List.erase_cons_head]
            apply ends_seq (ends_unlockInode (fun _ => List.mem_cons_self))
            intro _
            rw [List.erase_cons_head]
            apply ends_seq (ends_lose hi (fun _ => List.not_mem_nil))
            intro _
            rw [List.erase_cons_head]
            apply ends_seq (ends_lose hd (fun _ => List.not_mem_nil))
            intro _
            rw [List.erase_cons_head]
            exact ends_pure rfl
        apply ends_seq (ends_lockInode (fun hl => ⟨fun hc => hne hl (List.mem_singleton.mp hc), hi⟩))
        intro _
        apply ends_set (by exact fun _ => ⟨rfl, rfl⟩)
        apply ends_low (only_writeToDisk i)
        intro _
        apply ends_low (only_look _)
        intro inum
        apply ends_ite
        · intro _
          apply ends_set (by exact fun _ => ⟨rfl, rfl⟩)
          apply ends_low (only_writeToDisk d)
          intro _
          apply ends_seq (ends_dirLink _ inum)
          intro first
          apply ends_ite
          · exact fun _ => ends_seq (ends_dirLink _ inum) (hend inum)
          · exact fun _ => ends_low (only_pure _) (hend inum)
        · exact fun _ => ends_low (only_pure _) (hend inum)

end Hands

/-! ## System calls -/

section Calls

variable {l : Bool} {p i : ℕ} {α : Type}

/-- The book of a process that is gone. -/
def gone : Book := ⟨[], [], none, false, .zombie⟩

theorem blank_hand (l : Bool) : blank = hand l true .running [] [] := by
  cases l <;> rfl

theorem gone_hand (l : Bool) : gone = hand l false .zombie [] [] := by
  cases l <;> rfl

/-- A process in a call that has one inode, and gives it back. -/
theorem ends_last {x : Prog α} {f : α → Book} {home : Bool} {phase : Phase}
    (hx : Ends l p x (hand l home phase [] []) f) : Ends l p (do
      FileSystem.unlockInode i
      FileSystem.putInode p i
      x) (hand l home phase [i] [i]) f := by
  apply ends_release_put List.mem_cons_self
  · intro _
    rw [List.erase_cons_head]
    exact ⟨List.mem_cons_self, List.not_mem_nil⟩
  rw [List.erase_cons_head]
  exact hx

theorem ends_openFile (refused readable writeable : Bool) :
    Ends l p (FileSystem.openFile p i refused readable writeable) (hand l true .running [i] [])
      fun _ => hand l true .running [] [] := by
  have hlose : note l (hand l true .running [i] []) (.lose i) = hand l true .running [] [] := by
    rw [note, hand, List.erase_cons_head]
    rfl
  have hkeep : note l (hand l true .running [i] []) (.keep i) = hand l true .running [] [] := hlose
  have hmay : i ∈ (hand l true .running [i] []).refs ∧ (l = true →
      i ∉ (hand l true .running [i] []).locks ∧ (hand l true .running [i] []).asked = none) :=
    may_giveUp List.mem_cons_self (fun _ => List.not_mem_nil)
  intro s hready _
  dsimp only at hready ⊢
  cases hopen : s.files.doOpen p i refused readable writeable with
  | none =>
    rw [hopen] at hready
    cases hready
  | some r =>
    obtain ⟨opened, released, state⟩ := r
    cases opened with
    | nil => exact ⟨⟨hmay, Or.inr ⟨_, _, _, _, hopen, rfl, rfl, rfl⟩⟩, hlose⟩
    | cons f fs => exact ⟨⟨hmay, _, _, _, _, hopen, List.cons_ne_nil f fs, rfl, rfl⟩, hkeep⟩

/-- What follows when the inode was looked for or created. -/
theorem ends_openFound (mode : BitVec 32) (found : Option ℕ) : Ends l p (match found with
      | none => pure .failed
      | some i => do
        let type ← look fun s => (s.inodes i).type
        FileSystem.unlockInode i
        FileSystem.openFile p i (type = FileSystem.typeDir ∧ mode ≠ FileSystem.modeRdonly)
          (mode &&& FileSystem.modeWronly = 0)
          (mode &&& FileSystem.modeWronly ≠ 0 ∨ mode &&& FileSystem.modeRdwr ≠ 0) : Prog Answer)
      (made l true .running [] [] found) fun _ => hand l true .running [] [] := by
  cases found with
  | none => exact ends_pure rfl
  | some i =>
    apply ends_low (only_look _)
    intro type
    apply ends_seq (ends_unlockInode (fun _ => List.mem_cons_self))
    intro _
    rw [List.erase_cons_head]
    exact ends_openFile _ _ _

theorem ends_doOpen (path : List Byte) (mode : BitVec 32) :
    Ends l p (FileSystem.doOpen p path mode) (hand l true .running [] [])
      fun _ => hand l true .running [] [] := by
  have hend := @ends_openFound l p mode
  apply ends_ite
  · exact fun _ => ends_seq (ends_create rfl path _ _ _) hend
  · intro _
    apply ends_seq (ends_namei rfl path false)
    intro r
    cases r with
    | none => exact hend none
    | some r =>
      obtain ⟨i, name⟩ := r
      apply ends_branch
      intro hl
      have hl : l = false := hl
      subst hl
      exact hend (some i)

/-- A step of the file table in a call; a slot that is released gives its inode. -/
theorem ends_closeStep {e : FileTable.Event} {home : Bool} {phase : Phase} (he : Own p phase e) :
    Ends l p (FileSystem.closeStep p e) (hand l home phase [] [])
      fun _ => hand l home (phaseAfter phase e) [] [] := by
  intro s hready _
  dsimp only at hready ⊢
  cases hperform : perform s.files e with
  | none =>
    rw [hperform] at hready
    cases hready
  | some r =>
    simp only [Option.bind_some]
    cases hreleased : FileSystem.releasedInode s.files r with
    | none => exact ⟨⟨he, r, hperform, hreleased, rfl⟩, rfl⟩
    | some i =>
      have hput : Ends l p (FileSystem.putInode p i) (hand l home (phaseAfter phase e) [i] [])
          fun _ => hand l home (phaseAfter phase e) ([i].erase i) [] :=
        ends_putInode List.mem_cons_self (fun _ => List.not_mem_nil)
      rw [List.erase_cons_head] at hput
      exact ⟨⟨he, r, hperform, hreleased, rfl⟩, hput⟩

theorem ends_doRead {b : Book} (fd : ℤ) (count : ℕ) :
    Ends l p (FileSystem.doRead p fd count) b fun _ => b := by
  apply ends_low (only_look _)
  intro r
  cases r with
  | none => exact ends_pure rfl
  | some r =>
    obtain ⟨f, file⟩ := r
    dsimp only
    split
    · apply ends_low (only_look _)
      intro off
      apply ends_low (only_readInode _ _ _)
      intro r
      cases r with
      | none => exact ends_pure rfl
      | some read =>
        apply ends_ite
        · exact fun _ => ends_low (only_act (by trivial) (fun _ => rfl)) (fun _ => ends_pure rfl)
        · exact fun _ => ends_pure rfl
    · exact ends_pure rfl

theorem ends_doWrite {b : Book} (fd : ℤ) (data : Bytes) (count : ℕ) :
    Ends l p (FileSystem.doWrite p fd data count) b fun _ => b := by
  apply ends_low (only_look _)
  intro r
  cases r with
  | none => exact ends_pure rfl
  | some r =>
    obtain ⟨f, file⟩ := r
    dsimp only
    split
    · apply ends_low (only_look _)
      intro off
      apply ends_low (only_writeInode _ _ _ _)
      intro r
      cases r with
      | none => exact ends_pure rfl
      | some n =>
        apply ends_ite
        · exact fun _ => ends_low (only_act (by trivial) (fun _ => rfl)) (fun _ => ends_pure rfl)
        · exact fun _ => ends_pure rfl
    · exact ends_pure rfl

theorem ends_make (path : List Byte) (type major minor : BitVec 16) :
    Ends l p (FileSystem.make p path type major minor) (hand l true .running [] [])
      fun _ => hand l true .running [] [] := by
  apply ends_seq (ends_create rfl path _ _ _)
  intro r
  cases r with
  | none => exact ends_pure rfl
  | some i => exact ends_last (ends_pure rfl)

theorem ends_linkFailed : Ends l p (FileSystem.linkFailed p i) (hand l true .running [i] [])
    fun _ => hand l true .running [] [] := by
  apply ends_seq (ends_lockInode (fun _ => ⟨List.not_mem_nil, List.mem_cons_self⟩))
  intro _
  apply ends_set (by exact fun _ => ⟨rfl, rfl⟩)
  apply ends_low (only_writeToDisk i)
  intro _
  apply ends_seq (ends_unlockInode (fun _ => List.mem_cons_self))
  intro _
  rw [List.erase_cons_head]
  apply ends_seq (ends_lose List.mem_cons_self (fun _ => List.not_mem_nil))
  intro _
  rw [List.erase_cons_head]
  exact ends_pure rfl

theorem ends_doLink (old new : List Byte) :
    Ends l p (FileSystem.doLink p old new) (hand l true .running [] [])
      fun _ => hand l true .running [] [] := by
  apply ends_seq (ends_namei rfl old false)
  intro r
  cases r with
  | none => exact ends_pure rfl
  | some r =>
    obtain ⟨i, name⟩ := r
    apply ends_seq (ends_lockInode (fun _ => ⟨List.not_mem_nil, List.mem_cons_self⟩))
    intro _
    apply ends_low (only_look _)
    intro type
    apply ends_ite
    · exact fun _ => ends_last (ends_pure rfl)
    intro _
    apply ends_set (by exact fun _ => ⟨rfl, rfl⟩)
    apply ends_low (only_writeToDisk i)
    intro _
    apply ends_seq (ends_unlockInode (fun _ => List.mem_cons_self))
    intro _
    rw [List.erase_cons_head]
    apply ends_seq (ends_namei rfl new true)
    intro r
    cases r with
    | none => exact ends_linkFailed
    | some r =>
      obtain ⟨d, name⟩ := r
      have hend : ∀ linked : Bool, Ends l p (do
          FileSystem.unlockInode d
          FileSystem.putInode p d
          if linked then do
            FileSystem.putInode p i
            pure .ok
          else FileSystem.linkFailed p i) (hand l true .running [d, i] [d])
          fun _ => hand l true .running [] [] := by
        intro linked
        apply ends_release_put List.mem_cons_self
        · intro _
          rw [List.erase_cons_head]
          exact ⟨List.mem_cons_self, List.not_mem_nil⟩
        rw [List.erase_cons_head, List.erase_cons_head]
        apply ends_ite
        · intro _
          apply ends_seq (ends_putInode List.mem_cons_self (fun _ => List.not_mem_nil))
          intro _
          rw [List.erase_cons_head]
          exact ends_pure rfl
        · exact fun _ => ends_linkFailed
      apply ends_seq (ends_lockInode (fun _ => ⟨List.not_mem_nil, List.mem_cons_self⟩))
      intro _
      apply ends_low (only_look _)
      intro other
      apply ends_low (only_look _)
      intro inum
      apply ends_ite
      · exact fun _ => ends_low (only_pure _) hend
      · exact fun _ => ends_seq (ends_dirLink name inum) hend

theorem ends_unlinkFailed : Ends l p (FileSystem.unlinkFailed p i) (hand l true .running [i] [i])
    fun _ => hand l true .running [] [] := ends_last (ends_pure rfl)

theorem ends_doUnlink (path : List Byte) :
    Ends l p (FileSystem.doUnlink p path) (hand l true .running [] [])
      fun _ => hand l true .running [] [] := by
  apply ends_seq (ends_namei rfl path true)
  intro r
  cases r with
  | none => exact ends_pure rfl
  | some r =>
    obtain ⟨d, name⟩ := r
    apply ends_seq (ends_lockInode (fun _ => ⟨List.not_mem_nil, List.mem_cons_self⟩))
    intro _
    apply ends_ite
    · exact fun _ => ends_unlinkFailed
    intro _
    apply ends_seq (ends_dirLookup name)
    intro r
    cases r with
    | none => exact ends_unlinkFailed
    | some r =>
      obtain ⟨i, off⟩ := r
      apply ends_branch
      intro hsecond
      have hne : l = true → i ≠ d := fun hl hc => hsecond hl hc.symm
      have hd : d ∈ [i, d] := List.mem_cons_of_mem i List.mem_cons_self
      have hi : i ∈ [i, d] := List.mem_cons_self
      have hlast : Ends l p (do
          FileSystem.unlockInode d
          FileSystem.putInode p d
          act .quiet fun s => s.setInode i { s.inodes i with nlinks := (s.inodes i).nlinks-1 }
          FileSystem.writeToDisk p i
          FileSystem.unlockInode i
          FileSystem.putInode p i
          pure .ok : Prog Answer) (hand l true .running [i, d] [i, d])
          fun _ => hand l true .running [] [] := by
        apply ends_release_put hd
        · intro hl
          rw [erase_second]
          exact ⟨hd, fun hc => hne hl (List.mem_singleton.mp hc).symm⟩
        rw [erase_second]
        apply ends_set (by exact fun _ => ⟨rfl, rfl⟩)
        exact ends_low (only_writeToDisk i) (fun _ => ends_last (ends_pure rfl))
      have hend : ∀ full : Bool, Ends l p (if full then do
            FileSystem.unlockInode i
            FileSystem.putInode p i
            FileSystem.unlinkFailed p d
          else do
            let _ ← FileSystem.writeInode p d (fun _ => 0) off FileSystem.entrySize
            let type ← look fun s => (s.inodes i).type
            if type = FileSystem.typeDir then do
              act .quiet fun s => s.setInode d { s.inodes d with nlinks := (s.inodes d).nlinks-1 }
              FileSystem.writeToDisk p d
            FileSystem.unlockInode d
            FileSystem.putInode p d
            act .quiet fun s => s.setInode i { s.inodes i with nlinks := (s.inodes i).nlinks-1 }
            FileSystem.writeToDisk p i
            FileSystem.unlockInode i
            FileSystem.putInode p i
            pure .ok) (hand l true .running [i, d] [i, d]) fun _ => hand l true .running [] [] := by
        intro full
        apply ends_ite
        · intro _
          apply ends_release_put hi
          · intro hl
            rw [List.erase_cons_head]
            exact ⟨hi, fun hc => hne hl (List.mem_singleton.mp hc)⟩
          rw [List.erase_cons_head]
          exact ends_unlinkFailed
        · intro _
          apply ends_low (only_writeInode d _ _ _)
          intro _
          apply ends_low (only_look _)
          intro type
          apply ends_ite
          · intro _
            apply ends_set (by exact fun _ => ⟨rfl, rfl⟩)
            exact ends_low (only_writeToDisk d) (fun _ => hlast)
          · exact fun _ => hlast
      apply ends_seq (ends_lockInode (fun hl => ⟨fun hc => hne hl (List.mem_singleton.mp hc), hi⟩))
      intro _
      apply ends_low (only_look _)
      intro x
      apply ends_ite
      · intro _
        apply ends_branch
        intro hl
        have hl : l = false := hl
        subst hl
        apply ends_seq (ends_lose hi (fun hc => absurd hc Bool.false_ne_true))
        intro _
        rw [List.erase_cons_head]
        exact ends_unlinkFailed
      · intro _
        apply ends_ite
        · intro _
          apply ends_low (only_dirEmpty i)
          exact fun _ => ends_low (only_pure _) hend
        · exact fun _ => ends_low (only_pure _) hend

theorem ends_doChdir (path : List Byte) :
    Ends l p (FileSystem.doChdir p path) (hand l true .running [] [])
      fun _ => hand l true .running [] [] := by
  apply ends_seq (ends_namei rfl path false)
  intro r
  cases r with
  | none => exact ends_pure rfl
  | some r =>
    obtain ⟨i, name⟩ := r
    apply ends_branch
    intro hl
    have hl : l = false := hl
    subst hl
    apply ends_low (only_look _)
    intro type
    apply ends_seq (ends_unlockInode (fun hc => absurd hc Bool.false_ne_true))
    intro _
    apply ends_ite
    · intro _
      apply ends_seq (ends_putInode List.mem_cons_self (fun hc => absurd hc Bool.false_ne_true))
      intro _
      rw [List.erase_cons_head]
      exact ends_pure rfl
    · intro _
      have hleave : Ends false p (FileSystem.leaveCwd p) (hand false true .running [i] [])
          fun old => hand false false .running [old, i] [] :=
        fun s _ _ => ⟨⟨⟨rfl, rfl⟩, rfl, rfl⟩, rfl⟩
      have henter : Ends false p (act (.enter i) fun s => { s with cwd := Function.update s.cwd p i })
          (hand false false .running [i] []) fun _ => hand false true .running ([i].erase i) [] :=
        ends_act (e := .enter i)
          (fun _ => ⟨List.mem_cons_self, (fun hc => absurd hc Bool.false_ne_true), rfl, rfl⟩) (fun _ _ => rfl)
      apply ends_seq hleave
      intro old
      apply ends_seq (ends_putInode List.mem_cons_self (fun hc => absurd hc Bool.false_ne_true))
      intro _
      rw [List.erase_cons_head]
      apply ends_seq henter
      intro _
      rw [List.erase_cons_head]
      exact ends_pure rfl

theorem ends_fork : Ends l p (FileSystem.fork p) (hand l true .running [] [])
    fun _ => hand l true .running [] [] := by
  intro s hready _
  dsimp only at hready ⊢
  cases hfork : s.files.fork p with
  | none =>
    rw [hfork] at hready
    cases hready
  | some r =>
    have hmay : may l p (hand l true .running [] []) (.fork (s.cwd p)) := ⟨rfl, rfl⟩
    refine ⟨⟨hmay, rfl, r, hfork, ?_⟩, rfl⟩
    rw [← core_ref]
    rfl

/-- The files of a process that exits. -/
theorem ends_closeAll {n k : ℕ} (hk : k+n = maxOpenFile) :
    Ends l p (forFrom (fun k => FileSystem.closeStep p (.exitClose p k)) n k)
      (hand l false (.exiting k) [] []) fun _ => hand l false (.exiting maxOpenFile) [] [] := by
  induction n generalizing k with
  | zero =>
    obtain rfl : k = maxOpenFile := hk
    exact ends_pure rfl
  | succ n ih =>
    apply ends_seq (ends_closeStep (e := .exitClose p k) ⟨rfl, rfl, by omega⟩)
    exact fun _ => ih (by omega)

theorem ends_exit : Ends l p (FileSystem.exit p) (hand l true .running [] [])
    fun _ => hand l false .zombie [] [] := by
  have hretire : Ends l p (FileSystem.retire p) (hand l true .running [] [])
      fun i => hand l false (.exiting 0) [i] [] := by
    intro s _ _
    have hmay : may l p (hand l true .running [] []) (.retire (s.cwd p)) := ⟨rfl, rfl⟩
    exact ⟨⟨hmay, rfl, _, rfl, rfl⟩, rfl⟩
  apply ends_seq hretire
  intro i
  apply ends_seq (ends_putInode List.mem_cons_self (fun _ => List.not_mem_nil))
  intro _
  rw [List.erase_cons_head]
  apply ends_seq (ends_closeAll (Nat.zero_add _))
  intro _
  exact ends_seq (ends_closeStep (e := .exited p) ⟨rfl, rfl⟩) (fun _ => ends_pure rfl)

/-- Every call of a running process ends with empty hands. -/
theorem ends_program (c : Call) : Path l p (FileSystem.program p c) blank
    fun _ b => b = blank ∨ b = gone := by
  have hrest : ∀ x : Prog Answer, Ends l p x (hand l true .running [] [])
      (fun _ => hand l true .running [] []) → Path l p x blank fun _ b => b = blank ∨ b = gone := by
    intro x hx
    rw [blank_hand l]
    exact along_mono hx (fun _ _ hb => Or.inl hb)
  cases c with
  | doOpen path mode => exact hrest _ (ends_doOpen path mode)
  | doClose fd =>
    exact hrest _ (ends_seq (ends_closeStep (e := .doClose p fd) ⟨rfl, rfl⟩) (fun _ => ends_pure rfl))
  | doRead fd count => exact hrest _ (ends_doRead fd count)
  | doWrite fd data count => exact hrest _ (ends_doWrite fd data count)
  | doMkdir path => exact hrest _ (ends_make path _ _ _)
  | doMknod path major minor => exact hrest _ (ends_make path _ _ _)
  | doLink old new => exact hrest _ (ends_doLink old new)
  | doUnlink path => exact hrest _ (ends_doUnlink path)
  | doDup fd =>
    apply hrest
    apply ends_low (only_look _)
    intro free
    exact ends_seq (ends_closeStep (e := .doDup p fd) ⟨rfl, rfl⟩) (fun _ => ends_pure rfl)
  | doChdir path => exact hrest _ (ends_doChdir path)
  | fork => exact hrest _ ends_fork
  | exit =>
    rw [blank_hand l]
    apply along_mono ends_exit
    intro _ b hb
    rw [gone_hand l]
    exact Or.inr hb

end Calls

end BabyOS.InodePaths

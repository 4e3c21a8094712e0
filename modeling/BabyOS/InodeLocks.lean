import BabyOS.InodeReferences

/-!
# Locks of inodes

The semaphore of an inode has one unit: it is free, granted, or in the hand of the
process that holds the lock. This is so in every run that leaves out the branches on
which an inode is unlocked that is not locked, or locked twice.
-/

set_option autoImplicit false

namespace BabyOS.InodeLocks
open BabyOS.AtomicPrograms BabyOS.FileSlots BabyOS.InodeAccesses BabyOS.InodePaths
open BabyOS.InodeReferences
open BabyOS.FileTable (perform)
open BabyOS.RangeSums
open BabyOS.FileSystem (Fs Event Prog Answer Semaphore)

/-- The processes that hold the lock of inode `i`. -/
def holders (c : Core) (g : ℕ → Book) (i : ℕ) : ℕ :=
  ∑ p ∈ Finset.range c.files.count, (g p).locks.count i

/-- The unit of each semaphore, and a reference behind each lock. -/
structure Locked (c : Core) (g : ℕ → Book) : Prop where
  unit : ∀ i, (c.sem i).count+(c.sem i).granted.length+holders c g i = 1
  own : ∀ p, ∀ i ∈ (g p).locks, i ∈ (g p).refs

section Steps

variable {lost : ℕ → ℕ} {c c' : Core} {g : ℕ → Book} {p i : ℕ} {b' : Book}

/-- The step of one process: what it holds and the semaphores agree. -/
theorem locked_step (h : Locked c g) (hp : p < c.files.count)
    (hcount : c'.files.count = c.files.count)
    (hunit : ∀ i, (c'.sem i).count+(c'.sem i).granted.length+b'.locks.count i =
      (c.sem i).count+(c.sem i).granted.length+(g p).locks.count i)
    (hown : ∀ i ∈ b'.locks, i ∈ b'.refs) : Locked c' (Function.update g p b') := by
  refine ⟨fun i => ?_, fun q i hi => ?_⟩
  · have hsum := @sum_change _ _ hp (fun q => (g q).locks.count i)
      (fun q => (Function.update g p b' q).locks.count i)
      (fun q _ hq => by rw [Function.update_of_ne hq])
    rw [Function.update_self] at hsum
    have hold := h.unit i
    have hnew := hunit i
    rw [holders] at hold ⊢
    rw [hcount]
    omega
  · by_cases hq : q = p
    · subst hq
      rw [Function.update_self] at hi ⊢
      exact hown i hi
    · rw [Function.update_of_ne hq] at hi ⊢
      exact h.own q i hi

/-- Neither the semaphores nor the locks are touched. -/
theorem locked_same (h : Locked c g) (hp : p < c.files.count)
    (hcount : c'.files.count = c.files.count) (hsem : c'.sem = c.sem)
    (hlocks : b'.locks = (g p).locks) (hown : ∀ i ∈ (g p).locks, i ∈ b'.refs) :
    Locked c' (Function.update g p b') := by
  apply locked_step h hp hcount
  · intro i
    rw [hsem, hlocks]
  · rw [hlocks]
    exact hown

/-- One semaphore and the locks change. -/
theorem locked_sem {x : Semaphore} (h : Locked c g) (hp : p < c.files.count)
    (hfiles : c'.files = c.files) (hsem : c'.sem = Function.update c.sem i x)
    (hunit : x.count+x.granted.length+b'.locks.count i =
      (c.sem i).count+(c.sem i).granted.length+(g p).locks.count i)
    (hlocks : ∀ j, j ≠ i → b'.locks.count j = (g p).locks.count j)
    (hown : ∀ i ∈ b'.locks, i ∈ b'.refs) : Locked c' (Function.update g p b') := by
  refine locked_step h hp (by rw [hfiles]) (fun j => ?_) hown
  rw [hsem]
  by_cases hj : j = i
  · subst hj
    rw [Function.update_self]
    exact hunit
  · rw [Function.update_of_ne hj, hlocks j hj]

theorem locked_ask (h : Locked c g) (hp : p < c.files.count) (hcount : (c.sem i).count = 0)
    {asked : Option ℕ} : Locked (c.setSem i ((c.sem i).down p))
      (Function.update g p { g p with asked := asked }) := by
  refine locked_sem h hp rfl rfl ?_ (fun _ _ => rfl) (h.own p)
  rw [Semaphore.down, if_neg (by omega)]

/-- The unit goes into the hand of the process. -/
theorem locked_lock (h : Locked c g) (hp : p < c.files.count) (hi : i ∈ (g p).refs) {x : Semaphore}
    (hx : x.count+x.granted.length+1 = (c.sem i).count+(c.sem i).granted.length) :
    Locked (c.setSem i x)
      (Function.update g p { g p with locks := i :: (g p).locks, asked := none }) := by
  refine locked_sem h hp rfl rfl ?_ (fun j hj => ?_) (fun j hj => ?_)
  · rw [List.count_cons_self]
    omega
  · exact List.count_cons_of_ne (Ne.symm hj)
  · obtain rfl | hj := List.mem_cons.mp hj
    · exact hi
    · exact h.own p j hj

theorem down_unit {x : Semaphore} (h : 0 < x.count) :
    (x.down p).count+(x.down p).granted.length+1 = x.count+x.granted.length := by
  rw [Semaphore.down, if_pos h]
  dsimp only
  omega

theorem resume_unit {x : Semaphore} (h : p ∈ x.granted) :
    (x.resume p).count+(x.resume p).granted.length+1 = x.count+x.granted.length := by
  have hlength := List.length_erase_of_mem h
  have hpos := List.length_pos_of_mem h
  rw [Semaphore.resume]
  dsimp only
  omega

theorem up_unit (x : Semaphore) :
    x.up.count+x.up.granted.length = x.count+x.granted.length+1 := by
  rw [Semaphore.up]
  cases x.waiting with
  | nil =>
    dsimp only
    omega
  | cons q qs =>
    dsimp only
    rw [List.length_cons]
    omega

theorem locked_unlock (h : Locked c g) (hp : p < c.files.count) (hi : i ∈ (g p).locks) :
    Locked (c.setSem i (c.sem i).up)
      (Function.update g p { g p with locks := (g p).locks.erase i }) := by
  refine locked_sem h hp rfl rfl ?_ (fun j hj => ?_) (fun j hj => ?_)
  · have hup := up_unit (c.sem i)
    have hpos := List.count_pos_iff.mpr hi
    rw [List.count_erase_self]
    omega
  · exact List.count_erase_of_ne hj
  · exact h.own p j (List.mem_of_mem_erase hj)

/-- Nobody holds the lock of an inode without references. -/
theorem locked_fresh (h : Locked c g) (hb : Balanced lost c g) (hp : p < c.files.count)
    (hzero : c.ref i = 0) :
    Locked ((c.setRef i 1).setSem i (.init 1))
      (Function.update g p { g p with refs := i :: (g p).refs }) := by
  have hnone : ∀ q, q < c.files.count → (g q).locks.count i = 0 := by
    intro q hq
    apply List.count_eq_zero.mpr
    intro hi
    have hpos := ref_pos hb hq (h.own q i hi)
    omega
  refine locked_sem h hp rfl rfl ?_ (fun _ _ => rfl) (fun j hj => List.mem_cons_of_mem i (h.own p j hj))
  have hholders : holders c g i = 0 := Finset.sum_eq_zero (fun q hq => hnone q (Finset.mem_range.mp hq))
  have hunit := h.unit i
  have hp := hnone p hp
  rw [hp]
  change 1+0+0 = _
  omega

/-- A reference without a lock is given up. -/
theorem locked_giveUp (h : Locked c g) (hp : p < c.files.count)
    (hcount : c'.files.count = c.files.count) (hsem : c'.sem = c.sem) (hi : i ∉ (g p).locks)
    (hlocks : b'.locks = (g p).locks) (hrefs : b'.refs = (g p).refs.erase i) :
    Locked c' (Function.update g p b') := by
  apply locked_same h hp hcount hsem hlocks
  intro j hj
  rw [hrefs]
  have hne : j ≠ i := by
    rintro rfl
    exact hi hj
  exact (List.mem_erase_of_ne hne).mpr (h.own p j hj)

theorem locked_access (h : Locked c g) (hb : Balanced lost c g) (hp : p < c.files.count) {e : Event}
    (hmay : may true p (g p) e) (he : effect true p (g p) c e c') :
    Locked c' (Function.update g p (note true (g p) e)) := by
  have hphase := hb.phase p hp
  obtain ⟨history, hcounted⟩ := hb.files
  have hcons : ∀ i, ∀ j ∈ (g p).locks, j ∈ i :: (g p).refs :=
    fun i j hj => List.mem_cons_of_mem i (h.own p j hj)
  cases e with
  | quiet | hold | write | release | claim | assign | load | branch =>
    obtain rfl : c' = c := he
    exact locked_same h hp rfl rfl rfl (h.own p)
  | ask i =>
    obtain ⟨hcount, rfl⟩ := he
    exact locked_ask h hp hcount
  | lock i =>
    have hi := (hmay rfl).2
    obtain ⟨hcount, -, rfl⟩ | ⟨hgranted, -, rfl⟩ := he
    · exact locked_lock h hp hi (down_unit hcount)
    · exact locked_lock h hp hi (resume_unit hgranted)
  | unlock i =>
    obtain rfl : c' = _ := he
    exact locked_unlock h hp (hmay rfl)
  | take i =>
    obtain ⟨-, rfl⟩ := he
    exact locked_same h hp rfl rfl rfl (hcons i)
  | fresh i =>
    obtain ⟨hzero, rfl⟩ := he
    exact locked_fresh h hb hp hzero
  | drop i =>
    obtain rfl : c' = _ := he
    exact locked_giveUp h hp rfl rfl (hmay.2 rfl).1 rfl rfl
  | lose i =>
    obtain rfl | ⟨refused, readable, writeable, r, hr, -, -, rfl⟩ := he
    · exact locked_giveUp h hp rfl rfl (hmay.2 rfl).1 rfl rfl
    · exact locked_giveUp h hp (doOpen_phases hr).1 rfl (hmay.2 rfl).1 rfl rfl
  | keep i =>
    obtain ⟨refused, readable, writeable, r, hr, -, -, rfl⟩ := he
    exact locked_giveUp h hp (doOpen_phases hr).1 rfl (hmay.2 rfl).1 rfl rfl
  | withdraw e i =>
    obtain ⟨r, hr, -, rfl⟩ := he
    have hone := (own_released hmay hcounted hb.bounded hp hphase hr).2
    exact locked_same h hp hone.1 rfl rfl (hcons i)
  | files e =>
    obtain ⟨r, hr, -, rfl⟩ := he
    have hone := (own_released hmay hcounted hb.bounded hp hphase hr).2
    exact locked_same h hp hone.1 rfl rfl (h.own p)
  | leave i =>
    obtain ⟨-, rfl⟩ := he
    exact locked_same h hp rfl rfl rfl (hcons i)
  | enter i =>
    obtain rfl : c' = _ := he
    exact locked_giveUp h hp rfl rfl (hmay.2.1 rfl).1 rfl rfl
  | retire i =>
    obtain ⟨-, r, hr, rfl⟩ := he
    obtain rfl := Option.some.inj hr
    exact locked_same h hp rfl rfl rfl (hcons i)
  | fork i =>
    obtain ⟨-, r, hr, rfl⟩ := he
    have hcount := (fork_phases hr).1
    have hbook : Function.update g p (note true (g p) (.fork i)) = g := Function.update_eq_self p g
    rw [hbook]
    refine ⟨fun j => ?_, h.own⟩
    have hunit := h.unit j
    have hblank := hb.blank c.files.count le_rfl
    rw [holders] at hunit ⊢
    dsimp only at hunit ⊢
    rw [hcount, Finset.sum_range_succ, hblank]
    exact hunit

end Steps

/-! ## Runs -/

/-- Nobody is in a call, the counts are right, and every lock is free. -/
def Start (s : Fs) : Prop := InodeReferences.Start s ∧ ∀ i, (s.inodes i).sem = .init 1

def Inv (s : Fs) (g : ℕ → Book) : Prop := (∃ lost, Balanced lost (core s) g) ∧ Locked (core s) g

theorem locked_start {s : Fs} (h : ∀ i, (s.inodes i).sem = .init 1) : Locked (core s) fun _ => blank := by
  refine ⟨fun i => ?_, fun p i hi => absurd hi List.not_mem_nil⟩
  have hholders : holders (core s) (fun _ => blank) i = 0 := Finset.sum_eq_zero (fun _ _ => rfl)
  have hsem : (core s).sem i = .init 1 := h i
  rw [hholders, hsem]
  rfl

theorem locked_run {w : World Fs Event Answer Book}
    (h : Run Start calls (fun _ _ _ => Lawful true) (note true) blank w) :
    Inv w.state w.book ∧ Follows (fun _ _ _ => Lawful true) (note true) Relies (rule true) Idle w := by
  apply @run_follows Fs Event Answer Book Start calls (fun _ _ _ => Lawful true) (note true) blank
    Relies (rule true) Idle Inv (Or.inl rfl) (fun s hs => ⟨⟨_, hs.1⟩, locked_start hs.2⟩) _ _ w h
  · rintro s g p x ⟨⟨lost, hbalanced⟩, -⟩ hx hidle
    have hblank := calls_blank hbalanced rfl hx hidle
    obtain ⟨hp, hrun, c, rfl⟩ := hx
    rw [hblank]
    exact ⟨⟨hp, hrun⟩, ends_program c⟩
  · rintro s g p e s' ⟨⟨lost, hbalanced⟩, hlocked⟩ hrel - hrule
    have hnext := balanced_access hbalanced hrel.1 hrule.1 hrule.2
    have hcount := count_access hrel.1 hrel.2 hbalanced.files hbalanced.bounded hrule.1 hrule.2
    exact ⟨⟨⟨_, hnext⟩, locked_access hlocked hbalanced hrel.1 hrule.1 hrule.2⟩,
      relies_access rfl hnext hcount hrel⟩

/-- A lock is asked for by a process that does not hold it, and given back by its holder. -/
def Proper (b : Book) : Event → Prop
  | .ask i | .lock i => i ∉ b.locks
  | .unlock i => i ∈ b.locks
  | _ => True

theorem proper_may {p : ℕ} {b : Book} {e : Event} (h : may true p b e) : Proper b e := by
  cases e with
  | ask i => exact (h rfl).1
  | lock i => exact (h rfl).1
  | unlock i => exact h rfl
  | _ => trivial

theorem idle_locks {b : Book} (h : Idle b) : b.locks = [] := by
  obtain rfl | rfl := h
  · rfl
  · rfl

/-- What the discipline says of a state: the semaphores, the holders, the next access of
each process, and the processes that are at the end of a call or between calls. -/
structure Disciplined (w : World Fs Event Answer Book) : Prop where
  count : ∀ i, (w.state.inodes i).sem.count ≤ 1
  one : ∀ p q i, i ∈ (w.book p).locks → i ∈ (w.book q).locks → p = q
  once : ∀ p, (w.book p).locks.Nodup
  next : ∀ p e r n k, w.call p = some (.access e r n k) → r w.state = true →
    Lawful true (e w.state) → Proper (w.book p) (e w.state)
  last : ∀ p a, w.call p = some (.done a) → (w.book p).locks = []
  idle : ∀ p, w.call p = none → (w.book p).locks = []

theorem holder_lt {lost : ℕ → ℕ} {c : Core} {g : ℕ → Book} (hb : Balanced lost c g) {p i : ℕ}
    (hi : i ∈ (g p).locks) : p < c.files.count := by
  by_contra hge
  rw [hb.blank p (Nat.le_of_not_lt hge)] at hi
  exact absurd hi List.not_mem_nil

/-- Two holders would be two units. -/
theorem holder_unique {lost : ℕ → ℕ} {c : Core} {g : ℕ → Book} (h : Locked c g)
    (hb : Balanced lost c g) {p q i : ℕ} (hp : i ∈ (g p).locks) (hq : i ∈ (g q).locks) : p = q := by
  by_contra hne
  have hle := Finset.add_le_sum (f := fun r => (g r).locks.count i) (fun _ _ => Nat.zero_le _)
    (Finset.mem_range.mpr (holder_lt hb hp)) (Finset.mem_range.mpr (holder_lt hb hq)) hne
  have hunit := h.unit i
  have hone := List.count_pos_iff.mpr hp
  have htwo := List.count_pos_iff.mpr hq
  rw [holders] at hunit
  omega

theorem holder_once {lost : ℕ → ℕ} {c : Core} {g : ℕ → Book} (h : Locked c g)
    (hb : Balanced lost c g) (p : ℕ) : (g p).locks.Nodup := by
  apply List.nodup_iff_count_le_one.mpr
  intro i
  by_cases hi : i ∈ (g p).locks
  · have hle := Finset.single_le_sum (f := fun r => (g r).locks.count i) (fun _ _ => Nat.zero_le _)
      (Finset.mem_range.mpr (holder_lt hb hi))
    have hunit := h.unit i
    rw [holders] at hunit
    omega
  · rw [List.count_eq_zero.mpr hi]
    exact Nat.zero_le 1

theorem refused_unlock : (solo (note true) 5 (refusedOpen 0) single blank).1.ended = true ∧
    ((solo (note true) 5 (refusedOpen 0) single blank).2.1.inodes 0).sem.count = 2 := by
  decide +kernel

end BabyOS.InodeLocks

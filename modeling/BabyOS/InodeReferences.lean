import BabyOS.FileSlots
import BabyOS.InodePaths

/-!
# References to inodes

The count of an inode is the number of current directories, of open slots and of
references in hand, and of those that were lost on the way. In a run that loses
none it is, between calls, the number of directories and open slots.
-/

set_option autoImplicit false

namespace BabyOS.InodeReferences
open BabyOS.AtomicPrograms BabyOS.FileSlots BabyOS.InodeAccesses BabyOS.InodePaths
open BabyOS.FileTable (System Phase perform maxOpenFile)
open BabyOS.FileReferences (Counted step_counted start_counted)
open BabyOS.RangeSums
open BabyOS.FileSystem (Fs Event Prog Answer Call releasedInode)

/-- What a process has of the count of inode `i`. -/
def share (cwd : ℕ → ℕ) (b : Book) (p i : ℕ) : ℕ :=
  (if b.home = true ∧ cwd p = i then 1 else 0)+b.refs.count i

def shares (c : Core) (g : ℕ → Book) (i : ℕ) : ℕ :=
  ∑ p ∈ Finset.range c.files.count, share c.cwd (g p) p i

/-- What a state of a run has to satisfy, with the references that were lost. -/
structure Balanced (lost : ℕ → ℕ) (c : Core) (g : ℕ → Book) : Prop where
  ref : ∀ i, c.ref i = shares c g i+slots c.files i+lost i
  files : ∃ h, Counted c.files h
  bounded : Bounded c.files
  phase : ∀ p < c.files.count, (c.files.procs p).phase = (g p).phase
  blank : ∀ p, c.files.count ≤ p → g p = InodePaths.blank

section Steps

variable {lost lost' : ℕ → ℕ} {c c' : Core} {g : ℕ → Book} {l : Bool} {p i : ℕ} {b' : Book}

theorem shares_update (hp : p < c.files.count) (hcount : c'.files.count = c.files.count)
    (hcwd : ∀ q, q ≠ p → c'.cwd q = c.cwd q) (i : ℕ) :
    shares c' (Function.update g p b') i+share c.cwd (g p) p i = shares c g i+share c'.cwd b' p i := by
  have hsum := @sum_change _ _ hp (fun q => share c.cwd (g q) q i)
    (fun q => share c'.cwd (Function.update g p b' q) q i) (fun q _ hq => by
      rw [Function.update_of_ne hq, share, share, hcwd q hq])
  rw [Function.update_self] at hsum
  rw [shares, shares, hcount]
  exact hsum

theorem share_le (hp : p < c.files.count) (i : ℕ) : share c.cwd (g p) p i ≤ shares c g i :=
  Finset.single_le_sum (f := fun q => share c.cwd (g q) q i) (fun _ _ => Nat.zero_le _)
    (Finset.mem_range.mpr hp)

/-- The step of one process: its part of the counts, the slots and the counts agree. -/
theorem balanced_step (h : Balanced lost c g) (hp : p < c.files.count)
    (hcwd : ∀ q, q ≠ p → c'.cwd q = c.cwd q)
    (hphase : OnePhase c.files c'.files p b'.phase) (hfiles : ∃ h, Counted c'.files h)
    (hbounded : Bounded c'.files)
    (href : ∀ i, c'.ref i+share c.cwd (g p) p i+slots c.files i+lost i =
      c.ref i+share c'.cwd b' p i+slots c'.files i+lost' i) :
    Balanced lost' c' (Function.update g p b') := by
  obtain ⟨hcount, hone, hothers⟩ := hphase
  refine ⟨fun i => ?_, hfiles, hbounded, fun q hq => ?_, fun q hq => ?_⟩
  · have hsum := @shares_update c c' g p b' hp hcount hcwd i
    have hold := h.ref i
    have hnew := href i
    omega
  · by_cases hqp : q = p
    · subst hqp
      rw [Function.update_self]
      exact hone
    · rw [Function.update_of_ne hqp, hothers q hqp]
      exact h.phase q (by omega)
  · rw [Function.update_of_ne (by omega)]
    exact h.blank q (by omega)

theorem samePhases_one {s s' : System} {phase : Phase} (h : SamePhases s s')
    (hphase : (s.procs p).phase = phase) : OnePhase s s' p phase :=
  ⟨h.1, (h.2 p).trans hphase, fun q _ => h.2 q⟩

/-- The files stay as they are. -/
theorem balanced_files (h : Balanced lost c g) (hp : p < c.files.count)
    (hfiles : c'.files = c.files) (hcwd : ∀ q, q ≠ p → c'.cwd q = c.cwd q)
    (hphase : b'.phase = (g p).phase)
    (href : ∀ i, c'.ref i+share c.cwd (g p) p i+lost i = c.ref i+share c'.cwd b' p i+lost' i) :
    Balanced lost' c' (Function.update g p b') := by
  apply balanced_step h hp hcwd
  · rw [hfiles, hphase]
    exact samePhases_one ⟨rfl, fun _ => rfl⟩ (h.phase p hp)
  · rw [hfiles]
    exact h.files
  · rw [hfiles]
    exact h.bounded
  · intro i
    rw [hfiles]
    have := href i
    omega

/-- Nothing that counts is touched. -/
theorem balanced_same (h : Balanced lost c g) (hp : p < c.files.count) (href : c'.ref = c.ref)
    (hfiles : c'.files = c.files) (hcwd : c'.cwd = c.cwd) (hrefs : b'.refs = (g p).refs)
    (hhome : b'.home = (g p).home) (hphase : b'.phase = (g p).phase) :
    Balanced lost c' (Function.update g p b') := by
  apply balanced_files h hp hfiles (fun q _ => by rw [hcwd]) hphase
  intro i
  rw [href, share, share, hrefs, hhome, hcwd]

theorem share_cons (cwd : ℕ → ℕ) (b : Book) (p i j : ℕ) :
    share cwd { b with refs := i :: b.refs } p j = share cwd b p j+if j = i then 1 else 0 := by
  have hiff : (i == j) = true ↔ j = i := by
    rw [beq_iff_eq]
    exact eq_comm
  rw [share, share, List.count_cons, Nat.add_assoc, if_congr hiff rfl rfl]

theorem share_erase (cwd : ℕ → ℕ) {b : Book} (h : i ∈ b.refs) (p j : ℕ) :
    share cwd { b with refs := b.refs.erase i } p j+(if j = i then 1 else 0) = share cwd b p j := by
  rw [share, share, List.count_erase, Nat.add_assoc]
  congr 1
  by_cases hj : j = i
  · subst hj
    rw [beq_self_eq_true, if_pos rfl, if_pos rfl, Nat.sub_add_cancel (List.count_pos_iff.mpr h)]
  · rw [if_neg (by rw [beq_iff_eq]; exact Ne.symm hj), if_neg hj]
    rfl

/-- A reference in hand is counted. -/
theorem ref_pos (h : Balanced lost c g) (hp : p < c.files.count) (hi : i ∈ (g p).refs) :
    0 < c.ref i := by
  have hshare := share_le (g := g) hp i
  have hcount : 0 < (g p).refs.count i := List.count_pos_iff.mpr hi
  have href := h.ref i
  rw [share] at hshare
  omega

theorem setRef_apply (c : Core) (i n j : ℕ) :
    (c.setRef i n).ref j = if j = i then n else c.ref j := Function.update_apply ..

theorem balanced_take (h : Balanced lost c g) (hp : p < c.files.count) {n : ℕ} (hn : n = c.ref i+1) :
    Balanced lost (c.setRef i n) (Function.update g p { g p with refs := i :: (g p).refs }) := by
  refine balanced_files h hp rfl (fun _ _ => rfl) rfl (fun j => ?_)
  change (c.setRef i n).ref j+_+_ = _+share c.cwd _ p j+_
  rw [setRef_apply, share_cons]
  by_cases hj : j = i
  · subst hj
    rw [if_pos rfl, if_pos rfl]
    omega
  · rw [if_neg hj, if_neg hj]
    omega

theorem balanced_drop (h : Balanced lost c g) (hp : p < c.files.count) (hi : i ∈ (g p).refs) :
    Balanced lost (c.setRef i (c.ref i-1))
      (Function.update g p { g p with refs := (g p).refs.erase i }) := by
  refine balanced_files h hp rfl (fun _ _ => rfl) rfl (fun j => ?_)
  have hshare := share_erase c.cwd hi p j
  have hpos := ref_pos h hp hi
  change (c.setRef i (c.ref i-1)).ref j+_+_ = _+share c.cwd _ p j+_
  dsimp only at hshare ⊢
  rw [setRef_apply]
  by_cases hj : j = i
  · subst hj
    rw [if_pos rfl] at hshare ⊢
    omega
  · rw [if_neg hj] at hshare ⊢
    omega

/-- One more is lost. -/
def lose (lost : ℕ → ℕ) (i j : ℕ) : ℕ := lost j+if j = i then 1 else 0

theorem balanced_lose (h : Balanced lost c g) (hp : p < c.files.count) (hi : i ∈ (g p).refs) :
    Balanced (lose lost i) c (Function.update g p { g p with refs := (g p).refs.erase i }) := by
  refine balanced_files h hp rfl (fun _ _ => rfl) rfl (fun j => ?_)
  have hshare := share_erase c.cwd hi p j
  dsimp only at hshare ⊢
  rw [lose]
  omega

/-- The directory goes into the hand of its process. -/
theorem share_leave {b : Book} (hhome : b.home = true) (p j : ℕ) :
    share c.cwd { b with refs := c.cwd p :: b.refs, home := false } p j = share c.cwd b p j := by
  rw [share, share, if_neg (by exact fun hc => Bool.false_ne_true hc.1), List.count_cons]
  by_cases hj : c.cwd p = j
  · rw [if_pos (beq_iff_eq.mpr hj), if_pos ⟨hhome, hj⟩]
    omega
  · rw [if_neg (by rwa [beq_iff_eq]), if_neg (fun hc => hj hc.2)]
    omega

theorem balanced_leave (h : Balanced lost c g) (hp : p < c.files.count) (hhome : (g p).home = true) :
    Balanced lost c
      (Function.update g p { g p with refs := c.cwd p :: (g p).refs, home := false }) := by
  refine balanced_files h hp rfl (fun _ _ => rfl) rfl (fun j => ?_)
  rw [share_leave hhome]

theorem balanced_enter (h : Balanced lost c g) (hp : p < c.files.count) (hi : i ∈ (g p).refs)
    (hhome : (g p).home = false) :
    Balanced lost { c with cwd := Function.update c.cwd p i }
      (Function.update g p { g p with refs := (g p).refs.erase i, home := true }) := by
  refine balanced_files h hp rfl (fun q hq => Function.update_of_ne hq ..) rfl (fun j => ?_)
  have hshare := share_erase c.cwd hi p j
  rw [share, if_neg (by rw [hhome]; exact fun hc => Bool.false_ne_true hc.1)] at hshare
  have hnew : share (Function.update c.cwd p i) { g p with refs := (g p).refs.erase i, home := true } p j =
      (if j = i then 1 else 0)+((g p).refs.erase i).count j := by
    rw [share, Function.update_self]
    exact congrArg (· + _) (if_congr ⟨fun hc => hc.2.symm, fun hc => ⟨rfl, hc.symm⟩⟩ rfl rfl)
  rw [hnew]
  dsimp only at hshare ⊢
  omega

/-! ## Steps of the files -/

theorem own_enabled {phase : Phase} {e : FileTable.Event} {s : System} (he : Own p phase e)
    (hp : p < s.count) (hphase : (s.procs p).phase = phase) : FileTable.Enabled s e := by
  cases e with
  | doClose q fd =>
    obtain ⟨rfl, rfl⟩ := he
    exact ⟨hp, hphase⟩
  | doDup q fd =>
    obtain ⟨rfl, rfl⟩ := he
    exact ⟨hp, hphase⟩
  | exitClose q k =>
    obtain ⟨rfl, rfl, hk⟩ := he
    exact ⟨hp, hphase, hk⟩
  | exited q =>
    obtain ⟨rfl, rfl⟩ := he
    exact ⟨hp, hphase⟩
  | _ => exact he.elim

theorem own_released {phase : Phase} {e : FileTable.Event} {s : System} {r : System.Result}
    {h : FileTable.History} (he : Own p phase e) (hc : Counted s h) (hb : Bounded s)
    (hp : p < s.count) (hphase : (s.procs p).phase = phase) (hr : perform s e = some r) :
    Released s r ∧ OnePhase s r.state p (phaseAfter phase e) := by
  cases e with
  | doClose q fd =>
    obtain ⟨rfl, rfl⟩ := he
    exact ⟨doClose_released hc hb hp hphase hr, samePhases_one (doClose_phases hr) hphase⟩
  | doDup q fd =>
    obtain ⟨rfl, rfl⟩ := he
    exact ⟨doDup_released hb hr, samePhases_one (doDup_phases hr) hphase⟩
  | exitClose q k =>
    obtain ⟨rfl, rfl, hk⟩ := he
    exact ⟨exitClose_released hc hb hp hphase hk hr, exitClose_phase hr⟩
  | exited q =>
    obtain ⟨rfl, rfl⟩ := he
    obtain rfl := Option.some.inj hr
    exact ⟨released_same rfl hb rfl, setProc_onePhase s q _⟩
  | _ => exact he.elim

/-- The counts of the slots stay right. -/
theorem next_counted {s : System} {e : FileTable.Event} {r : System.Result} (hc : ∃ h, Counted s h)
    (he : FileTable.Enabled s e) (hr : perform s e = some r) : ∃ h, Counted r.state h := by
  obtain ⟨h, hc⟩ := hc
  obtain ⟨r', hr', hc'⟩ := step_counted hc he
  rw [hr] at hr'
  obtain rfl := Option.some.inj hr'
  exact ⟨_, hc'⟩

/-- Nothing is released. -/
theorem balanced_kept {e : FileTable.Event} {r : System.Result} (h : Balanced lost c g)
    (hp : p < c.files.count) (he : Own p (g p).phase e) (hr : perform c.files e = some r)
    (hreleased : releasedInode c.files r = none) :
    Balanced lost { c with files := r.state }
      (Function.update g p { g p with phase := phaseAfter (g p).phase e }) := by
  obtain ⟨history, hcounted⟩ := h.files
  have hphase := h.phase p hp
  obtain ⟨⟨hbounded, hslots⟩, hone⟩ := own_released he hcounted h.bounded hp hphase hr
  refine balanced_step h hp (fun _ _ => rfl) hone
    (next_counted h.files (own_enabled he hp hphase) hr) hbounded (fun j => ?_)
  have hj := hslots j
  rw [hreleased, if_neg (by exact fun hc => nomatch hc)] at hj
  have hshare : share c.cwd { g p with phase := phaseAfter (g p).phase e } p j =
      share c.cwd (g p) p j := rfl
  dsimp only at hshare ⊢
  omega

/-- The inode of the slot goes into the hand of the process. -/
theorem balanced_withdraw {e : FileTable.Event} {r : System.Result} (h : Balanced lost c g)
    (hp : p < c.files.count) (he : Own p (g p).phase e) (hr : perform c.files e = some r)
    (hreleased : releasedInode c.files r = some i) :
    Balanced lost { c with files := r.state } (Function.update g p
      { g p with refs := i :: (g p).refs, phase := phaseAfter (g p).phase e }) := by
  obtain ⟨history, hcounted⟩ := h.files
  have hphase := h.phase p hp
  obtain ⟨⟨hbounded, hslots⟩, hone⟩ := own_released he hcounted h.bounded hp hphase hr
  refine balanced_step h hp (fun _ _ => rfl) hone
    (next_counted h.files (own_enabled he hp hphase) hr) hbounded (fun j => ?_)
  have hj := hslots j
  have hiff : some i = some j ↔ j = i := ⟨fun hc => (Option.some.inj hc).symm, fun hc => congrArg some hc.symm⟩
  rw [hreleased, if_congr hiff rfl rfl] at hj
  have hshare : share c.cwd { g p with refs := i :: (g p).refs, phase := phaseAfter (g p).phase e } p j =
      share c.cwd (g p) p j+if j = i then 1 else 0 := share_cons c.cwd (g p) p i j
  dsimp only at hshare ⊢
  omega

/-- A file gets the reference, or it is lost. -/
theorem balanced_doOpen {refused readable writeable : Bool} {r : System.Result}
    (h : Balanced lost c g) (hp : p < c.files.count) (hrun : (g p).phase = .running)
    (hi : i ∈ (g p).refs)
    (hr : perform c.files (.doOpen p i refused readable writeable) = some r) :
    Balanced (if r.opened = [] then lose lost i else lost) { c with files := r.state }
      (Function.update g p { g p with refs := (g p).refs.erase i }) := by
  obtain ⟨history, hcounted⟩ := h.files
  have hphase := h.phase p hp
  obtain ⟨hbounded, hslots⟩ := doOpen_slots hcounted h.bounded hr
  have henabled : FileTable.Enabled c.files (.doOpen p i refused readable writeable) :=
    ⟨hp, hphase.trans hrun⟩
  refine balanced_step h hp (fun _ _ => rfl) (samePhases_one (doOpen_phases hr) hphase)
    (next_counted h.files henabled hr) hbounded (fun j => ?_)
  have hj := hslots j
  have hshare := share_erase c.cwd hi p j
  dsimp only at hshare ⊢
  by_cases hopened : r.opened = []
  · rw [if_neg (fun hc => hc.1 hopened)] at hj
    rw [if_pos hopened, lose]
    omega
  · rw [if_congr (and_iff_right hopened) rfl rfl] at hj
    rw [if_neg hopened]
    omega

theorem balanced_retire {r : System.Result} (h : Balanced lost c g) (hp : p < c.files.count)
    (hhome : (g p).home = true) (hrun : (g p).phase = .running)
    (hr : perform c.files (.exit p) = some r) :
    Balanced lost { c with files := r.state } (Function.update g p
      { g p with refs := c.cwd p :: (g p).refs, home := false, phase := .exiting 0 }) := by
  have hphase := h.phase p hp
  have hcounted := next_counted h.files (e := .exit p) ⟨hp, hphase.trans hrun⟩ hr
  obtain rfl := Option.some.inj hr
  obtain ⟨hbounded, hslots⟩ : Released c.files ⟨[], [], c.files.setProc p _⟩ :=
    released_same rfl h.bounded rfl
  refine balanced_step h hp (fun _ _ => rfl) (setProc_onePhase _ p _) hcounted hbounded (fun j => ?_)
  have hj := hslots j
  have hshare : share c.cwd
      { g p with refs := c.cwd p :: (g p).refs, home := false, phase := .exiting 0 } p j =
      share c.cwd (g p) p j := share_leave hhome p j
  rw [released_nil rfl, if_neg (by exact fun hc => nomatch hc)] at hj
  dsimp only at hj hshare ⊢
  omega

/-- The child has the directory of its parent. -/
theorem balanced_fork {r : System.Result} (h : Balanced lost c g) (hp : p < c.files.count)
    (hrun : (g p).phase = .running) (hr : perform c.files (.fork p) = some r) :
    Balanced lost { c.setRef (c.cwd p) (c.ref (c.cwd p)+1) with
      files := r.state, cwd := Function.update c.cwd c.files.count (c.cwd p) } g := by
  have hphase := h.phase p hp
  have hcounted := next_counted h.files (e := .fork p) ⟨hp, hphase.trans hrun⟩ hr
  obtain ⟨hbounded, hslots⟩ := fork_slots h.bounded hr
  obtain ⟨hcount, hnew, hold⟩ := fork_phases hr
  have hblank := h.blank c.files.count le_rfl
  refine ⟨fun j => ?_, hcounted, hbounded, fun q hq => ?_, fun q hq => ?_⟩
  · have hothers : ∑ q ∈ Finset.range c.files.count,
        share (Function.update c.cwd c.files.count (c.cwd p)) (g q) q j = shares c g j := by
      apply Finset.sum_congr rfl
      intro q hq
      have hlt := Finset.mem_range.mp hq
      rw [share, share, Function.update_of_ne (by omega)]
    have hlast : share (Function.update c.cwd c.files.count (c.cwd p)) (g c.files.count)
        c.files.count j = if j = c.cwd p then 1 else 0 := by
      rw [hblank, share, Function.update_self]
      exact if_congr ⟨fun hc => hc.2.symm, fun hc => ⟨rfl, hc.symm⟩⟩ rfl rfl
    have href := h.ref j
    rw [shares]
    dsimp only
    rw [hcount, Finset.sum_range_succ, hothers, hlast, hslots, setRef_apply]
    by_cases hj : j = c.cwd p
    · subst hj
      rw [if_pos rfl, if_pos rfl]
      omega
    · rw [if_neg hj, if_neg hj]
      omega
  · by_cases hlast : q = c.files.count
    · subst hlast
      rw [hblank]
      exact hnew
    · dsimp only at hq ⊢
      rw [hold q hlast]
      exact h.phase q (by omega)
  · dsimp only at hq
    exact h.blank q (by omega)

/-! ## Any access -/

/-- What the count of lost references becomes. -/
def lostAfter (lost : ℕ → ℕ) : Event → ℕ → ℕ
  | .lose i => lose lost i
  | _ => lost

theorem balanced_access (h : Balanced lost c g) (hp : p < c.files.count) {e : Event}
    (hmay : may l p (g p) e) (he : effect l p (g p) c e c') :
    Balanced (lostAfter lost e) c' (Function.update g p (note l (g p) e)) := by
  have hsame : ∀ {b' : Book}, c'.ref = c.ref → c'.files = c.files → c'.cwd = c.cwd →
      b'.refs = (g p).refs → b'.home = (g p).home → b'.phase = (g p).phase →
      Balanced lost c' (Function.update g p b') := balanced_same h hp
  cases e with
  | quiet | hold | write | release | claim | assign | load | branch =>
    obtain rfl : c' = c := he
    exact hsame rfl rfl rfl rfl rfl rfl
  | ask i =>
    obtain ⟨-, rfl⟩ := he
    cases l <;> exact hsame rfl rfl rfl rfl rfl rfl
  | lock i =>
    obtain ⟨-, -, rfl⟩ | ⟨-, -, rfl⟩ := he
    · cases l <;> exact hsame rfl rfl rfl rfl rfl rfl
    · cases l <;> exact hsame rfl rfl rfl rfl rfl rfl
  | unlock i =>
    obtain rfl : c' = _ := he
    cases l <;> exact hsame rfl rfl rfl rfl rfl rfl
  | take i =>
    obtain ⟨-, rfl⟩ := he
    exact balanced_take h hp rfl
  | fresh i =>
    obtain ⟨hzero, rfl⟩ := he
    have htake := balanced_take (n := 1) h hp (by rw [hzero])
    exact ⟨htake.ref, htake.files, htake.bounded, htake.phase, htake.blank⟩
  | drop i =>
    obtain rfl : c' = _ := he
    exact balanced_drop h hp hmay.1
  | lose i =>
    obtain rfl | ⟨refused, readable, writeable, r, hr, hopened, hrun, rfl⟩ := he
    · exact balanced_lose h hp hmay.1
    · have hopen := balanced_doOpen h hp hrun hmay.1 hr
      rw [if_pos hopened] at hopen
      exact hopen
  | keep i =>
    obtain ⟨refused, readable, writeable, r, hr, hopened, hrun, rfl⟩ := he
    have hopen := balanced_doOpen h hp hrun hmay.1 hr
    rw [if_neg hopened] at hopen
    exact hopen
  | withdraw e i =>
    obtain ⟨r, hr, hreleased, rfl⟩ := he
    exact balanced_withdraw h hp hmay hr hreleased
  | files e =>
    obtain ⟨r, hr, hreleased, rfl⟩ := he
    exact balanced_kept h hp hmay hr hreleased
  | leave i =>
    obtain ⟨rfl, rfl⟩ := he
    exact balanced_leave h hp hmay.1
  | enter i =>
    obtain rfl : c' = _ := he
    exact balanced_enter h hp hmay.1 hmay.2.2.1
  | retire i =>
    obtain ⟨rfl, r, hr, rfl⟩ := he
    exact balanced_retire h hp hmay.1 hmay.2 hr
  | fork i =>
    obtain ⟨rfl, r, hr, rfl⟩ := he
    have hfork := balanced_fork h hp hmay.2 hr
    have hbook : Function.update g p (note l (g p) (.fork (c.cwd p))) = g := Function.update_eq_self p g
    rw [hbook]
    exact hfork

/-- Processes are not taken away. -/
theorem count_access (hp : p < c.files.count) (hphase : (c.files.procs p).phase = (g p).phase)
    (hc : ∃ h, Counted c.files h) (hb : Bounded c.files) {e : Event}
    (hmay : may l p (g p) e) (he : effect l p (g p) c e c') :
    c.files.count ≤ c'.files.count := by
  obtain ⟨history, hc⟩ := hc
  cases e with
  | quiet | hold | write | release | claim | assign | load | branch =>
    obtain rfl : c' = c := he
    exact le_rfl
  | ask i =>
    obtain ⟨-, rfl⟩ := he
    exact le_rfl
  | lock i =>
    obtain ⟨-, -, rfl⟩ | ⟨-, -, rfl⟩ := he
    · exact le_rfl
    · exact le_rfl
  | unlock i | drop i | enter i =>
    obtain rfl : c' = _ := he
    exact le_rfl
  | take i | fresh i | leave i =>
    obtain ⟨-, rfl⟩ := he
    exact le_rfl
  | lose i =>
    obtain rfl | ⟨refused, readable, writeable, r, hr, hopened, hrun, rfl⟩ := he
    · exact le_rfl
    · exact (doOpen_phases hr).1.ge
  | keep i =>
    obtain ⟨refused, readable, writeable, r, hr, hopened, hrun, rfl⟩ := he
    exact (doOpen_phases hr).1.ge
  | withdraw e i | files e =>
    obtain ⟨r, hr, hreleased, rfl⟩ := he
    exact (own_released hmay hc hb hp hphase hr).2.1.ge
  | retire i =>
    obtain ⟨-, r, hr, rfl⟩ := he
    obtain rfl := Option.some.inj hr
    exact le_rfl
  | fork i =>
    obtain ⟨-, r, hr, rfl⟩ := he
    have hcount := (fork_phases hr).1
    dsimp only
    omega

end Steps

/-! ## Runs -/

/-- A call of a running process. -/
def calls (s : Fs) (p : ℕ) (x : Prog Answer) : Prop :=
  p < s.files.count ∧ (s.files.procs p).phase = .running ∧ ∃ c, x = FileSystem.program p c

/-- Nobody is in a call, and the counts are right. -/
def Start (s : Fs) : Prop := Balanced (fun _ => 0) (core s) fun _ => blank

/-- The book of a process between calls. -/
def Idle (b : Book) : Prop := b = blank ∨ b = gone

/-- A process that takes up a call is at home. -/
theorem calls_blank {c : Core} {lost : ℕ → ℕ} {g : ℕ → Book} {s : Fs} {p : ℕ} {x : Prog Answer}
    (h : Balanced lost c g) (hc : c = core s) (hx : calls s p x) (hidle : Idle (g p)) :
    g p = blank := by
  subst hc
  obtain hblank | hgone := hidle
  · exact hblank
  · have hphase := h.phase p hx.1
    rw [hgone] at hphase
    exact absurd (hx.2.1.symm.trans hphase) (by decide)

/-- After an access, the process and all others are in the phases of their books. -/
theorem relies_access {c' : Core} {lost : ℕ → ℕ} {g : ℕ → Book} {s s' : Fs} {p : ℕ} {b' : Book}
    (hs' : core s' = c') (h : Balanced lost c' (Function.update g p b'))
    (hcount : (core s).files.count ≤ c'.files.count) (hp : Relies p (g p) s) :
    Relies p b' s' ∧ ∀ q, q ≠ p → Relies q (g q) s → Relies q (g q) s' := by
  subst hs'
  have hlt : ∀ q, q < s.files.count → q < s'.files.count := fun q hq => Nat.lt_of_lt_of_le hq hcount
  constructor
  · have hphase := h.phase p (hlt p hp.1)
    rw [Function.update_self] at hphase
    exact ⟨hlt p hp.1, hphase⟩
  · intro q hq hrel
    have hphase := h.phase q (hlt q hrel.1)
    rw [Function.update_of_ne hq] at hphase
    exact ⟨hlt q hrel.1, hphase⟩

/-- An access that is allowed, and loses no reference. -/
def Lossless (e : Event) : Prop := Lawful false e ∧ ∀ i, e ≠ .lose i

theorem lostAfter_lossless {lost : ℕ → ℕ} {e : Event} (h : Lossless e) : lostAfter lost e = lost := by
  cases e with
  | lose i => exact absurd rfl (h.2 i)
  | _ => rfl

theorem balanced_run {w : World Fs Event Answer Book}
    (h : Run Start calls (fun _ _ _ => Lossless) (note false) blank w) :
    Balanced (fun _ => 0) (core w.state) w.book ∧
      Follows (fun _ _ _ => Lossless) (note false) Relies (rule false) Idle w := by
  apply @run_follows Fs Event Answer Book Start calls (fun _ _ _ => Lossless) (note false) blank
    Relies (rule false) Idle (fun s g => Balanced (fun _ => 0) (core s) g) (Or.inl rfl)
    (fun s hs => hs) _ _ w h
  · intro s g p x hbalanced hx hidle
    have hblank := calls_blank hbalanced rfl hx hidle
    obtain ⟨hp, hrun, c, rfl⟩ := hx
    rw [hblank]
    exact ⟨⟨hp, hrun⟩, Program.along_allow (ends_program c) (fun _ _ _ ha => ⟨ha.1.1, ha.2⟩)⟩
  · intro s g p e s' hbalanced hrel hlossless hrule
    have hnext := balanced_access hbalanced hrel.1 hrule.1 hrule.2
    rw [lostAfter_lossless hlossless] at hnext
    have hcount := count_access hrel.1 hrel.2 hbalanced.files hbalanced.bounded hrule.1 hrule.2
    exact ⟨hnext, relies_access rfl hnext hcount hrel⟩

/-- The processes whose current directory is inode `i`. -/
def directories (s : Fs) (i : ℕ) : ℕ :=
  ∑ p ∈ Finset.range s.files.count, if (s.files.procs p).phase = .running ∧ s.cwd p = i then 1 else 0

/-- Between calls a process has its directory, or it is a zombie. -/
theorem shares_idle {lost : ℕ → ℕ} {s : Fs} {g : ℕ → Book} (h : Balanced lost (core s) g)
    (hidle : ∀ p, Idle (g p)) (i : ℕ) : shares (core s) g i = directories s i := by
  apply Finset.sum_congr rfl
  intro p hp
  have hphase : (s.files.procs p).phase = (g p).phase := h.phase p (Finset.mem_range.mp hp)
  rw [hphase]
  obtain hblank | hgone := hidle p
  · rw [hblank]
    exact if_congr (and_congr_left' (iff_of_true rfl rfl)) rfl rfl
  · rw [hgone]
    have hzombie : gone.phase ≠ .running := by decide
    rw [if_neg (fun hc => hzombie hc.1), share, if_neg (fun hc => Bool.false_ne_true hc.1)]
    rfl

/-- One process, in the root directory. -/
def single : Fs where
  disk := fun _ _ => 0
  buffers := fun _ => .init 1
  inodes := fun i => ⟨⟨FileSystem.typeDir, 0, 0, 1, 0, fun _ => 0⟩, 1, 1, if i = 0 then 1 else 0, true, .init 1⟩
  files := FileReferences.blank
  offsets := fun _ => 0
  cwd := fun _ => 0
  devices := fun _ => none
  overrun := fun _ => false
  overruns := 0

theorem single_slots (i : ℕ) : slots single.files i = 0 := by
  unfold slots
  apply Finset.sum_eq_zero
  intro f _
  exact if_neg (fun hc => absurd hc.1 (lt_irrefl 0))

theorem single_start : Start single := by
  refine ⟨fun i => ?_, ⟨_, start_counted FileReferences.blank_start⟩, fun _ _ => rfl, fun _ _ => rfl,
    fun _ _ => rfl⟩
  change (if i = 0 then 1 else 0) = shares (core single) (fun _ => blank) i+slots single.files i+0
  rw [single_slots, shares]
  change _ = ∑ p ∈ Finset.range 1, share (core single).cwd blank p i+0+0
  rw [Finset.sum_range_one, share]
  exact if_congr ⟨fun hc => ⟨rfl, hc.symm⟩, fun hc => hc.2.symm⟩ rfl rfl

/-- `open("/", MODE_RDWR)`: the directory is refused, and its inode is not put. -/
def refusedOpen (p : ℕ) : Prog Answer := FileSystem.program p (.doOpen [FileSystem.slash] FileSystem.modeRdwr)

theorem refused_solo : (solo (note false) 5 (refusedOpen 0) single blank).1.ended = true ∧
    ((solo (note false) 5 (refusedOpen 0) single blank).2.1.inodes 0).ref = 2 ∧
    directories (solo (note false) 5 (refusedOpen 0) single blank).2.1 0 = 1 ∧
    slots (solo (note false) 5 (refusedOpen 0) single blank).2.1.files 0 = 0 := by
  decide +kernel

end BabyOS.InodeReferences

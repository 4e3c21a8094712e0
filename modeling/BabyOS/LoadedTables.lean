import BabyOS.CopyOnWrite

/-!
# What CR3 holds

`vmm_t::copy` loads CR3 with the tables of the new process. The process that forks goes
on with them until something reloads CR3: a switch, or a change of its own tables.
-/

set_option autoImplicit false

namespace BabyOS.LoadedTables
open BabyOS.PageMachine BabyOS.ProcessMachine BabyOS.CopyOnWrite

/-- `forking` is set from the end of `fork` until the process that called it leaves the
kernel, or the processor. -/
structure World where
  machine : Machine
  forking : Bool

inductive Event
  | work (e : ProcessMachine.Event)
  | fork
  | switch (next : ℕ)
  | back

/-- `work` is everything that a process does in user mode or in another call. `schedule` goes to
another process or does nothing; on the way out of a call it is made if `m_need_resched` is set. -/
inductive Step : World → Event → World → Prop
  | work {w : World} {m : Machine} {e : ProcessMachine.Event} : w.forking = false →
      ProcessMachine.Step w.machine e m → e ≠ .fork → (∀ next, e ≠ .schedule next) →
      Step w (.work e) ⟨m, false⟩
  | fork {w : World} {m : Machine} : w.forking = false → ProcessMachine.Step w.machine .fork m →
      Step w .fork ⟨m, true⟩
  | switch {w : World} {m : Machine} {next : ℕ} : next ≠ w.machine.current →
      ProcessMachine.Step w.machine (.schedule next) m → Step w (.switch next) ⟨m, false⟩
  | back {w : World} : w.forking = true → Step w .back ⟨w.machine, false⟩

inductive Run (allowed : World → Event → Prop) : World → Prop
  | start {m : Machine} : m.current < m.count → m.cr3 = m.current → Run allowed ⟨m, false⟩
  | step {w w' : World} {e : Event} : Run allowed w → allowed w e → Step w e w' → Run allowed w'

/-- While a process is in user mode, or in a call that touches its memory, CR3 holds its
own tables. -/
def OwnTables (w : World) : Prop := w.forking = false → w.machine.cr3 = w.machine.current

/-- Whoever forks leaves the processor before it goes on. -/
def Rescheduled : World → Event → Prop
  | _, .back => False
  | _, _ => True

section Steps

variable {m m' : Machine} {w w' : World} {e : ProcessMachine.Event}

/-- CR3 is left alone, or loaded with the tables of the current process. -/
def Loads (m m' : Machine) : Prop :=
  m'.current = m.current ∧ m'.count = m.count ∧ (m'.cr3 = m.cr3 ∨ m'.cr3 = m.current)

theorem Loads.refl (m : Machine) : Loads m m := ⟨rfl, rfl, Or.inl rfl⟩

theorem Loads.trans {m₁ : Machine} (h : Loads m m₁) (h' : Loads m₁ m') : Loads m m' := by
  obtain ⟨hcur, hcount, hcr3⟩ := h
  obtain ⟨hcur', hcount', hcr3'⟩ := h'
  refine ⟨hcur'.trans hcur, hcount'.trans hcount, ?_⟩
  rcases hcr3' with hc | hc
  · rw [hc]
    exact hcr3
  · exact Or.inr (hc.trans hcur)

theorem loads_setSelf (m : Machine) (p : Process) : Loads m (m.setSelf p) := ⟨rfl, rfl, Or.inl rfl⟩

theorem loads_setAreas (m : Machine) (l : AreaMachine.Areas) : Loads m (m.setAreas l) :=
  loads_setSelf m _

theorem loads_setTables (m : Machine) (t : Pml4Table) (s : Phys) : Loads m (m.setTables t s) :=
  ⟨rfl, rfl, Or.inr rfl⟩

theorem loads_release (hs : release m = some m') : Loads m m' := by
  rw [release] at hs
  split at hs
  · cases hs
  split at hs
  · cases hs
  · obtain rfl := Option.some.inj hs
    exact (loads_setAreas m []).trans (loads_setTables _ _ _)

theorem loads_exit (hs : ProcessMachine.exit m = some m') : Loads m m' := by
  obtain ⟨m₁, hrel, rfl⟩ := Option.map_eq_some_iff.mp hs
  exact (loads_release hrel).trans (loads_setSelf _ _)

theorem loads_doProtectionFault {addr : ℕ} (hs : doProtectionFault m addr = some m') : Loads m m' := by
  rw [doProtectionFault] at hs
  split at hs
  · obtain rfl := Option.some.inj hs
    exact .refl m
  dsimp only at hs
  split at hs
  · obtain rfl := Option.some.inj hs
    exact loads_setTables m _ _
  split at hs
  · cases hs
  split at hs
  · cases hs
  · obtain ⟨r, -, rfl⟩ := Option.map_eq_some_iff.mp hs
    exact loads_setTables m _ _

theorem loads_doNotPresent {addr : ℕ} (hs : doNotPresent m addr = some m') : Loads m m' := by
  rw [doNotPresent] at hs
  split at hs
  · cases hs
  · obtain ⟨r, -, rfl⟩ := Option.map_eq_some_iff.mp hs
    exact loads_setTables m _ _

theorem loads_doPageFault {addr err rsp : ℕ} (hs : doPageFault m addr err rsp = some m') :
    Loads m m' := by
  rw [doPageFault] at hs
  split at hs
  · exact loads_exit hs
  split at hs
  · split at hs
    · exact (loads_setAreas m _).trans (loads_doProtectionFault hs)
    · obtain rfl := Option.some.inj hs
      exact loads_setAreas m _
  · exact (loads_setAreas m _).trans (loads_doNotPresent hs)

theorem loads_areaOp {op : AreaMachine.Op} {range : Option (ℕ × ℕ)} (hs : areaOp m op range = some m') :
    Loads m m' := by
  rw [areaOp] at hs
  split at hs
  · cases hs
  next v _ =>
    refine (loads_setSelf m { m.self with vmm := v }).trans ?_
    cases range with
    | none =>
      obtain rfl := Option.some.inj hs
      exact .refl _
    | some r =>
      obtain ⟨s, -, rfl⟩ := Option.map_eq_some_iff.mp hs
      exact ⟨rfl, rfl, Or.inr rfl⟩

theorem loads_loadSegment {g : Image} {b : Bool} (hs : loadSegment m g = some (b, m')) : Loads m m' := by
  rw [loadSegment] at hs
  split at hs
  · obtain ⟨-, rfl⟩ := Prod.mk.inj (Option.some.inj hs)
    exact .refl m
  next l _ =>
    refine (loads_setAreas m l).trans ?_
    dsimp only at hs
    split at hs
    · cases hs
    split at hs
    · cases hs
    split at hs
    all_goals
      obtain ⟨-, rfl⟩ := Prod.mk.inj (Option.some.inj hs)
      exact loads_setTables _ _ _

theorem loads_loadSegments {l : List Image} {b : Bool} (hs : loadSegments l m = some (b, m')) :
    Loads m m' := by
  induction l generalizing m with
  | nil =>
    obtain ⟨-, rfl⟩ := Prod.mk.inj (Option.some.inj hs)
    exact .refl m
  | cons g rest ih =>
    rw [loadSegments] at hs
    split at hs
    · cases hs
    next hg =>
      obtain ⟨-, rfl⟩ := Prod.mk.inj (Option.some.inj hs)
      exact loads_loadSegment hg
    next hg => exact (loads_loadSegment hg).trans (ih hs)

theorem loads_exec {image : List Image} {startBrk : ℕ} (hs : exec m image startBrk = some m') :
    Loads m m' := by
  rw [exec] at hs
  split at hs
  · cases hs
  next hrel =>
    refine (loads_release hrel).trans ?_
    split at hs
    · cases hs
    next hl => exact (loads_loadSegments hl).trans (loads_exit hs)
    next hl =>
      obtain rfl := Option.some.inj hs
      exact (loads_loadSegments hl).trans (loads_setSelf _ _)

/-- What each step does to CR3, but for forks and switches. -/
theorem loads_step (hs : ProcessMachine.Step m e m') (hfork : e ≠ .fork)
    (hswitch : ∀ next, e ≠ .schedule next) : Loads m m' := by
  cases hs with
  | area _ hop _ => exact loads_areaOp hop
  | userFault _ _ _ hfault => exact loads_doPageFault hfault
  | kernelFault _ _ _ hfault => exact loads_doPageFault hfault
  | exec _ hexec => exact loads_exec hexec
  | exit _ hexit => exact loads_exit hexit
  | fork => exact absurd rfl hfork
  | @schedule next => exact absurd rfl (hswitch next)
  | userStore | kernelStore | kernelAlloc | kernelFree | kernelWrite => exact ⟨rfl, rfl, Or.inl rfl⟩

/-- After a fork CR3 holds the tables of the new process. -/
theorem fork_cr3 (hs : ProcessMachine.Step m .fork m') :
    m'.current = m.current ∧ m'.count = m.count+1 ∧ m'.cr3 = m.count := by
  cases hs with
  | fork _ hfork =>
    rw [ProcessMachine.fork] at hfork
    split at hfork
    · cases hfork
    split at hfork
    · cases hfork
    · obtain rfl := Option.some.inj hfork
      exact ⟨rfl, rfl, rfl⟩

/-- What carries the run: the current process exists, and a fork that is not over has left
CR3 on the tables of another process. -/
structure Loaded (w : World) : Prop where
  running : w.machine.current < w.machine.count
  own : w.forking = false → w.machine.cr3 = w.machine.current
  forked : w.forking = true → w.machine.cr3 ≠ w.machine.current

theorem loaded_step {e : Event} (h : Loaded w) (ha : Rescheduled w e) (hstep : Step w e w') :
    Loaded w' := by
  cases hstep with
  | work hin hs hfork hswitch =>
    obtain ⟨hcur, hcount, hcr3⟩ := loads_step hs hfork hswitch
    refine ⟨?_, fun _ => ?_, fun hc => nomatch hc⟩
    · rw [hcur, hcount]
      exact h.running
    · rw [hcur]
      exact hcr3.elim (fun hc => hc.trans (h.own hin)) id
  | fork _ hs =>
    obtain ⟨hcur, hcount, hcr3⟩ := fork_cr3 hs
    have hrunning := h.running
    refine ⟨?_, fun hc => (nomatch hc), fun _ => ?_⟩
    · rw [hcur, hcount]
      omega
    · rw [hcur, hcr3]
      omega
  | switch _ hs =>
    cases hs with
    | schedule hnext _ => exact ⟨hnext, fun _ => rfl, fun hc => nomatch hc⟩
  | back => exact ha.elim

theorem loaded_run (h : Run Rescheduled w) : Loaded w := by
  induction h with
  | start hrunning hcr3 => exact ⟨hrunning, fun _ => hcr3, fun hc => nomatch hc⟩
  | step _ ha hstep ih => exact loaded_step ih ha hstep

/-- In every run in which whoever forks leaves the processor before it goes on, CR3 holds the
tables of the running process; and whoever goes on after a fork has not. -/
theorem own_tables_run (w : World) : (Run Rescheduled w → OwnTables w) ∧
    ∀ w', Run Rescheduled w → Step w .back w' → ¬ OwnTables w' := by
  refine ⟨fun h => (loaded_run h).own, fun w' h hstep hown => ?_⟩
  cases hstep with
  | back hfork => exact (loaded_run h).forked hfork (hown rfl)

end Steps

/-! ## The first process forks -/

theorem origin_fork : ∃ m, ProcessMachine.Step origin .fork m ∧ m.current = 0 ∧ m.cr3 = 1 ∧
    (m.procs 1).alive = true ∧ m.self.tables.frame = 2047 ∧ (m.procs m.cr3).tables.frame ≠ 2047 := by
  have hfork : (ProcessMachine.fork origin).map
      (fun m => (m.current, m.cr3, (m.procs 1).alive, m.self.tables.frame,
        decide ((m.procs m.cr3).tables.frame ≠ 2047))) =
        some (0, 1, true, 2047, true) := by decide +kernel
  obtain ⟨m, hs, hm⟩ := Option.map_eq_some_iff.mp hfork
  simp only [Prod.mk.injEq] at hm
  exact ⟨m, .fork rfl hs, hm.1, hm.2.1, hm.2.2.1, hm.2.2.2.1, of_decide_eq_true hm.2.2.2.2⟩

/-- The new process is switched to and runs on its own tables; without the switch the old one is not
on its own. -/
theorem own_tables_run_origin : ∃ m m', Step ⟨m, true⟩ (.switch 1) ⟨m', false⟩ ∧
    OwnTables ⟨m', false⟩ ∧ ¬ OwnTables ⟨m, false⟩ := by
  obtain ⟨m, hs, hcur, hcr3, halive, -⟩ := origin_fork
  have hstart : Run Rescheduled ⟨origin, false⟩ := .start Nat.one_pos rfl
  have hfork : Run Rescheduled ⟨m, true⟩ := hstart.step (e := .fork) trivial (.fork rfl hs)
  have hcount : m.count = 2 := (fork_cr3 hs).2.1
  have hswitch : Step ⟨m, true⟩ (.switch 1) ⟨{ m with current := 1, cr3 := 1 }, false⟩ :=
    .switch (by rw [hcur]; exact Nat.one_ne_zero) (.schedule (by rw [hcount]; norm_num) halive)
  exact ⟨m, _, hswitch, (own_tables_run _).1 (hfork.step (e := .switch 1) trivial hswitch),
    (own_tables_run _).2 _ hfork (.back rfl)⟩

/-- The claim fails for a process that goes on after its fork. -/
theorem fork_on_child : ∃ w, Run (fun _ _ => True) w ∧ w.forking = false ∧
    (w.machine.procs w.machine.cr3).tables.frame ≠ w.machine.self.tables.frame ∧ ¬ OwnTables w := by
  obtain ⟨m, hs, hcur, hcr3, -, hroot, hother⟩ := origin_fork
  have hstart : Run (fun _ _ => True) ⟨origin, false⟩ := .start Nat.one_pos rfl
  refine ⟨⟨m, false⟩, (hstart.step trivial (.fork rfl hs)).step trivial (.back rfl), rfl, ?_, fun hown => ?_⟩
  · rw [hroot]
    exact hother
  · have := hown rfl
    rw [hcr3, hcur] at this
    cases this

end BabyOS.LoadedTables

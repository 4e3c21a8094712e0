import BabyOS.LifeCycle

/-!
# Waiting in the run queue

`schedule` takes the first process that can run, and who is woken or forked goes to the
head. So a process is passed over once for each process ahead of it and once for each that
comes in while it waits, and not more often.
-/

set_option autoImplicit false

namespace BabyOS.Overtaking
open BabyOS.RunQueue BabyOS.LifeCycle

/-- `schedule` would take the process, if none were ahead of it. -/
def Ready (s : State) (p : ℕ) : Prop := p ∈ s.runQueue ∧ s.life p = .running ∧ s.hasCpu p = false

/-- How many processes are ahead. -/
def ahead (s : State) (p : ℕ) : ℕ := s.runQueue.idxOf p

/-- Calls of `schedule` in a step. -/
def choices : Event → ℕ
  | .schedule => 1
  | _ => 0

/-- Processes that a step links into the run queue at its head. -/
def arrivals (s : State) : Event → State → ℕ
  | .schedule, _ => 0
  | _, s' => s'.runQueue.length-s.runQueue.length

/-- A run in which `p` is not chosen, with its choices and its arrivals. -/
inductive Waits (p : ℕ) : State → ℕ → ℕ → State → Prop
  | refl {s : State} : Waits p s 0 0 s
  | step {s s' s'' : State} {n k : ℕ} {e : Event} (h : Waits p s n k s') (hstep : Step s' e s'')
      (hnot : s''.phase ≠ .chosen p) : Waits p s (n+choices e) (k+arrivals s' e s'') s''

/-! ## Who has the processor -/

/-- The processor is marked as taken. -/
structure Marked (s : State) : Prop where
  current : s.current = 0 ∨ s.hasCpu s.current = true
  chosen : ∀ n, s.phase = .chosen n → n ≠ s.current ∧ s.hasCpu n = true
  switched : ∀ q, s.phase = .switched q → q ≠ s.current

/-- What a step outside of `schedule` does to the processes that wait. -/
structure Passive (s s' : State) : Prop where
  queue : ∃ l, s'.runQueue = l++s.runQueue
  hasCpu : ∀ p, s.life p ≠ .free → s'.hasCpu p = s.hasCpu p
  current : s'.current = s.current
  phase : s'.phase = s.phase
  running : ∀ p, p ≠ s.current → s.life p = .running → s'.life p = .running

section Steps

variable {s s' : State} {p : ℕ} {e : Event}

theorem Passive.of_eq (hqueue : s'.runQueue = s.runQueue) (hcpu : s'.hasCpu = s.hasCpu) (hcur : s'.current = s.current)
    (hphase : s'.phase = s.phase) (hlife : ∀ p, p ≠ s.current → s.life p = .running → s'.life p = .running) : Passive s s' :=
  ⟨⟨[], hqueue⟩, fun p _ => by rw [hcpu], hcur, hphase, hlife⟩

/-- The life of the current process does not matter. -/
theorem passive_life {x : Life} (hqueue : s'.runQueue = s.runQueue) (hcpu : s'.hasCpu = s.hasCpu)
    (hcur : s'.current = s.current) (hphase : s'.phase = s.phase)
    (hlife : s'.life = Function.update s.life s.current x) : Passive s s' := by
  refine .of_eq hqueue hcpu hcur hphase fun p hp hrun => ?_
  rw [hlife, Function.update_of_ne hp, hrun]

theorem addProcessToRq_queue (s : State) (p : ℕ) : ∃ l, (s.addProcessToRq p).runQueue = l++s.runQueue := by
  rw [State.addProcessToRq]
  split
  · exact ⟨[], rfl⟩
  · exact ⟨[p], rfl⟩

/-- Only lives and the head of the run queue change, and no process stops. -/
structure Woken (s s' : State) : Prop where
  queue : ∃ l, s'.runQueue = l++s.runQueue
  same : s'.hasCpu = s.hasCpu ∧ s'.current = s.current ∧ s'.phase = s.phase
  running : ∀ p, s.life p = .running → s'.life p = .running

theorem Woken.trans {s'' : State} (h : Woken s s') (h' : Woken s' s'') : Woken s s'' := by
  obtain ⟨l, hl⟩ := h.queue
  obtain ⟨l', hl'⟩ := h'.queue
  refine ⟨⟨l'++l, by rw [hl', hl, List.append_assoc]⟩, ?_, fun p hp => h'.running p (h.running p hp)⟩
  rw [h'.same.1, h'.same.2.1, h'.same.2.2]
  exact h.same

theorem Woken.passive (h : Woken s s') : Passive s s' :=
  ⟨h.queue, fun p _ => by rw [h.same.1], h.same.2.1, h.same.2.2, fun p _ => h.running p⟩

theorem woken_refl {s' : State} (hqueue : s'.runQueue = s.runQueue) (hlife : s'.life = s.life) (hcpu : s'.hasCpu = s.hasCpu)
    (hcur : s'.current = s.current) (hphase : s'.phase = s.phase) : Woken s s' :=
  ⟨⟨[], hqueue⟩, ⟨hcpu, hcur, hphase⟩, fun p hp => by rw [hlife, hp]⟩

theorem woken_wake (s : State) (p : ℕ) : Woken s (s.wakeUpProcess p) := by
  refine ⟨addProcessToRq_queue (s.setLife p .running) p, ?_, fun q hq => ?_⟩
  · rw [wakeUpProcess_eq]
    exact ⟨rfl, rfl, rfl⟩
  · rw [wakeUpProcess_eq]
    by_cases hqp : q = p
    · rw [hqp]
      exact Function.update_self ..
    · exact (Function.update_of_ne hqp _ _).trans hq

theorem woken_wakeUp (s : State) (w : Where) : Woken s (s.wakeUp w) := by
  rw [State.wakeUp]
  split
  · exact woken_refl rfl rfl rfl rfl rfl
  · exact woken_wake s _

theorem woken_up (s : State) (k : ℕ) : Woken s (s.up k) := by
  rw [State.up]
  split
  · exact woken_refl rfl rfl rfl rfl rfl
  · refine .trans ?_ (woken_wake _ _)
    exact woken_refl rfl rfl rfl rfl rfl

theorem woken_tick (s : State) : Woken s s.tick := by
  rw [State.tick]
  generalize s.lists .timer = l
  induction l generalizing s with
  | nil => exact woken_refl rfl rfl rfl rfl rfl
  | cons p l ih =>
    have hone : Woken s (s.timerUpdate p) := by
      rw [State.timerUpdate]
      split
      · exact woken_refl rfl rfl rfl rfl rfl
      · dsimp only
        split
        · refine .trans ?_ (woken_wake _ _)
          exact woken_refl rfl rfl rfl rfl rfl
        · exact woken_refl rfl rfl rfl rfl rfl
    exact hone.trans (ih _)

theorem passive_step (hstep : Step s e s') (hs : e ≠ .schedule) (hto : e ≠ .switchTo) (ht : e ≠ .tail) :
    Passive s s' := by
  cases hstep with
  | schedule => exact absurd rfl hs
  | switchTo => exact absurd rfl hto
  | tail => exact absurd rfl ht
  | wake => exact (woken_wakeUp s _).passive
  | tick => exact (woken_tick s).passive
  | up => exact (woken_up s _).passive
  | @notify q =>
    have hw := woken_wakeUp s (.child q)
    exact ⟨hw.queue, fun p _ => congrFun hw.same.1 p, hw.same.2.1, hw.same.2.2, fun p _ => hw.running p⟩
  | sleepOn | sleep | leave | waitStart | waitLeave => exact .of_eq rfl rfl rfl rfl fun _ _ => id
  | doze | waitDoze | waitWake | stop | exit => exact passive_life rfl rfl rfl rfl rfl
  | down =>
    rw [State.down]
    split
    · exact .of_eq rfl rfl rfl rfl fun _ _ => id
    · exact passive_life rfl rfl rfl rfl rfl
  | recheck =>
    rw [State.recheck]
    split
    · exact .of_eq rfl rfl rfl rfl fun _ _ => id
    · exact passive_life rfl rfl rfl rfl rfl
  | walk =>
    rcases walk_cases s _ with ⟨z, -, hz, heq⟩ | ⟨x, -, heq⟩
    · rw [heq]
      refine .of_eq rfl rfl rfl rfl fun p _ hrun => ?_
      have hne : p ≠ z := fun hp => by rw [← hp, hrun] at hz; cases hz
      exact (Function.update_of_ne hne _ _).trans hrun
    · rw [heq]
      exact .of_eq rfl rfl rfl rfl fun _ _ => id
  | @fork q n hphase hout hq =>
    have heq := addProcessToRq_eq (s.newChild q n) q
    have hne : ∀ p, s.life p ≠ .free → p ≠ q := fun p hp hpq => hp (hpq ▸ hq)
    refine ⟨addProcessToRq_queue (s.newChild q n) q, fun p hp => ?_, by rw [State.fork, heq]; rfl,
      by rw [State.fork, heq]; rfl, fun p _ hrun => ?_⟩
    · rw [State.fork, heq]
      exact Function.update_of_ne (hne p hp) _ _
    · rw [State.fork, heq]
      exact (Function.update_of_ne (hne p (by rw [hrun]; decide)) _ _).trans hrun

theorem marked_passive (h : Steady s) (hm : Marked s) (hp : Passive s s') : Marked s' := by
  refine ⟨?_, fun n hn => ?_, fun q hq => ?_⟩
  · rw [hp.current, hp.hasCpu _ h.current]
    exact hm.current
  · rw [hp.phase] at hn
    rw [hp.current, hp.hasCpu n (h.chosen n hn).used]
    exact hm.chosen n hn
  · rw [hp.phase] at hq
    rw [hp.current]
    exact hm.switched q hq

theorem marked_choose (hm : Marked s) : Marked s.choose := by
  rw [State.choose]
  split
  · exact ⟨hm.current, hm.chosen, hm.switched⟩
  next hne =>
    refine ⟨hm.current.imp_right fun hcpu => (Function.update_of_ne (Ne.symm hne) _ _).trans hcpu, fun n hn => ?_,
      fun q hq => Phase.noConfusion hq⟩
    have hnext : s.next = n := Phase.chosen.inj hn
    subst hnext
    exact ⟨hne, Function.update_self ..⟩

theorem marked_step (h : Steady s) (hm : Marked s) (hstep : Step s e s') : Marked s' := by
  by_cases hs : e = .schedule
  · subst hs
    cases hstep with
    | schedule => exact marked_choose (s := s.setPlace _) ⟨hm.current, hm.chosen, hm.switched⟩
  by_cases hto : e = .switchTo
  · subst hto
    cases hstep with
    | switchTo hphase =>
      obtain ⟨hne, hcpu⟩ := hm.chosen _ hphase
      exact ⟨.inr hcpu, fun m hm' => Phase.noConfusion hm', fun q hq => by cases hq; exact hne.symm⟩
  by_cases ht : e = .tail
  · subst ht
    cases hstep with
    | tail hphase =>
      have hne := hm.switched _ hphase
      exact ⟨hm.current.imp_right fun hcpu => (Function.update_of_ne hne.symm _ _).trans hcpu,
        fun m hm' => Phase.noConfusion hm', fun q hq => Phase.noConfusion hq⟩
  exact marked_passive h hm (passive_step hstep hs hto ht)

theorem marked_run {allowed : State → Event → Prop} (h : Run allowed s) : Marked s := by
  induction h with
  | start count => exact ⟨.inl rfl, fun n hn => Phase.noConfusion hn, fun q hq => Phase.noConfusion hq⟩
  | step hrun _ hstep ih => exact marked_step (steady_run hrun) ih hstep

/-! ## The place in the queue -/

theorem ready_ne (hm : Marked s) (hp : p ≠ 0) (hr : Ready s p) : p ≠ s.current := by
  rintro rfl
  rcases hm.current with hzero | hcpu
  · exact hp hzero
  · rw [hr.2.2] at hcpu
    cases hcpu

/-- The first that satisfies `f` is ahead of every other that does. -/
theorem idxOf_erase_first {f : ℕ → Bool} {l : List ℕ} {n : ℕ} (hn : l.find? f = some n) (hp : f p = true) (hmem : p ∈ l)
    (hne : p ≠ n) : p ∈ l.erase n ∧ (l.erase n).idxOf p+1 = l.idxOf p := by
  induction l with
  | nil => exact absurd hmem List.not_mem_nil
  | cons a l ih =>
    by_cases ha : f a = true
    · rw [List.find?_cons_of_pos ha, Option.some.injEq] at hn
      subst hn
      rw [List.erase_cons_head, List.idxOf_cons_ne _ hne.symm]
      exact ⟨List.mem_of_ne_of_mem hne hmem, rfl⟩
    · rw [List.find?_cons_of_neg ha] at hn
      have hpa : p ≠ a := fun h => ha (h ▸ hp)
      have hna : a ≠ n := fun h => ha (h ▸ List.find?_some hn)
      obtain ⟨hin, hidx⟩ := ih hn (List.mem_of_ne_of_mem hpa hmem)
      rw [List.erase_cons_tail (by simpa using hna), List.idxOf_cons_ne _ hpa.symm, List.idxOf_cons_ne _ hpa.symm,
        ← hidx]
      exact ⟨List.mem_cons_of_mem _ hin, rfl⟩

theorem ready_choose (hr : Ready s p) (hnot : s.choose.phase ≠ .chosen p) (hp : p ≠ s.current) :
    Ready s.choose p ∧ ahead s.choose p+1 = ahead s p := by
  obtain ⟨hmem, hrun, hcpu⟩ := hr
  have hok : (decide (s.life p = .running) && !s.hasCpu p) = true := by rw [hrun, hcpu]; decide
  obtain ⟨n, hn⟩ : ∃ n, s.runQueue.find? (fun p => decide (s.life p = .running) && !s.hasCpu p) = some n :=
    Option.isSome_iff_exists.mp (List.find?_isSome.mpr ⟨p, hmem, hok⟩)
  have hnext : s.next = n := by rw [State.next, hn]; rfl
  have hrest : s.rest = s.runQueue.erase n := by rw [State.rest, hn]
  have hne : p ≠ n := by
    rintro rfl
    refine hnot ?_
    rw [State.choose, if_neg (by rw [hnext]; exact hp), hnext]
  obtain ⟨hin, hidx⟩ := idxOf_erase_first hn hok hmem hne
  rw [ahead, ahead, Ready, State.choose, hnext, hrest]
  split
  · exact ⟨⟨hin, hrun, hcpu⟩, hidx⟩
  · dsimp only
    rw [Function.update_of_ne hne]
    split
    · rw [List.idxOf_append_of_mem hin]
      exact ⟨⟨List.mem_append_left _ hin, hrun, hcpu⟩, hidx⟩
    · exact ⟨⟨hin, hrun, hcpu⟩, hidx⟩

theorem choices_zero (he : e ≠ .schedule) : choices e = 0 := by
  cases e <;> first | rfl | exact absurd rfl he

theorem arrivals_eq (he : e ≠ .schedule) : arrivals s e s' = s'.runQueue.length-s.runQueue.length := by
  cases e <;> first | rfl | exact absurd rfl he

theorem ready_passive (honce : s'.runQueue.Nodup) (hpass : Passive s s') (hr : Ready s p) (hp : p ≠ s.current) :
    Ready s' p ∧ ahead s' p = ahead s p+(s'.runQueue.length-s.runQueue.length) := by
  obtain ⟨hmem, hrun, hcpu⟩ := hr
  obtain ⟨l, hl⟩ := hpass.queue
  rw [hl] at honce
  have hnot : p ∉ l := fun hin => List.disjoint_of_nodup_append honce hin hmem
  have hfree : s.life p ≠ .free := by rw [hrun]; decide
  rw [Ready, ahead, ahead, hl, List.idxOf_append_of_notMem hnot, List.length_append, Nat.add_sub_cancel, Nat.add_comm]
  exact ⟨⟨List.mem_append_right _ hmem, hpass.running p hp hrun, (hpass.hasCpu p hfree).trans hcpu⟩, rfl⟩

theorem ready_step (h : Steady s) (hm : Marked s) (hp : p ≠ 0) (hr : Ready s p) (hstep : Step s e s')
    (hnot : s'.phase ≠ .chosen p) : Ready s' p ∧ ahead s' p+choices e = ahead s p+arrivals s e s' := by
  have hne := ready_ne hm hp hr
  by_cases hs : e = .schedule
  · subst hs
    cases hstep with
    | schedule => exact ready_choose (s := s.setPlace _) hr hnot hne
  rw [choices_zero hs, arrivals_eq hs, Nat.add_zero]
  by_cases hto : e = .switchTo
  · subst hto
    cases hstep with
    | switchTo => exact ⟨hr, (Nat.sub_self s.runQueue.length).symm ▸ rfl⟩
  by_cases ht : e = .tail
  · subst ht
    cases hstep with
    | @tail q hphase =>
      obtain ⟨hmem, hrun, hcpu⟩ := hr
      refine ⟨⟨hmem, hrun, ?_⟩, (Nat.sub_self s.runQueue.length).symm ▸ rfl⟩
      by_cases hq : p = q
      · subst hq
        exact Function.update_self ..
      · exact (Function.update_of_ne hq _ _).trans hcpu
  exact ready_passive (steady_step h hstep).once (passive_step hstep hs hto ht) hr hne

/-- Two children of the first process, the second ahead of the first. -/
def two : State := (start.fork 1 1).fork 2 2

end Steps

end BabyOS.Overtaking

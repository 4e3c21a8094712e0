import BabyOS.SemaphoreMachine

/-!
# No unit is lost

A unit is in the count, on its way to a waiter that has been granted it, or with
a process whose `down` has returned.
-/

set_option autoImplicit false

namespace BabyOS.SemaphoreRun
open BabyOS.SemaphoreMachine

/-- In `down`, with `m_up` set: the waiter has its unit but has not resumed. -/
def Granted (m : Machine) (p : ℕ) : Prop := m.place p ≠ .out ∧ m.isUp p = true

/-- An up with somebody waiting grants the head of the list and nobody else. -/
structure Grants (g : History) (m : Machine) (p : ℕ) (waiters : List ℕ) : Prop where
  count : m.up.count = m.count
  waitList : m.up.waitList = waiters
  before : ¬ Granted m p
  after : ∀ q, Granted m.up q ↔ q = p ∨ Granted m q
  longest : ∀ q ∈ waiters, g.arrival p < g.arrival q

/-- What a state of a run has to satisfy. -/
structure Correct (n : ℕ) (m : Machine) (g : History) : Prop where
  empty : 0 < m.count → m.waitList = []
  finite : {p | Granted m p}.Finite
  balance : g.completed+{p | Granted m p}.ncard+m.count+2 ^ 32*g.wraps = n+g.ups
  up : (m.waitList = [] ∧ m.up = { m with count := (m.count+1) % 2 ^ 32 }) ∨
    ∃ p waiters, m.waitList = p :: waiters ∧ Grants g m p waiters
  returns : ∀ e m', Step m e m' → ∀ p, m.place p ≠ .out → m'.place p = .out → Granted m p
  awake : ∀ p, Granted m p → m.running p = true ∧ (p = m.current ∨ p ∈ m.runQueue)

/-- What carries the run. -/
structure Invariant (n : ℕ) (m : Machine) (g : History) : Prop where
  waiting : ∀ p, p ∈ m.waitList ↔ m.place p ≠ .out ∧ m.isUp p = false
  order : m.waitList.Pairwise (fun p q => g.arrival p < g.arrival q)
  past : ∀ p ∈ m.waitList, g.arrival p < g.blocked
  empty : 0 < m.count → m.waitList = []
  small : m.count < 2 ^ 32
  finite : {p | Granted m p}.Finite
  balance : g.completed+{p | Granted m p}.ncard+m.count+2 ^ 32*g.wraps = n+g.ups
  cpu : ∀ p, m.hasCpu p = true ↔ p = m.current
  idle : m.place 0 = .out ∧ 0 ∉ m.runQueue
  awake : ∀ p, Granted m p → m.running p = true ∧ (p = m.current ∨ p ∈ m.runQueue)

section Steps

variable {n : ℕ} {m m' : Machine} {g : History} {e : Event}

/-! ## Waking and switching -/

theorem mem_addProcessToRq (m : Machine) (p q : ℕ) :
    q ∈ (m.addProcessToRq p).runQueue ↔ q = p ∨ q ∈ m.runQueue := by
  rw [Machine.addProcessToRq]
  split
  next hp =>
    constructor
    · exact Or.inr
    · rintro (rfl | hq)
      · exact hp
      · exact hq
  next => exact List.mem_cons

/-- What waking a process does: it may run, and it is on the run queue. -/
theorem wakeUp_frame (m : Machine) (p : ℕ) : m.wakeUpProcess p = { m with
    running := Function.update m.running p true
    runQueue := (m.wakeUpProcess p).runQueue } := by
  rw [Machine.wakeUpProcess, Machine.addProcessToRq]
  split <;> rfl

theorem mem_wakeUp (m : Machine) (p q : ℕ) :
    q ∈ (m.wakeUpProcess p).runQueue ↔ q = p ∨ q ∈ m.runQueue := mem_addProcessToRq _ p q

/-- A process that may run and waits for a processor keeps its place in the
queue, unless it gets the processor. -/
theorem schedule_queue {p : ℕ} (hp : p ≠ 0) (hr : m.running p = true)
    (hq : p = m.current ∨ p ∈ m.runQueue) :
    p = m.schedule.current ∨ p ∈ m.schedule.runQueue := by
  have hrest : p ∈ m.runQueue → p = m.next ∨ p ∈ m.rest := by
    intro hin
    rw [Machine.next, Machine.rest]
    cases m.runQueue.find? fun p => m.running p && !m.hasCpu p with
    | none => exact Or.inr hin
    | some q =>
      by_cases hpq : p = q
      · exact Or.inl hpq
      · exact Or.inr ((List.mem_erase_of_ne hpq).mpr hin)
  rw [Machine.schedule]
  split
  next hsame =>
    rcases hq with rfl | hin
    · exact Or.inl rfl
    · rcases hrest hin with rfl | hin
      · exact Or.inl hsame
      · exact Or.inr hin
  next hswitch =>
    rcases hq with rfl | hin
    · right
      simp only
      split
      next => exact List.mem_append_right _ (List.mem_singleton.mpr rfl)
      next hnot =>
        by_contra hne
        exact hnot ⟨hp, hr, hne⟩
    · rcases hrest hin with rfl | hin
      · exact Or.inl rfl
      · right
        simp only
        split
        · exact List.mem_append_left _ hin
        · exact hin

theorem schedule_cpu (hcpu : ∀ p, m.hasCpu p = true ↔ p = m.current) (p : ℕ) :
    m.schedule.hasCpu p = true ↔ p = m.schedule.current := by
  rw [Machine.schedule]
  split
  next => exact hcpu p
  next hswitch =>
    simp only [Function.update_apply]
    by_cases hprev : p = m.current
    · rw [if_pos hprev]
      constructor
      · intro hf
        cases hf
      · rintro rfl
        exact absurd hprev hswitch
    · rw [if_neg hprev]
      by_cases hnext : p = m.next
      · rw [if_pos hnext]
        exact ⟨fun _ => hnext, fun _ => rfl⟩
      · rw [if_neg hnext, hcpu p]
        exact ⟨fun hc => absurd hc hprev, fun hc => absurd hc hnext⟩

theorem schedule_idle (h : 0 ∉ m.runQueue) : 0 ∉ m.schedule.runQueue := by
  have hrest : 0 ∉ m.rest := by
    rw [Machine.rest]
    cases m.runQueue.find? fun p => m.running p && !m.hasCpu p with
    | none => exact h
    | some q => exact fun hin => h (List.mem_of_mem_erase hin)
  rw [Machine.schedule]
  split
  next => exact hrest
  next =>
    simp only
    split
    next hprev =>
      intro hin
      rcases List.mem_append.mp hin with hin | hin
      · exact hrest hin
      · exact hprev.1 (List.mem_singleton.mp hin).symm
    next => exact hrest

/-- `schedule` leaves the semaphore and the places alone. -/
theorem schedule_frame (m : Machine) : m.schedule.count = m.count ∧ m.schedule.waitList = m.waitList ∧
    m.schedule.isUp = m.isUp ∧ m.schedule.place = m.place ∧ m.schedule.running = m.running := by
  rw [Machine.schedule]
  split <;> exact ⟨rfl, rfl, rfl, rfl, rfl⟩

/-! ## The step lemmas -/

/-- A step that touches neither the semaphore nor the places of the waiters. -/
theorem invariant_frame (h : Invariant n m g) (hcount : m'.count = m.count)
    (hlist : m'.waitList = m.waitList) (hup : m'.isUp = m.isUp)
    (hplace : ∀ p, m'.place p = .out ↔ m.place p = .out)
    (hcpu : ∀ p, m'.hasCpu p = true ↔ p = m'.current) (hidle : 0 ∉ m'.runQueue)
    (hawake : ∀ p, Granted m p → m'.running p = true ∧ (p = m'.current ∨ p ∈ m'.runQueue)) :
    Invariant n m' g := by
  have hgranted : ∀ p, Granted m' p ↔ Granted m p := by
    intro p
    simp only [Granted, ne_eq, hplace p, hup]
  have hset : {p | Granted m' p} = {p | Granted m p} := by
    ext p
    exact hgranted p
  refine ⟨fun p => ?_, ?_, ?_, ?_, ?_, ?_, ?_, hcpu, ⟨(hplace 0).mpr h.idle.1, hidle⟩,
    fun p hp => hawake p ((hgranted p).mp hp)⟩
  · rw [hlist, hup, ne_eq, hplace p]
    exact h.waiting p
  · rw [hlist]
    exact h.order
  · rw [hlist]
    exact h.past
  · rw [hcount, hlist]
    exact h.empty
  · rw [hcount]
    exact h.small
  · rw [hset]
    exact h.finite
  · rw [hset, hcount]
    exact h.balance

theorem invariant_schedule (h : Invariant n m g) : Invariant n m.schedule g := by
  obtain ⟨hcount, hlist, hup, hplace, hrun⟩ := schedule_frame m
  refine invariant_frame h hcount hlist hup (fun p => by rw [hplace]) (schedule_cpu h.cpu)
    (schedule_idle h.idle.2) (fun p hp => ?_)
  obtain ⟨hr, hq⟩ := h.awake p hp
  have hne : p ≠ 0 := by
    rintro rfl
    exact hp.1 h.idle.1
  rw [hrun]
  exact ⟨hr, schedule_queue hne hr hq⟩

/-- Only the place of the running process changes, and it stays in `down`. -/
theorem invariant_place (h : Invariant n m g) {x : Place} (hx : x ≠ .out)
    (hin : m.place m.current ≠ .out) :
    Invariant n { m with place := Function.update m.place m.current x } g := by
  refine invariant_frame h rfl rfl rfl (fun p => ?_) h.cpu h.idle.2 h.awake
  simp only [Function.update_apply]
  by_cases hp : p = m.current
  · rw [if_pos hp, hp]
    exact ⟨fun hc => absurd hc hx, fun hc => absurd hc hin⟩
  · rw [if_neg hp]

theorem invariant_wakeUp (h : Invariant n m g) {p : ℕ} (hp : p ≠ 0) :
    Invariant n (m.wakeUpProcess p) g := by
  have hframe := wakeUp_frame m p
  have hidle : 0 ∉ (m.wakeUpProcess p).runQueue := by
    rw [mem_wakeUp]
    rintro (h0 | hin)
    · exact hp h0.symm
    · exact h.idle.2 hin
  have hqueue : ∀ q, q ∈ m.runQueue → q ∈ (m.wakeUpProcess p).runQueue :=
    fun q hq => (mem_wakeUp m p q).mpr (Or.inr hq)
  rw [hframe] at hidle ⊢
  refine invariant_frame h rfl rfl rfl (fun _ => Iff.rfl) h.cpu hidle (fun q hq => ?_)
  obtain ⟨hr, hq'⟩ := h.awake q hq
  refine ⟨?_, hq'.imp id (hqueue q)⟩
  simp only [Function.update_apply]
  split
  · rfl
  · exact hr

theorem invariant_setState (h : Invariant n m g) (b : Bool) (hout : m.place m.current = .out) :
    Invariant n { m with running := Function.update m.running m.current b } g := by
  refine invariant_frame h rfl rfl rfl (fun _ => Iff.rfl) h.cpu h.idle.2 (fun p hp => ?_)
  have hne : p ≠ m.current := by
    rintro rfl
    exact hp.1 hout
  obtain ⟨hr, hq⟩ := h.awake p hp
  refine ⟨?_, hq⟩
  simp only [Function.update_of_ne hne]
  exact hr

/-- The processes that are granted after one more has been. -/
theorem ncard_grant {p : ℕ} (hfin : {q | Granted m q}.Finite) (hnot : ¬ Granted m p)
    (hiff : ∀ q, Granted m' q ↔ q = p ∨ Granted m q) :
    {q | Granted m' q}.Finite ∧ {q | Granted m' q}.ncard = {q | Granted m q}.ncard+1 := by
  have hset : {q | Granted m' q} = insert p {q | Granted m q} := by
    ext q
    exact hiff q
  rw [hset]
  exact ⟨hfin.insert p, Set.ncard_insert_of_notMem hnot hfin⟩

theorem up_grants (h : Invariant n m g) {p : ℕ} {waiters : List ℕ} (hl : m.waitList = p :: waiters) :
    Grants g m p waiters := by
  have hp := (h.waiting p).mp (by rw [hl]; exact List.mem_cons_self)
  have hup : m.up = { m with waitList := waiters }.upCommon p := by rw [Machine.up, hl]
  have horder := h.order
  rw [hl, List.pairwise_cons] at horder
  refine ⟨?_, ?_, fun hg => ?_, fun q => ?_, horder.1⟩
  · rw [hup, Machine.upCommon, wakeUp_frame]
  · rw [hup, Machine.upCommon, wakeUp_frame]
  · rw [hg.2] at hp
    cases hp.2
  · rw [hup, Machine.upCommon, wakeUp_frame, Granted, Granted]
    simp only [Function.update_apply]
    by_cases hq : q = p
    · rw [if_pos hq, hq]
      exact ⟨fun _ => Or.inl rfl, fun _ => ⟨hp.1, rfl⟩⟩
    · rw [if_neg hq]
      exact ⟨Or.inr, fun hc => hc.resolve_left hq⟩

theorem invariant_up (h : Invariant n m g) : Invariant n m.up (g.next m .up) := by
  cases hl : m.waitList with
  | nil =>
    have hup : m.up = { m with count := (m.count+1) % 2 ^ 32 } := by rw [Machine.up, hl]
    have hsmall := h.small
    have hbalance := h.balance
    rw [hup]
    refine ⟨h.waiting, h.order, h.past, fun _ => hl, Nat.mod_lt _ (by decide), h.finite, ?_, h.cpu, h.idle,
      h.awake⟩
    change g.completed+{p | Granted m p}.ncard+(m.count+1) % 2 ^ 32+
      2 ^ 32*(if m.waitList = [] ∧ m.count+1 = 2 ^ 32 then g.wraps+1 else g.wraps) = n+(g.ups+1)
    by_cases hwrap : m.count+1 = 2 ^ 32
    · rw [if_pos ⟨hl, hwrap⟩, hwrap, Nat.mod_self]
      omega
    · rw [if_neg (fun hc => hwrap hc.2), Nat.mod_eq_of_lt (by omega)]
      omega
  | cons p waiters =>
    have hg := up_grants h hl
    obtain ⟨hfin, hcard⟩ := ncard_grant h.finite hg.before hg.after
    have hp := (h.waiting p).mp (by rw [hl]; exact List.mem_cons_self)
    have hup : m.up = { m with waitList := waiters }.upCommon p := by rw [Machine.up, hl]
    have hzero : m.count = 0 := by
      by_contra hne
      rw [h.empty (Nat.pos_of_ne_zero hne)] at hl
      cases hl
    have horder := h.order
    have hpast := h.past
    rw [hl] at horder hpast
    have hne : p ≠ 0 := by
      rintro rfl
      exact hp.1 h.idle.1
    have hqueue : ∀ q, q ∈ m.up.runQueue ↔ q = p ∨ q ∈ m.runQueue := by
      intro q
      rw [hup]
      exact mem_wakeUp _ p q
    have hrun : m.up.running = Function.update m.running p true := by
      rw [hup, Machine.upCommon, wakeUp_frame]
    have hsame : m.up.place = m.place ∧ m.up.hasCpu = m.hasCpu ∧ m.up.current = m.current ∧
        m.up.isUp = Function.update m.isUp p true := by
      rw [hup, Machine.upCommon, wakeUp_frame]
      exact ⟨rfl, rfl, rfl, rfl⟩
    obtain ⟨hplace, hcpu, hcurrent, hisUp⟩ := hsame
    refine ⟨fun q => ?_, ?_, ?_, fun hpos => ?_, ?_, hfin, ?_, ?_, ⟨?_, ?_⟩, fun q hq => ?_⟩
    · have hw := h.waiting q
      rw [hl, List.mem_cons] at hw
      rw [hg.waitList, hplace, hisUp, Function.update_apply]
      by_cases hq : q = p
      · subst hq
        rw [if_pos rfl]
        have hnot : q ∉ waiters := by
          intro hin
          have := (List.pairwise_cons.mp horder).1 q hin
          omega
        exact ⟨fun hin => absurd hin hnot, fun hc => absurd hc.2 (by decide)⟩
      · rw [if_neg hq, ← hw]
        exact ⟨Or.inr, fun hc => hc.resolve_left hq⟩
    · rw [hg.waitList]
      exact (List.pairwise_cons.mp horder).2
    · rw [hg.waitList]
      exact fun q hq => hpast q (List.mem_cons_of_mem p hq)
    · rw [hg.count, hzero] at hpos
      cases hpos
    · rw [hg.count]
      exact h.small
    · have hbalance := h.balance
      rw [hcard, hg.count]
      change g.completed+({p | Granted m p}.ncard+1)+m.count+
        2 ^ 32*(if m.waitList = [] ∧ m.count+1 = 2 ^ 32 then g.wraps+1 else g.wraps) = n+(g.ups+1)
      rw [if_neg (fun hc => by rw [hl] at hc; cases hc.1)]
      omega
    · intro q
      rw [hcpu, hcurrent]
      exact h.cpu q
    · rw [hplace]
      exact h.idle.1
    · rw [hqueue]
      rintro (h0 | hin)
      · exact hne h0.symm
      · exact h.idle.2 hin
    · rw [hrun, hcurrent, hqueue, Function.update_apply]
      rcases (hg.after q).mp hq with rfl | hold
      · rw [if_pos rfl]
        exact ⟨rfl, Or.inr (Or.inl rfl)⟩
      · obtain ⟨hr, hin⟩ := h.awake q hold
        refine ⟨?_, hin.imp id Or.inr⟩
        split
        · rfl
        · exact hr

theorem invariant_down (h : Invariant n m g) (hidle : m.current ≠ 0) (hout : m.place m.current = .out) :
    Invariant n m.down (g.next m .down) := by
  rw [Machine.down, History.next]
  by_cases hpos : 0 < m.count
  · rw [if_pos hpos, if_pos hpos]
    have hsmall := h.small
    have hbalance := h.balance
    refine ⟨h.waiting, h.order, h.past, fun _ => h.empty hpos, ?_, h.finite, ?_, h.cpu, h.idle, h.awake⟩
    · change m.count-1 < 2 ^ 32
      omega
    · change g.completed+1+{p | Granted m p}.ncard+(m.count-1)+2 ^ 32*g.wraps = n+g.ups
      omega
  · rw [if_neg hpos, if_neg hpos]
    have hnot : m.current ∉ m.waitList := fun hin => ((h.waiting _).mp hin).1 hout
    have hgranted : ∀ p, (Function.update m.place m.current .dropped p ≠ .out ∧
        Function.update m.isUp m.current false p = true) ↔ Granted m p := by
      intro p
      rw [Function.update_apply, Function.update_apply, Granted]
      by_cases hp : p = m.current
      · rw [if_pos hp, if_pos hp, hp]
        exact ⟨fun hc => absurd hc.2 (by decide), fun hc => absurd hout hc.1⟩
      · rw [if_neg hp, if_neg hp]
    have hset : {p | Function.update m.place m.current .dropped p ≠ .out ∧
        Function.update m.isUp m.current false p = true} = {p | Granted m p} := by
      ext p
      exact hgranted p
    have hold : ∀ p ∈ m.waitList, Function.update g.arrival m.current g.blocked p = g.arrival p :=
      fun p hp => Function.update_of_ne (fun hc : p = m.current => hnot (by rwa [← hc])) _ _
    refine ⟨fun p => ?_, ?_, ?_, fun hc => absurd hc hpos, h.small, ?_, ?_, h.cpu, ⟨?_, h.idle.2⟩,
      fun p hp => ?_⟩
    · change p ∈ m.waitList++[m.current] ↔ Function.update m.place m.current .dropped p ≠ .out ∧
        Function.update m.isUp m.current false p = false
      rw [List.mem_append, List.mem_singleton, Function.update_apply, Function.update_apply]
      by_cases hp : p = m.current
      · rw [if_pos hp, if_pos hp]
        exact ⟨fun _ => ⟨by decide, rfl⟩, fun _ => Or.inr hp⟩
      · rw [if_neg hp, if_neg hp, ← h.waiting p]
        exact ⟨fun hc => hc.resolve_right hp, Or.inl⟩
    · change (m.waitList++[m.current]).Pairwise (fun p q =>
        Function.update g.arrival m.current g.blocked p < Function.update g.arrival m.current g.blocked q)
      rw [List.pairwise_append]
      refine ⟨h.order.imp_of_mem (fun hp hq hlt => ?_), List.pairwise_singleton _ _, fun p hp q hq => ?_⟩
      · rw [hold _ hp, hold _ hq]
        exact hlt
      · rw [List.mem_singleton.mp hq, hold p hp, Function.update_self]
        exact h.past p hp
    · change ∀ p ∈ m.waitList++[m.current], Function.update g.arrival m.current g.blocked p < g.blocked+1
      intro p hp
      rcases List.mem_append.mp hp with hp | hp
      · rw [hold p hp]
        exact (h.past p hp).trans (Nat.lt_succ_self _)
      · rw [List.mem_singleton.mp hp, Function.update_self]
        exact Nat.lt_succ_self _
    · exact hset ▸ h.finite
    · have hbalance := h.balance
      rw [← hset] at hbalance
      exact hbalance
    · change Function.update m.place m.current .dropped 0 = .out
      rw [Function.update_of_ne hidle.symm]
      exact h.idle.1
    · have hp' := (hgranted p).mp hp
      have hne : p ≠ m.current := by
        rintro rfl
        exact hp'.1 hout
      obtain ⟨hr, hq⟩ := h.awake p hp'
      refine ⟨?_, hq⟩
      change Function.update m.running m.current false p = true
      rw [Function.update_of_ne hne]
      exact hr

theorem invariant_recheck (h : Invariant n m g) (hin : m.place m.current = .scheduled) :
    Invariant n m.recheck (g.next m .recheck) := by
  have hne : m.place m.current ≠ .out := by
    rw [hin]
    decide
  have hidle : m.current ≠ 0 := by
    intro h0
    rw [h0] at hne
    exact hne h.idle.1
  rw [Machine.recheck, History.next]
  by_cases hup : m.isUp m.current = true
  · rw [if_pos hup, if_pos hup]
    have hcurrent : Granted m m.current := ⟨hne, hup⟩
    have hgranted : ∀ p, Granted { m with place := Function.update m.place m.current .out } p ↔
        p ≠ m.current ∧ Granted m p := by
      intro p
      simp only [Granted, Function.update_apply]
      by_cases hp : p = m.current
      · rw [if_pos hp]
        exact ⟨fun hc => absurd rfl hc.1, fun hc => absurd hp hc.1⟩
      · rw [if_neg hp]
        exact ⟨fun hc => ⟨hp, hc⟩, fun hc => hc.2⟩
    have hset : {p | Granted { m with place := Function.update m.place m.current .out } p} =
        {p | Granted m p} \ {m.current} := by
      ext p
      rw [Set.mem_ofPred_eq, hgranted p, Set.mem_sdiff, Set.mem_singleton_iff, and_comm]
      rfl
    refine ⟨fun p => ?_, h.order, h.past, h.empty, h.small, ?_, ?_, h.cpu, ⟨?_, h.idle.2⟩,
      fun p hp => h.awake p ((hgranted p).mp hp).2⟩
    · change p ∈ m.waitList ↔ Function.update m.place m.current .out p ≠ .out ∧ m.isUp p = false
      rw [Function.update_apply, h.waiting p]
      by_cases hp : p = m.current
      · rw [if_pos hp, hp, hup]
        exact ⟨fun hc => absurd hc.2 (by decide), fun hc => absurd hc.2 (by decide)⟩
      · rw [if_neg hp]
    · rw [hset]
      exact h.finite.subset Set.sdiff_subset
    · rw [hset]
      have hcard := Set.ncard_sdiff_singleton_add_one (s := {p | Granted m p}) hcurrent h.finite
      have hbalance := h.balance
      change g.completed+1+({p | Granted m p} \ {m.current}).ncard+m.count+2 ^ 32*g.wraps = n+g.ups
      omega
    · change Function.update m.place m.current .out 0 = .out
      rw [Function.update_of_ne hidle.symm]
      exact h.idle.1
  · rw [if_neg hup, if_neg hup, Machine.wait]
    refine invariant_frame h rfl rfl rfl (fun p => ?_) h.cpu h.idle.2 (fun p hp => ?_)
    · simp only [Function.update_apply]
      by_cases hp : p = m.current
      · rw [if_pos hp, hp]
        exact ⟨fun hc => absurd hc (by decide), fun hc => absurd hc hne⟩
      · rw [if_neg hp]
    · have hother : p ≠ m.current := by
        rintro rfl
        exact hup hp.2
      obtain ⟨hr, hq⟩ := h.awake p hp
      refine ⟨?_, hq⟩
      simp only [Function.update_of_ne hother]
      exact hr

theorem invariant_step (h : Invariant n m g) (hs : Step m e m') : Invariant n m' (g.next m e) := by
  cases hs with
  | down hidle hout => exact invariant_down h hidle hout
  | recheck hin => exact invariant_recheck h hin
  | up => exact invariant_up h
  | schedule => exact invariant_schedule h
  | scheduleDown hin =>
    exact invariant_schedule (invariant_place h (by decide) (by rw [hin]; decide))
  | wakeUp hp => exact invariant_wakeUp h hp
  | setState _ hout => exact invariant_setState h _ hout

theorem run_invariant (h : Run n m g) : Invariant n m g := by
  induction h with
  | start hs =>
    have hnone : ∀ p, ¬ Granted _ p := fun p hp => hp.1 (hs.out p)
    have hset : {p | Granted _ p} = ∅ := Set.eq_empty_of_forall_notMem hnone
    refine ⟨fun p => ?_, ?_, ?_, fun _ => hs.empty, ?_, ?_, ?_, hs.cpu, ⟨hs.out 0, hs.idle⟩,
      fun p hp => absurd hp (hnone p)⟩
    · rw [hs.empty, hs.out p]
      exact ⟨fun hc => absurd hc (List.not_mem_nil), fun hc => absurd rfl hc.1⟩
    · rw [hs.empty]
      exact List.Pairwise.nil
    · rw [hs.empty]
      exact fun p hp => absurd hp (List.not_mem_nil)
    · rw [hs.count]
      exact hs.small
    · rw [hset]
      exact Set.finite_empty
    · rw [hset, Set.ncard_empty, hs.count]
      change 0+0+n+2 ^ 32*0 = n+0
      omega
  | step _ hs ih => exact invariant_step ih hs

/-- A process leaves `down` only in `recheck`, after it has been granted a unit. -/
theorem leaves_granted (hs : Step m e m') {p : ℕ} (hin : m.place p ≠ .out) (hout : m'.place p = .out) :
    Granted m p := by
  cases hs with
  | down _ hfree =>
    rw [Machine.down] at hout
    split at hout
    · exact absurd hout hin
    · simp only [Machine.wait, Function.update_apply] at hout
      split at hout
      · cases hout
      · exact absurd hout hin
  | recheck =>
    rw [Machine.recheck] at hout
    split at hout
    next hup =>
      simp only [Function.update_apply] at hout
      split at hout
      next hp => exact ⟨hin, hp ▸ hup⟩
      next => exact absurd hout hin
    next =>
      simp only [Machine.wait, Function.update_apply] at hout
      split at hout
      · cases hout
      · exact absurd hout hin
  | up =>
    rw [Machine.up] at hout
    split at hout
    · exact absurd hout hin
    · rw [Machine.upCommon, wakeUp_frame] at hout
      exact absurd hout hin
  | schedule =>
    rw [(schedule_frame m).2.2.2.1] at hout
    exact absurd hout hin
  | scheduleDown =>
    rw [(schedule_frame _).2.2.2.1] at hout
    simp only [Function.update_apply] at hout
    split at hout
    · cases hout
    · exact absurd hout hin
  | wakeUp =>
    rw [wakeUp_frame] at hout
    exact absurd hout hin
  | setState => exact absurd hout hin

/-- In every state of every run no unit is lost or given twice, and nobody who has
been granted one sleeps. Each time the count goes from `2^32-1` to 0, `2^32` units
are gone. -/
theorem sem_run (h : Run n m g) : Correct n m g := by
  have hinv := run_invariant h
  refine ⟨hinv.empty, hinv.finite, hinv.balance, ?_, fun _ _ hs _ => leaves_granted hs, hinv.awake⟩
  cases hl : m.waitList with
  | nil =>
    left
    refine ⟨rfl, ?_⟩
    rw [Machine.up, hl]
  | cons p waiters => exact Or.inr ⟨p, waiters, rfl, up_grants hinv hl⟩

end Steps

/-- Process 1 runs, and the semaphore has no unit. -/
def blank : Machine where
  count := 0
  waitList := []
  isUp := fun _ => false
  place := fun _ => .out
  running := fun _ => true
  runQueue := []
  hasCpu := fun p => p == 1
  current := 1

theorem blank_start : Start 0 blank :=
  ⟨rfl, by decide, rfl, fun _ => rfl, fun _ => beq_iff_eq, List.not_mem_nil⟩

/-- The up comes after the lock is dropped and before `schedule`. -/
theorem sem_run_early_up : ∃ m g, Run 0 m g ∧ Granted m 1 ∧ Correct 0 m g := by
  have h₁ : Run 0 blank.down _ := (Run.start blank_start).step (Step.down (by decide) rfl)
  have h₂ : Run 0 blank.down.up _ := h₁.step Step.up
  exact ⟨_, _, h₂, ⟨by decide, by decide⟩, sem_run h₂⟩

theorem ups_run (k : ℕ) : ∃ m g, Run 0 m g ∧ m.waitList = [] ∧ (∀ p, m.place p = .out) ∧
    m.count = k % 2 ^ 32 ∧ g.ups = k ∧ g.completed = 0 := by
  induction k with
  | zero => exact ⟨blank, _, Run.start blank_start, rfl, fun _ => rfl, rfl, rfl, rfl⟩
  | succ k ih =>
    obtain ⟨m, g, hrun, hlist, hout, hcount, hups, hdone⟩ := ih
    have hup : m.up = { m with count := (m.count+1) % 2 ^ 32 } := by rw [Machine.up, hlist]
    refine ⟨m.up, _, hrun.step Step.up, ?_, ?_, ?_, congrArg (· + 1) hups, hdone⟩
    · rw [hup]
      exact hlist
    · rw [hup]
      exact hout
    · rw [hup]
      change (m.count+1) % 2 ^ 32 = (k+1) % 2 ^ 32
      rw [hcount, Nat.mod_add_mod]

/-- `2^32` ups and no down: the count is 0 again. -/
theorem ups_lost : ∃ m g, Run 0 m g ∧
    g.completed+{p | Granted m p}.ncard+m.count ≠ 0+g.ups := by
  obtain ⟨m, g, hrun, -, hout, hcount, hups, hdone⟩ := ups_run (2 ^ 32)
  refine ⟨m, g, hrun, ?_⟩
  have hset : {p | Granted m p} = ∅ := Set.eq_empty_of_forall_notMem (fun p hp => hp.1 (hout p))
  rw [hset, Set.ncard_empty, hcount, hups, hdone, Nat.mod_self]
  decide

end BabyOS.SemaphoreRun

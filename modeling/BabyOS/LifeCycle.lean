import BabyOS.RunQueue

/-!
# Zombies are in no list

A process that is woken a second time before it has left its wait queue is in the run
queue while it runs. This does no harm until it exits.
-/

set_option autoImplicit false

namespace BabyOS.LifeCycle
open BabyOS.RunQueue

/-- A process at this place may be linked in the list `w`. -/
def At (p : ℕ) : Place → Where → Prop
  | .joined w', w => w = w'
  | .asleep w', w => w = w'
  | .away w', w => w = w'
  | .waitJoined _, w => w = .child p
  | .waitWalk _, w => w = .child p
  | .waitAsleep _, w => w = .child p
  | .waitAway _, w => w = .child p
  | .waitEnd, w => w = .child p
  | .waitLeave, w => w = .child p
  | _, _ => False

theorem at_unique {p : ℕ} {x : Place} {w w' : Where} (h : At p x w) (h' : At p x w') : w = w' := by
  cases x
  all_goals first | exact Eq.trans h (Eq.symm h') | exact absurd h id

/-- Neither free nor a zombie. -/
def Live (x : Life) : Prop := x = .running ∨ x = .sleep

theorem live_of {x : Life} (hf : x ≠ .free) (hz : x ≠ .zombie) : Live x := by
  cases x with
  | free => exact absurd rfl hf
  | running => exact Or.inl rfl
  | sleep => exact Or.inr rfl
  | zombie => exact absurd rfl hz

theorem Live.used {x : Life} (h : Live x) : x ≠ .free := by
  rcases h with rfl | rfl
  · exact fun hc => nomatch hc
  · exact fun hc => nomatch hc

theorem Live.notZombie {x : Life} (h : Live x) : x ≠ .zombie := by
  rcases h with rfl | rfl
  · exact fun hc => nomatch hc
  · exact fun hc => nomatch hc

/-- The run queue and the processor. -/
structure Queue (s : State) : Prop where
  once : s.runQueue.Nodup
  running : ∀ p, p ≠ 0 → s.life p = .running → p = s.holder ∨ p ∈ s.runQueue
  live : ∀ p ∈ s.runQueue, Live (s.life p)
  idle : Live (s.life 0)
  current : s.life s.current ≠ .free
  chosen : ∀ n, s.phase = .chosen n → Live (s.life n)

/-- The lists that processes sleep in. -/
structure Lists (s : State) : Prop where
  members : ∀ w, ∀ p ∈ s.lists w, At p (s.place p) w
  once : ∀ w, (s.lists w).Nodup
  waiter : ∀ k, ∀ p ∈ s.lists (.sem k), s.isUp p = false
  zombie : ∀ p, s.life p = .zombie → s.place p = .dying ∨ s.place p = .dead
  free : ∀ p, s.life p = .free → ∀ w, ¬ At p (s.place p) w

/-- What every run keeps. -/
structure Steady (s : State) : Prop where
  once : s.runQueue.Nodup
  running : ∀ p, p ≠ 0 → s.life p = .running → p = s.holder ∨ p ∈ s.runQueue
  idle : Live (s.life 0)
  current : s.life s.current ≠ .free
  chosen : ∀ n, s.phase = .chosen n → Live (s.life n)
  lists : Lists s

/-- The lists of children. -/
structure Children (s : State) : Prop where
  used : ∀ q z, s.life q ≠ .free → z ∈ s.children q → s.life z ≠ .free
  parent : ∀ q z, Live (s.life q) → z ∈ s.children q → s.parent z = some q
  once : ∀ q, s.life q ≠ .free → (s.children q).Nodup
  apart : ∀ q q' z, s.life q ≠ .free → s.life q' ≠ .free → z ∈ s.children q → z ∈ s.children q' → q = q'

/-- What carries the run. -/
structure Settled (s : State) : Prop where
  queue : Queue s
  lists : Lists s
  children : Children s

section Basics

variable {s s' : State} {p q : ℕ} {w : Where}

/-- A process in a list is alive. -/
theorem Lists.live (h : Lists s) (hp : p ∈ s.lists w) : Live (s.life p) := by
  have hat := h.members w p hp
  refine live_of (fun hfree => h.free p hfree w hat) (fun hz => ?_)
  rcases h.zombie p hz with hplace | hplace
  · rw [hplace] at hat
    exact hat
  · rw [hplace] at hat
    exact hat

theorem Settled.steady (h : Settled s) : Steady s :=
  ⟨h.queue.once, h.queue.running, h.queue.idle, h.queue.current, h.queue.chosen, h.lists⟩

theorem settled_of (h : Steady s) (hlive : ∀ p ∈ s.runQueue, Live (s.life p)) (hc : Children s) : Settled s :=
  ⟨⟨h.once, h.running, hlive, h.idle, h.current, h.chosen⟩, h.lists, hc⟩

theorem orderly_of (h : Settled s) : Orderly s where
  once := h.queue.once
  running := h.queue.running
  zombie := by
    intro p hz
    exact ⟨fun hp => (h.queue.live p hp).notZombie hz, fun w hp => (h.lists.live hp).notZombie hz⟩
  freed := by
    intro p hfree
    refine ⟨fun hp => (h.queue.live p hp).used hfree, fun w hp => (h.lists.live hp).used hfree, ?_⟩
    intro q hq hp
    exact h.children.used q p hq hp hfree

theorem steady_start (count : ℕ → ℕ) : Steady { start with count := count } := by
  have hlife : ∀ p, p ≠ 0 → start.life p = .free := fun p hp => if_neg hp
  refine ⟨List.nodup_nil, fun p hp hrun => ?_, Or.inl rfl, fun hc => (nomatch hc), fun n hn => (nomatch hn),
    ⟨fun w p hp => (nomatch hp), fun w => List.nodup_nil, fun k p hp => (nomatch hp), fun p hz => ?_, fun p _ w => id⟩⟩
  · have := hlife p hp
    rw [show start.life p = .running from hrun] at this
    cases this
  · by_cases hp : p = 0
    · rw [hp] at hz
      cases hz
    · have := hlife p hp
      rw [show start.life p = .zombie from hz] at this
      cases this

theorem settled_start (count : ℕ → ℕ) : Settled { start with count := count } :=
  settled_of (steady_start count) (fun p hp => nomatch hp) ⟨fun q z _ hz => (nomatch hz),
    fun q z _ hz => (nomatch hz), fun q _ => List.nodup_nil, fun q q' z _ _ hz => nomatch hz⟩

/-! ## Waking -/

theorem addProcessToRq_mem (s : State) (p q : ℕ) :
    q ∈ (s.addProcessToRq p).runQueue ↔ q = p ∨ q ∈ s.runQueue := by
  rw [State.addProcessToRq]
  split
  next hp =>
    refine ⟨Or.inr, fun hq => hq.elim (fun hqp => hqp ▸ hp) id⟩
  · exact List.mem_cons

/-- Only the run queue changes. -/
theorem addProcessToRq_eq (s : State) (p : ℕ) :
    s.addProcessToRq p = { s with runQueue := (s.addProcessToRq p).runQueue } := by
  rw [State.addProcessToRq]
  split
  · rfl
  · rfl

theorem addProcessToRq_once (h : s.runQueue.Nodup) (p : ℕ) : (s.addProcessToRq p).runQueue.Nodup := by
  rw [State.addProcessToRq]
  split
  · exact h
  next hp => exact List.nodup_cons.mpr ⟨hp, h⟩

theorem wakeUpProcess_eq (s : State) (p : ℕ) : s.wakeUpProcess p =
    { s with
      life := Function.update s.life p .running
      runQueue := (s.wakeUpProcess p).runQueue } :=
  addProcessToRq_eq _ _

end Basics

/-! ## What does not matter to the lists -/

/-- Who is free and who is a zombie stays. -/
def SameKind (s s' : State) : Prop :=
  ∀ p, (s'.life p = .free ↔ s.life p = .free) ∧ (s'.life p = .zombie ↔ s.life p = .zombie)

section Frames

variable {s s' : State} {p q : ℕ} {w : Where}

theorem live_iff {x : Life} : Live x ↔ x ≠ .free ∧ x ≠ .zombie :=
  ⟨fun h => ⟨h.used, h.notZombie⟩, fun h => live_of h.1 h.2⟩

theorem SameKind.live (h : SameKind s s') (p : ℕ) : Live (s'.life p) ↔ Live (s.life p) := by
  rw [live_iff, live_iff, Ne, Ne, (h p).1, (h p).2]

theorem SameKind.of_eq (h : s'.life = s.life) : SameKind s s' := by
  intro p
  rw [h]
  exact ⟨Iff.rfl, Iff.rfl⟩

theorem sameKind_update {x : Life} (hp : Live (s.life p)) (hx : Live x)
    (h : s'.life = Function.update s.life p x) : SameKind s s' := by
  intro q
  rw [h]
  by_cases hq : q = p
  · subst hq
    rw [Function.update_self]
    exact ⟨⟨fun hc => absurd hc hx.used, fun hc => absurd hc hp.used⟩,
      ⟨fun hc => absurd hc hx.notZombie, fun hc => absurd hc hp.notZombie⟩⟩
  · rw [Function.update_of_ne hq]
    exact ⟨Iff.rfl, Iff.rfl⟩

theorem lists_frame (h : Lists s) (hkind : SameKind s s') (hplace : s'.place = s.place)
    (hlists : s'.lists = s.lists) (hup : s'.isUp = s.isUp) : Lists s' where
  members := by
    rw [hlists, hplace]
    exact h.members
  once := by
    rw [hlists]
    exact h.once
  waiter := by
    rw [hlists, hup]
    exact h.waiter
  zombie := by
    intro p hz
    rw [hplace]
    exact h.zombie p ((hkind p).2.mp hz)
  free := by
    intro p hf
    rw [hplace]
    exact h.free p ((hkind p).1.mp hf)

theorem children_frame (h : Children s) (hkind : SameKind s s') (hparent : s'.parent = s.parent)
    (hchildren : s'.children = s.children) : Children s' where
  used := by
    intro q z hq hz
    rw [hchildren] at hz
    rw [Ne, (hkind q).1] at hq
    rw [Ne, (hkind z).1]
    exact h.used q z hq hz
  parent := by
    intro q z hq hz
    rw [hchildren] at hz
    rw [hkind.live] at hq
    rw [hparent]
    exact h.parent q z hq hz
  once := by
    intro q hq
    rw [Ne, (hkind q).1] at hq
    rw [hchildren]
    exact h.once q hq
  apart := by
    intro q q' z hq hq' hz hz'
    rw [Ne, (hkind q).1] at hq
    rw [Ne, (hkind q').1] at hq'
    rw [hchildren] at hz hz'
    exact h.apart q q' z hq hq' hz hz'

/-! ## Waking -/

theorem wakeUpProcess_mem (s : State) (p q : ℕ) :
    q ∈ (s.wakeUpProcess p).runQueue ↔ q = p ∨ q ∈ s.runQueue :=
  addProcessToRq_mem (s.setLife p .running) p q

theorem wakeUpProcess_kind (hp : Live (s.life p)) : SameKind s (s.wakeUpProcess p) := by
  refine sameKind_update hp (Or.inl rfl) ?_
  rw [wakeUpProcess_eq]

theorem steady_wake (h : Steady s) (hp : Live (s.life p)) : Steady (s.wakeUpProcess p) := by
  have hlife : (s.wakeUpProcess p).life = Function.update s.life p .running := by
    rw [wakeUpProcess_eq]
  have hkind := wakeUpProcess_kind hp
  have hholder : (s.wakeUpProcess p).holder = s.holder := by
    rw [wakeUpProcess_eq]
    rfl
  refine ⟨@addProcessToRq_once (s.setLife p .running) h.once p, fun q hq hrun => ?_, ?_, ?_, ?_,
    lists_frame h.lists hkind ?_ ?_ ?_⟩
  · rw [hholder, wakeUpProcess_mem]
    by_cases hqp : q = p
    · exact Or.inr (Or.inl hqp)
    · rw [hlife, Function.update_of_ne hqp] at hrun
      exact (h.running q hq hrun).imp_right Or.inr
  · rw [hkind.live]
    exact h.idle
  · rw [wakeUpProcess_eq]
    have := (hkind s.current).1.not.mpr h.current
    rw [hlife] at this
    exact this
  · intro n hn
    rw [hkind.live]
    rw [wakeUpProcess_eq] at hn
    exact h.chosen n hn
  all_goals rw [wakeUpProcess_eq]

theorem settled_wake (h : Settled s) (hp : Live (s.life p)) : Settled (s.wakeUpProcess p) := by
  have hkind := wakeUpProcess_kind hp
  refine settled_of (steady_wake h.steady hp) (fun q hq => ?_) (children_frame h.children hkind ?_ ?_)
  · rw [hkind.live]
    rcases (wakeUpProcess_mem s p q).mp hq with rfl | hq
    · exact hp
    · exact h.queue.live q hq
  all_goals rw [wakeUpProcess_eq]

theorem steady_wakeUp (h : Steady s) : Steady (s.wakeUp w) := by
  rw [State.wakeUp]
  cases hl : s.lists w with
  | nil => exact h
  | cons p l => exact steady_wake h (h.lists.live (hl ▸ List.mem_cons_self))

theorem settled_wakeUp (h : Settled s) : Settled (s.wakeUp w) := by
  rw [State.wakeUp]
  cases hl : s.lists w with
  | nil => exact h
  | cons p l => exact settled_wake h (h.lists.live (hl ▸ List.mem_cons_self))

/-- Fields that no property is about. -/
theorem steady_expires (h : Steady s) (x : ℕ → ℕ) : Steady { s with expires := x } :=
  ⟨h.once, h.running, h.idle, h.current, h.chosen,
    ⟨h.lists.members, h.lists.once, h.lists.waiter, h.lists.zombie, h.lists.free⟩⟩

theorem steady_count (h : Steady s) (x : ℕ → ℕ) : Steady { s with count := x } :=
  ⟨h.once, h.running, h.idle, h.current, h.chosen,
    ⟨h.lists.members, h.lists.once, h.lists.waiter, h.lists.zombie, h.lists.free⟩⟩

theorem settled_expires (h : Settled s) (x : ℕ → ℕ) : Settled { s with expires := x } :=
  settled_of (steady_expires h.steady x) h.queue.live
    ⟨h.children.used, h.children.parent, h.children.once, h.children.apart⟩

theorem settled_count (h : Settled s) (x : ℕ → ℕ) : Settled { s with count := x } :=
  settled_of (steady_count h.steady x) h.queue.live
    ⟨h.children.used, h.children.parent, h.children.once, h.children.apart⟩

/-- What a tick keeps, if waking a process in the list does. -/
theorem tick_keeps {P : State → Prop} (hlists : ∀ s, P s → Lists s)
    (hexpires : ∀ s x, P s → P { s with expires := x })
    (hwake : ∀ s p, P s → Live (s.life p) → P (s.wakeUpProcess p)) (h : P s) : P s.tick := by
  have hfold : ∀ (l : List ℕ) (s : State), P s → (∀ p ∈ l, p ∈ s.lists .timer) →
      P (l.foldl State.timerUpdate s) := by
    intro l
    induction l with
    | nil => exact fun s h _ => h
    | cons p l ih =>
      intro s h hl
      have hp := hl p List.mem_cons_self
      have hstep : P (s.timerUpdate p) ∧ (s.timerUpdate p).lists = s.lists := by
        rw [State.timerUpdate]
        dsimp only
        split
        · exact ⟨h, rfl⟩
        · have h' := hexpires s (Function.update s.expires p (s.expires p-1)) h
          split
          · refine ⟨hwake _ p h' ((hlists s h).live hp), ?_⟩
            rw [wakeUpProcess_eq]
          · exact ⟨h', rfl⟩
      refine ih _ hstep.1 fun q hq => ?_
      rw [hstep.2]
      exact hl q (List.mem_cons_of_mem _ hq)
  exact hfold _ s h fun p hp => hp

theorem steady_tick (h : Steady s) : Steady s.tick :=
  tick_keeps (fun _ h => h.lists) (fun _ x h => steady_expires h x) (fun _ _ h hp => steady_wake h hp) h

theorem settled_tick (h : Settled s) : Settled s.tick :=
  tick_keeps (fun _ h => h.lists) (fun _ x h => settled_expires h x) (fun _ _ h hp => settled_wake h hp) h

/-- The waiter at the head leaves the list. -/
theorem lists_up (h : Lists s) {k : ℕ} {l : List ℕ} (hl : s.lists (.sem k) = p :: l) :
    Lists { s with
      lists := Function.update s.lists (.sem k) l
      isUp := Function.update s.isUp p true } := by
  have hin : p ∈ s.lists (.sem k) := hl ▸ List.mem_cons_self
  have honce := h.once (.sem k)
  rw [hl, List.nodup_cons] at honce
  have hsub : ∀ w, ∀ q ∈ Function.update s.lists (.sem k) l w, q ∈ s.lists w := by
    intro w q hq
    by_cases hw : w = .sem k
    · subst hw
      rw [Function.update_self] at hq
      rw [hl]
      exact List.mem_cons_of_mem _ hq
    · rw [Function.update_of_ne hw] at hq
      exact hq
  refine ⟨fun w q hq => h.members w q (hsub w q hq), fun w => ?_, fun k' q hq => ?_, h.zombie, h.free⟩
  · by_cases hw : w = .sem k
    · subst hw
      dsimp only
      rw [Function.update_self]
      exact honce.2
    · dsimp only
      rw [Function.update_of_ne hw]
      exact h.once w
  · have hq' := hsub _ q hq
    refine (Function.update_of_ne ?_ _ _).trans (h.waiter k' q hq')
    rintro rfl
    -- the waiter has left the only list it was in
    have hk : Where.sem k' = .sem k := at_unique (h.members _ q hq') (h.members _ q hin)
    dsimp only at hq
    rw [hk, Function.update_self] at hq
    exact honce.1 hq

theorem steady_up (h : Steady s) (k : ℕ) : Steady (s.up k) := by
  rw [State.up]
  cases hl : s.lists (.sem k) with
  | nil => exact steady_count h _
  | cons p l =>
    have hmid : Steady { s with
        lists := Function.update s.lists (.sem k) l
        isUp := Function.update s.isUp p true } :=
      ⟨h.once, h.running, h.idle, h.current, h.chosen, lists_up h.lists hl⟩
    exact steady_wake hmid (h.lists.live (hl ▸ List.mem_cons_self))

theorem settled_up (h : Settled s) (k : ℕ) : Settled (s.up k) := by
  rw [State.up]
  cases hl : s.lists (.sem k) with
  | nil => exact settled_count h _
  | cons p l =>
    have hmid : Settled { s with
        lists := Function.update s.lists (.sem k) l
        isUp := Function.update s.isUp p true } :=
      ⟨⟨h.queue.once, h.queue.running, h.queue.live, h.queue.idle, h.queue.current, h.queue.chosen⟩,
        lists_up h.lists hl, ⟨h.children.used, h.children.parent, h.children.once, h.children.apart⟩⟩
    exact settled_wake hmid (h.lists.live (hl ▸ List.mem_cons_self))

end Frames

/-! ## Steps of the current process -/

section Current

variable {s s' : State} {p q : ℕ} {w : Where} {x : Place}

theorem holder_normal (h : s.phase = .normal) : s.holder = s.current := by
  rw [State.holder, h]

/-- The current process is alive unless it is in `exit`. -/
theorem current_live (h : Steady s) (h₁ : s.place s.current ≠ .dying) (h₂ : s.place s.current ≠ .dead) :
    Live (s.life s.current) := by
  refine live_of h.current (fun hz => ?_)
  rcases h.lists.zombie _ hz with hd | hd
  · exact h₁ hd
  · exact h₂ hd

theorem at_place (h : Lists s) (hplace : s.place s.current = x) (hin : s.current ∈ s.lists w) :
    At s.current x w := by
  rw [← hplace]
  exact h.members w _ hin

/-- The current process goes to a place with the same list, and may set its state. -/
theorem lists_move (h : Lists s) (hcur : Live (s.life s.current)) {y : Life} (hy : Live y)
    (hat : ∀ w, s.current ∈ s.lists w → At s.current x w) :
    Lists ((s.setLife s.current y).setPlace x) := by
  have hkind : SameKind s ((s.setLife s.current y).setPlace x) := sameKind_update hcur hy rfl
  have hself : ((s.setLife s.current y).setPlace x).place s.current = x := Function.update_self ..
  have hother : ∀ p, p ≠ s.current → ((s.setLife s.current y).setPlace x).place p = s.place p :=
    fun p hp => Function.update_of_ne hp _ _
  refine ⟨fun w p hp => ?_, h.once, h.waiter, fun p hz => ?_, fun p hf w => ?_⟩
  · by_cases hpc : p = s.current
    · rw [hpc, hself]
      rw [hpc] at hp
      exact hat w hp
    · rw [hother p hpc]
      exact h.members w p hp
  · have hz' := (hkind p).2.mp hz
    have hpc : p ≠ s.current := by
      rintro rfl
      exact hcur.notZombie hz'
    rw [hother p hpc]
    exact h.zombie p hz'
  · have hf' := (hkind p).1.mp hf
    have hpc : p ≠ s.current := by
      rintro rfl
      exact hcur.used hf'
    rw [hother p hpc]
    exact h.free p hf' w

theorem steady_move (h : Steady s) (hphase : s.phase = .normal) (hcur : Live (s.life s.current))
    {y : Life} (hy : Live y) (hat : ∀ w, s.current ∈ s.lists w → At s.current x w) :
    Steady ((s.setLife s.current y).setPlace x) := by
  have hkind : SameKind s ((s.setLife s.current y).setPlace x) := sameKind_update hcur hy rfl
  have hlife : ((s.setLife s.current y).setPlace x).life = Function.update s.life s.current y := rfl
  refine ⟨h.once, fun p hp hrun => ?_, ?_, ?_, fun n hn => ?_, lists_move h.lists hcur hy hat⟩
  · by_cases hpc : p = s.current
    · left
      rw [hpc]
      exact (holder_normal hphase).symm
    · rw [hlife, Function.update_of_ne hpc] at hrun
      exact h.running p hp hrun
  · rw [hkind.live]
    exact h.idle
  · exact ((hkind.live s.current).mpr hcur).used
  · rw [show ((s.setLife s.current y).setPlace x).phase = s.phase from rfl, hphase] at hn
    cases hn

theorem settled_move (h : Settled s) (hphase : s.phase = .normal) (hcur : Live (s.life s.current))
    {y : Life} (hy : Live y) (hat : ∀ w, s.current ∈ s.lists w → At s.current x w) :
    Settled ((s.setLife s.current y).setPlace x) := by
  have hkind : SameKind s ((s.setLife s.current y).setPlace x) := sameKind_update hcur hy rfl
  refine settled_of (steady_move h.steady hphase hcur hy hat) (fun p hp => ?_)
    (children_frame h.children hkind rfl rfl)
  rw [hkind.live]
  exact h.queue.live p hp

theorem setPlace_same (s : State) (x : Place) : (s.setLife s.current (s.life s.current)).setPlace x = s.setPlace x := by
  rw [State.setLife, Function.update_eq_self]

/-- The same without a change of the state. -/
theorem steady_place (h : Steady s) (hphase : s.phase = .normal) (hcur : Live (s.life s.current))
    (hat : ∀ w, s.current ∈ s.lists w → At s.current x w) : Steady (s.setPlace x) := by
  have hmove := steady_move h hphase hcur hcur hat
  rwa [setPlace_same] at hmove

theorem settled_place (h : Settled s) (hphase : s.phase = .normal) (hcur : Live (s.life s.current))
    (hat : ∀ w, s.current ∈ s.lists w → At s.current x w) : Settled (s.setPlace x) := by
  have hmove := settled_move h hphase hcur hcur hat
  rwa [setPlace_same] at hmove

/-- The current process enters a list. -/
theorem lists_link (h : Lists s) (hcur : Live (s.life s.current)) (hout : s.place s.current = .out)
    (hx : At s.current x w) (hup : ∀ k, w = .sem k → s.isUp s.current = false) :
    Lists ((s.link w).setPlace x) := by
  have hnot : ∀ w, s.current ∉ s.lists w := fun w hin => at_place h hout hin
  have hself : ((s.link w).setPlace x).place s.current = x := Function.update_self ..
  have hother : ∀ p, p ≠ s.current → ((s.link w).setPlace x).place p = s.place p :=
    fun p hp => Function.update_of_ne hp _ _
  have hmem : ∀ w' p, p ∈ ((s.link w).setPlace x).lists w' ↔
      p ∈ s.lists w' ∨ (w' = w ∧ p = s.current) := by
    intro w' p
    change p ∈ Function.update s.lists w (s.lists w++[s.current]) w' ↔ _
    by_cases hw : w' = w
    · subst hw
      rw [Function.update_self, List.mem_append, List.mem_singleton]
      simp
    · rw [Function.update_of_ne hw]
      simp [hw]
  refine ⟨fun w' p hp => ?_, fun w' => ?_, fun k p hp => ?_, fun p hz => ?_, fun p hf w' => ?_⟩
  · rcases (hmem w' p).mp hp with hp | ⟨rfl, rfl⟩
    · rw [hother p (fun hc => hnot w' (hc ▸ hp))]
      exact h.members w' p hp
    · rw [hself]
      exact hx
  · change (Function.update s.lists w (s.lists w++[s.current]) w').Nodup
    by_cases hw : w' = w
    · subst hw
      rw [Function.update_self]
      exact List.nodup_append.mpr ⟨h.once w', List.nodup_singleton _,
        fun a ha b hb hab => hnot w' (List.mem_singleton.mp hb ▸ hab ▸ ha)⟩
    · rw [Function.update_of_ne hw]
      exact h.once w'
  · rcases (hmem _ p).mp hp with hp | ⟨hw, rfl⟩
    · exact h.waiter k p hp
    · exact hup k hw.symm
  · have hpc : p ≠ s.current := by
      rintro rfl
      exact hcur.notZombie hz
    rw [hother p hpc]
    exact h.zombie p hz
  · have hpc : p ≠ s.current := by
      rintro rfl
      exact hcur.used hf
    rw [hother p hpc]
    exact h.free p hf w'

/-- The current process leaves its list. -/
theorem lists_unlink (h : Lists s) (hcur : Live (s.life s.current))
    (hat : At s.current (s.place s.current) w) : Lists ((s.unlink w).setPlace .out) := by
  have hsub : ∀ w', ∀ p ∈ ((s.unlink w).setPlace .out).lists w', p ∈ s.lists w' ∧ p ≠ s.current := by
    intro w' p hp
    change p ∈ Function.update s.lists w ((s.lists w).erase s.current) w' at hp
    by_cases hw : w' = w
    · subst hw
      rw [Function.update_self, (h.once w').mem_erase_iff] at hp
      exact hp.symm
    · rw [Function.update_of_ne hw] at hp
      refine ⟨hp, ?_⟩
      rintro rfl
      exact hw (at_unique (h.members w' _ hp) hat)
  have hother : ∀ p, p ≠ s.current → ((s.unlink w).setPlace .out).place p = s.place p :=
    fun p hp => Function.update_of_ne hp _ _
  refine ⟨fun w' p hp => ?_, fun w' => ?_, fun k p hp => h.waiter k p (hsub _ p hp).1,
    fun p hz => ?_, fun p hf w' => ?_⟩
  · obtain ⟨hp, hpc⟩ := hsub w' p hp
    rw [hother p hpc]
    exact h.members w' p hp
  · change (Function.update s.lists w ((s.lists w).erase s.current) w').Nodup
    by_cases hw : w' = w
    · subst hw
      rw [Function.update_self]
      exact (h.once w').erase _
    · rw [Function.update_of_ne hw]
      exact h.once w'
  · have hpc : p ≠ s.current := by
      rintro rfl
      exact hcur.notZombie hz
    rw [hother p hpc]
    exact h.zombie p hz
  · have hpc : p ≠ s.current := by
      rintro rfl
      exact hcur.used hf
    rw [hother p hpc]
    exact h.free p hf w'

/-- The lists of the current process change. -/
theorem steady_lists (h : Steady s) {l : Where → List ℕ} {places : ℕ → Place}
    (hlists : Lists { s with lists := l, place := places }) : Steady { s with lists := l, place := places } :=
  ⟨h.once, h.running, h.idle, h.current, h.chosen, hlists⟩

theorem settled_lists (h : Settled s) {l : Where → List ℕ} {places : ℕ → Place}
    (hlists : Lists { s with lists := l, place := places }) : Settled { s with lists := l, place := places } :=
  settled_of (steady_lists h.steady hlists) h.queue.live (children_frame h.children (.of_eq rfl) rfl rfl)

theorem lists_isUp (h : Lists s) : Lists { s with isUp := Function.update s.isUp p false } := by
  refine ⟨h.members, h.once, fun k q hq => ?_, h.zombie, h.free⟩
  change Function.update s.isUp p false q = false
  by_cases hqp : q = p
  · rw [hqp, Function.update_self]
  · rw [Function.update_of_ne hqp]
    exact h.waiter k q hq

/-- The list of a semaphore is entered with the state set. -/
theorem lists_down (h : Lists s) (hout : s.place s.current = .out) (hcur : Live (s.life s.current)) (k : ℕ) :
    Lists ((({ s with isUp := Function.update s.isUp s.current false }.link (.sem k)).setLife s.current .sleep).setPlace
      (.asleep (.sem k))) := by
  have hlink := lists_link (x := .asleep (.sem k)) (lists_isUp (p := s.current) h) hcur hout rfl
    (fun _ _ => Function.update_self ..)
  have hmove := lists_move (x := .asleep (.sem k)) hlink hcur (y := .sleep) (Or.inr rfl)
    (fun w hw => at_place hlink (Function.update_self ..) hw)
  rw [State.setPlace, State.setLife, State.setPlace] at hmove
  dsimp only at hmove
  rw [Function.update_idem] at hmove
  exact hmove

theorem down_sleep (h : Steady s) (hphase : s.phase = .normal) (hcur : Live (s.life s.current)) :
    (∀ p, p ≠ 0 → Function.update s.life s.current .sleep p = .running → p = s.holder ∨ p ∈ s.runQueue) ∧
    (∀ p, Live (s.life p) → Live (Function.update s.life s.current .sleep p)) := by
  refine ⟨fun p hp hrun => ?_, fun p hp => ?_⟩
  · by_cases hpc : p = s.current
    · rw [hpc, holder_normal hphase]
      exact Or.inl rfl
    · rw [Function.update_of_ne hpc] at hrun
      exact h.running p hp hrun
  · by_cases hpc : p = s.current
    · rw [hpc, Function.update_self]
      exact Or.inr rfl
    · rw [Function.update_of_ne hpc]
      exact hp

theorem steady_down (h : Steady s) (hphase : s.phase = .normal) (hout : s.place s.current = .out)
    (hcur : Live (s.life s.current)) (k : ℕ) : Steady (s.down k) := by
  rw [State.down]
  split
  · exact steady_count h _
  · obtain ⟨hrunning, hlive⟩ := down_sleep h hphase hcur
    exact ⟨h.once, hrunning, hlive 0 h.idle, (hlive _ hcur).used, fun n hn => hlive n (h.chosen n hn),
      lists_down h.lists hout hcur k⟩

theorem settled_down (h : Settled s) (hphase : s.phase = .normal) (hout : s.place s.current = .out)
    (hcur : Live (s.life s.current)) (k : ℕ) : Settled (s.down k) := by
  have hsteady := steady_down h.steady hphase hout hcur k
  rw [State.down] at hsteady ⊢
  split
  · exact settled_count h _
  next hcount =>
    rw [if_neg hcount] at hsteady
    have hkind : SameKind s ((({ s with isUp := Function.update s.isUp s.current false }.link (.sem k)).setLife
        s.current .sleep).setPlace (.asleep (.sem k))) := sameKind_update hcur (Or.inr rfl) rfl
    refine settled_of hsteady (fun p hp => ?_) (children_frame h.children hkind rfl rfl)
    rw [hkind.live]
    exact h.queue.live p hp

/-- A waiter that was let through has left the list. -/
theorem up_left (h : Lists s) {k : ℕ} (haway : s.place s.current = .away (.sem k)) (hup : s.isUp s.current = true) :
    ∀ w, s.current ∉ s.lists w := by
  intro w hin
  obtain rfl : w = .sem k := at_place h haway hin
  rw [h.waiter k _ hin] at hup
  cases hup

theorem steady_recheck (h : Steady s) (hphase : s.phase = .normal) {k : ℕ}
    (haway : s.place s.current = .away (.sem k)) (hcur : Live (s.life s.current)) :
    Steady (s.recheck k) := by
  rw [State.recheck]
  split
  next hup => exact steady_place h hphase hcur (fun w hin => absurd hin (up_left h.lists haway hup w))
  · exact steady_move h hphase hcur (Or.inr rfl)
      (fun w hin => at_place (x := .away (.sem k)) h.lists haway hin)

theorem settled_recheck (h : Settled s) (hphase : s.phase = .normal) {k : ℕ}
    (haway : s.place s.current = .away (.sem k)) (hcur : Live (s.life s.current)) :
    Settled (s.recheck k) := by
  rw [State.recheck]
  split
  next hup => exact settled_place h hphase hcur (fun w hin => absurd hin (up_left h.lists haway hup w))
  · exact settled_move h hphase hcur (Or.inr rfl)
      (fun w hin => at_place (x := .away (.sem k)) h.lists haway hin)

/-! ## schedule -/

theorem next_spec (s : State) : (s.next = 0 ∧ s.rest = s.runQueue) ∨
    (s.next ∈ s.runQueue ∧ s.life s.next = .running ∧ s.rest = s.runQueue.erase s.next) := by
  rw [State.next, State.rest]
  cases hf : s.runQueue.find? fun p => decide (s.life p = .running) && !s.hasCpu p with
  | none => exact Or.inl ⟨rfl, rfl⟩
  | some p =>
    have := List.find?_some hf
    rw [Bool.and_eq_true] at this
    exact Or.inr ⟨List.mem_of_find?_eq_some hf, of_decide_eq_true this.1, rfl⟩

theorem next_live (h : Steady s) : Live (s.life s.next) := by
  rcases next_spec s with ⟨hzero, -⟩ | ⟨-, hrun, -⟩
  · rw [hzero]
    exact h.idle
  · exact Or.inl hrun

theorem rest_sub (s : State) : s.rest.Sublist s.runQueue := by
  rcases next_spec s with ⟨-, hrest⟩ | ⟨-, -, hrest⟩
  · rw [hrest]
  · rw [hrest]
    exact List.erase_sublist

/-- Who was in the queue still is, or is chosen. -/
theorem rest_mem (h : s.runQueue.Nodup) (hp : p ∈ s.runQueue) : p = s.next ∨ p ∈ s.rest := by
  rcases next_spec s with ⟨-, hrest⟩ | ⟨-, -, hrest⟩
  · rw [hrest]
    exact Or.inr hp
  · rw [hrest, h.mem_erase_iff]
    by_cases hpn : p = s.next
    · exact Or.inl hpn
    · exact Or.inr ⟨hpn, hp⟩

theorem choose_queue (s : State) : ∀ p ∈ s.choose.runQueue, p ∈ s.runQueue ∨ (p = s.current ∧ s.life p = .running) := by
  intro p hp
  rw [State.choose] at hp
  split at hp
  · exact Or.inl ((rest_sub s).subset hp)
  · dsimp only at hp
    split at hp
    next hadd =>
      rcases List.mem_append.mp hp with hp | hp
      · exact Or.inl ((rest_sub s).subset hp)
      · rw [List.mem_singleton.mp hp]
        exact Or.inr ⟨rfl, hadd.2.1⟩
    · exact Or.inl ((rest_sub s).subset hp)

theorem steady_choose (h : Steady s) (hphase : s.phase = .normal) : Steady s.choose := by
  have honce : s.rest.Nodup := h.once.sublist (rest_sub s)
  rw [State.choose]
  split
  next hnext =>
    refine ⟨honce, fun p hp hrun => ?_, h.idle, h.current, h.chosen, lists_frame h.lists (.of_eq rfl) rfl rfl rfl⟩
    rcases h.running p hp hrun with hh | hin
    · exact Or.inl hh
    · refine (rest_mem h.once hin).imp_left fun hpn => ?_
      rw [hpn, hnext]
      exact (holder_normal hphase).symm
  · refine ⟨?_, fun p hp hrun => ?_, h.idle, h.current, fun n hn => ?_,
      lists_frame h.lists (.of_eq rfl) rfl rfl rfl⟩
    · dsimp only
      split
      next hadd =>
        exact List.nodup_append.mpr ⟨honce, List.nodup_singleton _,
          fun a ha b hb hab => hadd.2.2 (List.mem_singleton.mp hb ▸ hab ▸ ha)⟩
      · exact honce
    · change p = s.next ∨ _
      dsimp only at hrun ⊢
      rcases h.running p hp hrun with hh | hin
      · rw [holder_normal hphase] at hh
        subst hh
        right
        split
        · simp
        next hadd =>
          by_contra hnot
          exact hadd ⟨hp, hrun, hnot⟩
      · refine (rest_mem h.once hin).imp_right fun hr => ?_
        split
        · exact List.mem_append_left _ hr
        · exact hr
    · have : s.next = n := Phase.chosen.inj hn
      rw [← this]
      exact next_live h

theorem choose_same (s : State) : s.choose.life = s.life ∧ s.choose.parent = s.parent ∧
    s.choose.children = s.children := by
  rw [State.choose]
  split
  · exact ⟨rfl, rfl, rfl⟩
  · exact ⟨rfl, rfl, rfl⟩

theorem settled_choose (h : Settled s) (hphase : s.phase = .normal) : Settled s.choose := by
  obtain ⟨hlife, hparent, hchildren⟩ := choose_same s
  refine settled_of (steady_choose h.steady hphase) (fun p hp => ?_)
    (children_frame h.children (.of_eq hlife) hparent hchildren)
  rw [hlife]
  rcases choose_queue s p hp with hp | ⟨-, hrun⟩
  · exact h.queue.live p hp
  · exact Or.inl hrun

theorem steady_switchTo (h : Steady s) {n : ℕ} (hphase : s.phase = .chosen n) :
    Steady (s.switchTo n) := by
  have hholder : s.holder = n := by rw [State.holder, hphase]
  refine ⟨h.once, fun p hp hrun => ?_, h.idle, (h.chosen n hphase).used, fun m hm => (nomatch hm),
    lists_frame h.lists (.of_eq rfl) rfl rfl rfl⟩
  have := h.running p hp hrun
  rw [hholder] at this
  exact this

theorem settled_switchTo (h : Settled s) {n : ℕ} (hphase : s.phase = .chosen n) :
    Settled (s.switchTo n) :=
  settled_of (steady_switchTo h.steady hphase) h.queue.live (children_frame h.children (.of_eq rfl) rfl rfl)

theorem steady_tail (h : Steady s) (hphase : s.phase = .switched p) : Steady (s.scheduleTail p) := by
  have hholder : s.holder = s.current := by rw [State.holder, hphase]
  refine ⟨h.once, fun q hq hrun => ?_, h.idle, h.current, fun m hm => (nomatch hm),
    lists_frame h.lists (.of_eq rfl) rfl rfl rfl⟩
  have := h.running q hq hrun
  rw [hholder] at this
  exact this

theorem settled_tail (h : Settled s) (hphase : s.phase = .switched p) : Settled (s.scheduleTail p) :=
  settled_of (steady_tail h.steady hphase) h.queue.live (children_frame h.children (.of_eq rfl) rfl rfl)

/-! ## fork, wait and exit -/

section Fork

variable {n : ℤ}

theorem newChild_life (s : State) (q : ℕ) (n : ℤ) : (s.newChild q n).life q = .running :=
  Function.update_self ..

theorem newChild_life_other (hp : p ≠ q) : (s.newChild q n).life p = s.life p :=
  Function.update_of_ne hp _ _

theorem newChild_place_other (hp : p ≠ q) : (s.newChild q n).place p = s.place p :=
  Function.update_of_ne hp _ _

theorem newChild_lists (hp : p ∈ (s.newChild q n).lists w) : p ∈ s.lists w := by
  change p ∈ Function.update s.lists (.child q) [] w at hp
  by_cases hw : w = .child q
  · rw [hw, Function.update_self] at hp
    cases hp
  · rw [Function.update_of_ne hw] at hp
    exact hp

theorem newChild_live (hq : s.life q = .free) (hp : Live (s.life p)) :
    Live ((s.newChild q n).life p) := by
  rw [newChild_life_other]
  · exact hp
  · rintro rfl
    exact hp.used hq

theorem lists_newChild (h : Lists s) (hq : s.life q = .free) : Lists (s.newChild q n) where
  members := by
    intro w p hp
    have hin := newChild_lists hp
    have hpq : p ≠ q := by
      rintro rfl
      exact (h.live hin).used hq
    rw [newChild_place_other hpq]
    exact h.members w p hin
  once := by
    intro w
    change (Function.update s.lists (.child q) [] w).Nodup
    by_cases hw : w = .child q
    · rw [hw, Function.update_self]
      exact List.nodup_nil
    · rw [Function.update_of_ne hw]
      exact h.once w
  waiter := fun k p hp => h.waiter k p (newChild_lists hp)
  zombie := by
    intro p hz
    have hpq : p ≠ q := by
      rintro rfl
      rw [newChild_life] at hz
      cases hz
    rw [newChild_life_other hpq] at hz
    rw [newChild_place_other hpq]
    exact h.zombie p hz
  free := by
    intro p hf
    have hpq : p ≠ q := by
      rintro rfl
      rw [newChild_life] at hf
      cases hf
    rw [newChild_life_other hpq] at hf
    rw [newChild_place_other hpq]
    exact h.free p hf

/-- The new process is the last child of the current one and has no children. -/
theorem newChild_children {y : ℕ} (hne : s.current ≠ q) (hy : y ∈ (s.newChild q n).children p) :
    p ≠ q ∧ (y ∈ s.children p ∨ (p = s.current ∧ y = q)) := by
  change y ∈ Function.update (Function.update s.children q []) s.current (s.children s.current++[q]) p at hy
  by_cases hpc : p = s.current
  · subst hpc
    rw [Function.update_self, List.mem_append, List.mem_singleton] at hy
    exact ⟨hne, hy.imp_right fun hyq => ⟨rfl, hyq⟩⟩
  · rw [Function.update_of_ne hpc] at hy
    by_cases hpq : p = q
    · rw [hpq, Function.update_self] at hy
      cases hy
    · rw [Function.update_of_ne hpq] at hy
      exact ⟨hpq, Or.inl hy⟩

theorem children_newChild (h : Children s) (hcur : Live (s.life s.current)) (hq : s.life q = .free) :
    Children (s.newChild q n) := by
  have hne : s.current ≠ q := fun hc => hcur.used (hc ▸ hq)
  -- nobody has the free page as a child
  have hnot : ∀ p, s.life p ≠ .free → q ∉ s.children p := fun p hp hc => h.used p q hp hc hq
  have hcase : ∀ {p y}, (s.newChild q n).life p ≠ .free → y ∈ (s.newChild q n).children p →
      s.life p ≠ .free ∧ p ≠ q ∧ (y ∈ s.children p ∨ (p = s.current ∧ y = q)) := by
    intro p y hp hy
    obtain ⟨hpq, hin⟩ := newChild_children hne hy
    rw [newChild_life_other hpq] at hp
    exact ⟨hp, hpq, hin⟩
  refine ⟨fun p y hp hy => ?_, fun p y hp hy => ?_, fun p hp => ?_, fun p p' y hp hp' hy hy' => ?_⟩
  · obtain ⟨hp, -, hin | ⟨-, rfl⟩⟩ := hcase hp hy
    · have hyq : y ≠ q := fun hc => hnot p hp (hc ▸ hin)
      rw [newChild_life_other hyq]
      exact h.used p y hp hin
    · rw [newChild_life]
      exact fun hc => nomatch hc
  · obtain ⟨hu, hpq, hin | ⟨rfl, rfl⟩⟩ := hcase hp.used hy
    · have hyq : y ≠ q := fun hc => hnot p hu (hc ▸ hin)
      rw [newChild_life_other hpq] at hp
      exact (Function.update_of_ne hyq _ _).trans (h.parent p y hp hin)
    · exact Function.update_self ..
  · change (Function.update (Function.update s.children q []) s.current (s.children s.current++[q]) p).Nodup
    by_cases hpc : p = s.current
    · subst hpc
      rw [Function.update_self]
      exact List.nodup_append.mpr ⟨h.once _ hcur.used, List.nodup_singleton _,
        fun a ha b hb hab => hnot _ hcur.used (List.mem_singleton.mp hb ▸ hab ▸ ha)⟩
    · rw [Function.update_of_ne hpc]
      by_cases hpq : p = q
      · rw [hpq, Function.update_self]
        exact List.nodup_nil
      · rw [Function.update_of_ne hpq]
        rw [newChild_life_other hpq] at hp
        exact h.once p hp
  · obtain ⟨hp, -, hin⟩ := hcase hp hy
    obtain ⟨hp', -, hin'⟩ := hcase hp' hy'
    rcases hin with hin | ⟨hpc, hyq⟩
    · rcases hin' with hin' | ⟨-, hyq⟩
      · exact h.apart p p' y hp hp' hin hin'
      · exact absurd (hyq ▸ hin) (hnot p hp)
    · rcases hin' with hin' | ⟨hpc', -⟩
      · exact absurd (hyq ▸ hin') (hnot p' hp')
      · exact hpc.trans hpc'.symm

theorem steady_fork (h : Steady s) (hcur : Live (s.life s.current)) (hq : s.life q = .free) :
    Steady (s.fork q n) := by
  have heq := addProcessToRq_eq (s.newChild q n) q
  have hlife : (s.fork q n).life = (s.newChild q n).life := by rw [State.fork, heq]
  have hrq : ∀ p, p ∈ (s.fork q n).runQueue ↔ p = q ∨ p ∈ s.runQueue :=
    addProcessToRq_mem (s.newChild q n) q
  have hkind : SameKind (s.newChild q n) (s.fork q n) := .of_eq hlife
  refine ⟨@addProcessToRq_once (s.newChild q n) h.once q, fun p hp hrun => ?_, ?_, ?_, fun m hm => ?_,
    lists_frame (lists_newChild h.lists hq) hkind ?_ ?_ ?_⟩
  · by_cases hpq : p = q
    · exact Or.inr ((hrq p).mpr (Or.inl hpq))
    · rw [hlife, newChild_life_other hpq] at hrun
      refine (h.running p hp hrun).imp (fun hh => ?_) (fun hin => (hrq p).mpr (Or.inr hin))
      rw [State.fork, heq]
      exact hh
  · rw [hlife]
    exact newChild_live hq h.idle
  · rw [hlife, show (s.fork q n).current = s.current by rw [State.fork, heq]; rfl]
    exact (newChild_live hq hcur).used
  · rw [show (s.fork q n).phase = s.phase by rw [State.fork, heq]; rfl] at hm
    rw [hlife]
    exact newChild_live hq (h.chosen m hm)
  all_goals rw [State.fork, heq]

theorem settled_fork (h : Settled s) (hcur : Live (s.life s.current)) (hq : s.life q = .free) :
    Settled (s.fork q n) := by
  have heq := addProcessToRq_eq (s.newChild q n) q
  have hlife : (s.fork q n).life = (s.newChild q n).life := by rw [State.fork, heq]
  refine settled_of (steady_fork h.steady hcur hq) (fun p hp => ?_)
    (children_frame (children_newChild h.children hcur hq) (.of_eq hlife) ?_ ?_)
  · rw [hlife]
    rcases (addProcessToRq_mem (s.newChild q n) q p).mp hp with rfl | hp
    · exact Or.inl (newChild_life s p n)
    · exact newChild_live hq (h.queue.live p hp)
  all_goals rw [State.fork, heq]

end Fork

theorem steady_release (h : Steady s) {z : ℕ} (hphase : s.phase = .normal)
    (hcur : Live (s.life s.current)) (hz : s.life z = .zombie) : Steady (s.release z) := by
  have hself : (s.release z).life z = .free := Function.update_self ..
  have hold : ∀ p, p ≠ z → (s.release z).life p = s.life p := fun p hp => Function.update_of_ne hp _ _
  have hne : ∀ p, Live (s.life p) → p ≠ z := by
    rintro p hp rfl
    exact hp.notZombie hz
  refine ⟨h.once, fun p hp hrun => ?_, ?_, ?_, fun n hn => ?_,
    ⟨h.lists.members, h.lists.once, h.lists.waiter, fun p hp => ?_, fun p hp => ?_⟩⟩
  · have hpz : p ≠ z := by
      rintro rfl
      rw [hself] at hrun
      cases hrun
    rw [hold p hpz] at hrun
    exact h.running p hp hrun
  · rw [hold 0 (hne 0 h.idle)]
    exact h.idle
  · change (s.release z).life s.current ≠ .free
    rw [hold _ (hne _ hcur)]
    exact hcur.used
  · rw [show (s.release z).phase = s.phase from rfl, hphase] at hn
    cases hn
  · have hpz : p ≠ z := by
      rintro rfl
      rw [hself] at hp
      cases hp
    rw [hold p hpz] at hp
    exact h.lists.zombie p hp
  · by_cases hpz : p = z
    · rw [hpz]
      intro w hat
      change At z (s.place z) w at hat
      rcases h.lists.zombie z hz with hd | hd
      · rw [hd] at hat
        exact hat
      · rw [hd] at hat
        exact hat
    · rw [hold p hpz] at hp
      exact h.lists.free p hp

theorem settled_release (h : Settled s) {z : ℕ} (hphase : s.phase = .normal)
    (hcur : Live (s.life s.current)) (hz : s.life z = .zombie) (hin : z ∈ s.children s.current) :
    Settled (s.release z) := by
  have hparent := h.children.parent _ _ hcur hin
  have hself : (s.release z).life z = .free := Function.update_self ..
  have hold : ∀ p, p ≠ z → (s.release z).life p = s.life p := fun p hp => Function.update_of_ne hp _ _
  have hne : ∀ p, Live (s.life p) → p ≠ z := by
    rintro p hp rfl
    exact hp.notZombie hz
  have hused : ∀ p, (s.release z).life p ≠ .free → p ≠ z ∧ s.life p ≠ .free := by
    intro p hp
    have hpz : p ≠ z := by
      rintro rfl
      exact hp hself
    rw [hold p hpz] at hp
    exact ⟨hpz, hp⟩
  -- the zombie leaves the only list that it is in
  have hmem : ∀ q y, s.life q ≠ .free → y ∈ (s.release z).children q → y ∈ s.children q ∧ y ≠ z := by
    intro q y hq hy
    rw [State.release] at hy
    simp only [hparent] at hy
    by_cases hqc : q = s.current
    · rw [hqc, Function.update_self, (h.children.once _ hcur.used).mem_erase_iff] at hy
      rw [hqc]
      exact hy.symm
    · rw [Function.update_of_ne hqc] at hy
      refine ⟨hy, ?_⟩
      rintro rfl
      exact hqc (h.children.apart _ _ _ hq hcur.used hy hin)
  refine settled_of (steady_release h.steady hphase hcur hz) (fun p hp => ?_)
    ⟨fun q y hq hy => ?_, fun q y hq hy => ?_, fun q hq => ?_, fun q q' y hq hq' hy hy' => ?_⟩
  · have hl := h.queue.live p hp
    rw [hold p (hne p hl)]
    exact hl
  · obtain ⟨-, hq⟩ := hused q hq
    obtain ⟨hy, hyz⟩ := hmem q y hq hy
    rw [hold y hyz]
    exact h.children.used q y hq hy
  · obtain ⟨hqz, hq'⟩ := hused q hq.used
    rw [hold q hqz] at hq
    exact h.children.parent q y hq (hmem q y hq' hy).1
  · obtain ⟨-, hq⟩ := hused q hq
    rw [State.release]
    simp only [hparent]
    by_cases hqc : q = s.current
    · rw [hqc, Function.update_self]
      exact (h.children.once _ hcur.used).erase z
    · rw [Function.update_of_ne hqc]
      exact h.children.once q hq
  · obtain ⟨-, hq⟩ := hused q hq
    obtain ⟨-, hq'⟩ := hused q' hq'
    exact h.children.apart q q' y hq hq' (hmem q y hq hy).1 (hmem q' y hq' hy').1

/-- The child that `wait_children` releases, if it finds one. -/
theorem walk_cases (s : State) (pid : ℤ) :
    (∃ z, z ∈ s.children s.current ∧ s.life z = .zombie ∧ s.walk pid = (s.release z).setPlace .waitEnd) ∨
      ∃ x, (x = .waitEnd ∨ x = .waitAsleep pid) ∧ s.walk pid = s.setPlace x := by
  rw [State.walk]
  split
  next z hz =>
    have hin : z ∈ s.asked pid := List.mem_of_find?_eq_some hz
    have hzombie := List.find?_some hz
    exact Or.inl ⟨z, List.mem_of_mem_filter hin, of_decide_eq_true hzombie, rfl⟩
  · right
    split
    · exact ⟨_, Or.inl rfl, rfl⟩
    · exact ⟨_, Or.inr rfl, rfl⟩

theorem release_live {z : ℕ} (hcur : Live (s.life s.current)) (hz : s.life z = .zombie) :
    Live ((s.release z).life (s.release z).current) := by
  have hne : s.current ≠ z := by
    intro hc
    rw [hc] at hcur
    exact hcur.notZombie hz
  change Live (Function.update s.life z .free s.current)
  rw [Function.update_of_ne hne]
  exact hcur

theorem steady_walk (h : Steady s) (hphase : s.phase = .normal) (hcur : Live (s.life s.current))
    {pid : ℤ} (hplace : s.place s.current = .waitWalk pid) : Steady (s.walk pid) := by
  rcases walk_cases s pid with ⟨z, -, hz, hwalk⟩ | ⟨x, hx, hwalk⟩
  · rw [hwalk]
    have hr := steady_release h hphase hcur hz
    exact steady_place hr hphase (release_live hcur hz)
      (fun w hw => at_place (x := .waitWalk pid) hr.lists hplace hw)
  · rw [hwalk]
    refine steady_place h hphase hcur (fun w hw => ?_)
    have hat := at_place h.lists hplace hw
    rcases hx with rfl | rfl
    · exact hat
    · exact hat

theorem settled_walk (h : Settled s) (hphase : s.phase = .normal) (hcur : Live (s.life s.current))
    {pid : ℤ} (hplace : s.place s.current = .waitWalk pid) : Settled (s.walk pid) := by
  rcases walk_cases s pid with ⟨z, hin, hz, hwalk⟩ | ⟨x, hx, hwalk⟩
  · rw [hwalk]
    have hr := settled_release h hphase hcur hz hin
    exact settled_place hr hphase (release_live hcur hz)
      (fun w hw => at_place (x := .waitWalk pid) hr.lists hplace hw)
  · rw [hwalk]
    refine settled_place h hphase hcur (fun w hw => ?_)
    have hat := at_place h.lists hplace hw
    rcases hx with rfl | rfl
    · exact hat
    · exact hat

theorem exit_life_other (hp : p ≠ s.current) : s.exit.life p = s.life p := Function.update_of_ne hp _ _

theorem exit_life (s : State) : s.exit.life s.current = .zombie := Function.update_self ..

theorem exit_free (hcur : s.life s.current ≠ .free) : s.exit.life p = .free ↔ s.life p = .free := by
  by_cases hp : p = s.current
  · rw [hp, exit_life]
    exact ⟨fun hc => (nomatch hc), fun hc => absurd hc hcur⟩
  · rw [exit_life_other hp]

theorem steady_exit (h : Steady s) (hphase : s.phase = .normal) (hout : s.place s.current = .out)
    (hzero : s.current ≠ 0) : Steady s.exit := by
  have hplace : ∀ p, p ≠ s.current → s.exit.place p = s.place p := fun p hp => Function.update_of_ne hp _ _
  refine ⟨h.once, fun p hp hrun => ?_, ?_, ?_, fun n hn => ?_,
    ⟨fun w p hp => ?_, h.lists.once, h.lists.waiter, fun p hz => ?_, fun p hf w => ?_⟩⟩
  · have hpc : p ≠ s.current := by
      rintro rfl
      rw [exit_life] at hrun
      cases hrun
    rw [exit_life_other hpc] at hrun
    exact h.running p hp hrun
  · rw [exit_life_other hzero.symm]
    exact h.idle
  · change s.exit.life s.current ≠ .free
    rw [exit_life]
    exact fun hc => nomatch hc
  · rw [show s.exit.phase = s.phase from rfl, hphase] at hn
    cases hn
  · have hpc : p ≠ s.current := by
      rintro rfl
      exact at_place h.lists hout hp
    rw [hplace p hpc]
    exact h.lists.members w p hp
  · by_cases hpc : p = s.current
    · left
      rw [hpc]
      exact Function.update_self ..
    · rw [exit_life_other hpc] at hz
      rw [hplace p hpc]
      exact h.lists.zombie p hz
  · have hf' := (exit_free h.current).mp hf
    have hpc : p ≠ s.current := by
      rintro rfl
      exact h.current hf'
    rw [hplace p hpc]
    exact h.lists.free p hf' w

theorem settled_exit (h : Settled s) (hphase : s.phase = .normal) (hout : s.place s.current = .out)
    (hzero : s.current ≠ 0) (hnot : s.current ∉ s.runQueue) : Settled s.exit := by
  have hfree : ∀ p, s.exit.life p = .free ↔ s.life p = .free := fun p => exit_free h.queue.current
  refine settled_of (steady_exit h.steady hphase hout hzero) (fun p hp => ?_)
    ⟨fun q y hq hy => ?_, fun q y hq hy => ?_, fun q hq => ?_, fun q q' y hq hq' hy hy' => ?_⟩
  · have hpc : p ≠ s.current := by
      rintro rfl
      exact hnot hp
    rw [exit_life_other hpc]
    exact h.queue.live p hp
  · rw [Ne, hfree] at hq ⊢
    exact h.children.used q y hq hy
  · have hqc : q ≠ s.current := by
      rintro rfl
      exact hq.notZombie (exit_life s)
    rw [exit_life_other hqc] at hq
    have hy' : y ∈ s.children q := hy
    have hout : y ∉ s.children s.current :=
      fun hc => hqc (h.children.apart _ _ _ hq.used h.queue.current hy' hc)
    exact (if_neg hout).trans (h.children.parent q y hq hy')
  · rw [Ne, hfree] at hq
    exact h.children.once q hq
  · rw [Ne, hfree] at hq hq'
    exact h.children.apart q q' y hq hq' hy hy'

/-- A process that has woken its parent waits for it. -/
theorem lists_dead (h : Lists s) (hnot : ∀ w, s.current ∉ s.lists w) : Lists (s.setPlace .dead) := by
  have hother : ∀ p, p ≠ s.current → (s.setPlace .dead).place p = s.place p :=
    fun p hp => Function.update_of_ne hp _ _
  have hself : (s.setPlace .dead).place s.current = .dead := Function.update_self ..
  refine ⟨fun w p hp => ?_, h.once, h.waiter, fun p hz => ?_, fun p hf w => ?_⟩
  · have hpc : p ≠ s.current := by
      rintro rfl
      exact hnot w hp
    rw [hother p hpc]
    exact h.members w p hp
  · by_cases hpc : p = s.current
    · rw [hpc]
      exact Or.inr hself
    · rw [hother p hpc]
      exact h.zombie p hz
  · by_cases hpc : p = s.current
    · rw [hpc, hself]
      exact id
    · rw [hother p hpc]
      exact h.free p hf w

theorem wakeUp_same (s : State) (w : Where) :
    (s.wakeUp w).lists = s.lists ∧ (s.wakeUp w).current = s.current := by
  rw [State.wakeUp]
  split
  · exact ⟨rfl, rfl⟩
  · rw [wakeUpProcess_eq]
    exact ⟨rfl, rfl⟩

theorem dying_left (h : Lists s) (hplace : s.place s.current = .dying) (w' : Where) :
    ∀ w, (s.wakeUp w').current ∉ (s.wakeUp w').lists w := by
  intro w hin
  rw [(wakeUp_same s w').1, (wakeUp_same s w').2] at hin
  exact at_place h hplace hin

theorem steady_notify (h : Steady s) (hplace : s.place s.current = .dying) (q : ℕ) :
    Steady ((s.wakeUp (.child q)).setPlace .dead) := by
  have hwake := steady_wakeUp (w := .child q) h
  exact steady_lists hwake (lists_dead hwake.lists (dying_left h.lists hplace _))

theorem settled_notify (h : Settled s) (hplace : s.place s.current = .dying) (q : ℕ) :
    Settled ((s.wakeUp (.child q)).setPlace .dead) := by
  have hwake := settled_wakeUp (w := .child q) h
  exact settled_lists hwake (lists_dead hwake.lists (dying_left h.lists hplace _))

/-- Where a process is in `schedule`, it is still in its list. -/
theorem lists_away (h : Lists s) : ∀ w, s.current ∈ s.lists w → At s.current (s.place s.current).afterSchedule w := by
  intro w hin
  have hat := h.members w _ hin
  generalize s.place s.current = x at hat ⊢
  cases x
  all_goals exact hat

theorem dead_same (hdead : s.place s.current = .dead) : s.setPlace (s.place s.current).afterSchedule = s := by
  rw [hdead]
  change s.setPlace .dead = s
  rw [State.setPlace, ← hdead, Function.update_eq_self]

theorem calls_notDying (hcalls : (s.place s.current).callsSchedule = true) : s.place s.current ≠ .dying := by
  intro hc
  rw [hc] at hcalls
  cases hcalls

theorem steady_schedule (h : Steady s) (hphase : s.phase = .normal)
    (hcalls : (s.place s.current).callsSchedule = true) :
    Steady (s.setPlace (s.place s.current).afterSchedule).choose := by
  refine steady_choose ?_ hphase
  by_cases hdead : s.place s.current = .dead
  · rw [dead_same hdead]
    exact h
  · exact steady_place h hphase (current_live h (calls_notDying hcalls) hdead) (lists_away h.lists)

theorem settled_schedule (h : Settled s) (hphase : s.phase = .normal)
    (hcalls : (s.place s.current).callsSchedule = true) :
    Settled (s.setPlace (s.place s.current).afterSchedule).choose := by
  refine settled_choose ?_ hphase
  by_cases hdead : s.place s.current = .dead
  · rw [dead_same hdead]
    exact h
  · exact settled_place h hphase (current_live h.steady (calls_notDying hcalls) hdead) (lists_away h.lists)

/-! ## Runs -/

/-- The lists and the processor are in order in every run. -/
theorem steady_step {e : Event} (h : Steady s) (hstep : Step s e s') : Steady s' := by
  have hlive : ∀ {x}, s.place s.current = x → x ≠ .dying → x ≠ .dead → Live (s.life s.current) := by
    rintro x rfl
    exact current_live h
  cases hstep with
  | wake => exact steady_wakeUp h
  | tick => exact steady_tick h
  | up => exact steady_up h _
  | schedule hphase hcalls => exact steady_schedule h hphase hcalls
  | switchTo hphase => exact steady_switchTo h hphase
  | tail hphase => exact steady_tail h hphase
  | sleepOn hphase hout =>
    exact steady_lists h (lists_link h.lists (hlive hout (by simp) (by simp)) hout rfl (fun k hk => nomatch hk))
  | @sleep ticks hphase hout =>
    have h' := steady_expires h (Function.update s.expires s.current ticks)
    exact steady_lists h' (lists_link h'.lists (hlive hout (by simp) (by simp)) hout rfl (fun k hk => nomatch hk))
  | @doze w hphase hplace =>
    exact steady_move h hphase (hlive hplace (by simp) (by simp)) (Or.inr rfl)
      (fun w' hin => at_place (x := .joined w) h.lists hplace hin)
  | leave hphase hplace _ =>
    refine steady_lists h (lists_unlink h.lists (hlive hplace (by simp) (by simp)) ?_)
    rw [hplace]
    rfl
  | down hphase hout => exact steady_down h hphase hout (hlive hout (by simp) (by simp)) _
  | recheck hphase hplace => exact steady_recheck h hphase hplace (hlive hplace (by simp) (by simp))
  | waitStart hphase hout =>
    exact steady_lists h (lists_link h.lists (hlive hout (by simp) (by simp)) hout rfl (fun k hk => nomatch hk))
  | @waitDoze pid hphase hplace =>
    rcases hplace with hplace | hplace
    · exact steady_move h hphase (hlive hplace (by simp) (by simp)) (Or.inr rfl)
        (fun w hin => at_place (x := .waitJoined pid) h.lists hplace hin)
    · exact steady_move h hphase (hlive hplace (by simp) (by simp)) (Or.inr rfl)
        (fun w hin => at_place (x := .waitAway pid) h.lists hplace hin)
  | walk hphase hplace => exact steady_walk h hphase (hlive hplace (by simp) (by simp)) hplace
  | waitWake hphase hplace =>
    exact steady_move h hphase (hlive hplace (by simp) (by simp)) (Or.inl rfl)
      (fun w hin => at_place (x := .waitEnd) h.lists hplace hin)
  | waitLeave hphase hplace =>
    refine steady_lists h (lists_unlink h.lists (hlive hplace (by simp) (by simp)) ?_)
    rw [hplace]
    rfl
  | stop hphase hout =>
    exact steady_move h hphase (hlive hout (by simp) (by simp)) (Or.inr rfl)
      (fun w hin => absurd (at_place h.lists hout hin) id)
  | fork hphase hout hq => exact steady_fork h (hlive hout (by simp) (by simp)) hq
  | exit hphase hout hzero => exact steady_exit h hphase hout hzero
  | notify _ hplace _ => exact steady_notify h hplace _

theorem steady_run {allowed : State → Event → Prop} (h : Run allowed s) : Steady s := by
  induction h with
  | start count => exact steady_start count
  | step _ _ hstep ih => exact steady_step ih hstep

theorem settled_step {e : Event} (h : Settled s) (ha : NotWoken s e) (hstep : Step s e s') :
    Settled s' := by
  have hlive : ∀ {x}, s.place s.current = x → x ≠ .dying → x ≠ .dead → Live (s.life s.current) := by
    rintro x rfl
    exact current_live h.steady
  cases hstep with
  | wake => exact settled_wakeUp h
  | tick => exact settled_tick h
  | up => exact settled_up h _
  | schedule hphase hcalls => exact settled_schedule h hphase hcalls
  | switchTo hphase => exact settled_switchTo h hphase
  | tail hphase => exact settled_tail h hphase
  | sleepOn hphase hout =>
    exact settled_lists h (lists_link h.lists (hlive hout (by simp) (by simp)) hout rfl (fun k hk => nomatch hk))
  | @sleep ticks hphase hout =>
    have h' := settled_expires h (Function.update s.expires s.current ticks)
    exact settled_lists h' (lists_link h'.lists (hlive hout (by simp) (by simp)) hout rfl (fun k hk => nomatch hk))
  | @doze w hphase hplace =>
    exact settled_move h hphase (hlive hplace (by simp) (by simp)) (Or.inr rfl)
      (fun w' hin => at_place (x := .joined w) h.lists hplace hin)
  | leave hphase hplace _ =>
    refine settled_lists h (lists_unlink h.lists (hlive hplace (by simp) (by simp)) ?_)
    rw [hplace]
    rfl
  | down hphase hout => exact settled_down h hphase hout (hlive hout (by simp) (by simp)) _
  | recheck hphase hplace => exact settled_recheck h hphase hplace (hlive hplace (by simp) (by simp))
  | waitStart hphase hout =>
    exact settled_lists h (lists_link h.lists (hlive hout (by simp) (by simp)) hout rfl (fun k hk => nomatch hk))
  | @waitDoze pid hphase hplace =>
    rcases hplace with hplace | hplace
    · exact settled_move h hphase (hlive hplace (by simp) (by simp)) (Or.inr rfl)
        (fun w hin => at_place (x := .waitJoined pid) h.lists hplace hin)
    · exact settled_move h hphase (hlive hplace (by simp) (by simp)) (Or.inr rfl)
        (fun w hin => at_place (x := .waitAway pid) h.lists hplace hin)
  | walk hphase hplace => exact settled_walk h hphase (hlive hplace (by simp) (by simp)) hplace
  | waitWake hphase hplace =>
    exact settled_move h hphase (hlive hplace (by simp) (by simp)) (Or.inl rfl)
      (fun w hin => at_place (x := .waitEnd) h.lists hplace hin)
  | waitLeave hphase hplace =>
    refine settled_lists h (lists_unlink h.lists (hlive hplace (by simp) (by simp)) ?_)
    rw [hplace]
    rfl
  | stop hphase hout =>
    exact settled_move h hphase (hlive hout (by simp) (by simp)) (Or.inr rfl)
      (fun w hin => absurd (at_place h.lists hout hin) id)
  | fork hphase hout hq => exact settled_fork h (hlive hout (by simp) (by simp)) hq
  | exit hphase hout hzero => exact settled_exit h hphase hout hzero ha
  | notify _ hplace _ => exact settled_notify h hplace _

theorem settled_run (h : Run NotWoken s) : Settled s := by
  induction h with
  | start count => exact settled_start count
  | step _ ha hstep ih => exact settled_step ih ha hstep

/-- In every run in which no process exits that has been woken since it was chosen, the run queue
and the lists are in order; and such an exit puts a zombie in the run queue. -/
theorem orderly_run (s : State) : (Run NotWoken s → Orderly s) ∧
    ∀ s', Run NotWoken s → Step s .exit s' → ¬ NotWoken s .exit → ¬ Orderly s' := by
  refine ⟨fun h => orderly_of (settled_run h), fun s' _ hstep hnot hall => ?_⟩
  cases hstep with
  | exit _ _ _ =>
    have hin : s.current ∈ s.runQueue := not_not.mp hnot
    exact (hall.zombie s.current (Function.update_self ..)).1 hin

end Current

/-! ## A second wake-up -/

/-- The first process sleeps on a queue and is woken. -/
def woken : State :=
  let s := start.fork 1 1
  let s := ((s.setPlace .out).choose.switchTo 1).scheduleTail 0
  let s := (s.link (.queue 0)).setPlace (.joined (.queue 0))
  let s := (s.setLife 1 .sleep).setPlace (.asleep (.queue 0))
  let s := ((s.setPlace (.away (.queue 0))).choose.switchTo 0).scheduleTail 1
  let s := s.wakeUp (.queue 0)
  ((s.setPlace .out).choose.switchTo 1).scheduleTail 0

theorem woken_run {allowed : State → Event → Prop} (hall : ∀ s e, e ≠ .exit → allowed s e) :
    Run allowed woken := by
  have h₁ : Run allowed (start.fork 1 1) :=
    (Run.start start.count).step (hall _ _ (by simp)) (.fork rfl rfl rfl)
  have h₂ := h₁.step (hall _ _ (by simp)) (.schedule rfl rfl)
  have h₃ := h₂.step (hall _ _ (by simp)) (.switchTo (n := 1) rfl)
  have h₄ := h₃.step (hall _ _ (by simp)) (.tail (p := 0) rfl)
  have h₅ := h₄.step (hall _ _ (by simp)) (.sleepOn (k := 0) rfl rfl)
  have h₆ := h₅.step (hall _ _ (by simp)) (.doze rfl rfl)
  have h₇ := h₆.step (hall _ _ (by simp)) (.schedule rfl rfl)
  have h₈ := h₇.step (hall _ _ (by simp)) (.switchTo (n := 0) rfl)
  have h₉ := h₈.step (hall _ _ (by simp)) (.tail (p := 1) rfl)
  have h₁₀ := h₉.step (hall _ _ (by simp)) (.wake (w := .queue 0) (by simp) (by simp))
  have h₁₁ := h₁₀.step (hall _ _ (by simp)) (.schedule rfl rfl)
  have h₁₂ := h₁₁.step (hall _ _ (by simp)) (.switchTo (n := 1) rfl)
  exact h₁₂.step (hall _ _ (by simp)) (.tail (p := 0) rfl)

/-- It leaves the queue and exits. -/
def gone (s : State) : State := ((s.unlink (.queue 0)).setPlace .out).exit

theorem gone_run {allowed : State → Event → Prop} {s : State} (h : Run allowed s)
    (hall : ∀ s e, e ≠ .exit → allowed s e) (hphase : s.phase = .normal) (hzero : s.current ≠ 0)
    (hplace : s.place s.current = .away (.queue 0))
    (hexit : allowed ((s.unlink (.queue 0)).setPlace .out) .exit) : Run allowed (gone s) := by
  have hleave := h.step (hall _ _ (by simp)) (.leave hphase hplace rfl)
  exact hleave.step hexit (.exit hphase (Function.update_self ..) hzero)

theorem orderly_run_woken : Orderly (gone woken) := by
  have hall : ∀ s e, e ≠ .exit → NotWoken s e := by
    intro s e he
    cases e with
    | exit => exact absurd rfl he
    | _ => trivial
  exact (orderly_run (gone woken)).1
    (gone_run (woken_run hall) hall rfl (by decide) rfl (fun hc => nomatch hc))

/-- A second wake-up finds the process still at the head of the queue; it exits as a member of the
run queue. -/
theorem zombie_queued : ∃ s, Run (fun _ _ => True) s ∧ s.life 1 = .zombie ∧ 1 ∈ s.runQueue ∧
    ¬ Orderly s := by
  have hrun : Run (fun _ _ => True) (woken.wakeUp (.queue 0)) :=
    (woken_run (fun _ _ _ => trivial)).step trivial (.wake (by simp) (by simp))
  have hqueue : (gone (woken.wakeUp (.queue 0))).runQueue = [1] := rfl
  have hin : 1 ∈ (gone (woken.wakeUp (.queue 0))).runQueue := by
    rw [hqueue]
    exact List.mem_singleton_self 1
  refine ⟨gone (woken.wakeUp (.queue 0)),
    gone_run hrun (fun _ _ _ => trivial) rfl (by decide) rfl trivial, rfl, hin, fun h => ?_⟩
  exact (h.zombie 1 rfl).1 hin

end BabyOS.LifeCycle

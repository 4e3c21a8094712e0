import BabyOS.LifeCycle

/-!
# Sleeping for a time

`sys_sleep` and the timers, in every run of the kernel. The ghost state is the last
call of each process: what it asked for, the ticks since its timer was added, and how often
the timer has fired.
-/

set_option autoImplicit false

namespace BabyOS.SleepTimers
open BabyOS.RunQueue BabyOS.LifeCycle

def hz : ℕ := 100

/-- The argument of `sleep`; the product of 64 bits is kept in 32. -/
def sysSleep (seconds : ℕ) : ℕ := seconds*hz%2^64%2^32

/-- The process is in `process_t::sleep`. -/
def InSleep (x : Place) : Prop := x = .joined .timer ∨ x = .asleep .timer ∨ x = .away .timer

instance (x : Place) : Decidable (InSleep x) := inferInstanceAs (Decidable (_ ∨ _))

structure Call where
  seconds : ℕ
  ticks : ℕ
  fired : ℕ

abbrev History := ℕ → Option Call

inductive Event
  | sysSleep (seconds : ℕ)
  | other (e : RunQueue.Event)

/-- The idle process makes no system calls. -/
inductive Step : State → Event → State → Prop
  | sysSleep {s s' : State} {seconds : ℕ} : seconds < 2^64 → s.current ≠ 0 →
      RunQueue.Step s (.sleep (sysSleep seconds)) s' → Step s (.sysSleep seconds) s'
  | other {s s' : State} {e : RunQueue.Event} : (∀ ticks, e ≠ .sleep ticks) →
      RunQueue.Step s e s' → Step s (.other e) s'

/-- At the next tick, `timer_t::update` calls the function of the timer. -/
def fires (s : State) (p : ℕ) : Prop := p ∈ s.lists .timer ∧ s.expires p ≠ 0 ∧ s.expires p-1 = 0

instance (s : State) (p : ℕ) : Decidable (fires s p) := inferInstanceAs (Decidable (_ ∧ _))

def History.next (g : History) (s : State) : Event → History
  | .sysSleep seconds => Function.update g s.current (some ⟨seconds, 0, 0⟩)
  | .other .tick => fun p =>
    if InSleep (s.place p) then
      (g p).map fun c => ⟨c.seconds, c.ticks+1, if fires s p then c.fired+1 else c.fired⟩
    else g p
  | .other _ => g

inductive Run (allowed : State → Event → Prop) : State → History → Prop
  | start (count : ℕ → ℕ) : Run allowed { start with count := count } fun _ => none
  | step {s s' : State} {g : History} {e : Event} : Run allowed s g → allowed s e → Step s e s' →
      Run allowed s' (g.next s e)

/-- What sleeping is for. A call lasts `seconds*hz` ticks. -/
structure Punctual (s : State) (g : History) : Prop where
  called : ∀ p, InSleep (s.place p) → g p ≠ none
  fired : ∀ p c, g p = some c → InSleep (s.place p) → c.fired = if c.ticks < c.seconds*hz then 0 else 1
  woken : ∀ p c, g p = some c → InSleep (s.place p) → c.seconds*hz ≤ c.ticks →
    s.life p = .running ∧ (p = s.holder ∨ p ∈ s.runQueue)
  returned : ∀ p c, g p = some c → ¬ InSleep (s.place p) → c.seconds*hz ≤ c.ticks ∧ c.fired = 1
  off : ∀ p, ¬ InSleep (s.place p) → p ∉ s.lists .timer
  expired : ∀ p ∈ s.lists .timer, s.life p = .sleep → s.expires p ≠ 0

/-- The ticks that are asked for are at least one and fit in 32 bits, and they are not over
when the state is set to `SLEEP`. -/
def InTime (s : State) : Event → Prop
  | .sysSleep seconds => 0 < seconds ∧ seconds*hz < 2^32
  | .other .doze => s.place s.current = .joined .timer → s.expires s.current ≠ 0
  | .other _ => True

/-! ## A tick -/

section Tick

variable {s : State} {p : ℕ}

theorem timerUpdate_eq (s : State) (p : ℕ) : ∃ life queue expires, s.timerUpdate p =
    { s with life := life, runQueue := queue, expires := expires } ∧
      life = (if s.expires p = 1 then Function.update s.life p .running else s.life) ∧
      expires = Function.update s.expires p (s.expires p-1) := by
  rw [State.timerUpdate]
  by_cases hzero : s.expires p = 0
  · have hsame : s.expires p-1 = s.expires p := by omega
    refine ⟨s.life, s.runQueue, s.expires, if_pos hzero, (if_neg (by omega)).symm, ?_⟩
    rw [hsame, Function.update_eq_self]
  · rw [if_neg hzero]
    have hself : Function.update s.expires p (s.expires p-1) p = s.expires p-1 := Function.update_self ..
    dsimp only
    split
    next hnew =>
      have hone : s.expires p = 1 := by omega
      rw [wakeUpProcess_eq]
      exact ⟨_, _, _, rfl, (if_pos hone).symm, rfl⟩
    next hnew =>
      have hone : ¬ s.expires p = 1 := by omega
      exact ⟨_, _, _, rfl, (if_neg hone).symm, rfl⟩

/-- The timers of a list, each once. -/
theorem fold_spec (l : List ℕ) (honce : l.Nodup) (s : State) : ∃ life queue expires,
    l.foldl State.timerUpdate s = { s with life := life, runQueue := queue, expires := expires } ∧
      ∀ p, life p = (if p ∈ l ∧ s.expires p = 1 then .running else s.life p) ∧
        expires p = if p ∈ l then s.expires p-1 else s.expires p := by
  induction l generalizing s with
  | nil => exact ⟨s.life, s.runQueue, s.expires, rfl, fun p => ⟨by simp, by simp⟩⟩
  | cons q l ih =>
    obtain ⟨hq, honce⟩ := List.nodup_cons.mp honce
    obtain ⟨life₁, queue₁, expirer, heq, hlife₁, hexpirer⟩ := timerUpdate_eq s q
    obtain ⟨life, queue, expires, hfold, hall⟩ := ih honce (s.timerUpdate q)
    rw [heq] at hfold hall
    refine ⟨life, queue, expires, ?_, fun p => ?_⟩
    · rw [List.foldl_cons, heq]
      exact hfold
    · obtain ⟨hlife, hexpires⟩ := hall p
      dsimp only at hlife hexpires
      by_cases hpq : p = q
      · subst hpq
        rw [hlife, hexpires, if_neg (fun hc => hq hc.1), if_neg hq, hlife₁, hexpirer, Function.update_self]
        simp only [List.mem_cons_self, true_and, if_true]
        refine ⟨?_, trivial⟩
        split
        · exact Function.update_self ..
        · rfl
      · have hsame : life₁ p = s.life p := by
          rw [hlife₁]
          split
          · exact Function.update_of_ne hpq _ _
          · rfl
        have htimer : expirer p = s.expires p := by
          rw [hexpirer]
          exact Function.update_of_ne hpq _ _
        rw [hlife, hexpires]
        simp only [List.mem_cons, hpq, false_or, hsame, htimer, and_self]

/-- What a tick does to a process and its timer. -/
theorem tick_spec (h : Lists s) (p : ℕ) : s.tick.place = s.place ∧ s.tick.lists = s.lists ∧
    s.tick.holder = s.holder ∧ s.tick.life p = (if fires s p then .running else s.life p) ∧
      s.tick.expires p = if p ∈ s.lists .timer then s.expires p-1 else s.expires p := by
  obtain ⟨life, queue, expires, heq, hall⟩ := fold_spec (s.lists .timer) (h.once .timer) s
  have htick : s.tick = { s with life := life, runQueue := queue, expires := expires } := heq
  rw [htick]
  refine ⟨rfl, rfl, rfl, ?_, (hall p).2⟩
  refine (hall p).1.trans (if_congr ?_ rfl rfl)
  rw [fires]
  refine and_congr_right fun _ => ?_
  omega

end Tick

/-! ## The other steps -/

/-- What a step of another process leaves to one that sleeps; the processor comes to it only when
it can run. -/
structure Same (s s' : State) (p : ℕ) : Prop where
  place : s'.place p = s.place p
  life : s'.life p = s.life p
  expires : s'.expires p = s.expires p
  listed : p ∈ s.lists .timer → p ∈ s'.lists .timer
  holder : s'.holder = p → s.holder = p ∨ s.life p = .running

section Steps

variable {s s' : State} {p q : ℕ} {w : Where}

theorem same_wake (hpq : p ≠ q) : Same s (s.wakeUpProcess q) p := by
  rw [wakeUpProcess_eq]
  exact ⟨rfl, Function.update_of_ne hpq _ _, rfl, id, Or.inl⟩

/-- A process that sleeps for a time is in no other list. -/
theorem not_listed (h : Lists s) (hp : InSleep (s.place p)) (hw : w ≠ .timer) : p ∉ s.lists w := by
  intro hin
  have hat := h.members w p hin
  rcases hp with hp | hp | hp
  all_goals
    rw [hp] at hat
    exact hw hat

theorem same_wakeUp (h : Lists s) (hp : InSleep (s.place p)) (hw : w ≠ .timer) : Same s (s.wakeUp w) p := by
  rw [State.wakeUp]
  cases hl : s.lists w with
  | nil => exact ⟨rfl, rfl, rfl, id, Or.inl⟩
  | cons q l =>
    refine same_wake fun hc => not_listed h hp hw ?_
    rw [hl, hc]
    exact List.mem_cons_self

theorem Same.trans {r : State} (h : Same s r p) (h' : Same r s' p) : Same s s' p := by
  refine ⟨h'.place.trans h.place, h'.life.trans h.life, h'.expires.trans h.expires,
    fun hin => h'.listed (h.listed hin), fun hp => ?_⟩
  rcases h'.holder hp with hholder | hrun
  · exact h.holder hholder
  · exact Or.inr (h.life ▸ hrun)

theorem same_of (hplace : s'.place p = s.place p) (hlife : s'.life p = s.life p)
    (hexpires : s'.expires p = s.expires p) (hlist : p ∈ s.lists .timer → p ∈ s'.lists .timer)
    (hphase : s'.phase = s.phase) (hcurrent : s'.current = s.current) : Same s s' p := by
  refine ⟨hplace, hlife, hexpires, hlist, fun hp => Or.inl ?_⟩
  rw [State.holder, hphase, hcurrent] at hp
  exact hp

theorem same_refl (s : State) (p : ℕ) : Same s s p := same_of rfl rfl rfl id rfl rfl

theorem Same.place_to {r : State} (h : Same s r p) (hpc : p ≠ r.current) (x : Place) : Same s (r.setPlace x) p :=
  h.trans (same_of (Function.update_of_ne hpc _ _) rfl rfl id rfl rfl)

theorem same_life (hpc : p ≠ s.current) (y : Life) : Same s (s.setLife s.current y) p :=
  same_of rfl (Function.update_of_ne hpc _ _) rfl id rfl rfl

theorem same_link (w : Where) : Same s (s.link w) p := by
  refine same_of rfl rfl rfl (fun hin => ?_) rfl rfl
  change p ∈ Function.update s.lists w (s.lists w++[s.current]) .timer
  by_cases hw : Where.timer = w
  · rw [← hw, Function.update_self]
    exact List.mem_append_left _ hin
  · rw [Function.update_of_ne hw]
    exact hin

theorem same_unlink (hpc : p ≠ s.current) (w : Where) : Same s (s.unlink w) p := by
  refine same_of rfl rfl rfl (fun hin => ?_) rfl rfl
  change p ∈ Function.update s.lists w ((s.lists w).erase s.current) .timer
  by_cases hw : Where.timer = w
  · rw [← hw, Function.update_self]
    exact (List.mem_erase_of_ne hpc).mpr hin
  · rw [Function.update_of_ne hw]
    exact hin

theorem same_up (h : Lists s) (hp : InSleep (s.place p)) (k : ℕ) : Same s (s.up k) p := by
  rw [State.up]
  cases hl : s.lists (.sem k) with
  | nil => exact same_of rfl rfl rfl id rfl rfl
  | cons q l =>
    have hpq : p ≠ q := by
      rintro rfl
      exact not_listed h hp (w := .sem k) (by simp) (hl ▸ List.mem_cons_self)
    have hleft : Same s { s with
        lists := Function.update s.lists (.sem k) l
        isUp := Function.update s.isUp q true } p := by
      refine same_of rfl rfl rfl (fun hin => ?_) rfl rfl
      change p ∈ Function.update s.lists (.sem k) l .timer
      rw [Function.update_of_ne (by simp)]
      exact hin
    exact hleft.trans (same_wake hpq)

theorem same_choose (hp : p ≠ 0) : Same s s.choose p := by
  rw [State.choose]
  split
  · exact same_of rfl rfl rfl id rfl rfl
  · refine ⟨rfl, rfl, rfl, id, fun hholder => Or.inr ?_⟩
    have hnext : s.next = p := hholder
    rcases next_spec s with ⟨hzero, -⟩ | ⟨-, hrun, -⟩
    · exact absurd (hnext.symm.trans hzero) hp
    · exact hnext ▸ hrun

theorem same_fork (hpq : p ≠ q) (n : ℤ) : Same s (s.fork q n) p := by
  rw [State.fork, addProcessToRq_eq]
  refine same_of (newChild_place_other (n := n) hpq) (newChild_life_other (n := n) hpq) rfl (fun hin => ?_) rfl rfl
  change p ∈ Function.update s.lists (.child q) [] .timer
  rw [Function.update_of_ne (by simp)]
  exact hin

theorem same_release (hpq : p ≠ q) : Same s (s.release q) p :=
  same_of rfl (Function.update_of_ne hpq _ _) rfl id rfl rfl

/-- The steps of a process in `sleep`. -/
inductive Own (s : State) : RunQueue.Event → State → Prop
  | doze : s.place s.current = .joined .timer →
      Own s .doze ((s.setLife s.current .sleep).setPlace (.asleep .timer))
  | schedule : s.place s.current = .asleep .timer → Own s .schedule (s.setPlace (.away .timer)).choose
  | leave : s.place s.current = .away .timer → Own s .leave ((s.unlink .timer).setPlace .out)

theorem ne_current {x : Place} (hp : InSleep (s.place p)) (hplace : s.place s.current = x) (hx : ¬ InSleep x) :
    p ≠ s.current := by
  rintro rfl
  exact hx (hplace ▸ hp)

theorem step_same {e : RunQueue.Event} (h : Lists s) (hp : InSleep (s.place p)) (hzero : p ≠ 0)
    (he : e ≠ .tick) (hs : RunQueue.Step s e s') :
    Same s s' p ∨ (p = s.current ∧ s.phase = .normal ∧ Own s e s') := by
  have hne : ∀ {x}, s.place s.current = x → ¬ InSleep x → p ≠ s.current := fun hx hno => ne_current hp hx hno
  cases hs with
  | wake _ htimer => exact Or.inl (same_wakeUp h hp htimer)
  | tick => exact absurd rfl he
  | up => exact Or.inl (same_up h hp _)
  | schedule hphase hcalls =>
    by_cases hpc : p = s.current
    · right
      refine ⟨hpc, hphase, ?_⟩
      rw [hpc] at hp
      rcases hp with hp | hp | hp
      · rw [hp] at hcalls
        cases hcalls
      · rw [hp]
        exact .schedule hp
      · rw [hp] at hcalls
        cases hcalls
    · exact Or.inl (((same_refl s p).place_to hpc _).trans (same_choose hzero))
  | switchTo hphase =>
    refine Or.inl ⟨rfl, rfl, rfl, id, fun hholder => Or.inl ?_⟩
    rw [State.holder, hphase]
    exact hholder
  | tail hphase =>
    refine Or.inl ⟨rfl, rfl, rfl, id, fun hholder => Or.inl ?_⟩
    rw [State.holder, hphase]
    exact hholder
  | sleepOn _ hplace => exact Or.inl ((same_link _).place_to (hne hplace (by decide)) _)
  | @sleep ticks _ hplace =>
    have hpc := hne hplace (by decide)
    have hadd : Same s { s with expires := Function.update s.expires s.current ticks } p :=
      same_of rfl rfl (Function.update_of_ne hpc _ _) id rfl rfl
    exact Or.inl ((hadd.trans (same_link .timer)).place_to hpc _)
  | @doze w hphase hplace =>
    by_cases hpc : p = s.current
    · obtain rfl : w = .timer := by
        rw [hpc, hplace] at hp
        simpa [InSleep] using hp
      exact Or.inr ⟨hpc, hphase, .doze hplace⟩
    · exact Or.inl ((same_life hpc _).place_to hpc _)
  | @leave w hphase hplace _ =>
    by_cases hpc : p = s.current
    · obtain rfl : w = .timer := by
        rw [hpc, hplace] at hp
        simpa [InSleep] using hp
      exact Or.inr ⟨hpc, hphase, .leave hplace⟩
    · exact Or.inl ((same_unlink hpc _).place_to hpc _)
  | @down k _ hplace =>
    have hpc := hne hplace (by decide)
    rw [State.down]
    split
    · exact Or.inl (same_of rfl rfl rfl id rfl rfl)
    · have hup : Same s { s with isUp := Function.update s.isUp s.current false } p :=
        same_of rfl rfl rfl id rfl rfl
      have hlife : Same s ((State.link { s with isUp := Function.update s.isUp s.current false } (.sem k)).setLife
          s.current .sleep) p :=
        (hup.trans (same_link (.sem k))).trans (same_of rfl (Function.update_of_ne hpc _ _) rfl id rfl rfl)
      exact Or.inl (hlife.place_to hpc _)
  | recheck _ hplace =>
    have hpc := hne hplace (by simp [InSleep])
    rw [State.recheck]
    split
    · exact Or.inl ((same_refl s p).place_to hpc _)
    · exact Or.inl ((same_life hpc _).place_to hpc _)
  | waitStart _ hplace => exact Or.inl ((same_link _).place_to (hne hplace (by decide)) _)
  | waitDoze _ hplace =>
    have hpc : p ≠ s.current := by
      rcases hplace with hplace | hplace
      · exact hne hplace (by simp [InSleep])
      · exact hne hplace (by simp [InSleep])
    exact Or.inl ((same_life hpc _).place_to hpc _)
  | @walk pid _ hplace =>
    have hpc := hne hplace (by simp [InSleep])
    rcases walk_cases s pid with ⟨z, -, hz, hwalk⟩ | ⟨x, -, hwalk⟩
    · have hpz : p ≠ z := by
        rintro rfl
        rcases h.zombie p hz with hd | hd
        · rw [hd] at hp
          exact absurd hp (by decide)
        · rw [hd] at hp
          exact absurd hp (by decide)
      rw [hwalk]
      exact Or.inl ((same_release hpz).place_to hpc _)
    · rw [hwalk]
      exact Or.inl ((same_refl s p).place_to hpc _)
  | waitWake _ hplace =>
    have hpc := hne hplace (by simp [InSleep])
    exact Or.inl ((same_life hpc _).place_to hpc _)
  | waitLeave _ hplace =>
    have hpc := hne hplace (by simp [InSleep])
    exact Or.inl ((same_unlink hpc _).place_to hpc _)
  | stop _ hplace =>
    have hpc := hne hplace (by decide)
    exact Or.inl ((same_life hpc _).place_to hpc _)
  | @fork q n _ _ hq =>
    have hpq : p ≠ q := by
      rintro rfl
      refine h.free p hq .timer ?_
      rcases hp with hp | hp | hp
      all_goals
        rw [hp]
        rfl
    exact Or.inl (same_fork hpq n)
  | exit _ hplace _ =>
    have hpc := hne hplace (by decide)
    exact Or.inl (same_of (Function.update_of_ne hpc _ _) (exit_life_other hpc) rfl id rfl rfl)
  | notify _ hplace _ =>
    have hpc := hne hplace (by decide)
    refine Or.inl ((same_wakeUp h hp (by simp)).place_to ?_ _)
    rw [(wakeUp_same s _).2]
    exact hpc

theorem outside_place {r : State} {x : Place} (hplace : r.place = s.place) (hcurrent : r.current = s.current)
    (hx : InSleep x → InSleep (s.place s.current)) (hp : InSleep ((r.setPlace x).place p)) :
    InSleep (s.place p) := by
  have hsame : (r.setPlace x).place = Function.update s.place s.current x := by
    rw [State.setPlace, hplace, hcurrent]
  rw [hsame] at hp
  by_cases hpc : p = s.current
  · rw [hpc, Function.update_self] at hp
    rw [hpc]
    exact hx hp
  · rw [Function.update_of_ne hpc] at hp
    exact hp

theorem wakeUp_place (s : State) (w : Where) : (s.wakeUp w).place = s.place := by
  rw [State.wakeUp]
  split
  · rfl
  · rw [wakeUpProcess_eq]

theorem choose_place (s : State) : s.choose.place = s.place := by
  rw [State.choose]
  split
  · rfl
  · rfl

/-- Only `sleep` comes to a place in it from outside. -/
theorem step_outside {e : RunQueue.Event} (h : Lists s) (he : ∀ ticks, e ≠ .sleep ticks)
    (hs : RunQueue.Step s e s') (hp : InSleep (s'.place p)) : InSleep (s.place p) := by
  have hno : ∀ {x : Place}, ¬ InSleep x → InSleep x → InSleep (s.place s.current) := fun hx hc => absurd hc hx
  cases hs with
  | wake =>
    rw [wakeUp_place] at hp
    exact hp
  | tick =>
    rw [(tick_spec h p).1] at hp
    exact hp
  | @up k =>
    rw [State.up] at hp
    split at hp
    · exact hp
    · rw [wakeUpProcess_eq] at hp
      exact hp
  | schedule _ hcalls =>
    rw [choose_place] at hp
    refine outside_place rfl rfl (fun hx => ?_) hp
    generalize s.place s.current = x at hx hcalls ⊢
    cases x with
    | asleep w =>
      obtain rfl : w = .timer := by simpa [InSleep, Place.afterSchedule] using hx
      decide
    | _ => first | exact hx | exact absurd hx (by simp [InSleep, Place.afterSchedule])
  | switchTo => exact hp
  | tail => exact hp
  | sleepOn => exact outside_place rfl rfl (hno (by simp [InSleep])) hp
  | sleep => exact absurd rfl (he _)
  | @doze w _ hplace =>
    refine outside_place (r := s.setLife s.current .sleep) rfl rfl (fun hx => ?_) hp
    obtain rfl : w = .timer := by simpa [InSleep] using hx
    rw [hplace]
    decide
  | leave => exact outside_place (r := s.unlink _) rfl rfl (hno (by decide)) hp
  | @down k =>
    rw [State.down] at hp
    split at hp
    · exact hp
    · refine outside_place (r := State.setLife (State.link { s with isUp := _ } _) _ _) ?_ ?_ (hno (by simp [InSleep])) hp
      · rfl
      · rfl
  | recheck =>
    rw [State.recheck] at hp
    split at hp
    · exact outside_place rfl rfl (hno (by decide)) hp
    · exact outside_place (r := State.setLife _ _ _) rfl rfl (hno (by simp [InSleep])) hp
  | waitStart => exact outside_place (r := State.link _ _) rfl rfl (hno (by simp [InSleep])) hp
  | waitDoze => exact outside_place (r := State.setLife _ _ _) rfl rfl (hno (by simp [InSleep])) hp
  | @walk pid =>
    rcases walk_cases s pid with ⟨z, -, -, hwalk⟩ | ⟨x, hx, hwalk⟩
    · rw [hwalk] at hp
      exact outside_place (r := s.release z) rfl rfl (hno (by decide)) hp
    · rw [hwalk] at hp
      refine outside_place rfl rfl (hno ?_) hp
      rcases hx with rfl | rfl
      · decide
      · simp [InSleep]
  | waitWake => exact outside_place (r := State.setLife _ _ _) rfl rfl (hno (by decide)) hp
  | waitLeave => exact outside_place (r := State.unlink _ _) rfl rfl (hno (by decide)) hp
  | stop => exact outside_place (r := State.setLife _ _ _) rfl rfl (hno (by decide)) hp
  | @fork q n =>
    rw [State.fork, addProcessToRq_eq] at hp
    change InSleep (Function.update s.place q .out p) at hp
    by_cases hpq : p = q
    · rw [hpq, Function.update_self] at hp
      exact absurd hp (by decide)
    · rw [Function.update_of_ne hpq] at hp
      exact hp
  | exit =>
    change InSleep (Function.update s.place s.current .dying p) at hp
    by_cases hpc : p = s.current
    · rw [hpc, Function.update_self] at hp
      exact absurd hp (by decide)
    · rw [Function.update_of_ne hpc] at hp
      exact hp
  | notify => exact outside_place (wakeUp_place s _) (wakeUp_same s _).2 (hno (by decide)) hp

end Steps

/-! ## Runs -/

/-- The timer and the state of a process that sleeps. -/
structure Timed (s : State) (p : ℕ) (c : Call) : Prop where
  expires : s.expires p = c.seconds*hz-c.ticks
  fired : c.fired = if c.ticks < c.seconds*hz then 0 else 1
  woken : c.seconds*hz ≤ c.ticks → s.life p = .running
  dozes : c.ticks < c.seconds*hz → s.place p ≠ .joined .timer → s.life p = .sleep
  away : c.ticks < c.seconds*hz → s.place p = .away .timer → s.holder ≠ p

/-- What carries the run. -/
structure Clocked (s : State) (g : History) : Prop where
  steady : Steady s
  idle : ¬ InSleep (s.place 0)
  listed : ∀ p, InSleep (s.place p) → p ∈ s.lists .timer
  timed : ∀ p, InSleep (s.place p) → ∃ c, g p = some c ∧ Timed s p c
  returned : ∀ p c, g p = some c → ¬ InSleep (s.place p) → c.seconds*hz ≤ c.ticks ∧ c.fired = 1

section Runs

variable {s s' : State} {g : History} {p : ℕ} {c : Call}

theorem Clocked.call (h : Clocked s g) (hc : g p = some c) (hp : InSleep (s.place p)) : Timed s p c := by
  obtain ⟨c', hc', htimed⟩ := h.timed p hp
  obtain rfl := Option.some.inj (hc'.symm.trans hc)
  exact htimed

theorem Clocked.away (h : Clocked s g) (hp : InSleep (s.place p)) : p ≠ 0 := by
  rintro rfl
  exact h.idle hp

theorem insleep_of_listed (h : Lists s) (hp : p ∈ s.lists .timer) : InSleep (s.place p) := by
  have hat := h.members .timer p hp
  generalize s.place p = x at hat
  cases x with
  | joined w => exact Or.inl (congrArg Place.joined hat.symm)
  | asleep w => exact Or.inr (Or.inl (congrArg Place.asleep hat.symm))
  | away w => exact Or.inr (Or.inr (congrArg Place.away hat.symm))
  | _ => cases hat

theorem punctual_of (h : Clocked s g) : Punctual s g where
  called := by
    intro p hp hnone
    obtain ⟨c, hc, -⟩ := h.timed p hp
    rw [hnone] at hc
    cases hc
  fired := fun p c hc hp => (h.call hc hp).fired
  woken := by
    intro p c hc hp hover
    have hrun := (h.call hc hp).woken hover
    exact ⟨hrun, h.steady.running p (h.away hp) hrun⟩
  returned := h.returned
  off := fun p hp hin => hp (insleep_of_listed h.steady.lists hin)
  expired := by
    intro p hin hsleep hzero
    obtain ⟨c, -, htimed⟩ := h.timed p (insleep_of_listed h.steady.lists hin)
    have hrun := htimed.woken (by have := htimed.expires; omega)
    rw [hsleep] at hrun
    cases hrun

theorem timed_same (h : Timed s p c) (hsame : Same s s' p) : Timed s' p c where
  expires := hsame.expires.trans h.expires
  fired := h.fired
  woken := fun hover => hsame.life.trans (h.woken hover)
  dozes := by
    intro hearly hplace
    rw [hsame.place] at hplace
    exact hsame.life.trans (h.dozes hearly hplace)
  away := by
    intro hearly hplace hholder
    rw [hsame.place] at hplace
    rcases hsame.holder hholder with hold | hrun
    · exact h.away hearly hplace hold
    · have hsleep := h.dozes hearly (by rw [hplace]; decide)
      rw [hrun] at hsleep
      cases hsleep

theorem clocked_tick (h : Clocked s g) : Clocked s.tick (g.next s (.other .tick)) := by
  have hspec := tick_spec h.steady.lists
  have hplace : s.tick.place = s.place := (hspec 0).1
  have hlists : s.tick.lists = s.lists := (hspec 0).2.1
  have hholder : s.tick.holder = s.holder := (hspec 0).2.2.1
  refine ⟨steady_tick h.steady, ?_, fun p hp => ?_, fun p hp => ?_, fun p c hc hp => ?_⟩
  · rw [hplace]
    exact h.idle
  · rw [hplace] at hp
    rw [hlists]
    exact h.listed p hp
  · rw [hplace] at hp
    obtain ⟨c, hc, htimed⟩ := h.timed p hp
    obtain ⟨-, -, -, hlife, hexpires⟩ := hspec p
    have hin := h.listed p hp
    rw [if_pos hin] at hexpires
    have hcount := htimed.expires
    have hfired := htimed.fired
    refine ⟨⟨c.seconds, c.ticks+1, if fires s p then c.fired+1 else c.fired⟩, ?_, ?_⟩
    · change (if InSleep (s.place p) then _ else _) = _
      rw [if_pos hp, hc]
      rfl
    · have hfires : fires s p ↔ c.ticks+1 = c.seconds*hz := by
        rw [fires]
        constructor
        · rintro ⟨-, hsome, hlast⟩
          omega
        · intro hlast
          exact ⟨hin, by omega, by omega⟩
      refine ⟨?_, ?_, fun hover => ?_, fun hearly hjoined => ?_, fun hearly haway => ?_⟩
      · rw [hexpires, hcount]
        exact Nat.sub_sub _ _ _
      · dsimp only at hfired ⊢
        by_cases hlast : c.ticks+1 = c.seconds*hz
        · rw [if_pos (hfires.mpr hlast), hfired, if_pos (by omega), if_neg (by omega)]
        · rw [if_neg (fun hc => hlast (hfires.mp hc)), hfired]
          by_cases hearly : c.ticks < c.seconds*hz
          · rw [if_pos hearly, if_pos (by omega)]
          · rw [if_neg hearly, if_neg (by omega)]
      · dsimp only at hover
        rw [hlife]
        by_cases hlast : c.ticks+1 = c.seconds*hz
        · exact if_pos (hfires.mpr hlast)
        · rw [if_neg (fun hc => hlast (hfires.mp hc))]
          exact htimed.woken (by omega)
      · dsimp only at hearly
        rw [hplace] at hjoined
        rw [hlife, if_neg (fun hc => by have := hfires.mp hc; omega)]
        exact htimed.dozes (by omega) hjoined
      · dsimp only at hearly
        rw [hplace] at haway
        rw [hholder]
        exact htimed.away (by omega) haway
  · rw [hplace] at hp
    change (if InSleep (s.place p) then _ else _) = _ at hc
    rw [if_neg hp] at hc
    exact h.returned p c hc hp

theorem clocked_sleep (h : Clocked s g) {seconds : ℕ} (hsome : 0 < seconds) (hfits : seconds*hz < 2^32)
    (hzero : s.current ≠ 0) (hs : RunQueue.Step s (.sleep (sysSleep seconds)) s') :
    Clocked s' (g.next s (.sysSleep seconds)) := by
  have hsteady := steady_step h.steady hs
  have hticks : sysSleep seconds = seconds*hz := by
    rw [sysSleep, Nat.mod_eq_of_lt (by omega : seconds*hz < 2^64), Nat.mod_eq_of_lt hfits]
  have hother : ∀ p, p ≠ s.current → g.next s (.sysSleep seconds) p = g p := fun p hp =>
    Function.update_of_ne hp _ _
  have hsame : ∀ p, p ≠ s.current → InSleep (s.place p) → Same s s' p := by
    intro p hpc hp
    rcases step_same h.steady.lists hp (h.away hp) (by simp) hs with hsame | ⟨hc, -⟩
    · exact hsame
    · exact absurd hc hpc
  have hold : ∀ p, p ≠ s.current → s'.place p = s.place p := by
    intro p hpc
    cases hs
    exact Function.update_of_ne hpc _ _
  have hself : s'.place s.current = .joined .timer := by
    cases hs
    exact Function.update_self ..
  refine ⟨hsteady, ?_, fun p hp => ?_, fun p hp => ?_, fun p c hc hp => ?_⟩
  · rw [hold 0 hzero.symm]
    exact h.idle
  · by_cases hpc : p = s.current
    · cases hs
      change p ∈ Function.update s.lists .timer (s.lists .timer++[s.current]) .timer
      rw [Function.update_self, hpc]
      exact List.mem_append_right _ (List.mem_singleton_self _)
    · rw [hold p hpc] at hp
      exact (hsame p hpc hp).listed (h.listed p hp)
  · by_cases hpc : p = s.current
    · subst hpc
      refine ⟨⟨seconds, 0, 0⟩, Function.update_self .., ?_, ?_, fun hover => ?_, fun _ hjoined => ?_, fun _ haway => ?_⟩
      · cases hs
        exact (Function.update_self ..).trans hticks
      · exact (if_pos (Nat.mul_pos hsome (by decide))).symm
      · have hpos : 0 < seconds*hz := Nat.mul_pos hsome (by decide)
        dsimp only at hover
        omega
      · exact absurd hself hjoined
      · rw [hself] at haway
        cases haway
    · rw [hold p hpc] at hp
      obtain ⟨c, hc, htimed⟩ := h.timed p hp
      exact ⟨c, (hother p hpc).trans hc, timed_same htimed (hsame p hpc hp)⟩
  · by_cases hpc : p = s.current
    · rw [hpc, hself] at hp
      exact absurd (Or.inl rfl) hp
    · rw [hold p hpc] at hp
      exact h.returned p c ((hother p hpc).symm.trans hc) hp

theorem next_other {e : RunQueue.Event} (he : e ≠ .tick) : g.next s (.other e) = g := by
  cases e with
  | tick => exact absurd rfl he
  | _ => rfl

/-- A process does not leave `schedule` before its timer has fired. -/
theorem timed_own {e : RunQueue.Event} (h : Timed s s.current c) (hin : s.current ∈ s.lists .timer)
    (hallowed : InTime s (.other e)) (hzero : s.current ≠ 0) (hphase : s.phase = .normal) (hs : Own s e s') :
    (InSleep (s'.place s.current) ∧ s.current ∈ s'.lists .timer ∧ Timed s' s.current c) ∨
      (¬ InSleep (s'.place s.current) ∧ c.seconds*hz ≤ c.ticks ∧ c.fired = 1) := by
  cases hs with
  | doze hplace =>
    have hself : ((s.setLife s.current .sleep).setPlace (.asleep .timer)).place s.current = .asleep .timer :=
      Function.update_self ..
    have hlife : ((s.setLife s.current .sleep).setPlace (.asleep .timer)).life s.current = .sleep :=
      Function.update_self ..
    have hearly : c.ticks < c.seconds*hz := by
      have hsome : s.expires s.current ≠ 0 := hallowed hplace
      rw [h.expires] at hsome
      omega
    refine Or.inl ⟨Or.inr (Or.inl hself), hin, h.expires, h.fired, fun hover => ?_, fun _ _ => hlife, fun _ haway => ?_⟩
    · omega
    · rw [hself] at haway
      cases haway
  | schedule hplace =>
    have hself : (s.setPlace (.away .timer)).choose.place s.current = .away .timer := by
      rw [choose_place]
      exact Function.update_self ..
    have hlife : (s.setPlace (.away .timer)).choose.life = s.life := (choose_same _).1
    have hasleep : c.ticks < c.seconds*hz → s.life s.current = .sleep := fun hearly =>
      h.dozes hearly (by rw [hplace]; decide)
    refine Or.inl ⟨Or.inr (Or.inr hself), ?_, ?_, h.fired, fun hover => ?_, fun hearly _ => ?_, fun hearly _ hholder => ?_⟩
    · rw [State.choose]
      split
      · exact hin
      · exact hin
    · refine Eq.trans ?_ h.expires
      rw [State.choose]
      split
      · rfl
      · rfl
    · rw [hlife]
      exact h.woken hover
    · rw [hlife]
      exact hasleep hearly
    · -- `schedule` chooses a process that can run
      have hnext : (s.setPlace (.away .timer)).next ≠ (s.setPlace (.away .timer)).current := by
        intro hc
        change _ = s.current at hc
        rcases next_spec (s.setPlace (.away .timer)) with ⟨hidle, -⟩ | ⟨-, hrun, -⟩
        · exact hzero (hc.symm.trans hidle)
        · rw [hc] at hrun
          have hsleep := hasleep hearly
          rw [show s.life s.current = .running from hrun] at hsleep
          cases hsleep
      rw [State.choose, if_neg hnext] at hholder
      exact hnext hholder
  | leave hplace =>
    have hself : ((s.unlink .timer).setPlace .out).place s.current = .out := Function.update_self ..
    have hover : c.seconds*hz ≤ c.ticks := by
      by_contra hearly
      exact h.away (Nat.lt_of_not_le hearly) hplace (holder_normal hphase)
    refine Or.inr ⟨?_, hover, ?_⟩
    · rw [hself]
      decide
    · rw [h.fired]
      exact if_neg (Nat.not_lt.mpr hover)

theorem clocked_other {e : RunQueue.Event} (h : Clocked s g) (hallowed : InTime s (.other e)) (htick : e ≠ .tick)
    (hsleep : ∀ ticks, e ≠ .sleep ticks) (hs : RunQueue.Step s e s') : Clocked s' g := by
  have hsame : ∀ p, InSleep (s.place p) → Same s s' p ∨ (p = s.current ∧ s.phase = .normal ∧ Own s e s') :=
    fun p hp => step_same h.steady.lists hp (h.away hp) htick hs
  have houtside : ∀ p, InSleep (s'.place p) → InSleep (s.place p) :=
    fun p hp => step_outside h.steady.lists hsleep hs hp
  -- a process that sleeps before and after the step, and one that has left
  have hall : ∀ p c, g p = some c → InSleep (s.place p) →
      (InSleep (s'.place p) ∧ p ∈ s'.lists .timer ∧ Timed s' p c) ∨
        (¬ InSleep (s'.place p) ∧ c.seconds*hz ≤ c.ticks ∧ c.fired = 1) := by
    intro p c hc hp
    have htimed := h.call hc hp
    rcases hsame p hp with hsame | ⟨rfl, hphase, hown⟩
    · refine Or.inl ⟨?_, hsame.listed (h.listed p hp), timed_same htimed hsame⟩
      rw [hsame.place]
      exact hp
    · exact timed_own htimed (h.listed _ hp) hallowed (h.away hp) hphase hown
  refine ⟨steady_step h.steady hs, fun hp => h.idle (houtside 0 hp), fun p hp => ?_, fun p hp => ?_, fun p c hc hp => ?_⟩
  · obtain ⟨c, hc, -⟩ := h.timed p (houtside p hp)
    rcases hall p c hc (houtside p hp) with ⟨-, hin, -⟩ | ⟨hno, -⟩
    · exact hin
    · exact absurd hp hno
  · obtain ⟨c, hc, -⟩ := h.timed p (houtside p hp)
    rcases hall p c hc (houtside p hp) with ⟨-, -, htimed⟩ | ⟨hno, -⟩
    · exact ⟨c, hc, htimed⟩
    · exact absurd hp hno
  · by_cases hbefore : InSleep (s.place p)
    · rcases hall p c hc hbefore with ⟨hafter, -⟩ | ⟨-, hover⟩
      · exact absurd hafter hp
      · exact hover
    · exact h.returned p c hc hbefore

theorem clocked_step {e : Event} (h : Clocked s g) (hallowed : InTime s e) (hs : Step s e s') :
    Clocked s' (g.next s e) := by
  cases hs with
  | sysSleep _ hzero hs => exact clocked_sleep h hallowed.1 hallowed.2 hzero hs
  | @other _ e hsleep hs =>
    by_cases htick : e = .tick
    · subst htick
      cases hs
      exact clocked_tick h
    · rw [next_other htick]
      exact clocked_other h hallowed htick hsleep hs

theorem clocked_run (h : Run InTime s g) : Clocked s g := by
  induction h with
  | start count =>
    have hout : ∀ p, ¬ InSleep (start.place p) := by
      intro p
      change ¬ InSleep .out
      decide
    exact ⟨steady_start count, hout 0, fun p hp => absurd hp (hout p), fun p hp => absurd hp (hout p),
      fun p c hc => nomatch hc⟩
  | step _ hallowed hs ih => exact clocked_step ih hallowed hs

end Runs

/-- The first process runs. -/
def running : State := ((((start.fork 1 1).setPlace .out).choose.switchTo 1).scheduleTail 0)

theorem running_run (allowed : State → Event → Prop)
    (hall : ∀ s e, e ≠ .doze → (∀ ticks, e ≠ .sleep ticks) → allowed s (.other e)) :
    Run allowed running fun _ => none := by
  have h₁ : Run allowed (start.fork 1 1) fun _ => none :=
    (Run.start start.count).step (hall _ (.fork 1 1) (by simp) (by simp)) (.other (by simp) (.fork rfl rfl rfl))
  have h₂ := h₁.step (hall _ .schedule (by simp) (by simp)) (.other (by simp) (.schedule rfl rfl))
  have h₃ := h₂.step (hall _ .switchTo (by simp) (by simp)) (.other (by simp) (.switchTo (n := 1) rfl))
  exact h₃.step (hall _ .tail (by simp) (by simp)) (.other (by simp) (.tail (p := 0) rfl))

/-- The call of the first process, and its state set. -/
def asleep (seconds : ℕ) : State :=
  let s := ((running.addTimer (sysSleep seconds)).setPlace (.joined .timer))
  (s.setLife 1 .sleep).setPlace (.asleep .timer)

theorem asleep_run (allowed : State → Event → Prop) (seconds : ℕ) (hsmall : seconds < 2^64)
    (hrun : Run allowed running fun _ => none) (hcall : allowed running (.sysSleep seconds))
    (hdoze : allowed ((running.addTimer (sysSleep seconds)).setPlace (.joined .timer)) (.other .doze)) :
    Run allowed (asleep seconds) (Function.update (fun _ => none) 1 (some ⟨seconds, 0, 0⟩)) :=
  (hrun.step hcall (.sysSleep hsmall (by decide) (.sleep rfl rfl))).step hdoze (.other (by simp) (.doze rfl rfl))

end BabyOS.SleepTimers

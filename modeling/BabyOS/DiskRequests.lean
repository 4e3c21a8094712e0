import BabyOS.DiskQueue

/-!
# Every request is served in turn

Between the test of `m_current` and the lock the interrupt can drain the queue; the
request is then linked to a queue that nothing drains any more. Without such an
interrupt the queue only has requests while the drive is at work.
-/

set_option autoImplicit false

namespace BabyOS.DiskRequests
open BabyOS.DiskQueue

/-- The part of the invariant about the queue and the drive. -/
structure Queued (s : Ide) : Prop where
  numbers : s.submitted.map (·.number) = List.range s.submitted.length
  order : s.submitted = s.sent++s.reqList++s.place.request.toList
  became : s.became = s.sent++s.place.unsent.toList
  sent : s.sent = s.completed.map Prod.fst++s.device.toList
  marked : ∀ x ∈ s.completed, x.2 = x.1.buffer
  working : s.place.unsent = none → s.device = s.current
  unsent : ∀ r, s.place.unsent = some r → s.current = some r ∧ s.device = none
  queue : s.device = none → s.reqList = []
  free : ∀ r, s.place = .tested r true → s.device = none
  taken : ∀ r, s.place = .tested r false → s.device ≠ none

def InFlight (s : Ide) (r : Request) : Prop := r ∈ s.reqList ∨ s.device = some r

/-- The part about those who wait. -/
structure Waits (s : Ide) : Prop where
  hand : ∀ r, s.place.request = some r → s.waiting r.proc = none ∧ s.holder r.buffer = some r.proc
  flight : ∀ r, InFlight s r → s.waiting r.proc = some r
  owner : ∀ p r, s.waiting p = some r → r.proc = p ∧ s.holder r.buffer = some p
  awake : ∀ p r, s.waiting p = some r → InFlight s r ∨ 0 < s.units r.buffer
  units : ∀ b, 0 < s.units b → s.units b = 1 ∧
    ∃ p r, s.waiting p = some r ∧ r.buffer = b ∧ ¬ InFlight s r

section Queue

variable {s s' : Ide} {c r : Request}

theorem Queued.once (h : Queued s) : (s.submitted.map (·.number)).Nodup := by
  rw [h.numbers]
  exact List.nodup_range

theorem Queued.nodup (h : Queued s) : s.submitted.Nodup := h.once.of_map _

/-- What the drive works on is no longer in the queue. -/
theorem Queued.device_left (h : Queued s) (hc : s.device = some c) : c ∉ s.reqList := by
  intro hmem
  have hnodup := h.nodup
  rw [h.order, h.sent, hc] at hnodup
  have hapart := (List.nodup_append.mp (List.nodup_append.mp hnodup).1).2.2
  exact hapart c (by simp) c hmem rfl

theorem Queued.current_of (h : Queued s) (hc : s.device = some c) : s.current = some c := by
  cases hun : s.place.unsent with
  | none => exact (h.working hun).symm.trans hc
  | some r =>
    have := (h.unsent r hun).2
    rw [hc] at this
    cases this

theorem served_of (h : Queued s) (hw : Waits s) : Served s where
  busy := by
    intro hne
    have hdev : s.device ≠ none := fun hc => hne (h.queue hc)
    refine ⟨?_, hdev⟩
    obtain ⟨c, hc⟩ := Option.ne_none_iff_exists'.mp hdev
    rw [h.current_of hc]
    exact Option.some_ne_none c
  order := h.order
  once := h.once
  became := h.became
  sent := h.sent
  marked := h.marked
  irq := fun _ hc => h.current_of hc
  awake := by
    intro p r hr
    rcases hw.awake p r hr with (hq | hd) | hu
    · exact Or.inl hq
    · exact Or.inr (Or.inl hd)
    · exact Or.inr (Or.inr hu)

/-! ## add_request -/

theorem queued_test (h : Queued s) (hout : s.place = .out) (hr : r.number = s.submitted.length) :
    Queued (s.test r) where
  numbers := by
    change (s.submitted++[r]).map _ = List.range (s.submitted++[r]).length
    rw [List.map_append, h.numbers, List.length_append, List.length_singleton, List.range_succ,
      List.map_singleton, hr]
  order := by
    change s.submitted++[r] = s.sent++s.reqList++[r]
    have := h.order
    rw [hout] at this
    rw [this]
    simp [Place.request]
  became := by
    have := h.became
    rw [hout] at this
    exact this
  sent := h.sent
  marked := h.marked
  working := fun _ => h.working (by rw [hout]; rfl)
  unsent := fun _ hc => nomatch hc
  queue := h.queue
  free := by
    intro q hq
    obtain ⟨-, hnone⟩ := Place.tested.inj hq
    rw [show (s.test r).device = s.device from rfl, h.working (by rw [hout]; rfl)]
    exact Option.isNone_iff_eq_none.mp hnone
  taken := by
    intro q hq
    obtain ⟨-, hsome⟩ := Place.tested.inj hq
    rw [show (s.test r).device = s.device from rfl, h.working (by rw [hout]; rfl)]
    intro hc
    rw [hc] at hsome
    cases hsome

theorem queued_take (h : Queued s) (hp : s.place = .tested r true) : Queued s.proceed := by
  have hs : s.proceed = { s.setCurrent (some r) with place := .taken r } := by
    rw [Ide.proceed, hp]
  have hdev := h.free r hp
  have horder := h.order
  have hbecame := h.became
  rw [hp] at horder hbecame
  rw [hs]
  refine ⟨h.numbers, horder, ?_, h.sent, h.marked, fun hc => (nomatch hc), ?_, h.queue,
    fun _ hc => (nomatch hc), fun _ hc => (nomatch hc)⟩
  · change s.became++[r] = s.sent++[r]
    rw [hbecame]
    simp [Place.unsent]
  · intro q hq
    exact ⟨hq, hdev⟩

theorem queued_link (h : Queued s) (hp : s.place = .tested r false) : Queued s.proceed := by
  have hs : s.proceed = { s with reqList := s.reqList++[r] }.wait r := by
    rw [Ide.proceed, hp]
  have hdev := h.taken r hp
  have horder := h.order
  have hbecame := h.became
  rw [hp] at horder hbecame
  rw [hs]
  refine ⟨h.numbers, ?_, hbecame, h.sent, h.marked, fun _ => h.working (by rw [hp]; rfl),
    fun _ hc => (nomatch hc), fun hc => absurd hc hdev, fun _ hc => (nomatch hc),
    fun _ hc => (nomatch hc)⟩
  change s.submitted = s.sent++(s.reqList++[r])++[]
  rw [horder]
  simp [Place.request]

theorem queued_send (h : Queued s) (hp : s.place = .taken r) : Queued s.proceed := by
  obtain ⟨hcur, hdev⟩ := h.unsent r (by rw [hp]; rfl)
  have hs : s.proceed = { s with device := some r, sent := s.sent++[r] }.wait r := by
    simp only [Ide.proceed, hp, Ide.doRequest, hcur]
  have horder := h.order
  have hbecame := h.became
  have hsent := h.sent
  rw [hp] at horder hbecame
  rw [h.queue hdev] at horder
  rw [hdev] at hsent
  rw [hs]
  refine ⟨h.numbers, ?_, ?_, ?_, h.marked, fun _ => hcur.symm, fun _ hc => (nomatch hc),
    fun hc => (nomatch hc), fun _ hc => (nomatch hc), fun _ hc => (nomatch hc)⟩
  · change s.submitted = (s.sent++[r])++s.reqList++[]
    rw [horder, h.queue hdev]
    simp [Place.request]
  · change s.became = (s.sent++[r])++[]
    rw [hbecame]
    simp [Place.unsent]
  · change s.sent++[r] = s.completed.map Prod.fst++[r]
    rw [hsent]
    simp

theorem queued_proceed (h : Queued s) : Queued s.proceed := by
  cases hp : s.place with
  | out =>
    rw [Ide.proceed, hp]
    exact h
  | tested r free =>
    cases free with
    | false => exact queued_link h hp
    | true => exact queued_take h hp
  | taken r => exact queued_send h hp

/-! ## The interrupt -/

/-- The state after an interrupt. -/
def afterIrq (s : Ide) (c : Request) : Ide :=
  { s.bufferDone c.buffer with
    current := s.reqList.head?
    reqList := s.reqList.tail
    device := s.reqList.head?
    became := s.became++s.reqList.head?.toList
    sent := s.sent++s.reqList.head?.toList
    completed := s.completed++[(c, c.buffer)] }

theorem endRequest_spec (hcur : s.current = some c) :
    (s.complete c).endRequest = some (afterIrq s c) := by
  have hcur' : (s.complete c).current = some c := hcur
  have hdone : (s.complete c).completed = s.completed++[(c, c.buffer)] := by
    change s.completed++s.current.toList.map _ = _
    rw [hcur]
    rfl
  rw [Ide.endRequest, hcur']
  refine congrArg some ?_
  cases hq : s.reqList with
  | nil =>
    simp [Ide.takeNext, Ide.setCurrent, Ide.bufferDone, Ide.doRequest, Ide.complete, afterIrq, hq, hcur]
  | cons x l =>
    simp [Ide.takeNext, Ide.setCurrent, Ide.bufferDone, Ide.doRequest, Ide.complete, afterIrq, hq, hcur]

theorem unsent_none (h : Queued s) (hc : s.device = some c) : s.place.unsent = none := by
  cases hun : s.place.unsent with
  | none => rfl
  | some r =>
    have := (h.unsent r hun).2
    rw [hc] at this
    cases this

theorem queued_irq (h : Queued s) (hc : s.device = some c)
    (hnot : ∀ r, s.place = .tested r false → s.reqList ≠ []) : Queued (afterIrq s c) := by
  have hun := unsent_none h hc
  have hlist : s.reqList.head?.toList++s.reqList.tail = s.reqList := by
    cases s.reqList with
    | nil => rfl
    | cons x l => rfl
  refine ⟨h.numbers, ?_, ?_, ?_, ?_, fun _ => rfl, ?_, ?_, ?_, ?_⟩
  · change s.submitted = s.sent++s.reqList.head?.toList++s.reqList.tail++s.place.request.toList
    rw [List.append_assoc s.sent, hlist]
    exact h.order
  · change s.became++s.reqList.head?.toList = s.sent++s.reqList.head?.toList++s.place.unsent.toList
    rw [h.became, hun]
    simp
  · change s.sent++s.reqList.head?.toList =
      (s.completed++[(c, c.buffer)]).map Prod.fst++s.reqList.head?.toList
    rw [h.sent, hc]
    simp
  · intro x hx
    rcases List.mem_append.mp hx with hx | hx
    · exact h.marked x hx
    · obtain rfl := List.mem_singleton.mp hx
      rfl
  · intro r hr
    rw [show (afterIrq s c).place = s.place from rfl, hun] at hr
    cases hr
  · intro hnone
    change s.reqList.tail = []
    rw [List.head?_eq_none_iff.mp hnone]
    rfl
  · intro r hr
    have := h.free r hr
    rw [hc] at this
    cases this
  · intro r hr hnone
    exact hnot r hr (List.head?_eq_none_iff.mp hnone)

theorem queued_start : Queued start := by
  constructor <;> simp [start, Place.request, Place.unsent]

theorem queued_step {e : Event} (h : Queued s) (ha : NotBetween s e) (hstep : Step s e s') :
    Queued s' := by
  cases hstep with
  | submit hout _ _ hr => exact queued_test h hout hr
  | proceed _ => exact queued_proceed h
  | irq hc hs =>
    rw [endRequest_spec (h.current_of hc)] at hs
    obtain rfl := Option.some.inj hs
    exact queued_irq h hc ha
  | resume | lock | unlock | reuse =>
    exact ⟨h.numbers, h.order, h.became, h.sent, h.marked, h.working, h.unsent, h.queue, h.free, h.taken⟩

/-! ## Those who wait -/

/-- Two who wait for one buffer are one. -/
theorem waits_same (hw : Waits s) {p p' : ℕ} {q q' : Request} (hq : s.waiting p = some q)
    (hq' : s.waiting p' = some q') (hb : q.buffer = q'.buffer) : q = q' := by
  have hp := (hw.owner p q hq).2
  rw [hb, (hw.owner p' q' hq').2] at hp
  rw [← Option.some.inj hp, hq'] at hq
  exact (Option.some.inj hq).symm

/-- The queue and the drive stay. -/
theorem waits_frame (hw : Waits s) (hplace : s'.place.request = s.place.request)
    (hflight : ∀ q, InFlight s' q ↔ InFlight s q) (hholder : s'.holder = s.holder)
    (hunits : s'.units = s.units) (hwaiting : s'.waiting = s.waiting) : Waits s' := by
  constructor
  · rw [hplace, hwaiting, hholder]
    exact hw.hand
  · intro q hq
    rw [hwaiting]
    exact hw.flight q ((hflight q).mp hq)
  · rw [hwaiting, hholder]
    exact hw.owner
  · intro p q hq
    rw [hflight, hunits]
    rw [hwaiting] at hq
    exact hw.awake p q hq
  · intro b hb
    rw [hunits] at hb ⊢
    obtain ⟨hone, p, q, hq, hbuffer, hnot⟩ := hw.units b hb
    refine ⟨hone, p, q, ?_, hbuffer, fun hc => hnot ((hflight q).mp hc)⟩
    rw [hwaiting]
    exact hq

theorem waits_test (hw : Waits s) (hwait : s.waiting r.proc = none)
    (hhold : s.holder r.buffer = some r.proc) : Waits (s.test r) where
  hand := by
    intro q hq
    obtain rfl := Option.some.inj hq
    exact ⟨hwait, hhold⟩
  flight := hw.flight
  owner := hw.owner
  awake := hw.awake
  units := hw.units

/-- The request in hand goes to the queue or to the drive, and its process waits. -/
theorem waits_hand (hw : Waits s) (hr : s.place.request = some r)
    (hflight : ∀ q, InFlight s' q ↔ InFlight s q ∨ q = r) (hholder : s'.holder = s.holder)
    (hunits : s'.units = s.units) (hwaiting : s'.waiting = s.waiting) : Waits (s'.wait r) := by
  obtain ⟨hwait, hhold⟩ := hw.hand r hr
  have hself : (s'.wait r).waiting r.proc = some r := Function.update_self ..
  have hother : ∀ p, p ≠ r.proc → (s'.wait r).waiting p = s.waiting p := by
    intro p hp
    rw [← hwaiting]
    exact Function.update_of_ne hp _ _
  have hne : ∀ p q, s.waiting p = some q → p ≠ r.proc := by
    rintro p q hq rfl
    rw [hwait] at hq
    cases hq
  constructor
  · intro q hq
    cases hq
  · intro q hq
    rcases (hflight q).mp hq with hq | rfl
    · have := hw.flight q hq
      rw [hother _ (hne _ _ this)]
      exact this
    · exact hself
  · intro p q hq
    change q.proc = p ∧ s'.holder q.buffer = some p
    rw [hholder]
    by_cases hp : p = r.proc
    · subst hp
      rw [hself] at hq
      obtain rfl := Option.some.inj hq
      exact ⟨rfl, hhold⟩
    · rw [hother p hp] at hq
      exact hw.owner p q hq
  · intro p q hq
    change InFlight s' q ∨ 0 < s'.units q.buffer
    rw [hflight, hunits]
    by_cases hp : p = r.proc
    · subst hp
      rw [hself] at hq
      exact Or.inl (Or.inr (Option.some.inj hq).symm)
    · rw [hother p hp] at hq
      exact (hw.awake p q hq).imp_left Or.inl
  · intro b hb
    change 0 < s'.units b at hb
    rw [hunits] at hb
    obtain ⟨hone, p, q, hq, hbuffer, hnot⟩ := hw.units b hb
    have hp := hne p q hq
    refine ⟨(congrFun hunits b).trans hone, p, q, (hother p hp).trans hq, hbuffer, ?_⟩
    intro hc
    rcases (hflight q).mp hc with hc | rfl
    · exact hnot hc
    · exact hp (hw.owner p q hq).1.symm

theorem waits_proceed (h : Queued s) (hw : Waits s) : Waits s.proceed := by
  cases hp : s.place with
  | out =>
    rw [Ide.proceed, hp]
    exact hw
  | tested r free =>
    have hr : s.place.request = some r := by rw [hp]; rfl
    cases free with
    | true =>
      rw [Ide.proceed, hp]
      refine waits_frame hw ?_ (fun _ => Iff.rfl) rfl rfl rfl
      rw [hp]
      rfl
    | false =>
      rw [Ide.proceed, hp]
      refine waits_hand hw hr (fun q => ?_) rfl rfl rfl
      simp only [InFlight, List.mem_append, List.mem_singleton]
      tauto
  | taken r =>
    have hr : s.place.request = some r := by rw [hp]; rfl
    obtain ⟨hcur, hdev⟩ := h.unsent r (by rw [hp]; rfl)
    simp only [Ide.proceed, hp, Ide.doRequest, hcur]
    refine waits_hand hw hr (fun q => ?_) rfl rfl rfl
    simp only [InFlight, hdev, reduceCtorEq, or_false, Option.some.injEq]
    rw [eq_comm]

theorem flight_irq (h : Queued s) (hc : s.device = some c) (q : Request) :
    InFlight (afterIrq s c) q ↔ InFlight s q ∧ q ≠ c := by
  have hleft := h.device_left hc
  change q ∈ s.reqList.tail ∨ s.reqList.head? = some q ↔ (q ∈ s.reqList ∨ s.device = some q) ∧ q ≠ c
  rw [hc, Option.some.injEq]
  constructor
  · intro hq
    have hmem : q ∈ s.reqList := hq.elim List.mem_of_mem_tail List.mem_of_mem_head?
    refine ⟨Or.inl hmem, ?_⟩
    rintro rfl
    exact hleft hmem
  · rintro ⟨hq | rfl, hne⟩
    · cases hl : s.reqList with
      | nil =>
        rw [hl] at hq
        cases hq
      | cons x l =>
        rw [hl] at hq
        rcases List.mem_cons.mp hq with rfl | hq
        · exact Or.inr rfl
        · exact Or.inl hq
    · exact absurd rfl hne

theorem waits_irq (h : Queued s) (hw : Waits s) (hc : s.device = some c) : Waits (afterIrq s c) := by
  have hwait := hw.flight c (Or.inr hc)
  have hzero : s.units c.buffer = 0 := by
    by_contra hne
    obtain ⟨-, p, q, hq, hbuffer, hnot⟩ := hw.units _ (Nat.pos_of_ne_zero hne)
    rw [waits_same hw hq hwait hbuffer] at hnot
    exact hnot (Or.inr hc)
  have hself : (afterIrq s c).units c.buffer = 1 := by
    change Function.update s.units c.buffer (s.units c.buffer+1) c.buffer = 1
    rw [Function.update_self, hzero]
  have hother : ∀ b, b ≠ c.buffer → (afterIrq s c).units b = s.units b :=
    fun b hb => Function.update_of_ne hb _ _
  refine ⟨hw.hand, fun q hq => hw.flight q ((flight_irq h hc q).mp hq).1, hw.owner, ?_, ?_⟩
  · intro p q hq
    rw [flight_irq h hc]
    by_cases hb : q.buffer = c.buffer
    · right
      rw [hb, hself]
      exact Nat.one_pos
    · rw [hother _ hb]
      refine (hw.awake p q hq).imp_left (fun hflight => ⟨hflight, ?_⟩)
      rintro rfl
      exact hb rfl
  · intro b hb
    by_cases hbc : b = c.buffer
    · subst hbc
      refine ⟨hself, c.proc, c, hwait, rfl, ?_⟩
      rw [flight_irq h hc]
      exact fun hq => hq.2 rfl
    · rw [hother b hbc] at hb ⊢
      obtain ⟨hone, p, q, hq, hbuffer, hnot⟩ := hw.units b hb
      refine ⟨hone, p, q, hq, hbuffer, ?_⟩
      rw [flight_irq h hc]
      exact fun hq => hnot hq.1

theorem waits_resume (hw : Waits s) (hout : s.place = .out) {p : ℕ} (hr : s.waiting p = some r)
    (hunit : 0 < s.units r.buffer) :
    Waits { s with
      units := Function.update s.units r.buffer (s.units r.buffer-1)
      waiting := Function.update s.waiting p none } := by
  obtain ⟨hone, p', r', hr', hbuffer, hnot⟩ := hw.units _ hunit
  obtain rfl := waits_same hw hr' hr hbuffer
  have hne : ∀ p' q, p' ≠ p → s.waiting p' = some q → q.buffer ≠ r'.buffer := by
    intro p' q hp hq hb
    obtain rfl := waits_same hw hq hr hb
    exact hp ((hw.owner p' q hq).1.symm.trans (hw.owner p q hr).1)
  have hwas : ∀ p' q, Function.update s.waiting p none p' = some q → p' ≠ p ∧ s.waiting p' = some q := by
    intro p' q hq
    by_cases hp : p' = p
    · rw [hp, Function.update_self] at hq
      cases hq
    · rw [Function.update_of_ne hp] at hq
      exact ⟨hp, hq⟩
  constructor
  · intro q hq
    simp only [hout] at hq
    cases hq
  · intro q hq
    have hwait := hw.flight q hq
    refine (Function.update_of_ne ?_ _ _).trans hwait
    rintro rfl
    rw [hr] at hwait
    obtain rfl := Option.some.inj hwait
    exact hnot hq
  · intro p' q hq
    exact hw.owner p' q (hwas p' q hq).2
  · intro p' q hq
    obtain ⟨hp, hq⟩ := hwas p' q hq
    refine (hw.awake p' q hq).imp_right (fun hu => ?_)
    refine lt_of_lt_of_eq hu (Function.update_of_ne (hne p' q hp hq) _ _).symm
  · intro b hb
    have hb' : b ≠ r'.buffer := by
      rintro rfl
      simp only [Function.update_self, hone] at hb
      exact absurd hb (lt_irrefl 0)
    simp only [Function.update_of_ne hb'] at hb ⊢
    obtain ⟨hone', p', q, hq, hbuffer', hnot'⟩ := hw.units b hb
    refine ⟨hone', p', q, (Function.update_of_ne ?_ _ _).trans hq, hbuffer', hnot'⟩
    rintro rfl
    rw [hr] at hq
    obtain rfl := Option.some.inj hq
    exact hb' hbuffer'.symm

/-- A lock changes hands that nobody who waits holds. -/
theorem waits_holder (hw : Waits s) (hout : s.place = .out) {b : ℕ} {x : Option ℕ}
    (hfree : ∀ p, s.holder b = some p → s.waiting p = none) :
    Waits { s with holder := Function.update s.holder b x } := by
  refine ⟨fun q hq => ?_, hw.flight, fun p q hq => ?_, hw.awake, hw.units⟩
  · simp only [hout] at hq
    cases hq
  · obtain ⟨hproc, hhold⟩ := hw.owner p q hq
    refine ⟨hproc, (Function.update_of_ne ?_ _ _).trans hhold⟩
    rintro rfl
    have := hfree p hhold
    rw [hq] at this
    cases this

theorem waits_step {e : Event} (h : Queued s) (hw : Waits s) (hstep : Step s e s') : Waits s' := by
  cases hstep with
  | submit _ hwait hhold _ => exact waits_test hw hwait hhold
  | proceed _ => exact waits_proceed h hw
  | irq hc hs =>
    rw [endRequest_spec (h.current_of hc)] at hs
    obtain rfl := Option.some.inj hs
    exact waits_irq h hw hc
  | resume hout hr hunit => exact waits_resume hw hout hr hunit
  | lock hout _ hnone =>
    refine waits_holder hw hout (fun p hp => ?_)
    rw [hnone] at hp
    cases hp
  | unlock hout hwait hhold =>
    refine waits_holder hw hout (fun p hp => ?_)
    rw [hhold] at hp
    obtain rfl := Option.some.inj hp
    exact hwait
  | reuse _ => exact waits_frame hw rfl (fun _ => Iff.rfl) rfl rfl rfl

theorem waits_start : Waits start := by
  constructor <;> simp [start, Place.request, InFlight]

end Queue

/-! ## Runs -/

section Runs

variable {s s' t : Ide} {n : ℕ}

theorem run_invariant (h : Run NotBetween s) : Queued s ∧ Waits s := by
  induction h with
  | start => exact ⟨queued_start, waits_start⟩
  | step _ ha hstep ih => exact ⟨queued_step ih.1 ha hstep, waits_step ih.1 ih.2 hstep⟩

theorem run_follows (h : Run NotBetween s) (hf : Follows NotBetween s n t) : Run NotBetween t := by
  induction hf with
  | refl => exact h
  | irq _ ha hstep ih => exact .step ih ha hstep
  | step _ _ ha hstep ih => exact .step ih ha hstep

/-- How many requests have left the hand of `add_request`. -/
def linked (s : Ide) : ℕ := s.sent.length+s.reqList.length

/-- Requests are only added behind, and an interrupt sends one if there is one. -/
structure Later (s s' : Ide) (e : Event) : Prop where
  submitted : s.submitted <+: s'.submitted
  linked : linked s ≤ linked s'
  sent : s.sent.length ≤ s'.sent.length
  irq : e = .irq → s.reqList ≠ [] → s'.sent.length = s.sent.length+1

theorem later_proceed (h : Queued s) : Later s s.proceed .proceed := by
  cases hp : s.place with
  | out =>
    rw [Ide.proceed, hp]
    exact ⟨List.prefix_rfl, le_rfl, le_rfl, fun he => nomatch he⟩
  | tested r free =>
    rw [Ide.proceed, hp]
    cases free with
    | true => exact ⟨List.prefix_rfl, le_rfl, le_rfl, fun he => nomatch he⟩
    | false =>
      refine ⟨List.prefix_rfl, ?_, le_rfl, fun he => nomatch he⟩
      change s.sent.length+s.reqList.length ≤ s.sent.length+(s.reqList++[r]).length
      rw [List.length_append]
      omega
  | taken r =>
    obtain ⟨hcur, -⟩ := h.unsent r (by rw [hp]; rfl)
    simp only [Ide.proceed, hp, Ide.doRequest, hcur]
    refine ⟨List.prefix_rfl, ?_, ?_, fun he => nomatch he⟩
    · change s.sent.length+s.reqList.length ≤ (s.sent++[r]).length+s.reqList.length
      rw [List.length_append]
      omega
    · change s.sent.length ≤ (s.sent++[r]).length
      rw [List.length_append]
      omega

theorem later_irq (s : Ide) (c : Request) : Later s (afterIrq s c) .irq := by
  have hlen : (afterIrq s c).sent.length = s.sent.length+s.reqList.head?.toList.length :=
    List.length_append
  have hsum : linked (afterIrq s c) = linked s := by
    change (afterIrq s c).sent.length+s.reqList.tail.length = s.sent.length+s.reqList.length
    rw [hlen]
    cases s.reqList with
    | nil => rfl
    | cons x l =>
      change s.sent.length+1+l.length = s.sent.length+(l.length+1)
      omega
  refine ⟨List.prefix_rfl, hsum.ge, by omega, fun _ hne => ?_⟩
  rw [hlen]
  cases hl : s.reqList with
  | nil => exact absurd hl hne
  | cons x l => rfl

theorem later_step {e : Event} (h : Queued s) (hstep : Step s e s') : Later s s' e := by
  cases hstep with
  | submit => exact ⟨List.prefix_append _ _, le_rfl, le_rfl, fun he => nomatch he⟩
  | proceed _ => exact later_proceed h
  | @irq _ c hc hs =>
    rw [endRequest_spec (h.current_of hc)] at hs
    obtain rfl := Option.some.inj hs
    exact later_irq s c
  | resume | lock | unlock | reuse =>
    exact ⟨List.prefix_rfl, le_rfl, le_rfl, fun he => nomatch he⟩

theorem follows_later (h : Run NotBetween s) (hf : Follows NotBetween s n t) :
    s.submitted <+: t.submitted ∧ linked s ≤ linked t ∧
      (s.sent.length+n ≤ t.sent.length ∨ linked s ≤ t.sent.length) := by
  induction hf with
  | refl => exact ⟨List.prefix_rfl, le_rfl, Or.inl le_rfl⟩
  | @irq n u u' hf ha hstep ih =>
    have hq := (run_invariant (run_follows h hf)).1
    have hl := later_step hq hstep
    refine ⟨ih.1.trans hl.submitted, ih.2.1.trans hl.linked, ?_⟩
    rcases ih.2.2 with hsent | hall
    · by_cases hne : u.reqList = []
      · -- nothing is queued: all that was linked before has been sent
        right
        have := ih.2.1
        rw [linked, linked, hne] at this
        exact this.trans hl.sent
      · left
        have := hl.irq rfl hne
        omega
    · exact Or.inr (hall.trans hl.sent)
  | step hf _ ha hstep ih =>
    have hq := (run_invariant (run_follows h hf)).1
    have hl := later_step hq hstep
    exact ⟨ih.1.trans hl.submitted, ih.2.1.trans hl.linked,
      ih.2.2.imp (fun hle => hle.trans hl.sent) fun hle => hle.trans hl.sent⟩

theorem prefix_at {l l' : List Request} (h : l <+: l') {k : ℕ} {r : Request} (hr : l[k]? = some r) :
    l'[k]? = some r := by
  obtain ⟨hk, hget⟩ := List.getElem?_eq_some_iff.mp hr
  rw [← hget]
  exact List.prefix_iff_getElem?.mp h k hk

/-- A request that `k` others are ahead of is sent with the next `k+1` interrupts. -/
theorem sent_in_turn (h : Run NotBetween s) (hf : Follows NotBetween s n t) {k : ℕ} {r : Request}
    (hr : s.reqList[k]? = some r) (hk : k < n) : r ∈ t.sent := by
  obtain ⟨hpre, -, hsent⟩ := follows_later h hf
  have hlen : k < s.reqList.length := (List.getElem?_eq_some_iff.mp hr).1
  have hin : (s.sent++s.reqList)[s.sent.length+k]? = some r := by
    rw [List.getElem?_append_right (Nat.le_add_right _ _), Nat.add_sub_cancel_left]
    exact hr
  have hwas : s.submitted[s.sent.length+k]? = some r := by
    rw [(run_invariant h).1.order]
    exact prefix_at (List.prefix_append _ _) hin
  have hnow : t.submitted[s.sent.length+k]? = some r := prefix_at hpre hwas
  have hlt : s.sent.length+k < t.sent.length := by
    rw [linked] at hsent
    omega
  have hord := (run_invariant (run_follows h hf)).1.order
  rw [hord, List.append_assoc, List.getElem?_append_left hlt] at hnow
  exact List.mem_of_getElem? hnow

/-- An interrupt in between leaves the request in a queue without a current one. -/
theorem between_lost (h : Run NotBetween s) (hstep : Step s .irq t) (hnot : ¬ NotBetween s .irq) :
    Step t .proceed t.proceed ∧ t.proceed.reqList ≠ [] ∧ t.proceed.current = none := by
  have hq := (run_invariant h).1
  simp only [NotBetween, not_forall, not_not, exists_prop] at hnot
  obtain ⟨r, hplace, hempty⟩ := hnot
  cases hstep with
  | @irq _ c hc hs =>
    rw [endRequest_spec (hq.current_of hc)] at hs
    obtain rfl := Option.some.inj hs
    have hplace' : (afterIrq s c).place = .tested r false := hplace
    refine ⟨.proceed (by rw [hplace']; exact fun hc => nomatch hc), ?_⟩
    rw [Ide.proceed, hplace']
    refine ⟨List.append_ne_nil_of_right_ne_nil _ (List.cons_ne_nil r []), ?_⟩
    change s.reqList.head? = none
    rw [hempty]
    rfl

/-- In every run in which no interrupt that empties the queue comes between the test and
the lock, the requests are served in order, each once; and such an interrupt leaves a
request that is not. -/
theorem requests_run (s : Ide) : (Run NotBetween s → Served s ∧
      ∀ n t k r, Follows NotBetween s n t → s.reqList[k]? = some r → k < n → r ∈ t.sent) ∧
    ∀ t, Run NotBetween s → Step s .irq t → ¬ NotBetween s .irq →
      Step t .proceed t.proceed ∧ ¬ Served t.proceed := by
  constructor
  · intro h
    obtain ⟨hq, hw⟩ := run_invariant h
    exact ⟨served_of hq hw, fun n t k r hf hr hk => sent_in_turn h hf hr hk⟩
  · intro t h hstep hnot
    obtain ⟨hproceed, hne, hnone⟩ := between_lost h hstep hnot
    exact ⟨hproceed, fun hserved => (hserved.busy hne).1 hnone⟩

end Runs

/-! ## The window -/

/-- Process `p` reads block `b` of disk 1, eight sectors, into buffer `b`. -/
def readRequest (n p b : ℕ) : Request := ⟨n, p, 1, 8*b, .read, b⟩

/-- Processes 1 and 2 have a buffer each. -/
def locked : Ide :=
  { start with holder := Function.update (Function.update start.holder 4 (some 1)) 7 (some 2) }

/-- Process 1 waits for the drive. -/
def working : Ide := (locked.test (readRequest 0 1 4)).proceed.proceed

/-- Process 2 has seen that there is a current request. -/
def window : Ide := working.test (readRequest 1 2 7)

variable {allowed : Ide → Event → Prop}

theorem working_run (hall : ∀ s e, e ≠ .irq → allowed s e) : Run allowed working := by
  have hlocked : Run allowed locked :=
    (Run.start.step (hall _ _ (by simp)) (.lock rfl rfl rfl)).step (hall _ (.lock 2 7) (by simp))
      (@Step.lock _ 2 7 rfl rfl rfl)
  have htest : Step locked (.submit (readRequest 0 1 4)) (locked.test (readRequest 0 1 4)) :=
    .submit rfl rfl rfl rfl
  have htaken := (hlocked.step (hall _ _ (by simp)) htest).step (hall _ _ (by simp))
    (.proceed (by simp [Ide.test]))
  exact htaken.step (hall _ _ (by simp)) (.proceed (by rintro ⟨⟩))

theorem window_run (hall : ∀ s e, e ≠ .irq → allowed s e) : Run allowed window :=
  (working_run hall).step (hall _ _ (by simp)) (.submit rfl rfl rfl rfl)

/-- After the interrupt of the first request, the second one is linked and nobody sends it. -/
def stuck : Ide := (afterIrq window (readRequest 0 1 4)).proceed

theorem window_irq : Step window .irq (afterIrq window (readRequest 0 1 4)) :=
  .irq rfl (endRequest_spec rfl)

theorem requests_run_window : Served window.proceed ∧
    readRequest 1 2 7 ∈ (afterIrq window.proceed (readRequest 0 1 4)).sent ∧ ¬ Served stuck := by
  have hall : ∀ s e, e ≠ .irq → NotBetween s e := by
    intro s e he
    cases e with
    | irq => exact absurd rfl he
    | _ => trivial
  have hlinked : Run NotBetween window.proceed :=
    (window_run hall).step (hall _ _ (by simp)) (.proceed (by rintro ⟨⟩))
  have hirq : Step window.proceed .irq (afterIrq window.proceed (readRequest 0 1 4)) :=
    .irq rfl (endRequest_spec rfl)
  have hfollows : Follows NotBetween window.proceed 1 (afterIrq window.proceed (readRequest 0 1 4)) :=
    Follows.refl.irq (fun r hr => nomatch hr) hirq
  have hwindow : ¬ NotBetween window .irq := fun hc => hc _ rfl rfl
  refine ⟨((requests_run _).1 hlinked).1,
    ((requests_run _).1 hlinked).2 1 _ 0 _ hfollows rfl Nat.one_pos, ?_⟩
  exact ((requests_run _).2 _ (window_run hall) window_irq hwindow).2

/-- The claim fails when the interrupt comes inside the window. -/
theorem request_stuck : ∃ s, Run (fun _ _ => True) s ∧ s.reqList ≠ [] ∧ s.current = none ∧
    s.device = none ∧ s.place = .out ∧ ¬ Served s := by
  have hall : ∀ (s : Ide) (e : Event), e ≠ .irq → True := fun _ _ _ => trivial
  have hproceed : Step (afterIrq window (readRequest 0 1 4)) .proceed stuck :=
    .proceed (by rintro ⟨⟩)
  have hrun : Run (fun _ _ => True) stuck :=
    ((window_run hall).step trivial window_irq).step trivial hproceed
  refine ⟨stuck, hrun, by rintro ⟨⟩, rfl, rfl, rfl, fun hserved => ?_⟩
  exact (hserved.busy (by rintro ⟨⟩)).1 rfl

end BabyOS.DiskRequests

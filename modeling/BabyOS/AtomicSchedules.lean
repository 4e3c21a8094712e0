import BabyOS.AtomicPrograms

/-!
# Schedules

A list of turns of processes: a process takes up a call, makes some accesses, or returns.
What is played from a run is a run, where every access passes a test.
-/

set_option autoImplicit false

namespace BabyOS.AtomicSchedules
open BabyOS.AtomicPrograms

inductive Turn (γ : Type)
  | take (p : ℕ) (c : γ)
  | go (p n : ℕ)
  | leave (p : ℕ)

def Turn.process {γ : Type} : Turn γ → ℕ
  | .take p _ | .go p _ | .leave p => p

section Schedules

variable {σ ε α ν γ : Type}

section Play

variable (program : ℕ → γ → Program σ ε α) (ready : σ → ℕ → γ → Bool) (test : ν → σ → ε → Bool) (note : ν → ε → ν)

/-- `n` accesses, or fewer at the end of the program. -/
def goes : ℕ → Program σ ε α → σ → ν → Option (Program σ ε α × σ × ν)
  | n+1, .access e r f k, s, v =>
    if r s && test v s (e s) then goes n (k s) (f s) (note v (e s)) else none
  | _, x, s, v => some (x, s, v)

def turn (w : World σ ε α ν) : Turn γ → Option (World σ ε α ν)
  | .take p c =>
    if (w.call p).isNone && ready w.state p c then
      some { w with call := Function.update w.call p (some (program p c)) }
    else none
  | .go p n =>
    match w.call p with
    | none => none
    | some x => (goes test note n x w.state (w.book p)).map fun r =>
      ⟨r.2.1, Function.update w.call p (some r.1), Function.update w.book p r.2.2⟩
  | .leave p =>
    match w.call p with
    | some (.done _) => some { w with call := Function.update w.call p none }
    | _ => none

def play : List (Turn γ) → World σ ε α ν → Option (World σ ε α ν)
  | [], w => some w
  | t :: turns, w => (turn program ready test note w t).bind (play turns)

end Play

variable {start : σ → Prop} {calls : σ → ℕ → Program σ ε α → Prop} {allowed : ℕ → ν → σ → ε → Prop}
  {program : ℕ → γ → Program σ ε α} {ready : σ → ℕ → γ → Bool} {test : ν → σ → ε → Bool} {note : ν → ε → ν}
  {blank : ν}

theorem run_goes (htest : ∀ p v s e, test v s e = true → allowed p v s e) {n p : ℕ} {x : Program σ ε α}
    {w : World σ ε α ν} {r : Program σ ε α × σ × ν} (h : Run start calls allowed note blank w)
    (hx : w.call p = some x) (hgoes : goes test note n x w.state (w.book p) = some r) :
    Run start calls allowed note blank
      ⟨r.2.1, Function.update w.call p (some r.1), Function.update w.book p r.2.2⟩ := by
  induction n generalizing x w with
  | zero =>
    obtain rfl := Option.some.inj hgoes
    simp only [← hx, Function.update_eq_self]
    exact h
  | succ n ih =>
    cases x with
    | done a =>
      obtain rfl := Option.some.inj hgoes
      simp only [← hx, Function.update_eq_self]
      exact h
    | stop =>
      obtain rfl := Option.some.inj hgoes
      simp only [← hx, Function.update_eq_self]
      exact h
    | access e ready f k =>
      rw [goes] at hgoes
      split at hgoes
      next hgo =>
        obtain ⟨hready, hpass⟩ := Bool.and_eq_true_iff.mp hgo
        have hstep := h.step (Step.access hx hready (htest p _ _ _ hpass))
        have hrest := ih hstep (Function.update_self ..) (by simpa only [Function.update_self] using hgoes)
        simpa only [Function.update_idem] using hrest
      next => cases hgoes

theorem run_turn (hready : ∀ s p c, ready s p c = true → calls s p (program p c))
    (htest : ∀ p v s e, test v s e = true → allowed p v s e) {t : Turn γ} {w w' : World σ ε α ν}
    (h : Run start calls allowed note blank w) (hturn : turn program ready test note w t = some w') :
    Run start calls allowed note blank w' := by
  cases t with
  | take p c =>
    rw [turn] at hturn
    split at hturn
    next htake =>
      obtain ⟨hnone, hc⟩ := Bool.and_eq_true_iff.mp htake
      obtain rfl := Option.some.inj hturn
      exact h.step (Step.take (Option.isNone_iff_eq_none.mp hnone) (hready _ _ _ hc))
    next => cases hturn
  | go p n =>
    rw [turn] at hturn
    split at hturn
    next => cases hturn
    next x hx =>
      obtain ⟨r, hr, rfl⟩ := Option.map_eq_some_iff.mp hturn
      exact run_goes htest h hx hr
  | leave p =>
    rw [turn] at hturn
    split at hturn
    next a hx =>
      obtain rfl := Option.some.inj hturn
      exact h.step (Step.leave hx)
    next => cases hturn

theorem run_play (hready : ∀ s p c, ready s p c = true → calls s p (program p c))
    (htest : ∀ p v s e, test v s e = true → allowed p v s e) {turns : List (Turn γ)} {w w' : World σ ε α ν}
    (h : Run start calls allowed note blank w) (hplay : play program ready test note turns w = some w') :
    Run start calls allowed note blank w' := by
  induction turns generalizing w with
  | nil =>
    obtain rfl := Option.some.inj hplay
    exact h
  | cons t turns ih =>
    obtain ⟨next, hturn, hrest⟩ := Option.bind_eq_some_iff.mp hplay
    exact ih (run_turn hready htest h hturn) hrest

/-- The others are where they were. -/
theorem turn_other {t : Turn γ} {w w' : World σ ε α ν} {q : ℕ} (hq : t.process ≠ q)
    (h : turn program ready test note w t = some w') : w'.call q = w.call q ∧ w'.book q = w.book q := by
  cases t with
  | take p c =>
    rw [turn] at h
    split at h
    next =>
      obtain rfl := Option.some.inj h
      exact ⟨Function.update_of_ne (Ne.symm hq) .., rfl⟩
    next => cases h
  | go p n =>
    rw [turn] at h
    split at h
    next => cases h
    next =>
      obtain ⟨r, -, rfl⟩ := Option.map_eq_some_iff.mp h
      exact ⟨Function.update_of_ne (Ne.symm hq) .., Function.update_of_ne (Ne.symm hq) ..⟩
  | leave p =>
    rw [turn] at h
    split at h
    next =>
      obtain rfl := Option.some.inj h
      exact ⟨Function.update_of_ne (Ne.symm hq) .., rfl⟩
    next => cases h

theorem play_other {turns : List (Turn γ)} {w w' : World σ ε α ν} {q : ℕ} (hq : ∀ t ∈ turns, t.process ≠ q)
    (h : play program ready test note turns w = some w') : w'.call q = w.call q ∧ w'.book q = w.book q := by
  induction turns generalizing w with
  | nil =>
    obtain rfl := Option.some.inj h
    exact ⟨rfl, rfl⟩
  | cons t turns ih =>
    obtain ⟨next, hturn, hrest⟩ := Option.bind_eq_some_iff.mp h
    obtain ⟨hcall, hbook⟩ := turn_other (hq t List.mem_cons_self) hturn
    obtain ⟨hcall', hbook'⟩ := ih (fun t ht => hq t (List.mem_cons_of_mem _ ht)) hrest
    exact ⟨hcall'.trans hcall, hbook'.trans hbook⟩

/-- A schedule that ends as is wanted. -/
theorem run_schedule (hready : ∀ s p c, ready s p c = true → calls s p (program p c))
    (htest : ∀ p v s e, test v s e = true → allowed p v s e) {turns : List (Turn γ)} {s : σ} (hs : start s)
    {check : World σ ε α ν → Bool}
    (hplay : (play program ready test note turns ⟨s, fun _ => none, fun _ => blank⟩).any check = true) :
    ∃ w : World σ ε α ν, Run start calls allowed note blank w ∧ check w = true ∧
      ∀ q, (∀ t ∈ turns, t.process ≠ q) → w.call q = none ∧ w.book q = blank := by
  cases hw : play program ready test note turns ⟨s, fun _ => none, fun _ => blank⟩ with
  | none =>
    rw [hw] at hplay
    cases hplay
  | some w =>
    rw [hw] at hplay
    exact ⟨w, run_play hready htest (Run.start hs) hw, hplay, fun q hq => play_other hq hw⟩

end Schedules

end BabyOS.AtomicSchedules

import Mathlib

/-!
# Programs of atomic accesses

A program of one process over a state that processes share: accesses that happen
one at a time, and may have to wait until they are ready. It is run alone, or
beside other programs, with the accesses in any order. What holds along every
path of a program, whatever the others do to the state, holds in every such run.
-/

set_option autoImplicit false

namespace BabyOS.AtomicPrograms

/-- An access is reported as an event; what follows it depends on the state that it
found. A program that comes to `stop` never goes on. -/
inductive Program (σ ε α : Type)
  | done (a : α)
  | stop
  | access (event : σ → ε) (ready : σ → Bool) (next : σ → σ) (rest : σ → Program σ ε α)

namespace Program

variable {σ ε α β : Type}

def bind : Program σ ε α → (α → Program σ ε β) → Program σ ε β
  | .done a, f => f a
  | .stop, _ => .stop
  | .access e r n k, f => .access e r n fun s => (k s).bind f

instance : Monad (Program σ ε) where
  pure := .done
  bind := .bind

theorem pure_bind (a : α) (f : α → Program σ ε β) : (pure a : Program σ ε α) >>= f = f a := rfl

theorem bind_assoc {γ : Type} (x : Program σ ε α) (f : α → Program σ ε β) (g : β → Program σ ε γ) :
    x >>= f >>= g = x >>= fun a => f a >>= g := by
  change (x.bind f).bind g = x.bind fun a => (f a).bind g
  induction x with
  | done a => rfl
  | stop => rfl
  | access e r n k ih =>
    rw [bind, bind, bind]
    exact congrArg _ (funext fun s => ih s)

/-! ## One program alone -/

/-- The result and the state after; `none` where the program cannot go on. -/
def run : Program σ ε α → σ → Option (α × σ)
  | .done a, s => some (a, s)
  | .stop, _ => none
  | .access _ r n k, s => if r s then (k s).run (n s) else none

@[simp] theorem run_pure (a : α) (s : σ) : (pure a : Program σ ε α).run s = some (a, s) := rfl

@[simp] theorem run_stop (s : σ) : (.stop : Program σ ε α).run s = none := rfl

theorem run_access {e : σ → ε} {r : σ → Bool} {n : σ → σ} {k : σ → Program σ ε α} {s : σ}
    (hr : r s = true) : (Program.access e r n k).run s = (k s).run (n s) := by
  rw [run, if_pos hr]

theorem run_bind (x : Program σ ε α) (f : α → Program σ ε β) (s : σ) :
    (x >>= f).run s = (x.run s).bind fun r => (f r.1).run r.2 := by
  change (x.bind f).run s = _
  induction x generalizing s with
  | done a => rfl
  | stop => rfl
  | access e r n k ih =>
    rw [bind, run, run]
    by_cases hr : r s = true
    · rw [if_pos hr, if_pos hr]
      exact ih s (n s)
    · rw [if_neg hr, if_neg hr]
      rfl

/-- The first part ran. -/
theorem run_bind_of {x : Program σ ε α} {f : α → Program σ ε β} {s s' : σ} {a : α}
    (h : x.run s = some (a, s')) : (x >>= f).run s = (f a).run s' := by
  rw [run_bind, h]
  rfl

theorem run_bind_some {x : Program σ ε α} {f : α → Program σ ε β} {s : σ} {r : β × σ}
    (h : (x >>= f).run s = some r) : ∃ a s', x.run s = some (a, s') ∧ (f a).run s' = some r := by
  rw [run_bind] at h
  obtain ⟨⟨a, s'⟩, hx, hf⟩ := Option.bind_eq_some_iff.mp h
  exact ⟨a, s', hx, hf⟩

/-! ## What a program alone comes to -/

section Alone

-- Accesses that are not `ok` are left out; with `t` the program has to come to its end.
variable (t : Bool) (ok : σ → ε → Prop)

/-- Alone from a state, the program ends with `Q`. -/
def Meets : Program σ ε α → σ → (α → σ → Prop) → Prop
  | .done a, s, Q => Q a s
  | .stop, _, _ => t = false
  | .access e r n k, s, Q => (t = true → r s = true) ∧
      (r s = true → ok s (e s) → (k s).Meets (n s) Q)

/-- Every access of the run from a state is `ok`. -/
def Clear : Program σ ε α → σ → Prop
  | .done _, _ => True
  | .stop, _ => True
  | .access e r n k, s => r s = true → ok s (e s) ∧ (k s).Clear (n s)

/-- `Clear`, as a test. -/
def clears (test : σ → ε → Bool) : Program σ ε α → σ → Bool
  | .done _, _ => true
  | .stop, _ => true
  | .access e r n k, s => !r s || test s (e s) && (k s).clears test (n s)

variable {t ok} {x : Program σ ε α} {f : α → Program σ ε β} {s s' : σ} {a : α}
  {Q Q' : α → σ → Prop} {R : β → σ → Prop}

theorem meets_pure (h : Q a s) : (pure a : Program σ ε α).Meets t ok s Q := h

theorem meets_mono (h : x.Meets t ok s Q) (hQ : ∀ a s, Q a s → Q' a s) : x.Meets t ok s Q' := by
  induction x generalizing s with
  | done a => exact hQ a s h
  | stop => exact h
  | access e r n k ih => exact ⟨h.1, fun hr ha => ih s (h.2 hr ha)⟩

theorem meets_bind (h : x.Meets t ok s fun a s => (f a).Meets t ok s R) :
    (x >>= f).Meets t ok s R := by
  change (x.bind f).Meets t ok s R
  induction x generalizing s with
  | done a => exact h
  | stop => exact h
  | access e r n k ih => exact ⟨h.1, fun hr ha => ih s (h.2 hr ha)⟩

/-- The first part by what is known of it. -/
theorem meets_seq (h : x.Meets t ok s Q) (hf : ∀ a s, Q a s → (f a).Meets t ok s R) :
    (x >>= f).Meets t ok s R :=
  meets_bind (meets_mono h hf)

theorem meets_run (h : x.Meets t ok s Q) (hc : x.Clear ok s) (hrun : x.run s = some (a, s')) :
    Q a s' := by
  induction x generalizing s with
  | done b =>
    obtain ⟨rfl, rfl⟩ := Prod.mk.inj (Option.some.inj hrun)
    exact h
  | stop => cases hrun
  | access e r n k ih =>
    rw [run] at hrun
    split at hrun
    next hr => exact ih s (h.2 hr (hc hr).1) (hc hr).2 hrun
    next => cases hrun

theorem meets_ends (h : x.Meets true ok s Q) (hc : x.Clear ok s) :
    ∃ a s', x.run s = some (a, s') ∧ Q a s' := by
  induction x generalizing s with
  | done b => exact ⟨b, s, rfl, h⟩
  | stop => cases h
  | access e r n k ih =>
    have hr := h.1 rfl
    rw [run_access hr]
    exact ih s (h.2 hr (hc hr).1) (hc hr).2

theorem clear_of_clears {test : σ → ε → Bool} (h : x.clears test s = true)
    (htest : ∀ s e, test s e = true → ok s e) : x.Clear ok s := by
  induction x generalizing s with
  | done b => trivial
  | stop => trivial
  | access e r n k ih =>
    intro hr
    rw [clears, hr, Bool.not_true, Bool.false_or, Bool.and_eq_true] at h
    exact ⟨htest s _ h.1, ih s h.2⟩

theorem clear_all (x : Program σ ε α) (s : σ) : x.Clear (fun _ _ => True) s := by
  induction x generalizing s with
  | done b => trivial
  | stop => trivial
  | access e r n k ih => exact fun _ => ⟨trivial, ih s (n s)⟩

end Alone

/-! ## Paths -/

section Paths

-- `note` keeps a book of the events of one process.
variable {ν : Type} (allowed : ν → σ → ε → Prop) (note : ν → ε → ν)
  (rule : ν → σ → ε → σ → Prop)

/-- On every path of allowed accesses the rule is met, and the end has `Q`. The state
that an access finds is arbitrary. -/
def Along : Program σ ε α → ν → (α → ν → Prop) → Prop
  | .done a, v, Q => Q a v
  | .stop, _, _ => True
  | .access e r n k, v, Q => ∀ s, r s = true → allowed v s (e s) →
      rule v s (e s) (n s) ∧ (k s).Along (note v (e s)) Q

variable {allowed note rule}

theorem along_mono {x : Program σ ε α} {v : ν} {Q Q' : α → ν → Prop}
    (h : x.Along allowed note rule v Q) (hQ : ∀ a v, Q a v → Q' a v) :
    x.Along allowed note rule v Q' := by
  induction x generalizing v with
  | done a => exact hQ a v h
  | stop => trivial
  | access e r n k ih =>
    intro s hr ha
    obtain ⟨hrule, hrest⟩ := h s hr ha
    exact ⟨hrule, ih s hrest⟩

theorem along_bind {x : Program σ ε α} {f : α → Program σ ε β} {v : ν} {Q : β → ν → Prop}
    (h : x.Along allowed note rule v fun a v => (f a).Along allowed note rule v Q) :
    (x >>= f).Along allowed note rule v Q := by
  change (x.bind f).Along allowed note rule v Q
  induction x generalizing v with
  | done a => exact h
  | stop => trivial
  | access e r n k ih =>
    intro s hr ha
    obtain ⟨hrule, hrest⟩ := h s hr ha
    exact ⟨hrule, ih s hrest⟩

/-- The first part by what is known of it. -/
theorem along_seq {x : Program σ ε α} {f : α → Program σ ε β} {v : ν} {P : α → ν → Prop}
    {Q : β → ν → Prop} (h : x.Along allowed note rule v P)
    (hf : ∀ a v, P a v → (f a).Along allowed note rule v Q) :
    (x >>= f).Along allowed note rule v Q :=
  along_bind (along_mono h hf)

/-- Fewer paths are allowed. -/
theorem along_allow {allowed' : ν → σ → ε → Prop} {x : Program σ ε α} {v : ν} {Q : α → ν → Prop}
    (h : x.Along allowed note rule v Q) (ha : ∀ v s e, allowed' v s e → allowed v s e) :
    x.Along allowed' note rule v Q := by
  induction x generalizing v with
  | done a => exact h
  | stop => trivial
  | access e r n k ih =>
    intro s hr ha'
    obtain ⟨hrule, hrest⟩ := h s hr (ha v s (e s) ha')
    exact ⟨hrule, ih s hrest⟩

end Paths

/-! ## Accesses of one kind -/

section Kinds

variable (P : σ → ε → σ → Prop)

/-- Every access of the program is of a kind, in whatever state it happens. -/
def Only : Program σ ε α → Prop
  | .done _ => True
  | .stop => True
  | .access e _ n k => ∀ s, P s (e s) (n s) ∧ (k s).Only

variable {P}

theorem only_bind {x : Program σ ε α} {f : α → Program σ ε β} (hx : x.Only P)
    (hf : ∀ a, (f a).Only P) : (x >>= f).Only P := by
  change (x.bind f).Only P
  induction x with
  | done a => exact hf a
  | stop => trivial
  | access e r n k ih => exact fun s => ⟨(hx s).1, ih s (hx s).2⟩

theorem only_ite {c : Prop} [Decidable c] {x y : Program σ ε α} (hx : x.Only P) (hy : y.Only P) :
    (if c then x else y).Only P := by
  split
  · exact hx
  · exact hy

/-- Accesses that the book does not note, and that the rule lets pass. -/
theorem along_only {ν : Type} {allowed : ν → σ → ε → Prop} {note : ν → ε → ν}
    {rule : ν → σ → ε → σ → Prop} {x : Program σ ε α} {v : ν} (hx : x.Only P)
    (hP : ∀ s e s', P s e s' → note v e = v ∧ rule v s e s') :
    x.Along allowed note rule v fun _ v' => v' = v := by
  induction x with
  | done a => rfl
  | stop => trivial
  | access e r n k ih =>
    intro s _ _
    obtain ⟨hnote, hrule⟩ := hP _ _ _ (hx s).1
    rw [hnote]
    exact ⟨hrule, ih s (hx s).2⟩

end Kinds

end Program

/-! ## Programs beside each other -/

/-- The shared state, the call that each process is in, and the book of its events. -/
structure World (σ ε α ν : Type) where
  state : σ
  call : ℕ → Option (Program σ ε α)
  book : ℕ → ν

section Runs

variable {σ ε α ν : Type} (start : σ → Prop) (calls : σ → ℕ → Program σ ε α → Prop)
  (allowed : ℕ → ν → σ → ε → Prop) (note : ν → ε → ν) (blank : ν)

/-- A process takes up a call, makes the next access of its call, or returns. -/
inductive Step : World σ ε α ν → World σ ε α ν → Prop
  | take {w : World σ ε α ν} {p : ℕ} {x : Program σ ε α} : w.call p = none → calls w.state p x →
      Step w { w with call := Function.update w.call p (some x) }
  | access {w : World σ ε α ν} {p : ℕ} {e : σ → ε} {r : σ → Bool} {n : σ → σ}
      {k : σ → Program σ ε α} : w.call p = some (.access e r n k) → r w.state = true →
      allowed p (w.book p) w.state (e w.state) →
      Step w ⟨n w.state, Function.update w.call p (some (k w.state)),
        Function.update w.book p (note (w.book p) (e w.state))⟩
  | leave {w : World σ ε α ν} {p : ℕ} {a : α} : w.call p = some (.done a) →
      Step w { w with call := Function.update w.call p none }

/-- All runs from a start state, with nobody in a call. -/
inductive Run : World σ ε α ν → Prop
  | start {s : σ} : start s → Run ⟨s, fun _ => none, fun _ => blank⟩
  | step {w w' : World σ ε α ν} : Run w → Step calls allowed note w w' → Run w'

/-- A process is between calls, with a book that `idle` holds of, or it is in a call, relies
on `K`, keeps the rule and ends with such a book. -/
def Follows (K : ℕ → ν → σ → Prop) (rule : ℕ → ν → σ → ε → σ → Prop) (idle : ν → Prop)
    (w : World σ ε α ν) : Prop :=
  ∀ p, match w.call p with
    | none => idle (w.book p)
    | some x => K p (w.book p) w.state ∧
      x.Along (fun v s e => allowed p v s e ∧ K p v s) note (rule p) (w.book p) fun _ v => idle v

variable {start calls allowed note blank}

/-- What every path keeps and every access preserves holds in every run. -/
theorem run_follows {K : ℕ → ν → σ → Prop} {rule : ℕ → ν → σ → ε → σ → Prop} {idle : ν → Prop}
    {I : σ → (ℕ → ν) → Prop} (hblank : idle blank) (hstart : ∀ s, start s → I s fun _ => blank)
    (hcalls : ∀ s g p x, I s g → calls s p x → idle (g p) → K p (g p) s ∧
      x.Along (fun v s e => allowed p v s e ∧ K p v s) note (rule p) (g p) fun _ v => idle v)
    (hstep : ∀ s g p e s', I s g → K p (g p) s → allowed p (g p) s e → rule p (g p) s e s' →
      I s' (Function.update g p (note (g p) e)) ∧ K p (note (g p) e) s' ∧
      ∀ q, q ≠ p → K q (g q) s → K q (g q) s')
    {w : World σ ε α ν} (h : Run start calls allowed note blank w) :
    I w.state w.book ∧ Follows allowed note K rule idle w := by
  induction h with
  | start hs => exact ⟨hstart _ hs, fun p => hblank⟩
  | @step w _ _ hstep' ih =>
    obtain ⟨hI, hfollows⟩ := ih
    cases hstep' with
    | @take p x hnone hx =>
      refine ⟨hI, fun q => ?_⟩
      have hq := hfollows q
      by_cases hqp : q = p
      · subst hqp
        rw [hnone] at hq
        simp only [Function.update_self]
        exact hcalls _ _ _ _ hI hx hq
      · simp only [Function.update_of_ne hqp]
        exact hq
    | @access p e r n k hx hr ha =>
      have hp := hfollows p
      rw [hx] at hp
      obtain ⟨hk, hpath⟩ := hp
      obtain ⟨hrule, hrest⟩ := hpath w.state hr ⟨ha, hk⟩
      obtain ⟨hI', hk', hothers⟩ := hstep _ _ _ _ _ hI hk ha hrule
      refine ⟨hI', fun q => ?_⟩
      have hq := hfollows q
      by_cases hqp : q = p
      · subst hqp
        simp only [Function.update_self]
        exact ⟨hk', hrest⟩
      · simp only [Function.update_of_ne hqp]
        split
        next hnone =>
          rw [hnone] at hq
          exact hq
        next x hx =>
          rw [hx] at hq
          exact ⟨hothers q hqp hq.1, hq.2⟩
    | @leave p a hx =>
      refine ⟨hI, fun q => ?_⟩
      have hq := hfollows q
      by_cases hqp : q = p
      · subst hqp
        rw [hx] at hq
        simp only [Function.update_self]
        exact hq.2
      · simp only [Function.update_of_ne hqp]
        exact hq

/-- The rule holds of every access that a process can make. -/
theorem Follows.access {K : ℕ → ν → σ → Prop} {rule : ℕ → ν → σ → ε → σ → Prop} {idle : ν → Prop}
    {w : World σ ε α ν} (h : Follows allowed note K rule idle w) {p : ℕ} {e : σ → ε} {r : σ → Bool}
    {n : σ → σ} {k : σ → Program σ ε α} (hx : w.call p = some (.access e r n k))
    (hr : r w.state = true) (ha : allowed p (w.book p) w.state (e w.state)) :
    rule p (w.book p) w.state (e w.state) (n w.state) := by
  have hp := h p
  rw [hx] at hp
  exact (hp.2 w.state hr ⟨ha, hp.1⟩).1

/-- `n` accesses of one program, or fewer where it is not ready or at its end. -/
def solo (note : ν → ε → ν) : ℕ → Program σ ε α → σ → ν → Program σ ε α × σ × ν
  | n+1, .access e r f k, s, v =>
    if r s then solo note n (k s) (f s) (note v (e s)) else (.access e r f k, s, v)
  | _, x, s, v => (x, s, v)

/-- The program is at its end. -/
def Program.ended : Program σ ε α → Bool
  | .done _ => true
  | _ => false

theorem Program.ended_done {x : Program σ ε α} (h : x.ended = true) : ∃ a, x = .done a := by
  cases x with
  | done a => exact ⟨a, rfl⟩
  | stop => cases h
  | access => cases h

/-- A process that is left alone for a while. -/
theorem run_solo {n p : ℕ} {x : Program σ ε α} {w : World σ ε α ν}
    (h : Run start calls (fun _ _ _ _ => True) note blank w) (hx : w.call p = some x) :
    ∃ w' : World σ ε α ν, Run start calls (fun _ _ _ _ => True) note blank w' ∧
      w'.call p = some (solo note n x w.state (w.book p)).1 ∧
      w'.state = (solo note n x w.state (w.book p)).2.1 ∧
      w'.book p = (solo note n x w.state (w.book p)).2.2 ∧
      ∀ q, q ≠ p → w'.call q = w.call q := by
  induction n generalizing x w with
  | zero => exact ⟨w, h, hx, rfl, rfl, fun _ _ => rfl⟩
  | succ n ih =>
    cases x with
    | done a => exact ⟨w, h, hx, rfl, rfl, fun _ _ => rfl⟩
    | stop => exact ⟨w, h, hx, rfl, rfl, fun _ _ => rfl⟩
    | access e r f k =>
      by_cases hr : r w.state = true
      · obtain ⟨w', hw', hcall, hstate, hbook, hother⟩ := ih (h.step (Step.access hx hr trivial))
          (Function.update_self p _ w.call)
        simp only [Function.update_self] at hcall hstate hbook
        rw [solo, if_pos hr]
        refine ⟨w', hw', hcall, hstate, hbook, fun q hq => ?_⟩
        rw [hother q hq]
        exact Function.update_of_ne hq _ _
      · rw [solo, if_neg hr]
        exact ⟨w, h, hx, rfl, rfl, fun _ _ => rfl⟩

/-- A call that is left alone to its end. -/
theorem run_call {n p : ℕ} {x : Program σ ε α} {s : σ} (hs : start s) (hx : calls s p x)
    (hend : (solo note n x s blank).1.ended = true) :
    ∃ w : World σ ε α ν, Run start calls (fun _ _ _ _ => True) note blank w ∧
      (∀ q, w.call q = none) ∧ w.state = (solo note n x s blank).2.1 ∧
      w.book p = (solo note n x s blank).2.2 := by
  have hstart : Run start calls (fun _ _ _ _ => True) note blank ⟨s, fun _ => none, fun _ => blank⟩ :=
    Run.start hs
  have htake := hstart.step (Step.take rfl hx)
  obtain ⟨w, hw, hcall, hstate, hbook, hother⟩ := run_solo (n := n) htake (Function.update_self p _ _)
  obtain ⟨a, ha⟩ := Program.ended_done hend
  rw [ha] at hcall
  refine ⟨_, hw.step (Step.leave hcall), fun q => ?_, hstate, hbook⟩
  by_cases hq : q = p
  · subst hq
    exact Function.update_self ..
  · dsimp only
    rw [Function.update_of_ne hq, hother q hq]
    exact Function.update_of_ne hq _ _

end Runs

end BabyOS.AtomicPrograms

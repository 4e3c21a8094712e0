import Mathlib

/-!
# Steps of a 16.16 fixed-point counter

A loop that takes one thing from a sequence whenever its counter has reached one, puts
one thing, and adds a constant increment to the counter. What is found when the `i`-th
thing is put is determined by the integral part of `i` increments.
-/

set_option autoImplicit false

namespace BabyOS.FixedPoint

/-- One, with 16 binary digits behind the point. -/
def one : ℕ := 0x10000

/-- The integral part of `i` increments. -/
def index (inc i : ℕ) : ℕ := i*inc/one

section Loops

variable {σ : Type} (int : ℤ → Option ℤ) (fetch put : σ → Option σ)

/-- Take things until the counter is less than one. -/
def drain (pos : ℤ) (s : σ) : Option (ℤ × σ) :=
  if one ≤ pos then (fetch s).bind fun s => drain (pos-one) s else some (pos, s)
termination_by pos.toNat
decreasing_by
  simp only [one] at *
  omega

/-- Put `n` things. -/
def scale (inc : ℤ) : ℕ → ℤ → σ → Option (ℤ × σ)
  | 0, pos, s => some (pos, s)
  | n+1, pos, s => do
    let (pos, s) ← drain fetch pos s
    let s ← put s
    let pos ← int (pos+inc)
    scale inc n pos s

end Loops

/-! ## What the indices are -/

/-- Of `n` puts from a sequence of `m`, all find something in it. -/
theorem index_lt {m n i : ℕ} (hm : 0 < m) (hi : i < n) : index (m*one/n) i < m := by
  have hinc : n*(m*one/n) ≤ m*one := Nat.mul_div_le _ _
  refine Nat.div_lt_of_lt_mul ?_
  rcases Nat.eq_zero_or_pos (m*one/n) with hzero | hpos
  · rw [hzero, Nat.mul_zero]
    exact Nat.mul_pos (by decide) hm
  · calc i*(m*one/n) < n*(m*one/n) := Nat.mul_lt_mul_of_pos_right hi hpos
      _ ≤ m*one := hinc
      _ = one*m := Nat.mul_comm _ _

theorem index_mono (inc : ℕ) {i j : ℕ} (h : i ≤ j) : index inc i ≤ index inc j :=
  Nat.div_le_div_right (Nat.mul_le_mul_right _ h)

/-! ## What the loop keeps -/

section Rules

variable {σ : Type} {int : ℤ → Option ℤ} {fetch put : σ → Option σ}

/-- `Inv r i` holds after `r` things were taken and `i` put. -/
structure Keeps (fetch put : σ → Option σ) (inc n : ℕ) (Inv : ℕ → ℕ → σ → Prop) : Prop where
  fetch : ∀ i r s, i < n → r ≤ index inc i → Inv r i s → ∃ s', fetch s = some s' ∧ Inv (r+1) i s'
  put : ∀ i s, i < n → Inv (index inc i+1) i s → ∃ s', put s = some s' ∧ Inv (index inc i+1) (i+1) s'

/-- The counter is ahead of what was put by what was not taken yet. -/
def Counted (inc r i : ℕ) (pos : ℤ) : Prop := 0 ≤ pos ∧ pos+one*r = one+i*inc

variable {inc n r i : ℕ} {pos : ℤ} {s : σ} {Inv : ℕ → ℕ → σ → Prop}

theorem Counted.due (h : Counted inc r i pos) : one ≤ pos ↔ r ≤ index inc i := by
  have hle : r ≤ index inc i ↔ r*one ≤ i*inc := Nat.le_div_iff_mul_le (by decide)
  have hpos := h.2
  rw [hle]
  zify
  constructor
  · intro hone
    linarith
  · intro hmul
    linarith

theorem Counted.taken (h : Counted inc r i pos) (hone : one ≤ pos) : Counted inc (r+1) i (pos-one) := by
  have hpos := h.2
  refine ⟨sub_nonneg.mpr hone, ?_⟩
  push_cast
  linarith

theorem Counted.adds (h : Counted inc r i pos) : Counted inc r (i+1) (pos+inc) := by
  have hpos := h.2
  refine ⟨add_nonneg h.1 (Int.natCast_nonneg inc), ?_⟩
  push_cast
  linarith

/-- Each round of the inner loop takes what is due, and none is left when it ends. -/
theorem drain_keeps (hk : Keeps fetch put inc n Inv) (hi : i < n) (hc : Counted inc r i pos)
    (hr : r ≤ index inc i+1) (hinv : Inv r i s) :
    ∃ pos' s', drain fetch pos s = some (pos', s') ∧ pos' < one ∧
      Counted inc (index inc i+1) i pos' ∧ Inv (index inc i+1) i s' := by
  induction pos, s using drain.induct generalizing r with
  | case1 pos s hone ih =>
    have hdue := hc.due.mp hone
    obtain ⟨s', hfetch, hinv'⟩ := hk.fetch i r s hi hdue hinv
    obtain ⟨pos', s'', hrun, hrest⟩ := ih s' (hc.taken hone) (Nat.succ_le_succ hdue) hinv'
    rw [drain, if_pos hone, hfetch, Option.bind_some]
    exact ⟨pos', s'', hrun, hrest⟩
  | case2 pos s hone =>
    have hlast : r = index inc i+1 := by
      have hdue := mt hc.due.mpr hone
      omega
    rw [drain, if_neg hone]
    subst hlast
    exact ⟨pos, s, rfl, not_le.mp hone, hc, hinv⟩

/-- The number of things taken before the `i`-th is put. -/
def taken (inc : ℕ) : ℕ → ℕ
  | 0 => 0
  | i+1 => index inc i+1

theorem taken_le (inc i : ℕ) : taken inc i ≤ index inc i+1 := by
  cases i with
  | zero => exact Nat.zero_le _
  | succ i => exact Nat.succ_le_succ (index_mono inc (Nat.le_succ i))

/-- The loop ends, and its invariant holds. -/
theorem scale_keeps (hk : Keeps fetch put inc n Inv) (hint : ∀ z : ℤ, 0 ≤ z → z < one+inc → int z = some z)
    {m : ℕ} (hm : i+m = n) (hc : Counted inc (taken inc i) i pos) (hinv : Inv (taken inc i) i s) :
    ∃ pos' s', scale int fetch put inc m pos s = some (pos', s') ∧ Inv (taken inc n) n s' := by
  induction m generalizing i pos s with
  | zero =>
    subst hm
    exact ⟨pos, s, rfl, hinv⟩
  | succ m ih =>
    have hi : i < n := by omega
    obtain ⟨pos₁, s₁, hdrain, hlt, hc₁, hinv₁⟩ := drain_keeps hk hi hc (taken_le inc i) hinv
    obtain ⟨s₂, hput, hinv₂⟩ := hk.put i s₁ hi hinv₁
    have hsum : int (pos₁+inc) = some (pos₁+inc) := hint _ hc₁.adds.1 (by linarith)
    obtain ⟨pos', s', hrun, hend⟩ := ih (i := i+1) (by omega) hc₁.adds hinv₂
    refine ⟨pos', s', ?_, hend⟩
    rw [scale, hdrain, Option.bind_eq_bind, Option.bind_some]
    dsimp only
    rw [hput, Option.bind_eq_bind, Option.bind_some, hsum, Option.bind_eq_bind, Option.bind_some]
    exact hrun

/-- From the first thing on, with a counter of one. -/
theorem scale_run (hk : Keeps fetch put inc n Inv) (hint : ∀ z : ℤ, 0 ≤ z → z < one+inc → int z = some z)
    (hinv : Inv 0 0 s) :
    ∃ pos' s', scale int fetch put inc n one s = some (pos', s') ∧ Inv (taken inc n) n s' := by
  have hc : Counted inc (taken inc 0) 0 one := by
    simp [Counted, taken]
  exact scale_keeps hk hint (Nat.zero_add n) hc hinv

end Rules

end BabyOS.FixedPoint

import Mathlib

/-!
# Sums that change in one place

Sums over the first numbers, where the summands of two sums agree but for one.
-/

set_option autoImplicit false

namespace BabyOS.RangeSums

variable {α : Type} {n p : ℕ}

/-- Two sums that differ in one place. -/
theorem sum_change (hp : p < n) {f f' : ℕ → ℕ} (h : ∀ q < n, q ≠ p → f' q = f q) :
    ∑ q ∈ Finset.range n, f' q+f p = ∑ q ∈ Finset.range n, f q+f' p := by
  have hmem := Finset.mem_range.mpr hp
  have hrest : ∑ q ∈ Finset.range n \ {p}, f' q = ∑ q ∈ Finset.range n \ {p}, f q := by
    apply Finset.sum_congr rfl
    intro q hq
    obtain ⟨hlt, hne⟩ := Finset.mem_sdiff.mp hq
    exact h q (Finset.mem_range.mp hlt) (fun hc => hne (Finset.mem_singleton.mpr hc))
  rw [Finset.sum_eq_add_sum_sdiff_singleton_of_mem hmem f',
    Finset.sum_eq_add_sum_sdiff_singleton_of_mem hmem f, hrest]
  omega

/-- One of the values is replaced. -/
theorem sum_update (hp : p < n) (w : α → ℕ) (x : ℕ → α) (y : α) :
    ∑ q ∈ Finset.range n, w (Function.update x p y q)+w (x p) =
      ∑ q ∈ Finset.range n, w (x q)+w y := by
  have hsum := @sum_change _ _ hp (fun q => w (x q)) (fun q => w (Function.update x p y q))
    (fun q _ hq => by rw [Function.update_of_ne hq])
  rwa [Function.update_self] at hsum

end BabyOS.RangeSums

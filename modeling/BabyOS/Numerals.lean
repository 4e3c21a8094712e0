import Mathlib

/-!
# Numerals

The digits of a number in a base, with one digit for zero, and how many there are.
-/

set_option autoImplicit false

namespace BabyOS.Numerals

/-- The digits, last one first. -/
def lowDigits (b n : ℕ) : List ℕ := if n = 0 then [0] else Nat.digits b n

variable {b n : ℕ}

/-- One round of dividing by the base. -/
theorem lowDigits_step (hb : 1 < b) (n : ℕ) :
    lowDigits b n = n%b :: if n/b = 0 then [] else lowDigits b (n/b) := by
  by_cases hn : n = 0
  · subst hn
    rw [Nat.zero_mod, Nat.zero_div, if_pos rfl, lowDigits, if_pos rfl]
  · rw [lowDigits, if_neg hn, Nat.digits_def' hb (Nat.pos_of_ne_zero hn)]
    by_cases hq : n/b = 0
    · rw [if_pos hq, hq, Nat.digits_zero]
    · rw [if_neg hq, lowDigits, if_neg hq]

theorem lowDigits_pos (hb : 1 < b) (n : ℕ) : 0 < (lowDigits b n).length := by
  rw [lowDigits_step hb]
  exact Nat.succ_pos _

/-- Positive counts of digits are bounds by powers of the base. -/
theorem lowDigits_length_le (hb : 1 < b) {k : ℕ} (hk : 0 < k) :
    (lowDigits b n).length ≤ k ↔ n < b^k := by
  rw [lowDigits]
  split
  next hn =>
    subst hn
    exact iff_of_true hk (Nat.pow_pos (by omega))
  next => exact Nat.digits_length_le_iff hb n

end BabyOS.Numerals

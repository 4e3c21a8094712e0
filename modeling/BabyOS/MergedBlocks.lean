import BabyOS.DyadicBlocks

/-!
# Families that are merged

A separated family whose blocks are as large as they can be, up to a largest order: no two
halves of one block are both in it. Such a family is known from the points that it covers.
-/

set_option autoImplicit false

namespace BabyOS.MergedBlocks
open BabyOS.DyadicBlocks

structure Merged (n : ℕ) (F : Family) : Prop where
  separated : Separated F
  order : ∀ k i, i ∈ F k → k ≤ n
  apart : ∀ k < n, ∀ i, ¬ (2*i ∈ F k ∧ 2*i+1 ∈ F k)

variable {n k i : ℕ} {F F' : Family}

theorem first_div {j : ℕ} (hkj : k ≤ j) (i : ℕ) : i*2 ^ k / 2 ^ j = i / 2 ^ (j-k) := by
  obtain ⟨d, rfl⟩ := Nat.exists_eq_add_of_le hkj
  rw [Nat.add_sub_cancel_left, Nat.pow_add, ← Nat.div_div_eq_div_mul, Nat.mul_div_cancel i (Nat.two_pow_pos k)]

/-- A block that is covered lies in one block of the family. -/
theorem Merged.covers (h : Merged n F) (hk : k ≤ n) (hcover : ∀ p ∈ block k i, Covered F p) :
    ∃ j, k ≤ j ∧ i / 2 ^ (j-k) ∈ F j := by
  induction k generalizing i with
  | zero =>
    obtain ⟨j, hj⟩ := hcover i (by rw [mem_block, Nat.pow_zero, Nat.div_one])
    exact ⟨j, Nat.zero_le j, hj⟩
  | succ k ih =>
    obtain ⟨j, hkj, hj⟩ := ih (i := 2*i) (by omega) (fun p hp => hcover p ((mem_block_succ p k i).mpr (Or.inl hp)))
    obtain ⟨l, hkl, hl⟩ := ih (i := 2*i+1) (by omega) (fun p hp => hcover p ((mem_block_succ p k i).mpr (Or.inr hp)))
    have hup : ∀ e r, r < 2 → 0 < e → (2*i+r) / 2 ^ e = i / 2 ^ (e-1) := by
      intro e r hr he
      obtain ⟨d, rfl⟩ := Nat.exists_eq_succ_of_ne_zero (Nat.pos_iff_ne_zero.mp he)
      have hhalf : (2*i+r) / 2 = i := by omega
      rw [Nat.succ_sub_one, Nat.pow_succ', ← Nat.div_div_eq_div_mul, hhalf]
    by_cases hjk : j = k
    · by_cases hlk : l = k
      · -- both halves would be in the family
        subst hjk
        subst hlk
        rw [Nat.sub_self, Nat.pow_zero, Nat.div_one] at hj hl
        exact absurd ⟨hj, hl⟩ (h.apart l (by omega) i)
      · refine ⟨l, by omega, ?_⟩
        rw [hup _ 1 (by decide) (by omega)] at hl
        rwa [show l-(k+1) = l-k-1 by omega]
    · refine ⟨j, by omega, ?_⟩
      have hsame := hup (j-k) 0 (by decide) (by omega)
      rw [Nat.add_zero] at hsame
      rw [hsame] at hj
      rwa [show j-(k+1) = j-k-1 by omega]

/-- The blocks are the largest ones that are covered. -/
theorem Merged.mem_iff (h : Merged n F) : i ∈ F k ↔ k ≤ n ∧ (∀ p ∈ block k i, Covered F p) ∧
    (k < n → ¬ ∀ p ∈ block (k+1) (i / 2), Covered F p) := by
  constructor
  · intro hi
    refine ⟨h.order k i hi, fun p hp => ⟨k, ?_⟩, fun hlt hall => ?_⟩
    · rw [mem_block] at hp
      rw [hp]
      exact hi
    · obtain ⟨j, hkj, hj⟩ := h.covers hlt hall
      have hfirst : i*2 ^ k / 2 ^ j ∈ F j := by
        rw [first_div (by omega), show j-k = (j-(k+1))+1 by omega, Nat.pow_succ', ← Nat.div_div_eq_div_mul]
        exact hj
      have hself : i*2 ^ k / 2 ^ k ∈ F k := by
        rw [Nat.mul_div_cancel i (Nat.two_pow_pos k)]
        exact hi
      have := h.separated (i*2 ^ k) j k hfirst hself
      omega
  · rintro ⟨hk, hcover, hparent⟩
    obtain ⟨j, hkj, hj⟩ := h.covers hk hcover
    by_cases hjk : j = k
    · subst hjk
      rwa [Nat.sub_self, Nat.pow_zero, Nat.div_one] at hj
    · have hjn := h.order j _ hj
      refine absurd (fun p hp => ⟨j, ?_⟩) (hparent (by omega))
      rw [mem_block] at hp
      have hp' : p / 2 ^ j = i / 2 / 2 ^ (j-(k+1)) := by
        rw [← hp, Nat.div_div_eq_div_mul, ← Nat.pow_add, Nat.add_sub_cancel' (by omega)]
      rw [hp', Nat.div_div_eq_div_mul, ← Nat.pow_succ', show (j-(k+1)).succ = j-k by omega]
      exact hj

/-- Two merged families that cover the same points are the same. -/
theorem merged_unique (h : Merged n F) (h' : Merged n F') (hsame : ∀ p, Covered F p ↔ Covered F' p) : F = F' := by
  funext k
  ext i
  rw [h.mem_iff, h'.mem_iff]
  simp only [hsame]

end BabyOS.MergedBlocks

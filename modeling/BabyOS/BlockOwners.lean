import Mathlib

/-!
# Blocks and their owners

Blocks are numbered, some are reserved, and each place that can own a block has the
number of its block, or zero. A block is marked as used just when it is reserved,
owned, or in hand on its way between the two.
-/

set_option autoImplicit false

namespace BabyOS.BlockOwners

variable {ι : Type}

/-- The blocks from `first` on are shared out: no two places have the same one. -/
structure Owned (first bound : ℕ) (used held : ℕ → Prop) (place : ι → ℕ) : Prop where
  positive : 0 < first
  range : ∀ a, place a ≠ 0 → first ≤ place a ∧ place a < bound
  unique : ∀ a b, place a ≠ 0 → place a = place b → a = b
  inHand : ∀ n, held n → first ≤ n ∧ n < bound
  apart : ∀ a, ¬ held (place a)
  marks : ∀ n < bound, used n ↔ n < first ∨ held n ∨ ∃ a, place a = n

section Moves

variable {first bound n : ℕ} {used used' held held' : ℕ → Prop} {place place' : ι → ℕ}

/-- An unused block is free. -/
theorem Owned.free (h : Owned first bound used held place) (hn : n < bound) (hfree : ¬ used n) :
    first ≤ n ∧ ¬ held n ∧ ∀ a, place a ≠ n := by
  have hmarks := mt (h.marks n hn).mpr hfree
  refine ⟨?_, fun hc => hmarks (Or.inr (Or.inl hc)), fun a ha => hmarks (Or.inr (Or.inr ⟨a, ha⟩))⟩
  exact Nat.le_of_not_lt (fun hc => hmarks (Or.inl hc))

theorem Owned.isUsed (h : Owned first bound used held place) {a : ι} (ha : place a ≠ 0) :
    used (place a) := by
  exact (h.marks _ (h.range a ha).2).mpr (Or.inr (Or.inr ⟨a, rfl⟩))

/-- A free block is marked, and is in hand. -/
theorem Owned.claim (h : Owned first bound used held place) (hn : n < bound) (hfree : ¬ used n)
    (hused : ∀ m, used' m ↔ used m ∨ m = n) (hheld : ∀ m, held' m ↔ held m ∨ m = n) :
    Owned first bound used' held' place := by
  obtain ⟨hfirst, hnot, hnone⟩ := h.free hn hfree
  refine ⟨h.positive, h.range, h.unique, fun m hm => ?_, fun a ha => ?_, fun m hm => ?_⟩
  · obtain hm | rfl := (hheld m).mp hm
    · exact h.inHand m hm
    · exact ⟨hfirst, hn⟩
  · obtain ha | ha := (hheld _).mp ha
    · exact h.apart a ha
    · exact hnone a ha
  · rw [hused, hheld, h.marks m hm]
    tauto

/-- A block in hand goes to a place that is empty. -/
theorem Owned.assign [DecidableEq ι] {a : ι} (h : Owned first bound used held place)
    (hn : held n) (hempty : place a = 0) (hplace : place' = Function.update place a n)
    (hheld : ∀ m, held' m ↔ held m ∧ m ≠ n) : Owned first bound used held' place' := by
  have hpos : n ≠ 0 := by
    have hfirst := (h.inHand n hn).1
    have hpositive := h.positive
    omega
  have hself : place' a = n := by rw [hplace, Function.update_self]
  have hother : ∀ b, b ≠ a → place' b = place b := by
    intro b hb
    rw [hplace, Function.update_of_ne hb]
  refine ⟨h.positive, fun b hb => ?_, fun b c hb hbc => ?_, fun m hm => ?_, fun b hb => ?_,
    fun m hm => ?_⟩
  · by_cases hba : b = a
    · subst hba
      rw [hself]
      exact h.inHand n hn
    · rw [hother b hba] at hb ⊢
      exact h.range b hb
  · by_cases hba : b = a
    · by_cases hca : c = a
      · rw [hba, hca]
      · rw [hba, hself, hother c hca] at hbc
        exact absurd (hbc ▸ hn) (h.apart c)
    · by_cases hca : c = a
      · rw [hca, hself, hother b hba] at hbc
        exact absurd (hbc ▸ hn) (h.apart b)
      · rw [hother b hba] at hb hbc
        rw [hother c hca] at hbc
        exact h.unique b c hb hbc
  · exact h.inHand m ((hheld m).mp hm).1
  · obtain ⟨hb, hne⟩ := (hheld _).mp hb
    by_cases hba : b = a
    · subst hba
      exact hne hself
    · rw [hother b hba] at hb
      exact h.apart b hb
  · rw [h.marks m hm, hheld]
    constructor
    · rintro (hlt | hm | ⟨b, rfl⟩)
      · exact Or.inl hlt
      · by_cases hmn : m = n
        · exact Or.inr (Or.inr ⟨a, hself.trans hmn.symm⟩)
        · exact Or.inr (Or.inl ⟨hm, hmn⟩)
      · by_cases hba : b = a
        · subst hba
          rw [hempty]
          exact Or.inl h.positive
        · exact Or.inr (Or.inr ⟨b, hother b hba⟩)
    · rintro (hlt | hm | ⟨b, rfl⟩)
      · exact Or.inl hlt
      · exact Or.inr (Or.inl hm.1)
      · by_cases hba : b = a
        · subst hba
          rw [hself]
          exact Or.inr (Or.inl hn)
        · exact Or.inr (Or.inr ⟨b, (hother b hba).symm⟩)

/-- Some places give up their blocks, which are then in hand. -/
theorem Owned.forget {gone : ι → Prop} (h : Owned first bound used held place)
    (hgone : ∀ a, gone a → place' a = 0) (hkept : ∀ a, ¬ gone a → place' a = place a)
    (hheld : ∀ m, held' m ↔ held m ∨ m ≠ 0 ∧ ∃ a, gone a ∧ place a = m) :
    Owned first bound used held' place' := by
  have hkeep : ∀ a, place' a ≠ 0 → ¬ gone a ∧ place' a = place a := by
    intro a ha
    have hnot : ¬ gone a := fun hc => ha (hgone a hc)
    exact ⟨hnot, hkept a hnot⟩
  refine ⟨h.positive, fun a ha => ?_, fun a b ha hab => ?_, fun m hm => ?_, fun a ha => ?_,
    fun m hm => ?_⟩
  · obtain ⟨-, heq⟩ := hkeep a ha
    rw [heq] at ha ⊢
    exact h.range a ha
  · obtain ⟨-, heqa⟩ := hkeep a ha
    obtain ⟨-, heqb⟩ := hkeep b (by rwa [← hab])
    rw [heqa] at ha
    rw [heqa, heqb] at hab
    exact h.unique a b ha hab
  · obtain hm | ⟨hm, a, -, rfl⟩ := (hheld m).mp hm
    · exact h.inHand m hm
    · exact h.range a hm
  · have hrange : first ≤ place' a := by
      obtain ha | ⟨hne, b, -, hb⟩ := (hheld _).mp ha
      · exact (h.inHand _ ha).1
      · rw [← hb] at hne ⊢
        exact (h.range b hne).1
    have hpositive := h.positive
    obtain ⟨hnot, heq⟩ := hkeep a (by omega)
    obtain ha | ⟨hne, b, hb, hba⟩ := (hheld _).mp ha
    · rw [heq] at ha
      exact h.apart a ha
    · rw [heq] at hba
      obtain rfl := h.unique b a (by rw [hba, ← heq]; exact hne) hba
      exact hnot hb
  · rw [h.marks m hm, hheld]
    constructor
    · rintro (hlt | hm | ⟨a, rfl⟩)
      · exact Or.inl hlt
      · exact Or.inr (Or.inl (Or.inl hm))
      · by_cases ha : gone a
        · by_cases hzero : place a = 0
          · rw [hzero]
            exact Or.inl h.positive
          · exact Or.inr (Or.inl (Or.inr ⟨hzero, a, ha, rfl⟩))
        · exact Or.inr (Or.inr ⟨a, hkept a ha⟩)
    · rintro (hlt | (hm | ⟨-, a, -, rfl⟩) | ⟨a, rfl⟩)
      · exact Or.inl hlt
      · exact Or.inr (Or.inl hm)
      · exact Or.inr (Or.inr ⟨a, rfl⟩)
      · by_cases ha : gone a
        · rw [hgone a ha]
          exact Or.inl h.positive
        · exact Or.inr (Or.inr ⟨a, (hkept a ha).symm⟩)

/-- A block in hand is given back. -/
theorem Owned.release (h : Owned first bound used held place) (hn : held n)
    (hused : ∀ m, used' m ↔ used m ∧ m ≠ n) (hheld : ∀ m, held' m ↔ held m ∧ m ≠ n) :
    Owned first bound used' held' place := by
  have hfirst := (h.inHand n hn).1
  refine ⟨h.positive, h.range, h.unique, fun m hm => h.inHand m ((hheld m).mp hm).1,
    fun a ha => h.apart a ((hheld _).mp ha).1, fun m hm => ?_⟩
  rw [hused, hheld, h.marks m hm]
  constructor
  · rintro ⟨hlt | hm | hplace, hne⟩
    · exact Or.inl hlt
    · exact Or.inr (Or.inl ⟨hm, hne⟩)
    · exact Or.inr (Or.inr hplace)
  · rintro (hlt | ⟨hm, hne⟩ | ⟨a, rfl⟩)
    · exact ⟨Or.inl hlt, by omega⟩
    · exact ⟨Or.inr (Or.inl hm), hne⟩
    · exact ⟨Or.inr (Or.inr ⟨a, rfl⟩), fun hc => h.apart a (hc ▸ hn)⟩

/-- The same marks and places, said otherwise. -/
theorem Owned.congr (h : Owned first bound used held place) (hused : ∀ m, used' m ↔ used m)
    (hheld : ∀ m, held' m ↔ held m) (hplace : ∀ a, place' a = place a) :
    Owned first bound used' held' place' := by
  obtain rfl : used' = used := funext (fun m => propext (hused m))
  obtain rfl : held' = held := funext (fun m => propext (hheld m))
  obtain rfl : place' = place := funext hplace
  exact h

end Moves

end BabyOS.BlockOwners

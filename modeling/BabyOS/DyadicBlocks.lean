import Mathlib

/-!
# Families of dyadic blocks

Block `i` of order `k` is the set of points `p` with `p / 2 ^ k = i`. A family
assigns to each order the indices of its blocks. Families are separated when no
point lies in blocks of two different orders; two blocks of one order meet only
if they are equal. Nothing here depends on how a family is stored.
-/

set_option autoImplicit false

namespace BabyOS.DyadicBlocks

abbrev Family := ℕ → Set ℕ

def block (k i : ℕ) : Set ℕ := {p | p / 2 ^ k = i}

def Covered (F : Family) (p : ℕ) : Prop := ∃ k, p / 2 ^ k ∈ F k

def Separated (F : Family) : Prop :=
  ∀ p j k, p / 2 ^ j ∈ F j → p / 2 ^ k ∈ F k → j = k

def adjoin (F : Family) (k i : ℕ) : Family :=
  fun j => {x | x ∈ F j ∨ (j = k ∧ x = i)}

def delete (F : Family) (k i : ℕ) : Family :=
  fun j => {x | x ∈ F j ∧ ¬ (j = k ∧ x = i)}

@[simp] theorem mem_block (k i p : ℕ) : p ∈ block k i ↔ p / 2 ^ k = i := Iff.rfl

@[simp] theorem mem_adjoin (F : Family) (k i j x : ℕ) :
    x ∈ adjoin F k i j ↔ x ∈ F j ∨ (j = k ∧ x = i) := Iff.rfl

@[simp] theorem mem_delete (F : Family) (k i j x : ℕ) :
    x ∈ delete F k i j ↔ x ∈ F j ∧ ¬ (j = k ∧ x = i) := Iff.rfl

theorem div_succ (p k : ℕ) : p / 2 ^ (k+1) = p / 2 ^ k / 2 := by
  rw [pow_succ, Nat.div_div_eq_div_mul]

/-- A block of order `k+1` is the disjoint union of its two halves. -/
theorem mem_block_succ (p k i : ℕ) :
    p ∈ block (k+1) i ↔ p ∈ block k (2*i) ∨ p ∈ block k (2*i+1) := by
  simp only [mem_block, div_succ]
  omega

theorem first_mem_block (k i : ℕ) : i * 2 ^ k ∈ block k i :=
  Nat.mul_div_cancel i (by positivity)

theorem mem_block_iff (k i p : ℕ) : p ∈ block k i ↔ i * 2 ^ k ≤ p ∧ p < i * 2 ^ k + 2 ^ k := by
  have hp : 0 < 2 ^ k := by positivity
  rw [mem_block, Nat.div_eq_iff hp]
  omega

theorem covered_adjoin (F : Family) (k i p : ℕ) :
    Covered (adjoin F k i) p ↔ Covered F p ∨ p ∈ block k i := by
  constructor
  · rintro ⟨j, hj | ⟨rfl, hj⟩⟩
    · exact Or.inl ⟨j, hj⟩
    · exact Or.inr hj
  · rintro (⟨j, hj⟩ | h)
    · exact ⟨j, Or.inl hj⟩
    · exact ⟨k, Or.inr ⟨rfl, h⟩⟩

theorem covered_delete {F : Family} (hs : Separated F) {k i : ℕ} (hi : i ∈ F k) (p : ℕ) :
    Covered (delete F k i) p ↔ Covered F p ∧ p ∉ block k i := by
  constructor
  · rintro ⟨j, hj, hne⟩
    refine ⟨⟨j, hj⟩, fun hp => ?_⟩
    have hk : p / 2 ^ k ∈ F k := by rw [mem_block] at hp; rwa [hp]
    have := hs p j k hj hk
    subst this
    exact hne ⟨rfl, hp⟩
  · rintro ⟨⟨j, hj⟩, hp⟩
    refine ⟨j, hj, ?_⟩
    rintro ⟨rfl, h⟩
    exact hp h

theorem separated_adjoin {F : Family} (hs : Separated F) {k i : ℕ}
    (hfree : ∀ p ∈ block k i, ¬ Covered F p) : Separated (adjoin F k i) := by
  rintro p j l (hj | ⟨rfl, hj⟩) (hl | ⟨rfl, hl⟩)
  · exact hs p j l hj hl
  · exact absurd ⟨j, hj⟩ (hfree p hl)
  · exact absurd ⟨l, hl⟩ (hfree p hj)
  · rfl

theorem separated_delete {F : Family} (hs : Separated F) (k i : ℕ) : Separated (delete F k i) :=
  fun p j l hj hl => hs p j l hj.1 hl.1

/-- Two blocks of a separated family that share a point are the same block. -/
theorem separated_disjoint {F : Family} (hs : Separated F) {j k x y p : ℕ}
    (hx : x ∈ F j) (hy : y ∈ F k) (hpx : p ∈ block j x) (hpy : p ∈ block k y) :
    j = k ∧ x = y := by
  rw [mem_block] at hpx hpy
  have hj : p / 2 ^ j ∈ F j := by rwa [hpx]
  have hk : p / 2 ^ k ∈ F k := by rwa [hpy]
  have h := hs p j k hj hk
  subst h
  exact ⟨rfl, hpx.symm.trans hpy⟩

/-- A block whose points are uncovered is not in the family. -/
theorem not_mem_of_uncovered {F : Family} {k i : ℕ} (h : ∀ p ∈ block k i, ¬ Covered F p) :
    i ∉ F k := by
  intro hi
  have hp := first_mem_block k i
  exact h _ hp ⟨k, by rw [mem_block] at hp; rwa [hp]⟩

/-- The other half of the pair that block `i` belongs to. -/
def sibling (i : ℕ) : ℕ := if i % 2 = 0 then i+1 else i-1

theorem sibling_div (i : ℕ) : sibling i / 2 = i / 2 := by
  unfold sibling
  split <;> omega

theorem sibling_ne (i : ℕ) : sibling i ≠ i := by
  unfold sibling
  split <;> omega

theorem mem_pair (i p k : ℕ) :
    p ∈ block (k+1) (i/2) ↔ p ∈ block k i ∨ p ∈ block k (sibling i) := by
  simp only [mem_block, div_succ, sibling]
  split <;> omega

end BabyOS.DyadicBlocks

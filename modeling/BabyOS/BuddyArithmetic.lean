import BabyOS.BuddyMachine

/-!
# Masks and buddies as block indices

The code computes with masks and exclusive-or on physical addresses. On the
addresses that occur these are operations on block indices: a block of order
`k` with index `i` starts at `i * 2 ^ (12+k)`, its buddy is the sibling index,
and its bit in the bitmap is its pair index counted from the base.
-/

set_option autoImplicit false

namespace BabyOS.BuddyArithmetic
open BabyOS.DyadicBlocks BabyOS.BuddyMachine

def blockAddr (k i : ℕ) : ℕ := i*2 ^ (pageShift+k)

def frameOf (addr : ℕ) : ℕ := addr / pageSize

theorem mapNr_eq (addr : ℕ) : mapNr addr = frameOf addr := by
  simp [mapNr, frameOf, pageShift, pageSize, Nat.shiftRight_eq_div_pow]

theorem frame_block (k i : ℕ) : frameOf (blockAddr k i) = i*2 ^ k := by
  have h : i*2 ^ (pageShift+k) = i*2 ^ k*4096 := by
    rw [pageShift, pow_add]
    ring
  rw [frameOf, blockAddr, pageSize, h, Nat.mul_div_cancel _ (by norm_num)]

theorem blockAddr_injective (k : ℕ) : Function.Injective (blockAddr k) := by
  intro i j h
  exact Nat.eq_of_mul_eq_mul_right (by positivity) h

theorem pageMask_eq (k : ℕ) (hk : pageShift+k ≤ 64) :
    pageMask k = (2 ^ (64-(pageShift+k))-1) <<< (pageShift+k) := by
  have h : 2 ^ 64 = 2 ^ (64-(pageShift+k))*2 ^ (pageShift+k) := by
    rw [← pow_add, Nat.sub_add_cancel hk]
  rw [pageMask, Nat.shiftLeft_eq, Nat.sub_mul, ← h, one_mul]

/-- Masking rounds down to a multiple of the block size. -/
theorem land_pageMask (a k : ℕ) (ha : a < 2 ^ 64) (hk : pageShift+k ≤ 64) :
    a &&& pageMask k = blockAddr k (a / 2 ^ (pageShift+k)) := by
  rw [pageMask_eq k hk, blockAddr, ← Nat.shiftLeft_eq]
  apply Nat.eq_of_testBit_eq
  intro b
  rw [Nat.testBit_and, Nat.testBit_shiftLeft, Nat.testBit_shiftLeft, Nat.testBit_two_pow_sub_one,
    ← Nat.shiftRight_eq_div_pow, Nat.testBit_shiftRight]
  by_cases hb : pageShift+k ≤ b
  · have hadd : pageShift+k+(b-(pageShift+k)) = b := by omega
    simp only [hb, hadd, decide_true, Bool.true_and]
    by_cases hlt : b < 64
    · simp [show b-(pageShift+k) < 64-(pageShift+k) by omega]
    · have hz : a.testBit b = false :=
        Nat.testBit_lt_two_pow (lt_of_lt_of_le ha (Nat.pow_le_pow_right (by norm_num) (by omega)))
      simp [hz]
  · simp [hb]

/-- The 32-bit mask loses nothing that matters: its negation is the block size
for every order that has buddies. -/
theorem neg_mask (k : ℕ) (hk : k ≤ maxOrder) :
    (2 ^ 32-pageMask k % 2 ^ 32) % 2 ^ 32 = 2 ^ (pageShift+k) := by
  unfold maxOrder at hk
  interval_cases k <;> decide

theorem xor_one (i : ℕ) : i ^^^ 1 = sibling i := by
  unfold sibling
  split
  · exact Nat.xor_one_of_even (Nat.even_iff.mpr ‹_›)
  · exact Nat.xor_one_of_odd (Nat.odd_iff.mpr (by omega))

theorem sibling_add (i b : ℕ) (hb : b % 2 = 0) : sibling i+b = sibling (i+b) := by
  unfold sibling
  split <;> split <;> omega

def Aligned (base : ℕ) : Prop := 2 ^ (pageShift+maxOrder) ∣ base

/-- An aligned base is a whole, even number of blocks of any smaller order. -/
theorem aligned_base {base : ℕ} (hb : Aligned base) {k : ℕ} (hk : k < maxOrder) :
    ∃ b, base = blockAddr k (2*b) ∧ base / 2 ^ (pageShift+k) = 2*b ∧
      base / 2 ^ (pageShift+(k+1)) = b := by
  obtain ⟨c, rfl⟩ := hb
  have hexp : pageShift+maxOrder = (maxOrder-(k+1))+1+(pageShift+k) := by omega
  refine ⟨c*2 ^ (maxOrder-(k+1)), ?_, ?_, ?_⟩
  · rw [blockAddr, hexp, pow_add, pow_succ]
    ring
  · rw [hexp, pow_add, pow_succ, mul_comm, ← mul_assoc,
      Nat.mul_div_cancel _ (by positivity)]
    ring
  · have hexp' : pageShift+maxOrder = (maxOrder-(k+1))+(pageShift+(k+1)) := by omega
    rw [hexp', pow_add, mul_comm, ← mul_assoc, Nat.mul_div_cancel _ (by positivity)]

theorem getBuddy_eq (s : Buddy) {k i : ℕ} (hb : Aligned s.base) (hk : k < maxOrder)
    (hi : s.base ≤ blockAddr k i) :
    s.getBuddy (blockAddr k i) (pageMask k) = blockAddr k (sibling i) := by
  obtain ⟨b, hbase, -, -⟩ := aligned_base hb hk
  have hle : 2*b ≤ i := by
    rw [hbase] at hi
    exact Nat.le_of_mul_le_mul_right hi (by positivity)
  obtain ⟨d, rfl⟩ := Nat.exists_eq_add_of_le hle
  have hsub : blockAddr k (2*b+d)-s.base = d <<< (pageShift+k) := by
    rw [hbase, blockAddr, blockAddr, ← Nat.sub_mul, Nat.add_sub_cancel_left, Nat.shiftLeft_eq]
  have hone : 2 ^ (pageShift+k) = 1 <<< (pageShift+k) := by rw [Nat.shiftLeft_eq, one_mul]
  rw [Buddy.getBuddy, neg_mask k hk.le, hsub, hone, ← Nat.shiftLeft_xor_distrib, xor_one,
    Nat.shiftLeft_eq, hbase, blockAddr, ← Nat.add_mul, sibling_add d (2*b) (by omega),
    Nat.add_comm d, blockAddr]

/-- The bit number of a page in the bitmap of order `k`. -/
theorem pair_index {base : ℕ} (hb : Aligned base) {k : ℕ} (hk : k < maxOrder) (addr : ℕ) :
    mapNr (addr-base) >>> (1+k) = addr / 2 ^ (pageShift+(k+1))-base / 2 ^ (pageShift+(k+1)) := by
  obtain ⟨b, -, -, hdiv⟩ := aligned_base hb hk
  have hdvd : base = 2 ^ (pageShift+(k+1))*b := by
    have hd : 2 ^ (pageShift+(k+1)) ∣ base :=
      dvd_trans (pow_dvd_pow 2 (by unfold maxOrder at *; omega)) hb
    rw [← hdiv, Nat.mul_div_cancel' hd]
  rw [mapNr, ← Nat.shiftRight_add, Nat.shiftRight_eq_div_pow,
    show pageShift+(1+k) = pageShift+(k+1) by omega]
  conv_lhs => rw [hdvd]
  rw [Nat.sub_mul_div, ← hdiv]

theorem blockAddr_succ (k i : ℕ) : blockAddr (k+1) i = blockAddr k (2*i) := by
  rw [blockAddr, blockAddr, ← Nat.add_assoc, pow_succ]
  ring

theorem blockAddr_div (k i : ℕ) : blockAddr k i / 2 ^ (pageShift+(k+1)) = i / 2 := by
  have h : 2 ^ (pageShift+(k+1)) = 2 ^ (pageShift+k)*2 := by rw [← Nat.add_assoc, pow_succ]
  rw [h, ← Nat.div_div_eq_div_mul, blockAddr, Nat.mul_div_cancel _ (by positivity)]

/-- The upper half of a block of order `k+1`. -/
theorem upper_half (k i : ℕ) : blockAddr (k+1) i+pageSize <<< k = blockAddr k (2*i+1) := by
  have h : pageSize <<< k = 2 ^ (pageShift+k) := by
    rw [Nat.shiftLeft_eq, pow_add]
    rfl
  rw [blockAddr_succ, h, blockAddr, blockAddr, Nat.add_mul (2*i) 1, one_mul]

end BabyOS.BuddyArithmetic

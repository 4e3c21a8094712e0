import BabyOS.BuddyArithmetic
import BabyOS.SlabMachine

/-!
# The objects of a slab

What `create` settles: the size of an object, and how many of them fit in a slab behind
its header and its free table.
-/

set_option autoImplicit false

namespace BabyOS.SlabLayout
open BabyOS.BuddyMachine BabyOS.BuddyArithmetic BabyOS.SlabMachine

/-- Where the objects of a slab begin. -/
def objStart (ca : Cache) : ℕ := cacheAlign (ca.numPerSlab*4+slabSize)

def objAddr (ca : Cache) (x i : ℕ) : ℕ := x+objStart ca+i*ca.objsize

/-- Arguments that stay in 32 bits; the alignment is a power of two, up to a cache line. -/
structure Proper (r : Request) : Prop where
  align : ∃ k ≤ 6, r.align = 2 ^ k
  size : r.size+r.align ≤ 2 ^ 30

/-- A cache whose objects have the size and the alignment, and fit in its slabs. -/
structure Sound (r : Request) (ca : Cache) : Prop where
  size : r.size ≤ ca.objsize
  pos : 0 < ca.objsize
  align : r.align ∣ ca.objsize
  line : r.align ∣ 64
  num : 0 < ca.numPerSlab
  room : objStart ca+ca.numPerSlab*ca.objsize ≤ pageSize*2 ^ ca.gfpOrder
  order : ca.gfpOrder < 20

section Places

variable {r : Request} {ca : Cache} {x i j : ℕ}

theorem cacheAlign_le (x : ℕ) : x ≤ cacheAlign x ∧ cacheAlign x < x+64 := by
  rw [cacheAlign]
  omega

theorem cacheAlign_dvd (x : ℕ) : 64 ∣ cacheAlign x := Dvd.intro_left _ rfl

theorem Sound.num_le (h : Sound r ca) : ca.numPerSlab < 2 ^ 29 := by
  have hoffset := (cacheAlign_le (ca.numPerSlab*4+slabSize)).1
  have hroom := h.room
  have hpow : 2 ^ ca.gfpOrder ≤ 2 ^ 19 := Nat.pow_le_pow_right (by decide) (Nat.le_of_lt_succ h.order)
  have hpage : pageSize*2 ^ ca.gfpOrder ≤ pageSize*2 ^ 19 := Nat.mul_le_mul_left _ hpow
  rw [objStart] at hroom
  simp only [pageSize, slabSize] at *
  omega

/-- An object lies behind the free table, in the pages of the slab. -/
theorem Sound.inside (h : Sound r ca) (hi : i < ca.numPerSlab) :
    x+slabSize+ca.numPerSlab*4 ≤ objAddr ca x i ∧
      objAddr ca x i+ca.objsize ≤ x+pageSize*2 ^ ca.gfpOrder := by
  have hoffset := (cacheAlign_le (ca.numPerSlab*4+slabSize)).1
  have hroom := h.room
  have hlast : (i+1)*ca.objsize ≤ ca.numPerSlab*ca.objsize := Nat.mul_le_mul_right _ hi
  rw [Nat.succ_mul] at hlast
  rw [objAddr, objStart] at *
  omega

/-- Two objects of a slab. -/
theorem objAddr_apart (hij : i < j) : objAddr ca x i+ca.objsize ≤ objAddr ca x j := by
  have hnext : (i+1)*ca.objsize ≤ j*ca.objsize := Nat.mul_le_mul_right _ hij
  rw [Nat.succ_mul] at hnext
  rw [objAddr, objAddr]
  omega

theorem Sound.injective (h : Sound r ca) (heq : objAddr ca x i = objAddr ca x j) : i = j := by
  have hpos := h.pos
  rcases Nat.lt_trichotomy i j with hij | hij | hij
  · have := @objAddr_apart ca x i j hij
    omega
  · exact hij
  · have := @objAddr_apart ca x j i hij
    omega

theorem Sound.aligned (h : Sound r ca) (hx : 64 ∣ x) : r.align ∣ objAddr ca x i := by
  have hstart : r.align ∣ x+objStart ca := h.line.trans (Dvd.dvd.add hx (cacheAlign_dvd _))
  exact Dvd.dvd.add hstart (h.align.mul_left i)

end Places

/-! ## Creation -/

section Creation

variable {r : Request} {ca : Cache} {objsize total order maxOrder left i j k : ℕ}

/-- Rounding down to a multiple of a power of two, in 32 bits. -/
theorem land_align (a : ℕ) (hk : k ≤ 32) (ha : a < 2 ^ 32) : a &&& (2 ^ 32-2 ^ k) = a / 2 ^ k*2 ^ k := by
  have hmask : 2 ^ 32-2 ^ k = (2 ^ (32-k)-1) <<< k := by
    rw [Nat.shiftLeft_eq, Nat.sub_mul, ← pow_add, Nat.sub_add_cancel hk, one_mul]
  have hshift : a / 2 ^ k*2 ^ k = (a >>> k) <<< k := by
    rw [Nat.shiftLeft_eq, Nat.shiftRight_eq_div_pow]
  rw [hmask, hshift]
  apply Nat.eq_of_testBit_eq
  intro i
  rw [Nat.testBit_and, Nat.testBit_shiftLeft, Nat.testBit_shiftLeft, Nat.testBit_two_pow_sub_one,
    Nat.testBit_shiftRight]
  by_cases hi : k ≤ i
  · have hadd : k+(i-k) = i := by omega
    rw [hadd]
    by_cases hlt : i < 32
    · simp [hi, show i-k < 32-k by omega]
    · have hzero : a.testBit i = false :=
        Nat.testBit_lt_two_pow (ha.trans_le (Nat.pow_le_pow_right (by decide) (not_lt.mp hlt)))
      simp [hzero]
  · simp [hi]

/-- Without a wrap, the test is the one it is meant to be. -/
theorem fits_iff (hlt : i*objsize+cacheAlign (slabSize+i*4) < 2 ^ 32) :
    fits objsize total i = true ↔ i*objsize+cacheAlign (slabSize+i*4) ≤ total := by
  rw [fits, Nat.mod_eq_of_lt hlt, decide_eq_true_iff]

theorem countFrom_spec (objsize total left i : ℕ) :
    i ≤ countFrom objsize total left i ∧
      (∀ j, i ≤ j → j < countFrom objsize total left i → fits objsize total j = true) ∧
      (countFrom objsize total left i < i+left → fits objsize total (countFrom objsize total left i) = false) := by
  induction left generalizing i with
  | zero => exact ⟨le_rfl, fun j hj hlt => absurd hlt (Nat.not_lt.mpr hj), fun hlt => absurd hlt (Nat.lt_irrefl i)⟩
  | succ left ih =>
    rw [countFrom]
    cases hfits : fits objsize total i with
    | false => exact ⟨le_rfl, fun j hj hlt => absurd hlt (Nat.not_lt.mpr hj), fun _ => hfits⟩
    | true =>
      obtain ⟨hle, hall, hlast⟩ := ih (i+1)
      rw [if_pos rfl]
      refine ⟨by omega, fun j hj hlt => ?_, fun hlt => hlast (by omega)⟩
      rcases Nat.eq_or_lt_of_le hj with rfl | hj
      · exact hfits
      · exact hall j hj hlt

/-- The loop counts what fits, and ends because the next object does not. -/
theorem count_spec (hsize : objsize ≤ 2 ^ 30) (htotal : total ≤ 2 ^ 31) :
    (∀ j < countFrom objsize total (total+1) 0, j*objsize+cacheAlign (slabSize+j*4) ≤ total) ∧
      fits objsize total (countFrom objsize total (total+1) 0) = false := by
  obtain ⟨-, hall, hlast⟩ := countFrom_spec objsize total (total+1) 0
  have hfit : ∀ j < countFrom objsize total (total+1) 0, j*objsize+cacheAlign (slabSize+j*4) ≤ total := by
    intro j hj
    induction j with
    | zero =>
      refine (fits_iff ?_).mp (hall 0 le_rfl hj)
      rw [Nat.zero_mul, Nat.zero_mul]
      decide
    | succ j ih =>
      have hbefore := ih (by omega)
      refine (fits_iff ?_).mp (hall (j+1) (by omega) hj)
      have hnext := (cacheAlign_le (slabSize+(j+1)*4)).2
      have hold := (cacheAlign_le (slabSize+j*4)).1
      rw [Nat.succ_mul]
      omega
  refine ⟨hfit, hlast ?_⟩
  by_contra hge
  have hin := hfit total (by omega)
  have hle := (cacheAlign_le (slabSize+total*4)).1
  rw [slabSize] at hle hin
  omega

theorem estimate_sound (hsize : objsize ≤ 2 ^ 30) (horder : order < 20)
    (hnum : ¬ (estimate objsize order).1 = 0) :
    objStart ⟨objsize, (estimate objsize order).1, order⟩+(estimate objsize order).1*objsize ≤
      pageSize*2 ^ order := by
  have hpow : 2 ^ order ≤ 2 ^ 19 := Nat.pow_le_pow_right (by decide) (Nat.le_of_lt_succ horder)
  have htotal : pageSize <<< order % 2 ^ 32 = pageSize*2 ^ order := by
    rw [Nat.shiftLeft_eq]
    apply Nat.mod_eq_of_lt
    rw [pageSize]
    omega
  obtain ⟨hfit, -⟩ := @count_spec objsize (pageSize*2 ^ order) hsize (by rw [pageSize]; omega)
  simp only [estimate, htotal] at hnum ⊢
  have hlast := hfit (countFrom objsize (pageSize*2 ^ order) (pageSize*2 ^ order+1) 0-1) (by omega)
  rw [objStart, Nat.add_comm (_*4)]
  dsimp only
  omega

theorem chooseOrder_sound (hsize : objsize ≤ 2 ^ 30) (horder : order+left ≤ 20)
    (h : chooseOrder objsize maxOrder left order = some ca) :
    ca.objsize = objsize ∧ 0 < ca.numPerSlab ∧ ca.gfpOrder < 20 ∧
      objStart ca+ca.numPerSlab*objsize ≤ pageSize*2 ^ ca.gfpOrder := by
  induction left generalizing order with
  | zero => cases h
  | succ left ih =>
    rw [chooseOrder] at h
    split at h
    next => exact ih (by omega) h
    next hnum =>
      split at h
      next =>
        cases h
        exact ⟨rfl, Nat.pos_of_ne_zero hnum, by change order < 20; omega, estimate_sound hsize (by omega) hnum⟩
      next => exact ih (by omega) h

/-- A cache that `create` sets up is sound. -/
theorem create_sound (hr : Proper r) (h : create r = some ca) : Sound r ca := by
  obtain ⟨k, hk, halign⟩ := hr.align
  have hbound := hr.size
  have hpos : 0 < 2 ^ k := Nat.two_pow_pos k
  have hline : 2 ^ k ∣ 64 := Nat.pow_dvd_pow 2 hk
  have hobjsize : (r.size+r.align) % 2 ^ 32 &&& (2 ^ 32-r.align) = (r.size+2 ^ k) / 2 ^ k*2 ^ k := by
    rw [Nat.mod_eq_of_lt (by omega), halign]
    rw [halign] at hbound
    exact land_align _ (by omega) (by omega)
  have hceil : (r.size+2 ^ k) / 2 ^ k = r.size / 2 ^ k+1 := Nat.add_div_right _ hpos
  have hdiv := Nat.div_add_mod r.size (2 ^ k)
  have hmod := Nat.mod_lt r.size hpos
  rw [halign] at hbound
  rw [create, hobjsize, hceil] at h
  have hmul : (r.size / 2 ^ k+1)*2 ^ k = 2 ^ k*(r.size / 2 ^ k)+2 ^ k := by ring
  obtain ⟨hsize, hnum, horder, hroom⟩ := chooseOrder_sound (by omega) le_rfl h
  rw [← hsize] at hroom
  refine ⟨by omega, by omega, ?_, halign ▸ hline, hnum, hroom, horder⟩
  rw [hsize, halign]
  exact Dvd.intro_left _ rfl

end Creation

end BabyOS.SlabLayout

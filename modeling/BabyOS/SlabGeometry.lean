import BabyOS.SlabLayout

/-!
# The geometry of slabs

`create` ends for every object that fits a block of pages: the orders it looks at are
small, and in each of them `estimate` counts the objects that fit without a wrap.
-/

set_option autoImplicit false

namespace BabyOS.SlabGeometry
open BabyOS.BuddyMachine BabyOS.SlabMachine BabyOS.SlabLayout

variable {r : Request} {ca : Cache} {objsize order left n k : ℕ}

/-- The bytes of a slab with `n` objects. -/
def used (objsize n : ℕ) : ℕ := n*objsize+cacheAlign (slabSize+n*4)

/-- The orders that a block of pages may have in 32 bits. -/
theorem total_eq (horder : order < 20) : pageSize <<< order % 2^32 = pageSize*2^order ∧ pageSize*2^order ≤ 2^31 := by
  have hpow : 2^order ≤ 2^19 := Nat.pow_le_pow_right (by decide) (Nat.le_of_lt_succ horder)
  have hle : pageSize*2^order ≤ 2^31 := by
    rw [pageSize]
    omega
  rw [Nat.shiftLeft_eq]
  exact ⟨Nat.mod_eq_of_lt (by omega), hle⟩

/-- `estimate` counts what fits: its loop ends where one more object would not fit,
and what it subtracts is there. -/
structure Estimated (objsize order : ℕ) : Prop where
  ended : fits objsize (pageSize*2^order) (countFrom objsize (pageSize*2^order) (pageSize*2^order+1) 0) = false
  most : pageSize*2^order < used objsize ((estimate objsize order).1+1)
  objects : (estimate objsize order).1*objsize ≤ pageSize*2^order
  header : cacheAlign (slabSize+(estimate objsize order).1*4) ≤ pageSize*2^order-(estimate objsize order).1*objsize
  wast : (estimate objsize order).2 =
    pageSize*2^order-(estimate objsize order).1*objsize-cacheAlign (slabSize+(estimate objsize order).1*4)

theorem estimated (hsize : objsize ≤ 2^30) (horder : order < 20) : Estimated objsize order := by
  obtain ⟨htotal, hbound⟩ := total_eq horder
  obtain ⟨hfit, hend⟩ := @count_spec objsize (pageSize*2^order) hsize hbound
  have hpage : 64 ≤ pageSize*2^order := by
    have hpow : 0 < 2^order := Nat.two_pow_pos order
    rw [pageSize]
    omega
  generalize hcount : countFrom objsize (pageSize*2^order) (pageSize*2^order+1) 0 = count at hfit hend
  -- with no object the header fits
  have hpos : count ≠ 0 := by
    rintro rfl
    have hzero : 0*objsize+cacheAlign (slabSize+0*4) = 64 := by
      rw [Nat.zero_mul, Nat.zero_add]
      rfl
    have htrue : fits objsize (pageSize*2^order) 0 = true := by
      refine (fits_iff ?_).mpr ?_
      · rw [hzero]
        decide
      · rw [hzero]
        exact hpage
    rw [htrue] at hend
    cases hend
  have hnum : (estimate objsize order).1 = count-1 := by
    simp only [estimate, htotal, hcount]
  have hlast : used objsize (count-1) ≤ pageSize*2^order := hfit (count-1) (by omega)
  have hnext : pageSize*2^order < used objsize (count-1+1) := by
    have hsucc : count-1+1 = count := by omega
    have hsmall : used objsize count < 2^32 := by
      have hle := (cacheAlign_le (slabSize+count*4)).2
      have hold := (cacheAlign_le (slabSize+(count-1)*4)).1
      have hmul : count*objsize = (count-1)*objsize+objsize := by
        conv_lhs => rw [← hsucc, Nat.succ_mul]
      rw [used] at hlast ⊢
      omega
    rw [hsucc]
    refine lt_of_not_ge fun hge => ?_
    have htrue := (@fits_iff objsize (pageSize*2^order) count hsmall).mpr hge
    rw [htrue] at hend
    cases hend
  rw [used] at hlast
  have hwast : (estimate objsize order).2 =
      (pageSize*2^order+(2^32-((count-1)*objsize+cacheAlign (slabSize+(count-1)*4)) % 2^32)) % 2^32 := by
    simp only [estimate, htotal, hcount]
  refine ⟨hcount ▸ hend, ?_, ?_, ?_, ?_⟩
  · rw [hnum]
    exact hnext
  · rw [hnum]
    omega
  · rw [hnum]
    omega
  · rw [hwast, hnum]
    omega

/-- An object that fits a slab with its header is counted. -/
theorem estimate_pos (hsize : objsize ≤ 2^30) (horder : order < 20) (hfit : used objsize 1 ≤ pageSize*2^order) :
    (estimate objsize order).1 ≠ 0 := by
  intro hzero
  have hmost := (estimated hsize horder).most
  rw [hzero] at hmost
  exact absurd hfit (not_le.mpr hmost)

/-- The loop of `create`: an order with no room is passed, and from the first one with
room on it goes on to order 5 at most. -/
theorem chooseOrder_total {most maxOrder : ℕ} (hsize : objsize ≤ 2^30) (hmost : 5 ≤ most) (hlt : most < 20)
    (hfit : used objsize 1 ≤ pageSize*2^most) (horder : order ≤ most) (hleft : order+left = 20) :
    ∃ found, chooseOrder objsize maxOrder left order = some ⟨objsize, (estimate objsize found).1, found⟩ ∧
      (estimate objsize found).1 ≠ 0 ∧ order ≤ found ∧ found ≤ most := by
  induction left generalizing order with
  | zero => omega
  | succ left ih =>
    have hnext : order < most → ∃ found, chooseOrder objsize maxOrder left (order+1) =
        some ⟨objsize, (estimate objsize found).1, found⟩ ∧
        (estimate objsize found).1 ≠ 0 ∧ order ≤ found ∧ found ≤ most := by
      intro hlow
      obtain ⟨found, hchosen, hnum, hle, hfound⟩ := ih hlow (by omega)
      exact ⟨found, hchosen, hnum, by omega, hfound⟩
    rw [chooseOrder]
    by_cases hnum : (estimate objsize order).1 = 0
    · rw [if_pos hnum]
      refine hnext (lt_of_le_of_ne horder ?_)
      rintro rfl
      exact estimate_pos hsize hlt hfit hnum
    · rw [if_neg hnum]
      by_cases hstop : maxGfpOrder ≤ order ∨ maxOrder ≤ order ∨
          (estimate objsize order).2*8 % 2^32 ≤ pageSize <<< order
      · rw [if_pos hstop]
        exact ⟨order, rfl, hnum, le_rfl, horder⟩
      · rw [if_neg hstop]
        refine hnext ?_
        have hgfp : ¬ maxGfpOrder ≤ order := fun h => hstop (.inl h)
        rw [maxGfpOrder] at hgfp
        omega

/-- What `create` makes of the size. -/
theorem objsize_eq (halign : r.align = 2^k) (hk : k ≤ 6) (hsize : r.size ≤ 2^22) :
    ((r.size+r.align) % 2^32 &&& (2^32-r.align)) = (r.size/2^k+1)*2^k ∧
      r.size < (r.size/2^k+1)*2^k ∧ (r.size/2^k+1)*2^k ≤ r.size+64 := by
  have hpos : 0 < 2^k := Nat.two_pow_pos k
  have hpow : 2^k ≤ 2^6 := Nat.pow_le_pow_right (by decide) hk
  have hdiv := Nat.div_add_mod r.size (2^k)
  have hmod := Nat.mod_lt r.size hpos
  have hmul : (r.size/2^k+1)*2^k = 2^k*(r.size/2^k)+2^k := by ring
  have hceil : (r.size+2^k)/2^k = r.size/2^k+1 := Nat.add_div_right _ hpos
  refine ⟨?_, by omega, by omega⟩
  rw [halign, Nat.mod_eq_of_lt (by omega), land_align _ (by omega) (by omega), hceil]

/-- For every object of up to the largest block of pages, `create` ends with a slab of
at least one object; header, free table and objects fit, one more object does not, and
no subtraction of an `estimate` wraps. -/
theorem create_exact (r : Request) (halign : ∃ k ≤ 6, r.align = 2^k) (hsize : r.size ≤ pageSize*2^maxOrder) :
    ∃ ca, create r = some ca ∧ 1 ≤ ca.numPerSlab ∧ r.size ≤ ca.objsize ∧ r.align ∣ ca.objsize ∧
      slabSize+ca.numPerSlab*4 ≤ objStart ca ∧
      objStart ca+ca.numPerSlab*ca.objsize ≤ pageSize*2^ca.gfpOrder ∧
      pageSize*2^ca.gfpOrder < objStart { ca with numPerSlab := ca.numPerSlab+1 }+(ca.numPerSlab+1)*ca.objsize ∧
      ∀ order ≤ ca.gfpOrder, Estimated ca.objsize order := by
  obtain ⟨k, hk, hpow⟩ := halign
  have hle : r.size ≤ 2^22 := by
    rw [pageSize, maxOrder] at hsize
    omega
  obtain ⟨hobj, hmore, hless⟩ := objsize_eq hpow hk hle
  generalize hos : (r.size/2^k+1)*2^k = objsize at hobj hmore hless
  have hsmall : objsize ≤ 2^30 := by omega
  have hfit : used objsize 1 ≤ pageSize*2^11 := by
    have hround : cacheAlign (slabSize+1*4) = 64 := rfl
    rw [used, hround, pageSize]
    omega
  obtain ⟨found, hchosen, hnum, -, hfound⟩ :=
    @chooseOrder_total objsize 0 20 11 r.maxOrder hsmall (by decide) (by decide) hfit (by decide) rfl
  have hest := @estimated objsize found hsmall (by omega)
  have hcomm : ∀ n, n*4+slabSize = slabSize+n*4 := fun n => Nat.add_comm _ _
  refine ⟨_, by rw [create, hobj]; exact hchosen, Nat.pos_of_ne_zero hnum, hmore.le, ?_, ?_, ?_, ?_, ?_⟩
  · rw [hpow]
    exact Dvd.intro_left _ hos
  · rw [objStart, hcomm]
    exact (cacheAlign_le _).1
  · have hobjects := hest.objects
    have hheader := hest.header
    rw [objStart, hcomm]
    dsimp only
    omega
  · have hmost := hest.most
    rw [used] at hmost
    rw [objStart, hcomm]
    dsimp only
    omega
  · intro order horder
    have hle : order ≤ found := horder
    exact estimated hsmall (by omega)

theorem create_exact_vma : ∃ ca, create ⟨56, 8, 1⟩ = some ca ∧ 1 ≤ ca.numPerSlab ∧ 56 ≤ ca.objsize ∧
    8 ∣ ca.objsize ∧ slabSize+ca.numPerSlab*4 ≤ objStart ca ∧
    objStart ca+ca.numPerSlab*ca.objsize ≤ pageSize*2^ca.gfpOrder ∧
    pageSize*2^ca.gfpOrder < objStart { ca with numPerSlab := ca.numPerSlab+1 }+(ca.numPerSlab+1)*ca.objsize ∧
    ∀ order ≤ ca.gfpOrder, Estimated ca.objsize order :=
  create_exact ⟨56, 8, 1⟩ ⟨3, by decide, rfl⟩ (by decide)

end BabyOS.SlabGeometry

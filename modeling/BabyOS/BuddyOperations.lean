import BabyOS.BuddyInvariant

/-!
# What allocation and release do

`alloc_pages` and `free_pages` in terms of blocks and reference counts. Both keep
the invariant. Their loops are inductions over the order: each round of the
splitting loop puts the lower half of the floating block on a list, each round
of the coalescing loop takes the sibling off its list.
-/

set_option autoImplicit false

namespace BabyOS.BuddyOperations
open BabyOS.DyadicBlocks BabyOS.BuddyMachine BabyOS.BuddyArithmetic BabyOS.BuddyInvariant

variable {G : Geometry} {M X : Set ℕ} {c : ℤ} {s s' : Buddy}

theorem in_map (hR : Region G M) {f k : ℕ} (hf : f ∈ M) (hk : k < maxOrder) :
    G.InMap k (f / 2 ^ (k+1)) := by
  refine ⟨?_, hR.fits f hf k hk⟩
  have h := Nat.div_le_div_right (c := 2 ^ (k+1)) (hR.above f hf)
  rwa [frameOf, Nat.div_div_eq_div_mul, show pageSize = 2 ^ pageShift from rfl, ← pow_add] at h

theorem in_map_block (hR : Region G M) {k i : ℕ} (hM : block k i ⊆ M) (hk : k < maxOrder) :
    G.InMap k (i/2) := by
  have h := in_map hR (hM (first_mem_block k i)) hk
  rwa [div_succ, show i*2 ^ k / 2 ^ k = i from first_mem_block k i] at h

theorem base_le_block (hR : Region G M) {k i : ℕ} (hM : block k i ⊆ M) :
    G.base ≤ blockAddr k i := by
  have h := hR.above _ (hM (first_mem_block k i))
  obtain ⟨b, hb⟩ : pageSize ∣ G.base := dvd_trans (by decide) G.aligned
  have haddr : blockAddr k i = pageSize*(i*2 ^ k) := by
    rw [blockAddr, pow_add, show pageSize = 2 ^ pageShift from rfl]
    ring
  rw [haddr, hb]
  rw [hb, frameOf, Nat.mul_div_cancel_left _ (by decide)] at h
  exact Nat.mul_le_mul_left _ h

theorem block_bounded (hR : Region G M) {k i : ℕ} (hM : block k i ⊆ M) :
    blockAddr k i < 2 ^ 64 := by
  have h := hR.bounded _ (hM (first_mem_block k i))
  have haddr : blockAddr k i = i*2 ^ k*2 ^ 12 := by
    rw [blockAddr, pow_add, pageShift]
    ring
  rw [haddr]
  calc i*2 ^ k*2 ^ 12 < 2 ^ 52*2 ^ 12 := Nat.mul_lt_mul_of_pos_right h (by norm_num)
    _ = 2 ^ 64 := by norm_num

/-- `mark_used` flips the bit of the block's pair. -/
theorem markUsed_eq (hb : s.base = G.base) (hm : s.bitmap = G.bitmap) {k : ℕ} (hk : k < maxOrder)
    (i : ℕ) : s.markUsed (blockAddr k i) k = flipBit s (G.slot k (i/2)) := by
  have hidx : mapNr (blockAddr k i-s.base) >>> (1+k) = i/2-G.firstPair k := by
    rw [hb, pair_index G.aligned hk, blockAddr_div]
    rfl
  rw [Buddy.markUsed, hidx, Buddy.changeBit, flipBit, Geometry.slot, ← hm]

theorem changeBit_eq (s : Buddy) (nr k : ℕ) :
    s.changeBit nr k = (s.bits (s.bitmap k+nr), flipBit s (s.bitmap k+nr)) := rfl

theorem markUsed_top (h : Coherent G M X c s) (addr : ℕ) : Coherent G M X c (s.markUsed addr maxOrder) := by
  apply flip_top h
  rw [h.bitmap]
  exact Nat.le_add_right _ _

/-! ## Page counts -/

theorem frameOf_next (p i : ℕ) : mapNr (p+pageSize*i) = frameOf p+i := by
  rw [mapNr_eq, frameOf, frameOf, Nat.add_mul_div_left _ _ (by decide)]

/-- The counts with `d` added on `n` frames. -/
def addOn (start n : ℕ) (d : ℤ) (ref : ℕ → ℤ) : ℕ → ℤ :=
  fun f => if start ≤ f ∧ f < start+n then ref f+d else ref f

theorem addOn_zero (start : ℕ) (d : ℤ) (ref : ℕ → ℤ) : addOn start 0 d ref = ref := by
  funext f
  have hnone : ¬ (start ≤ f ∧ f < start+0) := by omega
  rw [addOn, if_neg hnone]

theorem addOn_succ (start n : ℕ) (d : ℤ) (ref : ℕ → ℤ) :
    addOn (start+1) n d (Function.update ref start (ref start+d)) = addOn start (n+1) d ref := by
  funext f
  by_cases hf : f = start
  · subst hf
    simp [addOn]
  · simp only [addOn, Function.update_of_ne hf]
    split_ifs <;> first | rfl | omega

theorem addOn_mem {k i f : ℕ} (hf : f ∈ block k i) (d : ℤ) (ref : ℕ → ℤ) :
    addOn (i*2 ^ k) (2 ^ k) d ref f = ref f+d := if_pos ((mem_block_iff k i f).mp hf)

theorem addOn_not_mem {k i f : ℕ} (hf : f ∉ block k i) (d : ℤ) (ref : ℕ → ℤ) :
    addOn (i*2 ^ k) (2 ^ k) d ref f = ref f := if_neg (fun h => hf ((mem_block_iff k i f).mpr h))

theorem incRefs_eq (n p : ℕ) (s : Buddy) :
    Buddy.incRefs n p s = { s with ref := addOn (frameOf p) n 1 s.ref } := by
  induction n generalizing p s with
  | zero => simp [Buddy.incRefs, addOn_zero]
  | succ n ih =>
    have hnext : frameOf (p+pageSize) = frameOf p+1 := by
      have := frameOf_next p 1
      rwa [mul_one, mapNr_eq] at this
    rw [Buddy.incRefs, ih, hnext]
    simp only [Buddy.incPageRef, mapNr_eq, addOn_succ]

/-- The decrements succeed exactly when every count is positive and all of them
report the flag of the first page. -/
theorem decRefs_eq (pa : ℕ) (r : Bool) (n i : ℕ) (s : Buddy) :
    Buddy.decRefs pa r n i s = some s' ↔
      (∀ f, frameOf pa+i ≤ f ∧ f < frameOf pa+i+n → 0 < s.ref f ∧ (s.ref f-1 == 0) = r) ∧
      s' = { s with ref := addOn (frameOf pa+i) n (-1) s.ref } := by
  induction n generalizing i s with
  | zero =>
    have hnone : ∀ f, ¬ (frameOf pa+i ≤ f ∧ f < frameOf pa+i+0) := by omega
    simp only [Buddy.decRefs, hnone, false_implies, implies_true, true_and, addOn_zero,
      Option.some.injEq]
    exact eq_comm
  | succ n ih =>
    rw [Buddy.decRefs, Buddy.decPageRef, frameOf_next]
    by_cases hpos : s.ref (frameOf pa+i) ≤ 0
    · simp only [hpos, if_true, reduceCtorEq, false_iff, not_and]
      intro hall
      have := (hall (frameOf pa+i) (by omega)).1
      omega
    by_cases hr : (s.ref (frameOf pa+i)-1 == 0) = r
    · simp only [hpos, if_false, hr, ne_eq, not_true_eq_false, ih]
      rw [← Nat.add_assoc, Int.sub_eq_add_neg, addOn_succ]
      refine and_congr_left fun _ => ⟨fun hall f hf => ?_, fun hall f hf => ?_⟩
      · by_cases he : f = frameOf pa+i
        · subst he
          exact ⟨by omega, hr⟩
        · have := hall f (by omega)
          rwa [Function.update_of_ne he] at this
      · rw [Function.update_of_ne (by omega)]
        exact hall f (by omega)
    · simp only [hpos, if_false, ne_eq, hr, not_false_eq_true, if_true, reduceCtorEq, false_iff,
        not_and]
      intro hall
      exact absurd (hall (frameOf pa+i) (by omega)).2 hr

/-! ## Allocation -/

/-- The splitting loop leaves a floating block of the wanted order. -/
theorem split_coherent (hR : Region G M) {low high i : ℕ} (hlow : low ≤ high) (hhigh : high ≤ maxOrder)
    (h : Coherent G M (block high i) c s) :
    ∃ j, (Buddy.split low high (blockAddr high i) s).1 = blockAddr low j ∧
      block low j ⊆ block high i ∧
      Coherent G M (block low j) (c+(2 ^ high-2 ^ low)) (Buddy.split low high (blockAddr high i) s).2 ∧
      (Buddy.split low high (blockAddr high i) s).2.ref = s.ref := by
  induction high generalizing i c s with
  | zero =>
    obtain rfl : low = 0 := by omega
    exact ⟨i, rfl, subset_rfl, by simpa [Buddy.split] using h, rfl⟩
  | succ high ih =>
    by_cases hlt : low < high+1
    · have hk : high < maxOrder := by omega
      have hsub : block high (2*i) ⊆ block (high+1) i :=
        fun p hp => (mem_block_succ p high i).mpr (Or.inl hp)
      have hsub' : block high (2*i+1) ⊆ block (high+1) i :=
        fun p hp => (mem_block_succ p high i).mpr (Or.inr hp)
      have hrest : block (high+1) i \ block high (2*i) = block high (2*i+1) := by
        ext p
        rw [Set.mem_sdiff, mem_block_succ]
        simp only [mem_block]
        omega
      have hin : G.InMap high (2*i/2) :=
        in_map_block hR (fun p hp => h.managed p (Or.inr (hsub hp))) hk
      -- neither half can be on a list: both float
      have hleft : 2*i ∉ freeFamily s high :=
        not_mem_of_uncovered fun p hp => h.floating p (hsub hp)
      have hright : sibling (2*i) ∉ freeFamily s high := by
        rw [show sibling (2*i) = 2*i+1 by simp [sibling]]
        exact not_mem_of_uncovered fun p hp => h.floating p (hsub' hp)
      have hpairs := pairs_flip (E := adjoin (freeFamily s) high (2*i)) h.pair hk hin hright
        (fun l x hne => by simp [hne]) (by simp [hleft])
      have hpush := push_coherent h (by omega) hsub _ hpairs
      rw [hrest] at hpush
      have hstep : (s.addToHead high (blockAddr (high+1) i)).markUsed (blockAddr (high+1) i) high =
          { s.addToHead high (blockAddr high (2*i)) with
            bits := Function.update s.bits (G.slot high (2*i/2)) (!s.bits (G.slot high (2*i/2))) } := by
        rw [blockAddr_succ]
        exact markUsed_eq (s := s.addToHead high (blockAddr high (2*i))) h.base h.bitmap hk _
      obtain ⟨j, hj, hjsub, hinv, href⟩ := ih (by omega) (by omega) hpush
      rw [Buddy.split, if_pos hlt, hstep, upper_half]
      refine ⟨j, hj, hjsub.trans hsub', ?_, href⟩
      have hc : c+2 ^ high+(2 ^ high-2 ^ low) = c+(2 ^ (high+1)-2 ^ low) := by ring
      rwa [hc] at hinv
    · obtain rfl : low = high+1 := by omega
      exact ⟨i, by simp [Buddy.split], subset_rfl, by simpa [Buddy.split] using h,
        by simp [Buddy.split]⟩

/-- Handing out the floating block: its counts go from 0 to 1. -/
theorem incRefs_coherent {k i : ℕ} (h : Coherent G M (block k i) 0 s) :
    Coherent G M ∅ 0 (Buddy.incRefs (2 ^ k) (blockAddr k i) s) := by
  have hfam : freeFamily (Buddy.incRefs (2 ^ k) (blockAddr k i) s) = freeFamily s := by
    rw [incRefs_eq]
    rfl
  rw [incRefs_eq, frame_block] at hfam ⊢
  refine ⟨h.base, h.bitmap, h.placed, h.nodup, h.separated, ?_, ?_, h.pair, ?_, h.count⟩
  · rintro f (hf | hf)
    · exact h.managed f (Or.inl hf)
    · exact absurd hf (Set.notMem_empty f)
  · exact fun f hf => absurd hf (Set.notMem_empty f)
  · intro f hf
    obtain ⟨hnonneg, hzero⟩ := h.ref f hf
    rw [hfam]
    simp only [Set.mem_empty_iff_false, or_false]
    by_cases hb : f ∈ block k i
    · have hnot := h.floating f hb
      have hz := hzero.mpr (Or.inr hb)
      rw [addOn_mem hb, hz]
      simp [hnot]
    · rw [addOn_not_mem hb]
      exact ⟨hnonneg, by simpa [hb] using hzero⟩

/-- What a successful allocation returns: a block whose pages had count 0 and
have count 1, while no other count changes. -/
structure Allocated (M : Set ℕ) (order : ℕ) (s : Buddy) (pa : ℕ) (s' : Buddy) : Prop where
  aligned : ∃ i, pa = blockAddr order i ∧ block order i ⊆ M ∧
    (∀ f ∈ block order i, s.ref f = 0 ∧ s'.ref f = 1) ∧
    ∀ f, f ∉ block order i → s'.ref f = s.ref f

theorem allocFrom_spec (hR : Region G M) {order left k pa : ℕ} (hk : order ≤ k)
    (h : Coherent G M ∅ (2 ^ order) s) (hs : Buddy.allocFrom order left k s = some (pa, s')) :
    Allocated M order s pa s' ∧ Coherent G M ∅ 0 s' := by
  induction left generalizing k with
  | zero => cases hs
  | succ left ih =>
    rw [Buddy.allocFrom] at hs
    split at hs
    · exact ih (by omega) hs
    next next rest hlist =>
    obtain ⟨hkmax, i, rfl⟩ := h.placed k next (by simp [hlist])
    have hi : i ∈ freeFamily s k := by simp [freeFamily, hlist]
    have hsub : block k i ⊆ M := fun f hf => h.managed f (Or.inl ⟨k, by
      rw [mem_block] at hf
      rwa [hf]⟩)
    rw [unlink_head s hlist] at hs
    -- the block leaves its list and its pair's bit is flipped
    have hmark : Coherent G M (block k i) (2 ^ order-2 ^ k)
        ((unlink s k (blockAddr k i)).markUsed (blockAddr k i) k) := by
      rcases Nat.lt_or_ge k maxOrder with hlt | hge
      · have hin := in_map_block hR hsub hlt
        have hpairs := pairs_flip (E := delete (freeFamily s) k i) h.pair hlt hin
          (sibling_not_mem h.pair hlt hin hi) (fun l x hne => by simp [hne]) (by simp [hi])
        have hun := unlink_coherent h hi _ hpairs
        rw [Set.empty_union] at hun
        rwa [markUsed_eq (s := unlink s k (blockAddr k i)) h.base h.bitmap hlt]
      · obtain rfl : k = maxOrder := by omega
        have hpairs : Pairs G (delete (freeFamily s) maxOrder i) s.bits := by
          intro l hl j hj
          have hne : l ≠ maxOrder := by omega
          simpa [hne] using h.pair l hl j hj
        have hun := unlink_coherent h hi _ hpairs
        rw [Set.empty_union] at hun
        exact markUsed_top hun _
    obtain ⟨j, hj, hjsub, hsplit, href⟩ := split_coherent hR hk hkmax hmark
    rw [show (2 ^ order-2 ^ k+(2 ^ k-2 ^ order) : ℤ) = 0 by ring] at hsplit
    simp only [Buddy.expand, hj] at hs
    split at hs
    · cases hs
    obtain ⟨rfl, rfl⟩ := Prod.mk.inj (Option.some.inj hs)
    refine ⟨⟨j, rfl, hjsub.trans hsub, ?_, ?_⟩, incRefs_coherent hsplit⟩
    · intro f hf
      have hz := ((hsplit.ref f (hsub (hjsub hf))).2).mpr (Or.inr hf)
      rw [incRefs_eq, frame_block]
      simp only [addOn_mem hf, hz]
      rw [href] at hz
      exact ⟨hz, rfl⟩
    · intro f hf
      rw [incRefs_eq, frame_block]
      simp only [addOn_not_mem hf, href]
      rfl

theorem allocPages_spec (hR : Region G M) {order pa : ℕ} (h : Coherent G M ∅ 0 s)
    (hs : s.allocPages order = some (pa, s')) :
    Allocated M order s pa s' ∧ Coherent G M ∅ 0 s' := by
  have hc : Coherent G M ∅ (2 ^ order) { s with freePageNum := s.freePageNum-2 ^ order } := by
    refine ⟨h.base, h.bitmap, h.placed, h.nodup, h.separated, h.managed, h.floating, h.pair,
      h.ref, ?_⟩
    have := h.count
    simp only
    linarith
  obtain ⟨halloc, hcoh⟩ := allocFrom_spec hR le_rfl hc hs
  exact ⟨⟨halloc.aligned⟩, hcoh⟩

/-! ## Release -/

/-- A block of the largest order has no buddy and goes on its list as it is. -/
theorem push_top {i : ℕ} (h : Coherent G M (block maxOrder i) (-2 ^ maxOrder) s) :
    Coherent G M ∅ 0 (s.addToHead maxOrder (blockAddr maxOrder i)) := by
  have hpairs : Pairs G (adjoin (freeFamily s) maxOrder i) s.bits := by
    intro l hl j hj
    have hne : l ≠ maxOrder := by omega
    simpa [hne] using h.pair l hl j hj
  have hpush := push_coherent h le_rfl subset_rfl _ hpairs
  rwa [Set.sdiff_self, neg_add_cancel] at hpush

/-- The coalescing loop puts the floating block, merged with every free sibling,
on a list. -/
theorem coalesce_coherent (hR : Region G M) {left k i index : ℕ} (hk : k+left = maxOrder)
    (hindex : k < maxOrder → index = i/2-G.firstPair k)
    (h : Coherent G M (block k i) (-2 ^ k) s) :
    Coherent G M ∅ 0 (Buddy.coalesce left k index (blockAddr k i) s) := by
  have hsub : block k i ⊆ M := fun f hf => h.managed f (Or.inr hf)
  have hself : i ∉ freeFamily s k := not_mem_of_uncovered h.floating
  induction left generalizing k i index s with
  | zero =>
    obtain rfl : k = maxOrder := by omega
    exact push_top h
  | succ left ih =>
    have hlt : k < maxOrder := by omega
    have hin := in_map_block hR hsub hlt
    have hslot : s.bitmap k+index = G.slot k (i/2) := by
      rw [hindex hlt, h.bitmap]
      rfl
    have hbit := pair_bit h.pair hlt hin hself
    rw [Buddy.coalesce, changeBit_eq, hslot]
    by_cases hsib : sibling i ∈ freeFamily s k
    · -- the sibling is free: it leaves its list and the pair floats as one block
      rw [if_pos (hbit.mpr hsib)]
      have hsib' : i ∉ delete (freeFamily s) k (sibling i) k := fun hc => hself hc.1
      have hdouble : sibling (sibling i) = i := by
        unfold sibling
        split <;> split <;> omega
      have hin' : G.InMap k (sibling i/2) := by rwa [sibling_div]
      have hpairs := pairs_flip (E := delete (freeFamily s) k (sibling i)) h.pair hlt hin'
        (by rwa [hdouble]) (fun l x hne => by simp [hne]) (by simp [hsib])
      rw [sibling_div] at hpairs
      have hun := unlink_coherent h hsib _ hpairs
      have hunion : block k i ∪ block k (sibling i) = block (k+1) (i/2) := by
        ext p
        rw [Set.mem_union, mem_pair]
      rw [hunion, show (-2 ^ k-2 ^ k : ℤ) = -2 ^ (k+1) by ring] at hun
      have hbuddy : s.getBuddy (blockAddr k i) (pageMask k) = blockAddr k (sibling i) := by
        apply getBuddy_eq s (by rw [h.base]; exact G.aligned) hlt
        rw [h.base]
        exact base_le_block hR hsub
      have haddr : blockAddr k i &&& pageMask (k+1) = blockAddr (k+1) (i/2) := by
        rw [land_pageMask _ _ (block_bounded hR hsub) (by unfold maxOrder pageShift at *; omega),
          blockAddr_div]
      have hremove : (flipBit s (G.slot k (i/2))).removeHead (blockAddr k (sibling i)) =
          { unlink s k (blockAddr k (sibling i)) with
            bits := (flipBit s (G.slot k (i/2))).bits } := by
        have := removeHead_eq h hsib
        simp only [flipBit, Buddy.removeHead, unlink, Buddy.mk.injEq, and_true, true_and] at this ⊢
        exact this
      simp only [hbuddy, haddr, hremove]
      refine ih (by omega) ?_ hun (fun f hf => hun.managed f (Or.inr hf))
        (not_mem_of_uncovered hun.floating)
      intro hlt'
      obtain ⟨b, -, hb1, hb2⟩ := aligned_base G.aligned hlt'
      rw [hindex hlt, Nat.shiftRight_eq_div_pow, Geometry.firstPair, Geometry.firstPair, hb1]
      rw [← hb2] at *
      omega
    · -- the sibling is not free: the block goes on its list
      have hold : s.bits (G.slot k (i/2)) = false := by
        rw [← Bool.not_eq_true]
        exact fun hc => hsib (hbit.mp hc)
      simp only [hold, Bool.false_eq_true, if_false]
      have hpairs := pairs_flip (E := adjoin (freeFamily s) k i) h.pair hlt hin hsib
        (fun l x hne => by simp [hne]) (by simp [hself])
      have hpush := push_coherent h hlt.le subset_rfl _ hpairs
      rw [Set.sdiff_self, neg_add_cancel] at hpush
      exact hpush

theorem coalesce_ref (left k index a : ℕ) (s : Buddy) :
    (Buddy.coalesce left k index a s).ref = s.ref := by
  induction left generalizing k index a s with
  | zero => rfl
  | succ left ih =>
    rw [Buddy.coalesce, changeBit_eq]
    simp only
    split
    · rw [ih]
      rfl
    · rfl

/-- What a successful release does to the counts: every page of the block had a
positive count, and each is one less. -/
structure Released (block : Set ℕ) (s s' : Buddy) : Prop where
  positive : ∀ f ∈ block, 0 < s.ref f
  less : ∀ f ∈ block, s'.ref f = s.ref f-1
  frame : ∀ f, f ∉ block → s'.ref f = s.ref f

/-- The first decrement and the loop from 1 are together the loop from 0. -/
theorem decRefs_first (pa order : ℕ) (r : Bool) (s : Buddy) : Buddy.decRefs pa r (2 ^ order) 0 s =
    match s.decPageRef pa with
    | none => none
    | some (q, s₁) => if q ≠ r then none else Buddy.decRefs pa r (2 ^ order-1) 1 s₁ := by
  have hone := Nat.one_le_two_pow (n := order)
  obtain ⟨n, hn⟩ : ∃ n, 2 ^ order = n+1 := ⟨2 ^ order-1, by omega⟩
  have hpred : 2 ^ order-1 = n := by omega
  rw [hpred, hn]
  rfl

/-- The counts after the two decrement steps of `free_pages`, which succeed
exactly when all pages of the block report the same flag. -/
theorem freePages_eq {pa order : ℕ} : s.freePages pa order = some s' ↔
    ∃ r : Bool, (∀ f, frameOf pa ≤ f ∧ f < frameOf pa+2 ^ order →
        0 < s.ref f ∧ (s.ref f-1 == 0) = r) ∧
      s' = if r then Buddy.coalesce (maxOrder-order) order (mapNr (pa-s.base) >>> (1+order))
          (pa &&& pageMask order)
          { s with
            ref := addOn (frameOf pa) (2 ^ order) (-1) s.ref
            freePageNum := s.freePageNum+2 ^ order }
        else { s with ref := addOn (frameOf pa) (2 ^ order) (-1) s.ref } := by
  have hdec : ∀ r s₂, Buddy.decRefs pa r (2 ^ order) 0 s = some s₂ ↔ _ := fun r s₂ =>
    decRefs_eq pa r (2 ^ order) 0 s
  simp only [decRefs_first, Nat.add_zero] at hdec
  rw [Buddy.freePages]
  cases hfirst : s.decPageRef pa with
  | none =>
    simp only [reduceCtorEq, false_iff, hfirst] at hdec ⊢
    rintro ⟨r, hall, -⟩
    exact hdec r _ ⟨hall, rfl⟩
  | some p =>
    obtain ⟨q, s₁⟩ := p
    simp only [hfirst] at hdec ⊢
    have hq := hdec q
    simp only [ne_eq, not_true_eq_false, if_false] at hq
    cases hrest : Buddy.decRefs pa q (2 ^ order-1) 1 s₁ with
    | none =>
      simp only [reduceCtorEq, false_iff]
      rintro ⟨r, hall, -⟩
      have hr := (hdec r _).mpr ⟨hall, rfl⟩
      by_cases hqr : q = r
      · subst hqr
        simp [hrest] at hr
      · simp [hqr] at hr
    | some s₂ =>
      obtain ⟨hall, hs₂⟩ := (hq s₂).mp hrest
      simp only
      constructor
      · intro h
        refine ⟨q, hall, ?_⟩
        subst hs₂
        cases q <;> simpa using h.symm
      · rintro ⟨r, hall', hs'⟩
        have hqr : q = r := by
          have h1 := (hall (frameOf pa) (by have := Nat.one_le_two_pow (n := order); omega)).2
          have h2 := (hall' (frameOf pa) (by have := Nat.one_le_two_pow (n := order); omega)).2
          exact h1.symm.trans h2
        subst hqr
        subst hs₂
        rw [hs']
        cases q <;> simp

theorem freePages_spec (hR : Region G M) {order pa i : ℕ} (horder : order ≤ maxOrder)
    (hpa : frameOf pa = i*2 ^ order) (hM : block order i ⊆ M) (h : Coherent G M ∅ 0 s)
    (hs : s.freePages pa order = some s') :
    Released (block order i) s s' ∧ Coherent G M ∅ 0 s' := by
  obtain ⟨r, hall, hs'⟩ := freePages_eq.mp hs
  rw [hpa] at hall hs'
  simp only [← mem_block_iff] at hall
  have href : s'.ref = addOn (i*2 ^ order) (2 ^ order) (-1) s.ref := by
    subst hs'
    cases r
    · rfl
    · exact coalesce_ref _ _ _ _ _
  refine ⟨⟨fun f hf => (hall f hf).1, fun f hf => by rw [href, addOn_mem hf]; rfl,
    fun f hf => by rw [href, addOn_not_mem hf]⟩, ?_⟩
  have hfree : ∀ f ∈ block order i, ¬ Covered (freeFamily s) f := by
    intro f hf hc
    have := ((h.ref f (hM hf)).2).mpr (Or.inl hc)
    have := (hall f hf).1
    omega
  cases r with
  | false =>
    rw [if_neg (by decide)] at hs'
    subst hs'
    refine ⟨h.base, h.bitmap, h.placed, h.nodup, h.separated, h.managed, h.floating, h.pair, ?_,
      h.count⟩
    intro f hf
    obtain ⟨hnonneg, hzero⟩ := h.ref f hf
    by_cases hb : f ∈ block order i
    · obtain ⟨hpos, hflag⟩ := hall f hb
      have hne : s.ref f+-1 ≠ 0 := by simpa [Int.sub_eq_add_neg] using hflag
      simp only [addOn_mem hb, Set.mem_empty_iff_false, or_false]
      exact ⟨by omega, ⟨fun hc => absurd hc hne, fun hc => absurd hc (hfree f hb)⟩⟩
    · simp only [addOn_not_mem hb]
      exact ⟨hnonneg, hzero⟩
  | true =>
    rw [if_pos rfl] at hs'
    -- the masked address is the start of the block, also when `pa` points inside its first page
    have hdiv : pa / 2 ^ (pageShift+order) = i := by
      have : pa / pageSize / 2 ^ order = i := by
        change frameOf pa / 2 ^ order = i
        rw [hpa]
        exact Nat.mul_div_cancel i (by positivity)
      rwa [Nat.div_div_eq_div_mul, show pageSize = 2 ^ pageShift from rfl, ← pow_add] at this
    have hbound : pa < 2 ^ 64 := by
      have hb := hR.bounded _ (hM (first_mem_block order i))
      rw [← hpa, frameOf, pageSize] at hb
      omega
    have haddr : pa &&& pageMask order = blockAddr order i := by
      rw [land_pageMask pa order hbound (by unfold maxOrder pageShift at *; omega), hdiv]
    rw [haddr] at hs'
    subst hs'
    apply coalesce_coherent hR (by omega)
    · intro hlt
      rw [h.base, pair_index G.aligned hlt, ← Nat.add_assoc, pow_succ, ← Nat.div_div_eq_div_mul,
        hdiv, Geometry.firstPair, ← Nat.add_assoc, pow_succ]
    · refine ⟨h.base, h.bitmap, h.placed, h.nodup, h.separated, ?_, hfree, h.pair, ?_, ?_⟩
      · rintro f (hf | hf)
        · exact h.managed f (Or.inl hf)
        · exact hM hf
      · intro f hf
        obtain ⟨hnonneg, hzero⟩ := h.ref f hf
        by_cases hb : f ∈ block order i
        · have hflag : s.ref f+-1 = 0 := by simpa [Int.sub_eq_add_neg] using (hall f hb).2
          simp only [addOn_mem hb, hflag]
          exact ⟨le_rfl, ⟨fun _ => Or.inr hb, fun _ => trivial⟩⟩
        · simp only [addOn_not_mem hb]
          refine ⟨hnonneg, ?_⟩
          rw [hzero]
          simp only [Set.mem_empty_iff_false, hb]
          trivial
      · have := h.count
        simp only
        linarith

end BabyOS.BuddyOperations

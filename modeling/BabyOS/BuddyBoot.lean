import BabyOS.BuddyOperations

/-!
# The state that `buddy_t::init` builds

The page records start at count 1; every aligned 4 MiB of usable memory above
the bitmaps is then released as one block of the largest order. The bitmaps are
large enough when the span they are computed from fits in 32 bits.
-/

set_option autoImplicit false

namespace BabyOS.BuddyBoot
open BabyOS.DyadicBlocks BabyOS.BuddyMachine BabyOS.BuddyArithmetic BabyOS.BuddyInvariant
open BabyOS.BuddyOperations

theorem bitmapBytes_le (L : Layout) (i : ℕ) : L.bitmapBytes i ≤ 2 ^ 18 := by
  have hspan : (L.bitmapEnd i+2 ^ 64-L.bitmapStart) % 2 ^ 32 < 2 ^ 32 := Nat.mod_lt _ (by norm_num)
  simp only [Layout.bitmapBytes, Nat.shiftRight_eq_div_pow]
  generalize (L.bitmapEnd i+2 ^ 64-L.bitmapStart) % 2 ^ 32 = span at hspan ⊢
  have hshift : span / 2 ^ (pageShift+i) ≤ span / 2 ^ 12 :=
    Nat.div_le_div_left (Nat.pow_le_pow_right (by norm_num) (by simp [pageShift])) (by norm_num)
  omega

theorem bitmapBit_le (L : Layout) (k : ℕ) : L.bitmapBit k ≤ k*2 ^ 21 := by
  induction k with
  | zero => exact le_rfl
  | succ k ih =>
    have := bitmapBytes_le L k
    rw [Layout.bitmapBit]
    omega

theorem memStart_lt (L : Layout) : L.memStart < 2 ^ 53 := by
  have h := bitmapBit_le L (maxOrder+1)
  have hp : L.pagesSize < 2 ^ 32 := Nat.mod_lt _ (by norm_num)
  have hs := L.start_physical
  simp only [Layout.memStart, Layout.bitmapStart, maxOrder] at h ⊢
  omega

/-- Rounding up to whole blocks of the largest order. -/
theorem alignUp_eq {x : ℕ} (hx : x < 2 ^ 53) :
    Layout.alignUp x = blockAddr maxOrder ((x+(Layout.blockSize-1)) / Layout.blockSize) := by
  have h := land_pageMask (x+(Layout.blockSize-1)) maxOrder
    (by simp [Layout.blockSize, pageSize, maxOrder]; omega) (by decide)
  exact h

theorem alignUp_aligned {x : ℕ} (hx : x < 2 ^ 53) : Aligned (Layout.alignUp x) := by
  rw [alignUp_eq hx]
  exact Dvd.intro_left _ rfl

theorem blockSize_eq : Layout.blockSize = 4194304 := by decide

theorem le_alignUp {x : ℕ} (hx : x < 2 ^ 53) : x ≤ Layout.alignUp x := by
  rw [alignUp_eq hx, blockAddr, show 2 ^ (pageShift+maxOrder) = 4194304 by decide, blockSize_eq]
  omega

theorem alignDown_eq {x : ℕ} (hx : x ≤ 2 ^ 52) :
    x &&& pageMask maxOrder = blockAddr maxOrder (x / Layout.blockSize) :=
  land_pageMask x maxOrder (by omega) (by decide)

/-- The bitmaps as `init_bitmap` lays them out. -/
def geometry (L : Layout) : Geometry where
  base := Layout.alignUp L.memStart
  bitmap := L.bitmapBit
  size := fun k => 8*L.bitmapBytes k
  aligned := alignUp_aligned (memStart_lt L)
  apart := fun _ => le_rfl

/-- The page records are counted and allocated in full: `page_num` and `size` of
`init_pages` do not wrap. -/
def PagesFit (L : Layout) : Prop := (L.endUsable+pageSize-1) / pageSize*24 < 2 ^ 32

/-- A page that `init` gave to the allocator. -/
def Managed (L : Layout) (f : ℕ) : Prop := ∃ s, L.init = some s ∧ Covered (freeFamily s) f

/-- Every buddy pair of managed memory has its bit inside the bitmap that was
allocated for its order. -/
def BitmapsFit (L : Layout) : Prop :=
  ∀ f, Managed L f → ∀ k < maxOrder, f / 2 ^ (k+1)-(geometry L).firstPair k < (geometry L).size k

/-- The part of the boot loop that is done: blocks below `top` may be free, the
pages from `top` on still have count 1. -/
structure Boot (L : Layout) (top : ℕ) (s : Buddy) : Prop where
  coherent : Coherent (geometry L) {f | Covered (freeFamily s) f} ∅ 0 s
  fresh : ∀ f, top ≤ f*pageSize → f < L.pageNum → s.ref f = 1
  blocks : ∀ k a, a ∈ s.freeList k → k = maxOrder ∧ (geometry L).base ≤ a ∧
    a+Layout.blockSize ≤ top ∧ a+Layout.blockSize ≤ L.endUsable

theorem Boot.mono {L : Layout} {s : Buddy} {top top' : ℕ} (h : Boot L top s) (ht : top ≤ top') :
    Boot L top' s :=
  ⟨h.coherent, fun f hf => h.fresh f (ht.trans hf), fun k a ha => by
    obtain ⟨h1, h2, h3, h4⟩ := h.blocks k a ha
    exact ⟨h1, h2, by omega, h4⟩⟩

theorem boot_blank (L : Layout) : Boot L (geometry L).base L.blank := by
  have hempty : ∀ f, ¬ Covered (freeFamily L.blank) f := by
    rintro f ⟨k, hk⟩
    simp [freeFamily, Layout.blank] at hk
  refine ⟨⟨rfl, rfl, ?_, ?_, ?_, ?_, ?_, ?_, ?_, ?_⟩, ?_, ?_⟩
  · intro k a ha
    simp [Layout.blank] at ha
  · intro k
    simp [Layout.blank]
  · intro p j k hj
    exact absurd ⟨j, hj⟩ (hempty p)
  · rintro f (hf | hf)
    · exact hf
    · exact absurd hf (Set.notMem_empty f)
  · exact fun f hf => absurd hf (Set.notMem_empty f)
  · intro k hk j hj
    have hmono := (geometry L).bitmap_mono hk
    have htop : (geometry L).bitmap maxOrder ≤ L.bitmapBit (maxOrder+1) := by
      have := (geometry L).apart maxOrder
      simp only [geometry] at this ⊢
      omega
    have hlt : (geometry L).slot k j < L.bitmapBit (maxOrder+1) := by
      unfold Geometry.InMap Geometry.slot at *
      omega
    simp [Layout.blank, freeFamily, hlt, Xor]
  · exact fun f hf => absurd hf (hempty f)
  · simp [Layout.blank, total]
  · intro f _ hf
    simp [Layout.blank, hf]
  · intro k a ha
    simp [Layout.blank] at ha

theorem endUsable_le (L : Layout) : L.endUsable ≤ 2 ^ 52 := by
  have key : ∀ (rs : List Range) (e : ℕ), (∀ r ∈ rs, r.baseAddr+r.length ≤ 2 ^ 52) → e ≤ 2 ^ 52 →
      rs.foldl (fun e r => if r.type = 1 ∧ r.baseAddr+r.length > e
        then r.baseAddr+r.length else e) e ≤ 2 ^ 52 := by
    intro rs
    induction rs with
    | nil => exact fun e _ he => he
    | cons r rs ih =>
      intro e hr he
      refine ih _ (fun q hq => hr q (by simp [hq])) ?_
      have := hr r (by simp)
      simp only
      split <;> omega
  exact key L.ranges L.startUsable L.physical L.start_physical

theorem page_lt {L : Layout} (hp : PagesFit L) {f : ℕ} (hf : f*pageSize < L.endUsable) :
    f < L.pageNum := by
  unfold PagesFit at hp
  rw [Layout.pageNum, Nat.mod_eq_of_lt (by omega)]
  simp only [pageSize] at *
  omega

/-- One release of the boot loop. -/
theorem boot_free {L : Layout} (hp : PagesFit L) {s : Buddy} {i : ℕ}
    (h : Boot L (blockAddr maxOrder i) s) (hbase : (geometry L).base ≤ blockAddr maxOrder i)
    (hend : blockAddr maxOrder i+Layout.blockSize ≤ L.endUsable) :
    ∃ s', s.freePages (blockAddr maxOrder i) maxOrder = some s' ∧
      Boot L (blockAddr maxOrder (i+1)) s' := by
  have hnext : blockAddr maxOrder (i+1) = blockAddr maxOrder i+Layout.blockSize := by
    rw [blockAddr, blockAddr, Nat.add_mul, one_mul]
    rfl
  have hone : ∀ f ∈ block maxOrder i, s.ref f = 1 := by
    intro f hf
    rw [mem_block_iff] at hf
    have haddr : blockAddr maxOrder i = i*2 ^ maxOrder*pageSize := by
      rw [blockAddr, pow_add, show pageSize = 2 ^ pageShift from rfl]
      ring
    have hsize : Layout.blockSize = 2 ^ maxOrder*pageSize := by decide
    rw [haddr, hsize] at hend
    have hlt : f*pageSize < i*2 ^ maxOrder*pageSize+2 ^ maxOrder*pageSize := by
      rw [← Nat.add_mul]
      exact Nat.mul_lt_mul_of_pos_right hf.2 (by decide)
    apply h.fresh f
    · rw [haddr]
      exact Nat.mul_le_mul_right _ hf.1
    · exact page_lt hp (by omega)
  have hfree : ∀ f ∈ block maxOrder i, ¬ Covered (freeFamily s) f := by
    intro f hf hc
    have := ((h.coherent.ref f hc).2).mpr (Or.inl hc)
    rw [hone f hf] at this
    omega
  set s₁ : Buddy := { s with
    ref := addOn (i*2 ^ maxOrder) (2 ^ maxOrder) (-1) s.ref
    freePageNum := s.freePageNum+2 ^ maxOrder } with hs₁
  have hfloat : Coherent (geometry L)
      ({f | Covered (freeFamily s) f} ∪ block maxOrder i) (block maxOrder i) (-2 ^ maxOrder) s₁ := by
    have hc := h.coherent
    refine ⟨hc.base, hc.bitmap, hc.placed, hc.nodup, hc.separated, ?_, hfree, hc.pair, ?_, ?_⟩
    · rintro f (hf | hf)
      · exact Or.inl hf
      · exact Or.inr hf
    · intro f hf
      by_cases hb : f ∈ block maxOrder i
      · simp only [hs₁, addOn_mem hb, hone f hb, hb, or_true, iff_true]
        omega
      · have := hc.ref f (hf.resolve_right hb)
        simp only [Set.mem_empty_iff_false, or_false] at this
        simp only [hs₁, addOn_not_mem hb, hb, or_false]
        exact this
    · have := hc.count
      simp only [hs₁]
      linarith
  refine ⟨s₁.addToHead maxOrder (blockAddr maxOrder i), ?_, ?_, ?_, ?_⟩
  · rw [freePages_eq]
    refine ⟨true, ?_, ?_⟩
    · intro f hf
      rw [frame_block, ← mem_block_iff] at hf
      simp [hone f hf]
    · rw [if_pos rfl, frame_block]
      have hbound : blockAddr maxOrder i ≤ 2 ^ 52 := by
        have := endUsable_le L
        omega
      rw [land_pageMask _ _ (by omega) (by decide)]
      have hdiv : blockAddr maxOrder i / 2 ^ (pageShift+maxOrder) = i :=
        Nat.mul_div_cancel _ (by positivity)
      rw [hdiv, Nat.sub_self]
      rfl
  · have hpush := push_top hfloat
    have hset : {f | Covered (freeFamily (s₁.addToHead maxOrder (blockAddr maxOrder i))) f} =
        {f | Covered (freeFamily s) f} ∪ block maxOrder i := by
      ext f
      rw [Set.mem_ofPred_eq, family_addToHead, covered_adjoin]
      rfl
    rwa [hset]
  · intro f hf hlt
    rw [hnext] at hf
    have hb : f ∉ block maxOrder i := by
      rw [mem_block_iff]
      rintro ⟨-, h2⟩
      have hsize : Layout.blockSize = 2 ^ maxOrder*pageSize := by decide
      have haddr : blockAddr maxOrder i = i*2 ^ maxOrder*pageSize := by
        rw [blockAddr, pow_add, show pageSize = 2 ^ pageShift from rfl]
        ring
      rw [haddr, hsize, ← Nat.add_mul] at hf
      exact absurd (Nat.le_of_mul_le_mul_right hf (by decide)) (by omega)
    simp only [Buddy.addToHead, hs₁, addOn_not_mem hb]
    exact h.fresh f (by omega) hlt
  · intro k a ha
    by_cases hk : k = maxOrder
    · subst hk
      simp only [Buddy.addToHead, hs₁, Function.update_self, List.mem_cons] at ha
      rcases ha with rfl | ha
      · exact ⟨rfl, hbase, hnext.ge, hend⟩
      · obtain ⟨h1, h2, h3, h4⟩ := h.blocks _ _ ha
        exact ⟨rfl, h2, by omega, h4⟩
    · simp only [Buddy.addToHead, hs₁, Function.update_of_ne hk] at ha
      exact absurd (h.blocks _ _ ha).1 hk

theorem topBlock (i : ℕ) : blockAddr maxOrder i = i*4194304 := by
  rw [blockAddr, show 2 ^ (pageShift+maxOrder) = 4194304 by decide]

theorem boot_freeBlocks {L : Layout} (hp : PagesFit L) {n i : ℕ} {s : Buddy}
    (h : Boot L (blockAddr maxOrder i) s) (hbase : (geometry L).base ≤ blockAddr maxOrder i)
    (hend : blockAddr maxOrder (i+n) ≤ L.endUsable) :
    ∃ s', Layout.freeBlocks n (blockAddr maxOrder i) s = some s' ∧
      Boot L (blockAddr maxOrder (i+n)) s' := by
  induction n generalizing i s with
  | zero => exact ⟨s, rfl, h⟩
  | succ n ih =>
    have hnext : blockAddr maxOrder i+Layout.blockSize = blockAddr maxOrder (i+1) := by
      rw [topBlock, topBlock, blockSize_eq]
      omega
    have hfit : blockAddr maxOrder i+Layout.blockSize ≤ L.endUsable := by
      rw [hnext]
      rw [topBlock] at hend ⊢
      exact (Nat.mul_le_mul_right _ (by omega)).trans hend
    obtain ⟨s₁, hs₁, hb₁⟩ := boot_free hp h hbase hfit
    have hidx : i+(n+1) = i+1+n := by omega
    rw [hidx] at hend ⊢
    have hbase' : (geometry L).base ≤ blockAddr maxOrder (i+1) := by
      rw [← hnext]
      exact Nat.le_add_right_of_le hbase
    obtain ⟨s', hs', hb'⟩ := ih hb₁ hbase' hend
    refine ⟨s', ?_, hb'⟩
    simp only [Layout.freeBlocks, hs₁, hnext, hs']

theorem boot_range {L : Layout} (hp : PagesFit L) {i j : ℕ} {s : Buddy}
    (h : Boot L (blockAddr maxOrder i) s) (hbase : (geometry L).base ≤ blockAddr maxOrder i)
    (hend : blockAddr maxOrder j ≤ L.endUsable) :
    ∃ s', Layout.freeBootMemRange (blockAddr maxOrder i) (blockAddr maxOrder j) s = some s' ∧
      Boot L (blockAddr maxOrder (max i j)) s' := by
  have hcount : (blockAddr maxOrder j-blockAddr maxOrder i+(Layout.blockSize-1)) /
      Layout.blockSize = j-i := by
    rw [topBlock, topBlock, blockSize_eq]
    omega
  rw [Layout.freeBootMemRange, hcount]
  rcases Nat.le_total i j with hij | hij
  · have hj : i+(j-i) = j := by omega
    obtain ⟨s', hs', hb'⟩ := boot_freeBlocks hp h hbase (n := j-i) (by rwa [hj])
    rw [hj] at hb'
    exact ⟨s', hs', by rwa [max_eq_right hij]⟩
  · rw [Nat.sub_eq_zero_of_le hij, max_eq_left hij]
    exact ⟨s, rfl, h⟩

theorem alignUp_block {x : ℕ} (hx : x ≤ 2 ^ 52) :
    Layout.alignUp x = blockAddr maxOrder ((x+4194303) / 4194304) := by
  have h := alignUp_eq (x := x) (lt_of_le_of_lt hx (by norm_num))
  simp only [blockSize_eq, Nat.reduceSub] at h
  exact h

/-- The whole blocks around the end of a range, and the first one at or after its
start. -/
theorem range_blocks {i start last : ℕ} (hlt : blockAddr maxOrder i < last) (hle : start ≤ last)
    (hlast : last ≤ 2 ^ 52) :
    ∃ m lower upper, (if start > blockAddr maxOrder i then Layout.alignUp start
        else blockAddr maxOrder i) = blockAddr maxOrder m ∧
      last &&& pageMask maxOrder = blockAddr maxOrder lower ∧
      Layout.alignUp last = blockAddr maxOrder upper ∧
      blockAddr maxOrder lower ≤ last ∧ i ≤ m ∧ m ≤ upper ∧ lower ≤ upper := by
  have hdown := alignDown_eq hlast
  rw [blockSize_eq] at hdown
  have hlow : blockAddr maxOrder (last / 4194304) ≤ last := by
    rw [topBlock]
    exact Nat.div_mul_le_self _ _
  rw [topBlock] at hlt
  by_cases hs : start > blockAddr maxOrder i
  · refine ⟨(start+4194303) / 4194304, _, _, ?_, hdown, alignUp_block hlast, hlow, ?_, ?_, by omega⟩
    · rw [if_pos hs, alignUp_block (hle.trans hlast)]
    · rw [topBlock] at hs
      omega
    · omega
  · exact ⟨i, _, _, by rw [if_neg hs], hdown, alignUp_block hlast, hlow, le_rfl, by omega, by omega⟩

theorem blockAddr_mono {i j : ℕ} (h : i ≤ j) : blockAddr maxOrder i ≤ blockAddr maxOrder j :=
  Nat.mul_le_mul_right _ h

theorem boot_freeBootRange {L : Layout} (hp : PagesFit L) {r : Range}
    (hr : r.type = 1 → r.baseAddr+r.length ≤ L.endUsable) {i : ℕ} {s : Buddy}
    (h : Boot L (blockAddr maxOrder i) s) (hbase : (geometry L).base ≤ blockAddr maxOrder i) :
    ∃ j s', i ≤ j ∧ Layout.freeBootRange r (blockAddr maxOrder i) s =
      some (blockAddr maxOrder j, s') ∧ Boot L (blockAddr maxOrder j) s' := by
  by_cases hin : r.type = 1 ∧ r.baseAddr+r.length > blockAddr maxOrder i
  · have hlast := hr hin.1
    obtain ⟨m, lower, upper, hm, hdown, hup, hlow, him, hmu, hlu⟩ :=
      range_blocks hin.2 (Nat.le_add_right _ _) (hlast.trans (endUsable_le L))
    obtain ⟨s₁, hs₁, hb₁⟩ := boot_range hp (h.mono (blockAddr_mono him))
      (hbase.trans (blockAddr_mono him)) (hlow.trans hlast)
    refine ⟨upper, s₁, him.trans hmu, ?_, hb₁.mono (blockAddr_mono (Nat.max_le.mpr ⟨hmu, hlu⟩))⟩
    rw [Layout.freeBootRange, if_pos hin, hm, hdown, hup]
    simp only [hs₁, Option.map_some]
  · exact ⟨i, s, le_rfl, if_neg hin, h⟩

theorem boot_freeBootMem {L : Layout} (hp : PagesFit L) {rs : List Range}
    (hrs : ∀ r ∈ rs, r.type = 1 → r.baseAddr+r.length ≤ L.endUsable)
    {i : ℕ} {s : Buddy} (h : Boot L (blockAddr maxOrder i) s)
    (hbase : (geometry L).base ≤ blockAddr maxOrder i) :
    ∃ s' top, Layout.freeBootMem rs (blockAddr maxOrder i) s = some s' ∧ Boot L top s' := by
  induction rs generalizing i s with
  | nil => exact ⟨s, _, rfl, h⟩
  | cons r rs ih =>
    obtain ⟨j, s₁, hij, hs₁, hb₁⟩ := boot_freeBootRange hp (hrs r List.mem_cons_self) h hbase
    obtain ⟨s', top, hs', hb'⟩ := ih (fun q hq => hrs q (List.mem_cons_of_mem r hq)) hb₁
      (hbase.trans (blockAddr_mono hij))
    refine ⟨s', top, ?_, hb'⟩
    simp only [Layout.freeBootMem, hs₁, hs']

theorem range_le {L : Layout} {r : Range} (hr : r ∈ L.ranges) (ht : r.type = 1) :
    r.baseAddr+r.length ≤ L.endUsable := by
  have key : ∀ (rs : List Range) (e : ℕ), let last := rs.foldl (fun e r =>
      if r.type = 1 ∧ r.baseAddr+r.length > e then r.baseAddr+r.length else e) e
      e ≤ last ∧ ∀ q ∈ rs, q.type = 1 → q.baseAddr+q.length ≤ last := by
    intro rs
    induction rs with
    | nil => simp
    | cons q rs ih =>
      intro e
      obtain ⟨hge, hall⟩ := ih (if q.type = 1 ∧ q.baseAddr+q.length > e
        then q.baseAddr+q.length else e)
      refine ⟨?_, ?_⟩
      · refine le_trans ?_ hge
        split <;> omega
      · intro p hp hpt
        rcases List.mem_cons.mp hp with rfl | hp
        · refine le_trans ?_ hge
          split <;> omega
        · exact hall p hp hpt
  exact (key L.ranges L.startUsable).2 r hr ht

/-- `init` does not panic, and leaves coherent lists of free blocks of the
largest order. -/
theorem init_total {L : Layout} (hp : PagesFit L) : ∃ s top, L.init = some s ∧ Boot L top s := by
  have hb := boot_blank L
  obtain ⟨i, hi⟩ : ∃ i, (geometry L).base = blockAddr maxOrder i :=
    ⟨_, alignUp_eq (memStart_lt L)⟩
  have hstart : Layout.alignUp L.memStart = blockAddr maxOrder i := hi
  rw [hi] at hb
  obtain ⟨s, top, hs, hboot⟩ := boot_freeBootMem hp (fun r hr => range_le hr) hb hi.le
  refine ⟨s, top, ?_, hboot⟩
  rw [Layout.init, hstart]
  exact hs

theorem managed_iff {L : Layout} {s : Buddy} (hs : L.init = some s) (f : ℕ) :
    Managed L f ↔ Covered (freeFamily s) f := by
  constructor
  · rintro ⟨s', hs', hf⟩
    rw [hs] at hs'
    rwa [Option.some.inj hs']
  · exact fun hf => ⟨s, hs, hf⟩

/-- A managed page lies between the base and the end of usable memory. -/
theorem Boot.page {L : Layout} {top : ℕ} {s : Buddy} (h : Boot L top s) {f : ℕ}
    (hf : Covered (freeFamily s) f) :
    (geometry L).base ≤ f*pageSize ∧
      blockAddr maxOrder (f / 2 ^ maxOrder)+Layout.blockSize ≤ L.endUsable := by
  obtain ⟨k, hk⟩ := hf
  obtain ⟨rfl, hbase, -, hend⟩ := h.blocks k _ hk
  refine ⟨hbase.trans ?_, hend⟩
  have hfirst := Nat.div_mul_le_self f (2 ^ maxOrder)
  have hpage : blockAddr maxOrder (f / 2 ^ maxOrder) = f / 2 ^ maxOrder*2 ^ maxOrder*pageSize := by
    rw [blockAddr, pow_add, show pageSize = 2 ^ pageShift from rfl]
    ring
  rw [hpage]
  exact Nat.mul_le_mul_right _ hfirst

/-- The state after `init` and the region it manages. -/
theorem init_region {L : Layout} (hp : PagesFit L) (hfit : BitmapsFit L) {s : Buddy}
    (hs : L.init = some s) :
    Region (geometry L) {f | Managed L f} ∧ Coherent (geometry L) {f | Managed L f} ∅ 0 s := by
  obtain ⟨s', top, hs', hboot⟩ := init_total hp
  obtain rfl : s' = s := Option.some.inj (hs'.symm.trans hs)
  have hset : {f | Managed L f} = {f | Covered (freeFamily s') f} := by
    ext f
    exact managed_iff hs f
  refine ⟨⟨?_, ?_, hfit⟩, ?_⟩
  · intro f hf
    have := (hboot.page ((managed_iff hs f).mp hf)).1
    exact Nat.div_le_of_le_mul (by rwa [mul_comm])
  · intro f hf
    have h := (hboot.page ((managed_iff hs f).mp hf)).2
    have hend := endUsable_le L
    rw [topBlock, blockSize_eq] at h
    simp only [maxOrder] at h
    omega
  · rw [hset]
    exact hboot.coherent

/-- Seen from the first managed byte, a pair that ends below the end has its bit
in a bitmap of the true span. -/
theorem bits_of_span {e start b x k : ℕ} (hx : (x+1)*2 ^ (pageShift+(k+1)) ≤ e)
    (hb : start ≤ b*2 ^ (pageShift+(k+1))) (hbx : b ≤ x) (hspan : e < start+2 ^ 32) :
    x-b < 8*(((((e+2 ^ 64-start) % 2 ^ 32) >>> (pageShift+k)+7) >>> 3+3) / 4*4) := by
  obtain ⟨d, rfl⟩ := Nat.exists_eq_add_of_le hbx
  have hD : 2 ^ (pageShift+(k+1)) = 2*2 ^ (pageShift+k) := by
    rw [← Nat.add_assoc, pow_succ, mul_comm]
  have hfar : start+(d+1)*(2*2 ^ (pageShift+k)) ≤ e := by
    rw [hD] at hx hb
    linarith
  have htrue : (e+2 ^ 64-start) % 2 ^ 32 = e-start := by omega
  have hq : 2*(d+1) ≤ (e-start) / 2 ^ (pageShift+k) := by
    rw [Nat.le_div_iff_mul_le (by positivity)]
    have hcomm : 2*(d+1)*2 ^ (pageShift+k) = (d+1)*(2*2 ^ (pageShift+k)) := by ring
    omega
  rw [htrue, Nat.shiftRight_eq_div_pow, Nat.shiftRight_eq_div_pow]
  generalize (e-start) / 2 ^ (pageShift+k) = q at hq ⊢
  omega

/-- A block of a smaller order ends no later than the largest block around it. -/
theorem pair_end (f : ℕ) {k : ℕ} (hk : k < maxOrder) :
    (f / 2 ^ (k+1)+1)*2 ^ (pageShift+(k+1)) ≤ blockAddr maxOrder (f / 2 ^ maxOrder+1) := by
  have hexp : maxOrder = maxOrder-(k+1)+(k+1) := by omega
  have hf : f < (f / 2 ^ maxOrder+1)*2 ^ maxOrder := by
    have := Nat.div_add_mod f (2 ^ maxOrder)
    have := Nat.mod_lt f (show 0 < 2 ^ maxOrder by positivity)
    linarith
  have hsplit : (f / 2 ^ maxOrder+1)*2 ^ maxOrder =
      (f / 2 ^ maxOrder+1)*2 ^ (maxOrder-(k+1))*2 ^ (k+1) := by
    rw [mul_assoc, ← pow_add, ← hexp]
  have hlt : f / 2 ^ (k+1) < (f / 2 ^ maxOrder+1)*2 ^ (maxOrder-(k+1)) := by
    rw [Nat.div_lt_iff_lt_mul (by positivity), ← hsplit]
    exact hf
  calc (f / 2 ^ (k+1)+1)*2 ^ (pageShift+(k+1))
      ≤ (f / 2 ^ maxOrder+1)*2 ^ (maxOrder-(k+1))*2 ^ (pageShift+(k+1)) :=
        Nat.mul_le_mul_right _ hlt
    _ = (f / 2 ^ maxOrder+1)*2 ^ (maxOrder-(k+1))*2 ^ (k+1)*2 ^ pageShift := by
        rw [pow_add]
        ring
    _ = blockAddr maxOrder (f / 2 ^ maxOrder+1) := by
        rw [← hsplit, blockAddr, pow_add]
        ring

/-- Usable memory that ends less than 4 GiB above the bitmaps has bitmaps of
sufficient size: the span `init_bitmap` computes is the true one. -/
theorem bitmaps_fit_of_span {L : Layout} (hp : PagesFit L)
    (hspan : L.endUsable < L.bitmapStart+2 ^ 32) : BitmapsFit L := by
  intro f hf k hk
  obtain ⟨s, top, hs, hboot⟩ := init_total hp
  obtain ⟨hbase, hend⟩ := hboot.page ((managed_iff hs f).mp hf)
  rw [topBlock, blockSize_eq] at hend
  obtain ⟨b, hb, -, hfirst⟩ := aligned_base (geometry L).aligned hk
  rw [← blockAddr_succ] at hb
  have hstart : L.bitmapStart ≤ blockAddr (k+1) b := by
    rw [← hb]
    exact (Nat.le_add_right _ _).trans (le_alignUp (memStart_lt L))
  have hshift : pageShift+(k+1) ≤ 64 := by
    simp only [pageShift, maxOrder] at hk ⊢
    omega
  have hdown : L.bitmapEnd k = blockAddr (k+1) (L.endUsable / 2 ^ (pageShift+(k+1))) :=
    land_pageMask _ _ (lt_of_le_of_lt (endUsable_le L) (by norm_num)) hshift
  -- the pair of the page, its block of the largest order, and the end
  have hpair : (f / 2 ^ (k+1)+1)*2 ^ (pageShift+(k+1)) ≤ L.bitmapEnd k := by
    have hnext : blockAddr maxOrder (f / 2 ^ maxOrder+1) ≤ L.endUsable := by
      rw [topBlock, Nat.add_mul, one_mul]
      exact hend
    have hle := (pair_end f hk).trans hnext
    rw [← Nat.le_div_iff_mul_le (by positivity)] at hle
    rw [hdown]
    exact Nat.mul_le_mul_right _ hle
  have hle : b ≤ f / 2 ^ (k+1) := by
    rw [hb, blockAddr, pow_add, mul_comm (2 ^ pageShift), ← mul_assoc] at hbase
    rw [Nat.le_div_iff_mul_le (by positivity)]
    exact Nat.le_of_mul_le_mul_right hbase (by decide)
  have hbits := bits_of_span hpair hstart hle (by
    rw [hdown]
    exact lt_of_le_of_lt (Nat.div_mul_le_self _ _) hspan)
  rw [Geometry.firstPair, hfirst]
  exact hbits

end BabyOS.BuddyBoot

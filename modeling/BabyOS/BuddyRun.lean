import BabyOS.BuddyBoot

/-!
# Runs of the buddy allocator

From the state of `buddy_t::init`, any sequence of allocations and releases. A
release may give back any aligned block of pages that are still allocated, so a
block may come back in pieces.
-/

set_option autoImplicit false

namespace BabyOS.BuddyRun
open BabyOS.DyadicBlocks BabyOS.BuddyMachine BabyOS.BuddyArithmetic BabyOS.BuddyInvariant
open BabyOS.BuddyOperations BabyOS.BuddyBoot

/-- The pages of the block of order `order` at `pa`. -/
def pages (pa order : ℕ) : Set ℕ := {f | frameOf pa ≤ f ∧ f < frameOf pa+2 ^ order}

/-- A block address as the allocator counts them: whole blocks above the base. -/
def Placed (base pa order : ℕ) : Prop := base ≤ pa ∧ pageSize <<< order ∣ pa-base

/-- A run, with the pages that are allocated and not yet released. -/
inductive Run (L : Layout) : Buddy → Set ℕ → Prop
  | boot {s : Buddy} : L.init = some s → Run L s ∅
  | alloc {s s' : Buddy} {held : Set ℕ} {order pa : ℕ} : Run L s held → order ≤ maxOrder →
      s.allocPages order = some (pa, s') → Run L s' (held ∪ pages pa order)
  | free {s s' : Buddy} {held : Set ℕ} {order pa : ℕ} : Run L s held → order ≤ maxOrder →
      Placed s.base pa order → pages pa order ⊆ held → s.freePages pa order = some s' →
      Run L s' (held \ pages pa order)

/-- The left half of the buddy pair `j` of order `k`. -/
def leftHalf (s : Buddy) (k j : ℕ) : ℕ := s.base+j*pageSize <<< (k+1)

/-- A pair that has a bit in the bitmap of its order, or a managed page. -/
def BuddyPair (L : Layout) (s : Buddy) (k j : ℕ) : Prop :=
  j < 8*L.bitmapBytes k ∨ ∃ f, Managed L f ∧ f ∈ pages (leftHalf s k j) (k+1)

/-- What every state of a run satisfies. -/
structure Invariant (L : Layout) (s : Buddy) : Prop where
  aligned : ∀ k a, a ∈ s.freeList k → k ≤ maxOrder ∧ Placed s.base a k
  once : ∀ k, (s.freeList k).Nodup
  disjoint : ∀ k l a b, a ∈ s.freeList k → b ∈ s.freeList l → ¬ (k = l ∧ a = b) →
    Disjoint (pages a k) (pages b l)
  pair : ∀ k < maxOrder, ∀ j, BuddyPair L s k j →
    (s.bits (s.bitmap k+j) = true ↔ Xor (leftHalf s k j ∈ s.freeList k)
      (leftHalf s k j+pageSize <<< k ∈ s.freeList k)) ∧
    ¬ (leftHalf s k j ∈ s.freeList k ∧ leftHalf s k j+pageSize <<< k ∈ s.freeList k)
  ref : ∀ f, Managed L f → ((∃ k a, a ∈ s.freeList k ∧ f ∈ pages a k) ↔ s.ref f = 0)
  count : s.freePageNum = ∑ k ∈ Finset.range (maxOrder+1), ((s.freeList k).length : ℤ)*2 ^ k

/-- What an allocation of `order` must return. -/
structure Returned (s : Buddy) (held : Set ℕ) (order pa : ℕ) (s' : Buddy) : Prop where
  placed : Placed s.base pa order
  disjoint : Disjoint (pages pa order) held
  one : ∀ f ∈ pages pa order, s'.ref f = 1

/-! ## Blocks as indices -/

theorem pages_block (k i : ℕ) : pages (blockAddr k i) k = block k i := by
  ext f
  rw [mem_block_iff, ← frame_block]
  rfl

/-- Above an aligned base the placed addresses are the block addresses. -/
theorem placed_iff {base : ℕ} (hb : Aligned base) {k : ℕ} (hk : k ≤ maxOrder) (pa : ℕ) :
    Placed base pa k ↔ base ≤ pa ∧ ∃ i, pa = blockAddr k i := by
  have hsize : pageSize <<< k = 2 ^ (pageShift+k) := by
    rw [Nat.shiftLeft_eq, pow_add]
    rfl
  have hdvd : 2 ^ (pageShift+k) ∣ base := dvd_trans (pow_dvd_pow 2 (Nat.add_le_add_left hk _)) hb
  rw [Placed, hsize]
  constructor
  · rintro ⟨hle, hd⟩
    have hpa : 2 ^ (pageShift+k) ∣ pa := by
      rw [← Nat.sub_add_cancel hle]
      exact dvd_add hd hdvd
    obtain ⟨i, rfl⟩ := hpa
    exact ⟨hle, i, mul_comm _ _⟩
  · rintro ⟨hle, i, rfl⟩
    exact ⟨hle, Nat.dvd_sub (Dvd.intro_left _ rfl) hdvd⟩

section Reached

variable {L : Layout} {s s' : Buddy} {held : Set ℕ} {order pa : ℕ}

/-- What carries the run: the coherent lists, and the counts of the pages that
are held. -/
structure Reached (L : Layout) (s : Buddy) (held : Set ℕ) : Prop where
  coherent : Coherent (geometry L) {f | Managed L f} ∅ 0 s
  held : ∀ f ∈ held, Managed L f ∧ s.ref f = 1

/-- An allocated block, in the form of `Allocated`, was not held. -/
theorem Reached.alloc (hR : Region (geometry L) {f | Managed L f}) (h : Reached L s held)
    (hs : s.allocPages order = some (pa, s')) (horder : order ≤ maxOrder) :
    Reached L s' (held ∪ pages pa order) ∧ Returned s held order pa s' := by
  obtain ⟨⟨i, rfl, hsub, hblock, hframe⟩, hcoh⟩ := allocPages_spec hR h.coherent hs
  have hdisj : Disjoint (block order i) held := by
    rw [Set.disjoint_left]
    intro f hf hheld
    have h0 := (hblock f hf).1
    have h1 := (h.held f hheld).2
    omega
  rw [pages_block]
  refine ⟨⟨hcoh, ?_⟩, ⟨?_, by rwa [pages_block], ?_⟩⟩
  · rintro f (hf | hf)
    · have hnot : f ∉ block order i := fun hb => (Set.disjoint_left.mp hdisj) hb hf
      rw [hframe f hnot]
      exact h.held f hf
    · exact ⟨hsub hf, (hblock f hf).2⟩
  · rw [h.coherent.base, placed_iff (geometry L).aligned horder]
    exact ⟨base_le_block hR hsub, i, rfl⟩
  · rw [pages_block]
    exact fun f hf => (hblock f hf).2

theorem Reached.free (hR : Region (geometry L) {f | Managed L f}) (h : Reached L s held)
    (horder : order ≤ maxOrder) (hpa : Placed s.base pa order) (hheld : pages pa order ⊆ held)
    (hs : s.freePages pa order = some s') : Reached L s' (held \ pages pa order) := by
  rw [h.coherent.base, placed_iff (geometry L).aligned horder] at hpa
  obtain ⟨-, i, rfl⟩ := hpa
  rw [pages_block] at hheld ⊢
  have hsub : block order i ⊆ {f | Managed L f} := fun f hf => (h.held f (hheld hf)).1
  obtain ⟨hrel, hcoh⟩ := freePages_spec hR horder (frame_block order i) hsub h.coherent hs
  refine ⟨hcoh, ?_⟩
  rintro f ⟨hf, hnot⟩
  rw [hrel.frame f hnot]
  exact h.held f hf

theorem run_reached (hp : PagesFit L) (hfit : BitmapsFit L) (h : Run L s held) :
    Region (geometry L) {f | Managed L f} ∧ Reached L s held := by
  induction h with
  | boot hs =>
    obtain ⟨hR, hcoh⟩ := init_region hp hfit hs
    exact ⟨hR, hcoh, fun f hf => absurd hf (Set.notMem_empty f)⟩
  | alloc _ horder hs ih => exact ⟨ih.1, (ih.2.alloc ih.1 hs horder).1⟩
  | free _ horder hpa hheld hs ih => exact ⟨ih.1, ih.2.free ih.1 horder hpa hheld hs⟩

/-- The two halves of pair `j`, as block indices. -/
theorem halves (h : Reached L s held) {k : ℕ} (hk : k < maxOrder) (j : ℕ) :
    leftHalf s k j = blockAddr k (2*((geometry L).firstPair k+j)) ∧
    leftHalf s k j+pageSize <<< k = blockAddr k (2*((geometry L).firstPair k+j)+1) := by
  obtain ⟨b, hb, -, hfirst⟩ := aligned_base (geometry L).aligned hk
  have hleft : leftHalf s k j = blockAddr (k+1) (b+j) := by
    rw [leftHalf, h.coherent.base, hb, ← blockAddr_succ, Nat.shiftLeft_eq, blockAddr, blockAddr,
      pow_add, show pageSize = 2 ^ pageShift from rfl]
    ring
  rw [Geometry.firstPair, hfirst, ← upper_half, ← hleft, ← blockAddr_succ]
  exact ⟨hleft, rfl⟩

theorem pair_in_map (hR : Region (geometry L) {f | Managed L f}) (h : Reached L s held) {k : ℕ}
    (hk : k < maxOrder) {j : ℕ} (hj : BuddyPair L s k j) :
    (geometry L).InMap k ((geometry L).firstPair k+j) := by
  refine ⟨Nat.le_add_right _ _, ?_⟩
  rw [Nat.add_sub_cancel_left]
  rcases hj with hj | ⟨f, hf, hpage⟩
  · exact hj
  · rw [(halves h hk j).1, ← blockAddr_succ, pages_block, mem_block] at hpage
    have hfits := hR.fits f hf k hk
    rwa [hpage, Nat.add_sub_cancel_left] at hfits

theorem Reached.invariant (hR : Region (geometry L) {f | Managed L f}) (h : Reached L s held) :
    Invariant L s := by
  have hc := h.coherent
  refine ⟨?_, hc.nodup, ?_, ?_, ?_, ?_⟩
  · intro k a ha
    obtain ⟨hk, i, rfl⟩ := hc.placed k a ha
    refine ⟨hk, ?_⟩
    rw [hc.base, placed_iff (geometry L).aligned hk]
    have hsub : block k i ⊆ {f | Managed L f} := fun f hf => hc.managed f (Or.inl ⟨k, by
      rw [mem_block] at hf
      rw [hf]
      exact ha⟩)
    exact ⟨base_le_block hR hsub, i, rfl⟩
  · intro k l a b ha hb hne
    obtain ⟨-, i, rfl⟩ := hc.placed k a ha
    obtain ⟨-, j, rfl⟩ := hc.placed l b hb
    rw [pages_block, pages_block, Set.disjoint_left]
    intro f hf hf'
    obtain ⟨rfl, rfl⟩ := separated_disjoint hc.separated ha hb hf hf'
    exact hne ⟨rfl, rfl⟩
  · intro k hk j hj
    have hp := hc.pair k hk _ (pair_in_map hR h hk hj)
    rw [Geometry.slot, Nat.add_sub_cancel_left, ← hc.bitmap] at hp
    rw [(halves h hk j).2, (halves h hk j).1]
    exact hp
  · intro f hf
    have hz := (hc.ref f hf).2
    rw [hz]
    simp only [Set.mem_empty_iff_false, or_false]
    constructor
    · rintro ⟨k, a, ha, hpage⟩
      obtain ⟨-, i, rfl⟩ := hc.placed k a ha
      rw [pages_block, mem_block] at hpage
      exact ⟨k, by rw [hpage]; exact ha⟩
    · rintro ⟨k, hk⟩
      refine ⟨k, blockAddr k (f / 2 ^ k), hk, ?_⟩
      rw [pages_block, mem_block]
  · have hcount := hc.count
    rw [add_zero] at hcount
    exact hcount

end Reached

/-- While the bitmaps cover the managed memory, every state of every run is
coherent, and every allocation returns pages that nobody holds. -/
theorem buddy_run {L : Layout} (hp : PagesFit L) (hfit : BitmapsFit L) {s : Buddy} {held : Set ℕ}
    (h : Run L s held) :
    Invariant L s ∧ ∀ order pa s', order ≤ maxOrder → s.allocPages order = some (pa, s') →
      Returned s held order pa s' := by
  obtain ⟨hR, hreach⟩ := run_reached hp hfit h
  exact ⟨hreach.invariant hR, fun _ _ _ horder hs => (hreach.alloc hR hs horder).2⟩

/-! ## Memory on both sides of 4 GiB -/

/-- Eight MiB, of which the upper four are managed. -/
def small : Layout where
  startUsable := 0x200000
  ranges := [⟨0x100000, 0x700000, 1⟩]
  oldRef := fun _ => 0
  oldBits := fun _ => true
  physical := by decide
  start_physical := by decide

theorem buddy_run_small : ∃ s, Run small s ∅ ∧ Invariant small s := by
  have hp : PagesFit small := by
    rw [PagesFit]
    decide +kernel
  have hspan : small.endUsable < small.bitmapStart+2 ^ 32 := by decide +kernel
  obtain ⟨s, -, hs, -⟩ := init_total hp
  exact ⟨s, Run.boot hs, (buddy_run hp (bitmaps_fit_of_span hp hspan) (Run.boot hs)).1⟩

/-- 32 MiB, and three more MiB above 4 GiB that hold no whole block. The span of
the bitmaps is a little over 4 GiB and is cut to a few MiB. -/
def wide : Layout where
  startUsable := 0x200000
  ranges := [⟨0x100000, 0x1f00000, 1⟩, ⟨0x101800000, 0x300000, 1⟩]
  oldRef := fun _ => 0
  oldBits := fun _ => false
  physical := by decide
  start_physical := by decide

/-- `wide` after `init`: one free block of the largest order. -/
def wideBoot : Buddy :=
  Buddy.addToHead { wide.blank with
    ref := addOn (frameOf 29360128) (2 ^ maxOrder) (-1) wide.blank.ref
    freePageNum := wide.blank.freePageNum+2 ^ maxOrder } maxOrder 29360128

theorem wide_freePages : wide.blank.freePages 29360128 maxOrder = some wideBoot := by
  rw [freePages_eq]
  refine ⟨true, ?_, ?_⟩
  · rintro f ⟨-, hf⟩
    have hlast : frameOf 29360128+2 ^ maxOrder ≤ wide.pageNum := by decide +kernel
    have hone : wide.blank.ref f = 1 := by
      simp only [Layout.blank, lt_of_lt_of_le hf hlast, if_true]
    rw [hone]
    decide
  · have haddr : 29360128 &&& pageMask maxOrder = 29360128 := by decide +kernel
    rw [if_pos rfl, haddr, Nat.sub_self, Buddy.coalesce, wideBoot]

theorem freeBootMem_cons {r : Range} {rs : List Range} {start start' : ℕ} {s s' : Buddy}
    (h : Layout.freeBootRange r start s = some (start', s')) :
    Layout.freeBootMem (r :: rs) start s = Layout.freeBootMem rs start' s' := by
  simp only [Layout.freeBootMem, h]

theorem wide_init : wide.init = some wideBoot := by
  have hbase : Layout.alignUp wide.memStart = 29360128 := by decide +kernel
  have hone : Layout.freeBootRange ⟨0x100000, 0x1f00000, 1⟩ 29360128 wide.blank =
      some (33554432, wideBoot) := by
    have hlast : 33554432 &&& pageMask maxOrder = 33554432 := by decide +kernel
    have hnext : Layout.alignUp 33554432 = 33554432 := by decide +kernel
    have hcount : (33554432-29360128+(Layout.blockSize-1)) / Layout.blockSize = 1 := by
      decide +kernel
    rw [Layout.freeBootRange, if_pos (by decide), if_neg (by decide)]
    simp only [Nat.reduceAdd, hlast, hnext, Layout.freeBootMemRange, hcount, Layout.freeBlocks,
      wide_freePages, Option.map_some]
  have htwo : ∃ n, Layout.freeBootRange ⟨0x101800000, 0x300000, 1⟩ 33554432 wideBoot =
      some (n, wideBoot) := by
    have hstart : Layout.alignUp 0x101800000 = 0x101800000 := by decide +kernel
    have hlast : 4323278848 &&& pageMask maxOrder = 0x101800000 := by decide +kernel
    have hcount : (0x101800000-0x101800000+(Layout.blockSize-1)) / Layout.blockSize = 0 := by
      decide +kernel
    refine ⟨Layout.alignUp 4323278848, ?_⟩
    rw [Layout.freeBootRange, if_pos (by decide), if_pos (by decide)]
    simp only [Nat.reduceAdd, hstart, hlast, Layout.freeBootMemRange, hcount, Layout.freeBlocks,
      Option.map_some]
  obtain ⟨n, htwo⟩ := htwo
  have hranges : wide.ranges = [⟨0x100000, 0x1f00000, 1⟩, ⟨0x101800000, 0x300000, 1⟩] := rfl
  rw [Layout.init, hbase, hranges, freeBootMem_cons hone, freeBootMem_cons htwo, Layout.freeBootMem]

/-- The first allocation flips the bits of orders 1 to 4 of the last pages. They
are one and the same bit. -/
theorem wide_alloc : (wideBoot.allocPages 0).map
    (fun r => (r.2.base, r.2.bits (r.2.bitmap 1+255), r.2.freeList 1)) =
      some (29360128, false, [33538048]) := by
  decide +kernel

theorem wide_run : ∃ s held, Run wide s held ∧ ¬ Invariant wide s := by
  obtain ⟨⟨pa, s⟩, hs, hsee⟩ := Option.map_eq_some_iff.mp wide_alloc
  obtain ⟨hbase, hrest⟩ := Prod.mk.inj hsee
  obtain ⟨hbit, hlist⟩ := Prod.mk.inj hrest
  refine ⟨s, _, (Run.boot wide_init).alloc (by decide) hs, fun hinv => ?_⟩
  have hleft : leftHalf s 1 255 = 33538048 := by
    rw [leftHalf, hbase]
    decide
  have hpair : BuddyPair wide s 1 255 := by
    have hmem : blockAddr maxOrder (8188 / 2 ^ maxOrder) ∈ wideBoot.freeList maxOrder := by
      decide +kernel
    have hpage : frameOf 33538048 ≤ 8188 ∧ 8188 < frameOf 33538048+2 ^ 2 := by decide +kernel
    refine Or.inr ⟨8188, ⟨wideBoot, wide_init, maxOrder, hmem⟩, ?_⟩
    rw [hleft]
    exact hpage
  have hxor := (hinv.pair 1 (by decide) 255 hpair).1
  rw [hleft, hlist, hbit] at hxor
  exact absurd (hxor.mpr (by decide)) (by decide)

end BabyOS.BuddyRun

import BabyOS.CopyOnWrite
import BabyOS.MergedBlocks

/-!
# Blocks that come back

From any state, blocks are allocated and their pages are given back, whole or in pieces,
in any order. When all have come back, the free blocks are the ones from before.
-/

set_option autoImplicit false

namespace BabyOS.BuddyCycles
open BabyOS.DyadicBlocks BabyOS.MergedBlocks
open BabyOS.BuddyMachine BabyOS.BuddyArithmetic BabyOS.BuddyInvariant BabyOS.BuddyOperations
open BabyOS.BuddyBoot BabyOS.BuddyRun BabyOS.FrameCounts

/-- The states that calls of the allocator lead to. Pages of the memory it manages are
counted up when they are in use, and blocks of such pages are released. -/
inductive Reach (L : Layout) : Buddy → Prop
  | boot {s : Buddy} : L.init = some s → Reach L s
  | alloc {s s' : Buddy} {order pa : ℕ} : Reach L s → order ≤ maxOrder →
      s.allocPages order = some (pa, s') → Reach L s'
  | free {s s' : Buddy} {order pa : ℕ} : Reach L s → order ≤ maxOrder → Placed s.base pa order →
      pages pa order ⊆ {f | Managed L f} → s.freePages pa order = some s' → Reach L s'
  | inc {s : Buddy} {pa : ℕ} : Reach L s → 0 < s.ref (frameOf pa) → Reach L (s.incPageRef pa)

/-- From `s` on, with the pages that were allocated since and did not come back. -/
inductive Cycle (s : Buddy) : Buddy → Set ℕ → Prop
  | start : Cycle s s ∅
  | alloc {s' s'' : Buddy} {out : Set ℕ} {order pa : ℕ} : Cycle s s' out → order ≤ maxOrder →
      s'.allocPages order = some (pa, s'') → Cycle s s'' (out ∪ pages pa order)
  | free {s' s'' : Buddy} {out : Set ℕ} {order pa : ℕ} : Cycle s s' out → order ≤ maxOrder →
      Placed s'.base pa order → pages pa order ⊆ out → s'.freePages pa order = some s'' →
      Cycle s s'' (out \ pages pa order)

/-- The same free blocks, the same bits below the largest order, and the same number of
free pages. -/
structure Same (L : Layout) (s s' : Buddy) : Prop where
  blocks : ∀ k a, a ∈ s'.freeList k ↔ a ∈ s.freeList k
  bits : ∀ k < maxOrder, ∀ j < 8*L.bitmapBytes k, s'.bits (s'.bitmap k+j) = s.bits (s.bitmap k+j)
  free : s'.freePageNum = s.freePageNum

section Cycles

variable {L : Layout} {G : Geometry} {M : Set ℕ} {s s' s'' : Buddy} {out : Set ℕ} {order pa : ℕ}

theorem reach_coherent (hp : PagesFit L) (hfit : BitmapsFit L) (h : Reach L s) :
    Region (geometry L) {f | Managed L f} ∧ Coherent (geometry L) {f | Managed L f} ∅ 0 s := by
  induction h with
  | boot hs => exact init_region hp hfit hs
  | alloc _ horder hs ih => exact ⟨ih.1, (allocPages_spec ih.1 ih.2 hs).2⟩
  | free _ horder hpa hM hs ih =>
    obtain ⟨hR, hc⟩ := ih
    rw [hc.base, placed_iff (geometry L).aligned horder] at hpa
    obtain ⟨-, i, rfl⟩ := hpa
    rw [pages_block] at hM
    exact ⟨hR, (freePages_spec hR horder (frame_block _ i) hM hc hs).2⟩
  | inc _ hpos ih => exact ⟨ih.1, inc_coherent ih.2 hpos⟩

/-- The free blocks of a coherent state are as large as they can be. -/
theorem coherent_merged (hR : Region G M) (hc : Coherent G M ∅ 0 s) : Merged maxOrder (freeFamily s) := by
  refine ⟨hc.separated, fun k i hi => (hc.placed k _ hi).1, fun k hk i hboth => ?_⟩
  have hsub : block k (2*i) ⊆ M := by
    intro f hf
    refine hc.managed f (Or.inl ⟨k, ?_⟩)
    rw [mem_block] at hf
    rw [hf]
    exact hboth.1
  have hin := in_map_block hR hsub hk
  rw [Nat.mul_div_cancel_left i (by decide)] at hin
  exact (hc.pair k hk i hin).2 hboth

/-- What a coherent state has is known from the pages that are free. -/
theorem same_of_covered (hR : Region (geometry L) M) (hc : Coherent (geometry L) M ∅ 0 s)
    (hc' : Coherent (geometry L) M ∅ 0 s') (hzero : ∀ f ∈ M, s'.ref f = 0 ↔ s.ref f = 0) : Same L s s' := by
  have hcover : ∀ f, Covered (freeFamily s') f ↔ Covered (freeFamily s) f := by
    intro f
    have hfree : ∀ {b : Buddy}, Coherent (geometry L) M ∅ 0 b → (Covered (freeFamily b) f ↔ f ∈ M ∧ b.ref f = 0) := by
      intro b hb
      constructor
      · intro hf
        have hM := hb.managed f (Or.inl hf)
        exact ⟨hM, (hb.ref f hM).2.mpr (Or.inl hf)⟩
      · rintro ⟨hM, hf⟩
        exact ((hb.ref f hM).2.mp hf).resolve_right (Set.notMem_empty f)
    rw [hfree hc', hfree hc]
    exact and_congr_right (hzero f)
  have hfamily : freeFamily s' = freeFamily s :=
    merged_unique (coherent_merged hR hc') (coherent_merged hR hc) hcover
  have hblocks : ∀ k a, a ∈ s'.freeList k ↔ a ∈ s.freeList k := by
    have hone : ∀ {b b' : Buddy}, Coherent (geometry L) M ∅ 0 b → freeFamily b' = freeFamily b →
        ∀ k a, a ∈ b.freeList k → a ∈ b'.freeList k := by
      intro b b' hb heq k a ha
      obtain ⟨-, i, rfl⟩ := hb.placed k a ha
      have hi : i ∈ freeFamily b k := ha
      rw [← heq] at hi
      exact hi
    exact fun k a => ⟨hone hc' hfamily.symm k a, hone hc hfamily k a⟩
  refine ⟨hblocks, fun k hk j hj => ?_, ?_⟩
  · have hin : (geometry L).InMap k ((geometry L).firstPair k+j) := by
      refine ⟨Nat.le_add_right _ _, ?_⟩
      rw [Nat.add_sub_cancel_left]
      exact hj
    have hbit := (hc.pair k hk _ hin).1
    have hbit' := (hc'.pair k hk _ hin).1
    rw [Geometry.slot, Nat.add_sub_cancel_left, ← hc.bitmap] at hbit
    rw [Geometry.slot, Nat.add_sub_cancel_left, ← hc'.bitmap, hfamily] at hbit'
    exact Bool.eq_iff_iff.mpr (hbit'.trans hbit.symm)
  · have hlength : ∀ k, (s'.freeList k).length = (s.freeList k).length := fun k =>
      ((List.perm_ext_iff_of_nodup (hc'.nodup k) (hc.nodup k)).mpr (hblocks k)).length_eq
    have htotal : total s'.freeList = total s.freeList := by
      rw [total, total]
      simp only [hlength]
    have hcount := hc.count
    have hcount' := hc'.count
    omega

/-- The counts on the way: 1 for the pages that are out, and the old ones. -/
structure Outside (G : Geometry) (M : Set ℕ) (s s' : Buddy) (out : Set ℕ) : Prop where
  coherent : Coherent G M ∅ 0 s'
  taken : ∀ f ∈ out, f ∈ M ∧ s.ref f = 0 ∧ s'.ref f = 1
  kept : ∀ f, f ∉ out → s'.ref f = s.ref f

theorem cycle_outside (hR : Region G M) (hc : Coherent G M ∅ 0 s) (h : Cycle s s' out) :
    Outside G M s s' out := by
  induction h with
  | start => exact ⟨hc, fun f hf => absurd hf (Set.notMem_empty f), fun _ _ => rfl⟩
  | @alloc s₁ s₂ held order pa _ horder hs ih =>
    obtain ⟨⟨i, rfl, hsub, hblock, hframe⟩, hc'⟩ := allocPages_spec hR ih.coherent hs
    rw [pages_block]
    refine ⟨hc', ?_, fun f hf => ?_⟩
    · rintro f (hf | hf)
      · obtain ⟨hM, hzero, hone⟩ := ih.taken f hf
        have hnot : f ∉ block order i := by
          intro hin
          have := (hblock f hin).1
          omega
        exact ⟨hM, hzero, (hframe f hnot).trans hone⟩
      · obtain ⟨hzero, hone⟩ := hblock f hf
        refine ⟨hsub hf, ?_, hone⟩
        rw [← ih.kept f ?_]
        · exact hzero
        · intro hin
          have := (ih.taken f hin).2.2
          omega
    · rw [Set.mem_union, not_or] at hf
      rw [hframe f hf.2, ih.kept f hf.1]
  | @free s₁ s₂ held order pa _ horder hpa hout hs ih =>
    rw [ih.coherent.base, placed_iff G.aligned horder] at hpa
    obtain ⟨-, i, rfl⟩ := hpa
    rw [pages_block] at hout ⊢
    obtain ⟨hrel, hc'⟩ := freePages_spec hR horder (frame_block order i) (fun f hf => (ih.taken f (hout hf)).1)
      ih.coherent hs
    refine ⟨hc', ?_, fun f hf => ?_⟩
    · rintro f ⟨hf, hnot⟩
      obtain ⟨hM, hzero, hone⟩ := ih.taken f hf
      exact ⟨hM, hzero, (hrel.frame f hnot).trans hone⟩
    · by_cases hin : f ∈ block order i
      · obtain ⟨-, hzero, hone⟩ := ih.taken f (hout hin)
        rw [hrel.less f hin, hone, hzero, sub_self]
      · rw [hrel.frame f hin]
        exact ih.kept f (fun hmem => hf ⟨hmem, hin⟩)

/-- No release of pages that are out panics. -/
theorem Outside.releases (h : Outside G M s s' out) (hout : pages pa order ⊆ out) :
    ∃ s'', s'.freePages pa order = some s'' := by
  refine ⟨_, freePages_eq.mpr ⟨true, fun f hf => ?_, rfl⟩⟩
  have hone := (h.taken f (hout hf)).2.2
  rw [hone]
  decide

/-- While the bitmaps cover the managed memory: no release panics, and when all pages have
come back, the allocator is as it was. -/
theorem cycle_same (hp : PagesFit L) (hfit : BitmapsFit L) (hreach : Reach L s) (h : Cycle s s' out) :
    (∀ order pa, pages pa order ⊆ out → ∃ s'', s'.freePages pa order = some s'') ∧ (out = ∅ → Same L s s') := by
  obtain ⟨hR, hc⟩ := reach_coherent hp hfit hreach
  have hout := cycle_outside hR hc h
  refine ⟨fun order pa => hout.releases, ?_⟩
  rintro rfl
  apply same_of_covered hR hc hout.coherent
  intro f _
  rw [hout.kept f (Set.notMem_empty f)]

end Cycles

/-! ## One page -/

/-- A page that is taken and given back at once. -/
theorem cycle_one {s s' s'' : Buddy} {pa : ℕ} (halloc : s.allocPages 0 = some (pa, s')) (hpa : s'.base ≤ pa)
    (halign : pageSize ∣ pa-s'.base) (hfree : s'.freePages pa 0 = some s'') : Cycle s s'' ∅ := by
  have hcycle := Cycle.start.alloc (Nat.zero_le _) halloc
  have hback := hcycle.free (Nat.zero_le _) ⟨hpa, halign⟩ Set.subset_union_right hfree
  rwa [Set.empty_union, Set.sdiff_self] at hback

theorem cycle_small : ∃ s s', Reach small s ∧ Cycle s s' ∅ ∧ Same small s s' := by
  have hp : PagesFit small := by
    rw [PagesFit]
    decide +kernel
  have hspan : small.endUsable < small.bitmapStart+2 ^ 32 := by decide +kernel
  have hfit := bitmaps_fit_of_span hp hspan
  have hreach : Reach small CopyOnWrite.smallBoot := .boot CopyOnWrite.small_init
  have hout := Cycle.start.alloc (Nat.zero_le _) CopyOnWrite.root_alloc
  obtain ⟨s'', hfree⟩ := (cycle_same hp hfit hreach hout).1 0 _ Set.subset_union_right
  have hbase : CopyOnWrite.origin.phys.buddy.base = 0x400000 := by decide +kernel
  have hcycle := cycle_one CopyOnWrite.root_alloc (by rw [hbase]; decide +kernel) (by rw [hbase]; decide +kernel) hfree
  exact ⟨_, s'', hreach, hcycle, (cycle_same hp hfit hreach hcycle).2 rfl⟩

/-- In `wide` the page does not merge with its neighbours again. -/
theorem wide_cycle : ∃ s s', Reach wide s ∧ Cycle s s' ∅ ∧ ¬ Same wide s s' := by
  have hback : ((wideBoot.allocPages 0).bind fun r => (r.2.freePages r.1 0).map fun s =>
      (r.1, r.2.base, s.freeList maxOrder)) = some (33550336, 29360128, []) := by decide +kernel
  obtain ⟨⟨pa, s'⟩, halloc, hrest⟩ := Option.bind_eq_some_iff.mp hback
  obtain ⟨s'', hfree, hsee⟩ := Option.map_eq_some_iff.mp hrest
  obtain ⟨rfl, hsee⟩ := Prod.mk.inj hsee
  obtain ⟨hbase, hlist⟩ := Prod.mk.inj hsee
  dsimp only at hbase hfree
  refine ⟨wideBoot, s'', .boot wide_init, cycle_one halloc ?_ ?_ hfree, fun hsame => ?_⟩
  · rw [hbase]
    decide
  · rw [hbase]
    decide
  · have hmem : 29360128 ∈ wideBoot.freeList maxOrder := by decide +kernel
    rw [← hsame.blocks, hlist] at hmem
    cases hmem

end BabyOS.BuddyCycles

import BabyOS.BuddyOperations

/-!
# The allocator as its callers see it

Blocks, counts and free blocks, with the lists and bitmaps hidden: a coherent
allocator hands out frames whose count is 0 and gives them count 1; a release
takes one from each count of the block.
-/

set_option autoImplicit false

namespace BabyOS.FrameCounts
open BabyOS.DyadicBlocks BabyOS.BuddyMachine BabyOS.BuddyArithmetic BabyOS.BuddyInvariant
open BabyOS.BuddyOperations

/-- A coherent allocator of the frames in `M`. -/
def Frames (M : Set ℕ) (b : Buddy) : Prop := ∃ G, Region G M ∧ Coherent G M ∅ 0 b

def frameAddr (f : ℕ) : ℕ := f*pageSize

theorem frameOf_frameAddr (f : ℕ) : frameOf (frameAddr f) = f := Nat.mul_div_cancel f (by decide)

theorem frameOf_offset {f o : ℕ} (ho : o < pageSize) : frameOf (frameAddr f+o) = f := by
  rw [frameOf, frameAddr, mul_comm, Nat.mul_add_div (by decide), Nat.div_eq_of_lt ho, add_zero]

section Interface

variable {M : Set ℕ} {b b' : Buddy}

theorem Frames.nonneg (h : Frames M b) {f : ℕ} (hf : f ∈ M) : 0 ≤ b.ref f := by
  obtain ⟨G, -, hc⟩ := h
  exact (hc.ref f hf).1

/-- A block of fresh frames, each with count 1 now. -/
structure Fresh (M : Set ℕ) (b : Buddy) (first n : ℕ) (b' : Buddy) : Prop where
  inside : ∀ f, first ≤ f → f < first+n → f ∈ M
  zero : ∀ f, first ≤ f → f < first+n → b.ref f = 0
  ref : ∀ f, b'.ref f = b.ref f+if first ≤ f ∧ f < first+n then 1 else 0

theorem alloc_fresh (h : Frames M b) {order pa : ℕ} (hs : b.allocPages order = some (pa, b')) :
    Frames M b' ∧ pa = frameAddr (frameOf pa) ∧ Fresh M b (frameOf pa) (2 ^ order) b' := by
  obtain ⟨G, hR, hc⟩ := h
  obtain ⟨⟨i, rfl, hsub, hblock, hframe⟩, hc'⟩ := allocPages_spec hR hc hs
  have haddr : blockAddr order i = frameAddr (frameOf (blockAddr order i)) := by
    rw [frame_block, frameAddr, blockAddr, pow_add, show pageSize = 2 ^ pageShift from rfl]
    ring
  refine ⟨⟨G, hR, hc'⟩, haddr, ⟨?_, ?_, ?_⟩⟩
  all_goals rw [frame_block]
  · intro f hlow hhigh
    exact hsub ((mem_block_iff _ _ _).mpr ⟨hlow, hhigh⟩)
  · intro f hlow hhigh
    exact (hblock f ((mem_block_iff _ _ _).mpr ⟨hlow, hhigh⟩)).1
  · intro f
    by_cases hf : f ∈ block order i
    · rw [(hblock f hf).2, (hblock f hf).1, if_pos ((mem_block_iff _ _ _).mp hf), zero_add]
    · rw [hframe f hf, if_neg (fun hin => hf ((mem_block_iff _ _ _).mpr hin)), add_zero]

/-- One frame: the block of order 0. -/
theorem alloc_one (h : Frames M b) {pa : ℕ} (hs : b.allocPages 0 = some (pa, b')) :
    Frames M b' ∧ pa = frameAddr (frameOf pa) ∧ frameOf pa ∈ M ∧ b.ref (frameOf pa) = 0 ∧
      ∀ f, b'.ref f = b.ref f+if f = frameOf pa then 1 else 0 := by
  obtain ⟨h', haddr, hfresh⟩ := alloc_fresh h hs
  refine ⟨h', haddr, hfresh.inside _ le_rfl (by simp), hfresh.zero _ le_rfl (by simp), ?_⟩
  intro f
  have hiff : frameOf pa ≤ f ∧ f < frameOf pa+2 ^ 0 ↔ f = frameOf pa := by
    rw [pow_zero]
    omega
  rw [hfresh.ref f]
  simp only [hiff]

/-- A release of a managed block that does not panic. -/
theorem free_block (h : Frames M b) {order i pa : ℕ} (horder : order ≤ maxOrder)
    (hpa : frameOf pa = i*2 ^ order) (hM : ∀ f, frameOf pa ≤ f → f < frameOf pa+2 ^ order → f ∈ M)
    (hs : b.freePages pa order = some b') :
    Frames M b' ∧ ∀ f, b'.ref f = b.ref f-if frameOf pa ≤ f ∧ f < frameOf pa+2 ^ order then 1 else 0 := by
  obtain ⟨G, hR, hc⟩ := h
  have hsub : block order i ⊆ M := by
    intro f hf
    rw [mem_block_iff, ← hpa] at hf
    exact hM f hf.1 hf.2
  obtain ⟨hrel, hc'⟩ := freePages_spec hR horder hpa hsub hc hs
  refine ⟨⟨G, hR, hc'⟩, ?_⟩
  intro f
  rw [hpa]
  by_cases hf : f ∈ block order i
  · rw [hrel.less f hf, if_pos ((mem_block_iff _ _ _).mp hf)]
  · rw [hrel.frame f hf, if_neg (fun hin => hf ((mem_block_iff _ _ _).mpr hin)), sub_zero]

theorem free_one (h : Frames M b) {pa : ℕ} (hM : frameOf pa ∈ M)
    (hs : b.freePages pa 0 = some b') :
    Frames M b' ∧ ∀ f, b'.ref f = b.ref f-if f = frameOf pa then 1 else 0 := by
  have hiff : ∀ f, frameOf pa ≤ f ∧ f < frameOf pa+2 ^ 0 ↔ f = frameOf pa := by
    intro f
    rw [pow_zero]
    omega
  obtain ⟨h', href⟩ := free_block h (Nat.zero_le _) (i := frameOf pa) (by simp)
    (fun f hlow hhigh => by rwa [(hiff f).mp ⟨hlow, hhigh⟩]) hs
  refine ⟨h', fun f => ?_⟩
  rw [href f]
  simp only [hiff]

theorem incPageRef_ref (b : Buddy) (pa f : ℕ) :
    (b.incPageRef pa).ref f = b.ref f+if f = frameOf pa then 1 else 0 := by
  by_cases hf : f = frameOf pa
  · subst hf
    simp [Buddy.incPageRef, mapNr_eq]
  · simp [Buddy.incPageRef, mapNr_eq, hf]

theorem inc_coherent {G : Geometry} (hc : Coherent G M ∅ 0 b) {pa : ℕ} (hpos : 0 < b.ref (frameOf pa)) :
    Coherent G M ∅ 0 (b.incPageRef pa) := by
  refine ⟨hc.base, hc.bitmap, hc.placed, hc.nodup, hc.separated, hc.managed, hc.floating,
    hc.pair, ?_, hc.count⟩
  intro f hf
  obtain ⟨hnonneg, hzero⟩ := hc.ref f hf
  change 0 ≤ (b.incPageRef pa).ref f ∧ ((b.incPageRef pa).ref f = 0 ↔ Covered (freeFamily b) f ∨ f ∈ ∅)
  rw [incPageRef_ref, ← hzero]
  split
  next heq =>
    subst heq
    omega
  next => omega

/-- `inc_page_ref` of a frame that is in use. -/
theorem inc_one (h : Frames M b) {pa : ℕ} (hpos : 0 < b.ref (frameOf pa)) :
    Frames M (b.incPageRef pa) ∧
      ∀ f, (b.incPageRef pa).ref f = b.ref f+if f = frameOf pa then 1 else 0 := by
  obtain ⟨G, hR, hc⟩ := h
  exact ⟨⟨G, hR, inc_coherent hc hpos⟩, incPageRef_ref b pa⟩

end Interface

end BabyOS.FrameCounts

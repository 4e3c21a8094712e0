import BabyOS.BuddyArithmetic

/-!
# The invariant of the free lists, the bitmaps and the page counts

One bit per buddy pair records the exclusive-or of "left half is on its list"
and "right half is on its list". While an operation runs, one block may float:
it is on no list although its pages count as free. The invariant carries this
block `X` and the difference `c` of the free-page counter, so that the splitting
loop and the coalescing loop are runs of the two steps proved here: put a
floating block on a list, and take a block off its list.
-/

set_option autoImplicit false

namespace BabyOS.BuddyInvariant
open BabyOS.DyadicBlocks BabyOS.BuddyMachine BabyOS.BuddyArithmetic

/-- Where the bitmaps are and how many bits each of them has. -/
structure Geometry where
  base : ℕ
  bitmap : ℕ → ℕ
  size : ℕ → ℕ
  aligned : Aligned base
  apart : ∀ k, bitmap k+size k ≤ bitmap (k+1)

namespace Geometry

/-- The first pair of order `k`: the pair that starts at the base. -/
def firstPair (G : Geometry) (k : ℕ) : ℕ := G.base / 2 ^ (pageShift+(k+1))

def InMap (G : Geometry) (k j : ℕ) : Prop := G.firstPair k ≤ j ∧ j-G.firstPair k < G.size k

def slot (G : Geometry) (k j : ℕ) : ℕ := G.bitmap k+(j-G.firstPair k)

theorem bitmap_mono (G : Geometry) {j k : ℕ} (h : j < k) : G.bitmap j+G.size j ≤ G.bitmap k := by
  induction k with
  | zero => omega
  | succ k ih =>
    have ha := G.apart k
    rcases Nat.lt_succ_iff_lt_or_eq.mp h with hlt | rfl
    · have := ih hlt
      omega
    · exact ha

/-- Bits of different pairs are different bits, as long as they are inside the
bitmaps. -/
theorem slot_injective (G : Geometry) {k l i j : ℕ} (hi : G.InMap k i) (hj : G.InMap l j)
    (h : G.slot k i = G.slot l j) : k = l ∧ i = j := by
  unfold InMap slot at *
  rcases lt_trichotomy k l with hkl | rfl | hkl
  · have := G.bitmap_mono hkl
    omega
  · exact ⟨rfl, by omega⟩
  · have := G.bitmap_mono hkl
    omega

end Geometry

def freeFamily (s : Buddy) : Family := fun k => {i | blockAddr k i ∈ s.freeList k}

def total (lists : ℕ → List ℕ) : ℤ :=
  ∑ k ∈ Finset.range (maxOrder+1), ((lists k).length : ℤ)*2 ^ k

structure Coherent (G : Geometry) (M X : Set ℕ) (c : ℤ) (s : Buddy) : Prop where
  base : s.base = G.base
  bitmap : s.bitmap = G.bitmap
  placed : ∀ k a, a ∈ s.freeList k → k ≤ maxOrder ∧ ∃ i, a = blockAddr k i
  nodup : ∀ k, (s.freeList k).Nodup
  separated : Separated (freeFamily s)
  managed : ∀ f, Covered (freeFamily s) f ∨ f ∈ X → f ∈ M
  floating : ∀ f ∈ X, ¬ Covered (freeFamily s) f
  pair : ∀ k < maxOrder, ∀ j, G.InMap k j →
    (s.bits (G.slot k j) = true ↔ Xor (2*j ∈ freeFamily s k) (2*j+1 ∈ freeFamily s k)) ∧
    ¬ (2*j ∈ freeFamily s k ∧ 2*j+1 ∈ freeFamily s k)
  ref : ∀ f ∈ M, 0 ≤ s.ref f ∧ (s.ref f = 0 ↔ Covered (freeFamily s) f ∨ f ∈ X)
  count : s.freePageNum+c = total s.freeList

/-- The managed frames lie above the base, have physical addresses, and the bits
of their pairs are inside the bitmaps. -/
structure Region (G : Geometry) (M : Set ℕ) : Prop where
  above : ∀ f ∈ M, frameOf G.base ≤ f
  bounded : ∀ f ∈ M, f < 2 ^ 52
  fits : ∀ f ∈ M, ∀ k < maxOrder, f / 2 ^ (k+1)-G.firstPair k < G.size k

/-! ## Lists as families of blocks -/

theorem total_update (lists : ℕ → List ℕ) (k : ℕ) (hk : k ≤ maxOrder) (l : List ℕ) :
    total (Function.update lists k l) =
      total lists+((l.length : ℤ)-(lists k).length)*2 ^ k := by
  have hmem : k ∈ Finset.range (maxOrder+1) := Finset.mem_range.mpr (by omega)
  have hfun : (fun j => ((Function.update lists k l j).length : ℤ)*2 ^ j) =
      Function.update (fun j => ((lists j).length : ℤ)*2 ^ j) k ((l.length : ℤ)*2 ^ k) := by
    funext j
    by_cases hj : j = k
    · subst hj; simp
    · simp [hj]
  have hsplit := Finset.sum_eq_add_sum_sdiff_singleton_of_mem hmem
    (fun j => ((lists j).length : ℤ)*2 ^ j)
  rw [total, hfun, Finset.sum_update_of_mem hmem, total, hsplit]
  ring

theorem family_addToHead (s : Buddy) (k i : ℕ) :
    freeFamily (s.addToHead k (blockAddr k i)) = adjoin (freeFamily s) k i := by
  funext j
  ext x
  by_cases hj : j = k
  · subst hj
    simp [freeFamily, Buddy.addToHead, (blockAddr_injective j).eq_iff, or_comm]
  · simp [freeFamily, Buddy.addToHead, hj]

/-- The state with one address taken off one list. -/
def unlink (s : Buddy) (k a : ℕ) : Buddy :=
  { s with freeList := Function.update s.freeList k ((s.freeList k).erase a) }

theorem family_unlink (s : Buddy) (k i : ℕ) (hn : (s.freeList k).Nodup) :
    freeFamily (unlink s k (blockAddr k i)) = delete (freeFamily s) k i := by
  funext j
  ext x
  by_cases hj : j = k
  · subst hj
    simp [freeFamily, unlink, hn.mem_erase_iff, (blockAddr_injective j).eq_iff, and_comm]
  · simp [freeFamily, unlink, hj]

theorem unlink_head (s : Buddy) {k a : ℕ} {rest : List ℕ} (h : s.freeList k = a :: rest) :
    { s with freeList := Function.update s.freeList k rest } = unlink s k a := by
  simp [unlink, h]

section Steps

variable {G : Geometry} {M X : Set ℕ} {c : ℤ} {s : Buddy}

/-- An entry is on one list only, so `remove_head` takes it off that list. -/
theorem removeHead_eq (h : Coherent G M X c s) {k i : ℕ} (hi : i ∈ freeFamily s k) :
    s.removeHead (blockAddr k i) = unlink s k (blockAddr k i) := by
  have hlists : (fun j => (s.freeList j).erase (blockAddr k i)) =
      Function.update s.freeList k ((s.freeList k).erase (blockAddr k i)) := by
    funext j
    by_cases hj : j = k
    · subst hj; simp
    · rw [Function.update_of_ne hj]
      apply List.erase_of_not_mem
      intro hmem
      obtain ⟨-, x, hx⟩ := h.placed j _ hmem
      -- a second list with this address would hold a block with the same first page
      have hx' : x ∈ freeFamily s j := by
        change blockAddr j x ∈ s.freeList j
        rwa [← hx]
      have hpage : x*2 ^ j = i*2 ^ k := by rw [← frame_block, ← frame_block, hx]
      exact hj (separated_disjoint h.separated hx' hi (first_mem_block j x)
        (by rw [hpage]; exact first_mem_block k i)).1
  simp only [Buddy.removeHead, unlink, hlists]

def flipBit (s : Buddy) (b : ℕ) : Buddy :=
  { s with bits := Function.update s.bits b (!s.bits b) }

/-- The bits of the last bitmap belong to no pair: nothing reads them. -/
theorem flip_top (h : Coherent G M X c s) {b : ℕ} (hb : G.bitmap maxOrder ≤ b) :
    Coherent G M X c (flipBit s b) := by
  refine ⟨h.base, h.bitmap, h.placed, h.nodup, h.separated, h.managed, h.floating, ?_, h.ref,
    h.count⟩
  intro k hk j hj
  have hmono := G.bitmap_mono hk
  have hne : G.slot k j ≠ b := by
    unfold Geometry.slot Geometry.InMap at *
    omega
  have hp := h.pair k hk j hj
  simp only [flipBit, Function.update_of_ne hne]
  exact hp

/-- Which half of its pair a block is, for the pair conditions below. -/
theorem pair_mem (F : Family) (k i : ℕ) :
    (2*(i/2) ∈ F k ↔ if i % 2 = 0 then i ∈ F k else sibling i ∈ F k) ∧
    (2*(i/2)+1 ∈ F k ↔ if i % 2 = 0 then sibling i ∈ F k else i ∈ F k) := by
  unfold sibling
  split
  · rw [show 2*(i/2) = i by omega]
    exact ⟨Iff.rfl, Iff.rfl⟩
  · rw [show 2*(i/2)+1 = i by omega, show 2*(i/2) = i-1 by omega]
    exact ⟨Iff.rfl, Iff.rfl⟩

/-- The pair conditions of `Coherent`, spoken of a family and the bit memory. -/
def Pairs (G : Geometry) (F : Family) (bits : ℕ → Bool) : Prop :=
  ∀ k < maxOrder, ∀ j, G.InMap k j →
    (bits (G.slot k j) = true ↔ Xor (2*j ∈ F k) (2*j+1 ∈ F k)) ∧
    ¬ (2*j ∈ F k ∧ 2*j+1 ∈ F k)

/-- The bit of a block's pair, when the block itself is not on its list, says
whether the sibling is. -/
theorem pair_bit {F : Family} {bits : ℕ → Bool} (h : Pairs G F bits) {k i : ℕ}
    (hk : k < maxOrder) (hj : G.InMap k (i/2)) (hi : i ∉ F k) :
    bits (G.slot k (i/2)) = true ↔ sibling i ∈ F k := by
  have hp := (h k hk _ hj).1
  obtain ⟨h0, h1⟩ := pair_mem F k i
  rw [hp, h0, h1]
  split <;> simp [Xor, hi]

theorem sibling_not_mem {F : Family} {bits : ℕ → Bool} (h : Pairs G F bits) {k i : ℕ}
    (hk : k < maxOrder) (hj : G.InMap k (i/2)) (hi : i ∈ F k) : sibling i ∉ F k := by
  have hp := (h k hk _ hj).2
  obtain ⟨h0, h1⟩ := pair_mem F k i
  rw [h0, h1] at hp
  intro hs
  split at hp <;> exact hp (by simp [hi, hs])

/-- A family that differs from `F` in one block, and a bit memory with the bit of
that block's pair flipped. -/
theorem pairs_flip {F E : Family} {bits : ℕ → Bool} (h : Pairs G F bits) {k i : ℕ}
    (hk : k < maxOrder) (hj : G.InMap k (i/2)) (hsib : sibling i ∉ F k)
    (hother : ∀ l x, ¬ (l = k ∧ x = i) → (x ∈ E l ↔ x ∈ F l))
    (hflip : i ∈ E k ↔ i ∉ F k) :
    Pairs G E (Function.update bits (G.slot k (i/2)) (!bits (G.slot k (i/2)))) := by
  intro l hl j hin
  by_cases hsame : l = k ∧ j = i/2
  · obtain ⟨rfl, rfl⟩ := hsame
    have hp := (h l hl _ hin).1
    obtain ⟨h0, h1⟩ := pair_mem F l i
    obtain ⟨h0', h1'⟩ := pair_mem E l i
    have hsib' : sibling i ∉ E l := by
      rw [hother l (sibling i) (fun e => sibling_ne i e.2)]
      exact hsib
    rw [h0, h1] at hp
    rw [Function.update_self, Bool.not_eq_true', ← Bool.not_eq_true, hp, h0', h1']
    split <;> simp [Xor, hsib, hsib', hflip]
  · have hslot : G.slot l j ≠ G.slot k (i/2) := fun e => hsame (G.slot_injective hin hj e)
    have hmem : ∀ x, x / 2 = j → (x ∈ E l ↔ x ∈ F l) := by
      rintro x rfl
      exact hother l x (fun e => hsame ⟨e.1, by rw [e.2]⟩)
    rw [Function.update_of_ne hslot, hmem (2*j) (by omega), hmem (2*j+1) (by omega)]
    exact h l hl j hin

/-- Put a floating block on the list of its order. -/
theorem push_coherent (h : Coherent G M X c s) {k i : ℕ} (hk : k ≤ maxOrder) (hX : block k i ⊆ X)
    (bits : ℕ → Bool) (hbits : Pairs G (adjoin (freeFamily s) k i) bits) :
    Coherent G M (X \ block k i) (c+2 ^ k) { s.addToHead k (blockAddr k i) with bits := bits } := by
  have hfree : ∀ p ∈ block k i, ¬ Covered (freeFamily s) p := fun p hp => h.floating p (hX hp)
  have hfam : freeFamily { s.addToHead k (blockAddr k i) with bits := bits } =
      adjoin (freeFamily s) k i := family_addToHead s k i
  have hcov : ∀ f, Covered (adjoin (freeFamily s) k i) f ∨ f ∈ X \ block k i ↔
      Covered (freeFamily s) f ∨ f ∈ X := by
    intro f
    have := @hX f
    rw [covered_adjoin, Set.mem_sdiff]
    tauto
  refine ⟨h.base, h.bitmap, ?_, ?_, ?_, ?_, ?_, ?_, ?_, ?_⟩
  · intro j a ha
    by_cases hj : j = k
    · subst hj
      simp only [Buddy.addToHead, Function.update_self, List.mem_cons] at ha
      rcases ha with rfl | ha
      · exact ⟨hk, i, rfl⟩
      · exact h.placed j a ha
    · simp only [Buddy.addToHead, Function.update_of_ne hj] at ha
      exact h.placed j a ha
  · intro j
    by_cases hj : j = k
    · subst hj
      have hnot : i ∉ freeFamily s j := not_mem_of_uncovered hfree
      simpa [Buddy.addToHead] using ⟨hnot, h.nodup j⟩
    · simpa [Buddy.addToHead, hj] using h.nodup j
  · rw [hfam]
    exact separated_adjoin h.separated hfree
  · intro f hf
    rw [hfam] at hf
    exact h.managed f ((hcov f).mp hf)
  · rintro f ⟨hf, hne⟩
    rw [hfam, covered_adjoin]
    exact fun hc => hc.elim (h.floating f hf) hne
  · rw [hfam]
    exact hbits
  · intro f hf
    rw [hfam, hcov f]
    exact h.ref f hf
  · have hc := h.count
    simp only [Buddy.addToHead, total_update s.freeList k hk, List.length_cons]
    push_cast
    linarith

/-- Take a block off the list of its order; it floats from then on. -/
theorem unlink_coherent (h : Coherent G M X c s) {k i : ℕ} (hi : i ∈ freeFamily s k)
    (bits : ℕ → Bool) (hbits : Pairs G (delete (freeFamily s) k i) bits) :
    Coherent G M (X ∪ block k i) (c-2 ^ k) { unlink s k (blockAddr k i) with bits := bits } := by
  have hk : k ≤ maxOrder := (h.placed k _ hi).1
  have hfam : freeFamily { unlink s k (blockAddr k i) with bits := bits } =
      delete (freeFamily s) k i := family_unlink s k i (h.nodup k)
  have hblock : ∀ f ∈ block k i, Covered (freeFamily s) f := fun f hf => ⟨k, by
    rw [mem_block] at hf
    rwa [hf]⟩
  have hcov : ∀ f, Covered (delete (freeFamily s) k i) f ∨ f ∈ X ∪ block k i ↔
      Covered (freeFamily s) f ∨ f ∈ X := by
    intro f
    have := hblock f
    rw [covered_delete h.separated hi, Set.mem_union]
    tauto
  refine ⟨h.base, h.bitmap, ?_, ?_, ?_, ?_, ?_, ?_, ?_, ?_⟩
  · intro j a ha
    by_cases hj : j = k
    · subst hj
      simp only [unlink, Function.update_self] at ha
      exact h.placed j a (List.mem_of_mem_erase ha)
    · simp only [unlink, Function.update_of_ne hj] at ha
      exact h.placed j a ha
  · intro j
    by_cases hj : j = k
    · subst hj
      simpa [unlink] using (h.nodup j).erase _
    · simpa [unlink, hj] using h.nodup j
  · rw [hfam]
    exact separated_delete h.separated k i
  · intro f hf
    rw [hfam] at hf
    exact h.managed f ((hcov f).mp hf)
  · intro f hf
    rw [hfam, covered_delete h.separated hi]
    rcases hf with hf | hf
    · exact fun hc => h.floating f hf hc.1
    · exact fun hc => hc.2 hf
  · rw [hfam]
    exact hbits
  · intro f hf
    rw [hfam, hcov f]
    exact h.ref f hf
  · have hc := h.count
    have hlen : ((s.freeList k).erase (blockAddr k i)).length+1 = (s.freeList k).length := by
      have hpos := List.length_pos_of_mem hi
      rw [List.length_erase_of_mem hi]
      omega
    simp only [unlink, total_update s.freeList k hk, ← hlen]
    push_cast
    linarith

end Steps

end BabyOS.BuddyInvariant

import BabyOS.FileBlocks

/-!
# Contents of a file

`read_inode` and `write_inode` go through a file block by block: one round writes a
piece of one block, and the pieces of all rounds are the bytes asked for.
-/

set_option autoImplicit false

namespace BabyOS.FileContents
open BabyOS.AtomicPrograms BabyOS.AtomicPrograms.Program BabyOS.ByteWords BabyOS.FileSystem
open BabyOS.DiskBlocks BabyOS.BlockRules BabyOS.FileBlocks
open BabyOS.BufferPaths (bitmapStart dataStart)

/-- The number of blocks that `n` bytes need. -/
def blocksOf (n : ℕ) : ℕ := (n+blockSize-1)/blockSize

section Blocks

variable {b m n off : ℕ}

theorem blockSize_pos : 0 < blockSize := by decide

theorem blocksOf_le : blocksOf n ≤ m ↔ n ≤ m*blockSize := by
  rw [blocksOf, blockSize]
  omega

/-- A piece of one block ends in it. -/
theorem blocksOf_piece (hn : 0 < n) (h : off%blockSize+n ≤ blockSize) :
    blocksOf (off+n) = off/blockSize+1 := by
  rw [blocksOf]
  rw [blockSize] at h ⊢
  omega

theorem div_lt_blocksOf (h : off < n) : off/blockSize < blocksOf n := by
  rw [blocksOf, blockSize]
  omega

end Blocks

/-! ## What is written -/

/-- What `n` bytes of the data, from `k` on, that go to an offset of a file of `m` blocks
have changed. -/
structure Written (sb : SuperBlock) (v : ℕ → DiskInode) (i : ℕ) (data : Bytes) (k off n m : ℕ)
    (d : ℕ → Bytes) (x : DiskInode) (d' : ℕ → Bytes) (x' : DiskInode) : Prop where
  grown : Grown sb d x d' x'
  sharing : Sharing sb noBlock d' (Function.update v i x')
  mapped : Mapped d' x' (max m (blocksOf (off+n)))
  inside : ∀ o, off ≤ o → o < off+n → byteAt d' x' o = data (k+(o-off))
  outside : ∀ o < m*blockSize, o < off ∨ off+n ≤ o → byteAt d' x' o = byteAt d x o
  same : blocksOf (off+n) ≤ m → x' = x

section Writes

variable {sb : SuperBlock} {v : ℕ → DiskInode} {i k off n m : ℕ} {data : Bytes} {d d' d'' : ℕ → Bytes}
  {x x' x'' : DiskInode}

theorem Written.none (h : Sharing sb noBlock d v) (hx : v i = x) (hm : Mapped d x m)
    (hoff : off ≤ m*blockSize) : Written sb v i data k off 0 m d x d x := by
  refine ⟨Grown.refl sb d x, ?_, ?_, fun o ho hlt => ?_, fun _ _ _ => rfl, fun _ => rfl⟩
  · rw [← hx, Function.update_eq_self]
    exact h
  · rw [Nat.add_zero, max_eq_left (blocksOf_le.mpr hoff)]
    exact hm
  · omega

/-- One piece after the other. -/
theorem Written.append {n' : ℕ} (h : Written sb v i data k off n m d x d' x')
    (h' : Written sb (Function.update v i x') i data (k+n) (off+n) n' (max m (blocksOf (off+n)))
      d' x' d'' x'') : Written sb v i data k off (n+n') m d x d'' x'' := by
  have hsharing := h'.sharing
  have hmapped := h'.mapped
  have hle : blocksOf (off+n) ≤ blocksOf (off+(n+n')) := by
    rw [blocksOf_le]
    have := blocksOf_le.mp (le_refl (blocksOf (off+(n+n'))))
    omega
  have hwide : ∀ o, o < m*blockSize ∨ o < off+n → o < max m (blocksOf (off+n))*blockSize := by
    intro o ho
    have h₁ := Nat.mul_le_mul_right blockSize (le_max_left m (blocksOf (off+n)))
    have h₂ := Nat.mul_le_mul_right blockSize (le_max_right m (blocksOf (off+n)))
    have h₃ := blocksOf_le.mp (le_refl (blocksOf (off+n)))
    omega
  rw [Function.update_idem] at hsharing
  rw [Nat.add_assoc, max_assoc, max_eq_right hle] at hmapped
  refine ⟨h.grown.trans h'.grown, hsharing, hmapped, fun o ho hlt => ?_, fun o ho hout => ?_,
    fun hm => ?_⟩
  · by_cases hfirst : o < off+n
    · rw [h'.outside o (hwide o (Or.inr hfirst)) (Or.inl hfirst), h.inside o ho hfirst]
    · rw [h'.inside o (by omega) (by omega)]
      congr 1
      omega
  · rw [h'.outside o (hwide o (Or.inl ho)) (by omega), h.outside o ho (by omega)]
  · rw [h'.same (by rw [Nat.add_assoc]; exact le_trans hm (le_max_left _ _)), h.same (by omega)]

/-- A piece that lies in one block, after `block_map` has found the block. -/
theorem written_piece {l : ℕ} (hi : Inum sb i) (hm : Mapped d x m) (hn : 0 < n)
    (hpiece : off%blockSize+n ≤ blockSize) (hb : off/blockSize < maxFileSize)
    (h : BlockMapped sb v i (off/blockSize) m l d x d' x') :
    Written sb v i data k off n m d x
      (Function.update d' l (paste (off%blockSize) n data k (d' l))) x' := by
  have hself : Function.update v i x' i = x' := Function.update_self ..
  have hmapped := h.mapped
  have hne : slot d' x' (fileSlot (off/blockSize)) ≠ 0 := by
    exact (h.mapped.blocks _ hb).mpr (lt_of_lt_of_le (Nat.lt_succ_self _) (le_max_right _ _))
  have hplace : ∀ k, place sb d' (Function.update v i x') (i, k) = slot d' x' k := by
    intro k
    rw [place_inum hi, hself]
  have hdata : dataStart sb ≤ l := by
    have hrange := h.sharing.range (i, fileSlot (off/blockSize)) (by rwa [hplace])
    rw [hplace, h.here] at hrange
    exact hrange.1
  have hnot : ¬ Indirect sb (Function.update v i x') l := by
    have := h.sharing.not_indirect hi (fileSlot_ne (off/blockSize)) (by rwa [hself])
    rwa [hself, h.here] at this
  obtain ⟨hsharing, hslots⟩ := h.sharing.disk
    (fun b (hbne : Function.update d' l (paste (off%blockSize) n data k (d' l)) b ≠ _) => by
      have hbl : b = l := by
        by_contra hc
        exact hbne (Function.update_of_ne hc _ _)
      rw [hbl]
      exact ⟨Or.inr hdata, hnot⟩)
  have hslot : ∀ j, slot (Function.update d' l (paste (off%blockSize) n data k (d' l))) x' j =
      slot d' x' j := by
    intro j
    have := hslots i hi j
    rwa [hself] at this
  refine ⟨⟨h.grown.fields, fun j hj => ?_, fun b hbne => ?_⟩, hsharing, ?_, fun o ho hlt => ?_,
    fun o ho hout => ?_, fun hm => (h.same ?_).2⟩
  · rw [hslot, h.grown.slots j hj]
  · by_cases hbl : b = l
    · exact Or.inr ⟨by rw [hbl, ← h.here]; exact hne, fileSlot (off/blockSize), by rw [hslot, h.here, hbl]⟩
    · rw [Function.update_of_ne hbl] at hbne
      simp only [hslot]
      exact h.grown.disk b hbne
  · rw [blocksOf_piece hn hpiece]
    exact ⟨hmapped.le, fun b hb => by rw [hslot]; exact hmapped.blocks b hb, hmapped.indirect, hmapped.tail⟩
  · have hdiv : o/blockSize = off/blockSize := by
      rw [blockSize] at hpiece ⊢
      omega
    rw [byteAt, hdiv, hslot, h.here, Function.update_self, paste, if_pos]
    · congr 1
      rw [blockSize] at hpiece ⊢
      omega
    · rw [blockSize] at hpiece hdiv ⊢
      omega
  · have hom : o/blockSize < m := by
      rw [blockSize] at ho ⊢
      omega
    by_cases hdiv : o/blockSize = off/blockSize
    · obtain ⟨rfl, rfl⟩ := h.same (by rw [← hdiv]; exact hom)
      rw [byteAt, byteAt, hdiv, hslot, h.here, Function.update_self, paste, if_neg]
      rw [blockSize] at hdiv ⊢
      omega
    · have hlt : o/blockSize < maxFileSize := by
        have := h.mapped.le
        omega
      have hthere : slot d x (fileSlot (o/blockSize)) ≠ 0 := (hm.blocks _ hlt).mpr hom
      have hsame := h.grown.slots _ hthere
      -- the block of another place is another block
      have hother : slot d x (fileSlot (o/blockSize)) ≠ l := by
        intro hc
        have hpair := h.sharing.unique (i, fileSlot (o/blockSize)) (i, fileSlot (off/blockSize))
          (by rw [hplace, hsame]; exact hthere) (by rw [hplace, hplace, hsame, hc, h.here])
        exact hdiv (fileSlot_injective (Prod.mk.inj hpair).2)
      rw [byteAt, byteAt, hslot, hsame, Function.update_of_ne hother,
        h.data _ (fileSlot_ne _) hthere]
  · rw [blocksOf_piece hn hpiece] at hm
    omega

end Writes

/-! ## The loops -/

section Loops

variable {t : Bool} {ok : Fs → Event → Prop} {sb : SuperBlock} {s : Fs} {p c i m fuel k off left : ℕ}
  {v : ℕ → DiskInode} {x : DiskInode} {data : Bytes}

/-- The super block is not a block of a file. -/
theorem grown_super {d d' : ℕ → Bytes} {x' : DiskInode} {v : ℕ → DiskInode} (hi : Inum sb i)
    (h : Grown sb d x d' x') (hsharing : Sharing sb noBlock d' (Function.update v i x')) {b : ℕ}
    (hb : b < bitmapStart sb) : d' b = d b := by
  by_contra hc
  obtain ⟨hlo, -⟩ | ⟨hne, l, hl⟩ := h.disk b hc
  · omega
  · have hplace : place sb d' (Function.update v i x') (i, l) = b := by
      rw [place_inum hi, Function.update_self, hl]
    have hrange := hsharing.range (i, l) (by rwa [hplace])
    rw [hplace] at hrange
    have := bitmapStart_le sb
    omega

/-- What is left to be written after a piece. -/
theorem Written.rest {n : ℕ} {d₁ d₂ : ℕ → Bytes} {x₁ x₂ : DiskInode} {Q : ℕ → Fs → Prop} (hn : n ≤ left)
    (h : Written sb v i data k off n m s.disk x d₁ x₁)
    (hQ : ∀ d' x', Written sb v i data k off left m s.disk x d' x' → Q (k+left) (put s c d' x'))
    (h' : Written sb (Function.update v i x₁) i data (k+n) (off+n) (left-n) (max m (blocksOf (off+n)))
      d₁ x₁ d₂ x₂) : Q (k+n+(left-n)) (put (put s c d₁ x₁) c d₂ x₂) := by
  have hall := h.append h'
  rw [Nat.add_sub_cancel' hn] at hall
  rw [put_put, Nat.add_assoc, Nat.add_sub_cancel' hn]
  exact hQ _ _ hall

theorem meets_writeLoop {Q : ℕ → Fs → Prop} (hsb : Fits sb) (hopen : Open sb noBlock s)
    (h : Sharing sb noBlock s.disk v) (hi : Inum sb i) (hx : v i = x)
    (hc : (s.inodes c).toDiskInode = x) (hm : Mapped s.disk x m) (hoff : off ≤ m*blockSize)
    (hend : off+left ≤ maxFileSize*blockSize) (hfuel : left ≤ fuel)
    (hfull : m*blockSize < off+left → ∀ s, ¬ ok s (.branch .full))
    (hQ : ∀ d' x', Written sb v i data k off left m s.disk x d' x' → Q (k+left) (put s c d' x')) :
    (writeLoop p c data fuel off left k).Meets t ok s Q := by
  induction fuel generalizing s off left k m v x with
  | zero =>
    obtain rfl : left = 0 := by omega
    have hdone := hQ _ _ (Written.none h hx hm hoff)
    rwa [← hc, put_self] at hdone
  | succ fuel ih =>
    rw [writeLoop]
    by_cases hleft : 0 < left
    · rw [if_pos hleft]
      have hmod := Nat.mod_lt off blockSize_pos
      have hb : off/blockSize < maxFileSize := by
        rw [Nat.div_lt_iff_lt_mul blockSize_pos]
        omega
      have hle : off/blockSize ≤ m := Nat.div_le_of_le_mul (by rwa [Nat.mul_comm])
      refine meets_bind (meets_blockMap hsb hopen h hi hx hc hm hle hb (fun hbm => hfull ?_)
        (fun l d' x' hmap => ?_))
      · have hdiv := Nat.div_mul_le_self off blockSize
        rw [hbm] at hdiv
        omega
      refine meets_edit (hopen.buffers l.toNat id) ?_
      obtain ⟨n, hn⟩ : ∃ n, min (blockSize-off%blockSize) left = n := ⟨_, rfl⟩
      rw [hn]
      have hwritten : Written sb _ i data k off n m _ _ _ x' :=
        written_piece hi hm (by omega) (by omega) hb hmap
      have hstate : (put s c d' x').setDisk l.toNat (paste (off%blockSize) n data k
          ((put s c d' x').disk l.toNat)) =
          put s c (Function.update d' l.toNat (paste (off%blockSize) n data k (d' l.toNat))) x' := rfl
      rw [hstate]
      -- the rest of the loop starts from what this round has written
      refine ih (open_put hopen ?_) hwritten.sharing (Function.update_self ..) (by rw [put_inode])
        hwritten.mapped (blocksOf_le.mp (le_max_right _ _)) (by omega) (by omega) (fun hlt => hfull ?_)
        (fun d₂ x₂ => hwritten.rest (by omega) hQ)
      · exact grown_super hi hwritten.grown hwritten.sharing (Nat.lt_of_lt_of_le (by decide) (Nat.le_add_right 3 _))
      · have := Nat.mul_le_mul_right blockSize (le_max_left m (blocksOf (off+n)))
        omega
    · rw [if_neg hleft]
      obtain rfl : left = 0 := by omega
      have hdone := hQ _ _ (Written.none h hx hm hoff)
      rwa [← hc, put_self] at hdone

/-- A piece of one block of a file. -/
theorem slice_block {n l : ℕ} {d : ℕ → Bytes} (hn : off%blockSize+n ≤ blockSize)
    (h : slot d x (fileSlot (off/blockSize)) = l) :
    slice (d l) (off%blockSize) n = slice (byteAt d x) off n := by
  apply List.map_congr_left
  intro j hj
  have hj := List.mem_range.mp hj
  have hdiv : (off+j)/blockSize = off/blockSize := by
    rw [blockSize] at hn ⊢
    omega
  have hmod : (off+j)%blockSize = off%blockSize+j := by
    rw [blockSize] at hn ⊢
    omega
  rw [byteAt, hdiv, hmod, h]

/-- A part of a file without holes is read: the file stays as it is. -/
theorem meets_readLoop {read : List Byte} {Q : List Byte → Fs → Prop} (hsb : Fits sb)
    (hopen : Open sb noBlock s) (h : Sharing sb noBlock s.disk v) (hi : Inum sb i) (hx : v i = x)
    (hc : (s.inodes c).toDiskInode = x) (hm : Mapped s.disk x m) (hend : off+left ≤ m*blockSize)
    (hfuel : left ≤ fuel)
    (hQ : Q (read ++ slice (byteAt s.disk x) off left) s) :
    (readLoop p c fuel off left read).Meets t ok s Q := by
  induction fuel generalizing off left read with
  | zero =>
    obtain rfl : left = 0 := by omega
    rwa [slice, List.range_zero, List.map_nil, List.append_nil] at hQ
  | succ fuel ih =>
    rw [readLoop]
    by_cases hleft : 0 < left
    · rw [if_pos hleft]
      have hmod := Nat.mod_lt off blockSize_pos
      have hb : off/blockSize < m := by
        rw [Nat.div_lt_iff_lt_mul blockSize_pos]
        omega
      refine meets_bind (meets_blockMap hsb hopen h hi hx hc hm (Nat.le_of_lt hb)
        (Nat.lt_of_lt_of_le hb hm.le) (fun hc => absurd hc (Nat.ne_of_lt hb)) (fun l d' x' hmap => ?_))
      obtain ⟨rfl, rfl⟩ := hmap.same hb
      rw [← hc, put_self]
      refine meets_peek (hopen.buffers l.toNat id) ?_
      obtain ⟨n, hn⟩ : ∃ n, min (blockSize-off%blockSize) left = n := ⟨_, rfl⟩
      rw [hn]
      have hpiece : slice (s.disk l.toNat) (off%blockSize) n = slice (byteAt s.disk x') off n :=
        slice_block (by omega) hmap.here
      refine ih (by omega) (by omega) ?_
      rw [hpiece, List.append_assoc, slice_append, Nat.add_sub_cancel' (by omega)]
      exact hQ
    · rw [if_neg hleft]
      obtain rfl : left = 0 := by omega
      rwa [slice, List.range_zero, List.map_nil, List.append_nil] at hQ

end Loops

end BabyOS.FileContents

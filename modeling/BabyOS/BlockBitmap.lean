import BabyOS.DiskInvariant

/-!
# The bitmap of the blocks

`alloc_block` finds bits by a scan and `free_block` by division. On a formatted disk the
two are inverse, and the bits that are set are those of the blocks that are allocated.
-/

set_option autoImplicit false

namespace BabyOS.BlockBitmap
open BabyOS.AtomicPrograms BabyOS.AtomicPrograms.Program BabyOS.ByteWords BabyOS.FileSystem
open BabyOS.DiskBlocks BabyOS.BlockRules BabyOS.DiskInvariant
open BabyOS.BufferPaths (bitmapStart dataStart)

/-- The bits of the super block, the inodes and the bitmap are set. -/
structure Formatted (sb : SuperBlock) (s : Fs) : Prop where
  super : superBlock (s.disk superBlockLba) = sb
  buffers : ∀ n, s.buffers n = .init 1
  low : ∀ n < dataStart sb, n < sb.nblocks → Marked sb s.disk n

/-- Block `n` is taken: its bit and its bytes are all that changes. -/
structure Takes (sb : SuperBlock) (s : Fs) (n : ℕ) (s' : Fs) : Prop where
  data : dataStart sb ≤ n ∧ n < sb.nblocks
  clear : ¬ Marked sb s.disk n
  marks : ∀ m < sb.nblocks, (Marked sb s'.disk m ↔ Marked sb s.disk m ∨ m = n)
  bits : ∀ k, bit (s'.disk (bitBlock sb n)) k =
    (bit (s.disk (bitBlock sb n)) k || decide (k = n%bitsPerBlock))
  zero : ∀ j < blockSize, s'.disk n j = 0
  others : ∀ b, b ≠ n → b ≠ bitBlock sb n → s'.disk b = s.disk b
  rest : s' = { s with disk := s'.disk }

/-- Block `n` is given back: its bit is all that changes. -/
structure Gives (sb : SuperBlock) (s : Fs) (n : ℕ) (s' : Fs) : Prop where
  marks : ∀ m < sb.nblocks, (Marked sb s'.disk m ↔ Marked sb s.disk m ∧ m ≠ n)
  bits : ∀ k, bit (s'.disk (bitBlock sb n)) k =
    (bit (s.disk (bitBlock sb n)) k && !decide (k = n%bitsPerBlock))
  others : ∀ b, b ≠ bitBlock sb n → s'.disk b = s.disk b
  rest : s' = { s with disk := s'.disk }

section Calls

variable {sb : SuperBlock} {s s' : Fs} {p n lba : ℕ}

theorem Formatted.opened (h : Formatted sb s) : Open sb (fun _ => False) s :=
  ⟨h.super, fun n _ => h.buffers n, fun _ hc => hc.elim⟩

theorem formatted_sound (h : Sound sb s) : Formatted sb s :=
  ⟨h.super, h.buffers, FileBlocks.metadata_marked h.sharing⟩

theorem fits_of_lt (hsb : sb.nblocks < 2^31) : Fits sb := by
  have hbits : bitsPerBlock = 2^15 := rfl
  rw [Fits, hbits]
  omega

theorem super_lt (sb : SuperBlock) : superBlockLba < bitmapStart sb := by
  have hpos : 3 ≤ bitmapStart sb := Nat.le_add_right 3 _
  exact Nat.lt_of_lt_of_le (by decide) hpos

/-- A formatted disk whose metadata is the same is formatted. -/
theorem Formatted.change (h : Formatted sb s) (hrest : s' = { s with disk := s'.disk })
    (hsuper : s'.disk superBlockLba = s.disk superBlockLba)
    (hlow : ∀ n < dataStart sb, n < sb.nblocks → Marked sb s'.disk n) : Formatted sb s' := by
  refine ⟨?_, fun n => ?_, hlow⟩
  · rw [hsuper]
    exact h.super
  · rw [hrest]
    exact h.buffers n

theorem takes_claimed (h : Formatted sb s) (hn : n < sb.nblocks) (hclear : ¬ Marked sb s.disk n) :
    Takes sb s n { s with disk := claimed sb s.disk n } := by
  have hdata : dataStart sb ≤ n := Nat.le_of_not_lt (fun hc => hclear (h.low n hc hn))
  have hbitmap : ∀ m < sb.nblocks, claimed sb s.disk n (bitBlock sb m) =
      withBit sb s.disk n setBit (bitBlock sb m) := by
    intro m hm
    have hlt := bitBlock_lt hm
    exact Function.update_of_ne (by omega) _ _
  refine ⟨⟨hdata, hn⟩, hclear, fun m hm => ?_, fun k => ?_, fun j hj => claimed_zero hj,
    fun b hbn hbit => claimed_other hbit hbn, rfl⟩
  · change bit (claimed sb s.disk n (bitBlock sb m)) _ = true ↔ _
    rw [hbitmap m hm]
    exact marked_set s.disk n m
  · change bit (claimed sb s.disk n (bitBlock sb n)) k = _
    rw [hbitmap n hn, withBit, Function.update_self, bit_setBit]
    by_cases hk : k = n%bitsPerBlock
    · simp [hk]
    · simp [hk]

theorem gives_cleared (s : Fs) (n : ℕ) : Gives sb s n { s with disk := withBit sb s.disk n clearBit } := by
  refine ⟨fun m _ => marked_clear s.disk n m, fun k => ?_, fun b hb => Function.update_of_ne hb _ _, rfl⟩
  change bit (withBit sb s.disk n clearBit (bitBlock sb n)) k = _
  rw [withBit, Function.update_self, bit_clearBit]
  by_cases hk : k = n%bitsPerBlock
  · simp [hk]
  · simp [hk]

/-- `alloc_block` takes a block whose bit was clear, or the disk is full. -/
theorem allocBlock_ends (hsb : sb.nblocks < 2^31) (h : Formatted sb s) (p : ℕ) :
    ∃ n s', (allocBlock p).run s = some (n, s') ∧
      (Takes sb s n s' ∨ n = 0 ∧ (∀ m < sb.nblocks, Marked sb s.disk m) ∧ s' = s) := by
  have hmeets : (allocBlock p).Meets true (fun _ _ => True) s fun n s' =>
      Takes sb s n s' ∨ n = 0 ∧ (∀ m < sb.nblocks, Marked sb s.disk m) ∧ s' = s := by
    apply meets_takeBlock (fits_of_lt hsb) h.opened h.low
    · exact fun _ hfull => Or.inr ⟨rfl, hfull, rfl⟩
    · exact fun n hn hclear => Or.inl (takes_claimed h hn hclear)
  exact meets_ends hmeets (clear_all _ _)

theorem freeBlock_ends (h : Formatted sb s) (hlba : lba < sb.nblocks) (hset : Marked sb s.disk lba)
    (p : ℕ) : ∃ s', (freeBlock p lba).run s = some ((), s') ∧ Gives sb s lba s' := by
  have hmeets : (freeBlock p lba).Meets true (fun _ _ => True) s fun _ s' => Gives sb s lba s' :=
    meets_freeBlock h.opened hlba hset (gives_cleared s lba)
  obtain ⟨_, s', hrun, hgives⟩ := meets_ends hmeets (clear_all _ _)
  exact ⟨s', hrun, hgives⟩

theorem Takes.formatted (h : Takes sb s n s') (hs : Formatted sb s) : Formatted sb s' := by
  have hsuper := super_lt sb
  have hstart := bitmapStart_le sb
  have hbit := le_bitBlock sb n
  have hdata := h.data.1
  refine hs.change h.rest (h.others _ (by omega) (by omega)) (fun m hm hmn => ?_)
  exact (h.marks m hmn).mpr (Or.inl (hs.low m hm hmn))

theorem Gives.formatted (h : Gives sb s n s') (hs : Formatted sb s) (hn : dataStart sb ≤ n) :
    Formatted sb s' := by
  have hsuper := super_lt sb
  have hbit := le_bitBlock sb n
  refine hs.change h.rest (h.others _ (by omega)) (fun m hm hmn => ?_)
  exact (h.marks m hmn).mpr ⟨hs.low m hm hmn, by omega⟩

/-- What is given back after it was taken leaves the metadata as it was. -/
theorem gives_takes {s'' : Fs} (htakes : Takes sb s n s') (hgives : Gives sb s' n s'') {b : ℕ}
    (hb : b < dataStart sb) : s''.disk b = s.disk b := by
  by_cases hbit : b = bitBlock sb n
  · subst hbit
    apply ext_bits
    intro k
    rw [hgives.bits, htakes.bits]
    by_cases hk : k = n%bitsPerBlock
    · have hclear := htakes.clear
      rw [Marked, ← hk, Bool.not_eq_true] at hclear
      simp [← hk, hclear]
    · simp [hk]
  · have hdata := htakes.data.1
    rw [hgives.others b hbit, htakes.others b (by omega) hbit]

end Calls

/-! ## Runs -/

/-- A process takes blocks and gives back blocks that are allocated; `used` are those that
are, apart from the metadata. -/
inductive Reach (sb : SuperBlock) (p : ℕ) (s : Fs) : Fs → (ℕ → Prop) → Prop
  | start : Reach sb p s s fun n => dataStart sb ≤ n ∧ n < sb.nblocks ∧ Marked sb s.disk n
  | alloc {s' s'' : Fs} {used : ℕ → Prop} {n : ℕ} : Reach sb p s s' used →
      (allocBlock p).run s' = some (n, s'') → Reach sb p s s'' fun m => used m ∨ m = n ∧ n ≠ 0
  | free {s' s'' : Fs} {used : ℕ → Prop} {lba : ℕ} : Reach sb p s s' used → used lba →
      (freeBlock p lba).run s' = some ((), s'') → Reach sb p s s'' fun m => used m ∧ m ≠ lba

/-- The bits that are set are those of the metadata and of the allocated blocks. -/
structure Kept (sb : SuperBlock) (s : Fs) (used : ℕ → Prop) : Prop where
  formatted : Formatted sb s
  data : ∀ n, used n → dataStart sb ≤ n ∧ n < sb.nblocks
  marks : ∀ n < sb.nblocks, (Marked sb s.disk n ↔ n < dataStart sb ∨ used n)

section Runs

variable {sb : SuperBlock} {s s' s'' : Fs} {used : ℕ → Prop} {p n lba : ℕ}

theorem kept_start (h : Formatted sb s) :
    Kept sb s fun n => dataStart sb ≤ n ∧ n < sb.nblocks ∧ Marked sb s.disk n := by
  refine ⟨h, fun n hn => ⟨hn.1, hn.2.1⟩, fun n hn => ⟨fun hset => ?_, ?_⟩⟩
  · by_cases hlow : n < dataStart sb
    · exact Or.inl hlow
    · exact Or.inr ⟨Nat.le_of_not_lt hlow, hn, hset⟩
  · rintro (hlow | ⟨-, -, hset⟩)
    · exact h.low n hlow hn
    · exact hset

theorem Kept.take (h : Kept sb s used) (htakes : Takes sb s n s') :
    Kept sb s' fun m => used m ∨ m = n ∧ n ≠ 0 := by
  have hpos := dataStart_pos sb
  obtain ⟨hdata, hlt⟩ := htakes.data
  refine ⟨htakes.formatted h.formatted, ?_, fun m hm => ?_⟩
  · rintro m (hm | ⟨rfl, -⟩)
    · exact h.data m hm
    · exact htakes.data
  · have hne : n ≠ 0 := by omega
    rw [htakes.marks m hm, h.marks m hm, or_assoc, and_iff_left hne]

theorem Kept.give (h : Kept sb s used) (hlba : used lba) (hgives : Gives sb s lba s') :
    Kept sb s' fun m => used m ∧ m ≠ lba := by
  have hdata := (h.data lba hlba).1
  refine ⟨hgives.formatted h.formatted hdata, fun m hm => h.data m hm.1, fun m hm => ?_⟩
  rw [hgives.marks m hm, h.marks m hm, or_and_right]
  apply or_congr_left
  exact and_iff_left_of_imp (fun hlow => by omega)

theorem kept_run (hsb : sb.nblocks < 2^31) (hs : Formatted sb s) (h : Reach sb p s s' used) :
    Kept sb s' used := by
  induction h with
  | start => exact kept_start hs
  | alloc _ hrun ih =>
    obtain ⟨n, s₁, hends, htakes⟩ := allocBlock_ends hsb ih.formatted p
    obtain ⟨rfl, rfl⟩ := Prod.mk.inj (Option.some.inj (hends.symm.trans hrun))
    rcases htakes with htakes | ⟨rfl, -, rfl⟩
    · exact ih.take htakes
    · simpa using ih
  | free _ hused hrun ih =>
    have hlt := (ih.data _ hused).2
    obtain ⟨s₁, hends, hgives⟩ := freeBlock_ends ih.formatted hlt ((ih.marks _ hlt).mpr (Or.inr hused)) p
    obtain ⟨-, rfl⟩ := Prod.mk.inj (Option.some.inj (hends.symm.trans hrun))
    exact ih.give hused hgives

/-- In every run on a formatted disk the bits are those of the allocated blocks;
`alloc_block` takes a block whose bit was clear, and returns 0 only if there is none;
`free_block` gives back the block, and undoes on the metadata what `alloc_block` did. -/
theorem bitmap_run (hsb : sb.nblocks < 2^31) (hs : Formatted sb s) (h : Reach sb p s s' used) :
    (∀ n < sb.nblocks, (Marked sb s'.disk n ↔ n < dataStart sb ∨ used n)) ∧
    (∃ n s'', (allocBlock p).run s' = some (n, s'') ∧
      (Takes sb s' n s'' ∨ n = 0 ∧ (∀ m < sb.nblocks, Marked sb s'.disk m) ∧ s'' = s')) ∧
    (∀ lba, used lba → ∃ s'', (freeBlock p lba).run s' = some ((), s'') ∧ Gives sb s' lba s'') ∧
    ∀ n s₁ s₂, n ≠ 0 → (allocBlock p).run s' = some (n, s₁) → (freeBlock p n).run s₁ = some ((), s₂) →
      Gives sb s₁ n s₂ ∧ ∀ b < dataStart sb, s₂.disk b = s'.disk b := by
  have hkept := kept_run hsb hs h
  refine ⟨hkept.marks, allocBlock_ends hsb hkept.formatted p, fun lba hlba => ?_, ?_⟩
  · have hlt := (hkept.data lba hlba).2
    exact freeBlock_ends hkept.formatted hlt ((hkept.marks lba hlt).mpr (Or.inr hlba)) p
  · intro n s₁ s₂ hn halloc hfree
    obtain ⟨m, s₃, hends, htakes⟩ := allocBlock_ends hsb hkept.formatted p
    obtain ⟨rfl, rfl⟩ := Prod.mk.inj (Option.some.inj (hends.symm.trans halloc))
    have htakes : Takes sb s' m s₃ := htakes.resolve_right (fun hc => hn hc.1)
    have hset : Marked sb s₃.disk m := (htakes.marks m htakes.data.2).mpr (Or.inr rfl)
    obtain ⟨s₄, hback, hgives⟩ := freeBlock_ends (htakes.formatted hkept.formatted) htakes.data.2 hset p
    obtain ⟨-, rfl⟩ := Prod.mk.inj (Option.some.inj (hback.symm.trans hfree))
    exact ⟨hgives, fun b hb => gives_takes htakes hgives hb⟩

theorem bitmap_run_small : ∃ n s', (allocBlock 0).run small = some (n, s') ∧ Takes smallSuper small n s' := by
  obtain ⟨-, ⟨n, s', hrun, htakes⟩, -, -⟩ :=
    bitmap_run (by decide) (formatted_sound small_sound) Reach.start
  refine ⟨n, s', hrun, htakes.resolve_right (fun hfull => ?_)⟩
  have hlt := (small_marked 5 (by decide)).mp (hfull.2.1 5 (by decide))
  omega

end Runs

end BabyOS.BlockBitmap

import BabyOS.DiskBlocks

/-!
# Rules for blocks

What the functions on blocks do when a process runs alone, with the buffers free that
they need: one rule for each, in front of what follows it.
-/

set_option autoImplicit false

namespace BabyOS.BlockRules
open BabyOS.AtomicPrograms BabyOS.AtomicPrograms.Program BabyOS.ByteWords BabyOS.FileSystem
open BabyOS.DiskBlocks
open BabyOS.BufferPaths (bitmapStart dataStart)

section Accesses

variable {t : Bool} {ok : Fs → Event → Prop} {s : Fs} {α β : Type} {R : β → Fs → Prop} {p n : ℕ}

theorem meets_look {f : Fs → α} {g : α → Prog β} (h : (g (f s)).Meets t ok s R) :
    (look f >>= g).Meets t ok s R := ⟨fun _ => rfl, fun _ _ => h⟩

theorem meets_act {e : Event} {f : Fs → Fs} {g : Unit → Prog β} (h : (g ()).Meets t ok (f s) R) :
    (act e f >>= g).Meets t ok s R := ⟨fun _ => rfl, fun _ _ => h⟩

theorem meets_mark {e : Event} {g : Unit → Prog β} (h : ok s e → (g ()).Meets t ok s R) :
    (mark e >>= g).Meets t ok s R := ⟨fun _ => rfl, fun _ ha => h ha⟩

/-- A buffer that a process has. -/
def taken : Semaphore := ⟨0, [], []⟩

theorem meets_readBlock {g : Bytes → Prog β} (hb : s.buffers n = .init 1)
    (h : (g (s.disk n)).Meets t ok (s.setBuffer n taken) R) :
    (readBlock p n >>= g).Meets t ok s R := by
  have hpos : 0 < (s.buffers n).count := by
    rw [hb]
    exact Nat.one_pos
  have hdown : (s.buffers n).down p = taken := by
    rw [hb]
    rfl
  refine ⟨fun _ => rfl, fun _ _ => ?_⟩
  dsimp only
  rw [if_pos hpos, hdown]
  exact ⟨fun _ => rfl, fun _ _ => h⟩

theorem meets_writeBlock {b : Bytes} {g : Unit → Prog β} (h : (g ()).Meets t ok (s.setDisk n b) R) :
    (writeBlock n b >>= g).Meets t ok s R := ⟨fun _ => rfl, fun _ _ => h⟩

theorem meets_releaseBlock {g : Unit → Prog β} (hb : s.buffers n = taken)
    (h : (g ()).Meets t ok (s.setBuffer n (.init 1)) R) :
    (releaseBlock n >>= g).Meets t ok s R := by
  have hup : (s.buffers n).up = .init 1 := by
    rw [hb]
    rfl
  refine ⟨fun _ => rfl, fun _ _ => ?_⟩
  dsimp only
  rw [hup]
  exact h

theorem setBuffer_back (h : s.buffers n = .init 1) (x : Semaphore) :
    (s.setBuffer n x).setBuffer n (.init 1) = s := by
  rw [Fs.setBuffer, Fs.setBuffer, Function.update_idem, ← h, Function.update_eq_self]

theorem setDisk_back (h : s.buffers n = .init 1) (x : Semaphore) (b : Bytes) :
    ((s.setBuffer n x).setDisk n b).setBuffer n (.init 1) = s.setDisk n b :=
  setBuffer_back (s := s.setDisk n b) h x

theorem taken_self (s : Fs) (n : ℕ) : (s.setBuffer n taken).buffers n = taken :=
  Function.update_self ..

/-- A block is read. -/
theorem meets_peek {g : Bytes → Prog β} (hb : s.buffers n = .init 1)
    (h : (g (s.disk n)).Meets t ok s R) :
    (readBlock p n >>= fun b => releaseBlock n >>= fun _ => g b).Meets t ok s R := by
  apply meets_readBlock hb
  apply meets_releaseBlock (taken_self s n)
  rw [setBuffer_back hb]
  exact h

/-- A block is read, changed, and written. -/
theorem meets_edit {f : Bytes → Bytes} {g : Bytes → Prog β} (hb : s.buffers n = .init 1)
    (h : (g (s.disk n)).Meets t ok (s.setDisk n (f (s.disk n))) R) :
    (readBlock p n >>= fun b => writeBlock n (f b) >>= fun _ => releaseBlock n >>= fun _ =>
      g b).Meets t ok s R := by
  apply meets_readBlock hb
  apply meets_writeBlock
  refine meets_releaseBlock (taken_self s n) ?_
  rw [setDisk_back hb]
  exact h

/-- A block is changed in the last accesses of a function. -/
theorem meets_change {f : Bytes → Bytes} {Q : Unit → Fs → Prop} (hb : s.buffers n = .init 1)
    (hQ : Q () (s.setDisk n (f (s.disk n)))) :
    (readBlock p n >>= fun b => writeBlock n (f b) >>= fun _ => releaseBlock n).Meets t ok s Q :=
  meets_edit (g := fun _ => pure ()) hb hQ

end Accesses

/-! ## The bitmap -/

/-- The super block is on the disk, and the blocks that are not in hand have free buffers. -/
structure Open (sb : SuperBlock) (hand : ℕ → Prop) (s : Fs) : Prop where
  super : superBlock (s.disk superBlockLba) = sb
  buffers : ∀ n, ¬ hand n → s.buffers n = .init 1
  data : ∀ n, hand n → dataStart sb ≤ n ∧ Marked sb s.disk n

/-- The numbers fit in 32 bits. -/
def Fits (sb : SuperBlock) : Prop := sb.nblocks+bitsPerBlock ≤ 2^32

section Bitmap

variable {t : Bool} {ok : Fs → Event → Prop} {sb : SuperBlock} {hand : ℕ → Prop} {s : Fs} {β : Type}
  {R : β → Fs → Prop} {p n : ℕ}

theorem Open.low (h : Open sb hand s) (hn : n < dataStart sb) : s.buffers n = .init 1 :=
  h.buffers n (fun hc => Nat.lt_irrefl _ (Nat.lt_of_lt_of_le hn (h.data n hc).1))

theorem meets_readSuperBlock {Q : SuperBlock → Fs → Prop} (h : Open sb hand s) (hQ : Q sb s) :
    (readSuperBlock p).Meets t ok s Q := by
  have hlow : superBlockLba < dataStart sb := by
    have := dataStart_pos sb
    change 1 < _
    omega
  apply meets_peek (h.low hlow)
  rw [h.super]
  exact hQ

theorem meets_bitmapBlock {Q : ℕ → Fs → Prop} (h : Open sb hand s) (hQ : Q (bitmapStart sb) s) :
    (bitmapBlock p).Meets t ok s Q :=
  meets_bind (meets_readSuperBlock h hQ)

/-- A free block is found, or the disk is full. -/
theorem meets_allocFrom {fuel i index : ℕ} {Q : ℕ → Fs → Prop} (hsb : Fits sb) (h : Open sb hand s)
    (hmeta : ∀ n < dataStart sb, n < sb.nblocks → Marked sb s.disk n) (hi : bitsPerBlock ∣ i)
    (hindex : index = bitmapStart sb+i/bitsPerBlock) (hlt : i < sb.nblocks+bitsPerBlock)
    (hfuel : sb.nblocks+bitsPerBlock ≤ i+fuel*bitsPerBlock)
    (hpast : ∀ n < i, n < sb.nblocks → Marked sb s.disk n)
    (hfull : ok s (.branch .full) → (∀ n < sb.nblocks, Marked sb s.disk n) → Q 0 s)
    (hQ : ∀ n < sb.nblocks, ¬ Marked sb s.disk n → Q n { s with disk := claimed sb s.disk n }) :
    (allocFrom p sb fuel i index).Meets t ok s Q := by
  induction fuel generalizing i index with
  | zero =>
    rw [Nat.zero_mul] at hfuel
    omega
  | succ fuel ih =>
    rw [allocFrom]
    by_cases hblocks : i < sb.nblocks
    · rw [if_pos hblocks]
      have hlow : index < dataStart sb := by
        rw [hindex]
        exact bitBlock_lt hblocks
      have hfree := h.low hlow
      have hspan : ∀ k < bitsPerBlock, bitBlock sb (i+k) = index ∧ (i+k)%bitsPerBlock = k := by
        intro k hk
        obtain ⟨c, rfl⟩ := hi
        refine ⟨?_, ?_⟩
        · rw [bitBlock, hindex, Nat.mul_add_div bitsPerBlock_pos, Nat.mul_div_cancel_left c bitsPerBlock_pos,
            Nat.div_eq_of_lt hk, Nat.add_zero]
        · rw [Nat.mul_add_mod, Nat.mod_eq_of_lt hk]
      apply meets_readBlock hfree
      dsimp only
      rw [uint32_of_lt (by rw [Fits] at hsb; omega)]
      split
      next k hk =>
        obtain ⟨-, hkn, hbit⟩ := firstClear_some hk
        have hsmall : k < bitsPerBlock ∧ i+k < sb.nblocks := by
          split at hkn <;> omega
        obtain ⟨hblock, hmod⟩ := hspan k hsmall.1
        have hclear : ¬ Marked sb s.disk (i+k) := by
          rw [Marked, hblock, hmod, hbit]
          exact Bool.false_ne_true
        have hdata : dataStart sb ≤ i+k :=
          Nat.le_of_not_lt (fun hc => hclear (hmeta _ hc hsmall.2))
        have hnot : ¬ hand (i+k) := fun hc => hclear (h.data _ hc).2
        apply meets_mark
        intro _
        apply meets_writeBlock
        refine meets_releaseBlock (taken_self s index) ?_
        rw [setDisk_back hfree]
        refine meets_bind (meets_change (h.buffers _ hnot) ?_)
        have hnew := hQ _ hsmall.2 hclear
        have hdisk : claimed sb s.disk (i+k) = ((s.setDisk index (setBit k (s.disk index))).setDisk
            (i+k) (paste 0 blockSize (fun _ => 0) 0
              ((s.setDisk index (setBit k (s.disk index))).disk (i+k)))).disk := by
          rw [claimed, withBit, hblock, hmod]
          rfl
        rw [hdisk] at hnew
        exact hnew
      next hnone =>
        -- the bits of this block are all set
        have hset := firstClear_none hnone
        apply meets_releaseBlock (taken_self s index)
        rw [setBuffer_back hfree]
        apply ih (Dvd.dvd.add hi (dvd_refl _))
        · rw [hindex, Nat.add_div_right _ bitsPerBlock_pos, Nat.add_assoc]
        · omega
        · rw [Nat.add_mul, Nat.one_mul] at hfuel
          omega
        · intro n hn hnb
          by_cases hlo : n < i
          · exact hpast n hlo hnb
          · obtain ⟨hblock, hmod⟩ := hspan (n-i) (by omega)
            rw [Nat.add_sub_cancel' (by omega)] at hblock hmod
            rw [Marked, hblock, hmod]
            exact hset (n-i) (Nat.zero_le _) (by split <;> omega)
    · rw [if_neg hblocks]
      exact meets_mark (fun hc => hfull hc (fun n hn => hpast n (by omega) hn))

/-- All that `alloc_block` can come to. -/
theorem meets_takeBlock {Q : ℕ → Fs → Prop} (hsb : Fits sb) (h : Open sb hand s)
    (hmeta : ∀ n < dataStart sb, n < sb.nblocks → Marked sb s.disk n)
    (hfull : ok s (.branch .full) → (∀ n < sb.nblocks, Marked sb s.disk n) → Q 0 s)
    (hQ : ∀ n < sb.nblocks, ¬ Marked sb s.disk n → Q n { s with disk := claimed sb s.disk n }) :
    (allocBlock p).Meets t ok s Q := by
  refine meets_bind (meets_readSuperBlock h (meets_bind (meets_bitmapBlock h ?_)))
  have hpos := bitsPerBlock_pos
  refine meets_allocFrom hsb h hmeta (dvd_zero _) ?_ (by omega) ?_ (fun n hn => absurd hn n.not_lt_zero) hfull hQ
  · rw [Nat.zero_div, Nat.add_zero]
  · rw [Fits] at hsb
    have hfuel : (2^17+1)*bitsPerBlock = 2^32+2^15 := rfl
    have hbits : bitsPerBlock = 2^15 := rfl
    rw [hfuel]
    omega

theorem meets_allocBlock {Q : ℕ → Fs → Prop} (hsb : Fits sb) (h : Open sb hand s)
    (hmeta : ∀ n < dataStart sb, n < sb.nblocks → Marked sb s.disk n)
    (hfull : ∀ s, ¬ ok s (.branch .full))
    (hQ : ∀ n < sb.nblocks, ¬ Marked sb s.disk n → Q n { s with disk := claimed sb s.disk n }) :
    (allocBlock p).Meets t ok s Q :=
  meets_takeBlock hsb h hmeta (fun hc => absurd hc (hfull s)) hQ

/-- A block whose bit is set is given back. -/
theorem meets_freeBlock {lba : ℕ} {Q : Unit → Fs → Prop} (h : Open sb hand s)
    (hlba : lba < sb.nblocks) (hset : Marked sb s.disk lba)
    (hQ : Q () { s with disk := withBit sb s.disk lba clearBit }) :
    (freeBlock p lba).Meets t ok s Q := by
  have hfree := h.low (bitBlock_lt hlba)
  apply meets_mark
  intro _
  refine meets_bind (meets_bitmapBlock h ?_)
  apply meets_readBlock hfree
  have hbit : bit (s.disk (bitBlock sb lba)) (lba%bitsPerBlock) ≠ false := by
    rw [Marked] at hset
    rw [hset]
    exact Bool.false_ne_true.symm
  rw [if_neg hbit]
  apply meets_writeBlock
  refine meets_releaseBlock (taken_self s _) ?_
  change Q () (((s.setBuffer (bitBlock sb lba) taken).setDisk (bitBlock sb lba) _).setBuffer
    (bitBlock sb lba) (.init 1))
  rw [setDisk_back hfree]
  exact hQ

end Bitmap

end BabyOS.BlockRules

import BabyOS.BlockOwners
import BabyOS.BufferPaths

/-!
# Blocks of the disk

The records of the inodes, the bitmap, and the places of an inode that have a block:
its direct addresses, its indirect block, and the entries of that block.
-/

set_option autoImplicit false

namespace BabyOS.DiskBlocks
open BabyOS.BlockOwners BabyOS.ByteWords BabyOS.FileSystem
open BabyOS.BufferPaths (bitmapStart dataStart)

/-! ## The layout -/

/-- The numbers of the inodes. -/
def Inum (sb : SuperBlock) (i : ℕ) : Prop := 0 < i ∧ i < sb.ninodes

instance (sb : SuperBlock) (i : ℕ) : Decidable (Inum sb i) := inferInstanceAs (Decidable (_ ∧ _))

def inodeBlock (i : ℕ) : ℕ := inodeLba+i/inodesPerBlock

/-- The inode `i` as it is on the disk. -/
def record (d : ℕ → Bytes) (i : ℕ) : DiskInode := diskInode (d (inodeBlock i)) (i%inodesPerBlock)

/-- The block of the bitmap that has the bit of block `n`. -/
def bitBlock (sb : SuperBlock) (n : ℕ) : ℕ := bitmapStart sb+n/bitsPerBlock

def Marked (sb : SuperBlock) (d : ℕ → Bytes) (n : ℕ) : Prop :=
  bit (d (bitBlock sb n)) (n%bitsPerBlock) = true

section Layout

variable {sb : SuperBlock} {i n : ℕ}

theorem bitsPerBlock_pos : 0 < bitsPerBlock := by decide

theorem bitBlock_lt (hn : n < sb.nblocks) : bitBlock sb n < dataStart sb := by
  have hlt : n/bitsPerBlock < (sb.nblocks+bitsPerBlock-1)/bitsPerBlock := by
    rw [Nat.div_lt_iff_lt_mul bitsPerBlock_pos]
    have hmod := Nat.div_add_mod (sb.nblocks+bitsPerBlock-1) bitsPerBlock
    have hrest := Nat.mod_lt (sb.nblocks+bitsPerBlock-1) bitsPerBlock_pos
    rw [Nat.mul_comm]
    omega
  rw [bitBlock, dataStart]
  omega

theorem le_bitBlock (sb : SuperBlock) (n : ℕ) : bitmapStart sb ≤ bitBlock sb n := Nat.le_add_right _ _

theorem inodeBlock_lt (hi : Inum sb i) : inodeBlock i < bitmapStart sb := by
  have hdiv : i/64 ≤ sb.ninodes*64/4096 := by
    have hlt := hi.2
    omega
  change 2+i/64 < 3+sb.ninodes*64/4096
  omega

theorem super_lt_inodeBlock (i : ℕ) : superBlockLba < inodeBlock i := by
  change 1 < 2+i/64
  omega

theorem bitmapStart_le (sb : SuperBlock) : bitmapStart sb ≤ dataStart sb := Nat.le_add_right _ _

theorem dataStart_pos (sb : SuperBlock) : 3 ≤ dataStart sb := by
  exact Nat.le_trans (Nat.le_add_right 3 _) (bitmapStart_le sb)

end Layout

/-! ## Records -/

section Records

variable {x : DiskInode} {d : ℕ → Bytes} {i j k : ℕ}

theorem ofNat_word {w : ℕ} (v : BitVec (8*w)) : BitVec.ofNat (8*w) (v.toNat%256^w) = v := by
  have hlt : v.toNat < 256^w := by
    have hv := v.isLt
    rwa [pow_mul] at hv
  rw [Nat.mod_eq_of_lt hlt, BitVec.ofNat_toNat, BitVec.setWidth_eq]

/-- What was put into a record is read from it. -/
theorem diskInode_put (hx : ∀ k, nDirect < k → x.addrs k = 0) (k : ℕ) (b : Bytes) :
    diskInode (putDiskInode k x b) k = x := by
  have htype : word (putDiskInode k x b) (64*k) 2 = x.type.toNat%256^2 := by
    rw [putDiskInode]
    simp (disch := omega) only [word_putArray_other, word_putWord_other, word_putWord]
  have hmajor : word (putDiskInode k x b) (64*k+2) 2 = x.major.toNat%256^2 := by
    rw [putDiskInode]
    simp (disch := omega) only [word_putArray_other, word_putWord_other, word_putWord]
  have hminor : word (putDiskInode k x b) (64*k+4) 2 = x.minor.toNat%256^2 := by
    rw [putDiskInode]
    simp (disch := omega) only [word_putArray_other, word_putWord_other, word_putWord]
  have hnlinks : word (putDiskInode k x b) (64*k+6) 2 = x.nlinks.toNat%256^2 := by
    rw [putDiskInode]
    simp (disch := omega) only [word_putArray_other, word_putWord_other, word_putWord]
  have hsize : word (putDiskInode k x b) (64*k+8) 4 = x.size.toNat%256^4 := by
    rw [putDiskInode]
    simp (disch := omega) only [word_putArray_other, word_putWord]
  have haddrs : ∀ j ≤ nDirect, word (putDiskInode k x b) (64*k+12+4*j) 4 = (x.addrs j).toNat%256^4 := by
    intro j hj
    rw [putDiskInode, word_putArray _ _ (Nat.lt_succ_of_le hj)]
  obtain ⟨type, major, minor, nlinks, size, addrs⟩ := x
  rw [diskInode, htype, hmajor, hminor, hnlinks, hsize]
  congr 1
  · exact ofNat_word (w := 2) type
  · exact ofNat_word (w := 2) major
  · exact ofNat_word (w := 2) minor
  · exact ofNat_word (w := 2) nlinks
  · exact ofNat_word (w := 4) size
  · funext j
    by_cases hj : j ≤ nDirect
    · rw [if_pos hj, haddrs j hj]
      exact ofNat_word (w := 4) (addrs j)
    · rw [if_neg hj]
      exact (hx j (by omega)).symm

/-- Other records are not touched. -/
theorem putDiskInode_other {j : ℕ} (hj : j < 64*k ∨ 64*k+64 ≤ j) (x : DiskInode) (b : Bytes) :
    putDiskInode k x b j = b j := by
  have hend : 64*k+12+4*(nDirect+1) = 64*k+64 := rfl
  rw [putDiskInode, putArray_other _ _ (by omega)]
  repeat rw [putWord_other _ (by omega)]

theorem diskInode_congr {b b' : Bytes} (h : ∀ j, 64*k ≤ j → j < 64*k+64 → b j = b' j) :
    diskInode b k = diskInode b' k := by
  have hword : ∀ off w, 64*k ≤ off → off+w ≤ 64*k+64 → word b off w = word b' off w :=
    fun off w hlo hhi => word_congr (fun j hj hjw => h j (by omega) (by omega))
  have haddrs : ∀ j ≤ nDirect, word b (64*k+12+4*j) 4 = word b' (64*k+12+4*j) 4 := by
    intro j hj
    have hj : j ≤ 12 := hj
    exact hword _ _ (by omega) (by omega)
  rw [diskInode, diskInode, hword (64*k) 2 (by omega) (by omega), hword (64*k+2) 2 (by omega) (by omega),
    hword (64*k+4) 2 (by omega) (by omega), hword (64*k+6) 2 (by omega) (by omega),
    hword (64*k+8) 4 (by omega) (by omega)]
  congr 1
  funext j
  by_cases hj : j ≤ nDirect
  · rw [if_pos hj, if_pos hj, haddrs j hj]
  · rw [if_neg hj, if_neg hj]

/-- The disk after `write_to_disk` of inode `i`. -/
def putRecord (d : ℕ → Bytes) (i : ℕ) (x : DiskInode) : ℕ → Bytes :=
  Function.update d (inodeBlock i) (putDiskInode (i%inodesPerBlock) x (d (inodeBlock i)))

theorem record_put (hx : ∀ k, nDirect < k → x.addrs k = 0) (d : ℕ → Bytes) (i j : ℕ) :
    record (putRecord d i x) j = if j = i then x else record d j := by
  rw [record, putRecord]
  by_cases hblock : inodeBlock j = inodeBlock i
  · rw [hblock, Function.update_self]
    by_cases hji : j = i
    · subst hji
      rw [if_pos rfl]
      exact diskInode_put hx _ _
    · have hdiv : 2+j/64 = 2+i/64 := hblock
      have hne : j%64 ≠ i%64 := by omega
      rw [if_neg hji, record, hblock]
      apply diskInode_congr
      intro l hlo hhi
      apply putDiskInode_other
      change 64*(j%64) ≤ l at hlo
      change l < 64*(j%64)+64 at hhi
      change l < 64*(i%64) ∨ 64*(i%64)+64 ≤ l
      omega
  · rw [Function.update_of_ne hblock, if_neg (fun hc => hblock (by rw [hc])), record]

theorem putRecord_other {n : ℕ} (hn : n ≠ inodeBlock i) (d : ℕ → Bytes) (x : DiskInode) :
    putRecord d i x n = d n := Function.update_of_ne hn _ _

theorem record_congr {d' : ℕ → Bytes} (h : d' (inodeBlock i) = d (inodeBlock i)) :
    record d' i = record d i := by
  rw [record, record, h]

end Records

/-! ## Places -/

/-- The block of a place: the addresses, of which number `nDirect` is the indirect block,
and then the entries of that block. -/
def slot (d : ℕ → Bytes) (x : DiskInode) (k : ℕ) : ℕ :=
  if k ≤ nDirect then (x.addrs k).toNat
  else if k ≤ nDirect+nIndirect ∧ x.addrs nDirect ≠ 0 then
    word (d (x.addrs nDirect).toNat) (4*(k-(nDirect+1))) 4
  else 0

/-- The inode with another address. -/
def withAddr (x : DiskInode) (k : ℕ) (n : BitVec 32) : DiskInode :=
  { x with addrs := Function.update x.addrs k n }

def place (sb : SuperBlock) (d : ℕ → Bytes) (v : ℕ → DiskInode) (a : ℕ × ℕ) : ℕ :=
  if Inum sb a.1 then slot d (v a.1) a.2 else 0

/-- The blocks are shared out among the inodes `v`, apart from those in hand. -/
def Sharing (sb : SuperBlock) (held : ℕ → Prop) (d : ℕ → Bytes) (v : ℕ → DiskInode) : Prop :=
  Owned (dataStart sb) sb.nblocks (Marked sb d) held (place sb d v)

section Slots

variable {sb : SuperBlock} {d d' : ℕ → Bytes} {x : DiskInode} {v : ℕ → DiskInode}
  {held held' : ℕ → Prop} {i k n : ℕ}

theorem slot_direct (hk : k ≤ nDirect) : slot d x k = (x.addrs k).toNat := if_pos hk

theorem slot_entry (hk : k < nIndirect) (hx : x.addrs nDirect ≠ 0) :
    slot d x (nDirect+1+k) = word (d (x.addrs nDirect).toNat) (4*k) 4 := by
  rw [slot, if_neg (by omega), if_pos ⟨by omega, hx⟩, Nat.add_sub_cancel_left]

theorem slot_none (hk : nDirect < k) (hx : x.addrs nDirect = 0) : slot d x k = 0 := by
  rw [slot, if_neg (by omega), if_neg (fun hc => hc.2 hx)]

theorem toNat_ne {a : BitVec 32} : a.toNat ≠ 0 ↔ a ≠ 0 := by
  rw [ne_eq, ne_eq, not_iff_not]
  exact (BitVec.toNat_eq (y := 0)).symm

/-- Only the content of the indirect block counts. -/
theorem slot_congr (h : x.addrs nDirect ≠ 0 → d' (x.addrs nDirect).toNat = d (x.addrs nDirect).toNat)
    (k : ℕ) : slot d' x k = slot d x k := by
  by_cases hk : k ≤ nDirect
  · rw [slot_direct hk, slot_direct hk]
  · by_cases hx : x.addrs nDirect = 0
    · rw [slot_none (by omega) hx, slot_none (by omega) hx]
    · rw [slot, slot, h hx]

theorem place_inum (hi : Inum sb i) : place sb d v (i, k) = slot d (v i) k := if_pos hi

theorem place_congr (h : ∀ i, Inum sb i → (v i).addrs nDirect ≠ 0 →
    d' ((v i).addrs nDirect).toNat = d ((v i).addrs nDirect).toNat) :
    place sb d' v = place sb d v := by
  funext a
  by_cases hi : Inum sb a.1
  · rw [place, place, if_pos hi, if_pos hi]
    exact slot_congr (h a.1 hi) a.2
  · rw [place, place, if_neg hi, if_neg hi]

/-- Block `n` is the indirect block of an inode. -/
def Indirect (sb : SuperBlock) (v : ℕ → DiskInode) (n : ℕ) : Prop :=
  ∃ i, Inum sb i ∧ (v i).addrs nDirect ≠ 0 ∧ ((v i).addrs nDirect).toNat = n

theorem Sharing.indirect (h : Sharing sb held d v) (hn : Indirect sb v n) :
    dataStart sb ≤ n ∧ n < sb.nblocks ∧ ¬ held n ∧ Marked sb d n := by
  obtain ⟨i, hi, hx, rfl⟩ := hn
  have hplace : place sb d v (i, nDirect) = ((v i).addrs nDirect).toNat := by
    rw [place_inum hi, slot_direct le_rfl]
  have hne : place sb d v (i, nDirect) ≠ 0 := by
    rw [hplace]
    exact toNat_ne.mpr hx
  have hrange := h.range _ hne
  have hapart := h.apart (i, nDirect)
  have hused := h.isUsed hne
  rw [hplace] at hrange hapart hused
  exact ⟨hrange.1, hrange.2, hapart, hused⟩

/-- A place that is not the one of an indirect block. -/
theorem Sharing.not_indirect (h : Sharing sb held d v) (hi : Inum sb i) (hk : k ≠ nDirect)
    (hne : slot d (v i) k ≠ 0) : ¬ Indirect sb v (slot d (v i) k) := by
  rintro ⟨j, hj, hx, heq⟩
  have hplace : place sb d v (j, nDirect) = place sb d v (i, k) := by
    rw [place_inum hj, place_inum hi, slot_direct le_rfl, heq]
  have hpair := h.unique (j, nDirect) (i, k)
    (by rw [hplace, place_inum hi]; exact hne) hplace
  exact hk (Prod.mk.inj hpair).2.symm

/-- Neither the bitmap nor an indirect block is written. -/
theorem Sharing.disk (h : Sharing sb held d v)
    (hd : ∀ n, d' n ≠ d n → (n < bitmapStart sb ∨ dataStart sb ≤ n) ∧ ¬ Indirect sb v n) :
    Sharing sb held d' v ∧ ∀ i, Inum sb i → ∀ k, slot d' (v i) k = slot d (v i) k := by
  have hindirect : ∀ i, Inum sb i → (v i).addrs nDirect ≠ 0 →
      d' ((v i).addrs nDirect).toNat = d ((v i).addrs nDirect).toNat := by
    intro i hi hx
    by_contra hc
    exact (hd _ hc).2 ⟨i, hi, hx, rfl⟩
  have hmarks : ∀ n < sb.nblocks, (Marked sb d' n ↔ Marked sb d n) := by
    intro n hn
    have hsame : d' (bitBlock sb n) = d (bitBlock sb n) := by
      by_contra hc
      have hlt := bitBlock_lt hn
      have hle := le_bitBlock sb n
      have := (hd _ hc).1
      omega
    rw [Marked, Marked, hsame]
  refine ⟨?_, fun i hi k => slot_congr (hindirect i hi) k⟩
  rw [Sharing, place_congr hindirect]
  exact ⟨h.positive, h.range, h.unique, h.inHand, h.apart,
    fun n hn => (hmarks n hn).trans (h.marks n hn)⟩

/-! ## Marks -/

/-- The disk with the bit of block `n` changed. -/
def withBit (sb : SuperBlock) (d : ℕ → Bytes) (n : ℕ) (f : ℕ → Bytes → Bytes) : ℕ → Bytes :=
  Function.update d (bitBlock sb n) (f (n%bitsPerBlock) (d (bitBlock sb n)))

theorem bit_place {m : ℕ} (hblock : bitBlock sb m = bitBlock sb n) :
    m%bitsPerBlock = n%bitsPerBlock ↔ m = n := by
  have hdiv : m/bitsPerBlock = n/bitsPerBlock := Nat.add_left_cancel hblock
  constructor
  · intro hmod
    rw [← Nat.div_add_mod m bitsPerBlock, ← Nat.div_add_mod n bitsPerBlock, hdiv, hmod]
  · exact fun h => by rw [h]

theorem marked_set (d : ℕ → Bytes) (n m : ℕ) :
    Marked sb (withBit sb d n setBit) m ↔ Marked sb d m ∨ m = n := by
  rw [Marked, Marked, withBit]
  by_cases hblock : bitBlock sb m = bitBlock sb n
  · rw [hblock, Function.update_self, bit_setBit, if_congr (bit_place hblock) rfl rfl]
    by_cases hm : m = n
    · simp [hm]
    · simp [hm]
  · have hm : m ≠ n := fun hc => hblock (by rw [hc])
    rw [Function.update_of_ne hblock]
    exact (or_iff_left hm).symm

theorem marked_clear (d : ℕ → Bytes) (n m : ℕ) :
    Marked sb (withBit sb d n clearBit) m ↔ Marked sb d m ∧ m ≠ n := by
  rw [Marked, Marked, withBit]
  by_cases hblock : bitBlock sb m = bitBlock sb n
  · rw [hblock, Function.update_self, bit_clearBit, if_congr (bit_place hblock) rfl rfl]
    by_cases hm : m = n
    · simp [hm]
    · simp [hm]
  · have hm : m ≠ n := fun hc => hblock (by rw [hc])
    rw [Function.update_of_ne hblock]
    exact (and_iff_left hm).symm

/-- The bitmap is apart from the indirect blocks. -/
theorem place_withBit (h : Sharing sb held d v) (hn : n < sb.nblocks) (f : ℕ → Bytes → Bytes) :
    place sb (withBit sb d n f) v = place sb d v := by
  apply place_congr
  intro i hi hx
  have hrange := (h.indirect ⟨i, hi, hx, rfl⟩).1
  have hlt := bitBlock_lt hn
  exact Function.update_of_ne (by omega) _ _

/-- What `alloc_block` leaves: the bit is set, and the block is zero. -/
def claimed (sb : SuperBlock) (d : ℕ → Bytes) (n : ℕ) : ℕ → Bytes :=
  Function.update (withBit sb d n setBit) n
    (paste 0 blockSize (fun _ => 0) 0 (withBit sb d n setBit n))

theorem Sharing.claim (h : Sharing sb held d v) (hn : n < sb.nblocks) (hfree : ¬ Marked sb d n)
    (hheld : ∀ m, held' m ↔ held m ∨ m = n) :
    Sharing sb held' (claimed sb d n) v ∧
      ∀ i, Inum sb i → ∀ k, slot (claimed sb d n) (v i) k = slot d (v i) k := by
  have hset : Sharing sb held' (withBit sb d n setBit) v := by
    rw [Sharing, place_withBit h hn]
    exact Owned.claim h hn hfree (marked_set d n) hheld
  have hfirst := (Owned.free h hn hfree).1
  obtain ⟨hclaimed, hslots⟩ := hset.disk (fun m (hm : claimed sb d n m ≠ _) => by
    by_cases hmn : m = n
    · subst hmn
      exact ⟨Or.inr hfirst, fun hc => (hset.indirect hc).2.2.1 ((hheld m).mpr (Or.inr rfl))⟩
    · exact absurd (Function.update_of_ne hmn _ _) hm)
  refine ⟨hclaimed, fun i hi k => ?_⟩
  rw [hslots i hi]
  have hplace := congrFun (place_withBit h hn setBit) (i, k)
  rwa [place_inum hi, place_inum hi] at hplace

theorem claimed_other {m : ℕ} (hbit : m ≠ bitBlock sb n) (hm : m ≠ n) : claimed sb d n m = d m := by
  rw [claimed, Function.update_of_ne hm, withBit, Function.update_of_ne hbit]

theorem claimed_zero {j : ℕ} (hj : j < blockSize) : claimed sb d n n j = 0 := by
  rw [claimed, Function.update_self, paste, if_pos ⟨Nat.zero_le j, by rwa [Nat.zero_add]⟩]

theorem Sharing.release (h : Sharing sb held d v) (hn : held n)
    (hheld : ∀ m, held' m ↔ held m ∧ m ≠ n) :
    Sharing sb held' (withBit sb d n clearBit) v ∧
      ∀ i, Inum sb i → ∀ k, slot (withBit sb d n clearBit) (v i) k = slot d (v i) k := by
  have hlt := (h.inHand n hn).2
  have hplaces := place_withBit h hlt clearBit
  refine ⟨?_, fun i hi k => ?_⟩
  · rw [Sharing, hplaces]
    exact Owned.release h hn (marked_clear d n) hheld
  · have hplace := congrFun hplaces (i, k)
    rwa [place_inum hi, place_inum hi] at hplace

/-! ## Addresses -/

theorem toNat_ofNat (hn : n < 2^32) : (BitVec.ofNat 32 n).toNat = n := by
  rw [BitVec.toNat_ofNat, Nat.mod_eq_of_lt hn]

theorem withAddr_self (x : DiskInode) (k : ℕ) (n : BitVec 32) : (withAddr x k n).addrs k = n :=
  Function.update_self ..

theorem withAddr_ne {j : ℕ} (h : j ≠ k) (x : DiskInode) (n : BitVec 32) :
    (withAddr x k n).addrs j = x.addrs j := Function.update_of_ne h ..

/-- A block goes to an address; a new indirect block has no entries. -/
theorem slot_withAddr (hk : k ≤ nDirect) (hn : n < 2^32)
    (hx : k = nDirect → x.addrs nDirect = 0 ∧ ∀ j < nIndirect, word (d n) (4*j) 4 = 0) (j : ℕ) :
    slot d (withAddr x k (BitVec.ofNat 32 n)) j = if j = k then n else slot d x j := by
  by_cases hj : j ≤ nDirect
  · rw [slot_direct hj, slot_direct hj]
    by_cases hjk : j = k
    · subst hjk
      rw [withAddr_self, if_pos rfl, toNat_ofNat hn]
    · rw [withAddr_ne hjk, if_neg hjk]
  · rw [if_neg (by omega)]
    by_cases hkd : k = nDirect
    · subst hkd
      obtain ⟨hzero, hentries⟩ := hx rfl
      rw [slot_none (by omega) hzero, slot, if_neg hj, withAddr_self, toNat_ofNat hn]
      by_cases hlast : j ≤ nDirect+nIndirect ∧ BitVec.ofNat 32 n ≠ 0
      · rw [if_pos hlast]
        exact hentries _ (by omega)
      · rw [if_neg hlast]
    · rw [slot, slot, withAddr_ne (Ne.symm hkd), if_neg hj, if_neg hj]

theorem Sharing.setAddr (h : Sharing sb held d v) (hi : Inum sb i) (hk : k ≤ nDirect) (hn : held n)
    (hwide : sb.nblocks ≤ 2^32) (hempty : slot d (v i) k = 0)
    (hentries : k = nDirect → ∀ j < nIndirect, word (d n) (4*j) 4 = 0)
    (hheld : ∀ m, held' m ↔ held m ∧ m ≠ n) :
    Sharing sb held' d (Function.update v i (withAddr (v i) k (BitVec.ofNat 32 n))) := by
  have hlt : n < 2^32 := by
    have := (h.inHand n hn).2
    omega
  have hzero : (v i).addrs k = 0 := by
    rw [slot_direct hk] at hempty
    by_contra hc
    exact toNat_ne.mpr hc hempty
  refine Owned.assign (a := (i, k)) h hn (by rw [place_inum hi, hempty]) ?_ hheld
  funext a
  obtain ⟨j, l⟩ := a
  by_cases hj : Inum sb j
  · rw [place_inum hj]
    by_cases hji : j = i
    · subst hji
      rw [Function.update_self, slot_withAddr hk hlt
        (fun hkd => ⟨by rw [← hkd]; exact hzero, hentries hkd⟩)]
      by_cases hl : l = k
      · rw [if_pos hl, hl, Function.update_self]
      · rw [if_neg hl, Function.update_of_ne (fun hc => hl (Prod.mk.inj hc).2), place_inum hj]
    · rw [Function.update_of_ne hji, Function.update_of_ne (fun hc => hji (Prod.mk.inj hc).1),
        place_inum hj]
  · have hne : (j, l) ≠ (i, k) := fun hc => hj ((Prod.mk.inj hc).1 ▸ hi)
    rw [Function.update_of_ne hne, place, place, if_neg hj, if_neg hj]

/-- The indirect block of `x` with another entry. -/
def withEntry (d : ℕ → Bytes) (x : DiskInode) (k n : ℕ) : ℕ → Bytes :=
  Function.update d (x.addrs nDirect).toNat (putWord (4*k) 4 n (d (x.addrs nDirect).toNat))

theorem slot_withEntry (hx : x.addrs nDirect ≠ 0) (hk : k < nIndirect) (hn : n < 2^32) (j : ℕ) :
    slot (withEntry d x k n) x j = if j = nDirect+1+k then n else slot d x j := by
  by_cases hj : j ≤ nDirect
  · rw [slot_direct hj, slot_direct hj, if_neg (by omega)]
  · rw [slot, slot, if_neg hj, if_neg hj, withEntry, Function.update_self]
    by_cases hlast : j ≤ nDirect+nIndirect ∧ x.addrs nDirect ≠ 0
    · rw [if_pos hlast, if_pos hlast]
      by_cases hjk : j = nDirect+1+k
      · rw [if_pos hjk, hjk, Nat.add_sub_cancel_left, word_putWord, Nat.mod_eq_of_lt (by omega)]
      · rw [if_neg hjk, word_putWord_other _ (by omega)]
    · have hj : j ≠ nDirect+1+k := fun hc => hlast ⟨by omega, hx⟩
      rw [if_neg hlast, if_neg hlast, if_neg hj]

theorem Sharing.setEntry (h : Sharing sb held d v) (hi : Inum sb i)
    (hx : (v i).addrs nDirect ≠ 0) (hk : k < nIndirect) (hn : held n) (hwide : sb.nblocks ≤ 2^32)
    (hempty : slot d (v i) (nDirect+1+k) = 0) (hheld : ∀ m, held' m ↔ held m ∧ m ≠ n) :
    Sharing sb held' (withEntry d (v i) k n) v ∧
      ∀ j, Inum sb j → j ≠ i → ∀ l, slot (withEntry d (v i) k n) (v j) l = slot d (v j) l := by
  have hlt : n < 2^32 := by
    have := (h.inHand n hn).2
    omega
  have hrange := h.indirect ⟨i, hi, hx, rfl⟩
  have hother : ∀ j, Inum sb j → j ≠ i → ∀ l, slot (withEntry d (v i) k n) (v j) l = slot d (v j) l := by
    intro j hj hji l
    apply slot_congr
    intro hxj
    apply Function.update_of_ne
    intro hc
    have hplace : place sb d v (j, nDirect) = place sb d v (i, nDirect) := by
      rw [place_inum hj, place_inum hi, slot_direct le_rfl, slot_direct le_rfl, hc]
    have hpair := h.unique _ _ (by rw [place_inum hj, slot_direct le_rfl]; exact toNat_ne.mpr hxj) hplace
    exact hji (Prod.mk.inj hpair).1
  have hmarks : ∀ m < sb.nblocks, (Marked sb (withEntry d (v i) k n) m ↔ Marked sb d m) := by
    intro m hm
    have hbit := bitBlock_lt hm
    rw [Marked, Marked, withEntry, Function.update_of_ne (by omega)]
  have hplace : place sb (withEntry d (v i) k n) v =
      Function.update (place sb d v) (i, nDirect+1+k) n := by
    funext a
    obtain ⟨j, l⟩ := a
    by_cases hj : Inum sb j
    · rw [place_inum hj]
      by_cases hji : j = i
      · subst hji
        rw [slot_withEntry hx hk hlt]
        by_cases hl : l = nDirect+1+k
        · rw [if_pos hl, hl, Function.update_self]
        · rw [if_neg hl, Function.update_of_ne (fun hc => hl (Prod.mk.inj hc).2), place_inum hj]
      · rw [hother j hj hji, Function.update_of_ne (fun hc => hji (Prod.mk.inj hc).1), place_inum hj]
    · have hne : (j, l) ≠ (i, nDirect+1+k) := fun hc => hj ((Prod.mk.inj hc).1 ▸ hi)
      rw [Function.update_of_ne hne, place, place, if_neg hj, if_neg hj]
  have hassign := Owned.assign h hn (by rw [place_inum hi, hempty]) hplace hheld
  exact ⟨⟨hassign.positive, hassign.range, hassign.unique, hassign.inHand, hassign.apart,
    fun m hm => (hmarks m hm).trans (hassign.marks m hm)⟩, hother⟩

end Slots

/-! ## Files -/

/-- The place of a block of a file. -/
def fileSlot (b : ℕ) : ℕ := if b < nDirect then b else b+1

/-- The first `m` blocks of a file are there, and an indirect block if it is needed. -/
structure Mapped (d : ℕ → Bytes) (x : DiskInode) (m : ℕ) : Prop where
  le : m ≤ maxFileSize
  blocks : ∀ b < maxFileSize, (slot d x (fileSlot b) ≠ 0 ↔ b < m)
  indirect : x.addrs nDirect ≠ 0 ↔ nDirect < m
  tail : ∀ k, nDirect < k → x.addrs k = 0

/-- The byte at an offset. -/
def byteAt (d : ℕ → Bytes) (x : DiskInode) (o : ℕ) : Byte :=
  d (slot d x (fileSlot (o/blockSize))) (o%blockSize)

/-- How the disk and inode `i`, which was `x`, go on while the file grows: its places keep
their blocks, and only the bitmap and its own blocks are written. -/
structure Grown (sb : SuperBlock) (d : ℕ → Bytes) (x : DiskInode) (d' : ℕ → Bytes)
    (x' : DiskInode) : Prop where
  fields : x' = { x with addrs := x'.addrs }
  slots : ∀ k, slot d x k ≠ 0 → slot d' x' k = slot d x k
  disk : ∀ n, d' n ≠ d n → (bitmapStart sb ≤ n ∧ n < dataStart sb) ∨ n ≠ 0 ∧ ∃ k, slot d' x' k = n

section Files

variable {sb : SuperBlock} {d d' d'' : ℕ → Bytes} {x x' x'' : DiskInode} {v : ℕ → DiskInode}
  {held : ℕ → Prop} {i j k n b : ℕ}

theorem fileSlot_ne (b : ℕ) : fileSlot b ≠ nDirect := by
  rw [fileSlot]
  split <;> omega

theorem fileSlot_direct (h : b < nDirect) : fileSlot b = b := if_pos h

theorem fileSlot_entry (k : ℕ) : fileSlot (nDirect+k) = nDirect+1+k := by
  rw [fileSlot, if_neg (by omega)]
  omega

theorem fileSlot_injective {b b' : ℕ} (h : fileSlot b = fileSlot b') : b = b' := by
  rw [fileSlot, fileSlot] at h
  split at h <;> split at h <;> omega

theorem Grown.refl (sb : SuperBlock) (d : ℕ → Bytes) (x : DiskInode) : Grown sb d x d x :=
  ⟨rfl, fun _ _ => rfl, fun _ hn => absurd rfl hn⟩

theorem Grown.trans (h : Grown sb d x d' x') (h' : Grown sb d' x' d'' x'') :
    Grown sb d x d'' x'' := by
  refine ⟨?_, fun k hk => ?_, fun n hn => ?_⟩
  · rw [h'.fields, h.fields]
  · have hslot := h.slots k hk
    rw [h'.slots k (by rwa [hslot]), hslot]
  · by_cases hnew : d'' n = d' n
    · obtain hbitmap | ⟨hne, k, hk⟩ := h.disk n (by rwa [← hnew])
      · exact Or.inl hbitmap
      · refine Or.inr ⟨hne, k, ?_⟩
        rw [h'.slots k (by rwa [hk]), hk]
    · exact h'.disk n hnew

/-- The places of the other inodes, and what is in their blocks, stay. -/
theorem Grown.others (h : Grown sb d x d' x') (hnew : Sharing sb held d' (Function.update v i x'))
    (hi : Inum sb i) (hj : Inum sb j) (hji : j ≠ i) (k : ℕ) :
    slot d' (v j) k = slot d (v j) k ∧ (slot d (v j) k ≠ 0 → d' (slot d (v j) k) = d (slot d (v j) k)) := by
  have hown : Function.update v i x' j = v j := Function.update_of_ne hji ..
  have hself : Function.update v i x' i = x' := Function.update_self ..
  -- a block of inode `j` is a data block, and no block of inode `i`
  have hsame : ∀ k, slot d' (v j) k ≠ 0 → d' (slot d' (v j) k) = d (slot d' (v j) k) := by
    intro k hk
    have hplace : place sb d' (Function.update v i x') (j, k) = slot d' (v j) k := by
      rw [place_inum hj, hown]
    have hrange := hnew.range (j, k) (by rwa [hplace])
    rw [hplace] at hrange
    by_contra hc
    obtain ⟨hlo, hhi⟩ | ⟨-, l, hl⟩ := h.disk _ hc
    · omega
    · have hpair := hnew.unique (j, k) (i, l) (by rwa [hplace]) (by
        rw [hplace, place_inum hi, hself, hl])
      exact hji (Prod.mk.inj hpair).1
  have hslots : slot d' (v j) k = slot d (v j) k := by
    apply slot_congr
    intro hxj
    have hdirect : slot d' (v j) nDirect = ((v j).addrs nDirect).toNat := slot_direct le_rfl
    have hind := hsame nDirect (by rw [hdirect]; exact toNat_ne.mpr hxj)
    rwa [hdirect] at hind
  refine ⟨hslots, fun hk => ?_⟩
  rw [← hslots] at hk ⊢
  exact hsame k hk

end Files

end BabyOS.DiskBlocks

import BabyOS.ByteWords
import Mathlib.Data.List.Pairwise

/-!
# The boot loader

Sectors are read whole, from the sector boundary before the first byte on. A
memory is a function of the 64-bit address, so that pointers wrap as the code's
do, and loops take fuel, since one that passes the last address never ends.
-/

set_option autoImplicit false

namespace BabyOS.BootLoader
open BabyOS.ByteWords

abbrev Memory := BitVec 64 → Byte
abbrev Disk := ℕ → Byte

def sectSize : ℕ := 512

def kernelElfLba : ℕ := 3

def readSector (disk : Disk) (buf : BitVec 64) (lba : BitVec 32) (m : Memory) : Memory :=
  fun a => if (a-buf).toNat < sectSize then disk (sectSize*lba.toNat+(a-buf).toNat) else m a

/-- The loop of `read_segment`. -/
def readSectors (disk : Disk) : ℕ → BitVec 64 → BitVec 64 → BitVec 32 → Memory → Option Memory
  | 0, _, _, _, _ => none
  | fuel+1, p, last, lba, m =>
    if p < last then readSectors disk fuel (p+BitVec.ofNat 64 sectSize) last (lba+1) (readSector disk p lba m)
    else some m

/-- The destination, moved back to a sector boundary of the disk. -/
def aligned (pa : BitVec 64) (offset : ℕ) : BitVec 64 := pa-BitVec.ofNat 64 (offset%sectSize)

def readSegment (disk : Disk) (fuel : ℕ) (pa : BitVec 64) (offset size : BitVec 32) (m : Memory) :
    Option Memory :=
  let p := aligned pa offset.toNat
  readSectors disk fuel p (p+BitVec.ofNat 64 size.toNat) (BitVec.ofNat 32 (offset.toNat/sectSize)) m

/-- The count is 32 bits wide. -/
def stosb (addr : BitVec 64) (data : Byte) (cnt : BitVec 32) (m : Memory) : Memory :=
  fun a => if (a-addr).toNat < cnt.toNat then data else m a

structure Phdr where
  offset : BitVec 64
  paddr : BitVec 64
  filesz : BitVec 64
  memsz : BitVec 64
  deriving DecidableEq

def elfOffset : ℕ := sectSize*kernelElfLba

/-- A round of the loop over the program headers. -/
def loadHeader (disk : Disk) (fuel : ℕ) (m : Memory) (ph : Phdr) : Option Memory := do
  let m ← readSegment disk fuel ph.paddr
    ((BitVec.ofNat 64 elfOffset+ph.offset).setWidth 32) (ph.filesz.setWidth 32) m
  if ph.filesz ≤ ph.memsz then
    return stosb (ph.paddr+ph.filesz) 0 ((ph.memsz-ph.filesz).setWidth 32) m
  else return m

def elfMagic : ℕ := 0x464c457f

/-- The sector that `buf` holds, and the stack behind it. -/
def view (disk : Disk) (stack : Bytes) : Bytes := fun j =>
  if j%2^64 < sectSize then disk (elfOffset+j%2^64) else stack (j%2^64)

def phdrSize : ℕ := 56

def phdr (b : Bytes) (i : ℕ) : Phdr :=
  let ph := word b 32 8+phdrSize*i
  ⟨BitVec.ofNat 64 (word b (ph+8) 8), BitVec.ofNat 64 (word b (ph+24) 8),
    BitVec.ofNat 64 (word b (ph+32) 8), BitVec.ofNat 64 (word b (ph+40) 8)⟩

/-- `e_phnum` headers from `e_phoff` on. -/
def headers (b : Bytes) : List Phdr := (List.range (word b 56 2)).map (phdr b)

/-- Up to the call of the entry, or to the return when the magic number is not there. -/
def loadmain (disk : Disk) (stack : Bytes) (fuel : ℕ) (m : Memory) : Option Memory :=
  if word (view disk stack) 0 4 ≠ elfMagic then some m
  else (headers (view disk stack)).foldlM (loadHeader disk fuel) m

/-! ## What should be loaded -/

/-- The bytes of the segment are those of the disk, whatever the disk and the memory hold. -/
def Loads (pa : BitVec 64) (offset size : BitVec 32) : Prop :=
  ∀ disk m, ∃ fuel m', readSegment disk fuel pa offset size m = some m' ∧
    ∀ i < size.toNat, m' (pa+BitVec.ofNat 64 i) = disk (offset.toNat+i)

/-- The sectors that are read, counted from the size alone. -/
def rounds (size : ℕ) : ℕ := (size+(sectSize-1))/sectSize

/-- The sectors reach the end of the bytes, and end below the last address. -/
def Whole (pa : BitVec 64) (offset size : ℕ) : Prop :=
  size = 0 ∨ (aligned pa offset).toNat+sectSize*rounds size < 2^64 ∧
    offset%sectSize+size ≤ sectSize*rounds size

/-- Where the byte at an address comes from. -/
inductive Source
  | disk (n : ℕ)
  | zero

def Source.byte (d : Disk) : Source → Byte
  | .disk n => d n
  | .zero => 0

/-- Bytes of the file, then zeros. -/
def wants (ph : Phdr) (a : BitVec 64) : Option Source :=
  let x := (a-ph.paddr).toNat
  if x < ph.filesz.toNat then some (.disk (elfOffset+ph.offset.toNat+x))
  else if x < ph.memsz.toNat then some .zero
  else none

/-- What the round of a header stores at an address. -/
def writes (ph : Phdr) (a : BitVec 64) : Option Source :=
  let x := (a-ph.paddr).toNat
  let offset := elfOffset+ph.offset.toNat
  let y := (a-aligned ph.paddr offset).toNat
  if ph.filesz.toNat ≤ x ∧ x < ph.memsz.toNat then some .zero
  else if y < sectSize*rounds ph.filesz.toNat then some (.disk (sectSize*(offset/sectSize)+y))
  else none

/-- The numbers of a header fit their arguments, and its sectors are whole. -/
structure Fits (ph : Phdr) : Prop where
  file : ph.filesz.toNat = 0 ∨ elfOffset+ph.offset.toNat < 2^32 ∧ ph.filesz.toNat < 2^32 ∧
    Whole ph.paddr (elfOffset+ph.offset.toNat) ph.filesz.toNat
  zeros : ph.memsz.toNat < ph.filesz.toNat+2^32

/-- A later header leaves an earlier one's bytes alone, or stores the same there. -/
def Spares (ph later : Phdr) : Prop :=
  ∀ a s, wants ph a = some s → writes later a = none ∨ writes later a = some s

/-! ## One segment -/

section Sectors

variable {disk : Disk} {p last : BitVec 64} {lba : BitVec 32} {m : Memory} {fuel k : ℕ}

/-- The memory after some bytes of the disk have been stored in a row. -/
def filled (disk : Disk) (p : BitVec 64) (n base : ℕ) (m : Memory) : Memory :=
  fun a => if (a-p).toNat < n then disk (base+(a-p).toNat) else m a

theorem filled_zero (base : ℕ) : filled disk p 0 base m = m := by
  funext a
  exact if_neg (Nat.not_lt_zero _)

/-- A sector and the sectors behind it. -/
theorem filled_sector (hlba : lba.toNat+1 < 2^32) (hk : sectSize*(k+1) ≤ 2^64) :
    filled disk (p+BitVec.ofNat 64 sectSize) (sectSize*k) (sectSize*(lba+1).toNat) (readSector disk p lba m) =
      filled disk p (sectSize*(k+1)) (sectSize*lba.toNat) m := by
  have hnext : (lba+1).toNat = lba.toNat+1 := by
    rw [BitVec.toNat_add]
    exact Nat.mod_eq_of_lt hlba
  have hsect : sectSize = 512 := rfl
  have hmul : sectSize*(k+1) = sectSize*k+sectSize := Nat.mul_succ sectSize k
  have hbase : sectSize*(lba.toNat+1) = sectSize*lba.toNat+sectSize := Nat.mul_succ sectSize _
  funext a
  simp only [filled, readSector, hnext, hbase, hmul]
  have hback : a-(p+BitVec.ofNat 64 sectSize) = a-p-BitVec.ofNat 64 sectSize := by bv_omega
  rw [hback]
  generalize a-p = x
  by_cases hin : x.toNat < sectSize
  · have hfar : (x-BitVec.ofNat 64 sectSize).toNat = x.toNat+2^64-sectSize := by bv_omega
    rw [if_neg (by omega), if_pos hin, if_pos (by omega)]
  · have hnear : (x-BitVec.ofNat 64 sectSize).toNat = x.toNat-sectSize := by bv_omega
    rw [hnear]
    by_cases hlt : x.toNat < sectSize*k+sectSize
    · rw [if_pos (by omega), if_pos hlt]
      exact congrArg disk (by omega)
    · rw [if_neg (by omega), if_neg hin, if_neg hlt]

/-- The loop makes its rounds and stops. -/
theorem readSectors_done (hfuel : k < fuel) (hfit : p.toNat+sectSize*k < 2^64)
    (hlast : last.toNat ≤ p.toNat+sectSize*k) (hgo : ∀ j < k, p.toNat+sectSize*j < last.toNat)
    (hlba : lba.toNat+k < 2^32) :
    readSectors disk fuel p last lba m = some (filled disk p (sectSize*k) (sectSize*lba.toNat) m) := by
  induction k generalizing p lba m fuel with
  | zero =>
    obtain ⟨fuel, rfl⟩ := Nat.exists_eq_succ_of_ne_zero (Nat.ne_of_gt hfuel)
    have hstop : ¬ p < last := by
      rw [BitVec.lt_def]
      omega
    rw [readSectors, if_neg hstop, Nat.mul_zero, filled_zero]
  | succ k ih =>
    obtain ⟨fuel, rfl⟩ := Nat.exists_eq_succ_of_ne_zero (Nat.ne_zero_of_lt hfuel)
    have hzero := hgo 0 (Nat.succ_pos k)
    have hp : (p+BitVec.ofNat 64 sectSize).toNat = p.toNat+sectSize := by
      rw [sectSize] at hfit ⊢
      bv_omega
    have hnext : (lba+1).toNat = lba.toNat+1 := by
      have hbound : lba.toNat+1 < 2^32 := by omega
      rw [BitVec.toNat_add]
      exact Nat.mod_eq_of_lt hbound
    have hmul : sectSize*(k+1) = sectSize+sectSize*k := by
      rw [Nat.mul_succ, Nat.add_comm]
    rw [readSectors, if_pos (by rw [BitVec.lt_def]; omega)]
    rw [ih (by omega) (by omega) (by omega) ?_ (by rw [hnext]; omega), filled_sector (by omega) (by omega)]
    intro j hj
    have hnow := hgo (j+1) (Nat.succ_lt_succ hj)
    rw [Nat.mul_succ] at hnow
    omega

/-- More fuel makes no difference to a loop that has ended. -/
theorem readSectors_more {m' : Memory} (h : readSectors disk fuel p last lba m = some m') (n : ℕ) :
    readSectors disk (fuel+n) p last lba m = some m' := by
  induction fuel generalizing p lba m with
  | zero => cases h
  | succ fuel ih =>
    rw [Nat.succ_add, readSectors]
    rw [readSectors] at h
    by_cases hp : p < last
    · rw [if_pos hp] at h ⊢
      exact ih h
    · rw [if_neg hp] at h ⊢
      exact h

/-- A loop whose places are all below its end goes round and round. -/
theorem readSectors_forever (hall : ∀ q : BitVec 64, q.toNat%sectSize = p.toNat%sectSize → q < last) :
    readSectors disk fuel p last lba m = none := by
  induction fuel generalizing p lba m with
  | zero => rfl
  | succ fuel ih =>
    rw [readSectors, if_pos (hall p rfl)]
    apply ih
    intro q hq
    apply hall
    rw [hq, sectSize]
    bv_omega

end Sectors

theorem rounds_reach (size : ℕ) : size ≤ sectSize*rounds size := by
  rw [rounds, sectSize]
  omega

theorem rounds_needed {size j : ℕ} (hj : j < rounds size) : sectSize*j < size := by
  rw [rounds, sectSize] at hj
  rw [sectSize]
  omega

theorem rounds_pos {size : ℕ} (hpos : 0 < size) : 0 < rounds size := by
  rw [rounds, sectSize]
  omega

section Segment

variable {disk : Disk} {pa : BitVec 64} {offset size : BitVec 32} {m : Memory} {fuel : ℕ}

/-- The loop ends when its sectors end below the last address. -/
theorem readSegment_done (hfuel : rounds size.toNat < fuel)
    (hfit : (aligned pa offset.toNat).toNat+sectSize*rounds size.toNat < 2^64) :
    readSegment disk fuel pa offset size m = some (filled disk (aligned pa offset.toNat)
      (sectSize*rounds size.toNat) (sectSize*(offset.toNat/sectSize)) m) := by
  have hsect : sectSize = 512 := rfl
  have hreach := rounds_reach size.toNat
  have hoffset := offset.isLt
  have hsize := size.isLt
  have hlba : (BitVec.ofNat 32 (offset.toNat/sectSize)).toNat = offset.toNat/sectSize := by
    rw [BitVec.toNat_ofNat]
    exact Nat.mod_eq_of_lt (Nat.lt_of_le_of_lt (Nat.div_le_self _ _) hoffset)
  have hlast : (aligned pa offset.toNat+BitVec.ofNat 64 size.toNat).toNat =
      (aligned pa offset.toNat).toNat+size.toNat := by
    rw [BitVec.toNat_add, BitVec.toNat_ofNat]
    omega
  rw [readSegment, readSectors_done hfuel hfit, hlba]
  · rw [hlast]
    omega
  · intro j hj
    have := rounds_needed hj
    omega
  · rw [hlba, rounds, hsect]
    omega

/-- The loop does not store at all when its end wraps. -/
theorem readSegment_nothing (hwrap : 2^64 ≤ (aligned pa offset.toNat).toNat+size.toNat) :
    readSegment disk (fuel+1) pa offset size m = some m := by
  have hsize := size.isLt
  have hstop : ¬ aligned pa offset.toNat < aligned pa offset.toNat+BitVec.ofNat 64 size.toNat := by
    rw [BitVec.lt_def, BitVec.toNat_add, BitVec.toNat_ofNat]
    omega
  exact if_neg hstop

/-- The loop never ends when its end does not wrap and its last sector does. -/
theorem readSegment_forever (hpos : 0 < size.toNat)
    (hlow : (aligned pa offset.toNat).toNat+size.toNat < 2^64)
    (hhigh : 2^64 ≤ (aligned pa offset.toNat).toNat+sectSize*rounds size.toNat) :
    readSegment disk fuel pa offset size m = none := by
  have hsect : sectSize = 512 := rfl
  have hneed := rounds_needed (Nat.sub_lt (rounds_pos hpos) Nat.one_pos)
  have hmul : sectSize*rounds size.toNat = sectSize*(rounds size.toNat-1)+sectSize := by
    rw [← Nat.mul_succ, Nat.succ_eq_add_one, Nat.sub_add_cancel (rounds_pos hpos)]
  apply readSectors_forever
  intro q hq
  have hlt := q.isLt
  have hlast : (aligned pa offset.toNat+BitVec.ofNat 64 size.toNat).toNat =
      (aligned pa offset.toNat).toNat+size.toNat := by
    rw [BitVec.toNat_add, BitVec.toNat_ofNat]
    omega
  rw [hsect] at hq hneed hmul hhigh
  rw [BitVec.lt_def, hlast]
  omega

theorem aligned_back (pa : BitVec 64) (offset i : ℕ) (hi : offset%sectSize+i < 2^64) :
    (pa+BitVec.ofNat 64 i-aligned pa offset).toNat = offset%sectSize+i := by
  have hback : pa+BitVec.ofNat 64 i-aligned pa offset = BitVec.ofNat 64 (offset%sectSize+i) := by
    rw [aligned]
    bv_omega
  rw [hback, BitVec.toNat_ofNat]
  exact Nat.mod_eq_of_lt hi

/-- A segment is read right exactly when its sectors reach the end of its bytes. -/
theorem loads_iff (pa : BitVec 64) (offset size : BitVec 32) :
    Loads pa offset size ↔ Whole pa offset.toNat size.toNat := by
  have hsect : sectSize = 512 := rfl
  have hsize := size.isLt
  have hmod : offset.toNat%sectSize < sectSize := Nat.mod_lt _ (by decide)
  constructor
  · intro hload
    by_contra hnot
    obtain ⟨hne, hshort⟩ := not_or.mp hnot
    have hpos : 0 < size.toNat := Nat.pos_of_ne_zero hne
    -- a disk of ones and a memory of zeros
    obtain ⟨fuel, m', hrun, hbytes⟩ := hload (fun _ => 1) (fun _ => 0)
    have hone : ∀ i < size.toNat, m' (pa+BitVec.ofNat 64 i) ≠ 0 := by
      intro i hi
      rw [hbytes i hi]
      decide
    by_cases hlow : (aligned pa offset.toNat).toNat+size.toNat < 2^64
    · by_cases hhigh : (aligned pa offset.toNat).toNat+sectSize*rounds size.toNat < 2^64
      · have hend : ¬ offset.toNat%sectSize+size.toNat ≤ sectSize*rounds size.toNat := fun hc =>
          hshort ⟨hhigh, hc⟩
        have hsome := rounds_pos hpos
        have hmul : sectSize ≤ sectSize*rounds size.toNat := Nat.le_mul_of_pos_right _ hsome
        have hmore := readSectors_more hrun (rounds size.toNat+1)
        have hdone := @readSegment_done (fun _ => 1) pa offset size (fun _ => 0) _
          (by omega : rounds size.toNat < fuel+(rounds size.toNat+1)) hhigh
        -- the first byte behind the sectors
        have hbyte := aligned_back pa offset.toNat (sectSize*rounds size.toNat-offset.toNat%sectSize) (by omega)
        refine hone (sectSize*rounds size.toNat-offset.toNat%sectSize) (by omega) ?_
        rw [Option.some.inj (hmore.symm.trans hdone), filled, if_neg (by omega)]
      · rw [readSegment_forever hpos hlow (Nat.le_of_not_lt hhigh)] at hrun
        cases hrun
    · cases fuel with
      | zero => cases hrun
      | succ fuel =>
        rw [readSegment_nothing (Nat.le_of_not_lt hlow)] at hrun
        refine hone 0 hpos ?_
        rw [← Option.some.inj hrun]
  · intro hwhole disk m
    rcases hwhole with hzero | ⟨hfit, hreach⟩
    · refine ⟨1, m, ?_, fun i hi => ?_⟩
      · have hempty : rounds size.toNat = 0 := by
          rw [hzero]
          rfl
        have hhigh := (aligned pa offset.toNat).isLt
        rw [readSegment_done (by omega) (by rw [hempty]; omega), hempty, Nat.mul_zero, filled_zero]
      · rw [hzero] at hi
        exact absurd hi (Nat.not_lt_zero i)
    · refine ⟨rounds size.toNat+1, _, readSegment_done (Nat.lt_succ_self _) hfit, fun i hi => ?_⟩
      rw [filled, aligned_back pa offset.toNat i (by omega), if_pos (by omega)]
      apply congrArg disk
      have hdiv := Nat.div_add_mod offset.toNat sectSize
      omega

end Segment

/-! ## The program headers -/

section Headers

variable {disk : Disk} {ph later : Phdr} {m : Memory} {fuel : ℕ}

/-- The segment is in the memory, with its zeros. -/
def Held (disk : Disk) (ph : Phdr) (m : Memory) : Prop :=
  ∀ a s, wants ph a = some s → m a = s.byte disk

/-- The memory after the round of a header. -/
def loaded (disk : Disk) (ph : Phdr) (m : Memory) : Memory :=
  fun a => (writes ph a).elim (m a) (Source.byte disk)

theorem span_iff {x f n : ℕ} (hx : x < 2^64) (hf : f < 2^64) (hn : n < 2^64) (hle : f ≤ n) :
    (2^64-f+x)%2^64 < n-f ↔ f ≤ x ∧ x < n := by
  omega

theorem stosb_zeros (hle : ph.filesz ≤ ph.memsz) (hzeros : ph.memsz.toNat < ph.filesz.toNat+2^32)
    (a : BitVec 64) : stosb (ph.paddr+ph.filesz) 0 ((ph.memsz-ph.filesz).setWidth 32) m a =
      if ph.filesz.toNat ≤ (a-ph.paddr).toNat ∧ (a-ph.paddr).toNat < ph.memsz.toNat then 0 else m a := by
  have hlen : (ph.memsz-ph.filesz).toNat = ph.memsz.toNat-ph.filesz.toNat := BitVec.toNat_sub_of_le hle
  have hcnt : ((ph.memsz-ph.filesz).setWidth 32).toNat = ph.memsz.toNat-ph.filesz.toNat := by
    rw [BitVec.toNat_setWidth, hlen]
    exact Nat.mod_eq_of_lt (by omega)
  have hplace := span_iff (a-ph.paddr).isLt ph.filesz.isLt ph.memsz.isLt (BitVec.le_def.mp hle)
  rw [← BitVec.toNat_sub, BitVec.sub_sub] at hplace
  rw [stosb, hcnt]
  by_cases hin : (a-(ph.paddr+ph.filesz)).toNat < ph.memsz.toNat-ph.filesz.toNat
  · rw [if_pos hin, if_pos (hplace.mp hin)]
  · rw [if_neg hin, if_neg fun hc => hin (hplace.mpr hc)]

/-- The sectors of a header, before its zeros. -/
theorem readSegment_header (hfits : Fits ph) (hfuel : 2^23 < fuel) :
    readSegment disk fuel ph.paddr ((BitVec.ofNat 64 elfOffset+ph.offset).setWidth 32)
      (ph.filesz.setWidth 32) m =
      some (filled disk (aligned ph.paddr (elfOffset+ph.offset.toNat)) (sectSize*rounds ph.filesz.toNat)
        (sectSize*((elfOffset+ph.offset.toNat)/sectSize)) m) := by
  rcases hfits.file with hzero | ⟨hoffset, hfilesz, hwhole⟩
  · have hsize : (ph.filesz.setWidth 32).toNat = 0 := by
      rw [BitVec.toNat_setWidth, hzero]
    have hempty : rounds 0 = 0 := rfl
    have hhigh := (aligned ph.paddr ((BitVec.ofNat 64 elfOffset+ph.offset).setWidth 32).toNat).isLt
    rw [readSegment_done (by rw [hsize, hempty]; omega) (by rw [hsize, hempty]; omega), hsize, hzero,
      hempty, Nat.mul_zero, filled_zero, filled_zero]
  · have hsize : (ph.filesz.setWidth 32).toNat = ph.filesz.toNat := by
      rw [BitVec.toNat_setWidth]
      exact Nat.mod_eq_of_lt hfilesz
    have hplace : ((BitVec.ofNat 64 elfOffset+ph.offset).setWidth 32).toNat = elfOffset+ph.offset.toNat := by
      rw [BitVec.toNat_setWidth, BitVec.toNat_add, BitVec.toNat_ofNat]
      have helf : elfOffset = 1536 := rfl
      omega
    have hrounds : rounds ph.filesz.toNat ≤ 2^23 := by
      rw [rounds, sectSize]
      omega
    have hfit : (aligned ph.paddr (elfOffset+ph.offset.toNat)).toNat+
        sectSize*rounds ph.filesz.toNat < 2^64 := by
      rcases hwhole with hzero | ⟨hfit, -⟩
      · rw [hzero]
        exact (aligned ph.paddr (elfOffset+ph.offset.toNat)).isLt
      · exact hfit
    rw [readSegment_done (by rw [hsize]; omega) (by rw [hsize, hplace]; exact hfit), hsize, hplace]

theorem loadHeader_eq (hfits : Fits ph) (hfuel : 2^23 < fuel) :
    loadHeader disk fuel m ph = some (loaded disk ph m) := by
  rw [loadHeader, readSegment_header hfits hfuel]
  change (if ph.filesz ≤ ph.memsz then some _ else some _) = _
  by_cases hle : ph.filesz ≤ ph.memsz
  · rw [if_pos hle]
    congr 1
    funext a
    rw [stosb_zeros hle hfits.zeros, loaded, writes, filled]
    split_ifs <;> rfl
  · rw [if_neg hle]
    congr 1
    funext a
    rw [BitVec.le_def] at hle
    have hnone : ¬ (ph.filesz.toNat ≤ (a-ph.paddr).toNat ∧ (a-ph.paddr).toNat < ph.memsz.toNat) := by omega
    rw [loaded, writes, if_neg hnone, filled]
    split_ifs <;> rfl

/-- A header that fits stores what its segment wants. -/
theorem writes_own (hfits : Fits ph) {a : BitVec 64} {s : Source} (h : wants ph a = some s) :
    writes ph a = some s := by
  have hplace : a = ph.paddr+BitVec.ofNat 64 (a-ph.paddr).toNat := by
    rw [BitVec.ofNat_toNat]
    bv_omega
  simp only [wants] at h
  rw [writes]
  generalize (a-ph.paddr).toNat = x at h hplace ⊢
  by_cases hfile : x < ph.filesz.toNat
  · rw [if_pos hfile] at h
    obtain ⟨hoffset, hfilesz, hwhole⟩ := hfits.file.resolve_left (by omega)
    obtain ⟨-, hreach⟩ := hwhole.resolve_left (by omega)
    have hmod : (elfOffset+ph.offset.toNat)%sectSize < 512 := Nat.mod_lt _ (by decide)
    have hdiv := Nat.div_add_mod (elfOffset+ph.offset.toNat) sectSize
    rw [if_neg (by omega), hplace, aligned_back _ _ _ (by omega), if_pos (by omega), ← h,
      ← Nat.add_assoc, hdiv]
  · rw [if_neg hfile] at h
    by_cases hzero : x < ph.memsz.toNat
    · rw [if_pos ⟨Nat.le_of_not_lt hfile, hzero⟩]
      rwa [if_pos hzero] at h
    · rw [if_neg hzero] at h
      cases h

theorem held_loaded (hfits : Fits ph) : Held disk ph (loaded disk ph m) := by
  intro a s h
  rw [loaded, writes_own hfits h]
  rfl

theorem held_later (h : Held disk ph m) (hspares : Spares ph later) : Held disk ph (loaded disk later m) := by
  intro a s hs
  rw [loaded]
  rcases hspares a s hs with hnone | hsame
  · rw [hnone]
    exact h a s hs
  · rw [hsame]
    rfl

/-- The loop over headers that fit and spare each other. -/
theorem held_headers (hfuel : 2^23 < fuel) (phs : List Phdr) (hfits : ∀ ph ∈ phs, Fits ph)
    (hspares : phs.Pairwise Spares) (m : Memory) :
    ∃ m', phs.foldlM (loadHeader disk fuel) m = some m' ∧ (∀ ph ∈ phs, Held disk ph m') ∧
      ∀ ph, (∀ later ∈ phs, Spares ph later) → Held disk ph m → Held disk ph m' := by
  induction phs generalizing m with
  | nil => exact ⟨m, rfl, nofun, fun _ _ h => h⟩
  | cons ph phs ih =>
    rw [List.pairwise_cons] at hspares
    obtain ⟨m', hrun, hheld, hkeep⟩ := ih (fun x hx => hfits x (List.mem_cons_of_mem ph hx)) hspares.2
      (loaded disk ph m)
    have hfirst := hfits ph List.mem_cons_self
    refine ⟨m', ?_, fun x hx => ?_, fun x hx h => ?_⟩
    · rw [List.foldlM_cons, loadHeader_eq hfirst hfuel]
      exact hrun
    · rcases List.mem_cons.mp hx with rfl | hx
      · exact hkeep x hspares.1 (held_loaded hfirst)
      · exact hheld x hx
    · exact hkeep x (fun y hy => hx y (List.mem_cons_of_mem ph hy)) (held_later h (hx ph List.mem_cons_self))

/-- A segment is read right exactly when its sectors are whole; and where every header
fits and spares the earlier ones, every segment is in the memory at the call of the entry. -/
theorem boot_segments (disk : Disk) (stack : Bytes) (m : Memory)
    (hmagic : word (view disk stack) 0 4 = elfMagic)
    (hfits : ∀ ph ∈ headers (view disk stack), Fits ph)
    (hspares : (headers (view disk stack)).Pairwise Spares) :
    (∀ pa offset size, Loads pa offset size ↔ Whole pa offset.toNat size.toNat) ∧
    ∃ fuel m', loadmain disk stack fuel m = some m' ∧
      ∀ ph ∈ headers (view disk stack), Held disk ph m' := by
  obtain ⟨fuel, hfuel⟩ := exists_gt (2^23)
  obtain ⟨m', hrun, hheld, -⟩ := held_headers hfuel _ hfits hspares m
  refine ⟨loads_iff, fuel, m', ?_, hheld⟩
  rw [loadmain, if_neg (not_not.mpr hmagic)]
  exact hrun

end Headers

/-- A disk with a kernel of one segment. -/
def kernelDisk : Disk :=
  putWord elfOffset 4 elfMagic (putWord (elfOffset+32) 8 64 (putWord (elfOffset+56) 2 1
    (putWord (elfOffset+72) 8 512 (putWord (elfOffset+88) 8 0xffffffff80100000
      (putWord (elfOffset+96) 8 1024 (putWord (elfOffset+104) 8 1500 fun _ => 0))))))

theorem boot_segments_kernel : ∃ fuel m', loadmain kernelDisk (fun _ => 0) fuel (fun _ => 0) = some m' ∧
    Held kernelDisk ⟨512, 0xffffffff80100000, 1024, 1500⟩ m' := by
  have hheaders : headers (view kernelDisk fun _ => 0) = [⟨512, 0xffffffff80100000, 1024, 1500⟩] := by
    decide +kernel
  obtain ⟨-, fuel, m', hrun, hheld⟩ := boot_segments kernelDisk (fun _ => 0) (fun _ => 0) (by decide +kernel)
    (by
      rw [hheaders]
      intro ph hph
      obtain rfl := List.mem_singleton.mp hph
      exact ⟨Or.inr ⟨by decide, by decide, Or.inr ⟨by decide, by decide⟩⟩, by decide⟩)
    (by
      rw [hheaders]
      exact List.pairwise_singleton _ _)
  rw [hheaders] at hheld
  exact ⟨fuel, m', hrun, hheld _ (List.mem_singleton_self _)⟩

/-- The sector of the first byte is counted as if the segment began at its start. -/
theorem segment_cut : ¬ ∀ pa offset size, Loads pa offset size := by
  intro hall
  have hwhole := (loads_iff 0x100000 400 200).mp (hall 0x100000 400 200)
  revert hwhole
  rw [Whole]
  decide

end BabyOS.BootLoader

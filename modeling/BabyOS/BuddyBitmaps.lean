import BabyOS.BuddyBoot

/-!
# The sizes of the bitmaps

`init_pages` and `init_bitmap` on usable memory of any 64-bit extent, and the bits that
the allocator flips for the pages of it. The sizes are right for memory that ends less
than 4 GiB above the page records.
-/

set_option autoImplicit false

namespace BabyOS.BuddyBitmaps
open BabyOS.BuddyMachine BabyOS.BuddyArithmetic BabyOS.BuddyBoot

/-! ## The sizes -/

/-- `page_num` for usable memory up to `last`. -/
def pageNum (last : ℕ) : ℕ := (last+pageSize-1) % 2 ^ 64 / pageSize % 2 ^ 32

def pagesSize (last : ℕ) : ℕ := pageNum last*24 % 2 ^ 32

/-- `m_start_pa` when `init_bitmap` reads it. -/
def bitmapStart (start last : ℕ) : ℕ := (start+pagesSize last) % 2 ^ 64

def bitmapEnd (last i : ℕ) : ℕ := last &&& pageMask (i+1)

def bitmapBytes (start last i : ℕ) : ℕ :=
  let span := (bitmapEnd last i+2 ^ 64-bitmapStart start last) % 2 ^ 64
  let bytes := ((span % 2 ^ 32) >>> (pageShift+i)+7) >>> 3
  (bytes+3) / 4*4

/-- What the bitmaps of the orders below `k` take. -/
def bitmapsSize (start last : ℕ) : ℕ → ℕ
  | 0 => 0
  | k+1 => bitmapsSize start last k+bitmapBytes start last k

/-- `m_free_area.base`. -/
def base (start last : ℕ) : ℕ :=
  ((bitmapStart start last+bitmapsSize start last (maxOrder+1)) % 2 ^ 64+(Layout.blockSize-1)) % 2 ^ 64 &&&
    pageMask maxOrder

/-- The bit of a page in the bitmap of order `k`. -/
def bitIndex (base addr k : ℕ) : ℕ := mapNr (addr-base) >>> (1+k)

/-- An address in a whole block of the largest order above the bitmaps. -/
def Usable (start last addr : ℕ) : Prop :=
  base start last ≤ addr ∧ addr / Layout.blockSize*Layout.blockSize+Layout.blockSize ≤ last

instance (start last addr : ℕ) : Decidable (Usable start last addr) :=
  inferInstanceAs (Decidable (_ ∧ _))

/-- No size overflows, and every page has its record and its bits. -/
structure LargeEnough (start last : ℕ) : Prop where
  pages : (last+pageSize-1) / pageSize < 2 ^ 32 ∧ pageNum last*24 < 2 ^ 32
  spans : ∀ k ≤ maxOrder, bitmapStart start last ≤ bitmapEnd last k ∧
    bitmapEnd last k-bitmapStart start last < 2 ^ 32
  record : ∀ addr, Usable start last addr → mapNr addr < pageNum last
  bit : ∀ k ≤ maxOrder, ∀ addr, Usable start last addr →
    bitIndex (base start last) addr k < 8*bitmapBytes start last k

/-- The page records take less than 4 GiB, the memory ends less than 4 GiB above them, and
not in the first 4 MiB, seen in whole 8 MiB, if it has a block at all. -/
def Moderate (start last : ℕ) : Prop :=
  let records := start+(last+4095) / 4096*24
  let whole := last / 2 ^ 23*2 ^ 23
  (last+4095) / 4096*24 < 2 ^ 32 ∧ records ≤ whole ∧ last / 2 ^ 13*2 ^ 13 < records+2 ^ 32 ∧
    (records+2 ^ 22 ≤ whole ∨ last < base start last+2 ^ 22)

instance (start last : ℕ) : Decidable (Moderate start last) := by
  unfold Moderate
  infer_instance

section Sizes

variable {start last addr k : ℕ}

theorem bitmapEnd_eq (hlast : last < 2 ^ 64) (hk : k ≤ maxOrder) :
    bitmapEnd last k = last / 2 ^ (13+k)*2 ^ (13+k) := by
  have hshift : pageShift+(k+1) = 13+k := by
    rw [pageShift]
    omega
  have hle : 13+k ≤ 64 := by
    rw [maxOrder] at hk
    omega
  rw [bitmapEnd, land_pageMask _ _ hlast (by omega), blockAddr, hshift]

/-- The more is cut off, the coarser the rounding. -/
theorem floor_le {a b : ℕ} (ha : 0 < a) (h : a ∣ b) (x : ℕ) : x / b*b ≤ x / a*a := by
  obtain ⟨c, rfl⟩ := h
  have hle : x / (a*c)*c ≤ x / a := by
    rw [Nat.le_div_iff_mul_le ha, mul_assoc, mul_comm c a]
    exact Nat.div_mul_le_self _ _
  calc x / (a*c)*(a*c) = x / (a*c)*c*a := by ring
    _ ≤ x / a*a := Nat.mul_le_mul_right _ hle

theorem bitmapEnd_between (hlast : last < 2 ^ 64) (hk : k ≤ maxOrder) :
    last / 2 ^ 23*2 ^ 23 ≤ bitmapEnd last k ∧ bitmapEnd last k ≤ last / 2 ^ 13*2 ^ 13 := by
  rw [bitmapEnd_eq hlast hk]
  rw [maxOrder] at hk
  exact ⟨floor_le (by positivity) (pow_dvd_pow 2 (by omega)) last,
    floor_le (by positivity) (pow_dvd_pow 2 (by omega)) last⟩

theorem pageNum_of_fit (hpages : (last+4095) / 4096*24 < 2 ^ 32) : pageNum last = (last+4095) / 4096 := by
  have hsize : pageSize = 4096 := rfl
  rw [pageNum, hsize]
  omega

theorem bitmapStart_of_fit (hpages : (last+4095) / 4096*24 < 2 ^ 32) (hstart : start ≤ last) :
    bitmapStart start last = start+(last+4095) / 4096*24 := by
  rw [bitmapStart, pagesSize, pageNum_of_fit hpages, Nat.mod_eq_of_lt hpages, Nat.mod_eq_of_lt (by omega)]

theorem bitmapBytes_le (start last k : ℕ) : bitmapBytes start last k ≤ 2 ^ 18 := by
  have hspan : (bitmapEnd last k+2 ^ 64-bitmapStart start last) % 2 ^ 64 % 2 ^ 32 < 2 ^ 32 :=
    Nat.mod_lt _ (by norm_num)
  simp only [bitmapBytes, Nat.shiftRight_eq_div_pow]
  generalize (bitmapEnd last k+2 ^ 64-bitmapStart start last) % 2 ^ 64 % 2 ^ 32 = span at hspan ⊢
  have hshift : span / 2 ^ (pageShift+k) ≤ span / 2 ^ 12 :=
    Nat.div_le_div_left (Nat.pow_le_pow_right (by norm_num) (by simp [pageShift])) (by norm_num)
  omega

theorem bitmapsSize_le (start last k : ℕ) : bitmapsSize start last k ≤ k*2 ^ 18 := by
  induction k with
  | zero => exact le_rfl
  | succ k ih =>
    have := bitmapBytes_le start last k
    rw [bitmapsSize]
    omega

/-- The base is the first aligned address after the bitmaps. -/
theorem base_of_fit (hpages : (last+4095) / 4096*24 < 2 ^ 32) (hstart : start ≤ last) :
    ∃ b, base start last = b*2 ^ 22 ∧ start+(last+4095) / 4096*24 ≤ base start last := by
  have hsize := bitmapsSize_le start last (maxOrder+1)
  rw [maxOrder] at hsize
  have hblock : Layout.blockSize = 2 ^ 22 := by decide
  have hsmall : bitmapStart start last+bitmapsSize start last (maxOrder+1) < 2 ^ 62 := by
    rw [bitmapStart_of_fit hpages hstart, maxOrder]
    omega
  have hshift : pageShift+maxOrder = 22 := rfl
  rw [base, hblock, Nat.mod_eq_of_lt (by omega), Nat.mod_eq_of_lt (by omega),
    land_pageMask _ _ (by omega) (by decide), blockAddr, hshift, ← bitmapStart_of_fit hpages hstart]
  refine ⟨_, rfl, ?_⟩
  omega

/-- The bytes of a bitmap whose span fits in 32 bits. -/
theorem bitmapBytes_of_fit (hle : bitmapStart start last ≤ bitmapEnd last k)
    (hspan : bitmapEnd last k-bitmapStart start last < 2 ^ 32) :
    bitmapBytes start last k =
      (((bitmapEnd last k-bitmapStart start last) / 2 ^ (pageShift+k)+7) / 8+3) / 4*4 := by
  have htrue : (bitmapEnd last k+2 ^ 64-bitmapStart start last) % 2 ^ 64 % 2 ^ 32 =
      bitmapEnd last k-bitmapStart start last := by omega
  simp only [bitmapBytes, htrue, Nat.shiftRight_eq_div_pow]

/-- The number of a bit in the code's terms, as a quotient. -/
theorem bitIndex_eq (b : ℕ) (addr k : ℕ) : bitIndex b addr k = (addr-b) / 2 ^ (pageShift+(k+1)) := by
  rw [bitIndex, mapNr, ← Nat.shiftRight_add, Nat.shiftRight_eq_div_pow, Nat.add_comm 1 k]

/-- A pair of blocks of size `d` between `p` and `e` has its bit in the bitmap for `e-p`. -/
theorem bit_of_pair {p b e d off : ℕ} (hd : 0 < d) (hp : p ≤ b) (he : b+(off / (2*d)+1)*(2*d) ≤ e) :
    off / (2*d) < 8*((((e-p) / d+7) / 8+3) / 4*4) := by
  have hq : 2*(off / (2*d)+1) ≤ (e-p) / d := by
    rw [Nat.le_div_iff_mul_le hd]
    have hcomm : 2*(off / (2*d)+1)*d = (off / (2*d)+1)*(2*d) := by ring
    omega
  generalize (e-p) / d = q at hq ⊢
  omega

/-- What is aligned stays below an end that is rounded down. -/
theorem le_floor {x e d c : ℕ} (hd : 0 < d) (hx : x = c*d) (hle : x ≤ e) : x ≤ e / d*d := by
  rw [hx] at hle ⊢
  exact Nat.mul_le_mul_right d ((Nat.le_div_iff_mul_le hd).mpr hle)

theorem bit_of_block {addr b last p k : ℕ} (hk : k < maxOrder) (hp : p ≤ b*2 ^ 22) (hb : b*2 ^ 22 ≤ addr)
    (hlast : addr / 2 ^ 22*2 ^ 22+2 ^ 22 ≤ last) :
    (addr-b*2 ^ 22) / 2 ^ (13+k) <
      8*((((last / 2 ^ (13+k)*2 ^ (13+k)-p) / 2 ^ (12+k)+7) / 8+3) / 4*4) := by
  have hblock : b*2 ^ 22+((addr-b*2 ^ 22) / 2 ^ 22+1)*2 ^ 22 ≤ last := by
    obtain ⟨off, rfl⟩ := Nat.exists_eq_add_of_le hb
    rw [mul_comm b, Nat.mul_add_div (by norm_num)] at hlast
    rwa [Nat.add_sub_cancel_left, ← Nat.add_mul, ← Nat.add_assoc, Nat.add_mul (b+_), one_mul]
  have htwice : 2 ^ (13+k) = 2*2 ^ (12+k) := by
    rw [← pow_succ']
    congr 1
    omega
  obtain ⟨c, hc⟩ : ∃ c, 2 ^ 22 = c*2 ^ (13+k) := by
    refine ⟨2 ^ (9-k), ?_⟩
    rw [maxOrder] at hk
    rw [← pow_add]
    congr 1
    omega
  rw [htwice]
  apply bit_of_pair (by positivity) hp
  rw [← htwice]
  have hpos : 0 < 2 ^ (13+k) := by positivity
  -- the pair ends no later than the largest block of the page
  have hpair : (addr-b*2 ^ 22) / 2 ^ (13+k)+1 ≤ ((addr-b*2 ^ 22) / 2 ^ 22+1)*c := by
    have hlt : (addr-b*2 ^ 22) / 2 ^ (13+k) < ((addr-b*2 ^ 22) / 2 ^ 22+1)*c := by
      rw [Nat.div_lt_iff_lt_mul hpos, mul_assoc, ← hc]
      omega
    exact hlt
  have hend : ((addr-b*2 ^ 22) / 2 ^ (13+k)+1)*2 ^ (13+k) ≤ ((addr-b*2 ^ 22) / 2 ^ 22+1)*2 ^ 22 := by
    calc ((addr-b*2 ^ 22) / 2 ^ (13+k)+1)*2 ^ (13+k)
        ≤ ((addr-b*2 ^ 22) / 2 ^ 22+1)*c*2 ^ (13+k) := Nat.mul_le_mul_right _ hpair
      _ = ((addr-b*2 ^ 22) / 2 ^ 22+1)*2 ^ 22 := by rw [mul_assoc, ← hc]
  apply le_floor (c := b*c+((addr-b*2 ^ 22) / 2 ^ (13+k)+1)) hpos
  · rw [Nat.add_mul (b*c), mul_assoc b c, ← hc]
  · exact (Nat.add_le_add_left hend _).trans hblock

/-- The same for the largest blocks, two of which need not lie below the end. -/
theorem bit_of_top {addr b last p : ℕ} (hp : p ≤ b*2 ^ 22) (hb : b*2 ^ 22 ≤ addr)
    (hlast : addr / 2 ^ 22*2 ^ 22+2 ^ 22 ≤ last) (hroom : p+2 ^ 22 ≤ last / 2 ^ 23*2 ^ 23) :
    (addr-b*2 ^ 22) / 2 ^ 23 < 8*((((last / 2 ^ 23*2 ^ 23-p) / 2 ^ 22+7) / 8+3) / 4*4) := by
  have hcount : (addr-b*2 ^ 22) / 2 ^ 22 ≤ (last / 2 ^ 23*2 ^ 23-p) / 2 ^ 22 := by omega
  have hone : 1 ≤ (last / 2 ^ 23*2 ^ 23-p) / 2 ^ 22 := by omega
  have hhalf : (addr-b*2 ^ 22) / 2 ^ 23 = (addr-b*2 ^ 22) / 2 ^ 22 / 2 := by
    rw [Nat.div_div_eq_div_mul, ← pow_succ]
  rw [hhalf]
  generalize (addr-b*2 ^ 22) / 2 ^ 22 = i at hcount ⊢
  generalize (last / 2 ^ 23*2 ^ 23-p) / 2 ^ 22 = q at hcount hone ⊢
  omega

theorem largeEnough_of (hstart : start ≤ last) (h : Moderate start last) : LargeEnough start last := by
  obtain ⟨hpages, hlow, hhigh, hroom⟩ := h
  have hlast : last < 2 ^ 64 := by omega
  have hnum := pageNum_of_fit hpages
  have hrecords := bitmapStart_of_fit hpages hstart
  obtain ⟨b, hb, hbase⟩ := base_of_fit hpages hstart
  have hblock : Layout.blockSize = 2 ^ 22 := by decide
  have hsize : pageSize = 4096 := rfl
  have hspans : ∀ k ≤ maxOrder, bitmapStart start last ≤ bitmapEnd last k ∧
      bitmapEnd last k-bitmapStart start last < 2 ^ 32 := by
    intro k hk
    obtain ⟨hlo, hhi⟩ := bitmapEnd_between hlast hk
    rw [hrecords]
    omega
  refine ⟨?_, hspans, fun addr haddr => ?_, fun k hk addr haddr => ?_⟩
  · rw [hnum, hsize]
    omega
  · obtain ⟨-, hend⟩ := haddr
    rw [hblock] at hend
    rw [hnum, mapNr_eq, frameOf, hsize]
    omega
  · obtain ⟨hge, hend⟩ := haddr
    rw [hblock] at hend
    obtain ⟨hle, hspan⟩ := hspans k hk
    rw [bitIndex_eq, bitmapBytes_of_fit hle hspan, bitmapEnd_eq hlast hk, hrecords]
    rw [hb] at hge hbase hroom ⊢
    have hshift : pageShift+(k+1) = 13+k := by
      rw [pageShift]
      omega
    rw [hshift]
    by_cases hk10 : k < maxOrder
    · exact bit_of_block hk10 hbase hge hend
    · obtain rfl : k = maxOrder := by omega
      exact bit_of_top hbase hge hend (hroom.resolve_right (by omega))

theorem moderate_of (hstart : start ≤ last) (hlast : last < 2 ^ 64) (h : LargeEnough start last) :
    Moderate start last := by
  obtain ⟨⟨hnum, hbytes⟩, hspans, -, hbit⟩ := h
  have hsize : pageSize = 4096 := rfl
  have hpages : (last+4095) / 4096*24 < 2 ^ 32 := by
    rw [hsize] at hnum
    rw [pageNum, hsize] at hbytes
    omega
  have hrecords := bitmapStart_of_fit hpages hstart
  obtain ⟨b, hb, hbase⟩ := base_of_fit hpages hstart
  have htop := hspans maxOrder le_rfl
  have hbottom := hspans 0 (Nat.zero_le _)
  rw [hrecords, bitmapEnd_eq hlast le_rfl] at htop
  rw [hrecords, bitmapEnd_eq hlast (Nat.zero_le _)] at hbottom
  have hexp : 13+maxOrder = 23 := rfl
  rw [hexp] at htop
  refine ⟨hpages, htop.1, by omega, ?_⟩
  by_contra hc
  rw [not_or] at hc
  -- the one block that there is has no bit
  have hblock : Layout.blockSize = 2 ^ 22 := by decide
  have husable : Usable start last (base start last) := by
    refine ⟨le_rfl, ?_⟩
    rw [hblock, hb, Nat.mul_div_cancel _ (by norm_num), ← hb]
    omega
  have hlt := hbit maxOrder le_rfl _ husable
  obtain ⟨hle, hspan⟩ := hspans maxOrder le_rfl
  rw [bitmapBytes_of_fit hle hspan, hrecords, bitmapEnd_eq hlast le_rfl, hexp] at hlt
  have hshift : pageShift+maxOrder = 22 := rfl
  rw [hshift] at hlt
  omega

/-- The bitmaps and the page records are large enough just when the memory is moderate. -/
theorem largeEnough_iff (hstart : start ≤ last) (hlast : last < 2 ^ 64) :
    LargeEnough start last ↔ Moderate start last :=
  ⟨moderate_of hstart hlast, largeEnough_of hstart⟩

theorem largeEnough_small : LargeEnough 0x200000 0x4000000 :=
  (largeEnough_iff (by decide) (by decide)).mpr (by decide +kernel)

/-- With 8 GiB the bitmap of order 0 has no bit for the last page. -/
theorem last_page_unmapped : ¬ LargeEnough 0x200000 0x200000000 := by
  intro h
  have hlt := h.bit 0 (by decide) 0x1fffff000 (by decide +kernel)
  exact absurd hlt (by decide +kernel)

end Sizes

/-! ## The machine -/

section Machine

variable {L : Layout}

theorem pageNum_layout (L : Layout) : L.pageNum = pageNum L.endUsable := by
  have hend := endUsable_le L
  have hsize : pageSize = 4096 := rfl
  rw [Layout.pageNum, pageNum, Nat.mod_eq_of_lt (b := 2 ^ 64) (by omega)]

theorem bitmapStart_layout (L : Layout) : L.bitmapStart = bitmapStart L.startUsable L.endUsable := by
  have hstart := L.start_physical
  have hsize : pagesSize L.endUsable < 2 ^ 32 := Nat.mod_lt _ (by norm_num)
  rw [Layout.bitmapStart, Layout.pagesSize, pageNum_layout, bitmapStart, ← pagesSize,
    Nat.mod_eq_of_lt (by omega)]

theorem bitmapBytes_layout (L : Layout) (k : ℕ) :
    L.bitmapBytes k = bitmapBytes L.startUsable L.endUsable k := by
  simp only [Layout.bitmapBytes, bitmapBytes, bitmapStart_layout, Layout.bitmapEnd, bitmapEnd]
  rw [Nat.mod_mod_of_dvd _ (pow_dvd_pow 2 (by norm_num))]

theorem bitmapBit_layout (L : Layout) (k : ℕ) :
    L.bitmapBit k = 8*bitmapsSize L.startUsable L.endUsable k := by
  induction k with
  | zero => rfl
  | succ k ih => rw [Layout.bitmapBit, bitmapsSize, ih, bitmapBytes_layout, Nat.mul_add]

theorem base_layout (L : Layout) : (geometry L).base = base L.startUsable L.endUsable := by
  have hmem := memStart_lt L
  have hblock : Layout.blockSize = 2 ^ 22 := by decide
  change Layout.alignUp L.memStart = _
  rw [Layout.alignUp, base, ← bitmapStart_layout]
  rw [Layout.memStart, bitmapBit_layout, Nat.mul_div_cancel_left _ (by norm_num)] at hmem ⊢
  rw [Nat.mod_eq_of_lt (b := 2 ^ 64) (by omega), Nat.mod_eq_of_lt (b := 2 ^ 64) (by omega)]

/-- The allocator that boots with sizes that are large enough has them for every page that
it manages. -/
theorem fit_largeEnough (h : LargeEnough L.startUsable L.endUsable) : PagesFit L ∧ BitmapsFit L := by
  have hp : PagesFit L := by
    obtain ⟨hnum, hbytes⟩ := h.pages
    have hend := endUsable_le L
    have hsize : pageSize = 4096 := rfl
    rw [PagesFit]
    rw [pageNum, hsize] at hbytes
    rw [hsize] at hnum ⊢
    omega
  refine ⟨hp, fun f hf k hk => ?_⟩
  obtain ⟨s, top, hs, hboot⟩ := init_total hp
  obtain ⟨hbase, hend⟩ := hboot.page ((managed_iff hs f).mp hf)
  have husable : Usable L.startUsable L.endUsable (f*pageSize) := by
    refine ⟨by rwa [← base_layout], ?_⟩
    have hsize : pageSize = 4096 := rfl
    have hindex : f*4096 / 4194304 = f / 2 ^ maxOrder := by
      rw [maxOrder]
      omega
    rwa [blockSize_eq, hsize, hindex, ← topBlock]
  have hbit := h.bit k hk.le _ husable
  have hpage : f*pageSize / 2 ^ (pageShift+(k+1)) = f / 2 ^ (k+1) := by
    rw [pow_add, ← Nat.div_div_eq_div_mul]
    exact congrArg (· / 2 ^ (k+1)) (Nat.mul_div_cancel f (by decide))
  rwa [← base_layout, bitIndex, pair_index (geometry L).aligned hk, hpage, ← bitmapBytes_layout] at hbit

end Machine

end BabyOS.BuddyBitmaps

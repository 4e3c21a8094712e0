import BabyOS.AreaMachine
import BabyOS.ByteWords
import Mathlib.Data.Nat.Log

/-!
# What the loader asks for a segment

The order of the block, the pages that are mapped to it and the bytes that are
stored through the direct mapping all follow from the program header. The number
of pages is passed to the integer logarithm as a 32-bit int.
-/

set_option autoImplicit false

namespace BabyOS.ElfSegments
open BabyOS.BuddyMachine BabyOS.AreaMachine BabyOS.ByteWords

/-- A file of the disk: its inode has room for fewer than 2^31 bytes. -/
structure File where
  size : ℕ
  bytes : Bytes
  small : size < 2^31

/-- A program header, with the widths of its fields. -/
structure Phdr where
  type : ℕ
  flags : ℕ
  offset : ℕ
  vaddr : ℕ
  filesz : ℕ
  memsz : ℕ
  vaddr_lt : vaddr < 2^64
  filesz_lt : filesz < 2^64
  memsz_lt : memsz < 2^64

/-- `read_file_from`: whether it succeeds, and the bytes that reach the buffer. The count
of `do_read` is 32 bits wide. -/
def readFileFrom (file : File) (offset size : ℕ) : Bool × ℕ :=
  if file.size < offset then (false, 0)
  else
    let nbyte := min (size%2^32) (file.size-offset)
    (decide (nbyte = size), nbyte)

/-- `math_t::log(2, n)`; the product wraps. -/
def logFrom : ℕ → BitVec 32 → ℕ → BitVec 32 → Option ℕ
  | 0, _, _, _ => none
  | fuel+1, num, ret, n => if num.slt n then logFrom fuel (num*2) (ret+1) n else some ret

def log (fuel : ℕ) (n : BitVec 32) : Option ℕ := logFrom fuel 1 0 n

/-- The part of the address behind its page. -/
def inPage (ph : Phdr) : ℕ := ph.vaddr%pageSize

/-- `len / PAGE_SIZE`; `len` wraps. -/
def pages (ph : Phdr) : ℕ := pageAlign (ph.memsz+inPage ph)/pageSize

/-- A block of an order, the pages mapped to it from its first frame on, and the stores to
the direct mapping, each by its first byte counted from the block and its length. -/
structure Request where
  order : ℕ
  mapped : ℕ
  writes : List (ℕ × ℕ)

/-- The result, the areas, and the request once the areas have been made. -/
structure Answer where
  ret : ℤ
  areas : Areas
  request : Option Request

/-- `load_elf_segment`, without the allocation and the page tables; `none` while the logarithm runs. -/
def loadElfSegment (fuel : ℕ) (l : Areas) (file : File) (ph : Phdr) : Option Answer :=
  match AreaMachine.loadElfSegment l ⟨ph.vaddr, ph.memsz⟩ with
  | none => some ⟨-1, l, none⟩
  | some l' =>
    match log fuel (BitVec.ofNat 32 (pages ph)) with
    | none => none
    | some order =>
      let read := readFileFrom file ph.offset ph.filesz
      if read.1 = false then some ⟨-1, l', some ⟨order, pages ph, [(inPage ph, read.2)]⟩⟩
      else if ph.memsz > ph.filesz then
        some ⟨0, l', some ⟨order, pages ph,
          [(inPage ph, read.2), (inPage ph+ph.filesz, ph.memsz-ph.filesz)]⟩⟩
      else some ⟨0, l', some ⟨order, pages ph, [(inPage ph, read.2)]⟩⟩

/-- The request stays inside its block. -/
structure Request.Inside (r : Request) : Prop where
  order : r.order ≤ maxOrder
  mapped : r.mapped ≤ 2^r.order
  writes : ∀ w ∈ r.writes, w.2 = 0 ∨ w.1+w.2 ≤ 2^r.order*pageSize

/-- The segment is either rejected or stays inside the frames that it is given. -/
def Contained (l : Areas) (file : File) (ph : Phdr) : Prop :=
  ∃ fuel a, loadElfSegment fuel l file ph = some a ∧
    (a.ret ≠ -1 → ∃ r, a.request = some r ∧ r.Inside)

/-- At most 1024 pages, and the bytes of the file and of the memory end in the block. -/
def Fits (ph : Phdr) : Prop :=
  pages ph ≤ 2^maxOrder ∧ inPage ph+max ph.filesz ph.memsz ≤ 2^Nat.clog 2 (pages ph)*pageSize

/-- The file holds all the bytes. -/
def Has (file : File) (offset size : ℕ) : Prop := offset ≤ file.size ∧ size ≤ file.size-offset

/-- The number of pages, as an int, is above the largest power of two of an int. -/
def Endless (ph : Phdr) : Prop := 2^30 < pages ph%2^32 ∧ pages ph%2^32 < 2^31

/-! ## The logarithm -/

theorem slt_iff {a b : BitVec 32} (ha : a.toNat < 2^31) (hb : b.toNat < 2^31) :
    a.slt b = true ↔ a.toNat < b.toNat := by
  rw [BitVec.slt_iff_toInt_lt, BitVec.toInt_eq_toNat_of_lt (by omega), BitVec.toInt_eq_toNat_of_lt (by omega)]
  omega

theorem slt_negative {a b : BitVec 32} (ha : a.toNat < 2^31) (hb : 2^31 ≤ b.toNat) : a.slt b = false := by
  have hlt := b.isLt
  rw [BitVec.slt_eq_decide, decide_eq_false_iff_not, BitVec.toInt_eq_toNat_of_lt (by omega),
    BitVec.toInt_eq_toNat_cond, if_neg (by omega)]
  omega

theorem power_toNat {k : ℕ} (hk : k ≤ 30) : (BitVec.ofNat 32 (2^k)).toNat = 2^k := by
  have hle : 2^k ≤ 2^30 := Nat.pow_le_pow_right (by decide) hk
  rw [BitVec.toNat_ofNat]
  exact Nat.mod_eq_of_lt (by omega)

theorem power_double (k : ℕ) : BitVec.ofNat 32 (2^k)*2 = BitVec.ofNat 32 (2^(k+1)) := by
  rw [pow_succ, BitVec.ofNat_mul]
  rfl

/-- The loop stops at the first power of two that is not below `n`. -/
theorem logFrom_eq {n : BitVec 32} {k fuel : ℕ} (hn : n.toNat ≤ 2^30) (hk : k ≤ Nat.clog 2 n.toNat)
    (hfuel : Nat.clog 2 n.toNat < fuel+k) :
    logFrom fuel (BitVec.ofNat 32 (2^k)) k n = some (Nat.clog 2 n.toNat) := by
  have htop : Nat.clog 2 n.toNat ≤ 30 := Nat.clog_le_of_le_pow hn
  induction fuel generalizing k with
  | zero => omega
  | succ fuel ih =>
    have hnum := power_toNat (hk.trans htop)
    have hnum_lt : (BitVec.ofNat 32 (2^k)).toNat < 2^31 := by
      have hle : 2^k ≤ 2^30 := Nat.pow_le_pow_right (by decide) (hk.trans htop)
      omega
    have hstep := slt_iff hnum_lt (by omega : n.toNat < 2^31)
    rw [hnum, ← Nat.lt_clog_iff_pow_lt (by decide)] at hstep
    rw [logFrom]
    by_cases hlt : k < Nat.clog 2 n.toNat
    · rw [if_pos (hstep.mpr hlt), power_double]
      exact ih hlt (by omega)
    · rw [if_neg fun hc => hlt (hstep.mp hc), Nat.le_antisymm hk (Nat.le_of_not_lt hlt)]

theorem log_eq {n : BitVec 32} (hn : n.toNat ≤ 2^30) {fuel : ℕ} (hfuel : 30 < fuel) :
    log fuel n = some (Nat.clog 2 n.toNat) := by
  have htop : Nat.clog 2 n.toNat ≤ 30 := Nat.clog_le_of_le_pow hn
  exact logFrom_eq (k := 0) hn (Nat.zero_le _) (by omega)

/-- A negative number has the logarithm 0. -/
theorem log_negative {n : BitVec 32} (hn : 2^31 ≤ n.toNat) {fuel : ℕ} (hfuel : 0 < fuel) :
    log fuel n = some 0 := by
  obtain ⟨fuel, rfl⟩ := Nat.exists_eq_succ_of_ne_zero (Nat.ne_of_gt hfuel)
  rw [log, logFrom, slt_negative (by decide) hn]
  rfl

/-- Every power of two, as an int, is below such a number: the last one is negative, and
then comes zero. -/
theorem power_slt {n : BitVec 32} (hlow : 2^30 < n.toNat) (hhigh : n.toNat < 2^31) (k : ℕ) :
    (BitVec.ofNat 32 (2^k)).slt n = true := by
  rcases Nat.lt_or_ge 31 k with hlarge | hk
  · have hzero : BitVec.ofNat 32 (2^k) = 0 := by
      obtain ⟨j, rfl⟩ := Nat.exists_eq_add_of_lt hlarge
      apply BitVec.eq_of_toNat_eq
      rw [BitVec.toNat_ofNat, Nat.add_assoc, Nat.add_comm j 1, ← Nat.add_assoc, pow_add]
      exact Nat.mul_mod_right _ _
    rw [hzero, slt_iff (by decide) hhigh]
    exact Nat.lt_trans (by decide) hlow
  · rcases Nat.lt_or_eq_of_le hk with hk | rfl
    · have hnum := power_toNat (Nat.le_of_lt_succ hk)
      have hle : 2^k ≤ 2^30 := Nat.pow_le_pow_right (by decide) (Nat.le_of_lt_succ hk)
      rw [slt_iff (by omega) hhigh, hnum]
      omega
    · rw [BitVec.slt_iff_toInt_lt, BitVec.toInt_eq_toNat_of_lt (x := n) (by omega)]
      have hmin : (BitVec.ofNat 32 (2^31)).toInt = -2^31 := by decide
      rw [hmin]
      omega

theorem log_endless {n : BitVec 32} (hlow : 2^30 < n.toNat) (hhigh : n.toNat < 2^31) (fuel : ℕ) :
    log fuel n = none := by
  have hall : ∀ fuel k ret, logFrom fuel (BitVec.ofNat 32 (2^k)) ret n = none := by
    intro fuel
    induction fuel with
    | zero => exact fun _ _ => rfl
    | succ fuel ih =>
      intro k ret
      rw [logFrom, if_pos (power_slt hlow hhigh k), power_double]
      exact ih (k+1) (ret+1)
  exact hall fuel 0 0

theorem logFrom_more {fuel ret order : ℕ} {num n : BitVec 32} (h : logFrom fuel num ret n = some order)
    (more : ℕ) : logFrom (fuel+more) num ret n = some order := by
  induction fuel generalizing num ret with
  | zero => cases h
  | succ fuel ih =>
    rw [Nat.succ_add, logFrom]
    rw [logFrom] at h
    by_cases hlt : num.slt n = true
    · rw [if_pos hlt] at h ⊢
      exact ih h
    · rw [if_neg hlt] at h ⊢
      exact h

/-- Two runs of the logarithm that end give the same result. -/
theorem log_unique {fuel fuel' order order' : ℕ} {n : BitVec 32} (h : log fuel n = some order)
    (h' : log fuel' n = some order') : order = order' := by
  have hmore := logFrom_more h fuel'
  rw [Nat.add_comm] at hmore
  exact Option.some.inj (hmore.symm.trans (logFrom_more h' fuel))

/-! ## Contained segments -/

section Contained

variable {l l' : Areas} {file : File} {ph : Phdr} {order : ℕ}

theorem readFileFrom_ok : (readFileFrom file ph.offset ph.filesz).1 = true ↔ Has file ph.offset ph.filesz := by
  have hsmall := file.small
  rw [readFileFrom, Has]
  by_cases hseek : file.size < ph.offset
  · rw [if_pos hseek]
    simp only [Bool.false_eq_true, false_iff]
    omega
  · rw [if_neg hseek]
    simp only [decide_eq_true_eq]
    omega

theorem readFileFrom_count (h : Has file ph.offset ph.filesz) :
    (readFileFrom file ph.offset ph.filesz).2 = ph.filesz := by
  have hok := readFileFrom_ok.mpr h
  rw [readFileFrom, if_neg (Nat.not_lt.mpr h.1)] at hok ⊢
  exact of_decide_eq_true hok

/-- The stores of an accepted segment end where the longer of its two lengths does. -/
theorem inside_iff {r : Request}
    (hr : r = ⟨order, pages ph, if ph.memsz > ph.filesz then
      [(inPage ph, ph.filesz), (inPage ph+ph.filesz, ph.memsz-ph.filesz)] else [(inPage ph, ph.filesz)]⟩) :
    r.Inside ↔ order ≤ maxOrder ∧ pages ph ≤ 2^order ∧
      inPage ph+max ph.filesz ph.memsz ≤ 2^order*pageSize := by
  subst hr
  have hpage : inPage ph < pageSize := Nat.mod_lt _ (by decide)
  have hblock : pageSize ≤ 2^order*pageSize := Nat.le_mul_of_pos_left _ (Nat.two_pow_pos order)
  constructor
  · rintro ⟨horder, hmapped, hwrites⟩
    refine ⟨horder, hmapped, ?_⟩
    by_cases hmem : ph.memsz > ph.filesz
    · have hlast := hwrites (inPage ph+ph.filesz, ph.memsz-ph.filesz) (by simp [hmem])
      simp only at hlast
      omega
    · have hlast := hwrites (inPage ph, ph.filesz) (by simp [hmem])
      simp only at hlast
      omega
  · rintro ⟨horder, hmapped, hend⟩
    refine ⟨horder, hmapped, fun w hw => ?_⟩
    by_cases hmem : ph.memsz > ph.filesz
    · simp only [hmem, if_true, List.mem_cons, List.not_mem_nil, or_false] at hw
      rcases hw with rfl | rfl
      · right
        change inPage ph+ph.filesz ≤ 2^order*pageSize
        omega
      · right
        change inPage ph+ph.filesz+(ph.memsz-ph.filesz) ≤ 2^order*pageSize
        omega
    · simp only [hmem, if_false, List.mem_singleton] at hw
      subst hw
      right
      change inPage ph+ph.filesz ≤ 2^order*pageSize
      omega

/-- The order that the number of pages gives, when the logarithm ends. -/
theorem log_pages (hends : ¬ Endless ph) :
    ∃ order, log 31 (BitVec.ofNat 32 (pages ph)) = some order ∧
      (pages ph ≤ 2^maxOrder → order = Nat.clog 2 (pages ph)) := by
  have hn : (BitVec.ofNat 32 (pages ph)).toNat = pages ph%2^32 := BitVec.toNat_ofNat _ _
  by_cases hlow : pages ph%2^32 ≤ 2^30
  · refine ⟨_, log_eq (hn.trans_le hlow) (by decide), fun hsmall => ?_⟩
    have hpages : pages ph ≤ 1024 := hsmall
    rw [hn, Nat.mod_eq_of_lt (by omega)]
  · have hhigh : 2^31 ≤ pages ph%2^32 := Nat.le_of_not_lt fun hc => hends ⟨Nat.lt_of_not_le hlow, hc⟩
    refine ⟨0, log_negative (hhigh.trans_eq hn.symm) (by decide), fun hsmall => ?_⟩
    have hpages : pages ph ≤ 1024 := hsmall
    omega

theorem fits_ends (hfits : Fits ph) : ¬ Endless ph := by
  have hpages : pages ph ≤ 1024 := hfits.1
  rintro ⟨hlow, -⟩
  omega

/-- An accepted segment: `do_mmap` made its areas, the logarithm ended and the file was long enough. -/
theorem accepted_cases {fuel : ℕ} {a : Answer} (hrun : loadElfSegment fuel l file ph = some a)
    (hret : a.ret = 0) : ∃ l' order, AreaMachine.loadElfSegment l ⟨ph.vaddr, ph.memsz⟩ = some l' ∧
      log fuel (BitVec.ofNat 32 (pages ph)) = some order ∧ Has file ph.offset ph.filesz := by
  rw [loadElfSegment] at hrun
  cases hmmap : AreaMachine.loadElfSegment l ⟨ph.vaddr, ph.memsz⟩ with
  | none =>
    rw [hmmap] at hrun
    obtain rfl := Option.some.inj hrun
    cases hret
  | some l' =>
    simp only [hmmap] at hrun
    cases hlog : log fuel (BitVec.ofNat 32 (pages ph)) with
    | none =>
      rw [hlog] at hrun
      cases hrun
    | some order =>
      refine ⟨l', order, rfl, rfl, ?_⟩
      by_contra hhas
      have hok : (readFileFrom file ph.offset ph.filesz).1 = false := by
        rw [Bool.eq_false_iff]
        exact fun hc => hhas (readFileFrom_ok.mp hc)
      simp only [hlog] at hrun
      rw [if_pos hok] at hrun
      obtain rfl := Option.some.inj hrun
      cases hret

/-- What the loader asks for when `do_mmap` has accepted the pages. -/
theorem loadElfSegment_eq {fuel : ℕ} (hmmap : AreaMachine.loadElfSegment l ⟨ph.vaddr, ph.memsz⟩ = some l')
    (hlog : log fuel (BitVec.ofNat 32 (pages ph)) = some order) (hhas : Has file ph.offset ph.filesz) :
    loadElfSegment fuel l file ph = some ⟨0, l', some ⟨order, pages ph, if ph.memsz > ph.filesz then
      [(inPage ph, ph.filesz), (inPage ph+ph.filesz, ph.memsz-ph.filesz)] else [(inPage ph, ph.filesz)]⟩⟩ := by
  have hok : ¬ (readFileFrom file ph.offset ph.filesz).1 = false := by
    rw [readFileFrom_ok.mpr hhas]
    decide
  rw [loadElfSegment, hmmap]
  simp only [hlog]
  rw [if_neg hok, readFileFrom_count hhas]
  split_ifs <;> rfl

theorem loadElfSegment_short {fuel : ℕ} (hmmap : AreaMachine.loadElfSegment l ⟨ph.vaddr, ph.memsz⟩ = some l')
    (hlog : log fuel (BitVec.ofNat 32 (pages ph)) = some order) (hhas : ¬ Has file ph.offset ph.filesz) :
    ∃ a, loadElfSegment fuel l file ph = some a ∧ a.ret = -1 := by
  have hok : (readFileFrom file ph.offset ph.filesz).1 = false := by
    rw [Bool.eq_false_iff]
    exact fun hc => hhas (readFileFrom_ok.mp hc)
  rw [loadElfSegment, hmmap]
  simp only [hlog]
  rw [if_pos hok]
  exact ⟨_, rfl, rfl⟩

/-- The loader never comes back when the logarithm does not end. -/
theorem endless_run (hmmap : AreaMachine.loadElfSegment l ⟨ph.vaddr, ph.memsz⟩ = some l')
    (hends : Endless ph) : ¬ Contained l file ph := by
  rintro ⟨fuel, a, hrun, -⟩
  have hn : (BitVec.ofNat 32 (pages ph)).toNat = pages ph%2^32 := BitVec.toNat_ofNat _ _
  have hnone := log_endless (n := BitVec.ofNat 32 (pages ph)) (hends.1.trans_eq hn.symm)
    (hn.trans_lt hends.2) fuel
  rw [loadElfSegment, hmmap] at hrun
  simp only [hnone] at hrun
  cases hrun

/-- A segment that is accepted and contained has sizes that fit. -/
theorem fits_of_contained (hmmap : AreaMachine.loadElfSegment l ⟨ph.vaddr, ph.memsz⟩ = some l')
    (hhas : Has file ph.offset ph.filesz) (h : Contained l file ph) : Fits ph := by
  have hends : ¬ Endless ph := fun hc => endless_run hmmap hc h
  obtain ⟨order, hlog, horder⟩ := log_pages hends
  obtain ⟨fuel, a, hrun, hinside⟩ := h
  cases hlog' : log fuel (BitVec.ofNat 32 (pages ph)) with
  | none =>
    rw [loadElfSegment, hmmap] at hrun
    simp only [hlog'] at hrun
    cases hrun
  | some order' =>
    obtain rfl := log_unique hlog hlog'
    rw [loadElfSegment_eq hmmap hlog' hhas] at hrun
    obtain rfl := Option.some.inj hrun
    obtain ⟨r, hr, hr'⟩ := hinside (show (0 : ℤ) ≠ -1 by decide)
    obtain ⟨hsmall, hmapped, hend⟩ := (inside_iff (Option.some.inj hr).symm).mp hr'
    have hpages : pages ph ≤ 2^maxOrder := hmapped.trans (Nat.pow_le_pow_right (by decide) hsmall)
    rw [horder hpages] at hend
    exact ⟨hpages, hend⟩

theorem contained_of_fits (hmmap : AreaMachine.loadElfSegment l ⟨ph.vaddr, ph.memsz⟩ = some l')
    (hhas : Has file ph.offset ph.filesz) (hfits : Fits ph) : Contained l file ph := by
  obtain ⟨order, hlog, horder⟩ := log_pages (fits_ends hfits)
  have heq := horder hfits.1
  subst heq
  refine ⟨31, _, loadElfSegment_eq hmmap hlog hhas, fun _ => ⟨_, rfl, (inside_iff rfl).mpr ?_⟩⟩
  exact ⟨Nat.clog_le_of_le_pow hfits.1, Nat.le_pow_clog (by decide) _, hfits.2⟩

end Contained

/-- A segment whose file part is longer than its memory. -/
def overlong : Phdr :=
  ⟨1, 5, 0, 0x400000, 0x2000, 0x1000, by decide, by decide, by decide⟩

def twoPages : File := ⟨0x2000, fun _ => 1, by decide⟩

end BabyOS.ElfSegments

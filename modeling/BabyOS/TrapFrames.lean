import BabyOS.ByteWords

/-!
# Trap frames

The registers as a trap leaves them on the kernel stack, and their copies in the
memory of a process: a frame that was stored is loaded again.
-/

set_option autoImplicit false

namespace BabyOS.TrapFrames
open BabyOS.ByteWords

/-! ## Memory -/

abbrev Mem := BitVec 64 → Byte

/-- The bytes from an address on. -/
def window (m : Mem) (a : BitVec 64) : Bytes := fun j => m (a+BitVec.ofNat 64 j)

/-- `n` bytes are copied to an address. -/
def copyTo (a : BitVec 64) (n : ℕ) (b : Bytes) (m : Mem) : Mem :=
  fun x => if (x-a).toNat < n then b (x-a).toNat else m x

def loadWord (m : Mem) (a : BitVec 64) : BitVec 64 := BitVec.ofNat 64 (word (window m a) 0 8)

/-- A word of `w` bytes. -/
def storeWord (a : BitVec 64) (w v : ℕ) (m : Mem) : Mem := copyTo a w (putWord 0 w v fun _ => 0) m

section Memory

variable {a x : BitVec 64} {n : ℕ} {b : Bytes} {m m' : Mem}

theorem copyTo_other (h : n ≤ (x-a).toNat) : copyTo a n b m x = m x := if_neg (by omega)

theorem window_copyTo {j : ℕ} (hj : j < n) (hn : n ≤ 2^64) : window (copyTo a n b m) a j = b j := by
  have hself : a+BitVec.ofNat 64 j-a = BitVec.ofNat 64 j := by
    rw [BitVec.add_comm, BitVec.add_sub_cancel]
  have hnat : (BitVec.ofNat 64 j).toNat = j := by
    rw [BitVec.toNat_ofNat, Nat.mod_eq_of_lt (by omega)]
  rw [window, copyTo, hself, hnat, if_pos hj]

/-- Bytes that are copied to a place in the window. -/
theorem window_copyTo_at {i j : ℕ} (hi : i+n < 2^32) (hj : j < 2^32) :
    window (copyTo (a+BitVec.ofNat 64 i) n b m) a j = if i ≤ j ∧ j < i+n then b (j-i) else window m a j := by
  have hdiff : (a+BitVec.ofNat 64 j-(a+BitVec.ofNat 64 i)).toNat = if i ≤ j then j-i else 2^64+j-i := by
    have hlt := a.isLt
    rw [BitVec.toNat_sub, BitVec.toNat_add, BitVec.toNat_add, BitVec.toNat_ofNat, BitVec.toNat_ofNat]
    split <;> omega
  rw [window, window, copyTo, hdiff]
  by_cases hij : i ≤ j
  · rw [if_pos hij]
    by_cases hlt : j < i+n
    · rw [if_pos (by omega), if_pos ⟨hij, hlt⟩]
    · rw [if_neg (by omega), if_neg (fun hc => hlt hc.2)]
  · rw [if_neg hij, if_neg (by omega), if_neg (fun hc => hij hc.1)]

theorem window_add (m : Mem) (a : BitVec 64) (i j : ℕ) :
    window m (a+BitVec.ofNat 64 i) j = window m a (i+j) := by
  rw [window, window, BitVec.add_assoc, BitVec.ofNat_add]

theorem loadWord_congr (h : ∀ j < 8, window m a j = window m' a j) : loadWord m a = loadWord m' a := by
  rw [loadWord, loadWord, word_congr (fun j _ hj => h j (by omega))]

theorem loadWord_storeWord (a v : BitVec 64) (m : Mem) : loadWord (storeWord a 8 v.toNat m) a = v := by
  have hword : word (window (storeWord a 8 v.toNat m) a) 0 8 =
      word (putWord 0 8 v.toNat fun _ => 0) 0 8 :=
    word_congr (fun j _ hj => window_copyTo (by omega) (by decide))
  have hlt : v.toNat < 256^8 := v.isLt
  rw [loadWord, hword, word_putWord, Nat.mod_eq_of_lt hlt, BitVec.ofNat_toNat, BitVec.setWidth_eq]

end Memory

/-! ## Frames -/

/-- The fields of `trap_frame_t`. -/
inductive Reg
  | rax | rbx | rcx | rdx | rbp | rsi | rdi
  | r8 | r9 | r10 | r11 | r12 | r13 | r14 | r15
  | trapno | err
  | rip | cs | rflags | rsp | ss
deriving DecidableEq

abbrev TrapFrame := Reg → BitVec 64

/-- The fields in their order. -/
def regs : List Reg := [.rax, .rbx, .rcx, .rdx, .rbp, .rsi, .rdi, .r8, .r9, .r10, .r11, .r12, .r13,
  .r14, .r15, .trapno, .err, .rip, .cs, .rflags, .rsp, .ss]

def regAt (k : ℕ) : Reg := regs.getD k .rax

def Reg.index (r : Reg) : ℕ := regs.idxOf r

/-- `sizeof(trap_frame_t)`. -/
def frameSize : ℕ := 8*22

def frameBytes (f : TrapFrame) : Bytes := putArray 0 8 (fun k => (f (regAt k)).toNat) 22 fun _ => 0

/-- `memcpy` of a frame to an address. -/
def storeFrame (a : BitVec 64) (f : TrapFrame) (m : Mem) : Mem := copyTo a frameSize (frameBytes f) m

def loadFrame (m : Mem) (a : BitVec 64) : TrapFrame :=
  fun r => loadWord m (a+BitVec.ofNat 64 (8*r.index))

section Frames

variable {a : BitVec 64} {m m' : Mem} {r : Reg}

theorem index_lt (r : Reg) : r.index < 22 := by cases r <;> decide

theorem regAt_index (r : Reg) : regAt r.index = r := by cases r <;> rfl

theorem word_frameBytes (f : TrapFrame) (r : Reg) : word (frameBytes f) (8*r.index) 8 = (f r).toNat := by
  have hput := @word_putArray 0 8 22 _ (fun k => (f (regAt k)).toNat) (fun _ => 0) (index_lt r)
  have hlt : (f r).toNat < 256^8 := (f r).isLt
  rw [Nat.zero_add, regAt_index, Nat.mod_eq_of_lt hlt] at hput
  exact hput

theorem word_window (m : Mem) (a : BitVec 64) (i w : ℕ) :
    word (window m (a+BitVec.ofNat 64 i)) 0 w = word (window m a) i w :=
  word_shift (window_add m a i) 0 w

theorem loadFrame_congr (h : ∀ j < frameSize, window m a j = window m' a j) :
    loadFrame m a = loadFrame m' a := by
  funext r
  apply loadWord_congr
  intro j hj
  have hr := index_lt r
  rw [window_add, window_add]
  exact h _ (by rw [frameSize]; omega)

theorem load_store (a : BitVec 64) (f : TrapFrame) (m : Mem) : loadFrame (storeFrame a f m) a = f := by
  funext r
  have hr := index_lt r
  have hword : word (window (storeFrame a f m) a) (8*r.index) 8 = word (frameBytes f) (8*r.index) 8 :=
    word_congr (fun j _ hj => window_copyTo (by rw [frameSize]; omega) (by decide))
  rw [loadFrame, loadWord, word_window, hword, word_frameBytes, BitVec.ofNat_toNat, BitVec.setWidth_eq]

end Frames

end BabyOS.TrapFrames

import BabyOS.TrapFrames

/-!
# Assembly code

The part of the 64-bit machine that hand-written code uses: registers, the flags
that the jumps read, bytes of memory, and a text of labels and instructions. Code
that is written elsewhere is called by name. A total-correctness judgement with a
rule for each form of line is what proofs about a text use.
-/

set_option autoImplicit false

namespace BabyOS.MachineCode
open BabyOS.ByteWords BabyOS.TrapFrames

/-! ## The machine -/

inductive Gpr
  | rax | rbx | rcx | rdx | rbp | rsi | rdi | rsp
  | r8 | r9 | r10 | r11 | r12 | r13 | r14 | r15
deriving DecidableEq

/-- The suffixes of the instructions. -/
inductive Width
  | byte | word | long | quad

def Width.bytes : Width → ℕ
  | .byte => 1
  | .word => 2
  | .long => 4
  | .quad => 8

abbrev Width.bits (w : Width) : ℕ := 8*w.bytes

structure Machine where
  reg : Gpr → BitVec 64
  carry : Bool
  zero : Bool
  sign : Bool
  overflow : Bool
  direction : Bool
  interrupts : Bool
  mem : Mem

/-- `disp(base, index)`. -/
structure Address where
  disp : ℤ
  base : Gpr
  index : Option Gpr := none

inductive Source
  | imm (v : ℤ)
  | reg (r : Gpr)

inductive Alu
  | add | sub | and | cmp | test

inductive Instr
  | mov (w : Width) (src : Source) (dst : Gpr)
  | load (w : Width) (src : Address) (dst : Gpr)
  | store (w : Width) (src : Gpr) (dst : Address)
  | lea (src : Address) (dst : Gpr)
  | alu (op : Alu) (w : Width) (src : Source) (dst : Gpr)
  | cmpAt (w : Width) (v : ℤ) (dst : Address)
  | shr (k : ℕ) (dst : Gpr)
  | push (src : Source)
  | pop (dst : Gpr)
  | repMovsq
  | std
  | cld
  | cli

inductive Cond
  | b | ae | e | ne | ge | g

namespace Machine

def set (m : Machine) (r : Gpr) (v : BitVec 64) : Machine := { m with reg := Function.update m.reg r v }

def read (m : Machine) (w : Width) (r : Gpr) : BitVec w.bits := (m.reg r).setWidth w.bits

/-- A write of 32 bits clears the upper half, one of 8 or 16 bits keeps the rest. -/
def write (m : Machine) : (w : Width) → Gpr → BitVec w.bits → Machine
  | .quad, r, v => m.set r v
  | .long, r, v => m.set r (v.setWidth 64)
  | .word, r, v => m.set r ((m.reg r).extractLsb' 16 48 ++ v)
  | .byte, r, v => m.set r ((m.reg r).extractLsb' 8 56 ++ v)

def source (m : Machine) (w : Width) : Source → BitVec w.bits
  | .imm v => BitVec.ofInt w.bits v
  | .reg r => m.read w r

def address (m : Machine) (a : Address) : BitVec 64 :=
  m.reg a.base+(match a.index with
    | none => 0
    | some r => m.reg r)+BitVec.ofInt 64 a.disp

def loadAt (m : Machine) (w : Width) (a : BitVec 64) : BitVec w.bits :=
  BitVec.ofNat w.bits (word (window m.mem a) 0 w.bytes)

def storeAt (m : Machine) {w : Width} (a : BitVec 64) (v : BitVec w.bits) : Machine :=
  { m with mem := storeWord a w.bytes v.toNat m.mem }

def flags (m : Machine) {n : ℕ} (carry overflow : Bool) (result : BitVec n) : Machine :=
  { m with carry := carry, zero := result == 0, sign := result.msb, overflow := overflow }

def aluFlags (m : Machine) : (op : Alu) → (w : Width) → (src dst : BitVec w.bits) → Machine
  | .add, _, s, d => m.flags (BitVec.uaddOverflow d s) (BitVec.saddOverflow d s) (d+s)
  | .sub, _, s, d => m.flags (d.ult s) (BitVec.ssubOverflow d s) (d-s)
  | .cmp, _, s, d => m.flags (d.ult s) (BitVec.ssubOverflow d s) (d-s)
  | .and, _, s, d => m.flags false false (d &&& s)
  | .test, _, s, d => m.flags false false (d &&& s)

/-- `cmp` and `test` only set the flags. -/
def aluResult (m : Machine) : (op : Alu) → (w : Width) → Gpr → (src dst : BitVec w.bits) → Machine
  | .add, w, r, s, d => m.write w r (d+s)
  | .sub, w, r, s, d => m.write w r (d-s)
  | .and, w, r, s, d => m.write w r (d &&& s)
  | .cmp, _, _, _, _ => m
  | .test, _, _, _, _ => m

/-- The distance from one word to the next, by the direction flag. -/
def stride (m : Machine) : BitVec 64 := if m.direction then -8 else 8

/-- One word of `movsq`. -/
def moveQuad (m : Machine) : Machine :=
  ((m.storeAt (m.reg .rdi) (m.loadAt .quad (m.reg .rsi))).set .rdi (m.reg .rdi+m.stride)).set .rsi
    (m.reg .rsi+m.stride)

def moveQuads : ℕ → Machine → Machine
  | 0, m => m
  | n+1, m => moveQuads n (m.moveQuad.set .rcx (m.reg .rcx-1))

def pushed (m : Machine) (v : BitVec 64) : Machine :=
  { m with reg := Function.update m.reg .rsp (m.reg .rsp-8), mem := storeWord (m.reg .rsp-8) 8 v.toNat m.mem }

/-- `shr` leaves the overflow flag undefined; here it stays. -/
def exec (m : Machine) : Instr → Machine
  | .mov w src dst => m.write w dst (m.source w src)
  | .load w src dst => m.write w dst (m.loadAt w (m.address src))
  | .store w src dst => m.storeAt (m.address dst) (m.read w src)
  | .lea src dst => m.set dst (m.address src)
  | .alu op w src dst => (m.aluResult op w dst (m.source w src) (m.read w dst)).aluFlags op w (m.source w src) (m.read w dst)
  | .cmpAt w v dst => m.aluFlags .cmp w (BitVec.ofInt w.bits v) (m.loadAt w (m.address dst))
  | .shr k dst => (m.set dst (m.reg dst >>> k)).flags (k ≠ 0 ∧ (m.reg dst).getLsbD (k-1)) m.overflow (m.reg dst >>> k)
  | .push src => m.pushed (m.source .quad src)
  | .pop dst => (m.set .rsp (m.reg .rsp+8)).set dst (loadWord m.mem (m.reg .rsp))
  | .repMovsq => m.moveQuads (m.reg .rcx).toNat
  | .std => { m with direction := true }
  | .cld => { m with direction := false }
  | .cli => { m with interrupts := false }

def holds (m : Machine) : Cond → Bool
  | .b => m.carry
  | .ae => !m.carry
  | .e => m.zero
  | .ne => !m.zero
  | .ge => m.sign == m.overflow
  | .g => !m.zero && m.sign == m.overflow

end Machine

/-! ## Bytes that pass through a register -/

section Copies

variable {s d : BitVec 64} {i j k n : ℕ} {m m' : Mem}

theorem digit_word (b : Bytes) {off w j : ℕ} (hj : j < w) :
    BitVec.ofNat 8 (word b off w/256^j) = b (off+j) := by
  induction w generalizing off j with
  | zero => omega
  | succ w ih =>
    have hbyte := (b off).isLt
    rw [word]
    cases j with
    | zero =>
      apply BitVec.eq_of_toNat_eq
      rw [pow_zero, Nat.div_one, Nat.add_zero, BitVec.toNat_ofNat]
      exact (Nat.add_mul_mod_self_left _ _ _).trans (Nat.mod_eq_of_lt hbyte)
    | succ j =>
      have hdiv : ((b off).toNat+256*word b (off+1) w)/256 = word b (off+1) w := by omega
      rw [pow_succ', ← Nat.div_div_eq_div_mul, hdiv, ih (by omega)]
      congr 1
      omega

/-- A word that is loaded at one place and stored at another. -/
theorem storeWord_word (d s : BitVec 64) (w : ℕ) (m m' : Mem) :
    storeWord d w (word (window m s) 0 w) m' = copyTo d w (window m s) m' := by
  funext x
  rw [storeWord, copyTo, copyTo]
  split
  next hlt =>
    rw [putWord, if_pos ⟨Nat.zero_le _, by omega⟩, Nat.sub_zero, digit_word _ hlt, Nat.zero_add]
  · rfl

theorem copyTo_zero (a : BitVec 64) (b : Bytes) : copyTo a 0 b m = m := funext fun _ => copyTo_other (Nat.zero_le _)

theorem copyTo_congr {a : BitVec 64} {b b' : Bytes} (h : ∀ j < n, b j = b' j) : copyTo a n b m = copyTo a n b' m := by
  funext x
  rw [copyTo, copyTo]
  split
  next hlt => exact h _ hlt
  · rfl

/-- Which bytes a copy to the `i`-th place of a block changes. -/
theorem copyTo_at (hk : i+k ≤ 2^64) (x : BitVec 64) :
    copyTo (d+BitVec.ofNat 64 i) k (window m (s+BitVec.ofNat 64 i)) m' x =
      if i ≤ (x-d).toNat ∧ (x-d).toNat < i+k then window m s (x-d).toNat else m' x := by
  have hsub : (x-(d+BitVec.ofNat 64 i)).toNat = (2^64-i%2^64+(x-d).toNat)%2^64 := by
    rw [← BitVec.sub_sub, BitVec.toNat_sub, BitVec.toNat_ofNat]
  have hlt := (x-d).isLt
  rw [copyTo, hsub]
  by_cases hi : i ≤ (x-d).toNat
  · have hmod : (2^64-i%2^64+(x-d).toNat)%2^64 = (x-d).toNat-i := by omega
    rw [hmod]
    by_cases hin : (x-d).toNat < i+k
    · rw [if_pos (by omega), if_pos ⟨hi, hin⟩, window_add, Nat.add_sub_cancel' hi]
    · rw [if_neg (by omega), if_neg (fun h => hin h.2)]
  · rw [if_neg (by omega), if_neg (fun h => hi h.1)]

/-- Two copies that meet or overlap are one, the second behind the first. -/
theorem copyTo_join (hi : i ≤ j) (hj : j ≤ i+k) (hk : i+k ≤ 2^64) (hn : j+n ≤ 2^64) :
    copyTo (d+BitVec.ofNat 64 j) n (window m (s+BitVec.ofNat 64 j))
        (copyTo (d+BitVec.ofNat 64 i) k (window m (s+BitVec.ofNat 64 i)) m') =
      copyTo (d+BitVec.ofNat 64 i) (max (i+k) (j+n)-i) (window m (s+BitVec.ofNat 64 i)) m' := by
  funext x
  rw [copyTo_at hn, copyTo_at hk, copyTo_at (by omega)]
  split_ifs <;> first | rfl | omega

/-- The same where the second lies in front of the first. -/
theorem copyTo_join_front (hi : i ≤ j) (hj : j ≤ i+k) (hk : i+k ≤ 2^64) (hn : j+n ≤ 2^64) :
    copyTo (d+BitVec.ofNat 64 i) k (window m (s+BitVec.ofNat 64 i))
        (copyTo (d+BitVec.ofNat 64 j) n (window m (s+BitVec.ofNat 64 j)) m') =
      copyTo (d+BitVec.ofNat 64 i) (max (i+k) (j+n)-i) (window m (s+BitVec.ofNat 64 i)) m' := by
  funext x
  rw [copyTo_at hk, copyTo_at hn, copyTo_at (by omega)]
  split_ifs <;> first | rfl | omega

end Copies

namespace Machine

variable {m m' : Machine} {w : Width} {r r' : Gpr} {a b : BitVec 64}

theorem reg_set_self (v : BitVec 64) : (m.set r v).reg r = v := by simp [set]

theorem reg_set_other (v : BitVec 64) (h : r' ≠ r) : (m.set r v).reg r' = m.reg r' := by simp [set, h]

@[simp] theorem read_quad : m.read .quad r = m.reg r := BitVec.setWidth_eq _

@[simp] theorem source_quad_reg : m.source .quad (.reg r) = m.reg r := read_quad

@[simp] theorem address_none {k : ℤ} : m.address ⟨k, r, none⟩ = m.reg r+BitVec.ofInt 64 k :=
  congrArg (·+BitVec.ofInt 64 k) (BitVec.add_zero _)

@[simp] theorem address_zero : m.address ⟨0, r, none⟩ = m.reg r := address_none.trans (BitVec.add_zero _)

theorem address_index {k : ℤ} : m.address ⟨k, r, some r'⟩ = m.reg r+m.reg r'+BitVec.ofInt 64 k := rfl

@[simp] theorem reg_storeAt (v : BitVec w.bits) : (m.storeAt a v).reg = m.reg := rfl

@[simp] theorem mem_storeAt (v : BitVec w.bits) : (m.storeAt a v).mem = storeWord a w.bytes v.toNat m.mem := rfl

@[simp] theorem read_storeAt {w' : Width} (v : BitVec w.bits) : (m.storeAt a v).read w' r = m.read w' r := rfl

@[simp] theorem mem_write (v : BitVec w.bits) : (m.write w r v).mem = m.mem := by cases w <;> rfl

theorem reg_write_other (v : BitVec w.bits) (h : r' ≠ r) : (m.write w r v).reg r' = m.reg r' := by
  cases w <;> exact Function.update_of_ne h _ _

@[simp] theorem loadAt_write {w' : Width} (v : BitVec w.bits) : (m.write w r v).loadAt w' a = m.loadAt w' a := by
  rw [loadAt, loadAt, mem_write]

theorem read_write_other {w' : Width} (v : BitVec w.bits) (h : r' ≠ r) : (m.write w r v).read w' r' = m.read w' r' := by
  rw [read, read, reg_write_other v h]

@[simp] theorem read_write (v : BitVec w.bits) : (m.write w r v).read w r = v := by
  cases w with
  | byte => exact (congrArg _ (Function.update_self r _ m.reg)).trans BitVec.setWidth_append_eq_right
  | word => exact (congrArg _ (Function.update_self r _ m.reg)).trans BitVec.setWidth_append_eq_right
  | long => exact (congrArg _ (Function.update_self r _ m.reg)).trans (BitVec.setWidth_setWidth_of_le v (by decide))
  | quad => exact (congrArg _ (Function.update_self r _ m.reg)).trans (BitVec.setWidth_eq v)

theorem toNat_loadAt : (m.loadAt w a).toNat = word (window m.mem a) 0 w.bytes := by
  have h := word_lt (window m.mem a) 0 w.bytes
  rw [show 256 = 2^8 from rfl, ← pow_mul] at h
  rw [loadAt, BitVec.toNat_ofNat, Nat.mod_eq_of_lt h]

/-- A word that is loaded and stored elsewhere. -/
theorem storeWord_loadAt (mem : Mem) :
    storeWord a w.bytes (m.loadAt w b).toNat mem = copyTo a w.bytes (window m.mem b) mem := by
  rw [toNat_loadAt, storeWord_word]

/-- The sign and the overflow of a difference tell the signed order. -/
theorem sub_signs (x y : BitVec 64) : ((x-y).msb == BitVec.ssubOverflow x y) = decide (y.toInt ≤ x.toInt) := by
  have hx := x.toInt_lt
  have hx' := x.le_toInt
  have hy := y.toInt_lt
  have hy' := y.le_toInt
  have hsub : (x-y).toInt = (x.toInt-y.toInt).bmod (2^64) := BitVec.toInt_sub
  rw [BitVec.msb_eq_toInt, BitVec.ssubOverflow, hsub, Bool.beq_eq_decide_eq, ← Bool.decide_or, decide_eq_decide,
    decide_eq_decide, Int.bmod_def]
  omega

/-- Sums and differences of whole registers. -/
theorem exec_add {src dst : Gpr} : (m.exec (.alu .add .quad (.reg src) dst)).reg dst = m.reg dst+m.reg src :=
  (reg_set_self _).trans (congrArg₂ (·+·) read_quad read_quad)

theorem exec_add_imm {k : ℤ} : (m.exec (.alu .add .quad (.imm k) r)).reg r = m.reg r+BitVec.ofInt 64 k :=
  (reg_set_self (m := m) _).trans (congrArg (·+BitVec.ofInt 64 k) read_quad)

theorem mem_alu {op : Alu} {src : Source} : (m.exec (.alu op w src r)).mem = m.mem := by
  cases op with
  | add => exact mem_write _
  | sub => exact mem_write _
  | and => exact mem_write _
  | cmp => rfl
  | test => rfl

theorem exec_sub {src dst : Gpr} : (m.exec (.alu .sub .quad (.reg src) dst)).reg dst = m.reg dst-m.reg src :=
  (reg_set_self _).trans (congrArg₂ (·-·) read_quad read_quad)

theorem exec_and {src dst : Gpr} : (m.exec (.alu .and .quad (.reg src) dst)).reg dst = m.reg dst &&& m.reg src :=
  (reg_set_self _).trans (congrArg₂ (· &&& ·) read_quad read_quad)

theorem cmpAt_ne {dst : Address} : (m.exec (.cmpAt w 0 dst)).holds .ne = (m.loadAt w (m.address dst) != 0) :=
  congrArg (fun v : BitVec w.bits => !(v == 0)) (BitVec.sub_zero _)

theorem cmp_ge {src dst : Gpr} :
    (m.exec (.alu .cmp .quad (.reg src) dst)).holds .ge = decide ((m.reg src).toInt ≤ (m.reg dst).toInt) := by
  rw [← sub_signs, ← read_quad, ← @read_quad m src]
  rfl

theorem cmp_g {src dst : Gpr} :
    (m.exec (.alu .cmp .quad (.reg src) dst)).holds .g = decide ((m.reg src).toInt < (m.reg dst).toInt) := by
  have hge := @cmp_ge m src dst
  have hzero : (m.exec (.alu .cmp .quad (.reg src) dst)).zero = (m.reg dst-m.reg src == 0#64) := by
    rw [← read_quad, ← @read_quad m src]
    rfl
  have hg : (m.exec (.alu .cmp .quad (.reg src) dst)).holds .g = (!(m.exec (.alu .cmp .quad (.reg src) dst)).zero &&
      (m.exec (.alu .cmp .quad (.reg src) dst)).holds .ge) := rfl
  have heq : (m.reg dst-m.reg src == 0#64) = decide ((m.reg src).toInt = (m.reg dst).toInt) := by
    rw [Bool.beq_eq_decide_eq, decide_eq_decide, BitVec.toInt_inj, BitVec.sub_eq_iff_eq_add, BitVec.zero_add, eq_comm]
  rw [hg, hge, hzero, heq, ← decide_not, ← Bool.decide_and, decide_eq_decide]
  omega

theorem exec_mov {src dst : Gpr} : (m.exec (.mov .quad (.reg src) dst)).reg dst = m.reg src :=
  (reg_set_self _).trans read_quad

theorem exec_load {src : Address} : (m.exec (.load .quad src r)).reg r = m.loadAt .quad (m.address src) :=
  reg_set_self (m := m) _

theorem exec_store {src : Gpr} {dst : Address} :
    (m.exec (.store .quad src dst)).mem = storeWord (m.address dst) 8 (m.reg src).toNat m.mem :=
  congrArg (fun v : BitVec 64 => storeWord (m.address dst) 8 v.toNat m.mem) read_quad

theorem moveQuad_mem : m.moveQuad.mem = copyTo (m.reg .rdi) 8 (window m.mem (m.reg .rsi)) m.mem :=
  @storeWord_loadAt m .quad (m.reg .rdi) (m.reg .rsi) m.mem

theorem moveQuad_rsi : m.moveQuad.reg .rsi = m.reg .rsi+m.stride := reg_set_self _

theorem moveQuad_rdi : m.moveQuad.reg .rdi = m.reg .rdi+m.stride := by
  rw [moveQuad, reg_set_other _ (by decide), reg_set_self]

theorem reg_moveQuads {n : ℕ} (h : r ∉ [.rcx, .rsi, .rdi]) : (m.moveQuads n).reg r = m.reg r := by
  simp only [List.mem_cons, List.not_mem_nil, or_false, not_or] at h
  induction n generalizing m with
  | zero => rfl
  | succ n ih => rw [moveQuads, ih, reg_set_other _ h.1, moveQuad, reg_set_other _ h.2.1, reg_set_other _ h.2.2, reg_storeAt]

theorem direction_moveQuads {n : ℕ} : (m.moveQuads n).direction = m.direction := by
  induction n generalizing m with
  | zero => rfl
  | succ n ih => exact ih

end Machine

/-! ## What an instruction leaves alone -/

def Instr.writes : Instr → List Gpr
  | .mov _ _ dst => [dst]
  | .load _ _ dst => [dst]
  | .lea _ dst => [dst]
  | .alu .add _ _ dst | .alu .sub _ _ dst | .alu .and _ _ dst => [dst]
  | .shr _ dst => [dst]
  | .push _ => [.rsp]
  | .pop dst => [.rsp, dst]
  | .repMovsq => [.rcx, .rsi, .rdi]
  | .store _ _ _ | .alu .cmp _ _ _ | .alu .test _ _ _ | .cmpAt _ _ _ | .std | .cld | .cli => []

def Instr.turns : Instr → Bool
  | .std | .cld => true
  | _ => false

def execs (is : List Instr) (m : Machine) : Machine := is.foldl Machine.exec m

theorem execs_cons (i : Instr) (is : List Instr) (m : Machine) : execs (i :: is) m = execs is (m.exec i) := rfl

theorem execs_nil (m : Machine) : execs [] m = m := rfl

theorem execs_append (is js : List Instr) (m : Machine) : execs (is ++ js) m = execs js (execs is m) :=
  List.foldl_append ..

section Frames

variable {m : Machine} {r : Gpr}

theorem reg_exec {i : Instr} (h : r ∉ i.writes) : (m.exec i).reg r = m.reg r := by
  cases i with
  | mov w src dst => exact Machine.reg_write_other _ (List.ne_of_not_mem_cons h)
  | load w src dst => exact Machine.reg_write_other _ (List.ne_of_not_mem_cons h)
  | lea src dst => exact Machine.reg_set_other _ (List.ne_of_not_mem_cons h)
  | alu op w src dst =>
    cases op with
    | add => exact Machine.reg_write_other _ (List.ne_of_not_mem_cons h)
    | sub => exact Machine.reg_write_other _ (List.ne_of_not_mem_cons h)
    | and => exact Machine.reg_write_other _ (List.ne_of_not_mem_cons h)
    | cmp => rfl
    | test => rfl
  | shr k dst => exact Machine.reg_set_other _ (List.ne_of_not_mem_cons h)
  | push src => exact Machine.reg_set_other _ (List.ne_of_not_mem_cons h)
  | pop dst =>
    simp only [Instr.writes, List.mem_cons, List.not_mem_nil, or_false, not_or] at h
    exact (Machine.reg_set_other _ h.2).trans (Machine.reg_set_other _ h.1)
  | repMovsq => exact Machine.reg_moveQuads h
  | store w src dst => rfl
  | cmpAt w v dst => rfl
  | std => rfl
  | cld => rfl
  | cli => rfl

theorem direction_write {w : Width} (v : BitVec w.bits) : (m.write w r v).direction = m.direction := by
  cases w <;> rfl

theorem direction_exec {i : Instr} (h : i.turns = false) : (m.exec i).direction = m.direction := by
  cases i with
  | mov w src dst => exact direction_write _
  | load w src dst => exact direction_write _
  | alu op w src dst =>
    cases op with
    | add => exact direction_write _
    | sub => exact direction_write _
    | and => exact direction_write _
    | cmp => rfl
    | test => rfl
  | repMovsq => exact Machine.direction_moveQuads
  | lea src dst => rfl
  | shr k dst => rfl
  | push src => rfl
  | pop dst => rfl
  | store w src dst => rfl
  | cmpAt w v dst => rfl
  | std => cases h
  | cld => cases h
  | cli => rfl

theorem reg_execs {is : List Instr} (h : ∀ i ∈ is, r ∉ i.writes) : (execs is m).reg r = m.reg r := by
  induction is generalizing m with
  | nil => rfl
  | cons i is ih =>
    have hrest : (execs is (m.exec i)).reg r = (m.exec i).reg r := ih fun i' hi' => h i' (List.mem_cons_of_mem _ hi')
    exact hrest.trans (reg_exec (h i (List.mem_cons_self ..)))

theorem direction_execs {is : List Instr} (h : ∀ i ∈ is, i.turns = false) :
    (execs is m).direction = m.direction := by
  induction is generalizing m with
  | nil => rfl
  | cons i is ih =>
    have hrest : (execs is (m.exec i)).direction = (m.exec i).direction :=
      ih fun i' hi' => h i' (List.mem_cons_of_mem _ hi')
    exact hrest.trans (direction_exec (h i (List.mem_cons_self ..)))

end Frames

/-! ## Stacks -/

def pushAll (vs : List (BitVec 64)) (m : Machine) : Machine := vs.foldl Machine.pushed m

section Stacks

variable {m : Machine} {r : Gpr}

theorem loadWord_above {a : BitVec 64} {w d v : ℕ} {mem : Mem} (hd : w ≤ d) (hlt : d+8 ≤ 2^64) :
    loadWord (storeWord a w v mem) (a+BitVec.ofNat 64 d) = loadWord mem (a+BitVec.ofNat 64 d) := by
  refine loadWord_congr fun j hj => ?_
  rw [window_add, window_add, window, window]
  refine copyTo_other ?_
  rw [BitVec.add_comm, BitVec.add_sub_cancel, BitVec.toNat_ofNat]
  omega

theorem pushAll_cons (v : BitVec 64) (vs : List (BitVec 64)) (m : Machine) : pushAll (v :: vs) m = pushAll vs (m.pushed v) :=
  rfl

theorem pushAll_snoc (vs : List (BitVec 64)) (v : BitVec 64) (m : Machine) :
    pushAll (vs ++ [v]) m = (pushAll vs m).pushed v := List.foldl_concat ..

theorem pushAll_append (vs ws : List (BitVec 64)) (m : Machine) : pushAll (vs ++ ws) m = pushAll ws (pushAll vs m) :=
  List.foldl_append ..

theorem pushed_rsp (v : BitVec 64) : (m.pushed v).reg .rsp = m.reg .rsp-8 := Machine.reg_set_self (m := m) _

theorem pushAll_rsp (vs : List (BitVec 64)) (m : Machine) :
    (pushAll vs m).reg .rsp = m.reg .rsp-BitVec.ofNat 64 (8*vs.length) := by
  induction vs generalizing m with
  | nil => exact (BitVec.sub_zero _).symm
  | cons v vs ih =>
    have hrest : (pushAll vs (m.pushed v)).reg .rsp = m.reg .rsp-8-BitVec.ofNat 64 (8*vs.length) := by
      rw [ih, pushed_rsp]
    refine hrest.trans ?_
    rw [BitVec.sub_sub, List.length_cons, Nat.mul_succ, Nat.add_comm (8*vs.length), BitVec.ofNat_add]
    rfl

theorem pushAll_reg (vs : List (BitVec 64)) (h : r ≠ .rsp) : (pushAll vs m).reg r = m.reg r := by
  induction vs generalizing m with
  | nil => rfl
  | cons v vs ih => exact ih.trans (Machine.reg_set_other (m := m) _ h)

theorem pushAll_mem_congr {m' : Machine} (vs : List (BitVec 64)) (hsp : m.reg .rsp = m'.reg .rsp) (hmem : m.mem = m'.mem) :
    (pushAll vs m).mem = (pushAll vs m').mem := by
  induction vs generalizing m m' with
  | nil => exact hmem
  | cons v vs ih => exact ih (by rw [pushed_rsp, pushed_rsp, hsp]) (by rw [Machine.pushed, Machine.pushed, hsp, hmem])

/-- Nothing from the old stack pointer on changes, and nothing below the new one. -/
theorem pushAll_mem {vs : List (BitVec 64)} {x : BitVec 64} (hsize : 8*vs.length < 2^64)
    (h : 8*vs.length ≤ (x-(pushAll vs m).reg .rsp).toNat) : (pushAll vs m).mem x = m.mem x := by
  induction vs using List.reverseRecOn with
  | nil => rfl
  | append_singleton vs v ih =>
    rw [List.length_append, List.length_singleton] at hsize h
    rw [pushAll_snoc, pushed_rsp] at h
    have hsub : x-(pushAll vs m).reg .rsp = x-((pushAll vs m).reg .rsp-8)-8#64 := by
      rw [BitVec.sub_sub]
      congr 1
      exact (BitVec.sub_add_cancel _ _).symm
    have hlt := (x-((pushAll vs m).reg .rsp-8)).isLt
    have hold := ih (by omega) (by rw [hsub, BitVec.toNat_sub, BitVec.toNat_ofNat]; omega)
    rw [pushAll_snoc, ← hold]
    exact copyTo_other (by omega)

theorem pushAll_word {vs : List (BitVec 64)} {i : ℕ} (hsize : 8*vs.length+8 ≤ 2^64) (hi : i < vs.length) :
    loadWord (pushAll vs m).mem ((pushAll vs m).reg .rsp+BitVec.ofNat 64 (8*(vs.length-1-i))) = vs[i] := by
  induction vs using List.reverseRecOn with
  | nil => exact absurd hi (Nat.not_lt_zero i)
  | append_singleton vs v ih =>
    rw [List.length_append, List.length_singleton] at hsize hi
    rw [List.length_append, List.length_singleton, Nat.add_sub_cancel, pushAll_snoc, pushed_rsp]
    by_cases hlast : i = vs.length
    · subst hlast
      rw [Nat.sub_self, Nat.mul_zero, List.getElem_concat_length rfl]
      exact (congrArg _ (BitVec.add_zero _)).trans (loadWord_storeWord _ v _)
    · have hlt : i < vs.length := by omega
      have hold := ih (by omega) hlt
      have hoff : 8*(vs.length-i) = 8+8*(vs.length-1-i) := by omega
      have haddr : (pushAll vs m).reg .rsp-8+BitVec.ofNat 64 (8*(vs.length-i)) =
          (pushAll vs m).reg .rsp+BitVec.ofNat 64 (8*(vs.length-1-i)) := by
        have hback : (pushAll vs m).reg .rsp-8+BitVec.ofNat 64 8 = (pushAll vs m).reg .rsp := BitVec.sub_add_cancel _ _
        rw [hoff, BitVec.ofNat_add, ← BitVec.add_assoc, hback]
      have hmem : ((pushAll vs m).pushed v).mem = storeWord ((pushAll vs m).reg .rsp-8) 8 v.toNat (pushAll vs m).mem :=
        rfl
      rw [List.getElem_append_left hlt, ← hold, ← haddr, hmem]
      exact loadWord_above (by omega) (by omega)

theorem execs_push {rs : List Gpr} (hsp : .rsp ∉ rs) (m : Machine) :
    execs (rs.map fun r => .push (.reg r)) m = pushAll (rs.map m.reg) m := by
  induction rs generalizing m with
  | nil => rfl
  | cons r rs ih =>
    rw [List.mem_cons, not_or] at hsp
    have hpush : m.exec (.push (.reg r)) = m.pushed (m.reg r) := congrArg m.pushed Machine.read_quad
    have hsame : rs.map (m.pushed (m.reg r)).reg = rs.map m.reg :=
      List.map_congr_left fun r' hr' => Machine.reg_set_other (m := m) _ fun h => hsp.2 (h ▸ hr')
    rw [List.map_cons, execs_cons, hpush, ih hsp.2, hsame]
    rfl

theorem execs_pop_rsp {rs : List Gpr} (hsp : .rsp ∉ rs) (m : Machine) :
    (execs (rs.map .pop) m).reg .rsp = m.reg .rsp+BitVec.ofNat 64 (8*rs.length) ∧ (execs (rs.map .pop) m).mem = m.mem := by
  induction rs generalizing m with
  | nil => exact ⟨(BitVec.add_zero _).symm, rfl⟩
  | cons r rs ih =>
    rw [List.mem_cons, not_or] at hsp
    have hpop : (m.exec (.pop r)).reg .rsp = m.reg .rsp+8 :=
      (Machine.reg_set_other _ hsp.1).trans (Machine.reg_set_self (m := m) _)
    obtain ⟨hrsp, hmem⟩ := ih hsp.2 (m.exec (.pop r))
    rw [List.map_cons, execs_cons, hrsp, hpop, hmem, BitVec.add_assoc, List.length_cons, Nat.mul_succ,
      Nat.add_comm (8*rs.length), BitVec.ofNat_add]
    exact ⟨rfl, rfl⟩

theorem execs_pop {rs : List Gpr} (hsp : .rsp ∉ rs) (hrs : rs.Nodup) (m : Machine) {i : ℕ} (hi : i < rs.length) :
    (execs (rs.map .pop) m).reg rs[i] = loadWord m.mem (m.reg .rsp+BitVec.ofNat 64 (8*i)) := by
  induction rs generalizing m i with
  | nil => exact absurd hi (Nat.not_lt_zero i)
  | cons r rs ih =>
    rw [List.mem_cons, not_or] at hsp
    obtain ⟨hr, hrs⟩ := List.nodup_cons.mp hrs
    rw [List.map_cons, execs_cons]
    cases i with
    | zero =>
      have hframe : ∀ i ∈ rs.map Instr.pop, r ∉ i.writes := by
        intro i hi
        obtain ⟨r', hr', rfl⟩ := List.mem_map.mp hi
        simp only [Instr.writes, List.mem_cons, List.not_mem_nil, or_false, not_or]
        exact ⟨fun h => hsp.1 h.symm, fun h => hr (h ▸ hr')⟩
      rw [List.getElem_cons_zero, reg_execs hframe]
      exact (Machine.reg_set_self _).trans (congrArg _ (BitVec.add_zero _).symm)
    | succ i =>
      have hpop : (m.exec (.pop r)).reg .rsp = m.reg .rsp+8 :=
        (Machine.reg_set_other _ hsp.1).trans (Machine.reg_set_self (m := m) _)
      rw [List.getElem_cons_succ, ih hsp.2 hrs, hpop, BitVec.add_assoc, Nat.mul_succ, Nat.add_comm (8*i), BitVec.ofNat_add]
      rfl

end Stacks

/-! ## Texts -/

section Texts

variable {L F : Type}

/-- The lines of a text with labels `L` that refers to the functions `F`. -/
inductive Line (L F : Type)
  | label (l : L)
  | op (i : Instr)
  | jmp (l : L)
  | jcc (c : Cond) (l : L)
  | call (f : F)
  | tail (f : F)
  | ret
  | iretq

abbrev Text (L F : Type) := List (Line L F)

/-- What an interrupt frame gives back to the processor. -/
structure Resumption where
  rip : BitVec 64
  cs : BitVec 64
  rflags : BitVec 64
  ss : BitVec 64

/-- A place in the text, a function that runs (and then goes on in the text, or not), an
address that a return has left to, and the code that an interrupt goes back to. -/
inductive Config (L F : Type)
  | here (rest : Text L F) (m : Machine)
  | calling (f : F) (rest : Text L F) (m : Machine)
  | gone (f : F) (m : Machine)
  | left (a : BitVec 64) (m : Machine)
  | resumed (r : Resumption) (m : Machine)

variable [DecidableEq L]

/-- The text from a label on. -/
def after (l : L) : Text L F → Option (Text L F)
  | [] => none
  | .label l' :: rest => if l' = l then some rest else after l rest
  | _ :: rest => after l rest

open Machine in
def step (text : Text L F) : Config L F → Option (Config L F)
  | .here [] _ => none
  | .here (.label _ :: rest) m => some (.here rest m)
  | .here (.op i :: rest) m => some (.here rest (m.exec i))
  | .here (.jmp l :: _) m => (after l text).map fun rest => .here rest m
  | .here (.jcc c l :: rest) m =>
      if m.holds c then (after l text).map fun rest => .here rest m else some (.here rest m)
  | .here (.call f :: rest) m => some (.calling f rest m)
  | .here (.tail f :: _) m => some (.gone f m)
  | .here (.ret :: _) m => some (.left (loadWord m.mem (m.reg .rsp)) (m.set .rsp (m.reg .rsp+8)))
  | .here (.iretq :: _) m =>
      some (.resumed ⟨loadWord m.mem (m.reg .rsp), loadWord m.mem (m.reg .rsp+8),
        loadWord m.mem (m.reg .rsp+16), loadWord m.mem (m.reg .rsp+32)⟩
        (m.set .rsp (loadWord m.mem (m.reg .rsp+24))))
  | .calling _ _ _ | .gone _ _ | .left _ _ | .resumed _ _ => none

/-- The code gets to a configuration with `Q`. -/
def Ends (text : Text L F) (c : Config L F) (Q : Config L F → Prop) : Prop :=
  ∃ c', Relation.ReflTransGen (fun c c' => step text c = some c') c c' ∧ Q c'

variable {text : Text L F} {c c' : Config L F} {P Q : Config L F → Prop} {rest : Text L F} {m : Machine}

theorem Ends.done (h : Q c) : Ends text c Q := ⟨c, .refl, h⟩

theorem Ends.step (h : step text c = some c') (hrest : Ends text c' Q) : Ends text c Q := by
  obtain ⟨c'', hruns, hq⟩ := hrest
  exact ⟨c'', .head h hruns, hq⟩

theorem Ends.bind (h : Ends text c P) (hrest : ∀ c', P c' → Ends text c' Q) : Ends text c Q := by
  obtain ⟨c', hruns, hp⟩ := h
  obtain ⟨c'', hruns', hq⟩ := hrest c' hp
  exact ⟨c'', hruns.trans hruns', hq⟩

theorem Ends.mono (h : Ends text c P) (hpq : ∀ c', P c' → Q c') : Ends text c Q :=
  h.bind fun c' hp => .done (hpq c' hp)

/-- The instructions up to the next line that is none. -/
def block : Text L F → List Instr
  | .op i :: rest => i :: block rest
  | _ => []

def beyond : Text L F → Text L F
  | .op _ :: rest => beyond rest
  | rest => rest

/-- A text has one run, so two ways to stop are the same. -/
theorem Ends.unique (h : Ends text c P) (hp : ∀ c, P c → MachineCode.step text c = none) (h' : Ends text c Q)
    (hq : ∀ c, Q c → MachineCode.step text c = none) : ∃ c', P c' ∧ Q c' := by
  obtain ⟨c₁, hruns, hc⟩ := h
  obtain ⟨c₂, hruns', hc'⟩ := h'
  have hdet : Relator.RightUnique fun c c' : Config L F => MachineCode.step text c = some c' :=
    fun _ _ _ hab hac => Option.some.inj (hab.symm.trans hac)
  have hstops : ∀ {c₁ c₂}, MachineCode.step text c₁ = none →
      Relation.ReflTransGen (fun c c' => MachineCode.step text c = some c') c₁ c₂ → c₂ = c₁ := by
    intro c₁ c₂ hnone hsteps
    cases hsteps using Relation.ReflTransGen.head_induction_on with
    | refl => rfl
    | head hstep => exact absurd (hnone.symm.trans hstep) (Option.some_ne_none _).symm
  rcases Relation.ReflTransGen.total_of_right_unique hdet hruns hruns' with hsteps | hsteps
  · exact ⟨c₁, hc, hstops (hp c₁ hc) hsteps ▸ hc'⟩
  · exact ⟨c₂, hstops (hq c₂ hc') hsteps ▸ hc, hc'⟩

/-- A block takes its instructions one after the other. -/
theorem Ends.block (h : Ends text (.here (beyond rest) (execs (block rest) m)) Q) : Ends text (.here rest m) Q := by
  induction rest generalizing m with
  | nil => exact h
  | cons line rest ih =>
    cases line with
    | op i => exact .step rfl (ih h)
    | _ => exact h

omit [DecidableEq L] in
theorem beyond_eq {line : Line L F} (h : (beyond rest).head? = some line) : beyond rest = line :: (beyond rest).tail := by
  obtain ⟨rest', hrest⟩ := List.head?_eq_some_iff.mp h
  rw [hrest, List.tail_cons]

/-- A block and the label behind it. -/
theorem Ends.falls {l : L} (h : (beyond rest).head? = some (.label l))
    (hrest : Ends text (.here (beyond rest).tail (execs (MachineCode.block rest) m)) Q) :
    Ends text (.here rest m) Q := by
  refine .block ?_
  rw [beyond_eq h]
  exact .step rfl hrest

/-- A block and the jump behind it. -/
theorem Ends.jumps {l : L} {rest' : Text L F} (h : (beyond rest).head? = some (.jmp l))
    (hl : after l text = some rest') (hrest : Ends text (.here rest' (execs (MachineCode.block rest) m)) Q) :
    Ends text (.here rest m) Q := by
  refine .block ?_
  rw [beyond_eq h]
  exact .step (by rw [MachineCode.step, hl, Option.map_some]) hrest

/-- A block and the conditional jump behind it, either way. -/
theorem Ends.branches {l : L} {cond : Cond} {rest' : Text L F} (h : (beyond rest).head? = some (.jcc cond l))
    (hl : after l text = some rest')
    (htaken : (execs (MachineCode.block rest) m).holds cond = true →
      Ends text (.here rest' (execs (MachineCode.block rest) m)) Q)
    (hnot : (execs (MachineCode.block rest) m).holds cond = false →
      Ends text (.here (beyond rest).tail (execs (MachineCode.block rest) m)) Q) :
    Ends text (.here rest m) Q := by
  refine .block ?_
  rw [beyond_eq h]
  cases hc : (execs (MachineCode.block rest) m).holds cond with
  | true => exact .step (by rw [MachineCode.step, if_pos hc, hl, Option.map_some]) (htaken hc)
  | false => exact .step (by rw [MachineCode.step, if_neg (by rw [hc]; decide)]) (hnot hc)

/-- A block and the call behind it. -/
theorem Ends.calls {f : F} (h : (beyond rest).head? = some (.call f))
    (hq : Q (.calling f (beyond rest).tail (execs (MachineCode.block rest) m))) : Ends text (.here rest m) Q := by
  refine .block ?_
  rw [beyond_eq h]
  exact .step rfl (.done hq)

/-- A loop whose every round leads out of it or to a smaller measure. -/
theorem Ends.loop {I : ℕ → Config L F → Prop}
    (hround : ∀ n c, I n c → Ends text c fun c' => Q c' ∨ ∃ n' < n, I n' c') (n : ℕ) (hi : I n c) :
    Ends text c Q := by
  induction n using Nat.strong_induction_on generalizing c with
  | _ n ih =>
    refine (hround n c hi).bind fun c' hc' => ?_
    rcases hc' with hq | ⟨n', hlt, hi'⟩
    · exact .done hq
    · exact ih n' hlt hi'

end Texts

end BabyOS.MachineCode

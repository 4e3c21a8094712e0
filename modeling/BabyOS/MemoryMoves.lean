import BabyOS.MachineCode

/-!
# `memmove` of the kernel

The assembly text copies in blocks of 32 bytes forward or backward, or in words with
`rep movsq`, and at last less than 32 bytes that are all read before one is written.
-/

set_option autoImplicit false

namespace BabyOS.MemoryMoves
open BabyOS.ByteWords BabyOS.TrapFrames BabyOS.MachineCode
open Machine (address_zero address_none address_index read_quad source_quad_reg storeWord_loadAt)

inductive Label
  | l1 | l2 | beginForward | l3 | l4 | l5 | endForward | l6 | l7 | l8 | l9 | l10 | l11 | l12 | l13
deriving DecidableEq

abbrev Code := Text Label Empty

def memmove : Code := [
  /- Handle more 32 bytes in loop -/
  .op (.mov .quad (.reg .rdi) .rax),
  .op (.alu .cmp .quad (.imm 0x20) .rdx),
  .jcc .b .l1,
  /- Decide forward/backward copy mode -/
  .op (.alu .cmp .quad (.reg .rdi) .rsi),
  .jcc .ge .beginForward,
  .op (.mov .quad (.reg .rsi) .r8),
  .op (.alu .add .quad (.reg .rdx) .r8),
  .op (.alu .cmp .quad (.reg .rdi) .r8),
  .jcc .g .l2,
  .label .beginForward,
  .op (.alu .cmp .quad (.imm 680) .rdx),
  .jcc .b .l3,
  .op (.alu .cmp .byte (.reg .rdi) .rsi),
  .jcc .e .l4,
  .label .l3,
  .op (.alu .sub .quad (.imm 0x20) .rdx),
  .label .l5,
  .op (.alu .sub .quad (.imm 0x20) .rdx),
  .op (.load .quad ⟨0*8, .rsi, none⟩ .r11),
  .op (.load .quad ⟨1*8, .rsi, none⟩ .r10),
  .op (.load .quad ⟨2*8, .rsi, none⟩ .r9),
  .op (.load .quad ⟨3*8, .rsi, none⟩ .r8),
  .op (.lea ⟨4*8, .rsi, none⟩ .rsi),
  .op (.store .quad .r11 ⟨0*8, .rdi, none⟩),
  .op (.store .quad .r10 ⟨1*8, .rdi, none⟩),
  .op (.store .quad .r9 ⟨2*8, .rdi, none⟩),
  .op (.store .quad .r8 ⟨3*8, .rdi, none⟩),
  .op (.lea ⟨4*8, .rdi, none⟩ .rdi),
  .jcc .ae .l5,
  .op (.alu .add .quad (.imm 0x20) .rdx),
  .jmp .l1,
  /- Handle data forward by movsq. -/
  .label .l4,
  .op (.mov .quad (.reg .rdx) .rcx),
  .op (.load .quad ⟨-8, .rsi, some .rdx⟩ .r11),
  .op (.lea ⟨-8, .rdi, some .rdx⟩ .r10),
  .op (.shr 3 .rcx),
  .op .repMovsq,
  .op (.store .quad .r11 ⟨0, .r10, none⟩),
  .jmp .l13,
  .label .endForward,
  /- Handle data backward by movsq. -/
  .label .l7,
  .op (.mov .quad (.reg .rdx) .rcx),
  .op (.load .quad ⟨0, .rsi, none⟩ .r11),
  .op (.mov .quad (.reg .rdi) .r10),
  .op (.lea ⟨-8, .rsi, some .rdx⟩ .rsi),
  .op (.lea ⟨-8, .rdi, some .rdx⟩ .rdi),
  .op (.shr 3 .rcx),
  .op .std,
  .op .repMovsq,
  .op .cld,
  .op (.store .quad .r11 ⟨0, .r10, none⟩),
  .jmp .l13,
  /- Start to prepare for backward copy. -/
  .label .l2,
  .op (.alu .cmp .quad (.imm 680) .rdx),
  .jcc .b .l6,
  .op (.alu .cmp .byte (.reg .rdi) .rsi),
  .jcc .e .l7,
  .label .l6,
  .op (.alu .add .quad (.reg .rdx) .rsi),
  .op (.alu .add .quad (.reg .rdx) .rdi),
  .op (.alu .sub .quad (.imm 0x20) .rdx),
  .label .l8,
  .op (.alu .sub .quad (.imm 0x20) .rdx),
  .op (.load .quad ⟨-1*8, .rsi, none⟩ .r11),
  .op (.load .quad ⟨-2*8, .rsi, none⟩ .r10),
  .op (.load .quad ⟨-3*8, .rsi, none⟩ .r9),
  .op (.load .quad ⟨-4*8, .rsi, none⟩ .r8),
  .op (.lea ⟨-4*8, .rsi, none⟩ .rsi),
  .op (.store .quad .r11 ⟨-1*8, .rdi, none⟩),
  .op (.store .quad .r10 ⟨-2*8, .rdi, none⟩),
  .op (.store .quad .r9 ⟨-3*8, .rdi, none⟩),
  .op (.store .quad .r8 ⟨-4*8, .rdi, none⟩),
  .op (.lea ⟨-4*8, .rdi, none⟩ .rdi),
  .jcc .ae .l8,
  .op (.alu .add .quad (.imm 0x20) .rdx),
  .op (.alu .sub .quad (.reg .rdx) .rsi),
  .op (.alu .sub .quad (.reg .rdx) .rdi),
  .label .l1,
  .op (.alu .cmp .quad (.imm 16) .rdx),
  .jcc .b .l9,
  /- Move data from 16 bytes to 31 bytes. -/
  .op (.load .quad ⟨0*8, .rsi, none⟩ .r11),
  .op (.load .quad ⟨1*8, .rsi, none⟩ .r10),
  .op (.load .quad ⟨-2*8, .rsi, some .rdx⟩ .r9),
  .op (.load .quad ⟨-1*8, .rsi, some .rdx⟩ .r8),
  .op (.store .quad .r11 ⟨0*8, .rdi, none⟩),
  .op (.store .quad .r10 ⟨1*8, .rdi, none⟩),
  .op (.store .quad .r9 ⟨-2*8, .rdi, some .rdx⟩),
  .op (.store .quad .r8 ⟨-1*8, .rdi, some .rdx⟩),
  .jmp .l13,
  .label .l9,
  .op (.alu .cmp .quad (.imm 8) .rdx),
  .jcc .b .l10,
  /- Move data from 8 bytes to 15 bytes. -/
  .op (.load .quad ⟨0*8, .rsi, none⟩ .r11),
  .op (.load .quad ⟨-1*8, .rsi, some .rdx⟩ .r10),
  .op (.store .quad .r11 ⟨0*8, .rdi, none⟩),
  .op (.store .quad .r10 ⟨-1*8, .rdi, some .rdx⟩),
  .jmp .l13,
  .label .l10,
  .op (.alu .cmp .quad (.imm 4) .rdx),
  .jcc .b .l11,
  /- Move data from 4 bytes to 7 bytes. -/
  .op (.load .long ⟨0, .rsi, none⟩ .r11),
  .op (.load .long ⟨-4, .rsi, some .rdx⟩ .r10),
  .op (.store .long .r11 ⟨0, .rdi, none⟩),
  .op (.store .long .r10 ⟨-4, .rdi, some .rdx⟩),
  .jmp .l13,
  .label .l11,
  .op (.alu .cmp .quad (.imm 2) .rdx),
  .jcc .b .l12,
  /- Move data from 2 bytes to 3 bytes. -/
  .op (.load .word ⟨0, .rsi, none⟩ .r11),
  .op (.load .word ⟨-2, .rsi, some .rdx⟩ .r10),
  .op (.store .word .r11 ⟨0, .rdi, none⟩),
  .op (.store .word .r10 ⟨-2, .rdi, some .rdx⟩),
  .jmp .l13,
  .label .l12,
  .op (.alu .cmp .quad (.imm 1) .rdx),
  .jcc .b .l13,
  /- Move data for 1 byte. -/
  .op (.load .byte ⟨0, .rsi, none⟩ .r11),
  .op (.store .byte .r11 ⟨0, .rdi, none⟩),
  .label .l13,
  .ret]

def place (l : Label) : Code := (after l memmove).getD []

/-- What follows the first jump behind a label. -/
def next (l : Label) : Code := (beyond (place l)).tail

theorem after_place (l : Label) : after l memmove = some (place l) := by cases l <;> rfl

/-! ## What a call keeps -/

/-- The registers that a call may change. -/
def scratch : List Gpr := [.rcx, .rdx, .rsi, .rdi, .r8, .r9, .r10, .r11]

structure Same (m m' : Machine) : Prop where
  reg : ∀ r, r ∉ scratch → m'.reg r = m.reg r
  direction : m'.direction = m.direction

/-- A return with this memory. -/
def Returned (m : Machine) (mem : Mem) (c : Config Label Empty) : Prop :=
  ∃ m', c = .left (loadWord mem (m.reg .rsp)) m' ∧ m'.mem = mem ∧ m'.direction = m.direction ∧
    m'.reg .rsp = m.reg .rsp+8 ∧ ∀ r, r ∉ scratch → r ≠ .rsp → m'.reg r = m.reg r

section Calls

variable {m m' m'' : Machine} {mem : Mem} {c : Config Label Empty}

theorem Same.trans (h : Same m m') (h' : Same m' m'') : Same m m'' :=
  ⟨fun r hr => (h'.reg r hr).trans (h.reg r hr), h'.direction.trans h.direction⟩

theorem Returned.of_same (h : Same m m') (hret : Returned m' mem c) : Returned m mem c := by
  obtain ⟨m'', hc, hmem, hdir, hrsp, hreg⟩ := hret
  have hsp : m'.reg .rsp = m.reg .rsp := h.reg .rsp (by decide)
  rw [hsp] at hc hrsp
  exact ⟨m'', hc, hmem, hdir.trans h.direction, hrsp, fun r hr hne => (hreg r hr hne).trans (h.reg r hr)⟩

/-- Instructions that only write registers of that list. -/
theorem Same.execs {is : List Instr} (h : is.all fun i => i.writes.all (· ∈ scratch) && !i.turns) :
    Same m (execs is m) := by
  simp only [List.all_eq_true, Bool.and_eq_true, decide_eq_true_eq, Bool.not_eq_true'] at h
  exact ⟨fun r hr => reg_execs fun i hi hmem => hr ((h i hi).1 r hmem), direction_execs fun i hi => (h i hi).2⟩

theorem returns (m : Machine) : Ends memmove (.here (place .l13) m) (Returned m m.mem) :=
  .step rfl (.done ⟨_, rfl, rfl, rfl, Machine.reg_set_self _, fun _ _ hne => Machine.reg_set_other _ hne⟩)

theorem Same.returns (h : Same m m') (hmem : m'.mem = mem) :
    Ends memmove (.here (place .l13) m') (Returned m mem) :=
  (MemoryMoves.returns m').mono fun _ hret => .of_same h (hmem ▸ hret)

end Calls

/-! ## Less than 32 bytes -/

section Small

variable {m : Machine} {r : ℕ}

/-- Two words from the two ends, that may overlap. -/
def pair (w : Width) : List Instr := [
  .load w ⟨0, .rsi, none⟩ .r11,
  .load w ⟨-w.bytes, .rsi, some .rdx⟩ .r10,
  .store w .r11 ⟨0, .rdi, none⟩,
  .store w .r10 ⟨-w.bytes, .rdi, some .rdx⟩]

theorem from_end (a : BitVec 64) {k : ℕ} (hk : k ≤ r) :
    a+BitVec.ofNat 64 r+BitVec.ofInt 64 (-k) = a+BitVec.ofNat 64 (r-k) := by
  obtain ⟨j, rfl⟩ := Nat.exists_eq_add_of_le' hk
  rw [Nat.add_sub_cancel, BitVec.ofNat_add, BitVec.ofInt_neg, BitVec.ofInt_natCast, ← BitVec.add_assoc, BitVec.add_assoc,
    BitVec.add_right_neg, BitVec.add_zero]

theorem pair_mem (w : Width) (m : Machine) :
    (execs (pair w) m).mem = storeWord (m.address ⟨-w.bytes, .rdi, some .rdx⟩) w.bytes
      (m.loadAt w (m.address ⟨-w.bytes, .rsi, some .rdx⟩)).toNat
      (storeWord (m.address ⟨0, .rdi, none⟩) w.bytes (m.loadAt w (m.address ⟨0, .rsi, none⟩)).toNat m.mem) := by
  simp [execs, pair, Machine.exec, Machine.read_write_other, Machine.reg_write_other, address_index]

theorem pair_copies {w : Width} (hr : m.reg .rdx = BitVec.ofNat 64 r) (hw : w.bytes ≤ r) (hle : r ≤ 2*w.bytes)
    (hlt : r < 2^64) :
    (execs (pair w) m).mem = copyTo (m.reg .rdi) r (window m.mem (m.reg .rsi)) m.mem := by
  have hjoin := @copyTo_join (m.reg .rsi) (m.reg .rdi) 0 (r-w.bytes) w.bytes w.bytes m.mem m.mem (Nat.zero_le _) (by omega)
    (by omega) (by omega)
  have hsize : max (0+w.bytes) (r-w.bytes+w.bytes)-0 = r := by omega
  rw [hsize, BitVec.add_zero, BitVec.add_zero] at hjoin
  rw [pair_mem, storeWord_loadAt, storeWord_loadAt, address_index, address_index, hr, from_end _ hw, from_end _ hw,
    Machine.address_zero, Machine.address_zero, hjoin]

theorem below (hr : m.reg .rdx = BitVec.ofNat 64 r) (hlt : r < 2^64) {k : ℕ} (hk : k < 2^64) :
    (m.reg .rdx).ult (BitVec.ofNat 64 k) = decide (r < k) := by
  rw [hr, BitVec.ult, BitVec.toNat_ofNat, BitVec.toNat_ofNat, Nat.mod_eq_of_lt hlt, Nat.mod_eq_of_lt hk]

/-- 16 to 31 bytes. -/
theorem quads_mem (m : Machine) :
    (execs (block (next .l1)) m).mem = storeWord (m.address ⟨-8, .rdi, some .rdx⟩) 8
      (m.loadAt .quad (m.address ⟨-8, .rsi, some .rdx⟩)).toNat
      (storeWord (m.address ⟨-16, .rdi, some .rdx⟩) 8 (m.loadAt .quad (m.address ⟨-16, .rsi, some .rdx⟩)).toNat
      (storeWord (m.address ⟨8, .rdi, none⟩) 8 (m.loadAt .quad (m.address ⟨8, .rsi, none⟩)).toNat
      (storeWord (m.address ⟨0, .rdi, none⟩) 8 (m.loadAt .quad (m.address ⟨0, .rsi, none⟩)).toNat m.mem))) := rfl

theorem storeWord_quad (a b : BitVec 64) (m : Machine) (mem : Mem) :
    storeWord a 8 (m.loadAt .quad b).toNat mem = copyTo a 8 (window m.mem b) mem :=
  @storeWord_loadAt m .quad a b mem

theorem quads_copy (hr : m.reg .rdx = BitVec.ofNat 64 r) (hge : 16 ≤ r) (hlt : r < 32) :
    (execs (block (next .l1)) m).mem = copyTo (m.reg .rdi) r (window m.mem (m.reg .rsi)) m.mem := by
  have hfirst := @copyTo_join (m.reg .rsi) (m.reg .rdi) 0 8 8 8 m.mem m.mem (by omega) (by omega) (by omega) (by omega)
  have hthird := @copyTo_join (m.reg .rsi) (m.reg .rdi) 0 (r-16) 16 8 m.mem m.mem (by omega) (by omega) (by omega) (by omega)
  have hlast := @copyTo_join (m.reg .rsi) (m.reg .rdi) 0 (r-8) (max 16 (r-8)) 8 m.mem m.mem (by omega) (by omega)
    (by omega) (by omega)
  rw [show max (0+8) (8+8)-0 = 16 from rfl] at hfirst
  rw [show max (0+16) (r-16+8)-0 = max 16 (r-8) by omega] at hthird
  rw [show max (0+max 16 (r-8)) (r-8+8)-0 = r by omega] at hlast
  rw [BitVec.add_zero, BitVec.add_zero] at hfirst hthird hlast
  have h8 : ∀ a, a+BitVec.ofNat 64 r+BitVec.ofInt 64 (-8) = a+BitVec.ofNat 64 (r-8) := fun a => @from_end r a 8 (by omega)
  have h16 : ∀ a, a+BitVec.ofNat 64 r+BitVec.ofInt 64 (-16) = a+BitVec.ofNat 64 (r-16) := fun a => @from_end r a 16 hge
  rw [quads_mem, storeWord_quad, storeWord_quad, storeWord_quad, storeWord_quad, address_index, address_index,
    address_index, address_index, hr, h8, h8, h16, h16, address_none, address_none, address_zero, address_zero]
  exact (congrArg _ ((congrArg _ hfirst).trans hthird)).trans hlast

/-- The bytes that are left when a label is reached, below a bound. -/
def Tail (l : Label) (bound : ℕ) : Prop :=
  ∀ (m : Machine) (r : ℕ), m.reg .rdx = BitVec.ofNat 64 r → r < bound →
    Ends memmove (.here (place l) m) (Returned m (copyTo (m.reg .rdi) r (window m.mem (m.reg .rsi)) m.mem))

/-- From `k` bytes on they are copied here, others at the next label. -/
theorem tail_step {l l' : Label} {k bound : ℕ} (htest : block (place l) = [.alu .cmp .quad (.imm k) .rdx])
    (hbranch : (beyond (place l)).head? = some (.jcc .b l')) (hjump : (beyond (next l)).head? = some (.jmp .l13))
    (hframe : (block (next l)).all fun i => i.writes.all (· ∈ scratch) && !i.turns)
    (hcopy : ∀ (m : Machine) (r : ℕ), m.reg .rdx = BitVec.ofNat 64 r → k ≤ r → r < bound →
      (execs (block (next l)) m).mem = copyTo (m.reg .rdi) r (window m.mem (m.reg .rsi)) m.mem)
    (hbound : bound ≤ 2^64) (hk : k < 2^64) (htail : Tail l' k) : Tail l bound := by
  intro m r hr hlt
  have hcarry : (execs [.alu .cmp .quad (.imm k) .rdx] m).holds .b = decide (r < k) := by
    rw [← below hr (by omega) hk, ← BitVec.ofInt_natCast]
    rfl
  refine .branches hbranch (after_place l') (fun hc => ?_) (fun hc => ?_) <;> rw [htest, hcarry] at hc <;> rw [htest]
  · have hret := htail (execs [.alu .cmp .quad (.imm k) .rdx] m) r hr (of_decide_eq_true hc)
    exact hret.mono fun _ => .of_same ⟨fun _ _ => rfl, rfl⟩
  · have hsame : Same m (execs [.alu .cmp .quad (.imm k) .rdx] m) := ⟨fun _ _ => rfl, rfl⟩
    refine .jumps hjump (after_place .l13) ?_
    exact Same.returns (hsame.trans (.execs hframe)) (hcopy _ r hr (not_lt.mp (of_decide_eq_false hc)) hlt)

theorem tail_l12 : Tail .l12 2 := by
  intro m r hr hlt
  have hcarry : (execs (block (place .l12)) m).holds .b = decide (r < 1) :=
    below hr (by omega) (by decide)
  refine .branches rfl (after_place .l13) (fun hc => ?_) (fun hc => ?_) <;> rw [hcarry] at hc
  · have h0 : r = 0 := Nat.lt_one_iff.mp (of_decide_eq_true hc)
    subst h0
    exact Same.returns (.execs rfl) (copyTo_zero _ _).symm
  · have h1 : r = 1 := by
      have := of_decide_eq_false hc
      omega
    subst h1
    have hmem (m : Machine) : (execs (block (next .l12)) m).mem =
        storeWord (m.address ⟨0, .rdi, none⟩) 1 (m.loadAt .byte (m.address ⟨0, .rsi, none⟩)).toNat m.mem := by
      change (execs [.load .byte ⟨0, .rsi, none⟩ .r11, .store .byte .r11 ⟨0, .rdi, none⟩] m).mem = _
      simp [execs, Machine.exec, Machine.reg_write_other, Width.bytes]
    have hcopy : (execs (block (next .l12)) (execs (block (place .l12)) m)).mem =
        copyTo (m.reg .rdi) 1 (window m.mem (m.reg .rsi)) m.mem := by
      have hbyte := @storeWord_loadAt m .byte (m.reg .rdi) (m.reg .rsi) m.mem
      rw [hmem, address_zero, address_zero]
      exact hbyte
    exact .falls rfl (Same.returns (.trans (.execs rfl) (.execs rfl)) hcopy)

/-- Less than 32 bytes. -/
theorem small : Tail .l1 32 := by
  have hpair (w : Width) (m : Machine) (r : ℕ) (hr : m.reg .rdx = BitVec.ofNat 64 r) (hk : w.bytes ≤ r)
      (hlt : r < 2*w.bytes) :
      (execs (pair w) m).mem = copyTo (m.reg .rdi) r (window m.mem (m.reg .rsi)) m.mem := by
    have hw : w.bytes ≤ 8 := by cases w <;> decide
    exact pair_copies hr hk (by omega) (by omega)
  have h11 : Tail .l11 4 := tail_step rfl rfl rfl rfl (hpair .word) (by decide) (by decide) tail_l12
  have h10 : Tail .l10 8 := tail_step rfl rfl rfl rfl (hpair .long) (by decide) (by decide) h11
  have h9 : Tail .l9 16 := tail_step rfl rfl rfl rfl (hpair .quad) (by decide) (by decide) h10
  exact tail_step rfl rfl rfl rfl (fun m r hr hk hlt => quads_copy hr hk hlt) (by decide) (by decide) h9

end Small

/-! ## Directions -/

section Directions

variable {s d : BitVec 64} {n i j k c : ℕ} {mem mem' : Mem}

/-- No byte is read after it was written, when the first bytes come first. -/
def Forward (s d : BitVec 64) (n : ℕ) : Prop :=
  d.toNat+n ≤ 2^64 ∧ s.toNat+n ≤ 2^64 ∧ (d.toNat ≤ s.toNat ∨ s.toNat+n ≤ d.toNat)

def Backward (s d : BitVec 64) (n : ℕ) : Prop :=
  d.toNat+n ≤ 2^64 ∧ s.toNat+n ≤ 2^64 ∧ (s.toNat ≤ d.toNat ∨ d.toNat+n ≤ s.toNat)

theorem Forward.extend (hf : Forward s d n) (h : mem' = copyTo d k (window mem s) mem) (hk : k+c ≤ n) :
    copyTo (d+BitVec.ofNat 64 k) c (window mem' (s+BitVec.ofNat 64 k)) mem' = copyTo d (k+c) (window mem s) mem := by
  obtain ⟨hd, hs, hor⟩ := hf
  have hunread : ∀ i < c, window mem' (s+BitVec.ofNat 64 k) i = window mem (s+BitVec.ofNat 64 k) i := by
    intro i hi
    rw [window_add, window_add, h, window, window]
    refine copyTo_other ?_
    rw [BitVec.toNat_sub, BitVec.toNat_add, BitVec.toNat_ofNat]
    omega
  have hjoin := @copyTo_join s d 0 k k c mem mem (by omega) (by omega) (by omega) (by omega)
  rw [BitVec.add_zero, BitVec.add_zero, show max (0+k) (k+c)-0 = k+c by omega] at hjoin
  rw [copyTo_congr hunread, h, hjoin]

theorem Backward.extend (hb : Backward s d n)
    (h : mem' = copyTo (d+BitVec.ofNat 64 j) (n-j) (window mem (s+BitVec.ofNat 64 j)) mem) (hj : i+c = j) (hn : j ≤ n) :
    copyTo (d+BitVec.ofNat 64 i) c (window mem' (s+BitVec.ofNat 64 i)) mem' =
      copyTo (d+BitVec.ofNat 64 i) (n-i) (window mem (s+BitVec.ofNat 64 i)) mem := by
  obtain ⟨hd, hs, hor⟩ := hb
  have hunread : ∀ l < c, window mem' (s+BitVec.ofNat 64 i) l = window mem (s+BitVec.ofNat 64 i) l := by
    intro l hl
    rw [window_add, window_add, h, window, window]
    refine copyTo_other ?_
    rw [BitVec.toNat_sub, BitVec.toNat_add, BitVec.toNat_add, BitVec.toNat_ofNat, BitVec.toNat_ofNat]
    omega
  have hjoin := @copyTo_join_front s d i j c (n-j) mem mem (by omega) (by omega) (by omega) (by omega)
  rw [show max (i+c) (j+(n-j))-i = n-i by omega] at hjoin
  rw [copyTo_congr hunread, h, hjoin]

/-- The addresses of the bytes are canonical, all in the same half. -/
def Canonical (a : BitVec 64) (n : ℕ) : Prop :=
  a.toNat+n ≤ 2^47 ∨ 2^64-2^47 ≤ a.toNat ∧ a.toNat+n ≤ 2^64

theorem forward_ge (hs : Canonical s n) (hd : Canonical d n) (h : d.toInt ≤ s.toInt) : Forward s d n := by
  rw [BitVec.toInt_eq_toNat_cond, BitVec.toInt_eq_toNat_cond] at h
  simp only [Canonical, Forward] at *
  omega

theorem forward_apart (hs : Canonical s n) (hd : Canonical d n) (hlt : ¬ d.toInt ≤ s.toInt)
    (h : ¬ d.toInt < (s+BitVec.ofNat 64 n).toInt) : Forward s d n := by
  rw [BitVec.toInt_eq_toNat_cond, BitVec.toInt_eq_toNat_cond] at h hlt
  rw [BitVec.toNat_add, BitVec.toNat_ofNat] at h
  simp only [Canonical, Forward] at *
  omega

theorem backward_within (hs : Canonical s n) (hd : Canonical d n) (hlt : ¬ d.toInt ≤ s.toInt) : Backward s d n := by
  rw [BitVec.toInt_eq_toNat_cond, BitVec.toInt_eq_toNat_cond] at hlt
  simp only [Canonical, Backward] at *
  omega

end Directions

/-! ## Blocks of 32 bytes -/

section Blocks

variable {entry m : Machine} {s d : BitVec 64} {n k : ℕ}

/-- The four words of a round, in the order in which they are stored. -/
theorem four_words (a b : BitVec 64) (mem' mem : Mem) :
    copyTo (a+24#64) 8 (window mem' (b+24#64)) (copyTo (a+16#64) 8 (window mem' (b+16#64))
      (copyTo (a+8#64) 8 (window mem' (b+8#64)) (copyTo a 8 (window mem' b) mem))) = copyTo a 32 (window mem' b) mem := by
  have h₁ := @copyTo_join b a 0 8 8 8 mem' mem (by omega) (by omega) (by omega) (by omega)
  have h₂ := @copyTo_join b a 0 16 16 8 mem' mem (by omega) (by omega) (by omega) (by omega)
  have h₃ := @copyTo_join b a 0 24 24 8 mem' mem (by omega) (by omega) (by omega) (by omega)
  rw [BitVec.add_zero, BitVec.add_zero] at h₁ h₂ h₃
  exact (congrArg _ ((congrArg _ h₁).trans h₂)).trans h₃

theorem four_words_back (a b : BitVec 64) (mem' mem : Mem) :
    copyTo a 8 (window mem' b) (copyTo (a+8#64) 8 (window mem' (b+8#64))
      (copyTo (a+16#64) 8 (window mem' (b+16#64)) (copyTo (a+24#64) 8 (window mem' (b+24#64)) mem))) =
      copyTo a 32 (window mem' b) mem := by
  have h₁ := @copyTo_join_front b a 16 24 8 8 mem' mem (by omega) (by omega) (by omega) (by omega)
  have h₂ := @copyTo_join_front b a 8 16 8 16 mem' mem (by omega) (by omega) (by omega) (by omega)
  have h₃ := @copyTo_join_front b a 0 8 8 24 mem' mem (by omega) (by omega) (by omega) (by omega)
  rw [BitVec.add_zero, BitVec.add_zero] at h₃
  exact (congrArg _ ((congrArg _ h₁).trans h₂)).trans h₃

/-- The first `k` bytes are copied, and the pointers behind them. -/
structure Copied (entry : Machine) (s d : BitVec 64) (k : ℕ) (m : Machine) : Prop where
  rsi : m.reg .rsi = s+BitVec.ofNat 64 k
  rdi : m.reg .rdi = d+BitVec.ofNat 64 k
  mem : m.mem = copyTo d k (window entry.mem s) entry.mem
  same : Same entry m

theorem round_mem (m : Machine) :
    (execs (block (place .l5)) m).mem = copyTo (m.reg .rdi) 32 (window m.mem (m.reg .rsi)) m.mem := by
  have hstores : (execs (block (place .l5)) m).mem =
      storeWord (m.address ⟨24, .rdi, none⟩) 8 (m.loadAt .quad (m.address ⟨24, .rsi, none⟩)).toNat
      (storeWord (m.address ⟨16, .rdi, none⟩) 8 (m.loadAt .quad (m.address ⟨16, .rsi, none⟩)).toNat
      (storeWord (m.address ⟨8, .rdi, none⟩) 8 (m.loadAt .quad (m.address ⟨8, .rsi, none⟩)).toNat
      (storeWord (m.address ⟨0, .rdi, none⟩) 8 (m.loadAt .quad (m.address ⟨0, .rsi, none⟩)).toNat m.mem))) := rfl
  rw [hstores, storeWord_quad, storeWord_quad, storeWord_quad, storeWord_quad, address_zero, address_zero,
    address_none, address_none, address_none, address_none, address_none, address_none]
  exact four_words _ _ _ _

theorem Copied.round (hc : Copied entry s d k m) (hf : Forward s d n) (hk : k+32 ≤ n) :
    Copied entry s d (k+32) (execs (block (place .l5)) m) := by
  have hrsi : (execs (block (place .l5)) m).reg .rsi = m.address ⟨32, .rsi, none⟩ := rfl
  have hrdi : (execs (block (place .l5)) m).reg .rdi = m.address ⟨32, .rdi, none⟩ := rfl
  refine ⟨?_, ?_, ?_, hc.same.trans (.execs rfl)⟩
  · rw [hrsi, address_none, hc.rsi, BitVec.add_assoc, BitVec.ofNat_add]
    rfl
  · rw [hrdi, address_none, hc.rdi, BitVec.add_assoc, BitVec.ofNat_add]
    rfl
  · rw [round_mem, hc.rdi, hc.rsi]
    exact hf.extend hc.mem hk

/-- The bytes that no block takes. -/
theorem Copied.rest (hc : Copied entry s d k m) (hf : Forward s d n) (hk : k ≤ n) (hlt : n < k+32)
    (hrdx : m.reg .rdx = BitVec.ofNat 64 (n-k)) :
    Ends memmove (.here (place .l1) m) (Returned entry (copyTo d n (window entry.mem s) entry.mem)) := by
  have hret := small m (n-k) hrdx (by omega)
  rw [hc.rdi, hc.rsi, hf.extend hc.mem (by omega), Nat.add_sub_cancel' hk] at hret
  exact hret.mono fun _ => .of_same hc.same

theorem counted {a b : ℕ} (hb : b ≤ a) : BitVec.ofNat 64 a-BitVec.ofNat 64 b = BitVec.ofNat 64 (a-b) := by
  obtain ⟨c, rfl⟩ := Nat.exists_eq_add_of_le' hb
  rw [BitVec.ofNat_add, BitVec.add_sub_cancel, Nat.add_sub_cancel]

theorem forward_blocks (hf : Forward s d n) (hn : 32 ≤ n) (hc : Copied entry s d 0 m)
    (hrdx : m.reg .rdx = BitVec.ofNat 64 n) :
    Ends memmove (.here (place .l3) m) (Returned entry (copyTo d n (window entry.mem s) entry.mem)) := by
  have hsize : n ≤ 2^64 := by
    have := hf.1
    omega
  -- Before a round `k` bytes are copied, and `rdx` is 32 short of the rest.
  have hloop (k : ℕ) (m : Machine) (hc : Copied entry s d k m) (hk : k+32 ≤ n)
      (hrdx : m.reg .rdx = BitVec.ofNat 64 (n-32-k)) :
      Ends memmove (.here (place .l5) m) (Returned entry (copyTo d n (window entry.mem s) entry.mem)) := by
    refine Ends.loop (I := fun r c => ∃ m k, c = .here (place .l5) m ∧ Copied entry s d k m ∧ k+32 ≤ n ∧
      m.reg .rdx = BitVec.ofNat 64 (n-32-k) ∧ r = n-k) ?_ (n-k) ⟨m, k, rfl, hc, hk, hrdx, rfl⟩
    rintro r c ⟨m, k, rfl, hc, hk, hrdx, rfl⟩
    have hround := hc.round hf hk
    have hcount : (execs (block (place .l5)) m).reg .rdx = m.reg .rdx-BitVec.ofNat 64 32 := rfl
    have hborrow : (execs (block (place .l5)) m).holds .ae = !decide (n-32-k < 32) :=
      congrArg Bool.not (@below m _ hrdx (by omega) 32 (by decide))
    rw [hrdx] at hcount
    refine .branches rfl (after_place .l5) (fun hcond => ?_) (fun hcond => ?_) <;> rw [hborrow] at hcond
    · have hge : 32 ≤ n-32-k := by simpa using hcond
      rw [counted hge] at hcount
      exact .done (.inr ⟨n-(k+32), by omega, _, k+32, rfl, hround, by omega, by rw [hcount]; congr 1, rfl⟩)
    · have hlt : n-32-k < 32 := by simpa using hcond
      refine .jumps rfl (after_place .l1) (Ends.mono ?_ fun _ => .inl)
      have hrest : (execs (block (next .l5)) (execs (block (place .l5)) m)).reg .rdx =
          BitVec.ofNat 64 (n-32-k)-BitVec.ofNat 64 32+BitVec.ofNat 64 32 := by
        rw [← hcount]
        rfl
      rw [BitVec.sub_add_cancel] at hrest
      have hsame : Copied entry s d (k+32) (execs (block (next .l5)) (execs (block (place .l5)) m)) :=
        ⟨hround.rsi, hround.rdi, hround.mem, hround.same.trans (.execs rfl)⟩
      exact hsame.rest hf hk (by omega) (by rw [hrest]; congr 1; omega)
  refine .falls rfl (hloop 0 _ ⟨hc.rsi, hc.rdi, hc.mem, hc.same.trans (.execs rfl)⟩ (by omega) ?_)
  have hcount : (execs (block (place .l3)) m).reg .rdx = m.reg .rdx-BitVec.ofNat 64 32 := rfl
  rw [hcount, hrdx, counted hn, Nat.sub_zero]

/-- The bytes from the `j`-th on are copied. -/
structure CopiedBack (entry : Machine) (s d : BitVec 64) (n j : ℕ) (m : Machine) : Prop where
  rsi : m.reg .rsi = s+BitVec.ofNat 64 j
  rdi : m.reg .rdi = d+BitVec.ofNat 64 j
  mem : m.mem = copyTo (d+BitVec.ofNat 64 j) (n-j) (window entry.mem (s+BitVec.ofNat 64 j)) entry.mem
  same : Same entry m

theorem round_back_mem {a b : BitVec 64} (ha : m.reg .rdi = a+BitVec.ofNat 64 32) (hb : m.reg .rsi = b+BitVec.ofNat 64 32) :
    (execs (block (place .l8)) m).mem = copyTo a 32 (window m.mem b) m.mem := by
  have hstores : (execs (block (place .l8)) m).mem =
      storeWord (m.address ⟨-32, .rdi, none⟩) 8 (m.loadAt .quad (m.address ⟨-32, .rsi, none⟩)).toNat
      (storeWord (m.address ⟨-24, .rdi, none⟩) 8 (m.loadAt .quad (m.address ⟨-24, .rsi, none⟩)).toNat
      (storeWord (m.address ⟨-16, .rdi, none⟩) 8 (m.loadAt .quad (m.address ⟨-16, .rsi, none⟩)).toNat
      (storeWord (m.address ⟨-8, .rdi, none⟩) 8 (m.loadAt .quad (m.address ⟨-8, .rsi, none⟩)).toNat m.mem))) := rfl
  have h8 (x : BitVec 64) : x+BitVec.ofNat 64 32+BitVec.ofInt 64 (-8) = x+24#64 := @from_end 32 x 8 (by decide)
  have h16 (x : BitVec 64) : x+BitVec.ofNat 64 32+BitVec.ofInt 64 (-16) = x+16#64 := @from_end 32 x 16 (by decide)
  have h24 (x : BitVec 64) : x+BitVec.ofNat 64 32+BitVec.ofInt 64 (-24) = x+8#64 := @from_end 32 x 24 (by decide)
  have h32 (x : BitVec 64) : x+BitVec.ofNat 64 32+BitVec.ofInt 64 (-32) = x :=
    (@from_end 32 x 32 le_rfl).trans (BitVec.add_zero x)
  rw [hstores, storeWord_quad, storeWord_quad, storeWord_quad, storeWord_quad, address_none, address_none, address_none,
    address_none, address_none, address_none, address_none, address_none, ha, hb, h8, h8, h16, h16, h24, h24, h32, h32]
  exact four_words_back _ _ _ _

theorem CopiedBack.round (hc : CopiedBack entry s d n (k+32) m) (hb : Backward s d n) (hk : k+32 ≤ n) :
    CopiedBack entry s d n k (execs (block (place .l8)) m) := by
  have hrsi : (execs (block (place .l8)) m).reg .rsi = m.address ⟨-32, .rsi, none⟩ := rfl
  have hrdi : (execs (block (place .l8)) m).reg .rdi = m.address ⟨-32, .rdi, none⟩ := rfl
  have hstep (x : BitVec 64) : x+BitVec.ofNat 64 (k+32)+BitVec.ofInt 64 (-32) = x+BitVec.ofNat 64 k :=
    (@from_end (k+32) x 32 (by omega)).trans (by rw [Nat.add_sub_cancel])
  have hsplit (x : BitVec 64) : x+BitVec.ofNat 64 (k+32) = x+BitVec.ofNat 64 k+BitVec.ofNat 64 32 := by
    rw [BitVec.ofNat_add, BitVec.add_assoc]
  refine ⟨?_, ?_, ?_, hc.same.trans (.execs rfl)⟩
  · rw [hrsi, address_none, hc.rsi, hstep]
  · rw [hrdi, address_none, hc.rdi, hstep]
  · rw [round_back_mem (hc.rdi.trans (hsplit d)) (hc.rsi.trans (hsplit s))]
    exact hb.extend hc.mem rfl hk

/-- The bytes in front of the blocks. -/
theorem CopiedBack.rest (hc : CopiedBack entry s d n k m) (hb : Backward s d n) (hk : k ≤ n) (hlt : k < 32)
    {m' : Machine} (hrsi : m'.reg .rsi = s) (hrdi : m'.reg .rdi = d) (hrdx : m'.reg .rdx = BitVec.ofNat 64 k)
    (hmem : m'.mem = m.mem) (hsame : Same m m') :
    Ends memmove (.here (place .l1) m') (Returned entry (copyTo d n (window entry.mem s) entry.mem)) := by
  have hret := small m' k hrdx hlt
  have hext := @Backward.extend s d n 0 k k entry.mem m.mem hb hc.mem (Nat.zero_add k) hk
  rw [BitVec.add_zero, BitVec.add_zero, Nat.sub_zero] at hext
  rw [hrsi, hrdi, hmem, hext] at hret
  exact hret.mono fun _ => .of_same (hc.same.trans hsame)

/-- The pointers go to the end and back by `rdx`. -/
theorem pointers_end : (execs (block (place .l6)) m).reg .rsi = m.reg .rsi+m.reg .rdx ∧
    (execs (block (place .l6)) m).reg .rdi = m.reg .rdi+m.reg .rdx := by
  have hblock : block (place .l6) = [.alu .add .quad (.reg .rdx) .rsi, .alu .add .quad (.reg .rdx) .rdi,
    .alu .sub .quad (.imm 0x20) .rdx] := rfl
  rw [hblock, execs_cons, execs_cons, execs_cons, execs_nil]
  constructor
  · rw [reg_exec (by decide), reg_exec (by decide), Machine.exec_add]
  · rw [reg_exec (by decide), Machine.exec_add, reg_exec (by decide), reg_exec (by decide)]

theorem pointers_back :
    (execs (block (next .l8)) m).reg .rsi = m.reg .rsi-(execs (block (next .l8)) m).reg .rdx ∧
      (execs (block (next .l8)) m).reg .rdi = m.reg .rdi-(execs (block (next .l8)) m).reg .rdx := by
  have hblock : block (next .l8) = [.alu .add .quad (.imm 0x20) .rdx, .alu .sub .quad (.reg .rdx) .rsi,
    .alu .sub .quad (.reg .rdx) .rdi] := rfl
  rw [hblock, execs_cons, execs_cons, execs_cons, execs_nil]
  have hrsi : (m.exec (.alu .add .quad (.imm 0x20) .rdx)).reg .rsi = m.reg .rsi := reg_exec (by decide)
  have hrdi : (m.exec (.alu .add .quad (.imm 0x20) .rdx)).reg .rdi = m.reg .rdi := reg_exec (by decide)
  generalize m.exec (.alu .add .quad (.imm 0x20) .rdx) = m' at *
  constructor
  · rw [reg_exec (by decide), Machine.exec_sub, reg_exec (by decide), reg_exec (by decide), hrsi]
  · rw [Machine.exec_sub, reg_exec (by decide), reg_exec (by decide), reg_exec (by decide), reg_exec (by decide), hrdi]

theorem backward_blocks (hb : Backward s d n) (hn : 32 ≤ n) (hc : Copied entry s d 0 m)
    (hrdx : m.reg .rdx = BitVec.ofNat 64 n) :
    Ends memmove (.here (place .l6) m) (Returned entry (copyTo d n (window entry.mem s) entry.mem)) := by
  have hsize : n ≤ 2^64 := by
    have := hb.1
    omega
  -- Before a round `k+32` bytes are left, and `rdx` is `k`.
  have hloop (k : ℕ) (m : Machine) (hc : CopiedBack entry s d n (k+32) m) (hk : k+32 ≤ n)
      (hrdx : m.reg .rdx = BitVec.ofNat 64 k) :
      Ends memmove (.here (place .l8) m) (Returned entry (copyTo d n (window entry.mem s) entry.mem)) := by
    refine Ends.loop (I := fun k c => ∃ m, c = .here (place .l8) m ∧ CopiedBack entry s d n (k+32) m ∧ k+32 ≤ n ∧
      m.reg .rdx = BitVec.ofNat 64 k) ?_ k ⟨m, rfl, hc, hk, hrdx⟩
    rintro k c ⟨m, rfl, hc, hk, hrdx⟩
    have hround := hc.round hb hk
    have hcount : (execs (block (place .l8)) m).reg .rdx = m.reg .rdx-BitVec.ofNat 64 32 := rfl
    have hborrow : (execs (block (place .l8)) m).holds .ae = !decide (k < 32) :=
      congrArg Bool.not (@below m _ hrdx (by omega) 32 (by decide))
    rw [hrdx] at hcount
    refine .branches rfl (after_place .l8) (fun hcond => ?_) (fun hcond => ?_) <;> rw [hborrow] at hcond
    · have hge : 32 ≤ k := by simpa using hcond
      rw [counted hge] at hcount
      obtain ⟨k, rfl⟩ := Nat.exists_eq_add_of_le' hge
      rw [Nat.add_sub_cancel] at hcount
      exact .done (.inr ⟨k, by omega, _, rfl, hround, by omega, hcount⟩)
    · have hlt : k < 32 := by simpa using hcond
      refine .falls rfl (Ends.mono ?_ fun _ => .inl)
      have hrest : (execs (block (next .l8)) (execs (block (place .l8)) m)).reg .rdx =
          BitVec.ofNat 64 k-BitVec.ofNat 64 32+BitVec.ofNat 64 32 := by
        rw [← hcount]
        rfl
      rw [BitVec.sub_add_cancel] at hrest
      have hrsi : (execs (block (next .l8)) (execs (block (place .l8)) m)).reg .rsi = s := by
        rw [pointers_back.1, hround.rsi, hrest, BitVec.add_sub_cancel]
      have hrdi : (execs (block (next .l8)) (execs (block (place .l8)) m)).reg .rdi = d := by
        rw [pointers_back.2, hround.rdi, hrest, BitVec.add_sub_cancel]
      exact hround.rest hb (by omega) hlt hrsi hrdi hrest rfl (.execs rfl)
  have hzero (x : BitVec 64) : x+BitVec.ofNat 64 0 = x := BitVec.add_zero x
  have hstart : n-32+32 = n := by omega
  have hcount : (execs (block (place .l6)) m).reg .rdx = m.reg .rdx-BitVec.ofNat 64 32 := rfl
  rw [hrdx, counted hn] at hcount
  refine .falls rfl (hloop (n-32) _ ⟨?_, ?_, ?_, hc.same.trans (.execs rfl)⟩ (by omega) hcount)
  · rw [pointers_end.1, hc.rsi, hrdx, hzero, hstart]
  · rw [pointers_end.2, hc.rdi, hrdx, hzero, hstart]
  · have hmem : (execs (block (place .l6)) m).mem = m.mem := rfl
    rw [hmem, hc.mem, hstart, Nat.sub_self, copyTo_zero, copyTo_zero]

end Blocks

/-! ## Words -/

section Words

variable {entry m : Machine} {s d : BitVec 64} {n k q : ℕ}

theorem Same.moveQuads (n : ℕ) : Same m (m.moveQuads n) := by
  refine ⟨fun r hr => Machine.reg_moveQuads ?_, Machine.direction_moveQuads⟩
  simp only [scratch, List.mem_cons, List.not_mem_nil, or_false, not_or] at hr ⊢
  exact ⟨hr.1, hr.2.2.1, hr.2.2.2.1⟩

theorem Copied.moveQuads (hc : Copied entry s d k m) (hf : Forward s d n) (hdir : m.direction = false)
    (hk : k+8*q ≤ n) : Copied entry s d (k+8*q) (m.moveQuads q) := by
  induction q generalizing k m with
  | zero => exact hc
  | succ q ih =>
    have hstride : m.stride = 8#64 := if_neg (by rw [hdir]; decide)
    have hnext : Copied entry s d (k+8) (m.moveQuad.set .rcx (m.reg .rcx-1)) := by
      refine ⟨?_, ?_, ?_, hc.same.trans (Same.moveQuads 1)⟩
      · rw [Machine.reg_set_other _ (by decide), Machine.moveQuad_rsi, hc.rsi, hstride, BitVec.add_assoc, BitVec.ofNat_add]
      · rw [Machine.reg_set_other _ (by decide), Machine.moveQuad_rdi, hc.rdi, hstride, BitVec.add_assoc, BitVec.ofNat_add]
      · have hmem : (m.moveQuad.set .rcx (m.reg .rcx-1)).mem = m.moveQuad.mem := rfl
        rw [hmem, Machine.moveQuad_mem, hc.rdi, hc.rsi]
        exact hf.extend hc.mem (by omega)
    rw [show k+8*(q+1) = k+8+8*q by omega] at hk ⊢
    exact ih hnext hdir hk

theorem quads_count (hn : n < 2^64) (h : m.reg .rdx = BitVec.ofNat 64 n) : (m.reg .rdx >>> 3).toNat = n/8 := by
  rw [h, BitVec.toNat_ushiftRight, BitVec.toNat_ofNat, Nat.mod_eq_of_lt hn, Nat.shiftRight_eq_div_pow]

/-- A register that holds a word of the source, and is stored in the end. -/
theorem store_word {a b : BitVec 64} {mem : Mem} {r r' : Gpr} (hr : (m.reg r).toNat = word (window mem b) 0 8)
    (ha : m.reg r' = a) : (m.exec (.store .quad r ⟨0, r', none⟩)).mem = copyTo a 8 (window mem b) m.mem := by
  rw [Machine.exec_store, hr, storeWord_word, address_zero, ha]

theorem forward_words (hf : Forward s d n) (hn : 8 ≤ n) (hlt : n < 2^64) (hc : Copied entry s d 0 m)
    (hrdx : m.reg .rdx = BitVec.ofNat 64 n) (hdir : m.direction = false) :
    Ends memmove (.here (place .l4) m) (Returned entry (copyTo d n (window entry.mem s) entry.mem)) := by
  have hend (x : BitVec 64) : x+BitVec.ofNat 64 n+BitVec.ofInt 64 (-8) = x+BitVec.ofNat 64 (n-8) := @from_end n x 8 hn
  have hzero (x : BitVec 64) : x+BitVec.ofNat 64 0 = x := BitVec.add_zero x
  refine .jumps rfl (after_place .l13) (Same.returns (hc.same.trans (.execs rfl)) ?_)
  -- The registers in front of `rep movsq`, which keeps `r10` and `r11`.
  have hr11 : (execs ((block (place .l4)).take 4) m).reg .r11 = m.loadAt .quad (m.reg .rsi+m.reg .rdx+BitVec.ofInt 64 (-8)) :=
    rfl
  have hr10 : (execs ((block (place .l4)).take 4) m).reg .r10 = m.reg .rdi+m.reg .rdx+BitVec.ofInt 64 (-8) := rfl
  have hrcx : (execs ((block (place .l4)).take 4) m).reg .rcx = m.reg .rdx >>> 3 :=
    congrArg (fun v : BitVec 64 => v >>> 3) (read_quad (m := m) (r := .rdx))
  have hstart : Copied entry s d 0 (execs ((block (place .l4)).take 4) m) :=
    ⟨hc.rsi, hc.rdi, hc.mem, hc.same.trans (.execs rfl)⟩
  have hdir' : (execs ((block (place .l4)).take 4) m).direction = false := hdir
  have hexec : execs (block (place .l4)) m = ((execs ((block (place .l4)).take 4) m).exec .repMovsq).exec
      (.store .quad .r11 ⟨0, .r10, none⟩) := rfl
  rw [hexec]
  generalize execs ((block (place .l4)).take 4) m = m' at *
  have hword : (m'.reg .r11).toNat = word (window entry.mem (s+BitVec.ofNat 64 (n-8))) 0 8 := by
    rw [hr11, hc.rsi, hzero, hrdx, hend]
    refine Machine.toNat_loadAt.trans ?_
    rw [hc.mem, copyTo_zero]
    rfl
  rw [hc.rdi, hzero, hrdx, hend] at hr10
  have hmoved := (hstart.moveQuads hf hdir' (q := n/8) (by omega)).mem
  have hjoin := @copyTo_join s d 0 (n-8) (0+8*(n/8)) 8 entry.mem entry.mem (by omega) (by omega) (by omega) (by omega)
  rw [show max (0+(0+8*(n/8))) (n-8+8)-0 = n by omega, hzero, hzero] at hjoin
  have hrep : m'.exec .repMovsq = m'.moveQuads (n/8) := by
    rw [Machine.exec, hrcx, quads_count hlt hrdx]
  rw [hrep, store_word (by rw [Machine.reg_moveQuads (by decide), hword]) (by rw [Machine.reg_moveQuads (by decide), hr10]),
    hmoved, hjoin]

theorem moveQuads_back {j : ℕ} (hb : Backward s d n) (hrsi : m.reg .rsi = s+BitVec.ofNat 64 j-8#64)
    (hrdi : m.reg .rdi = d+BitVec.ofNat 64 j-8#64) (hdir : m.direction = true)
    (hmem : m.mem = copyTo (d+BitVec.ofNat 64 j) (n-j) (window entry.mem (s+BitVec.ofNat 64 j)) entry.mem)
    (hq : 8*q ≤ j) (hj : j ≤ n) :
    (m.moveQuads q).mem = copyTo (d+BitVec.ofNat 64 (j-8*q)) (n-(j-8*q))
      (window entry.mem (s+BitVec.ofNat 64 (j-8*q))) entry.mem := by
  induction q generalizing j m with
  | zero => exact hmem
  | succ q ih =>
    obtain ⟨i, rfl⟩ := Nat.exists_eq_add_of_le' (show 8 ≤ j by omega)
    have hback (x : BitVec 64) : x+BitVec.ofNat 64 (i+8)-8#64 = x+BitVec.ofNat 64 i := by
      rw [BitVec.ofNat_add, ← BitVec.add_assoc, BitVec.add_sub_cancel]
    have hstride : m.stride = -8#64 := if_pos hdir
    rw [hback] at hrsi hrdi
    rw [show i+8-8*(q+1) = i-8*q by omega]
    refine @ih (m.moveQuad.set .rcx (m.reg .rcx-1)) i ?_ ?_ hdir ?_ (by omega) (by omega)
    · rw [Machine.reg_set_other _ (by decide), Machine.moveQuad_rsi, hrsi, hstride, BitVec.sub_eq_add_neg]
    · rw [Machine.reg_set_other _ (by decide), Machine.moveQuad_rdi, hrdi, hstride, BitVec.sub_eq_add_neg]
    · have hset : (m.moveQuad.set .rcx (m.reg .rcx-1)).mem = m.moveQuad.mem := rfl
      rw [hset, Machine.moveQuad_mem, hrdi, hrsi]
      exact hb.extend hmem rfl hj

theorem backward_words (hb : Backward s d n) (hn : 8 ≤ n) (hlt : n < 2^64) (hc : Copied entry s d 0 m)
    (hrdx : m.reg .rdx = BitVec.ofNat 64 n) (hdir : m.direction = false) :
    Ends memmove (.here (place .l7) m) (Returned entry (copyTo d n (window entry.mem s) entry.mem)) := by
  have hzero (x : BitVec 64) : x+BitVec.ofNat 64 0 = x := BitVec.add_zero x
  have hsame : Same m (execs (block (place .l7)) m) := by
    refine ⟨fun r hr => reg_execs fun i hi hmem => hr ?_, hdir.symm⟩
    have hall : (block (place .l7)).all fun i => i.writes.all (· ∈ scratch) := rfl
    simp only [List.all_eq_true, decide_eq_true_eq] at hall
    exact hall i hi r hmem
  refine .jumps rfl (after_place .l13) (Same.returns (hc.same.trans hsame) ?_)
  have hr11 : (execs ((block (place .l7)).take 7) m).reg .r11 = m.loadAt .quad (m.address ⟨0, .rsi, none⟩) := rfl
  have hr10 : (execs ((block (place .l7)).take 7) m).reg .r10 = m.reg .rdi := read_quad (m := m) (r := .rdi)
  have hrcx : (execs ((block (place .l7)).take 7) m).reg .rcx = m.reg .rdx >>> 3 :=
    congrArg (fun v : BitVec 64 => v >>> 3) (read_quad (m := m) (r := .rdx))
  have hrsi : (execs ((block (place .l7)).take 7) m).reg .rsi = m.reg .rsi+m.reg .rdx+BitVec.ofInt 64 (-8) := rfl
  have hrdi : (execs ((block (place .l7)).take 7) m).reg .rdi = m.reg .rdi+m.reg .rdx+BitVec.ofInt 64 (-8) := rfl
  have hturned : (execs ((block (place .l7)).take 7) m).direction = true := rfl
  have hmem : (execs ((block (place .l7)).take 7) m).mem = m.mem := rfl
  have hexec : execs (block (place .l7)) m = (((execs ((block (place .l7)).take 7) m).exec .repMovsq).exec .cld).exec
      (.store .quad .r11 ⟨0, .r10, none⟩) := rfl
  rw [hexec]
  generalize execs ((block (place .l7)).take 7) m = m' at *
  have hword : (m'.reg .r11).toNat = word (window entry.mem s) 0 8 := by
    rw [hr11, address_zero, hc.rsi, hzero]
    refine Machine.toNat_loadAt.trans ?_
    rw [hc.mem, copyTo_zero]
    rfl
  have hnone : m'.mem = copyTo (d+BitVec.ofNat 64 n) (n-n) (window entry.mem (s+BitVec.ofNat 64 n)) entry.mem := by
    rw [hmem, hc.mem, Nat.sub_self, copyTo_zero, copyTo_zero]
  have hneg : BitVec.ofInt 64 (-8) = -8#64 := by decide
  rw [hc.rsi, hzero, hrdx, hneg, ← BitVec.sub_eq_add_neg] at hrsi
  rw [hc.rdi, hzero, hrdx, hneg, ← BitVec.sub_eq_add_neg] at hrdi
  have hmoved := moveQuads_back hb hrsi hrdi hturned hnone (q := n/8) (by omega) le_rfl
  have hjoin := @copyTo_join_front s d 0 (n-8*(n/8)) 8 (n-(n-8*(n/8))) entry.mem entry.mem (by omega) (by omega)
    (by omega) (by omega)
  rw [show max (0+8) (n-8*(n/8)+(n-(n-8*(n/8))))-0 = n by omega, hzero, hzero] at hjoin
  have hrep : m'.exec .repMovsq = m'.moveQuads (n/8) := by
    rw [Machine.exec, hrcx, quads_count hlt hrdx]
  rw [hrep, store_word (by rw [reg_exec (by decide), Machine.reg_moveQuads (by decide), hword])
    (by rw [reg_exec (by decide), Machine.reg_moveQuads (by decide), hr10, hc.rdi, hzero])]
  have hcld : ((m'.moveQuads (n/8)).exec .cld).mem = (m'.moveQuads (n/8)).mem := rfl
  rw [hcld, hmoved, hjoin]

end Words

/-! ## The whole -/

section Whole

variable {entry m : Machine} {s d : BitVec 64} {n : ℕ}

/-- Forward from this label on, in blocks or in words. -/
theorem forward (hf : Forward s d n) (hn : 32 ≤ n) (hlt : n < 2^64) (hc : Copied entry s d 0 m)
    (hrdx : m.reg .rdx = BitVec.ofNat 64 n) (hdir : m.direction = false) :
    Ends memmove (.here (place .beginForward) m) (Returned entry (copyTo d n (window entry.mem s) entry.mem)) := by
  refine .branches rfl (after_place .l3) (fun _ => ?_) (fun _ => ?_)
  · exact forward_blocks hf hn ⟨hc.rsi, hc.rdi, hc.mem, hc.same.trans (.execs rfl)⟩ hrdx
  · have hc' : Copied entry s d 0 (execs (block (next .beginForward)) (execs (block (place .beginForward)) m)) :=
      ⟨hc.rsi, hc.rdi, hc.mem, hc.same.trans (.trans (.execs rfl) (.execs rfl))⟩
    refine .branches rfl (after_place .l4) (fun _ => ?_) (fun _ => ?_)
    · exact forward_words hf (by omega) hlt hc' hrdx hdir
    · exact .falls rfl (forward_blocks hf hn hc' hrdx)

theorem backward (hb : Backward s d n) (hn : 32 ≤ n) (hlt : n < 2^64) (hc : Copied entry s d 0 m)
    (hrdx : m.reg .rdx = BitVec.ofNat 64 n) (hdir : m.direction = false) :
    Ends memmove (.here (place .l2) m) (Returned entry (copyTo d n (window entry.mem s) entry.mem)) := by
  refine .branches rfl (after_place .l6) (fun _ => ?_) (fun _ => ?_)
  · exact backward_blocks hb hn ⟨hc.rsi, hc.rdi, hc.mem, hc.same.trans (.execs rfl)⟩ hrdx
  · have hc' : Copied entry s d 0 (execs (block (next .l2)) (execs (block (place .l2)) m)) :=
      ⟨hc.rsi, hc.rdi, hc.mem, hc.same.trans (.trans (.execs rfl) (.execs rfl))⟩
    refine .branches rfl (after_place .l7) (fun _ => ?_) (fun _ => ?_)
    · exact backward_words hb (by omega) hlt hc' hrdx hdir
    · exact .falls rfl (backward_blocks hb hn hc' hrdx)

/-- The comparisons are signed, which decides for canonical addresses of either half. -/
theorem directions (hs : Canonical (m.reg .rsi) n) (hd : Canonical (m.reg .rdi) n) (hn : 32 ≤ n) (hlt : n < 2^64)
    (hrdx : m.reg .rdx = BitVec.ofNat 64 n) (hdir : m.direction = false) :
    Ends memmove (.here (beyond memmove).tail m)
      (Returned m (copyTo (m.reg .rdi) n (window m.mem (m.reg .rsi)) m.mem)) := by
  have hcopied (m' : Machine) (hsame : Same m m') (hrsi : m'.reg .rsi = m.reg .rsi) (hrdi : m'.reg .rdi = m.reg .rdi)
      (hmem : m'.mem = m.mem) : Copied m (m.reg .rsi) (m.reg .rdi) 0 m' :=
    ⟨hrsi.trans (BitVec.add_zero _).symm, hrdi.trans (BitVec.add_zero _).symm, hmem.trans (copyTo_zero _ _).symm, hsame⟩
  refine .branches rfl (after_place .beginForward) (fun hc => ?_) (fun hc => ?_)
  · rw [show block (beyond memmove).tail = [.alu .cmp .quad (.reg .rdi) .rsi] from rfl, execs_cons, execs_nil,
      Machine.cmp_ge] at hc
    exact forward (forward_ge hs hd (of_decide_eq_true hc)) hn hlt (hcopied _ (.execs rfl) rfl rfl rfl) hrdx hdir
  rw [show block (beyond memmove).tail = [.alu .cmp .quad (.reg .rdi) .rsi] from rfl, execs_cons, execs_nil,
    Machine.cmp_ge] at hc
  have hlt' := of_decide_eq_false hc
  have hsame : Same m (execs (block (beyond (beyond memmove).tail).tail) (execs (block (beyond memmove).tail) m)) :=
    .trans (.execs rfl) (.execs rfl)
  refine .branches rfl (after_place .l2) (fun _ => ?_) (fun hc => ?_)
  · exact backward (backward_within hs hd hlt') hn hlt (hcopied _ hsame rfl rfl rfl) hrdx hdir
  · have hr8 : (((m.exec (.alu .cmp .quad (.reg .rdi) .rsi)).exec (.mov .quad (.reg .rsi) .r8)).exec
        (.alu .add .quad (.reg .rdx) .r8)).reg .r8 = m.reg .rsi+BitVec.ofNat 64 n := by
      rw [Machine.exec_add, Machine.exec_mov, reg_exec (by decide), reg_exec (by decide), reg_exec (by decide), hrdx]
    rw [show block (beyond (beyond memmove).tail).tail = [.mov .quad (.reg .rsi) .r8, .alu .add .quad (.reg .rdx) .r8,
      .alu .cmp .quad (.reg .rdi) .r8] from rfl, show block (beyond memmove).tail = [.alu .cmp .quad (.reg .rdi) .rsi]
      from rfl, execs_cons, execs_cons, execs_cons, execs_nil, execs_cons, execs_nil, Machine.cmp_g, hr8,
      reg_exec (by decide), reg_exec (by decide)] at hc
    exact .falls rfl (forward (forward_apart hs hd hlt' (of_decide_eq_false hc)) hn hlt
      (hcopied _ hsame rfl rfl rfl) hrdx hdir)

/-- `memmove` returns with the bytes copied, overlapping or not, and keeps the registers
that a function of the C library has to keep. -/
theorem memmove_moves (m : Machine) (hs : Canonical (m.reg .rsi) (m.reg .rdx).toNat)
    (hd : Canonical (m.reg .rdi) (m.reg .rdx).toNat) (hdir : m.direction = false) :
    Ends memmove (.here memmove m) fun c => ∃ m', c = .left (loadWord m'.mem (m.reg .rsp)) m' ∧
      m'.mem = copyTo (m.reg .rdi) (m.reg .rdx).toNat (window m.mem (m.reg .rsi)) m.mem ∧
      m'.reg .rax = m.reg .rdi ∧ m'.reg .rsp = m.reg .rsp+8 ∧ m'.direction = false ∧
      ∀ r ∈ [.rbx, .rbp, .r12, .r13, .r14, .r15], m'.reg r = m.reg r := by
  have hrdx : m.reg .rdx = BitVec.ofNat 64 (m.reg .rdx).toNat := by rw [BitVec.ofNat_toNat, BitVec.setWidth_eq]
  have hlt := (m.reg .rdx).isLt
  have hreturned : Ends memmove (.here memmove m) (Returned (execs (block memmove) m)
      (copyTo (m.reg .rdi) (m.reg .rdx).toNat (window m.mem (m.reg .rsi)) m.mem)) := by
    have hcarry : (execs (block memmove) m).holds .b = decide ((m.reg .rdx).toNat < 32) :=
      @below m _ hrdx hlt 32 (by decide)
    refine .branches rfl (after_place .l1) (fun hc => ?_) (fun hc => ?_) <;> rw [hcarry] at hc
    · exact small (execs (block memmove) m) _ hrdx (of_decide_eq_true hc)
    · exact directions (m := execs (block memmove) m) hs hd (not_lt.mp (of_decide_eq_false hc)) hlt hrdx hdir
  refine hreturned.mono ?_
  rintro c ⟨m', rfl, hmem, hdir', hrsp, hreg⟩
  have hrax : (execs (block memmove) m).reg .rax = m.reg .rdi := read_quad (m := m) (r := .rdi)
  refine ⟨m', by rw [hmem]; rfl, hmem, (hreg .rax (by decide) (by decide)).trans hrax, hrsp, hdir'.trans hdir, ?_⟩
  intro r hr
  have hframe : (∀ i ∈ block memmove, r ∉ i.writes) ∧ r ∉ scratch ∧ r ≠ .rsp := by
    revert r
    decide
  exact (hreg r hframe.2.1 hframe.2.2).trans (reg_execs hframe.1)

/-- Forty bytes to a place three bytes further on. -/
def overlapping : Machine where
  reg := fun
    | .rdi => 0x1003
    | .rsi => 0x1000
    | .rdx => 40
    | .rsp => 0x2000
    | _ => 0
  carry := false
  zero := false
  sign := false
  overflow := false
  direction := false
  interrupts := true
  mem := fun x => x.setWidth 8

theorem memmove_moves_overlapping : Ends memmove (.here memmove overlapping) fun c =>
    ∃ m', c = .left (loadWord m'.mem 0x2000) m' ∧ m'.mem 0x1003 = 0x00 ∧ m'.mem 0x102a = 0x27 ∧ m'.mem 0x102b = 0x2b := by
  refine (memmove_moves overlapping (by unfold Canonical; decide) (by unfold Canonical; decide) rfl).mono fun c hc => ?_
  obtain ⟨m', rfl, hmem, -⟩ := hc
  exact ⟨m', rfl, by rw [hmem]; rfl, by rw [hmem]; rfl, by rw [hmem]; rfl⟩

end Whole

end BabyOS.MemoryMoves

import BabyOS.MachineCode

/-!
# Traps between the processor and the handlers

The text of `entry.S`: the stubs of the vectors, the common entry that saves the
registers, the way back, and the switch between two kernel stacks. The interrupt
table that leads the processor to the stubs is at the end.
-/

set_option autoImplicit false

namespace BabyOS.TrapEntries
open BabyOS.ByteWords BabyOS.TrapFrames BabyOS.MachineCode

inductive Label
  | switchToAsm | reschedule | dosignal | retFromFork | commonInterrupt | retFromIntr | restoreAll
deriving DecidableEq

/-- The functions in C++ that the text refers to. -/
inductive Callee
  | doCommonIsr | schedule | doSignal | scheduleTail | switchTo
deriving DecidableEq

abbrev Code := Text Label Callee

/-! ## The text -/

def needResched : ℤ := 0
def sigPending : ℤ := 4
def frameCs : ℤ := 18*8

def saved : List Gpr := [.r15, .r14, .r13, .r12, .r11, .r10, .r9, .r8, .rdi, .rsi, .rbp, .rdx, .rcx, .rbx, .rax]

def SAVE_ALL : Code := .op .cld :: saved.map fun r => .op (.push (.reg r))

def restored : List Gpr := [.rax, .rbx, .rcx, .rdx, .rbp, .rsi, .rdi, .r8, .r9, .r10, .r11, .r12, .r13, .r14, .r15]

def RESTORE_ALL : Code := restored.map fun r => .op (.pop r)

def GET_CURRENT (r : Gpr) : Code := [.op (.mov .quad (.imm (-8192)) r), .op (.alu .and .quad (.reg .rsp) r)]

/-- From `switch_to_asm` to `common_interrupt`. -/
def switches : Code := [
  .label .switchToAsm,
  .op (.push (.reg .rbp)),
  .op (.push (.reg .rbx)),
  .op (.push (.reg .r12)),
  .op (.push (.reg .r13)),
  .op (.push (.reg .r14)),
  .op (.push (.reg .r15)),
  /- switch stack -/
  .op (.store .quad .rsp ⟨0, .rdx, none⟩),
  .op (.load .quad ⟨0, .rcx, none⟩ .rsp),
  .op (.pop .r15),
  .op (.pop .r14),
  .op (.pop .r13),
  .op (.pop .r12),
  .op (.pop .rbx),
  .op (.pop .rbp),
  .tail .switchTo,
  .label .reschedule,
  .call .schedule,
  .jmp .restoreAll,
  .label .dosignal,
  .op (.mov .quad (.reg .rsp) .rdi),
  .call .doSignal,
  .jmp .restoreAll,
  .label .retFromFork,
  .op (.mov .quad (.reg .rax) .rdi),
  .call .scheduleTail,
  .op (.mov .quad (.reg .rsp) .rdi),
  .jmp .restoreAll,
  .label .commonInterrupt]

/-- From the call of the handler to `restore_all`. -/
def handles : Code := [
  .op (.mov .quad (.reg .rsp) .rdi),
  .call .doCommonIsr,
  .label .retFromIntr,
  .op (.load .byte ⟨frameCs, .rsp, none⟩ .rax),
  .op (.alu .test .byte (.imm 3) .rax),
  .jcc .e .restoreAll]

def checks : Code := [
  .op .cli,
  .op (.cmpAt .long 0 ⟨needResched, .rbx, none⟩),
  .jcc .ne .reschedule,
  .op (.cmpAt .long 0 ⟨sigPending, .rbx, none⟩),
  .jcc .ne .dosignal,
  .label .restoreAll]

def leaves : Code := [.op (.alu .add .quad (.imm 16) .rsp), .iretq]

def entry : Code := switches ++ SAVE_ALL ++ handles ++ GET_CURRENT .rbx ++ checks ++ RESTORE_ALL ++ leaves

def MAKE_ISR (index : ℕ) : Code := [.op (.push (.imm 0)), .op (.push (.imm index)), .jmp .commonInterrupt]

def MAKE_ISR_WITH_ERROR (index : ℕ) : Code := [.op (.push (.imm index)), .jmp .commonInterrupt]

def withError : List ℕ := [0x08, 0x0a, 0x0b, 0x0c, 0x0d, 0x0e, 0x10]

/-- The entries of `isr_vector`. -/
def isr (index : ℕ) : Code := if index ∈ withError then MAKE_ISR_WITH_ERROR index else MAKE_ISR index

def place (l : Label) : Code := (after l entry).getD []

theorem after_place (l : Label) : after l entry = some (place l) := by cases l <;> rfl

/-! ## The processor's part -/

/-- The exceptions with an error code, as the table in front of the text has them. -/
def pushesError (v : ℕ) : Bool := v ∈ [8, 10, 11, 12, 13, 14, 17]

/-- What the processor pushes on the stack at `k` when vector `v` interrupts a program. -/
def deliver (v : ℕ) (err : BitVec 64) (r : Resumption) (k : BitVec 64) (m : Machine) : Machine :=
  pushAll ([r.ss, m.reg .rsp, r.rflags, r.cs, r.rip] ++ if pushesError v then [err] else []) (m.set .rsp k)

/-- The field of `trap_frame_t` for a register. -/
def field : Gpr → Reg
  | .rax => .rax
  | .rbx => .rbx
  | .rcx => .rcx
  | .rdx => .rdx
  | .rbp => .rbp
  | .rsi => .rsi
  | .rdi => .rdi
  | .rsp => .rsp
  | .r8 => .r8
  | .r9 => .r9
  | .r10 => .r10
  | .r11 => .r11
  | .r12 => .r12
  | .r13 => .r13
  | .r14 => .r14
  | .r15 => .r15

/-- The frame that describes an interrupted program. -/
def frameOf (v : ℕ) (err : BitVec 64) (r : Resumption) (reg : Gpr → BitVec 64) : TrapFrame
  | .rax => reg .rax
  | .rbx => reg .rbx
  | .rcx => reg .rcx
  | .rdx => reg .rdx
  | .rbp => reg .rbp
  | .rsi => reg .rsi
  | .rdi => reg .rdi
  | .rsp => reg .rsp
  | .r8 => reg .r8
  | .r9 => reg .r9
  | .r10 => reg .r10
  | .r11 => reg .r11
  | .r12 => reg .r12
  | .r13 => reg .r13
  | .r14 => reg .r14
  | .r15 => reg .r15
  | .trapno => BitVec.ofNat 64 v
  | .err => if pushesError v then err else 0
  | .rip => r.rip
  | .cs => r.cs
  | .rflags => r.rflags
  | .ss => r.ss

/-- The program goes on as the frame says. -/
def GoesBack (f : TrapFrame) (mem : Mem) (c : Config Label Callee) : Prop :=
  ∃ m, c = .resumed ⟨f .rip, f .cs, f .rflags, f .ss⟩ m ∧ m.mem = mem ∧ ∀ r, m.reg r = f (field r)

/-! ## The way back -/

section Back

variable {m : Machine}

theorem restored_index {r : Gpr} (hr : r ≠ .rsp) :
    ∃ h : (field r).index < restored.length, restored[(field r).index] = r := by
  cases r <;> first | exact ⟨by decide, rfl⟩ | exact absurd rfl hr

theorem iretq_config {rest : Code} {f : BitVec 64} (h : m.reg .rsp = f+136) :
    step entry (.here (.iretq :: rest) m) = some (.resumed ⟨loadFrame m.mem f .rip, loadFrame m.mem f .cs,
      loadFrame m.mem f .rflags, loadFrame m.mem f .ss⟩ (m.set .rsp (loadFrame m.mem f .rsp))) := by
  rw [step, h, BitVec.add_assoc, BitVec.add_assoc, BitVec.add_assoc, BitVec.add_assoc]
  rfl

/-- `restore_all` with a frame on the stack. -/
theorem restores (m : Machine) :
    Ends entry (.here (place .restoreAll) m) (GoesBack (loadFrame m.mem (m.reg .rsp)) m.mem) := by
  have hblock : block (place .restoreAll) = restored.map .pop ++ [.alu .add .quad (.imm 16) .rsp] := rfl
  have hline : (beyond (place .restoreAll)).head? = some .iretq := rfl
  obtain ⟨hrsp, hmem⟩ := @execs_pop_rsp restored (by decide) m
  have hreg : ∀ r ≠ .rsp, (execs (restored.map .pop) m).reg r = loadFrame m.mem (m.reg .rsp) (field r) := by
    intro r hr
    obtain ⟨hlt, hget⟩ := restored_index hr
    have hpop := @execs_pop restored (by decide) (by decide) m _ hlt
    rwa [hget] at hpop
  have hend : (execs (block (place .restoreAll)) m).reg .rsp = m.reg .rsp+136 := by
    rw [hblock, execs_append, execs_cons, execs_nil, Machine.exec_add_imm, hrsp, BitVec.add_assoc]
    rfl
  have hmem' : (execs (block (place .restoreAll)) m).mem = m.mem := by
    rw [hblock, execs_append, execs_cons, execs_nil, Machine.mem_alu, hmem]
  refine .block ?_
  rw [beyond_eq hline]
  refine .step (iretq_config hend) (.done ⟨(execs (block (place .restoreAll)) m).set .rsp
    (loadFrame m.mem (m.reg .rsp) .rsp), by rw [hmem'], hmem', fun r => ?_⟩)
  by_cases hr : r = .rsp
  · rw [hr, Machine.reg_set_self]
    rfl
  · have hframe : ∀ i ∈ [Instr.alu .add .quad (.imm 16) .rsp], r ∉ i.writes := by simp [Instr.writes, hr]
    rw [Machine.reg_set_other _ hr, hblock, execs_append, reg_execs hframe, hreg r hr]

end Back

/-- What the four bytes at an offset in the process of the stack say. -/
def pending (m : Machine) (off : ℤ) : Bool := m.loadAt .long ((-8192 &&& m.reg .rsp)+BitVec.ofInt 64 off) != 0

/-- The function that runs before the way back, if any. -/
def detour (m : Machine) : Option Callee :=
  if loadFrame m.mem (m.reg .rsp) .cs &&& 3 = 0 then none
  else if pending m needResched then some .schedule
  else if pending m sigPending then some .doSignal
  else none

section Back

variable {m : Machine}

theorem low_bits (x : BitVec 64) : (x.setWidth 8 &&& 3#8 == 0#8) = decide (x &&& 3 = 0) := by
  have hlow : ∀ y : BitVec 64, (y &&& 3 = 0 ↔ y.toNat%4 = 0) := by
    intro y
    rw [← BitVec.toNat_inj, BitVec.toNat_and]
    exact Nat.and_two_pow_sub_one_eq_mod y.toNat 2 ▸ Iff.rfl
  have hbyte : x.setWidth 8 &&& 3#8 = 0#8 ↔ x.toNat%4 = 0 := by
    rw [← BitVec.toNat_inj, BitVec.toNat_and, BitVec.toNat_setWidth]
    have hmod := Nat.and_two_pow_sub_one_eq_mod (x.toNat%2^8) 2
    rw [show (3#8).toNat = 2^2-1 from rfl, hmod]
    show x.toNat%2^8%2^2 = 0 ↔ _
    omega
  rw [Bool.beq_eq_decide_eq, decide_eq_decide, hbyte, hlow]

theorem loadAt_byte (a : BitVec 64) : m.loadAt .byte a = (loadWord m.mem a).setWidth 8 := by
  have hfirst : word (window m.mem a) 0 8 = (window m.mem a 0).toNat+256*word (window m.mem a) 1 7 := rfl
  have hbyte := (window m.mem a 0).isLt
  have hword : (loadWord m.mem a).toNat%2^8 = (window m.mem a 0).toNat := by
    rw [loadWord, BitVec.toNat_ofNat, hfirst]
    omega
  apply BitVec.eq_of_toNat_eq
  refine Machine.toNat_loadAt.trans (Eq.trans ?_ (hword.symm.trans (BitVec.toNat_setWidth 8 _).symm))
  exact Nat.add_zero _

/-- The test of the privilege level. -/
theorem tested (m : Machine) :
    (execs (block (place .retFromIntr)) m).holds .e = decide (loadFrame m.mem (m.reg .rsp) .cs &&& 3 = 0) := by
  have hread : ((m.exec (.load .byte ⟨frameCs, .rsp, none⟩ .rax)).read .byte .rax) = (loadFrame m.mem (m.reg .rsp) .cs).setWidth 8 := by
    refine (Machine.read_write (w := .byte) _).trans ?_
    rw [loadAt_byte, Machine.address_none]
    rfl
  rw [← low_bits, ← hread]
  rfl

/-- A function that has kept the stack pointer is behind the jump to `restore_all`. -/
theorem rejoins {rest : Code} {a : BitVec 64} (hsp : m.reg .rsp = a) :
    Ends entry (.here (.jmp .restoreAll :: rest) m) (GoesBack (loadFrame m.mem a) m.mem) := by
  subst hsp
  exact .jumps rfl (after_place _) (restores m)

/-- The way back from a trap: the frame decides whether the process of the stack is looked
at, and the function that it asks for runs before the frame is restored. -/
def Returns (m : Machine) (c : Config Label Callee) : Prop :=
  match detour m with
  | none => GoesBack (loadFrame m.mem (m.reg .rsp)) m.mem c
  | some f => ∃ rest m', c = .calling f rest m' ∧ m'.interrupts = false ∧ m'.mem = m.mem ∧
      m'.reg .rsp = m.reg .rsp ∧ (f = .doSignal → m'.reg .rdi = m.reg .rsp) ∧
      ∀ m'' : Machine, m''.reg .rsp = m.reg .rsp →
        Ends entry (.here rest m'') (GoesBack (loadFrame m''.mem (m.reg .rsp)) m''.mem)

/-- The text behind the test of the privilege level, and behind that of `need_resched`. -/
def userside : Code := (beyond (place .retFromIntr)).tail

def awake : Code := (beyond userside).tail

theorem userside_rbx (m : Machine) : (execs (block userside) m).reg .rbx = -8192 &&& m.reg .rsp := by
  have hblock : block userside = [.mov .quad (.imm (-8192)) .rbx, .alu .and .quad (.reg .rsp) .rbx, .cli,
    .cmpAt .long 0 ⟨needResched, .rbx, none⟩] := rfl
  have hframe : ∀ i ∈ [Instr.cli, .cmpAt .long 0 ⟨needResched, .rbx, none⟩], Gpr.rbx ∉ i.writes := by
    simp [Instr.writes]
  rw [hblock, execs_cons, execs_cons, reg_execs hframe, Machine.exec_and]
  exact congrArg (· &&& m.reg .rsp) (Machine.reg_set_self (m := m) _)

theorem asked (m : Machine) : (execs (block userside) m).holds .ne = pending m needResched := by
  have hlast : (execs (block userside) m).holds .ne =
      ((execs (block userside) m).loadAt .long ((execs (block userside) m).reg .rbx+BitVec.ofInt 64 needResched) != 0) :=
    (Machine.cmpAt_ne (w := .long)).trans (by rw [Machine.address_none]; rfl)
  rw [hlast, userside_rbx]
  rfl

theorem asked_signal (m : Machine) : (execs (block awake) (execs (block userside) m)).holds .ne = pending m sigPending := by
  have hlast : (execs (block awake) (execs (block userside) m)).holds .ne =
      ((execs (block userside) m).loadAt .long ((execs (block userside) m).reg .rbx+BitVec.ofInt 64 sigPending) != 0) :=
    (Machine.cmpAt_ne (w := .long)).trans (by rw [Machine.address_none])
  rw [hlast, userside_rbx]
  rfl

theorem returns (m : Machine) : Ends entry (.here (place .retFromIntr) m) (Returns m) := by
  refine .branches rfl (after_place .restoreAll) (fun hkernel => ?_) (fun huser => ?_)
  · rw [tested, decide_eq_true_eq] at hkernel
    refine (restores _).mono fun c hc => ?_
    rw [Returns, detour, if_pos hkernel]
    exact hc
  · rw [tested, decide_eq_false_iff_not] at huser
    refine .branches rfl (after_place .reschedule) (fun hsched => ?_) (fun hstays => ?_)
    · have hsched' : pending m needResched = true := (asked (execs (block (place .retFromIntr)) m)).symm.trans hsched
      refine .calls rfl ?_
      rw [Returns, detour, if_neg huser, if_pos hsched']
      exact ⟨_, _, rfl, rfl, rfl, rfl, fun h => absurd h (by decide), fun m'' hsp => rejoins hsp⟩
    · have hstays' : ¬pending m needResched = true := by
        rw [Bool.not_eq_true]
        exact (asked (execs (block (place .retFromIntr)) m)).symm.trans hstays
      refine .branches rfl (after_place .dosignal) (fun hsig => ?_) (fun hnone => ?_)
      · have hsig' : pending m sigPending = true := (asked_signal (execs (block (place .retFromIntr)) m)).symm.trans hsig
        refine .calls rfl ?_
        rw [Returns, detour, if_neg huser, if_neg hstays', if_pos hsig']
        exact ⟨_, _, rfl, rfl, rfl, rfl, fun _ => Machine.exec_mov, fun m'' hsp => rejoins hsp⟩
      · have hnone' : ¬pending m sigPending = true := by
          rw [Bool.not_eq_true]
          exact (asked_signal (execs (block (place .retFromIntr)) m)).symm.trans hnone
        refine .falls rfl ((restores _).mono fun c hc => ?_)
        rw [Returns, detour, if_neg huser, if_neg hstays', if_neg hnone']
        exact hc

end Back

/-! ## The way in -/

/-- All that is pushed for a trap, by the processor and by the text. -/
def pushes (v : ℕ) (err : BitVec 64) (r : Resumption) (m : Machine) : List (BitVec 64) :=
  [r.ss, m.reg .rsp, r.rflags, r.cs, r.rip] ++ (if pushesError v then [err] else []) ++
    ((if v ∈ withError then [] else [0]) ++ [BitVec.ofInt 64 v]) ++ saved.map m.reg

/-- The handler is called with the words on the stack and a pointer to the last. -/
def Handled (k : BitVec 64) (words : List (BitVec 64)) (m : Machine) (c : Config Label Callee) : Prop :=
  ∃ m', c = .calling .doCommonIsr (.label .retFromIntr :: place .retFromIntr) m' ∧ m'.direction = false ∧
    m'.reg .rdi = m'.reg .rsp ∧ m'.reg .rsp = k-BitVec.ofNat 64 (8*words.length) ∧
    m'.mem = (pushAll words (m.set .rsp k)).mem

section Entry

variable {v : ℕ} {err k : BitVec 64} {r : Resumption} {m : Machine}

theorem pushAll_cld (ws : List (BitVec 64)) (m : Machine) : pushAll ws (m.exec .cld) = (pushAll ws m).exec .cld := by
  induction ws generalizing m with
  | nil => rfl
  | cons w ws ih => exact ih (m.pushed w)

/-- From the stub to the handler. -/
theorem commons {ws : List (BitVec 64)} {m' : Machine} (hm' : m' = pushAll ws (m.set .rsp k)) :
    Ends entry (.here (place .commonInterrupt) m') (Handled k (ws ++ saved.map m.reg) m) := by
  have hblock : block (place .commonInterrupt) =
      .cld :: (saved.map fun r => .push (.reg r)) ++ [.mov .quad (.reg .rsp) .rdi] := rfl
  have hsaved : saved.map (m'.exec .cld).reg = saved.map m.reg := by
    subst hm'
    refine List.map_congr_left fun g hg => ?_
    have hsp : g ≠ .rsp := fun h => absurd (h ▸ hg) (by decide)
    exact (pushAll_reg ws hsp).trans (Machine.reg_set_other _ hsp)
  have hexec : execs (block (place .commonInterrupt)) m' =
      ((pushAll (ws ++ saved.map m.reg) (m.set .rsp k)).exec .cld).exec (.mov .quad (.reg .rsp) .rdi) := by
    rw [hblock, execs_append, execs_cons .cld, execs_push (by decide), hsaved, execs_cons, execs_nil, pushAll_cld, hm',
      ← pushAll_append]
  refine .calls rfl ⟨_, rfl, ?_⟩
  rw [hexec]
  refine ⟨rfl, Machine.exec_mov, ?_, rfl⟩
  refine (Machine.reg_set_other (m := (pushAll (ws ++ saved.map m.reg) (m.set .rsp k)).exec .cld) _ (by decide)).trans ?_
  refine (pushAll_rsp _ _).trans ?_
  rw [Machine.reg_set_self]

/-- What a trap of any vector brings to the handler. -/
theorem enters (v : ℕ) (err : BitVec 64) (r : Resumption) (k : BitVec 64) (m : Machine) :
    Ends entry (.here (isr v) (deliver v err r k m)) (Handled k (pushes v err r m) m) := by
  by_cases hv : v ∈ withError
  · rw [isr, if_pos hv]
    refine .jumps rfl (after_place _) (commons ?_)
    rw [if_pos hv]
    exact (pushAll_append _ ([] ++ [BitVec.ofInt 64 v]) _).symm
  · rw [isr, if_neg hv]
    refine .jumps rfl (after_place _) (commons ?_)
    rw [if_neg hv]
    exact (pushAll_append _ ([0] ++ [BitVec.ofInt 64 v]) _).symm

/-- The stubs and the processor agree on the error code. -/
theorem agrees_iff : (pushesError v = true ↔ v ∈ withError) ↔ v ≠ 0x10 ∧ v ≠ 0x11 := by
  simp only [pushesError, withError, List.mem_cons, List.not_mem_nil, or_false, decide_eq_true_eq]
  omega

theorem pushes_agree (h : pushesError v = true ↔ v ∈ withError) :
    pushes v err r m = [r.ss, m.reg .rsp, r.rflags, r.cs, r.rip, if pushesError v then err else 0, BitVec.ofInt 64 v,
      m.reg .r15, m.reg .r14, m.reg .r13, m.reg .r12, m.reg .r11, m.reg .r10, m.reg .r9, m.reg .r8, m.reg .rdi,
      m.reg .rsi, m.reg .rbp, m.reg .rdx, m.reg .rcx, m.reg .rbx, m.reg .rax] := by
  by_cases hv : v ∈ withError
  · rw [pushes, if_pos hv, if_pos (h.mpr hv), if_pos (h.mpr hv)]
    rfl
  · rw [pushes, if_neg hv, if_neg (fun hp => hv (h.mp hp)), if_neg (fun hp => hv (h.mp hp))]
    rfl

/-- A word of the trap frame, by what was pushed. -/
theorem loadFrame_pushed {ws : List (BitVec 64)} {g : Reg} {w : BitVec 64} {m : Machine} (hsize : 8*ws.length+8 ≤ 2^64)
    (hlt : g.index < ws.length) (hw : ws[ws.length-1-g.index]? = some w) :
    loadFrame (pushAll ws m).mem ((pushAll ws m).reg .rsp) g = w := by
  obtain ⟨hi, hget⟩ := List.getElem?_eq_some_iff.mp hw
  have hword := pushAll_word (m := m) hsize hi
  have hback : ws.length-1-(ws.length-1-g.index) = g.index := by omega
  rw [hback, hget] at hword
  exact hword

theorem frame_pushed (h : pushesError v = true ↔ v ∈ withError) (m' : Machine) :
    loadFrame (pushAll (pushes v err r m) m').mem ((pushAll (pushes v err r m) m').reg .rsp) = frameOf v err r m.reg := by
  funext g
  rw [pushes_agree h]
  refine loadFrame_pushed (by simp only [List.length_cons, List.length_nil]; decide) (index_lt g) ?_
  cases g with
  | trapno => exact congrArg some (BitVec.ofInt_natCast 64 v)
  | _ => rfl

/-- The handler gets a pointer to the frame that describes the interrupted program. -/
def Framed (v : ℕ) (err : BitVec 64) (r : Resumption) (m : Machine) (c : Config Label Callee) : Prop :=
  ∃ rest m', c = .calling .doCommonIsr rest m' ∧ rest = .label .retFromIntr :: place .retFromIntr ∧
    m'.direction = false ∧ m'.reg .rdi = m'.reg .rsp ∧ loadFrame m'.mem (m'.reg .rdi) = frameOf v err r m.reg

/-- The instruction pointer in the frame, where the stubs and the processor do not agree. -/
theorem pushes_disagree {w : BitVec 64} (hv : v = 0x10 ∨ v = 0x11) :
    8*(pushes v 0 ⟨w, 0, 0, 0⟩ m).length+8 ≤ 2^64 ∧ Reg.rip.index < (pushes v 0 ⟨w, 0, 0, 0⟩ m).length ∧
      (pushes v 0 ⟨w, 0, 0, 0⟩ m)[(pushes v 0 ⟨w, 0, 0, 0⟩ m).length-1-Reg.rip.index]? = some 0 := by
  have hfew : (pushes 0x10 0 ⟨w, 0, 0, 0⟩ m).length = 21 := rfl
  have hmany : (pushes 0x11 0 ⟨w, 0, 0, 0⟩ m).length = 23 := rfl
  rcases hv with rfl | rfl
  · exact ⟨by rw [hfew]; decide, by rw [hfew]; decide, rfl⟩
  · exact ⟨by rw [hmany]; decide, by rw [hmany]; decide, rfl⟩

theorem handled_stops {ws : List (BitVec 64)} : ∀ c, Handled k ws m c → step entry c = none := by
  rintro c ⟨m', rfl, -⟩
  rfl

theorem framed_stops : ∀ c, Framed v err r m c → step entry c = none := by
  rintro c ⟨rest, m', rfl, -⟩
  rfl

theorem framed (err : BitVec 64) (r : Resumption) (k : BitVec 64) (m : Machine) (hv : v ≠ 0x10 ∧ v ≠ 0x11) :
    Ends entry (.here (isr v) (deliver v err r k m)) (Framed v err r m) := by
  refine (enters v err r k m).mono fun c hc => ?_
  obtain ⟨m', rfl, hdir, hrdi, hrsp, hmem⟩ := hc
  refine ⟨_, m', rfl, rfl, hdir, hrdi, ?_⟩
  have hsp : m'.reg .rsp = (pushAll (pushes v err r m) (m.set .rsp k)).reg .rsp := by
    rw [hrsp, pushAll_rsp, Machine.reg_set_self]
  rw [hrdi, hmem, hsp]
  exact frame_pushed (agrees_iff.mpr hv) _

def idle : Machine := ⟨fun _ => 0, false, false, false, false, false, false, fun _ => 0⟩

/-- The text builds the right frame for every vector but two: the stub of vector 0x10
leaves the place of an error code to a processor that pushes none, and the stub of 0x11
pushes one of its own. -/
theorem framed_iff (v : ℕ) :
    (∀ err r k m, Ends entry (.here (isr v) (deliver v err r k m)) (Framed v err r m)) ↔ v ≠ 0x10 ∧ v ≠ 0x11 := by
  constructor
  · intro h
    by_contra hv
    have hv' : v = 0x10 ∨ v = 0x11 := by omega
    obtain ⟨hsize, hlt, hget⟩ := pushes_disagree (m := idle) (w := 1) hv'
    obtain ⟨c, hc, hc'⟩ := (enters v 0 ⟨1, 0, 0, 0⟩ 0 idle).unique handled_stops (h 0 ⟨1, 0, 0, 0⟩ 0 idle) framed_stops
    obtain ⟨m', rfl, -, hrdi, hrsp, hmem⟩ := hc
    obtain ⟨rest, m'', heq, -, -, -, hframe⟩ := hc'
    cases heq
    have hsp : m'.reg .rsp = (pushAll (pushes v 0 ⟨1, 0, 0, 0⟩ idle) (idle.set .rsp 0)).reg .rsp := by
      rw [hrsp, pushAll_rsp, Machine.reg_set_self]
    have hrip := congrFun hframe .rip
    rw [hrdi, hmem, hsp, loadFrame_pushed hsize hlt hget] at hrip
    exact absurd (show (0 : BitVec 64) = 1 from hrip) (by decide)
  · exact fun hv err r k m => framed err r k m hv

/-- A function leaves the stack pointer and the frame as they are. -/
def KeepsFrame (m m' : Machine) : Prop :=
  m'.reg .rsp = m.reg .rsp ∧ ∀ j < frameSize, window m'.mem (m.reg .rsp) j = window m.mem (m.reg .rsp) j

def Resumes (r : Resumption) (reg : Gpr → BitVec 64) (mem : Mem) (c : Config Label Callee) : Prop :=
  ∃ m, c = .resumed r m ∧ m.reg = reg ∧ m.mem = mem

/-- Behind the handler, the program goes on as it was, at once or when the function that its
process asks for has left the frame alone. -/
def Unseen (r : Resumption) (reg : Gpr → BitVec 64) (m₂ : Machine) (c : Config Label Callee) : Prop :=
  match detour m₂ with
  | none => Resumes r reg m₂.mem c
  | some f => ∃ rest m₃, c = .calling f rest m₃ ∧
      ∀ m₄, KeepsFrame m₃ m₄ → Ends entry (.here rest m₄) (Resumes r reg m₄.mem)

theorem goesBack_frameOf {mem : Mem} {c : Config Label Callee} (h : GoesBack (frameOf v err r m.reg) mem c) :
    Resumes r m.reg mem c := by
  obtain ⟨m', rfl, hmem, hreg⟩ := h
  refine ⟨m', rfl, funext fun g => (hreg g).trans ?_, hmem⟩
  cases g <;> rfl

/-- Whatever the handler does to the frame on its stack, the way back goes by it. -/
theorem served (v : ℕ) (err : BitVec 64) (r : Resumption) (k : BitVec 64) (m : Machine) :
    Ends entry (.here (isr v) (deliver v err r k m)) fun c => ∃ rest m₁, c = .calling .doCommonIsr rest m₁ ∧
      m₁.reg .rdi = m₁.reg .rsp ∧ ∀ m₂ : Machine, Ends entry (.here rest m₂) (Returns m₂) := by
  refine (enters v err r k m).mono fun c hc => ?_
  obtain ⟨m₁, rfl, -, hrdi, -, -⟩ := hc
  exact ⟨_, m₁, rfl, hrdi, fun m₂ => .step rfl (returns m₂)⟩

/-- Nothing of a trap is seen by the interrupted program when the functions on its way
leave the frame alone. -/
theorem undisturbed (hv : v ≠ 0x10 ∧ v ≠ 0x11) (err : BitVec 64) (r : Resumption) (k : BitVec 64) (m : Machine) :
    Ends entry (.here (isr v) (deliver v err r k m)) fun c => ∃ rest m₁, c = .calling .doCommonIsr rest m₁ ∧
      ∀ m₂, KeepsFrame m₁ m₂ → Ends entry (.here rest m₂) (Unseen r m.reg m₂) := by
  refine (framed err r k m hv).mono fun c hc => ?_
  obtain ⟨rest, m₁, rfl, rfl, -, hrdi, hframe⟩ := hc
  rw [hrdi] at hframe
  refine ⟨_, m₁, rfl, fun m₂ hkeeps => .step rfl ((returns m₂).mono fun c hc => ?_)⟩
  obtain ⟨hsp, hwindow⟩ := hkeeps
  have hsame : loadFrame m₂.mem (m₂.reg .rsp) = frameOf v err r m.reg := by
    rw [hsp, loadFrame_congr hwindow, hframe]
  rw [Returns] at hc
  rw [Unseen]
  cases hdetour : detour m₂ with
  | none =>
    rw [hdetour, hsame] at hc
    exact goesBack_frameOf hc
  | some f =>
    rw [hdetour] at hc
    obtain ⟨rest', m₃, rfl, -, hmem, hsp', -, hrest⟩ := hc
    refine ⟨rest', m₃, rfl, fun m₄ hkeeps' => ?_⟩
    obtain ⟨hsp₄, hwindow₄⟩ := hkeeps'
    rw [hsp', hmem] at hwindow₄
    have hsame' : loadFrame m₄.mem (m₂.reg .rsp) = frameOf v err r m.reg := by
      rw [loadFrame_congr hwindow₄, hsame]
    have hback := hrest m₄ (hsp₄.trans hsp')
    rw [hsame'] at hback
    exact hback.mono fun c => goesBack_frameOf

theorem undisturbed_timer :
    Ends entry (.here (isr 0x20) (deliver 0x20 0 ⟨0x401000, 0x1b, 0x202, 0x23⟩ 0x2000 idle)) fun c =>
      ∃ rest m₁, c = .calling .doCommonIsr rest m₁ ∧ ∀ m₂, KeepsFrame m₁ m₂ → detour m₂ = none →
        Ends entry (.here rest m₂) (Resumes ⟨0x401000, 0x1b, 0x202, 0x23⟩ idle.reg m₂.mem) := by
  refine (undisturbed (v := 0x20) (by decide) _ _ _ _).mono fun c hc => ?_
  obtain ⟨rest, m₁, hcall, hback⟩ := hc
  refine ⟨rest, m₁, hcall, fun m₂ hkeeps hnone => (hback m₂ hkeeps).mono fun c hc => ?_⟩
  rw [Unseen, hnone] at hc
  exact hc

end Entry

/-! ## The interrupt table -/

abbrev GateDescriptor := BitVec 64 × BitVec 64

def trapGateFlag : BitVec 64 := 0x00008f0000000000
def interruptGateFlag : BitVec 64 := 0x00008e0000000000
def systemGateFlag : BitVec 64 := 0x0000ef0000000000

def segKcode : BitVec 64 := 1

def setGate (addr flag : BitVec 64) : GateDescriptor :=
  (flag ||| addr &&& 0xffff ||| segKcode <<< 3 <<< 16 ||| addr <<< 32 &&& 0xffff000000000000, addr >>> 32)

def setTrapGate (addr : BitVec 64) : GateDescriptor := setGate addr trapGateFlag
def setIntrGate (addr : BitVec 64) : GateDescriptor := setGate addr interruptGateFlag
def setSystemGate (addr : BitVec 64) : GateDescriptor := setGate addr systemGateFlag

def irq0 : ℕ := 0x20
def irqSyscall : ℕ := 0x80

/-- A loop of `init_isrs`. -/
def setGates (make : BitVec 64 → GateDescriptor) (isrVector : ℕ → BitVec 64) (l : List ℕ) (idt : ℕ → GateDescriptor) :
    ℕ → GateDescriptor :=
  l.foldl (fun idt i => Function.update idt i (make (isrVector i))) idt

def initIsrs (isrVector : ℕ → BitVec 64) (idt : ℕ → GateDescriptor) : ℕ → GateDescriptor :=
  let idt := setGates setTrapGate isrVector (List.range irq0) idt
  let idt := setGates setIntrGate isrVector (List.range' irq0 (256-irq0)) idt
  setGates setSystemGate isrVector [irqSyscall] idt

/-- A gate as the processor reads it. -/
structure Gate where
  offset : BitVec 64
  selector : BitVec 16
  ist : BitVec 3
  type : BitVec 4
  dpl : BitVec 2
  present : BitVec 1
deriving DecidableEq

def gateOf (d : GateDescriptor) : Gate where
  offset := d.2.extractLsb' 0 32 ++ (d.1.extractLsb' 48 16 ++ d.1.extractLsb' 0 16)
  selector := d.1.extractLsb' 16 16
  ist := d.1.extractLsb' 32 3
  type := d.1.extractLsb' 40 4
  dpl := d.1.extractLsb' 45 2
  present := d.1.extractLsb' 47 1

section Gates

variable {addr flag : BitVec 64} {v : ℕ}

theorem low_mask (j : ℕ) : (0xffff#64).getLsbD j = decide (j < 16) := by
  have hmask : 0xffff#64 = (BitVec.allOnes 16).setWidth 64 := by decide
  rw [hmask, BitVec.getLsbD_setWidth, BitVec.getLsbD_allOnes]
  by_cases hj : j < 16
  · simp [hj, show j < 64 by omega]
  · simp [hj]

theorem high_mask (j : ℕ) : (0xffff000000000000#64).getLsbD j = decide (48 ≤ j ∧ j < 64) := by
  have hmask : 0xffff000000000000#64 = BitVec.allOnes 64 <<< 48 := by decide
  rw [hmask, BitVec.getLsbD_shiftLeft, BitVec.getLsbD_allOnes]
  simp only [← decide_not, ← Bool.decide_and, decide_eq_decide]
  omega

/-- What a gate has beside the address. -/
def gateRest (flag : BitVec 64) : BitVec 64 := flag ||| segKcode <<< 3 <<< 16

theorem setGate_bit (j : ℕ) : (setGate addr flag).1.getLsbD j = ((gateRest flag).getLsbD j ||
    (decide (j < 16) && addr.getLsbD j || decide (48 ≤ j ∧ j < 64) && addr.getLsbD (j-32))) := by
  have hhigh : (addr <<< 32 &&& 0xffff000000000000#64).getLsbD j = (decide (48 ≤ j ∧ j < 64) && addr.getLsbD (j-32)) := by
    rw [BitVec.getLsbD_and, BitVec.getLsbD_shiftLeft, high_mask]
    by_cases hj : 48 ≤ j ∧ j < 64
    · simp [hj, show ¬ j < 32 by omega]
    · simp [hj]
  have hlow : (addr &&& 0xffff#64).getLsbD j = (decide (j < 16) && addr.getLsbD j) := by
    rw [BitVec.getLsbD_and, low_mask, Bool.and_comm]
  show (flag ||| addr &&& 0xffff#64 ||| segKcode <<< 3 <<< 16 ||| addr <<< 32 &&& 0xffff000000000000#64).getLsbD j = _
  rw [BitVec.getLsbD_or, BitVec.getLsbD_or, BitVec.getLsbD_or, hhigh, hlow, gateRest, BitVec.getLsbD_or]
  ac_rfl

theorem setGate_fields {start len : ℕ} (h : 16 ≤ start ∧ start+len ≤ 48) :
    (setGate addr flag).1.extractLsb' start len = (gateRest flag).extractLsb' start len := by
  apply BitVec.eq_of_getLsbD_eq
  intro i hi
  simp only [BitVec.getLsbD_extractLsb', setGate_bit, show ¬ start+i < 16 by omega, show ¬ (48 ≤ start+i ∧ start+i < 64) by omega,
    decide_false, Bool.false_and, Bool.or_false]

/-- The three parts of the address. -/
theorem setGate_low (hzero : (gateRest flag).extractLsb' 0 16 = 0#16) :
    (setGate addr flag).1.extractLsb' 0 16 = addr.extractLsb' 0 16 := by
  apply BitVec.eq_of_getLsbD_eq
  intro i hi
  have hrest := congrArg (BitVec.getLsbD · i) hzero
  simp only [BitVec.getLsbD_extractLsb', hi, decide_true, Bool.true_and, BitVec.getLsbD_zero] at hrest
  simp only [BitVec.getLsbD_extractLsb', setGate_bit, hrest, show 0+i < 16 by omega, show ¬ (48 ≤ 0+i ∧ 0+i < 64) by omega,
    decide_true, decide_false, Bool.true_and, Bool.false_and, Bool.false_or, Bool.or_false]

theorem setGate_middle (hzero : (gateRest flag).extractLsb' 48 16 = 0#16) :
    (setGate addr flag).1.extractLsb' 48 16 = addr.extractLsb' 16 16 := by
  apply BitVec.eq_of_getLsbD_eq
  intro i hi
  have hrest := congrArg (BitVec.getLsbD · i) hzero
  simp only [BitVec.getLsbD_extractLsb', hi, decide_true, Bool.true_and, BitVec.getLsbD_zero] at hrest
  simp only [BitVec.getLsbD_extractLsb', setGate_bit, hrest, show ¬ 48+i < 16 by omega, show 48 ≤ 48+i ∧ 48+i < 64 by omega,
    show 48+i-32 = 16+i by omega, decide_true, decide_false, Bool.true_and, Bool.false_and, Bool.false_or, and_self]

theorem setGate_high : (setGate addr flag).2.extractLsb' 0 32 = addr.extractLsb' 32 32 := by
  apply BitVec.eq_of_getLsbD_eq
  intro i hi
  simp only [setGate, BitVec.getLsbD_extractLsb', BitVec.getLsbD_ushiftRight, Nat.zero_add]

/-- The processor reads the address that was written, and the rest of the flags. -/
theorem gateOf_setGate (hlow : (gateRest flag).extractLsb' 0 16 = 0#16) (hhigh : (gateRest flag).extractLsb' 48 16 = 0#16) :
    gateOf (setGate addr flag) = ⟨addr, (gateRest flag).extractLsb' 16 16, (gateRest flag).extractLsb' 32 3,
      (gateRest flag).extractLsb' 40 4, (gateRest flag).extractLsb' 45 2, (gateRest flag).extractLsb' 47 1⟩ := by
  have hhalf : addr.extractLsb' 16 16 ++ addr.extractLsb' 0 16 = addr.extractLsb' 0 32 :=
    BitVec.extractLsb'_append_extractLsb'_eq_extractLsb' rfl
  have hjoin : addr.extractLsb' 32 32 ++ addr.extractLsb' 0 32 = addr :=
    (BitVec.extractLsb'_append_extractLsb'_eq_extractLsb' rfl).trans BitVec.extractLsb'_eq_self
  rw [gateOf, setGate_low hlow, setGate_middle hhigh, setGate_high, hhalf, hjoin, setGate_fields (by decide), setGate_fields (by decide),
    setGate_fields (by decide), setGate_fields (by decide), setGate_fields (by decide)]

theorem setGates_apply (make : BitVec 64 → GateDescriptor) (isrVector : ℕ → BitVec 64) (l : List ℕ)
    (idt : ℕ → GateDescriptor) : setGates make isrVector l idt v = if v ∈ l then make (isrVector v) else idt v := by
  induction l generalizing idt with
  | nil => exact (if_neg (List.not_mem_nil)).symm
  | cons i l ih =>
    rw [setGates, List.foldl_cons, ← setGates, ih]
    by_cases hv : v ∈ l
    · rw [if_pos hv, if_pos (List.mem_cons_of_mem i hv)]
    · by_cases hi : v = i
      · subst hi
        rw [if_neg hv, if_pos (List.mem_cons_self ..), Function.update_self]
      · rw [if_neg hv, Function.update_of_ne hi, if_neg (by rw [List.mem_cons, not_or]; exact ⟨hi, hv⟩)]

/-- `init_isrs` leads every vector to its stub in the code of the kernel. A program of the user
may call vector 0x80 only, and interrupts stay on there and for the exceptions. -/
theorem initIsrs_leads (isrVector : ℕ → BitVec 64) (idt : ℕ → GateDescriptor) (v : BitVec 8) :
    gateOf (initIsrs isrVector idt v.toNat) = ⟨isrVector v.toNat, 8, 0,
      if v < 0x20 ∨ v = 0x80 then 0xf else 0xe, if v = 0x80 then 3 else 0, 1⟩ := by
  have hlt := v.isLt
  have hirq : v.toNat ∈ List.range' irq0 (256-irq0) ↔ ¬ v < 0x20 := by
    rw [List.mem_range'_1, BitVec.lt_def, irq0]
    show 32 ≤ v.toNat ∧ v.toNat < 32+(256-32) ↔ ¬ v.toNat < 32
    omega
  have hexc : v.toNat ∈ List.range irq0 ↔ v < 0x20 := List.mem_range
  have hsys : v.toNat ∈ [irqSyscall] ↔ v = 0x80 := List.mem_singleton.trans (BitVec.toNat_inj (y := 0x80#8))
  rw [initIsrs, setGates_apply, setGates_apply, setGates_apply]
  by_cases h80 : v = 0x80
  · rw [if_pos (hsys.mpr h80), setSystemGate, gateOf_setGate (by decide) (by decide), if_pos (Or.inr h80), if_pos h80]
    rfl
  · rw [if_neg (mt hsys.mp h80), if_neg h80]
    by_cases h20 : v < 0x20
    · rw [if_neg (mt hirq.mp (not_not.mpr h20)), if_pos (hexc.mpr h20), setTrapGate, gateOf_setGate (by decide) (by decide),
        if_pos (Or.inl h20)]
      rfl
    · rw [if_pos (hirq.mpr h20), setIntrGate, gateOf_setGate (by decide) (by decide), if_neg (not_or.mpr ⟨h20, h80⟩)]
      rfl

end Gates

end BabyOS.TrapEntries

import BabyOS.TrapEntries

/-!
# Kernel threads

Every process has two pages: `process_t` at their start and a kernel stack that grows
down from their end. `switch_to_asm` leaves one stack for another and `copy_context`
prepares the stack of a child. A thread that left the processor comes back with its
registers, its stack and the address it called from, whatever ran meanwhile.
-/

set_option autoImplicit false

namespace BabyOS.ContextSwitches
open BabyOS.ByteWords BabyOS.TrapFrames BabyOS.MachineCode BabyOS.TrapEntries

/-! ## Processes in memory -/

/-- The two pages that an address lies in. -/
def area (x : BitVec 64) : ℕ := x.toNat/8192

/-- A place in `process_t` or on its stack. -/
abbrev off (p : BitVec 64) (n : ℕ) : BitVec 64 := p+BitVec.ofNat 64 n

/-- `&p->m_context.rsp`. -/
def slot (p : BitVec 64) : BitVec 64 := off p 112

/-- `m_cpu.m_tss` and the text of `ret_from_fork`. -/
structure Kernel where
  tss : BitVec 64
  retFromFork : BitVec 64
  aligned : tss.toNat%4096 = 0

def IsProcess (k : Kernel) (p : BitVec 64) : Prop := p.toNat%8192 = 0 ∧ area p ≠ area k.tss

/-- There is room below `a` for one more switch. -/
def InStack (p a : BitVec 64) : Prop := p.toNat+176 ≤ a.toNat ∧ a.toNat < p.toNat+8192

/-! ## The switch -/

def calleeSaved : List Gpr := [.r15, .r14, .r13, .r12, .rbx, .rbp]

/-- `switch_to_asm(prev, next, &prev->m_context.rsp, &next->m_context.rsp)` is called. -/
def switchCall (prev next ret : BitVec 64) (m : Machine) : Machine :=
  ((((m.set .rdi prev).set .rsi next).set .rdx (slot prev)).set .rcx (slot next)).pushed ret

/-- `__switch_to` and its return. -/
def switchTo (k : Kernel) (m : Machine) : BitVec 64 × Machine :=
  let m' := m.storeAt (w := .quad) (off k.tss 4) (loadWord m.mem (off (m.reg .rsi) 48))
  (loadWord m'.mem (m.reg .rsp), (m'.set .rax (m.reg .rdi)).set .rsp (m.reg .rsp+8))

/-- The switch ends at `rip`. -/
def Switched (k : Kernel) (prev next ret : BitVec 64) (m : Machine) (rip : BitVec 64) (m' : Machine) : Prop :=
  ∃ m₁, Ends entry (.here (place .switchToAsm) (switchCall prev next ret m)) (· = .gone .switchTo m₁) ∧
    switchTo k m₁ = (rip, m')

/-- `copy_context` up to `m_context.rsp`: the child starts behind a switch of its own. -/
def childFrame (k : Kernel) (child parent frame : BitVec 64) (mem : Mem) : Mem :=
  let mem := copyTo (off child 56) 64 (window mem (off parent 56)) mem
  let mem := copyTo (off child 8016) frameSize (window mem frame) mem
  let mem := storeWord (off child 8016) 8 0 mem
  let mem := storeWord (off child 8008) 8 k.retFromFork.toNat mem
  storeWord (slot child) 8 (off child 7960).toNat mem

def copyContext (k : Kernel) (child parent frame : BitVec 64) (mem : Mem) : Mem :=
  let mem := childFrame k child parent frame mem
  if loadFrame mem frame .cs &&& 3 = 0 then storeWord (off child 8176) 8 (off child 8192).toNat mem else mem

/-! ## Runs -/

/-- How a process that does not run has left the processor. -/
inductive Asleep
  | called (ret : BitVec 64) (m : Machine)
  | forked (f : TrapFrame)

structure Sys where
  machine : Machine
  current : BitVec 64
  asleep : BitVec 64 → Option Asleep

/-- The stack pointer in the context. -/
def Asleep.sp (p : BitVec 64) : Asleep → BitVec 64
  | .called _ m => m.reg .rsp-BitVec.ofNat 64 56
  | .forked _ => off p 7960

/-- The bytes of a process that no other may write while it is asleep: its stack pointer
in the context, and its stack. -/
def Kept (p : BitVec 64) (a : Asleep) (x : BitVec 64) : Prop :=
  area x = area p ∧ (p.toNat+112 ≤ x.toNat ∧ x.toNat < p.toNat+120 ∨ (a.sp p).toNat ≤ x.toNat)

/-- The frame of a child. -/
def forkFrame (child : BitVec 64) (f : TrapFrame) : TrapFrame := fun r =>
  if r = .rax then 0 else if r = .rsp ∧ f .cs &&& 3 = 0 then off child 8192 else f r

inductive Event
  | compute
  | switch (next ret rip : BitVec 64)
  | fork (child frame : BitVec 64)
  | release (p : BitVec 64)

/-- The process on the processor runs any code that stays on its own stack, calls
`switch_to_asm`, forks with a frame on its stack, or lets go of a process that is over. -/
inductive Step (k : Kernel) : Sys → Event → Sys → Prop
  | compute {s : Sys} {m : Machine} (hsp : InStack s.current (m.reg .rsp))
      (hmem : ∀ p a, s.asleep p = some a → ∀ x, Kept p a x → m.mem x = s.machine.mem x) :
      Step k s .compute { s with machine := m }
  | switch {s : Sys} {next ret rip : BitVec 64} {a : Asleep} {m : Machine} (hnext : s.asleep next = some a)
      (h : Switched k s.current next ret s.machine rip m) :
      Step k s (.switch next ret rip) ⟨m, next,
        Function.update (Function.update s.asleep s.current (some (.called ret s.machine))) next none⟩
  | fork {s : Sys} {child frame : BitVec 64} (hchild : IsProcess k child) (hfresh : s.asleep child = none)
      (hne : child ≠ s.current) (hframe : InStack s.current frame) (htop : frame.toNat+frameSize ≤ s.current.toNat+8192) :
      Step k s (.fork child frame) { s with
        machine := { s.machine with mem := copyContext k child s.current frame s.machine.mem },
        asleep := Function.update s.asleep child (some (.forked (forkFrame child (loadFrame s.machine.mem frame)))) }
  | release {s : Sys} {p : BitVec 64} : Step k s (.release p) { s with asleep := Function.update s.asleep p none }

/-- The first process alone on its stack. -/
def Start (k : Kernel) (s : Sys) : Prop :=
  IsProcess k s.current ∧ InStack s.current (s.machine.reg .rsp) ∧ ∀ p, s.asleep p = none

inductive Reachable (k : Kernel) : Sys → Prop
  | start {s : Sys} (h : Start k s) : Reachable k s
  | step {s s' : Sys} {e : Event} (h : Reachable k s) (hstep : Step k s e s') : Reachable k s'

/-! ## Places -/

section Places

variable {a p x : BitVec 64} {n : ℕ} {b : Bytes} {mem mem' : Mem}

theorem toNat_off (h : p.toNat+n < 2^64) : (off p n).toNat = p.toNat+n := by
  rw [BitVec.toNat_add, BitVec.toNat_ofNat]
  omega

theorem copyTo_outside (hn : a.toNat+n ≤ 2^64) (h : x.toNat < a.toNat ∨ a.toNat+n ≤ x.toNat) :
    copyTo a n b mem x = mem x := by
  have hx := x.isLt
  refine copyTo_other ?_
  rw [BitVec.toNat_sub]
  omega

theorem loadWord_same (ha : a.toNat+8 ≤ 2^64)
    (h : ∀ x : BitVec 64, a.toNat ≤ x.toNat → x.toNat < a.toNat+8 → mem x = mem' x) : loadWord mem a = loadWord mem' a := by
  refine loadWord_congr fun j hj => ?_
  have hj' : (off a j).toNat = a.toNat+j := toNat_off (by omega)
  exact h (off a j) (by omega) (by omega)

theorem IsProcess.room {k : Kernel} (h : IsProcess k p) : p.toNat+8192 ≤ 2^64 := by
  have hp := p.isLt
  have haligned := h.1
  omega

theorem area_stack {k : Kernel} (h : IsProcess k p) : area x = area p ↔ p.toNat ≤ x.toNat ∧ x.toNat < p.toNat+8192 := by
  have haligned := h.1
  rw [area, area]
  omega

theorem areas_apart {k : Kernel} {q : BitVec 64} (h : IsProcess k p) (h' : IsProcess k q) (hne : p ≠ q) : area p ≠ area q := by
  intro heq
  have haligned := h.1
  have haligned' := h'.1
  rw [area, area] at heq
  exact hne (BitVec.eq_of_toNat_eq (by omega))

end Places

/-! ## The stack that is left -/

/-- The memory when `prev` has left the processor. -/
def savedMem (prev ret : BitVec 64) (m : Machine) : Mem :=
  storeWord (slot prev) 8 (m.reg .rsp-BitVec.ofNat 64 56).toNat (pushAll (ret :: calleeSaved.reverse.map m.reg) m).mem

section Switching

variable {k : Kernel} {prev next ret rip : BitVec 64} {m m' : Machine}

/-- The text of `switch_to_asm`. -/
theorem switches_stack (prev next ret : BitVec 64) (m : Machine) :
    Ends entry (.here (place .switchToAsm) (switchCall prev next ret m)) fun c => ∃ m', c = .gone .switchTo m' ∧
      m'.mem = savedMem prev ret m ∧ m'.reg .rdi = prev ∧ m'.reg .rsi = next ∧
      m'.reg .rsp = loadWord m'.mem (slot next)+BitVec.ofNat 64 48 ∧
      ∀ i (h : i < calleeSaved.length), m'.reg calleeSaved[i] = loadWord m'.mem (off (loadWord m'.mem (slot next)) (8*i)) := by
  have hblock : block (place .switchToAsm) = (calleeSaved.reverse.map fun r => .push (.reg r)) ++
      ([.store .quad .rsp ⟨0, .rdx, none⟩, .load .quad ⟨0, .rcx, none⟩ .rsp] ++ calleeSaved.map .pop) := rfl
  have hline : (beyond (place .switchToAsm)).head? = some (.tail .switchTo) := rfl
  have hpush : execs (calleeSaved.reverse.map fun r => .push (.reg r)) (switchCall prev next ret m) =
      pushAll (calleeSaved.reverse.map m.reg) (switchCall prev next ret m) := execs_push (by decide) _
  -- the machine with all registers on the old stack
  obtain ⟨m₁, hm₁⟩ : ∃ m₁, m₁ = pushAll (calleeSaved.reverse.map m.reg) (switchCall prev next ret m) := ⟨_, rfl⟩
  have hrsp₁ : m₁.reg .rsp = m.reg .rsp-BitVec.ofNat 64 56 := by
    rw [hm₁, pushAll_rsp]
    exact BitVec.sub_sub _ _ _
  have hmem₁ : m₁.mem = (pushAll (ret :: calleeSaved.reverse.map m.reg) m).mem := by
    rw [hm₁, pushAll_cons]
    exact pushAll_mem_congr _ rfl rfl
  have hrdx : m₁.reg .rdx = slot prev := hm₁ ▸ pushAll_reg _ (by decide)
  have hrcx : m₁.reg .rcx = slot next := hm₁ ▸ pushAll_reg _ (by decide)
  have hrdi : m₁.reg .rdi = prev := hm₁ ▸ pushAll_reg _ (by decide)
  have hrsi : m₁.reg .rsi = next := hm₁ ▸ pushAll_reg _ (by decide)
  -- the stack pointers change places
  obtain ⟨m₂, hm₂⟩ : ∃ m₂, m₂ = execs [.store .quad .rsp ⟨0, .rdx, none⟩, .load .quad ⟨0, .rcx, none⟩ .rsp] m₁ :=
    ⟨_, rfl⟩
  have hmem₂ : m₂.mem = savedMem prev ret m := by
    have hstore : (m₁.exec (.store .quad .rsp ⟨0, .rdx, none⟩)).mem = savedMem prev ret m := by
      rw [Machine.exec_store, Machine.address_zero, hrdx, hrsp₁, hmem₁]
      rfl
    rw [hm₂]
    exact hstore
  have hrsp₂ : m₂.reg .rsp = loadWord (savedMem prev ret m) (slot next) := by
    rw [← hmem₂, ← hrcx, hm₂, execs_cons, execs_cons, execs_nil, Machine.exec_load, Machine.address_zero]
    rfl
  obtain ⟨hrsp₃, hmem₃⟩ := @execs_pop_rsp calleeSaved (by decide) m₂
  have hexec : execs (block (place .switchToAsm)) (switchCall prev next ret m) = execs (calleeSaved.map .pop) m₂ := by
    rw [hblock, execs_append, execs_append, hpush, ← hm₁, ← hm₂]
  have hframe : ∀ r ∈ [.rdi, .rsi], (execs (calleeSaved.map .pop) m₂).reg r = m₁.reg r := by
    intro r hr
    have hwrites : (∀ i ∈ calleeSaved.map Instr.pop, r ∉ i.writes) ∧
        ∀ i ∈ [Instr.store .quad .rsp ⟨0, .rdx, none⟩, .load .quad ⟨0, .rcx, none⟩ .rsp], r ∉ i.writes := by
      revert r
      decide
    rw [reg_execs hwrites.1, hm₂, reg_execs hwrites.2]
  refine .block ?_
  rw [beyond_eq hline, hexec]
  refine .step rfl (.done ⟨_, rfl, hmem₃.trans hmem₂, ?_, ?_, ?_, fun i hi => ?_⟩)
  · exact (hframe .rdi (by decide)).trans hrdi
  · exact (hframe .rsi (by decide)).trans hrsi
  · rw [hrsp₃, hmem₃, hmem₂, hrsp₂]
    rfl
  · rw [execs_pop (by decide) (by decide) m₂ hi, hmem₃, hmem₂, hrsp₂]

theorem savedMem_other {x : BitVec 64} (hp : IsProcess k prev) (hs : InStack prev (m.reg .rsp))
    (h : area x ≠ area prev ∨ (m.reg .rsp).toNat ≤ x.toNat) : savedMem prev ret m x = m.mem x := by
  rw [Ne, area_stack hp] at h
  obtain ⟨hlow, hhigh⟩ := hs
  have hx := x.isLt
  have hroom := hp.room
  have hslot : (slot prev).toNat = prev.toNat+112 := toNat_off (by omega)
  have hlen : (ret :: calleeSaved.reverse.map m.reg).length = 7 := rfl
  have hpushed : (pushAll (ret :: calleeSaved.reverse.map m.reg) m).mem x = m.mem x := by
    refine pushAll_mem (by rw [hlen]; decide) ?_
    rw [pushAll_rsp, hlen, BitVec.toNat_sub, BitVec.toNat_sub, BitVec.toNat_ofNat]
    omega
  exact (copyTo_outside (by omega) (by omega)).trans hpushed

theorem savedMem_slot : loadWord (savedMem prev ret m) (slot prev) = m.reg .rsp-BitVec.ofNat 64 56 :=
  loadWord_storeWord _ _ _

/-- What was pushed, from the last word. -/
theorem savedMem_word (hp : IsProcess k prev) (hs : InStack prev (m.reg .rsp)) {i : ℕ} (hi : i < 7) :
    loadWord (savedMem prev ret m) (off (m.reg .rsp-BitVec.ofNat 64 56) (8*i)) = (calleeSaved.map m.reg ++ [ret]).getD i 0 := by
  obtain ⟨hlow, hhigh⟩ := hs
  have hroom := hp.room
  have hslot : (slot prev).toNat = prev.toNat+112 := toNat_off (by omega)
  have hsp : (m.reg .rsp-BitVec.ofNat 64 56).toNat = (m.reg .rsp).toNat-56 := by
    have hlt := (m.reg .rsp).isLt
    rw [BitVec.toNat_sub, BitVec.toNat_ofNat]
    omega
  have hoff : (off (m.reg .rsp-BitVec.ofNat 64 56) (8*i)).toNat = (m.reg .rsp).toNat-56+8*i := by
    rw [toNat_off (by omega), hsp]
  have hsame : loadWord (savedMem prev ret m) (off (m.reg .rsp-BitVec.ofNat 64 56) (8*i)) =
      loadWord (pushAll (ret :: calleeSaved.reverse.map m.reg) m).mem (off (m.reg .rsp-BitVec.ofNat 64 56) (8*i)) :=
    loadWord_same (by omega) fun x hx hx' => copyTo_outside (by omega) (by omega)
  have hlen : (ret :: calleeSaved.reverse.map m.reg).length = 7 := rfl
  have hlt : 6-i < (ret :: calleeSaved.reverse.map m.reg).length := by rw [hlen]; omega
  have hword := pushAll_word (m := m) (by rw [hlen]; decide) hlt
  have hback : (ret :: calleeSaved.reverse.map m.reg).length-1-(6-i) = i := by rw [hlen]; omega
  rw [pushAll_rsp, hback] at hword
  rw [hsame]
  refine hword.trans ?_
  interval_cases i <;> rfl

/-- The restored part of a thread: what memory holds for it while it is asleep. -/
def Intact (k : Kernel) (mem : Mem) (p : BitVec 64) (a : Asleep) : Prop :=
  loadWord mem (slot p) = a.sp p ∧ match a with
    | .called ret m => InStack p (m.reg .rsp) ∧
        (∀ i < 7, loadWord mem (off (a.sp p) (8*i)) = (calleeSaved.map m.reg ++ [ret]).getD i 0) ∧
        ∀ x, area x = area p → (m.reg .rsp).toNat ≤ x.toNat → mem x = m.mem x
    | .forked f => loadWord mem (off p 8008) = k.retFromFork ∧ loadFrame mem (off p 8016) = f

/-- A process that has just left is intact. -/
theorem intact_saved (hp : IsProcess k prev) (hs : InStack prev (m.reg .rsp)) :
    Intact k (savedMem prev ret m) prev (.called ret m) :=
  ⟨savedMem_slot, hs, fun _ hi => savedMem_word hp hs hi, fun _ _ hx => savedMem_other hp hs (.inr hx)⟩

theorem Intact.sp_called {mem : Mem} {p : BitVec 64} (h : Intact k mem p (.called ret m)) :
    ((Asleep.called ret m).sp p).toNat+56 = (m.reg .rsp).toNat := by
  have hlt := (m.reg .rsp).isLt
  obtain ⟨-, ⟨hlow, -⟩, -⟩ := h
  rw [Asleep.sp, BitVec.toNat_sub, BitVec.toNat_ofNat]
  omega

/-- What is kept of a process is all that it needs. -/
theorem Intact.congr {mem mem' : Mem} {p : BitVec 64} {a : Asleep} (h : Intact k mem p a) (hp : IsProcess k p)
    (hsame : ∀ x, Kept p a x → mem' x = mem x) : Intact k mem' p a := by
  have hroom := hp.room
  have hslot : (slot p).toNat = p.toNat+112 := toNat_off (by omega)
  have hkept : ∀ x : BitVec 64, p.toNat ≤ x.toNat → x.toNat < p.toNat+8192 →
      (p.toNat+112 ≤ x.toNat ∧ x.toNat < p.toNat+120 ∨ (a.sp p).toNat ≤ x.toNat) → mem' x = mem x :=
    fun x hlow hhigh hin => hsame x ⟨(area_stack hp).mpr ⟨hlow, hhigh⟩, hin⟩
  refine ⟨(loadWord_same (by omega) fun x hx hx' => hkept x (by omega) (by omega) (by omega)).trans h.1, ?_⟩
  cases a with
  | called ret m =>
    have hsp := h.sp_called
    obtain ⟨-, hs, hwords, hmem⟩ := h
    obtain ⟨hlow, hhigh⟩ := hs
    refine ⟨⟨hlow, hhigh⟩, fun i hi => ?_, fun x hx hx' => ?_⟩
    · have hoff : (off ((Asleep.called ret m).sp p) (8*i)).toNat = ((Asleep.called ret m).sp p).toNat+8*i :=
        toNat_off (by omega)
      rw [← hwords i hi]
      exact loadWord_same (by omega) fun x hx hx' => hkept x (by omega) (by omega) (by omega)
    · rw [← hmem x hx hx']
      exact hsame x ⟨hx, .inr (by omega)⟩
  | forked f =>
    have hsp : ((Asleep.forked f).sp p).toNat = p.toNat+7960 := toNat_off (by omega)
    have hret : (off p 8008).toNat = p.toNat+8008 := toNat_off (by omega)
    have hframe : (off p 8016).toNat = p.toNat+8016 := toNat_off (by omega)
    refine ⟨(loadWord_same (by omega) fun x hx hx' => hkept x (by omega) (by omega) (by omega)).trans h.2.1, ?_⟩
    rw [← h.2.2]
    refine loadFrame_congr fun j hj => ?_
    have hlt : j < 176 := hj
    have hoff : (off (off p 8016) j).toNat = p.toNat+8016+j := by rw [toNat_off (by omega), hframe]
    exact hkept (off (off p 8016) j) (by omega) (by omega) (by omega)

/-- The process is back: behind the call that it left with, or in the frame of its parent.
`prev` is the process that ran before it. -/
def Resumed (k : Kernel) (prev p : BitVec 64) (rip : BitVec 64) (m' : Machine) : Asleep → Prop
  | .called ret m => rip = ret ∧ m'.reg .rax = prev ∧ m'.reg .rsp = m.reg .rsp ∧
      (∀ r ∈ calleeSaved, m'.reg r = m.reg r) ∧
      ∀ x, area x = area p → (m.reg .rsp).toNat ≤ x.toNat → m'.mem x = m.mem x
  | .forked f => rip = k.retFromFork ∧ Ends entry (.here (place .retFromFork) m') fun c =>
      ∃ rest m₁, c = .calling .scheduleTail rest m₁ ∧ m₁.reg .rdi = prev ∧
        ∀ m₂, KeepsFrame m₁ m₂ → Ends entry (.here rest m₂) (GoesBack f m₂.mem)

/-- The text behind `ret_from_fork`. -/
theorem ends_fork {f : TrapFrame} (hframe : loadFrame m.mem (m.reg .rsp) = f) (hrax : m.reg .rax = prev) :
    Ends entry (.here (place .retFromFork) m) fun c => ∃ rest m₁, c = .calling .scheduleTail rest m₁ ∧
      m₁.reg .rdi = prev ∧ ∀ m₂, KeepsFrame m₁ m₂ → Ends entry (.here rest m₂) (GoesBack f m₂.mem) := by
  refine .calls rfl ⟨_, _, rfl, ?_, fun m₂ hkeeps => ?_⟩
  · exact Machine.exec_mov.trans hrax
  · obtain ⟨hsp, hwindow⟩ := hkeeps
    have hrsp : m₂.reg .rsp = m.reg .rsp := hsp
    have hback : loadFrame m₂.mem (m₂.reg .rsp) = f := by
      rw [hrsp, ← hframe]
      exact loadFrame_congr hwindow
    have hends : Ends entry (.here (place .restoreAll) (m₂.exec (.mov .quad (.reg .rsp) .rdi))) (GoesBack f m₂.mem) := by
      have hrestored := restores (m₂.exec (.mov .quad (.reg .rsp) .rdi))
      have hreg : (m₂.exec (.mov .quad (.reg .rsp) .rdi)).reg .rsp = m₂.reg .rsp := reg_exec (by decide)
      have hmem : (m₂.exec (.mov .quad (.reg .rsp) .rdi)).mem = m₂.mem := rfl
      rw [hreg, hmem, hback] at hrestored
      exact hrestored
    exact .jumps rfl (after_place _) hends

/-- What a switch leaves in the registers, by the stack pointer that it found in the context. -/
theorem Switched.registers {sp : BitVec 64} (h : Switched k prev next ret m rip m')
    (hsp : loadWord (savedMem prev ret m) (slot next) = sp) :
    (∃ v, m'.mem = storeWord (off k.tss 4) 8 v (savedMem prev ret m)) ∧ rip = loadWord m'.mem (off sp 48) ∧
      m'.reg .rax = prev ∧ m'.reg .rsp = off sp 56 ∧
      ∀ i (h : i < calleeSaved.length), m'.reg calleeSaved[i] = loadWord (savedMem prev ret m) (off sp (8*i)) := by
  obtain ⟨m₁, hends, hto⟩ := h
  have hstops : ∀ {Q : Config Label Callee → Prop}, (∀ c, Q c → ∃ m', c = .gone .switchTo m') → ∀ c, Q c → step entry c = none := by
    intro Q hgone c hc
    obtain ⟨m', rfl⟩ := hgone c hc
    rfl
  obtain ⟨c, ⟨m₁', rfl, hmem, hrdi, hrsi, hrsp, hregs⟩, hc⟩ := (switches_stack prev next ret m).unique
    (hstops fun c hc => ⟨_, hc.choose_spec.1⟩) hends (hstops fun c hc => ⟨_, hc⟩)
  cases hc
  rw [hmem, hsp] at hrsp hregs
  -- `__switch_to` and its return
  have hrip : (switchTo k m₁).1 = rip := congrArg Prod.fst hto
  have hm' : (switchTo k m₁).2 = m' := congrArg Prod.snd hto
  have hrip' : rip = loadWord m'.mem (m₁.reg .rsp) := by
    rw [← hrip, ← hm']
    rfl
  refine ⟨⟨(loadWord m₁.mem (off (m₁.reg .rsi) 48)).toNat, ?_⟩, ?_, ?_, ?_, fun i hi => ?_⟩
  · rw [← hm', ← hmem]
    rfl
  · rw [hrip', hrsp]
  · rw [← hm', ← hrdi]
    rfl
  · have hrsp' : m'.reg .rsp = m₁.reg .rsp+8 := by
      rw [← hm']
      rfl
    rw [hrsp', hrsp, BitVec.add_assoc]
    rfl
  · have hr : calleeSaved[i] ≠ .rsp ∧ calleeSaved[i] ≠ .rax :=
      (show ∀ r ∈ calleeSaved, r ≠ .rsp ∧ r ≠ .rax by decide) _ (List.getElem_mem hi)
    rw [← hm', ← hregs i hi]
    exact (Machine.reg_set_other _ hr.1).trans (Machine.reg_set_other _ hr.2)

theorem switched_spec {a : Asleep} (hprev : IsProcess k prev) (hs : InStack prev (m.reg .rsp)) (hnext : IsProcess k next)
    (hne : next ≠ prev) (ha : Intact k m.mem next a) (h : Switched k prev next ret m rip m') :
    (∀ x, area x ≠ area k.tss → m'.mem x = savedMem prev ret m x) ∧ InStack next (m'.reg .rsp) ∧
      Resumed k prev next rip m' a := by
  have hsame : ∀ x, area x = area next → savedMem prev ret m x = m.mem x := fun x hx =>
    savedMem_other hprev hs (.inl (hx.trans_ne (areas_apart hnext hprev hne)))
  have ha₁ : Intact k (savedMem prev ret m) next a := ha.congr hnext fun x hx => hsame x hx.1
  obtain ⟨⟨v, hmem⟩, hrip, hrax, hrsp, hregs⟩ := h.registers ha₁.1
  have haligned := k.aligned
  have htss : (off k.tss 4).toNat = k.tss.toNat+4 := toNat_off (by omega)
  have hother : ∀ x, area x ≠ area k.tss → m'.mem x = savedMem prev ret m x := by
    intro x hx
    rw [area, area] at hx
    rw [hmem]
    exact copyTo_outside (by omega) (by omega)
  have ha' : Intact k m'.mem next a := ha.congr hnext fun x hx =>
    (hother x (hx.1.trans_ne hnext.2)).trans (hsame x hx.1)
  refine ⟨hother, ?_⟩
  have hroom := hnext.room
  cases a with
  | called ret₀ m₀ =>
    have hback : m'.reg .rsp = m₀.reg .rsp := hrsp.trans (BitVec.sub_add_cancel _ _)
    refine ⟨hback ▸ ha'.2.1, hrip.trans (ha'.2.2.1 6 (by decide)), hrax, hback, fun r hr => ?_, ha'.2.2.2⟩
    obtain ⟨i, hi, rfl⟩ := List.getElem_of_mem hr
    have hlt : i < 6 := hi
    rw [hregs i hi, ha₁.2.2.1 i (by omega)]
    interval_cases i <;> rfl
  | forked f =>
    have hret : off ((Asleep.forked f).sp next) 48 = off next 8008 := by
      rw [off, Asleep.sp, off, BitVec.add_assoc]
      rfl
    have hback : m'.reg .rsp = off next 8016 := by
      rw [hrsp, off, Asleep.sp, off, BitVec.add_assoc]
      rfl
    have hoff : (off next 8016).toNat = next.toNat+8016 := toNat_off (by omega)
    refine ⟨?_, ?_, ends_fork (by rw [hback]; exact ha'.2.2) hrax⟩
    · rw [InStack, hback, hoff]
      omega
    · rw [hrip, hret]
      exact ha'.2.1

end Switching

/-! ## The stack of a child -/

section Forks

variable {k : Kernel} {child parent frame : BitVec 64} {mem : Mem}

theorem loadFrame_copy (a s : BitVec 64) (mem mem' : Mem) :
    loadFrame (copyTo a frameSize (window mem s) mem') a = loadFrame mem s := by
  funext r
  have hr := index_lt r
  have hword : word (window (copyTo a frameSize (window mem s) mem') a) (8*r.index) 8 = word (window mem s) (8*r.index) 8 :=
    word_congr fun j _ hj => window_copyTo (by rw [frameSize]; omega) (by decide)
  rw [loadFrame, loadFrame, loadWord, loadWord, word_window, word_window, hword]

theorem loadFrame_storeWord {a : BitVec 64} (ha : a.toNat+frameSize ≤ 2^64) (r : Reg) (v : BitVec 64) (mem : Mem) :
    loadFrame (storeWord (off a (8*r.index)) 8 v.toNat mem) a = Function.update (loadFrame mem a) r v := by
  have hsize : a.toNat+176 ≤ 2^64 := ha
  have hoff : ∀ r : Reg, (off a (8*r.index)).toNat = a.toNat+8*r.index := fun r =>
    toNat_off (by have := index_lt r; omega)
  funext r'
  by_cases h : r' = r
  · subst h
    rw [Function.update_self]
    exact loadWord_storeWord _ _ _
  · have hne : r'.index ≠ r.index := fun heq => h (by rw [← regAt_index r', ← regAt_index r, heq])
    have hr := hoff r
    have hr' := hoff r'
    have hlt := index_lt r
    have hlt' := index_lt r'
    have hsame : loadWord (storeWord (off a (8*r.index)) 8 v.toNat mem) (off a (8*r'.index)) = loadWord mem (off a (8*r'.index)) :=
      loadWord_same (by omega) fun x hx hx' => copyTo_outside (by omega) (by omega)
    rw [Function.update_of_ne h]
    exact hsame

theorem forkFrame_eq (child : BitVec 64) (f : TrapFrame) : forkFrame child f =
    if f .cs &&& 3 = 0 then Function.update (Function.update f .rax 0) .rsp (off child 8192) else Function.update f .rax 0 := by
  funext r
  rw [forkFrame]
  by_cases hcs : f .cs &&& 3 = 0
  · rw [if_pos hcs, Function.update_apply, Function.update_apply]
    by_cases hrsp : r = .rsp
    · subst hrsp
      rw [if_neg (by decide), if_pos ⟨rfl, hcs⟩, if_pos rfl]
    · rw [if_neg hrsp, if_neg (c := r = .rsp ∧ f .cs &&& 3 = 0) (fun h => hrsp h.1)]
  · rw [if_neg hcs, Function.update_apply, if_neg (c := r = .rsp ∧ f .cs &&& 3 = 0) (fun h => hcs h.2)]

/-- Where the parts of a child lie. -/
theorem child_places (hp : IsProcess k child) : (off child 56).toNat = child.toNat+56 ∧
    (slot child).toNat = child.toNat+112 ∧ (off child 7960).toNat = child.toNat+7960 ∧
    (off child 8008).toNat = child.toNat+8008 ∧ (off child 8016).toNat = child.toNat+8016 ∧
    (off child 8176).toNat = child.toNat+8176 := by
  have hroom := hp.room
  exact ⟨toNat_off (by omega), toNat_off (by omega), toNat_off (by omega), toNat_off (by omega), toNat_off (by omega),
    toNat_off (by omega)⟩

/-- `copy_context` writes to the child only. -/
theorem childFrame_other {x : BitVec 64} (hp : IsProcess k child) (h : area x ≠ area child) :
    childFrame k child parent frame mem x = mem x := by
  rw [Ne, area_stack hp] at h
  have hroom := hp.room
  obtain ⟨hctx, hslot, -, hret, hframe, -⟩ := child_places hp
  have hsize : frameSize = 176 := rfl
  refine (copyTo_outside (by omega) (by omega)).trans ?_
  refine (copyTo_outside (by omega) (by omega)).trans ?_
  refine (copyTo_outside (by omega) (by omega)).trans ?_
  refine (copyTo_outside (by omega) (by omega)).trans ?_
  exact copyTo_outside (by omega) (by omega)

theorem copyContext_other {x : BitVec 64} (hp : IsProcess k child) (h : area x ≠ area child) :
    copyContext k child parent frame mem x = mem x := by
  have hold : childFrame k child parent frame mem x = mem x := childFrame_other hp h
  rw [Ne, area_stack hp] at h
  have hroom := hp.room
  obtain ⟨-, -, -, -, -, hrsp⟩ := child_places hp
  rw [copyContext]
  split
  · exact (copyTo_outside (by omega) (by omega)).trans hold
  · exact hold

theorem childFrame_intact (hp : IsProcess k child) (hframe : ∀ j < frameSize, area (off frame j) ≠ area child) :
    loadWord (childFrame k child parent frame mem) (slot child) = off child 7960 ∧
      loadWord (childFrame k child parent frame mem) (off child 8008) = k.retFromFork ∧
      loadFrame (childFrame k child parent frame mem) (off child 8016) =
        Function.update (loadFrame mem frame) .rax 0 := by
  have hroom := hp.room
  obtain ⟨hctx, hslot, -, hret, htop, -⟩ := child_places hp
  have hsize : frameSize = 176 := rfl
  refine ⟨loadWord_storeWord _ _ _, ?_, ?_⟩
  · refine (loadWord_same (by omega) fun x hx hx' => copyTo_outside (by omega) (by omega)).trans ?_
    exact loadWord_storeWord _ _ _
  · -- the frame of the parent lies outside of what is written
    have hsource : loadFrame (copyTo (off child 56) 64 (window mem (off parent 56)) mem) frame = loadFrame mem frame := by
      refine loadFrame_congr fun j hj => ?_
      have hout := hframe j hj
      rw [Ne, area_stack hp] at hout
      exact copyTo_outside (a := off child 56) (x := off frame j) (by omega) (by omega)
    have hrax : loadFrame (storeWord (off child 8016) 8 0 (copyTo (off child 8016) frameSize
        (window (copyTo (off child 56) 64 (window mem (off parent 56)) mem) frame)
        (copyTo (off child 56) 64 (window mem (off parent 56)) mem))) (off child 8016) =
        Function.update (loadFrame mem frame) .rax 0 := by
      have hzero : off (off child 8016) (8*Reg.rax.index) = off child 8016 := BitVec.add_zero _
      have hstore := loadFrame_storeWord (a := off child 8016) (by omega) .rax 0 (copyTo (off child 8016) frameSize
        (window (copyTo (off child 56) 64 (window mem (off parent 56)) mem) frame)
        (copyTo (off child 56) 64 (window mem (off parent 56)) mem))
      rw [hzero, loadFrame_copy, hsource] at hstore
      exact hstore
    rw [← hrax]
    refine loadFrame_congr fun j hj => ?_
    have hoff : (off (off child 8016) j).toNat = child.toNat+8016+j := by rw [toNat_off (by omega), htop]
    refine (copyTo_outside (a := slot child) (x := off (off child 8016) j) (by omega) (by omega)).trans ?_
    exact copyTo_outside (a := off child 8008) (x := off (off child 8016) j) (by omega) (by omega)

/-- The child is intact, with the frame of its parent. -/
theorem intact_forked (hp : IsProcess k child) (hframe : ∀ j < frameSize, area (off frame j) ≠ area child) :
    Intact k (copyContext k child parent frame mem) child (.forked (forkFrame child (loadFrame mem frame))) := by
  have hroom := hp.room
  have hsize : frameSize = 176 := rfl
  obtain ⟨hctx, hslot, -, hret, htop, hrsp⟩ := child_places hp
  obtain ⟨hsp, hto, hload⟩ := @childFrame_intact k child parent frame mem hp hframe
  have hsource : loadFrame (childFrame k child parent frame mem) frame = loadFrame mem frame :=
    loadFrame_congr fun j hj => childFrame_other hp (hframe j hj)
  rw [Intact, copyContext, hsource, forkFrame_eq]
  split
  · refine ⟨?_, ?_, ?_⟩
    · exact (loadWord_same (by omega) fun x hx hx' => copyTo_outside (by omega) (by omega)).trans hsp
    · exact (loadWord_same (by omega) fun x hx hx' => copyTo_outside (by omega) (by omega)).trans hto
    · have hplace : off child 8176 = off (off child 8016) (8*Reg.rsp.index) := by
        rw [off, off, BitVec.add_assoc]
        rfl
      rw [hplace, loadFrame_storeWord (by omega), hload]
  · exact ⟨hsp, hto, hload⟩

end Forks

/-! ## Every run -/

section Runs

variable {k : Kernel} {s s' : Sys} {e : Event}

/-- Who is asleep is intact. -/
structure Sound (k : Kernel) (s : Sys) : Prop where
  process : IsProcess k s.current
  stack : InStack s.current (s.machine.reg .rsp)
  awake : s.asleep s.current = none
  intact : ∀ p a, s.asleep p = some a → IsProcess k p ∧ Intact k s.machine.mem p a

theorem Sound.ne (h : Sound k s) {p : BitVec 64} {a : Asleep} (hp : s.asleep p = some a) : p ≠ s.current := by
  rintro rfl
  rw [h.awake] at hp
  cases hp

theorem Sound.switch {next ret rip : BitVec 64} {a : Asleep} {m : Machine} (h : Sound k s) (hnext : s.asleep next = some a)
    (hswitch : Switched k s.current next ret s.machine rip m) : Sound k ⟨m, next,
      Function.update (Function.update s.asleep s.current (some (.called ret s.machine))) next none⟩ := by
  have hne := h.ne hnext
  obtain ⟨hproc, hintact⟩ := h.intact next a hnext
  obtain ⟨hmem, hsp, -⟩ := switched_spec h.process h.stack hproc hne hintact hswitch
  refine ⟨hproc, hsp, Function.update_self .., fun p b hp => ?_⟩
  dsimp only at hp
  by_cases hpn : p = next
  · subst hpn
    rw [Function.update_self] at hp
    cases hp
  rw [Function.update_of_ne hpn] at hp
  by_cases hpc : p = s.current
  · subst hpc
    rw [Function.update_self] at hp
    cases hp
    exact ⟨h.process, (intact_saved h.process h.stack).congr h.process fun x hx => hmem x (hx.1.trans_ne h.process.2)⟩
  · rw [Function.update_of_ne hpc] at hp
    obtain ⟨hproc', hintact'⟩ := h.intact p b hp
    refine ⟨hproc', hintact'.congr hproc' fun x hx => (hmem x (hx.1.trans_ne hproc'.2)).trans ?_⟩
    exact savedMem_other h.process h.stack (.inl (hx.1.trans_ne (areas_apart hproc' h.process hpc)))

theorem Sound.fork {child frame : BitVec 64} (h : Sound k s) (hchild : IsProcess k child) (hne : child ≠ s.current)
    (hframe : InStack s.current frame) (htop : frame.toNat+frameSize ≤ s.current.toNat+8192) : Sound k { s with
      machine := { s.machine with mem := copyContext k child s.current frame s.machine.mem },
      asleep := Function.update s.asleep child (some (.forked (forkFrame child (loadFrame s.machine.mem frame)))) } := by
  refine ⟨h.process, h.stack, ?_, fun p b hp => ?_⟩
  · exact (Function.update_of_ne hne.symm _ _).trans h.awake
  dsimp only at hp ⊢
  by_cases hpc : p = child
  · subst hpc
    rw [Function.update_self] at hp
    cases hp
    -- the frame lies on the stack of the parent
    refine ⟨hchild, intact_forked hchild fun j hj => ?_⟩
    have hroom := h.process.room
    obtain ⟨hlow, hhigh⟩ := hframe
    have hoff : (off frame j).toNat = frame.toNat+j := toNat_off (by omega)
    have harea : area (off frame j) = area s.current := (area_stack h.process).mpr (by omega)
    exact harea.trans_ne (areas_apart h.process hchild hne.symm)
  · rw [Function.update_of_ne hpc] at hp
    obtain ⟨hproc, hintact⟩ := h.intact p b hp
    exact ⟨hproc, hintact.congr hproc fun x hx => copyContext_other hchild (hx.1.trans_ne (areas_apart hproc hchild hpc))⟩

theorem Sound.release (h : Sound k s) (p : BitVec 64) : Sound k { s with asleep := Function.update s.asleep p none } := by
  refine ⟨h.process, h.stack, ?_, fun q b hq => ?_⟩
  · by_cases hp : s.current = p
    · exact (congrArg _ hp).trans (Function.update_self ..)
    · exact (Function.update_of_ne hp _ _).trans h.awake
  · dsimp only at hq
    by_cases hp : q = p
    · subst hp
      rw [Function.update_self] at hq
      cases hq
    · rw [Function.update_of_ne hp] at hq
      exact h.intact q b hq

theorem sound_step (h : Sound k s) (hstep : Step k s e s') : Sound k s' := by
  cases hstep with
  | compute hsp hmem =>
    refine ⟨h.process, hsp, h.awake, fun p a hp => ?_⟩
    obtain ⟨hproc, hintact⟩ := h.intact p a hp
    exact ⟨hproc, hintact.congr hproc (hmem p a hp)⟩
  | switch hnext hswitch => exact h.switch hnext hswitch
  | fork hchild _ hne hframe htop => exact h.fork hchild hne hframe htop
  | release => exact h.release _

theorem sound_run (h : Reachable k s) : Sound k s := by
  induction h with
  | start h =>
    obtain ⟨hproc, hstack, hnone⟩ := h
    exact ⟨hproc, hstack, hnone _, fun p a hp => absurd (hp.symm.trans (hnone p)) (Option.some_ne_none a)⟩
  | step _ hstep ih => exact sound_step ih hstep

/-- `get_current`: the process of a stack pointer. -/
theorem current_eq {p sp : BitVec 64} (hp : IsProcess k p) (hs : InStack p sp) : -8192 &&& sp = p := by
  obtain ⟨hlow, hhigh⟩ := hs
  have haligned := hp.1
  have hlow13 : (sp &&& 8191#64).toNat = sp.toNat%8192 := by
    rw [BitVec.toNat_and]
    exact Nat.and_two_pow_sub_one_eq_mod sp.toNat 13
  have hdisjoint : (sp &&& 8191#64) &&& (-8192#64 &&& sp) = 0#64 := by
    rw [BitVec.and_comm (-8192#64), BitVec.and_assoc, BitVec.and_comm sp (-8192#64), ← BitVec.and_assoc (8191#64)]
    exact (congrArg (sp &&& ·) BitVec.zero_and).trans BitVec.and_zero
  have hsum : (sp &&& 8191#64)+(-8192#64 &&& sp) = sp := by
    have hall : 8191#64 ||| -8192#64 = BitVec.allOnes 64 := by decide
    rw [BitVec.add_eq_or_of_and_eq_zero _ _ hdisjoint, BitVec.and_comm (-8192#64), ← BitVec.and_or_distrib_left, hall,
      BitVec.and_allOnes]
  have hnat := congrArg BitVec.toNat hsum
  rw [BitVec.toNat_add, hlow13] at hnat
  have hlt := (-8192#64 &&& sp).isLt
  exact BitVec.eq_of_toNat_eq (show (-8192#64 &&& sp).toNat = _ by omega)

/-- Whatever ran meanwhile, a process comes back to what it left: after the call with its
registers and its stack, or as a child in the frame of its parent. The switch never gets
stuck, and the stack tells who runs. -/
theorem comes_back (h : Reachable k s) : -8192 &&& s.machine.reg .rsp = s.current ∧
    ∀ next a ret, s.asleep next = some a → (∃ rip s', Step k s (.switch next ret rip) s') ∧
      ∀ rip s', Step k s (.switch next ret rip) s' → Resumed k s.current next rip s'.machine a := by
  have hsound := sound_run h
  refine ⟨current_eq hsound.process hsound.stack, fun next a ret hnext => ?_⟩
  obtain ⟨hproc, hintact⟩ := hsound.intact next a hnext
  constructor
  · obtain ⟨c, hruns, m', rfl, -⟩ := switches_stack s.current next ret s.machine
    exact ⟨_, _, .switch hnext ⟨m', ⟨_, hruns, rfl⟩, rfl⟩⟩
  · intro rip s' hstep
    cases hstep with
    | switch hnext' hswitch =>
      rw [hnext] at hnext'
      cases hnext'
      exact (switched_spec hsound.process hsound.stack hproc (hsound.ne hnext) hintact hswitch).2.2

def kernel : Kernel := ⟨0x10000, 0x100800, rfl⟩

def booted : Sys := ⟨idle.set .rsp 0x5f00, 0x4000, fun _ => none⟩

theorem comes_back_child : ∃ s, Reachable kernel s ∧ s.asleep 0x8000 ≠ none ∧
    ∃ rip s', Step kernel s (.switch 0x8000 0x1000 rip) s' ∧ rip = 0x100800 := by
  have hstart : Reachable kernel booted :=
    .start ⟨by unfold IsProcess area; decide, by unfold InStack; decide, fun _ => rfl⟩
  have hfork := hstart.step (@Step.fork kernel booted 0x8000 0x5f00 (by unfold IsProcess area; decide) rfl (by decide)
    (by unfold InStack; decide) (by decide))
  have hasleep := Function.update_self (0x8000 : BitVec 64)
    (some (Asleep.forked (forkFrame 0x8000 (loadFrame booted.machine.mem 0x5f00)))) booted.asleep
  obtain ⟨-, hback⟩ := comes_back hfork
  obtain ⟨⟨rip, s', hstep⟩, hresumed⟩ := hback 0x8000 _ 0x1000 hasleep
  exact ⟨_, hfork, fun hnone => Option.some_ne_none _ (hasleep.symm.trans hnone), rip, s', hstep, (hresumed rip s' hstep).1⟩

end Runs

end BabyOS.ContextSwitches

import BabyOS.PageMachine

/-!
# Processes and their memory

One processor runs the processes in turn. A user access goes through the tables
that CR3 points to, which after a fork are the child's until the next reload;
the fault handler works on the tables of the current process. System calls and
faults are steps of the machine; a step that is not possible, or that panics,
has no result.
-/

set_option autoImplicit false

namespace BabyOS.ProcessMachine
open BabyOS.BuddyMachine BabyOS.AreaMachine BabyOS.FrameCounts BabyOS.RadixTables BabyOS.PageMachine

structure Process where
  vmm : Vmm
  tables : Pml4Table
  alive : Bool

/-- `owned` counts the frames that the kernel holds for objects of its own, such
as slabs, pipe buffers and the `process_t` itself. -/
structure Machine where
  phys : Phys
  procs : ℕ → Process
  count : ℕ
  current : ℕ
  cr3 : ℕ
  owned : ℕ → ℕ

namespace Machine

def self (m : Machine) : Process := m.procs m.current

/-- The current process is `p` now. -/
def setSelf (m : Machine) (p : Process) : Machine :=
  { m with procs := Function.update m.procs m.current p }

def setAreas (m : Machine) (l : Areas) : Machine :=
  m.setSelf { m.self with vmm := { m.self.vmm with mmap := l } }

/-- New tables for the current process, loaded into CR3. -/
def setTables (m : Machine) (t : Pml4Table) (s : Phys) : Machine :=
  { m.setSelf { m.self with tables := t } with phys := s, cr3 := m.current }

/-- The entry that an access to a page uses. -/
def translate (m : Machine) (n : ℕ) : Option Pte := findPte (m.procs m.cr3).tables n

end Machine

/-! ## The control register that decides about kernel stores -/

def cr0Pe : ℕ := 2 ^ 0
def cr0Em : ℕ := 2 ^ 2
def cr0Ts : ℕ := 2 ^ 3
def cr0Pg : ℕ := 2 ^ 31

/-- `startup32` stores `CR0_PE | CR0_PG`; `fpu_t::init` clears `TS` and `EM`. -/
def cr0 : ℕ := (cr0Pe ||| cr0Pg) &&& (2 ^ 64-1-(cr0Ts+cr0Em))

/-- `CR0.WP` is bit 16. -/
def supervisorMayWrite (pte : Pte) : Bool := pte.writable || !cr0.testBit 16

/-! ## The fault handler -/

/-- `vmm_t::release`. -/
def release (m : Machine) : Option Machine :=
  match freeAreas m.self.tables m.self.vmm.mmap m.phys with
  | none => none
  | some s => match freePml4Table m.self.tables s with
    | none => none
    | some (t, s) => some ((m.setAreas []).setTables t s)

/-- `process_t::exit`, up to the call of `schedule`. -/
def exit (m : Machine) : Option Machine :=
  (release m).map fun m => m.setSelf { m.self with alive := false }

/-- `do_protection_fault` after its checks. -/
def doProtectionFault (m : Machine) (addr : ℕ) : Option Machine :=
  match findPte m.self.tables (pageOf addr) with
  | none => some m
  | some pte =>
    let pa := frameAddr pte.frame+addr % pageSize
    if m.phys.buddy.getPageRef pa = 1 then
      some (m.setTables (makePteWrite m.self.tables (pageOf addr)) m.phys)
    else match m.phys.buddy.allocPages 0 with
      | none => none
      | some (p, b) => match b.freePages pa 0 with
        | none => none
        | some b => (mapPage m.self.tables (pageOf addr) ⟨mapNr p, true⟩
            ⟨b, Function.update m.phys.mem (mapNr p) (m.phys.mem pte.frame)⟩).map
            fun r => m.setTables r.1 r.2

/-- The not-present path: a frame as it comes from the allocator. -/
def doNotPresent (m : Machine) (addr : ℕ) : Option Machine :=
  match m.phys.buddy.allocPages 0 with
  | none => none
  | some (pa, b) => (mapPage m.self.tables (pageOf addr) ⟨mapNr pa, true⟩ { m.phys with buddy := b }).map
      fun r => m.setTables r.1 r.2

/-- `do_page_fault`. -/
def doPageFault (m : Machine) (addr err rsp : ℕ) : Option Machine :=
  match pageFault m.self.vmm.mmap addr err rsp (findPte m.self.tables (pageOf addr)).isSome with
  | none => exit m
  | some (ok, l) =>
    if err &&& 1 ≠ 0 then
      if ok then doProtectionFault (m.setAreas l) addr else some (m.setAreas l)
    else doNotPresent (m.setAreas l) addr

/-- The error code of an access; `present` is what the tables in CR3 say. -/
def faultCode (present write user : Bool) : ℕ :=
  present.toNat+(if write then 2 else 0)+(if user then 4 else 0)

/-! ## System calls -/

/-- `process_t::fork`: the `process_t`, the tables, the areas. The new process
has the next free index, and CR3 is left on its tables. -/
def fork (m : Machine) : Option Machine :=
  match m.phys.buddy.allocPages 1 with
  | none => none
  | some (pa, b) => match copyPml4Table m.self.tables { m.phys with buddy := b } with
    | none => none
    | some (child, parent, s) =>
      let vmm := m.self.vmm
      some { m with
        phys := s
        procs := Function.update (Function.update m.procs m.current { m.self with tables := parent })
          m.count ⟨{ vmm with mmap := copyVma vmm.mmap }, child, true⟩
        count := m.count+1
        cr3 := m.count
        owned := fun f => m.owned f+if mapNr pa ≤ f ∧ f < mapNr pa+2 ^ 1 then 1 else 0 }

/-- The pages that `do_munmap` passes to `free_page_range`. -/
def unmapped (l : Areas) (addr len : ℕ) : Option (ℕ × ℕ) :=
  if addr % pageSize ≠ 0 ∨ addr > userVmSize ∨ len > userVmSize-addr then none
  else if pageAlign len = 0 then none
  else match findVma l addr with
    | (_, []) => none
    | (_, vma :: _) =>
      if addr < vma.mStart ∨ addr+pageAlign len > vma.mEnd then none
      else some (addr, addr+pageAlign len)

/-- The call of `do_munmap` that `sys_brk` makes, itself or through `do_brk`. -/
def brkUnmap (v : Vmm) (brk : ℕ) : Option (ℕ × ℕ) :=
  let newbrk := pageAlign brk
  let oldbrk := pageAlign v.brk
  if brk < v.startBrk then none
  else if brk < v.brk then some (newbrk, (oldbrk+2 ^ 64-newbrk) % 2 ^ 64)
  else
    let len := pageAlign ((newbrk+2 ^ 64-oldbrk) % 2 ^ 64)
    if len = 0 then none else some (oldbrk, len)

/-- `free_page_range` on the current process, with the reload of CR3. -/
def freeRange (m : Machine) : Option (ℕ × ℕ) → Option Machine
  | none => some m
  | some (first, last) =>
    (freePageRange m.self.tables first last m.phys).map fun s => { m with phys := s, cr3 := m.current }

/-- An operation on the areas of the current process, with the pages it frees. -/
def areaOp (m : Machine) (op : Op) (range : Option (ℕ × ℕ)) : Option Machine :=
  match perform m.self.vmm op with
  | none => none
  | some (_, v) => freeRange (m.setSelf { m.self with vmm := v }) range

/-! ## `exec` -/

/-- A segment of the file, its bytes, and how many of them the read delivers. -/
structure Image where
  ph : Segment
  filesz : ℕ
  data : ℕ → ℕ
  got : ℕ

/-- The bytes of memory after `size` bytes are copied to the physical address
`start`. -/
def writeBytes (start size : ℕ) (data : ℕ → ℕ) (mem : ℕ → ℕ → ℕ) (f o : ℕ) : ℕ :=
  if start ≤ frameAddr f+o ∧ frameAddr f+o < start+size then data (frameAddr f+o-start) else mem f o

def segmentPages (g : Image) : ℕ := pageAlign (g.ph.memsz+g.ph.vaddr % pageSize) / pageSize

/-- `load_elf_segment`, with its success. -/
def loadSegment (m : Machine) (g : Image) : Option (Bool × Machine) :=
  match loadElfSegment m.self.vmm.mmap g.ph with
  | none => some (false, m)
  | some l =>
    let m := m.setAreas l
    match m.phys.buddy.allocPages (Nat.clog 2 (segmentPages g)) with
    | none => none
    | some (pa, b) =>
      match mapPages (segmentPages g) m.self.tables (pageOf g.ph.vaddr) (mapNr pa)
          { m.phys with buddy := b } with
      | none => none
      | some (t, s) =>
        let start := pa+g.ph.vaddr % pageSize
        let read := writeBytes start (min g.got g.filesz) g.data s.mem
        if g.got < g.filesz then some (false, m.setTables t { s with mem := read })
        else
          let clear := writeBytes (start+g.filesz) (g.ph.memsz-g.filesz) (fun _ => 0) read
          some (true, m.setTables t { s with mem := clear })

def loadSegments : List Image → Machine → Option (Bool × Machine)
  | [], m => some (true, m)
  | g :: rest, m =>
    match loadSegment m g with
    | none => none
    | some (false, m) => some (false, m)
    | some (true, m) => loadSegments rest m

/-- `process_t::exec`: the old memory is released, the segments are loaded, and
the stack area is inserted. A load that fails ends the process. -/
def exec (m : Machine) (image : List Image) (startBrk : ℕ) : Option Machine :=
  match release m with
  | none => none
  | some m => match loadSegments image m with
    | none => none
    | some (false, m) => exit m
    | some (true, m) =>
      let vmm : Vmm := ⟨(insertVma m.self.vmm.mmap userStack).getD m.self.vmm.mmap, startBrk, pageAlign startBrk⟩
      some (m.setSelf { m.self with vmm := vmm })

/-! ## Steps -/

inductive Event
  | area (op : Op)
  | userFault (addr : ℕ) (write : Bool) (rsp : ℕ)
  | userStore (addr byte : ℕ)
  | kernelFault (addr : ℕ) (write : Bool) (rsp : ℕ)
  | kernelStore (addr byte : ℕ)
  | fork
  | exec (image : List Image) (startBrk : ℕ)
  | exit
  | schedule (next : ℕ)
  | kernelAlloc (order : ℕ)
  | kernelFree (pa order : ℕ)
  | kernelWrite (frame offset byte : ℕ)

/-- The range freed by an area operation. -/
def freedBy (m : Machine) : Op → Option (ℕ × ℕ)
  | .munmap addr len _ => unmapped m.self.vmm.mmap addr len
  | .brk value _ _ => (brkUnmap m.self.vmm value).bind fun r => unmapped m.self.vmm.mmap r.1 r.2
  | .sbrk increment _ _ =>
    (brkUnmap m.self.vmm ((m.self.vmm.brk+increment) % 2 ^ 64)).bind fun r =>
      unmapped m.self.vmm.mmap r.1 r.2
  | _ => none

def storeByte (m : Machine) (frame offset byte : ℕ) : Machine :=
  { m with phys := { m.phys with
      mem := Function.update m.phys.mem frame (Function.update (m.phys.mem frame) offset byte) } }

def ownedBlock (owned : ℕ → ℕ) (pa order : ℕ) : Prop :=
  mapNr pa % 2 ^ order = 0 ∧ ∀ f, mapNr pa ≤ f → f < mapNr pa+2 ^ order → 0 < owned f

/-- The steps of the machine. The process that is running takes every step but
`schedule`, which also follows an `exit`. -/
inductive Step : Machine → Event → Machine → Prop
  | area {m m' : Machine} {op : Op} : m.self.alive → areaOp m op (freedBy m op) = some m' →
      (∀ addr err rsp mapped, op ≠ .fault addr err rsp mapped) → Step m (.area op) m'
  | userFault {m m' : Machine} {addr rsp : ℕ} {write : Bool} : m.self.alive → addr < userVmSize →
      (∀ pte, m.translate (pageOf addr) = some pte → write = true ∧ pte.writable = false) →
      doPageFault m addr (faultCode (m.translate (pageOf addr)).isSome write true) rsp = some m' →
      Step m (.userFault addr write rsp) m'
  | userStore {m : Machine} {addr byte : ℕ} {pte : Pte} : m.self.alive → addr < userVmSize →
      m.translate (pageOf addr) = some pte → pte.writable = true →
      Step m (.userStore addr byte) (storeByte m pte.frame (addr % pageSize) byte)
  | kernelFault {m m' : Machine} {addr rsp : ℕ} {write : Bool} : m.self.alive → addr < userVmSize →
      (∀ pte, m.translate (pageOf addr) = some pte → write = true ∧ supervisorMayWrite pte = false) →
      doPageFault m addr (faultCode (m.translate (pageOf addr)).isSome write false) rsp = some m' →
      Step m (.kernelFault addr write rsp) m'
  | kernelStore {m : Machine} {addr byte : ℕ} {pte : Pte} : m.self.alive → addr < userVmSize →
      m.translate (pageOf addr) = some pte → supervisorMayWrite pte = true →
      Step m (.kernelStore addr byte) (storeByte m pte.frame (addr % pageSize) byte)
  | fork {m m' : Machine} : m.self.alive → fork m = some m' → Step m .fork m'
  | exec {m m' : Machine} {image : List Image} {startBrk : ℕ} : m.self.alive →
      exec m image startBrk = some m' → Step m (.exec image startBrk) m'
  | exit {m m' : Machine} : m.self.alive → exit m = some m' → Step m .exit m'
  | schedule {m : Machine} {next : ℕ} : next < m.count → (m.procs next).alive →
      Step m (.schedule next) { m with current := next, cr3 := next }
  | kernelAlloc {m : Machine} {order pa : ℕ} {b : Buddy} :
      m.phys.buddy.allocPages order = some (pa, b) →
      Step m (.kernelAlloc order) { m with
        phys := { m.phys with buddy := b }
        owned := fun f => m.owned f+if mapNr pa ≤ f ∧ f < mapNr pa+2 ^ order then 1 else 0 }
  | kernelFree {m : Machine} {order pa : ℕ} {b : Buddy} : order ≤ maxOrder →
      ownedBlock m.owned pa order → m.phys.buddy.freePages pa order = some b →
      Step m (.kernelFree pa order) { m with
        phys := { m.phys with buddy := b }
        owned := fun f => m.owned f-if mapNr pa ≤ f ∧ f < mapNr pa+2 ^ order then 1 else 0 }
  | kernelWrite {m : Machine} {frame offset byte : ℕ} : 0 < m.owned frame →
      Step m (.kernelWrite frame offset byte) (storeByte m frame offset byte)

end BabyOS.ProcessMachine

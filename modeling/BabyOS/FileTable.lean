import Mathlib

/-!
# Open files

The table of file slots, the descriptors of each process, and the system calls
that open, duplicate and close them. The table is changed only in steps without a
sleep; a process that exits may sleep between two files. The slab cache panics
rather than return no object, so `alloc_pipe` always gets its pipe.
-/

set_option autoImplicit false

namespace BabyOS.FileTable

def maxFileNum : ℕ := 256
def maxOpenFile : ℕ := 64

inductive FileType
  | none
  | pipe
  | inode
  | socket
deriving DecidableEq, Repr

/-- `file_descriptor_t`. An inode, a pipe or a socket is a number here. There are
fewer references than `64` for each process, so `m_ref` does not wrap. -/
structure File where
  type : FileType
  ref : ℕ
  readable : Bool
  writeable : Bool
  inode : Option ℕ
  pipe : Option ℕ
  socket : Option ℕ
deriving DecidableEq, Repr

/-- `file_descriptor_t::init`. -/
def File.init (type : FileType) (inode pipe : Option ℕ) (readable writeable : Bool) : File :=
  ⟨type, 1, readable, writeable, inode, pipe, none⟩

abbrev Table := ℕ → File

namespace Table

def alloc (t : Table) : Option (ℕ × Table) :=
  match (List.range maxFileNum).find? fun i => (t i).ref = 0 with
  | none => none
  | some i => some (i, Function.update t i { t i with ref := 1 })

/-- `none` is the panic. The first part of the result is the copy `f` of the slot, when
its object is to be released. -/
def free (t : Table) (i : ℕ) : Option (Option File × Table) :=
  if (t i).ref < 1 then none
  else if 0 < (t i).ref-1 then some (none, Function.update t i { t i with ref := (t i).ref-1 })
  else
    let f : File := { t i with ref := (t i).ref-1 }
    some (some f, Function.update t i { f with type := .none })

def dupFile (t : Table) (i : ℕ) : Option Table :=
  if (t i).ref < 1 then none else some (Function.update t i { t i with ref := (t i).ref+1 })

end Table

/-! ## Processes and pipes -/

/-- `exiting k`: in `close_all_files`, with the descriptors before `k` done. -/
inductive Phase
  | running
  | exiting (done : ℕ)
  | zombie
deriving DecidableEq, Repr

structure Process where
  files : ℕ → Option ℕ
  phase : Phase

namespace Process

def allocFd (p : Process) (file : ℕ) : Option (ℕ × Process) :=
  match (List.range maxOpenFile).find? fun i => p.files i = none with
  | none => none
  | some fd => some (fd, { p with files := Function.update p.files fd (some file) })

def getFile (p : Process) (fd : ℤ) : Option ℕ :=
  if fd < 0 ∨ fd ≥ maxOpenFile then none else p.files fd.toNat

def freeFd (p : Process) (fd : ℤ) : Process :=
  if 0 ≤ fd ∧ fd < maxOpenFile then { p with files := Function.update p.files fd.toNat none } else p

end Process

/-- The ends of a `pipe_t` and whether it has its buffer; how often the object has gone
back to the cache, and its buffer to `kfree`. -/
structure PipeObject where
  readable : Bool
  writable : Bool
  buffer : Bool
  returned : ℕ
  kfreed : ℕ

namespace PipeObject

def init : PipeObject := ⟨true, true, true, 0, 0⟩

def destroy (p : PipeObject) : PipeObject :=
  if p.buffer then { p with buffer := false, kfreed := p.kfreed+1 } else p

def close (p : PipeObject) (writeEnd : Bool) : PipeObject :=
  let p := if writeEnd then { p with writable := false } else { p with readable := false }
  if !p.readable && !p.writable then p.destroy else p

/-- `pipe_cache()->free`. -/
def giveBack (p : PipeObject) : PipeObject := { p with returned := p.returned+1 }

end PipeObject

structure System where
  table : Table
  procs : ℕ → Process
  count : ℕ
  pipes : ℕ → PipeObject
  pipeCount : ℕ

namespace System

/-- What `free` does with the object of the slot. -/
def releaseObject (s : System) (f : File) : System :=
  match f.type, f.pipe with
  | .pipe, some p => { s with pipes := Function.update s.pipes p ((s.pipes p).close f.writeable).giveBack }
  | _, _ => s

/-- `close_file`. The first part of the result tells whether an object was released. -/
def closeFile (s : System) (i : ℕ) : Option (Bool × System) :=
  match s.table.free i with
  | none => none
  | some (none, t) => some (false, { s with table := t })
  | some (some f, t) => some (f.type ≠ .none, { s with table := t }.releaseObject f)

def setProc (s : System) (p : ℕ) (x : Process) : System :=
  { s with procs := Function.update s.procs p x }

/-- The state after a step, with the slots that were initialised in it and the slots
whose object was released. -/
structure Result where
  opened : List ℕ
  released : List ℕ
  state : System

def close (s : System) (i : ℕ) : Option Result :=
  (s.closeFile i).map fun r => ⟨[], if r.1 then [i] else [], r.2⟩

/-- `do_open` after the lookup, which found `inode`; `refused` is the check that a
directory is opened for reading only. -/
def doOpen (s : System) (p inode : ℕ) (refused readable writeable : Bool) : Option Result :=
  if refused then some ⟨[], [], s⟩
  else match s.table.alloc with
    | none => some ⟨[], [], s⟩
    | some (i, t) => match (s.procs p).allocFd i with
      | none => { s with table := t }.close i
      | some (_, x) => some ⟨[i], [], { s with
          table := Function.update t i (File.init .inode (some inode) none readable writeable)
          procs := Function.update s.procs p x }⟩

/-- The two slots and the pipe. -/
structure Ends where
  fileRead : ℕ
  fileWrite : ℕ
  state : System

/-- `alloc_pipe`; the second case is the result -1. -/
def allocPipe (s : System) : Option (Ends ⊕ Result) :=
  match s.table.alloc with
  | none => some (.inr ⟨[], [], s⟩)
  | some (i, t) => match Table.alloc t with
    | none => ({ s with table := t }.close i).map .inr
    | some (j, t) =>
      let t := Function.update t i (File.init .pipe none (some s.pipeCount) true false)
      let t := Function.update t j (File.init .pipe none (some s.pipeCount) false true)
      some (.inl ⟨i, j, { s with
        table := t
        pipes := Function.update s.pipes s.pipeCount .init
        pipeCount := s.pipeCount+1 }⟩)

/-- The label `failed` of `do_pipe`. -/
def failed (e : Ends) : Option Result :=
  match e.state.closeFile e.fileRead with
  | none => none
  | some (first, s) => match s.closeFile e.fileWrite with
    | none => none
    | some (second, s) => some ⟨[e.fileRead, e.fileWrite],
        (if first then [e.fileRead] else []) ++ (if second then [e.fileWrite] else []), s⟩

def doPipe (s : System) (p : ℕ) : Option Result :=
  match s.allocPipe with
  | none => none
  | some (.inr r) => some r
  | some (.inl e) => match (e.state.procs p).allocFd e.fileRead with
    | none => failed e
    | some (fd, x) => match x.allocFd e.fileWrite with
      | none => failed { e with state := e.state.setProc p (x.freeFd fd) }
      | some (_, x) => some ⟨[e.fileRead, e.fileWrite], [], e.state.setProc p x⟩

def doDup (s : System) (p : ℕ) (fd : ℤ) : Option Result :=
  match (s.procs p).getFile fd with
  | none => some ⟨[], [], s⟩
  | some file => match (s.procs p).allocFd file with
    | none => some ⟨[], [], s⟩
    | some (_, x) => (s.table.dupFile file).map fun t => ⟨[], [], { s.setProc p x with table := t }⟩

def doClose (s : System) (p : ℕ) (fd : ℤ) : Option Result :=
  match (s.procs p).getFile fd with
  | none => some ⟨[], [], s⟩
  | some file => (s.setProc p ((s.procs p).freeFd fd)).close file

/-- The loop of `copy_files` over the first `k` descriptors. -/
def copyFiles (files : ℕ → Option ℕ) : ℕ → Table → Option ((ℕ → Option ℕ) × Table)
  | 0, t => some (fun _ => none, t)
  | k+1, t =>
    match copyFiles files k t with
    | none => none
    | some (copied, t) => match files k with
      | none => some (copied, t)
      | some file =>
        if (t file).type = .none then some (copied, t)
        else (t.dupFile file).map fun t => (Function.update copied k (some file), t)

def fork (s : System) (p : ℕ) : Option Result :=
  (copyFiles (s.procs p).files maxOpenFile s.table).map fun r => ⟨[], [], { s with
    table := r.2
    procs := Function.update s.procs s.count ⟨r.1, .running⟩
    count := s.count+1 }⟩

/-- One round of `close_all_files`; the descriptors are left as they are. -/
def exitClose (s : System) (p k : ℕ) : Option Result :=
  let s' := s.setProc p { s.procs p with phase := .exiting (k+1) }
  match (s.procs p).files k with
  | none => some ⟨[], [], s'⟩
  | some file => if (s.table file).type = .none then some ⟨[], [], s'⟩ else s'.close file

end System

/-! ## Steps -/

inductive Event
  | doOpen (p inode : ℕ) (refused readable writeable : Bool)
  | doPipe (p : ℕ)
  | doDup (p : ℕ) (fd : ℤ)
  | doClose (p : ℕ) (fd : ℤ)
  | doRead (p : ℕ) (fd : ℤ)
  | doWrite (p : ℕ) (fd : ℤ)
  | fork (p : ℕ)
  | exit (p : ℕ)
  | exitClose (p k : ℕ)
  | exited (p : ℕ)
deriving DecidableEq

/-- The process that makes a call is running; `none` is the panic. A read or a write
moves bytes through the object of a slot; it changes no slot and no end of a pipe. -/
def perform (s : System) : Event → Option System.Result
  | .doOpen p inode refused readable writeable => s.doOpen p inode refused readable writeable
  | .doPipe p => s.doPipe p
  | .doDup p fd => s.doDup p fd
  | .doClose p fd => s.doClose p fd
  | .doRead _ _ | .doWrite _ _ => some ⟨[], [], s⟩
  | .fork p => s.fork p
  | .exit p => some ⟨[], [], s.setProc p { s.procs p with phase := .exiting 0 }⟩
  | .exitClose p k => s.exitClose p k
  | .exited p => some ⟨[], [], s.setProc p { s.procs p with phase := .zombie }⟩

/-- Who takes a step, and in which phase. -/
def Enabled (s : System) : Event → Prop
  | .doOpen p _ _ _ _ | .doPipe p | .doDup p _ | .doClose p _ | .doRead p _ | .doWrite p _
  | .fork p | .exit p =>
    p < s.count ∧ (s.procs p).phase = .running
  | .exitClose p k => p < s.count ∧ (s.procs p).phase = .exiting k ∧ k < maxOpenFile
  | .exited p => p < s.count ∧ (s.procs p).phase = .exiting maxOpenFile

/-- How often each slot was initialised, and how often its object was released. -/
structure History where
  opened : ℕ → ℕ
  released : ℕ → ℕ

def History.next (g : History) (r : System.Result) : History :=
  ⟨fun i => g.opened i+r.opened.count i, fun i => g.released i+r.released.count i⟩

/-- After `init`: an empty table, and processes without files. -/
structure Start (s : System) : Prop where
  table : ∀ i, (s.table i).ref = 0 ∧ (s.table i).type = .none
  files : ∀ p fd, (s.procs p).files fd = none
  phase : ∀ p < s.count, (s.procs p).phase = .running
  pipes : s.pipeCount = 0

inductive Run (allowed : System → Event → Prop) : System → History → Prop
  | start {s : System} : Start s → Run allowed s ⟨fun _ => 0, fun _ => 0⟩
  | step {s : System} {g : History} {e : Event} {r : System.Result} : Run allowed s g → Enabled s e →
      allowed s e → perform s e = some r → Run allowed r.state (g.next r)

end BabyOS.FileTable

import BabyOS.AreaMachine

/-!
# The memory areas as linked objects

`vm_area_t` objects in the memory of the slab cache, linked by `m_next`, and the
code of `vmm_t` with its pointers. An object is named by a number; `live` are the
objects handed out by the cache, `freed` the ones given back, in order. A new object
holds whatever it held before. `stack` is not a field of the source: it marks the
area of `init_user_stack` and what `do_munmap` cuts off from it.
-/

set_option autoImplicit false

namespace BabyOS.AreaNodes
open BabyOS.BuddyMachine BabyOS.AreaMachine

structure Node where
  area : Vma
  next : Option ℕ
  stack : Bool

structure Space where
  mmap : Option ℕ
  node : ℕ → Node
  live : List ℕ
  freed : List ℕ

namespace Space

def area (s : Space) (x : ℕ) : Vma := (s.node x).area

def next (s : Space) (x : ℕ) : Option ℕ := (s.node x).next

def setArea (s : Space) (x : ℕ) (v : Vma) : Space :=
  { s with node := Function.update s.node x { s.node x with area := v } }

def setNext (s : Space) (x : ℕ) (y : Option ℕ) : Space :=
  { s with node := Function.update s.node x { s.node x with next := y } }

def setStack (s : Space) (x : ℕ) (b : Bool) : Space :=
  { s with node := Function.update s.node x { s.node x with stack := b } }

/-- The pointer to the node behind `prev`, or to the first one. -/
def setLink (s : Space) (prev : Option ℕ) (y : Option ℕ) : Space :=
  match prev with
  | some q => s.setNext q y
  | none => { s with mmap := y }

/-- `vma_cache()->alloc()` returns `x`. -/
def alloc (s : Space) (x : ℕ) : Space := { s with live := x :: s.live }

/-- `vma_cache()->free(x)`. -/
def free (s : Space) (x : ℕ) : Space := { s with live := s.live.erase x, freed := s.freed++[x] }

/-- A walk along `m_next` to the first area with `stop`, with the node before it. A
list is no longer than the number of objects handed out. -/
def scan (s : Space) (stop : Vma → Bool) : ℕ → Option ℕ → Option ℕ → Option ℕ × Option ℕ
  | 0, prev, _ => (prev, none)
  | _+1, prev, none => (prev, none)
  | n+1, prev, some p => if stop (s.area p) then (prev, some p) else scan s stop n (some p) (s.next p)

/-- `find_vma`, with `prev`. -/
def findVma (s : Space) (addr : ℕ) : Option ℕ × Option ℕ :=
  s.scan (fun v => addr < v.mEnd) (s.live.length+1) none s.mmap

/-- `vma` goes into `prev`; the area to go on with. -/
def mergePrev (s : Space) (prev : Option ℕ) (vma : ℕ) (p : Option ℕ) : Space × ℕ :=
  match prev with
  | some q =>
    if (s.area q).mEnd = (s.area vma).mStart ∧ Alike (s.area q) (s.area vma) then
      (((s.setArea q { s.area q with mEnd := (s.area vma).mEnd }).setNext q p).free vma, q)
    else (s, vma)
  | none => (s, vma)

/-- `p` goes into `vma`. -/
def mergeP (s : Space) (vma : ℕ) (p : Option ℕ) : Space :=
  match p with
  | some q =>
    if (s.area vma).mEnd = (s.area q).mStart ∧ Alike (s.area vma) (s.area q) then
      ((s.setArea vma { s.area vma with mEnd := (s.area q).mEnd }).setNext vma (s.next q)).free q
    else s
  | none => s

/-- `insert_vma`; `true` is the result 0. -/
def insertVma (s : Space) (vma : ℕ) : Bool × Space :=
  let found := s.scan (fun v => v.mStart ≥ (s.area vma).mEnd) (s.live.length+1) none s.mmap
  let prev := found.1
  let p := found.2
  if ∃ q, prev = some q ∧ (s.area q).mEnd > (s.area vma).mStart then (false, s)
  else
    let s := (s.setNext vma p).setLink prev (some vma)
    let merged := s.mergePrev prev vma p
    (true, merged.1.mergeP merged.2 p)

/-- The loop of `get_unmapped_area`. -/
def unmappedFrom (s : Space) (len : ℕ) : ℕ → ℕ → Option ℕ → ℕ
  | 0, addr, _ => addr
  | _+1, addr, none => addr
  | n+1, addr, some p =>
    if userVmSize-len < addr then 0
    else if (addr+len) % 2 ^ 64 ≤ (s.area p).mStart then addr
    else unmappedFrom s len n (s.area p).mEnd (s.next p)

def getUnmappedArea (s : Space) (len : ℕ) : ℕ :=
  s.unmappedFrom len (s.live.length+1) vmUnmappedBase (s.findVma vmUnmappedBase).2

/-- The value -1 as a `uint64`. -/
def minusOne : ℕ := 2 ^ 64-1

/-- The end of `do_mmap`: a new area with every field set. -/
def mmapAt (s : Space) (addr len prot fresh : ℕ) : ℕ × Space :=
  let s := (s.alloc fresh).setArea fresh
    ⟨addr, (addr+len) % 2 ^ 64, prot, prot &&& (vmRead ||| vmWrite ||| vmExec)⟩
  let s := (s.setNext fresh none).setStack fresh false
  let r := s.insertVma fresh
  if r.1 then (addr, r.2) else (minusOne, r.2)

/-- `do_mmap`; `fresh` is the object the cache hands out. -/
def doMmap (s : Space) (addr len prot flags fresh : ℕ) : ℕ × Space :=
  let len := pageAlign len
  if len = 0 then (addr, s)
  else if ¬ MmapRange addr len then (minusOne, s)
  else if flags &&& mapFixed ≠ 0 then
    if addr % pageSize ≠ 0 then (minusOne, s)
    else match (s.findVma addr).2 with
      | none => s.mmapAt addr len prot fresh
      | some p => if addr+len > (s.area p).mStart then (minusOne, s) else s.mmapAt addr len prot fresh
  else
    let found := s.getUnmappedArea len
    if found = 0 then (minusOne, s) else s.mmapAt found len prot fresh

def removeVma (s : Space) (vma : ℕ) (prev : Option ℕ) : Space := (s.setLink prev (s.next vma)).free vma

/-- The bounds of the two parts of `vma`; the new object is not linked yet. -/
def cutVma (s : Space) (vma addr len fresh : ℕ) : Space :=
  let s := s.alloc fresh
  let s := s.setArea fresh { s.area fresh with mStart := addr+len, mEnd := (s.area vma).mEnd }
  let s := s.setStack fresh (s.node vma).stack
  s.setArea vma { s.area vma with mEnd := addr }

/-- The part of `do_munmap` that splits `vma`. -/
def splitVma (s : Space) (vma : ℕ) (prev : Option ℕ) (addr len fresh : ℕ) : Space :=
  let s := s.cutVma vma addr len fresh
  let s := s.setNext fresh (s.next vma)
  let s := s.setNext vma (some fresh)
  let first := (s.area vma).mStart = (s.area vma).mEnd
  let s' := if first then s.removeVma vma prev else s
  let vma' := if first then prev else some vma
  if (s'.area fresh).mStart = (s'.area fresh).mEnd then s'.removeVma fresh vma' else s'

/-- `do_munmap`, the part that edits the list; `false` is the result -1. -/
def doMunmap (s : Space) (addr len fresh : ℕ) : Bool × Space :=
  if addr % pageSize ≠ 0 ∨ addr > userVmSize ∨ len > userVmSize-addr then (false, s)
  else
    let len := pageAlign len
    if len = 0 then (true, s)
    else match s.findVma addr with
      | (_, none) => (true, s)
      | (prev, some vma) =>
        if addr < (s.area vma).mStart ∨ addr+len > (s.area vma).mEnd then (true, s)
        else (true, s.splitVma vma prev addr len fresh)

/-- The part of `do_brk` that makes a new area. -/
def newBrkArea (s : Space) (addr len fresh : ℕ) : Space :=
  let s := s.alloc fresh
  let s := s.setArea fresh { s.area fresh with
    mStart := addr, mEnd := addr+len, mPageProt := vmRead ||| vmWrite ||| vmExec }
  ((s.setStack fresh false).insertVma fresh).2

/-- The part of `do_brk` after the call of `do_munmap`. -/
def extendBrk (s : Space) (addr len fresh : ℕ) : Space :=
  if addr ≠ 0 then
    match (s.findVma (addr-1)).2 with
    | some p =>
      if (s.area p).mEnd = addr then s.setArea p { s.area p with mEnd := addr+len }
      else s.newBrkArea addr len fresh
    | none => s.newBrkArea addr len fresh
  else s.newBrkArea addr len fresh

/-- `do_brk`; `none` is a result other than `addr`. -/
def doBrk (s : Space) (addr len fresh fresh' : ℕ) : Option ℕ × Space :=
  let len := pageAlign len
  if len = 0 then (some addr, s)
  else
    let r := s.doMunmap addr len fresh
    if r.1 then (some addr, r.2.extendBrk addr len fresh') else (none, r.2)

/-- `init_user_stack`, the part that makes the area. -/
def initUserStack (s : Space) (fresh : ℕ) : Bool × Space :=
  let s := (s.alloc fresh).setArea fresh userStack
  ((s.setNext fresh none).setStack fresh true).insertVma fresh

def expandStack (s : Space) (vma addr : ℕ) : Space :=
  s.setArea vma { s.area vma with mStart := pageDown addr }

/-- `do_page_fault` up to the label `good_area`; `none` is the way to `sig_segv`. -/
def pageFault (s : Space) (addr err rsp : ℕ) : Option Space :=
  match (s.findVma addr).2 with
  | none => none
  | some vma =>
    if (s.area vma).mStart > addr then
      if err &&& 4 ≠ 0 ∧ (s.area vma).mFlags &&& vmStack ≠ 0 ∧ (addr+64) % 2 ^ 64 ≥ rsp then
        some (s.expandStack vma addr)
      else none
    else some s

end Space

/-- The part of `vmm_t` that the areas and the heap need. -/
structure Mm where
  space : Space
  startBrk : ℕ
  brk : ℕ

/-- The end of `sys_brk`: `m_brk` is set when the call it makes succeeded. -/
def setBrk (m : Mm) (ok : Bool) (s : Space) (brk : ℕ) : Mm :=
  ⟨s, m.startBrk, if ok then brk else m.brk⟩

/-- `sys_brk`. -/
def sysBrk (m : Mm) (brk fresh fresh' : ℕ) : Mm :=
  let newbrk := pageAlign brk
  let oldbrk := pageAlign m.brk
  if brk < m.startBrk then m
  else if brk < m.brk then
    let r := m.space.doMunmap newbrk ((oldbrk+2 ^ 64-newbrk) % 2 ^ 64) fresh
    setBrk m r.1 r.2 brk
  else
    let r := m.space.doBrk oldbrk ((newbrk+2 ^ 64-oldbrk) % 2 ^ 64) fresh fresh'
    setBrk m (r.1 = some oldbrk) r.2 brk

end BabyOS.AreaNodes

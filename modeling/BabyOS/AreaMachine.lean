import BabyOS.BuddyMachine

/-!
# The memory areas of a process

The list `m_mmap` of `vmm_t` and the operations that edit it. A pointer into the
list is a cut of the list. The slab cache hands out objects with old contents;
an operation that does not set every field takes the object as an argument. The
slab cache panics rather than return no object, so the branches on a null object
are never taken.
-/

set_option autoImplicit false

namespace BabyOS.AreaMachine
open BabyOS.BuddyMachine

def userVmSize : ℕ := 0x0000800000000000
def vmUnmappedBase : ℕ := userVmSize / 2
def mapFixed : ℕ := 0x10
def vmRead : ℕ := 1
def vmWrite : ℕ := 2
def vmExec : ℕ := 4
def vmStack : ℕ := 0x0177

/-- `PAGE_ALIGN` in 64 bits. -/
def pageAlign (x : ℕ) : ℕ := (x+(pageSize-1)) % 2 ^ 64 / pageSize*pageSize

/-- `addr & PAGE_MASK`. -/
def pageDown (x : ℕ) : ℕ := x / pageSize*pageSize

structure Vma where
  mStart : ℕ
  mEnd : ℕ
  mPageProt : ℕ
  mFlags : ℕ
deriving DecidableEq, Repr

abbrev Areas := List Vma

/-- `find_vma`: what is before the first area with `addr < m_end`, and the rest
of the list from this area on. -/
def findVma (l : Areas) (addr : ℕ) : Areas × Areas :=
  (l.takeWhile (fun p => ¬ addr < p.mEnd), l.dropWhile (fun p => ¬ addr < p.mEnd))

/-- The two areas may become one. -/
def Alike (u v : Vma) : Prop := u.mPageProt = v.mPageProt ∧ u.mFlags = v.mFlags

instance (u v : Vma) : Decidable (Alike u v) := inferInstanceAs (Decidable (_ ∧ _))

/-- `vma` before `p`, merged with it where they meet. -/
def mergeNext (vma : Vma) : Areas → Areas
  | [] => [vma]
  | p :: rest =>
    if vma.mEnd = p.mStart ∧ Alike vma p then { vma with mEnd := p.mEnd } :: rest
    else vma :: p :: rest

/-- `none` is the result -1, which leaves the list alone. -/
def insertVma (l : Areas) (vma : Vma) : Option Areas :=
  let before := l.takeWhile (fun p => p.mStart < vma.mEnd)
  let after := l.dropWhile (fun p => p.mStart < vma.mEnd)
  match before.getLast? with
  | none => some (mergeNext vma after)
  | some prev =>
    if prev.mEnd > vma.mStart then none
    else if prev.mEnd = vma.mStart ∧ Alike prev vma then
      some (before.dropLast++mergeNext { prev with mEnd := vma.mEnd } after)
    else some (before++mergeNext vma after)

/-- The loop of `get_unmapped_area` over the areas that are left. -/
def unmappedFrom (len : ℕ) : ℕ → Areas → ℕ
  | addr, [] => addr
  | addr, vma :: rest =>
    if userVmSize-len < addr then 0
    else if (addr+len) % 2 ^ 64 ≤ vma.mStart then addr
    else unmappedFrom len vma.mEnd rest

def getUnmappedArea (l : Areas) (len : ℕ) : ℕ :=
  unmappedFrom len vmUnmappedBase (findVma l vmUnmappedBase).2

/-- The range checks of `do_mmap`. -/
def MmapRange (addr len : ℕ) : Prop :=
  ¬ (len > userVmSize ∨ addr > userVmSize ∨ addr > userVmSize-len)

instance (addr len : ℕ) : Decidable (MmapRange addr len) := inferInstanceAs (Decidable (¬ _))

/-- The new area, and the list with it. -/
def mmapAt (l : Areas) (addr len prot : ℕ) : Option ℕ × Areas :=
  match insertVma l ⟨addr, addr+len, prot, prot &&& (vmRead ||| vmWrite ||| vmExec)⟩ with
  | none => (none, l)
  | some l' => (some addr, l')

/-- `do_mmap`; `none` is the result -1. -/
def doMmap (l : Areas) (addr len prot flags : ℕ) : Option ℕ × Areas :=
  let len := pageAlign len
  if len = 0 then (some addr, l)
  else if ¬ MmapRange addr len then (none, l)
  else if flags &&& mapFixed ≠ 0 then
    if addr % pageSize ≠ 0 then (none, l)
    else match (findVma l addr).2 with
      | [] => mmapAt l addr len prot
      | p :: _ => if addr+len > p.mStart then (none, l) else mmapAt l addr len prot
  else
    let found := getUnmappedArea l len
    if found = 0 then (none, l) else mmapAt l found len prot

/-- The first area without `[addr, addr+len)`; `obj` is the new object. -/
def splitVma (vma obj : Vma) (addr len : ℕ) : Areas :=
  (if vma.mStart = addr then [] else [{ vma with mEnd := addr }]) ++
  (if addr+len = vma.mEnd then [] else [{ obj with mStart := addr+len, mEnd := vma.mEnd }])

/-- `do_munmap`, the part that edits the list; `false` is the result -1. -/
def doMunmap (l : Areas) (addr len : ℕ) (obj : Vma) : Bool × Areas :=
  if addr % pageSize ≠ 0 ∨ addr > userVmSize ∨ len > userVmSize-addr then (false, l)
  else
    let len := pageAlign len
    if len = 0 then (true, l)
    else match findVma l addr with
      | (_, []) => (true, l)
      | (before, vma :: after) =>
        if addr < vma.mStart ∨ addr+len > vma.mEnd then (true, l)
        else (true, before++splitVma vma obj addr len++after)

/-- The part of `do_brk` after the call of `do_munmap`. -/
def extendBrk (l : Areas) (addr len : ℕ) (obj : Vma) : Areas :=
  let vma : Vma := { obj with mStart := addr, mEnd := addr+len, mPageProt := vmRead ||| vmWrite ||| vmExec }
  if addr ≠ 0 then
    match findVma l (addr-1) with
    | (before, p :: after) =>
      if p.mEnd = addr then before++{ p with mEnd := addr+len } :: after
      else (insertVma l vma).getD l
    | (_, []) => (insertVma l vma).getD l
  else (insertVma l vma).getD l

/-- `do_brk`; `none` is a result other than `addr`. The result of `insert_vma`
is not looked at. -/
def doBrk (l : Areas) (addr len : ℕ) (obj obj' : Vma) : Option ℕ × Areas :=
  let len := pageAlign len
  if len = 0 then (some addr, l)
  else match doMunmap l addr len obj with
    | (false, l') => (none, l')
    | (true, l') => (some addr, extendBrk l' addr len obj')

structure Vmm where
  mmap : Areas
  startBrk : ℕ
  brk : ℕ
deriving DecidableEq, Repr

/-- `sys_brk`; `true` when `m_brk` is set. The call returns `m_brk`. -/
def sysBrk (v : Vmm) (brk : ℕ) (obj obj' : Vma) : Bool × Vmm :=
  let newbrk := pageAlign brk
  let oldbrk := pageAlign v.brk
  if brk < v.startBrk then (false, v)
  else if brk < v.brk then
    match doMunmap v.mmap newbrk ((oldbrk+2 ^ 64-newbrk) % 2 ^ 64) obj with
    | (false, l) => (false, { v with mmap := l })
    | (true, l) => (true, { v with mmap := l, brk := brk })
  else
    match doBrk v.mmap oldbrk ((newbrk+2 ^ 64-oldbrk) % 2 ^ 64) obj obj' with
    | (none, l) => (false, { v with mmap := l })
    | (some _, l) => (true, { v with mmap := l, brk := brk })

def sbrk (v : Vmm) (increment : ℕ) (obj obj' : Vma) : Bool × Vmm :=
  sysBrk v ((v.brk+increment) % 2 ^ 64) obj obj'

def expandStack (vma : Vma) (addr : ℕ) : Vma := { vma with mStart := pageDown addr }

/-- `do_protection_fault` as far as its result goes; `mapped` says whether
`va_to_pa` finds a page. -/
def protectionFault (vma : Vma) (write mapped : Bool) : Bool :=
  mapped && !(write && vma.mFlags &&& vmWrite == 0)

/-- `do_page_fault`; `none` is the way to `sig_segv`, which ends the process. -/
def pageFault (l : Areas) (addr err rsp : ℕ) (mapped : Bool) : Option (Bool × Areas) :=
  match findVma l addr with
  | (_, []) => none
  | (before, vma :: after) =>
    let goodArea := fun (area : Vma) (l' : Areas) =>
      if err &&& 1 ≠ 0 then some (protectionFault area (err &&& 2 != 0) mapped, l')
      else some (true, l')
    if vma.mStart > addr then
      if err &&& 4 ≠ 0 ∧ vma.mFlags &&& vmStack ≠ 0 ∧ (addr+64) % 2 ^ 64 ≥ rsp then
        goodArea (expandStack vma addr) (before++expandStack vma addr :: after)
      else none
    else goodArea vma l

/-- `copy_vma`. -/
def copyVma : Areas → Areas
  | [] => []
  | p :: rest => ⟨p.mStart, p.mEnd, p.mPageProt, p.mFlags⟩ :: copyVma rest

/-! ## `exec` -/

structure Segment where
  vaddr : ℕ
  memsz : ℕ

/-- The area of one segment of the file; `none` ends the process. -/
def loadElfSegment (l : Areas) (ph : Segment) : Option Areas :=
  match doMmap l (pageDown ph.vaddr) (pageAlign (ph.memsz+ph.vaddr % pageSize)) 7 mapFixed with
  | (none, _) => none
  | (some ret, l') => if ret < 2 ^ 63 then some l' else none

def loadElf : List Segment → Areas → Option Areas
  | [], l => some l
  | ph :: rest, l =>
    match loadElfSegment l ph with
    | none => none
    | some l' => loadElf rest l'

def userStack : Vma := ⟨userVmSize-pageSize, userVmSize, 3, vmStack⟩

/-- The list that `exec` builds from an empty one. -/
def execAreas (segments : List Segment) : Option Areas :=
  (loadElf segments []).map fun l => (insertVma l userStack).getD l

/-! ## Runs -/

inductive Op
  | mmap (addr len prot flags : ℕ)
  | munmap (addr len : ℕ) (obj : Vma)
  | brk (value : ℕ) (obj obj' : Vma)
  | sbrk (increment : ℕ) (obj obj' : Vma)
  | fault (addr err rsp : ℕ) (mapped : Bool)

/-- One operation: whether it succeeds, and the process after it. -/
def perform (v : Vmm) : Op → Option (Bool × Vmm)
  | .mmap addr len prot flags =>
    let r := doMmap v.mmap addr len prot flags
    some (r.1.isSome, { v with mmap := r.2 })
  | .munmap addr len obj =>
    let r := doMunmap v.mmap addr len obj
    some (r.1, { v with mmap := r.2 })
  | .brk value obj obj' => some (sysBrk v value obj obj')
  | .sbrk increment obj obj' => some (sbrk v increment obj obj')
  | .fault addr err rsp mapped =>
    (pageFault v.mmap addr err rsp mapped).map fun r => (r.1, { v with mmap := r.2 })

end BabyOS.AreaMachine

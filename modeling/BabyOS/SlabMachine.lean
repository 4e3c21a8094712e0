import BabyOS.BuddyMachine
import BabyOS.ListFamilies

/-!
# The slab caches

`kmem_cache_t` and the page tags of `mm_t`. A cache takes blocks of pages as slabs; a slab
has its header and its free table in front, then the objects. Pointers are given by the
physical addresses they stand for, as `P2V` adds a constant.
-/

set_option autoImplicit false

namespace BabyOS.SlabMachine
open BabyOS.BuddyMachine BabyOS.LinkedLists BabyOS.ListFamilies

/-- `slab_t::END`. -/
def endMark : ℕ := 2 ^ 32-1

/-- `sizeof(slab_t)`. -/
def slabSize : ℕ := 40

/-- `L1_CACHE_ALIGN`. -/
def cacheAlign (x : ℕ) : ℕ := (x+63) / 64*64

def maxGfpOrder : ℕ := 5

/-- `slab_t`, and the free table behind it. -/
structure Slab where
  colorOff : ℕ
  mem : ℕ
  inUse : ℕ
  firstFree : ℕ
  freeTable : ℕ → ℕ

structure Cache where
  objsize : ℕ
  numPerSlab : ℕ
  gfpOrder : ℕ
deriving DecidableEq

/-- `m_slabs_partial`, `m_slabs_full` and `m_slabs_free`. -/
inductive SlabList
  | partials
  | full
  | free
deriving DecidableEq

/-- The page tags, the caches with their lists, and the slabs. A tag may be a null pointer. -/
structure System where
  buddy : Buddy
  pageSlab : ℕ → Option ℕ
  pageCache : ℕ → Option ℕ
  nodes : Nodes ℕ
  heads : ℕ × SlabList → Head ℕ
  slabs : ℕ → Slab
  caches : ℕ → Cache
  sizes : List (ℕ × ℕ)

/-! ## Creation -/

/-- The arguments of `create`. -/
structure Request where
  size : ℕ
  align : ℕ
  maxOrder : ℕ

/-- The test of the loop in `estimate`, in 32 bits. -/
def fits (objsize total i : ℕ) : Bool := (i*objsize+cacheAlign (slabSize+i*4)) % 2 ^ 32 ≤ total

def countFrom (objsize total : ℕ) : ℕ → ℕ → ℕ
  | 0, i => i
  | left+1, i => if fits objsize total i then countFrom objsize total left (i+1) else i

/-- The number of objects in a slab of that order, and the bytes that are left over. -/
def estimate (objsize order : ℕ) : ℕ × ℕ :=
  let total := pageSize <<< order % 2 ^ 32
  let num := countFrom objsize total (total+1) 0-1
  (num, (total+(2 ^ 32-(num*objsize+cacheAlign (slabSize+num*4)) % 2 ^ 32)) % 2 ^ 32)

/-- The loop of `create`, from that order on. -/
def chooseOrder (objsize maxOrder : ℕ) : ℕ → ℕ → Option Cache
  | 0, _ => none
  | left+1, order =>
    let r := estimate objsize order
    if r.1 = 0 then chooseOrder objsize maxOrder left (order+1)
    else if maxGfpOrder ≤ order ∨ maxOrder ≤ order ∨ r.2*8 % 2 ^ 32 ≤ pageSize <<< order then
      some ⟨objsize, r.1, order⟩
    else chooseOrder objsize maxOrder left (order+1)

/-- From order 20 on, a block has no size in 32 bits. -/
def create (r : Request) : Option Cache :=
  chooseOrder ((r.size+r.align) % 2 ^ 32 &&& (2 ^ 32-r.align)) r.maxOrder 20 0

/-! ## Lists -/

namespace System

def setList (s : System) (k : ℕ × SlabList) (r : Nodes ℕ × Head ℕ) : System :=
  { s with nodes := r.1, heads := Function.update s.heads k r.2 }

def addHead (s : System) (k : ℕ × SlabList) (x : ℕ) : System :=
  s.setList k (ListFamilies.addHead s.nodes (s.heads k) x)

def addTail (s : System) (k : ℕ × SlabList) (x : ℕ) : System :=
  s.setList k (LinkedLists.addTail s.nodes (s.heads k) x)

def remove (s : System) (k : ℕ × SlabList) (x : ℕ) : System :=
  s.setList k (LinkedLists.remove s.nodes (s.heads k) x)

def setSlab (s : System) (x : ℕ) (slab : Slab) : System := { s with slabs := Function.update s.slabs x slab }

/-! ## Page tags -/

def setPageCache (s : System) (pa c : ℕ) : System :=
  { s with pageCache := Function.update s.pageCache (mapNr pa) (some c) }

def setPageSlab (s : System) (pa slab : ℕ) : System :=
  { s with pageSlab := Function.update s.pageSlab (mapNr pa) (some slab) }

def getPageCache (s : System) (pa : ℕ) : Option ℕ := s.pageCache (mapNr pa)

def getPageSlab (s : System) (pa : ℕ) : Option ℕ := s.pageSlab (mapNr pa)

/-- The loop of `grow` over the pages; `pa` stays the same. -/
def tagPages (pa c slab : ℕ) : ℕ → System → System
  | 0, s => s
  | n+1, s => tagPages pa c slab n ((s.setPageCache pa c).setPageSlab pa slab)

/-! ## Slabs -/

def numberEntries (table : ℕ → ℕ) : ℕ → ℕ → ℕ
  | 0 => table
  | n+1 => Function.update (numberEntries table n) n (n+1)

/-- `init_objs`. -/
def initObjs (num : ℕ) (table : ℕ → ℕ) : ℕ → ℕ :=
  Function.update (numberEntries table num) (num-1) endMark

/-- `none` is a panic: there is no block of pages. -/
def grow (c : ℕ) (s : System) : Option System :=
  match s.buddy.allocPages (s.caches c).gfpOrder with
  | none => none
  | some (pa, b) =>
    let s := tagPages pa c pa (2 ^ (s.caches c).gfpOrder) { s with buddy := b }
    let colorOff := cacheAlign ((s.caches c).numPerSlab*4+slabSize)
    some ((s.setSlab pa ⟨colorOff, pa+colorOff, 0, 0,
      initObjs (s.caches c).numPerSlab (s.slabs pa).freeTable⟩).addTail (c, .free) pa)

/-- `none` is a null pointer that is used. -/
def getSlab (c : ℕ) (s : System) : Option (Option ℕ × System) :=
  match (s.heads (c, .partials)).first with
  | some x => some (some x, s)
  | none =>
    if (s.heads (c, .free)).length = 0 then some (none, s)
    else match (s.heads (c, .free)).first with
      | none => none
      | some x => some (some x, (s.remove (c, .free) x).addHead (c, .partials) x)

def slabAlloc (c x : ℕ) (s : System) : ℕ × System :=
  let slab := s.slabs x
  let obj := slab.mem+slab.firstFree*(s.caches c).objsize % 2 ^ 32
  let firstFree := slab.freeTable slab.firstFree
  let s := s.setSlab x { slab with inUse := (slab.inUse+1) % 2 ^ 32, firstFree := firstFree }
  if firstFree = endMark then (obj, (s.remove (c, .partials) x).addHead (c, .full) x)
  else (obj, s)

/-- The slab that `alloc_one` takes the object from. -/
def findSlab (c : ℕ) (s : System) : Option (ℕ × System) :=
  match s.getSlab c with
  | none => none
  | some (slab, s) =>
    match (if slab = none then s.grow c else some s) with
    | none => none
    | some s => match s.getSlab c with
      | some (some x, s) => some (x, s)
      | _ => none

def allocOne (c : ℕ) (s : System) : Option (ℕ × System) :=
  (s.findSlab c).map fun r => slabAlloc c r.1 r.2

/-- A difference of pointers, divided as a signed number and cut to 32 bits. -/
def freeIndex (c x obj : ℕ) (s : System) : ℕ :=
  (((obj : ℤ)-(s.slabs x).mem).tdiv (s.caches c).objsize % 2 ^ 32).toNat

def freeOne (c obj : ℕ) (s : System) : Option System :=
  match s.getPageSlab obj with
  | none => none
  | some x =>
    let index := s.freeIndex c x obj
    let slab := s.slabs x
    let inUse := (slab.inUse+(2 ^ 32-1)) % 2 ^ 32
    let s := s.setSlab x { slab with
      inUse := inUse, firstFree := index, freeTable := Function.update slab.freeTable index slab.firstFree }
    let s := if slab.inUse = (s.caches c).numPerSlab then (s.remove (c, .full) x).addHead (c, .partials) x else s
    some (if inUse = 0 then (s.remove (c, .partials) x).addHead (c, .free) x else s)

/-! ## Objects of any size -/

/-- The first of the caches that is large enough. -/
def sizeCache (size : ℕ) (s : System) : Option ℕ := (s.sizes.find? fun e => size ≤ e.1).map Prod.snd

def kmalloc (size : ℕ) (s : System) : Option (Option ℕ × System) :=
  match s.sizeCache size with
  | none => some (none, s)
  | some c => (s.allocOne c).map fun r => (some r.1, r.2)

def kfree (p : Option ℕ) (s : System) : Option System :=
  match p with
  | none => some s
  | some obj => match s.getPageCache obj with
    | none => none
    | some c => s.freeOne c obj

end System

end BabyOS.SlabMachine

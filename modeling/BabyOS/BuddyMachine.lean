import BabyOS.DyadicBlocks

/-!
# The buddy allocator

`buddy_t` with its page records, its eleven free lists and its bitmaps. A free
list is the list of the physical addresses linked into the ring, from
`head.next` on. All bitmaps lie in one bit-addressed memory, because
`init_bitmap` takes them one after the other from the boot memory and
`change_bit` does not check any bound; `bitmap k` is the first bit of the
bitmap of order `k`.
-/

set_option autoImplicit false

namespace BabyOS.BuddyMachine

def pageShift : ℕ := 12
def pageSize : ℕ := 4096
def maxOrder : ℕ := 10

/-- `PAGE_MASK << order` in 64 bits. -/
def pageMask (order : ℕ) : ℕ := 2 ^ 64 - 2 ^ (pageShift+order)

/-- `MAP_NR`. -/
def mapNr (addr : ℕ) : ℕ := addr >>> pageShift

structure Buddy where
  ref : ℕ → ℤ
  freeList : ℕ → List ℕ
  bitmap : ℕ → ℕ
  bits : ℕ → Bool
  base : ℕ
  freePageNum : ℤ

namespace Buddy

def addToHead (s : Buddy) (k entry : ℕ) : Buddy :=
  { s with freeList := Function.update s.freeList k (entry :: s.freeList k) }

/-- `remove_head` unlinks an entry through the entry's own pointers, from
whichever ring holds it. -/
def removeHead (s : Buddy) (entry : ℕ) : Buddy :=
  { s with freeList := fun k => (s.freeList k).erase entry }

/-- `btc` on the bitmap of order `k`: the bit before, and the flipped bit. -/
def changeBit (s : Buddy) (nr k : ℕ) : Bool × Buddy :=
  (s.bits (s.bitmap k+nr),
    { s with bits := Function.update s.bits (s.bitmap k+nr) (!s.bits (s.bitmap k+nr)) })

/-- The second argument is a `uint32`: the mask is cut to 32 bits and negated
there before it meets the 64-bit offset. -/
def getBuddy (s : Buddy) (addr mask : ℕ) : ℕ :=
  ((addr-s.base) ^^^ ((2 ^ 32-mask % 2 ^ 32) % 2 ^ 32))+s.base

def markUsed (s : Buddy) (addr order : ℕ) : Buddy :=
  (s.changeBit (mapNr (addr-s.base) >>> (1+order)) order).2

def incPageRef (s : Buddy) (pa : ℕ) : Buddy :=
  { s with ref := Function.update s.ref (mapNr pa) (s.ref (mapNr pa)+1) }

/-- `none` is the panic on a count that is not positive; the flag is the result
of `atomic_dec_and_test`. -/
def decPageRef (s : Buddy) (pa : ℕ) : Option (Bool × Buddy) :=
  if s.ref (mapNr pa) ≤ 0 then none
  else some (s.ref (mapNr pa)-1 == 0,
    { s with ref := Function.update s.ref (mapNr pa) (s.ref (mapNr pa)-1) })

def getPageRef (s : Buddy) (pa : ℕ) : ℤ := s.ref (mapNr pa)

/-- The loop `while (low < high)` of `expand`; the argument is `high`. -/
def split (low : ℕ) : ℕ → ℕ → Buddy → ℕ × Buddy
  | 0, addr, s => (addr, s)
  | high+1, addr, s =>
    if low < high+1 then
      split low high (addr+pageSize <<< high) ((s.addToHead high addr).markUsed addr high)
    else (addr, s)

def incRefs : ℕ → ℕ → Buddy → Buddy
  | 0, _, s => s
  | n+1, p, s => incRefs n (p+pageSize) (s.incPageRef p)

def expand (s : Buddy) (addr low high : ℕ) : ℕ × Buddy :=
  let r := split low high addr s
  (r.1, incRefs (2 ^ low) r.1 r.2)

/-- The `do … while (new_order <= MAX_ORDER)` loop; the first argument counts
the lists that are left. -/
def allocFrom (order : ℕ) : ℕ → ℕ → Buddy → Option (ℕ × Buddy)
  | 0, _, _ => none
  | left+1, newOrder, s =>
    match s.freeList newOrder with
    | [] => allocFrom order left (newOrder+1) s
    | next :: rest =>
      let s₁ := { s with freeList := Function.update s.freeList newOrder rest }
      let s₂ := s₁.markUsed next newOrder
      let r := s₂.expand next order newOrder
      if r.2.getPageRef r.1 ≠ 1 then none else some r

def allocPages (s : Buddy) (order : ℕ) : Option (ℕ × Buddy) :=
  allocFrom order (maxOrder+1-order) order
    { s with freePageNum := s.freePageNum-2 ^ order }

/-- The counts of the pages `i, …, i+n-1` of the block, which must all report
the same flag as the first one. -/
def decRefs (pa : ℕ) (ref : Bool) : ℕ → ℕ → Buddy → Option Buddy
  | 0, _, s => some s
  | n+1, i, s =>
    match s.decPageRef (pa+pageSize*i) with
    | none => none
    | some (r, s') => if r ≠ ref then none else decRefs pa ref n (i+1) s'

/-- The loop `while (order < MAX_ORDER)` of `free_pages`, with the final
`add_to_head`; the first argument is `MAX_ORDER - order`. -/
def coalesce : ℕ → ℕ → ℕ → ℕ → Buddy → Buddy
  | 0, order, _, address, s => s.addToHead order address
  | left+1, order, index, address, s =>
    let r := s.changeBit index order
    if r.1 then
      let buddy := s.getBuddy address (pageMask order)
      coalesce left (order+1) (index >>> 1) (address &&& pageMask (order+1)) (r.2.removeHead buddy)
    else r.2.addToHead order address

def freePages (s : Buddy) (pa order : ℕ) : Option Buddy :=
  match s.decPageRef pa with
  | none => none
  | some (ref, s₁) =>
    match decRefs pa ref (2 ^ order-1) 1 s₁ with
    | none => none
    | some s₂ =>
      if ref then
        some (coalesce (maxOrder-order) order
          (mapNr (pa-s.base) >>> (1+order)) (pa &&& pageMask order)
          { s₂ with freePageNum := s₂.freePageNum+2 ^ order })
      else some s₂

end Buddy

/-! ## Start of the machine -/

structure Range where
  baseAddr : ℕ
  length : ℕ
  type : ℕ

/-- What the allocator finds at boot: the end of the kernel image, the memory
ranges the BIOS reported, and the old contents of the memory the page records
and the bitmaps are put in. Physical addresses have at most 52 bits. -/
structure Layout where
  startUsable : ℕ
  ranges : List Range
  oldRef : ℕ → ℤ
  oldBits : ℕ → Bool
  physical : ∀ r ∈ ranges, r.baseAddr+r.length ≤ 2 ^ 52
  start_physical : startUsable ≤ 2 ^ 52

namespace Layout

/-- `m_end_pa` after `init_mem_range`. -/
def endUsable (L : Layout) : ℕ :=
  L.ranges.foldl (fun e r => if r.type = 1 ∧ r.baseAddr+r.length > e
    then r.baseAddr+r.length else e) L.startUsable

/-- `page_num` and `size` of `init_pages` are `uint32`; a `page_t` has 24 bytes. -/
def pageNum (L : Layout) : ℕ := (L.endUsable+pageSize-1) / pageSize % 2 ^ 32

def pagesSize (L : Layout) : ℕ := L.pageNum*24 % 2 ^ 32

/-- `m_start_pa` when `init_bitmap` reads it. -/
def bitmapStart (L : Layout) : ℕ := L.startUsable+L.pagesSize

/-- `mem_end` in round `i` of `init_bitmap`: the mask has been doubled `i+1`
times. -/
def bitmapEnd (L : Layout) (i : ℕ) : ℕ := L.endUsable &&& pageMask (i+1)

/-- `bitmap_size` in bytes. The span is cut to a `uint32` before the shift. -/
def bitmapBytes (L : Layout) (i : ℕ) : ℕ :=
  let span := (L.bitmapEnd i+2 ^ 64-L.bitmapStart) % 2 ^ 32
  let bytes := (span >>> (pageShift+i)+7) >>> 3
  (bytes+3) / 4*4

/-- First bit of the bitmap of order `k`, from the first bit of the first one. -/
def bitmapBit (L : Layout) : ℕ → ℕ
  | 0 => 0
  | k+1 => L.bitmapBit k+8*L.bitmapBytes k

def blockSize : ℕ := pageSize <<< maxOrder

/-- `(x + ~mask) & mask` with `mask = PAGE_MASK << MAX_ORDER`. -/
def alignUp (x : ℕ) : ℕ := (x+(blockSize-1)) &&& pageMask maxOrder

/-- `m_start_pa` after the bitmaps. -/
def memStart (L : Layout) : ℕ := L.bitmapStart+L.bitmapBit (maxOrder+1) / 8

/-- The allocator before any memory is given to it: `init_pages`, `init_bitmap`
and the assignment of `base`. -/
def blank (L : Layout) : Buddy where
  ref := fun i => if i < L.pageNum then 1 else L.oldRef i
  freeList := fun _ => []
  bitmap := L.bitmapBit
  bits := fun b => if b < L.bitmapBit (maxOrder+1) then false else L.oldBits b
  base := alignUp L.memStart
  freePageNum := 0

/-- `while (pa < end)` runs once for each started block of the range. -/
def freeBlocks : ℕ → ℕ → Buddy → Option Buddy
  | 0, _, s => some s
  | n+1, pa, s =>
    match s.freePages pa maxOrder with
    | none => none
    | some s' => freeBlocks n (pa+blockSize) s'

def freeBootMemRange (start last : ℕ) (s : Buddy) : Option Buddy :=
  freeBlocks ((last-start+(blockSize-1)) / blockSize) start s

/-- One round of the loop of `free_boot_mem`, with `mem_start` as it moves. -/
def freeBootRange (r : Range) (start : ℕ) (s : Buddy) : Option (ℕ × Buddy) :=
  let last := r.baseAddr+r.length
  if r.type = 1 ∧ last > start then
    let start' := if r.baseAddr > start then alignUp r.baseAddr else start
    (freeBootMemRange start' (last &&& pageMask maxOrder) s).map fun s' => (alignUp last, s')
  else some (start, s)

def freeBootMem : List Range → ℕ → Buddy → Option Buddy
  | [], _, s => some s
  | r :: rs, start, s =>
    match freeBootRange r start s with
    | none => none
    | some (start', s') => freeBootMem rs start' s'

/-- `buddy_t::init`. -/
def init (L : Layout) : Option Buddy :=
  freeBootMem L.ranges (alignUp L.memStart) L.blank

end Layout

end BabyOS.BuddyMachine

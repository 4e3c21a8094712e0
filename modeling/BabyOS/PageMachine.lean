import BabyOS.AreaMachine
import BabyOS.FrameCounts
import BabyOS.RadixTables

/-!
# Page tables

The user half of a four-level table tree, with the functions of `vmm_t` that
build, copy, search and free it. The words of a table that is in use are in the
tree; `mem` holds the bytes of every other frame, and has the words again when
the table is freed. Every user mapping is made with `PTE_U`, so an entry carries
its frame and `PTE_W`.
-/

set_option autoImplicit false

namespace BabyOS.PageMachine
open BabyOS.BuddyMachine BabyOS.AreaMachine BabyOS.FrameCounts BabyOS.RadixTables

structure Pte where
  frame : ℕ
  writable : Bool
deriving DecidableEq, Repr

abbrev PageTable := Node Pte
abbrev PdTable := Node PageTable
abbrev PdpTable := Node PdTable
abbrev Pml4Table := Node PdpTable

/-- The allocator and the bytes of the frames. -/
structure Phys where
  buddy : Buddy
  mem : ℕ → ℕ → ℕ

/-! The indices of a page number, which is the address shifted by `PAGE_SHIFT`. -/

def pteIndex (n : ℕ) : ℕ := n % 512
def pdeIndex (n : ℕ) : ℕ := n / 2 ^ 9 % 512
def pdpeIndex (n : ℕ) : ℕ := n / 2 ^ 18 % 512
def pml4eIndex (n : ℕ) : ℕ := n / 2 ^ 27 % 256

def pageOf (va : ℕ) : ℕ := va / pageSize

def userPages : ℕ := userVmSize / pageSize

/-- The walk of `va_to_pa` for a page of the user half. -/
def findPte (t : Pml4Table) (n : ℕ) : Option Pte :=
  match t.entry (pml4eIndex n) with
  | none => none
  | some pdp => match pdp.entry (pdpeIndex n) with
    | none => none
    | some pd => match pd.entry (pdeIndex n) with
      | none => none
      | some pt => pt.entry (pteIndex n)

def vaToPa (t : Pml4Table) (va : ℕ) : Option ℕ :=
  (findPte t (pageOf va)).map fun pte => frameAddr pte.frame+va % pageSize

/-! ## Building -/

/-- `alloc_pages(0)` for a table, and its `memset`. -/
def allocTable (s : Phys) : Option (ℕ × Phys) :=
  match s.buddy.allocPages 0 with
  | none => none
  | some (pa, b) => some (mapNr pa, ⟨b, Function.update s.mem (mapNr pa) (fun _ => 0)⟩)

/-- The table below entry `i`, a new one if there is none. -/
def getTable {α : Type} (t : Node (Node α)) (i : ℕ) (s : Phys) : Option (Node α × Phys) :=
  match t.entry i with
  | some c => some (c, s)
  | none => match allocTable s with
    | none => none
    | some (f, s') => some (⟨f, fun _ => none⟩, s')

def getPdpTable (t : Pml4Table) (n : ℕ) (s : Phys) : Option (PdpTable × Phys) :=
  getTable t (pml4eIndex n) s

def getPdTable (t : PdpTable) (n : ℕ) (s : Phys) : Option (PdTable × Phys) :=
  getTable t (pdpeIndex n) s

def getPageTable (t : PdTable) (n : ℕ) (s : Phys) : Option (PageTable × Phys) :=
  getTable t (pdeIndex n) s

/-- One page of `map_pages`. -/
def mapPage (t : Pml4Table) (n : ℕ) (pte : Pte) (s : Phys) : Option (Pml4Table × Phys) :=
  match getPdpTable t n s with
  | none => none
  | some (pdp, s) => match getPdTable pdp n s with
    | none => none
    | some (pd, s) => match getPageTable pd n s with
      | none => none
      | some (pt, s) => some (t.set (pml4eIndex n) (pdp.set (pdpeIndex n)
          (pd.set (pdeIndex n) (pt.set (pteIndex n) pte))), s)

/-- `map_pages` over `count` pages with `PTE_W | PTE_U`. The inner loop of the
source stays inside one page table; looking the tables up for each page finds
the same ones. -/
def mapPages : ℕ → Pml4Table → ℕ → ℕ → Phys → Option (Pml4Table × Phys)
  | 0, t, _, _, s => some (t, s)
  | count+1, t, n, frame, s =>
    match mapPage t n ⟨frame, true⟩ s with
    | none => none
    | some (t', s') => mapPages count t' (n+1) (frame+1) s'

/-- `make_pte_write`. -/
def makePteWrite (t : Pml4Table) (n : ℕ) : Pml4Table :=
  match t.entry (pml4eIndex n) with
  | none => t
  | some pdp => match pdp.entry (pdpeIndex n) with
    | none => t
    | some pd => match pd.entry (pdeIndex n) with
      | none => t
      | some pt => match pt.entry (pteIndex n) with
        | none => t
        | some pte => t.set (pml4eIndex n) (pdp.set (pdpeIndex n)
            (pd.set (pdeIndex n) (pt.set (pteIndex n) { pte with writable := true })))

/-! ## Copying -/

def readOnly (pte : Pte) : Pte := { pte with writable := false }

/-- One round of `copy_page_table`: the entry of the copy, the entry that is
left in the source, and the count. -/
def copyPte (pte : Pte) (s : Phys) : Option (Pte × Pte × Phys) :=
  if s.buddy.getPageRef (frameAddr pte.frame) ≤ 0 then none
  else some (readOnly pte, readOnly pte, { s with buddy := s.buddy.incPageRef (frameAddr pte.frame) })

/-- The loop over the first `k` entries, on the copy and on the source. -/
def copyEntries {α : Type} (copyEntry : α → Phys → Option (α × α × Phys)) :
    ℕ → Node α → Node α → Phys → Option (Node α × Node α × Phys)
  | 0, child, parent, s => some (child, parent, s)
  | k+1, child, parent, s =>
    match copyEntries copyEntry k child parent s with
    | none => none
    | some (child, parent, s) => match parent.entry k with
      | none => some (child, parent, s)
      | some e => match copyEntry e s with
        | none => none
        | some (c, p, s) => some (child.set k c, parent.set k p, s)

/-- A table of `size` entries is copied into a new frame, entry by entry. -/
def copyTable {α : Type} (copyEntry : α → Phys → Option (α × α × Phys)) (size : ℕ) (t : Node α)
    (s : Phys) : Option (Node α × Node α × Phys) :=
  match allocTable s with
  | none => none
  | some (f, s) => copyEntries copyEntry size ⟨f, t.entry⟩ t s

def copyPageTable (t : PageTable) (s : Phys) : Option (PageTable × PageTable × Phys) :=
  copyTable copyPte 512 t s

def copyPdTable (t : PdTable) (s : Phys) : Option (PdTable × PdTable × Phys) :=
  copyTable copyPageTable 512 t s

def copyPdpTable (t : PdpTable) (s : Phys) : Option (PdpTable × PdpTable × Phys) :=
  copyTable copyPdTable 512 t s

def copyPml4Table (t : Pml4Table) (s : Phys) : Option (Pml4Table × Pml4Table × Phys) :=
  copyTable copyPdpTable 256 t s

/-! ## Freeing -/

/-- `free_pages(pa, 0)` of a table, whose words are then bytes of a free frame. -/
def freeTable (frame : ℕ) (bytes : ℕ → ℕ) (s : Phys) : Option Phys :=
  match s.buddy.freePages (frameAddr frame) 0 with
  | none => none
  | some b => some ⟨b, Function.update s.mem frame bytes⟩

def freeEntries {α : Type} (freeEntry : α → Phys → Option Phys) : ℕ → Node α → Phys → Option Phys
  | 0, _, s => some s
  | k+1, t, s =>
    match freeEntries freeEntry k t s with
    | none => none
    | some s => match t.entry k with
      | none => some s
      | some c => freeEntry c s

def pteWord : Option Pte → ℕ
  | none => 0
  | some pte => frameAddr pte.frame+1+(if pte.writable then 2 else 0)+4

/-- The bytes of a page table. The tables above have only zeros left when they
are freed. -/
def pageTableBytes (t : PageTable) (o : ℕ) : ℕ := pteWord (t.entry (o / 8)) >>> (8*(o % 8)) % 256

def freePdTable (t : PdTable) (s : Phys) : Option Phys :=
  freeEntries (fun pt s => freeTable pt.frame (pageTableBytes pt) s) 512 t s

def freePdpTable (t : PdpTable) (s : Phys) : Option Phys :=
  freeEntries (fun pd s => (freePdTable pd s).bind (freeTable pd.frame fun _ => 0)) 512 t s

/-- `free_pml4_table`; the entries of the user half are cleared. -/
def freePml4Table (t : Pml4Table) (s : Phys) : Option (Pml4Table × Phys) :=
  (freeEntries (fun pdp s => (freePdpTable pdp s).bind (freeTable pdp.frame fun _ => 0)) 256 t s).map
    fun s => (⟨t.frame, fun _ => none⟩, s)

/-- Device memory, which `free_page_range` leaves alone. -/
def Device (frame : ℕ) : Prop := 0xfd000000 ≤ frameAddr frame ∧ frameAddr frame ≤ 0xffffffff

instance (frame : ℕ) : Decidable (Device frame) := inferInstanceAs (Decidable (_ ∧ _))

/-- The loop of `free_page_range` over `count` pages. The entries stay as they
are. -/
def freePages (t : Pml4Table) : ℕ → ℕ → Phys → Option Phys
  | 0, _, s => some s
  | count+1, n, s =>
    match findPte t n with
    | none => freePages t count (n+1) s
    | some pte =>
      if Device pte.frame then some s
      else match s.buddy.freePages (frameAddr pte.frame) 0 with
        | none => none
        | some b => freePages t count (n+1) { s with buddy := b }

/-- `free_page_range(first, last)`. -/
def freePageRange (t : Pml4Table) (first last : ℕ) (s : Phys) : Option Phys :=
  freePages t ((last-pageDown first+(pageSize-1)) / pageSize) (pageOf first) s

/-- The pages of every area, in the order of the list. -/
def freeAreas (t : Pml4Table) : Areas → Phys → Option Phys
  | [], s => some s
  | vma :: rest, s =>
    match freePageRange t vma.mStart vma.mEnd s with
    | none => none
    | some s => freeAreas t rest s

end BabyOS.PageMachine

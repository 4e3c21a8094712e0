import BabyOS.FrameCounts
import BabyOS.StoredTables

/-!
# The words of the page tables

The functions of `vmm_t` that map, translate and copy, on the words that the tables have
in memory. Two tables may lie in one frame, and a store may change any tree. A table is
given by the number of its frame.
-/

set_option autoImplicit false

namespace BabyOS.TableWords
open BabyOS.BuddyMachine BabyOS.BuddyArithmetic BabyOS.FrameCounts
open BabyOS.RadixTables BabyOS.StoredTables

abbrev Word := BitVec 64

def pteP : Word := 0x1
def pteW : Word := 0x2
def pteU : Word := 0x4

/-- `PAGE_MASK`. -/
def addrMask : Word := ~~~0xfff

def userVmSize : ℕ := 0x0000800000000000
def kernelBase : ℕ := 0xffff800000000000

/-- The allocator and the words of every frame. -/
structure Memory where
  buddy : Buddy
  words : Words Word

def Memory.setWord (s : Memory) (t i : ℕ) (w : Word) : Memory :=
  { s with words := Function.update s.words t (Function.update (s.words t) i w) }

def pteIndex (va : ℕ) : ℕ := va >>> 12 &&& 0x1ff
def pdeIndex (va : ℕ) : ℕ := va >>> 21 &&& 0x1ff
def pdpeIndex (va : ℕ) : ℕ := va >>> 30 &&& 0x1ff
def pml4eIndex (va : ℕ) : ℕ := va >>> 39 &&& 0x1ff

def present (w : Word) : Bool := w &&& pteP ≠ 0

/-- The table that an entry leads to. -/
def tableOf (w : Word) : ℕ := mapNr (w &&& addrMask).toNat

/-! ## Translation -/

def vaToPa (s : Memory) (pml4Table va : ℕ) : Word :=
  if kernelBase ≤ va then BitVec.ofNat 64 (va-kernelBase)
  else
    let pml4e := s.words pml4Table (pml4eIndex va)
    if !present pml4e then -1
    else
      let pdpe := s.words (tableOf pml4e) (pdpeIndex va)
      if !present pdpe then -1
      else
        let pde := s.words (tableOf pdpe) (pdeIndex va)
        if !present pde then -1
        else
          let pte := s.words (tableOf pde) (pteIndex va)
          if !present pte then -1
          else (pte &&& addrMask)+BitVec.ofNat 64 (va-(va &&& addrMask.toNat))

/-! ## Mapping -/

/-- What a loop comes to: its result, a panic, or that it goes on. -/
inductive Outcome (α : Type)
  | done (a : α)
  | failed
  | running

/-- The table below entry `i`, a new one if there is none. -/
def getTable (t i : ℕ) (s : Memory) : Option (ℕ × Memory) :=
  let entry := s.words t i
  if present entry then some (tableOf entry, s)
  else match s.buddy.allocPages 0 with
    | none => none
    | some (pa, b) =>
      some (mapNr pa, Memory.setWord ⟨b, Function.update s.words (mapNr pa) fun _ => 0⟩ t i
        (BitVec.ofNat 64 pa ||| pteP ||| pteW ||| pteU))

def getPdpTable (pml4Table v : ℕ) (s : Memory) : Option (ℕ × Memory) := getTable pml4Table (pml4eIndex v) s

def getPdTable (pdpTable v : ℕ) (s : Memory) : Option (ℕ × Memory) := getTable pdpTable (pdpeIndex v) s

def getPageTable (pdTable v : ℕ) (s : Memory) : Option (ℕ × Memory) := getTable pdTable (pdeIndex v) s

/-- The inner loop from entry `i` on, of which `count` are left. -/
def fillTable (pageTable e : ℕ) (perm : Word) : ℕ → ℕ → ℕ → Word → Memory → ℕ × Word × Memory
  | 0, _, v, pa, s => (v, pa, s)
  | count+1, i, v, pa, s =>
    if e ≤ v then (v, pa, s)
    else fillTable pageTable e perm count (i+1) ((v+pageSize) % 2 ^ 64) (pa+BitVec.ofNat 64 pageSize)
      (s.setWord pageTable i (pa ||| pteP ||| perm))

/-- The outer loop, at most so many rounds. -/
def mapFrom (pml4Table e : ℕ) (perm : Word) : ℕ → ℕ → Word → Memory → Outcome Memory
  | 0, v, _, s => if v < e then .running else .done s
  | rounds+1, v, pa, s =>
    if v < e then
      match getPdpTable pml4Table v s with
      | none => .failed
      | some (pdpTable, s) => match getPdTable pdpTable v s with
        | none => .failed
        | some (pdTable, s) => match getPageTable pdTable v s with
          | none => .failed
          | some (pageTable, s) =>
            let r := fillTable pageTable e perm (512-pteIndex v) (pteIndex v) v pa s
            mapFrom pml4Table e perm rounds r.1 r.2.1 r.2.2
    else .done s

def mapPages (rounds pml4Table va : ℕ) (pa : Word) (size : ℕ) (perm : Word) (s : Memory) : Outcome Memory :=
  mapFrom pml4Table ((va+size) % 2 ^ 64 &&& addrMask.toNat) perm rounds (va &&& addrMask.toNat)
    (pa &&& addrMask) s

/-! ## Copying -/

/-- Why the kernel panics. -/
inductive Panic
  | noPage
  | badRef
deriving DecidableEq

/-- The loop over the first `k` entries. -/
def forEntries (f : ℕ → Memory → Except Panic Memory) : ℕ → Memory → Except Panic Memory
  | 0, s => .ok s
  | k+1, s => (forEntries f k s).bind (f k)

/-- A table for the copy, with the words of the source, and then each entry. -/
def copyTable (entry : ℕ → ℕ → Memory → Except Panic Memory) (size table : ℕ) (s : Memory) :
    Except Panic (ℕ × Memory) :=
  match s.buddy.allocPages 0 with
  | none => .error .noPage
  | some (pa, b) =>
    (forEntries (entry (mapNr pa)) size ⟨b, Function.update s.words (mapNr pa) (s.words table)⟩).map
      fun s => (pa, s)

/-- The count is unsigned: the test for `<= 0` is one for zero. -/
def copyPte (pageTable ret i : ℕ) (s : Memory) : Except Panic Memory :=
  let pte := s.words pageTable i
  if !present pte then .ok s
  else
    let pa := (pte &&& addrMask).toNat
    if s.buddy.getPageRef pa = 0 then .error .badRef
    else
      let s := Memory.setWord { s with buddy := s.buddy.incPageRef pa } pageTable i (pte &&& ~~~pteW)
      .ok (s.setWord ret i (s.words pageTable i))

/-- An entry that leads to a table; the copy leads to the copy of the table. -/
def copyEntry (copy : ℕ → Memory → Except Panic (ℕ × Memory)) (table ret i : ℕ) (s : Memory) :
    Except Panic Memory :=
  let entry := s.words table i
  if !present entry then .ok s
  else match copy (tableOf entry) s with
    | .error e => .error e
    | .ok (pa, s) => .ok (s.setWord ret i (BitVec.ofNat 64 pa ||| (entry &&& ~~~addrMask)))

def copyPageTable (pageTable : ℕ) (s : Memory) : Except Panic (ℕ × Memory) :=
  copyTable (copyPte pageTable) 512 pageTable s

def copyPdTable (pdTable : ℕ) (s : Memory) : Except Panic (ℕ × Memory) :=
  copyTable (copyEntry copyPageTable pdTable) 512 pdTable s

def copyPdpTable (pdpTable : ℕ) (s : Memory) : Except Panic (ℕ × Memory) :=
  copyTable (copyEntry copyPdTable pdpTable) 512 pdpTable s

/-- Only the entries of the user half; each is stored once more before it is looked at. -/
def copyPml4Table (pml4Table : ℕ) (s : Memory) : Except Panic (ℕ × Memory) :=
  copyTable (fun ret i s => copyEntry copyPdpTable pml4Table ret i (s.setWord ret i (s.words pml4Table i)))
    256 pml4Table s

/-! ## The tree in the words -/

def leafOf (w : Word) : Option Word := if present w then some w else none

def nextOf (w : Word) : Option ℕ := if present w then some (tableOf w) else none

theorem entries_pos : 0 < 512 := by decide
theorem userEntries_pos : 0 < 256 := by decide

def pteLevel : Level Word Word := Level.leaf Word
def pageLevel : Level (Node Word) Word := pteLevel.up 512 entries_pos
def pdLevel : Level (Node (Node Word)) Word := pageLevel.up 512 entries_pos
def pdpLevel : Level (Node (Node (Node Word))) Word := pdLevel.up 512 entries_pos
def pml4Level : Level (Node (Node (Node (Node Word)))) Word := pdpLevel.up 256 userEntries_pos

def pageReader : Reader Word pageLevel := lastTable leafOf 512 entries_pos
def pdReader : Reader Word pdLevel := upTable nextOf pageReader 512 entries_pos
def pdpReader : Reader Word pdpLevel := upTable nextOf pdReader 512 entries_pos
def pml4Reader : Reader Word pml4Level := upTable nextOf pdpReader 256 userEntries_pos

/-- The user half of the tables of an address space. -/
def tree (s : Memory) (pml4Table : ℕ) : Node (Node (Node (Node Word))) := pml4Reader.read s.words pml4Table

section Words

variable {w : Word} {f va : ℕ}

theorem addrMask_eq : addrMask.toNat = pageMask 0 := by decide

theorem land_addrMask {x : ℕ} (hx : x < 2 ^ 64) : x &&& addrMask.toNat = x / 4096*4096 := by
  rw [addrMask_eq]
  exact land_pageMask x 0 hx (by decide)

theorem masked_toNat (w : Word) : (w &&& addrMask).toNat = w.toNat / 4096*4096 := by
  rw [BitVec.toNat_and]
  exact land_addrMask w.isLt

theorem tableOf_eq (w : Word) : tableOf w = w.toNat / 4096 := by
  rw [tableOf, mapNr_eq, masked_toNat, frameOf]
  exact Nat.mul_div_cancel _ (by decide)

/-- Flags do not reach the address. -/
theorem or_div {x flags : Word} (h : flags.toNat < 4096) : (x ||| flags).toNat / 4096 = x.toNat / 4096 := by
  have hpow : 4096 = 2 ^ 12 := rfl
  rw [BitVec.toNat_or, hpow, ← Nat.shiftRight_eq_div_pow, Nat.shiftRight_or_distrib,
    Nat.shiftRight_eq_div_pow, Nat.shiftRight_eq_div_pow, ← hpow, Nat.div_eq_of_lt h, Nat.or_zero]

theorem or_present (x y : Word) : present (x ||| pteP ||| y) = true := by
  have hbit : (x ||| pteP ||| y) &&& pteP = pteP := by
    ext i
    simp only [BitVec.getElem_and, BitVec.getElem_or]
    cases pteP[i] <;> simp
  rw [present, hbit]
  decide

theorem tableOf_frameAddr {flags : Word} (hf : f < 2 ^ 52) (h : flags.toNat < 4096) :
    tableOf (BitVec.ofNat 64 (frameAddr f) ||| flags) = f := by
  have hlt : f*pageSize < 2 ^ 64 := by
    rw [pageSize]
    omega
  rw [tableOf_eq, or_div h, BitVec.toNat_ofNat, frameAddr, Nat.mod_eq_of_lt hlt]
  exact Nat.mul_div_cancel f (by decide)

theorem pteIndex_eq (va : ℕ) : pteIndex va = va / 2 ^ 12 % 512 := by
  rw [pteIndex, Nat.shiftRight_eq_div_pow]
  exact Nat.and_two_pow_sub_one_eq_mod _ 9

theorem pdeIndex_eq (va : ℕ) : pdeIndex va = va / 2 ^ 21 % 512 := by
  rw [pdeIndex, Nat.shiftRight_eq_div_pow]
  exact Nat.and_two_pow_sub_one_eq_mod _ 9

theorem pdpeIndex_eq (va : ℕ) : pdpeIndex va = va / 2 ^ 30 % 512 := by
  rw [pdpeIndex, Nat.shiftRight_eq_div_pow]
  exact Nat.and_two_pow_sub_one_eq_mod _ 9

theorem pml4eIndex_eq (va : ℕ) : pml4eIndex va = va / 2 ^ 39 % 512 := by
  rw [pml4eIndex, Nat.shiftRight_eq_div_pow]
  exact Nat.and_two_pow_sub_one_eq_mod _ 9

/-! The indices of an address are those of its page in the tree. -/

theorem page_index (va : ℕ) : pteLevel.index 512 (va / 4096) = pteIndex va := by
  have hspan : pteLevel.span = 1 := rfl
  rw [Level.index, hspan, Nat.div_one, pteIndex_eq]
  rfl

theorem pd_index (va : ℕ) : pageLevel.index 512 (va / 4096) = pdeIndex va := by
  have hspan : pageLevel.span = 2 ^ 9 := rfl
  rw [Level.index, hspan, Nat.div_div_eq_div_mul, pdeIndex_eq]
  rfl

theorem pdp_index (va : ℕ) : pdLevel.index 512 (va / 4096) = pdpeIndex va := by
  have hspan : pdLevel.span = 2 ^ 18 := rfl
  rw [Level.index, hspan, Nat.div_div_eq_div_mul, pdpeIndex_eq]
  rfl

theorem pml4_index (hva : va < userVmSize) : pdpLevel.index 256 (va / 4096) = pml4eIndex va := by
  have hspan : pdpLevel.span = 2 ^ 27 := rfl
  rw [Level.index, hspan, Nat.div_div_eq_div_mul, pml4eIndex_eq]
  rw [userVmSize] at hva
  omega

theorem nextOf_present (h : present w = true) : nextOf w = some (tableOf w) := if_pos h

theorem nextOf_absent (h : present w = false) : nextOf w = none := if_neg (by rw [h]; exact Bool.false_ne_true)

/-- A step of the walk, down to the table of an entry. -/
theorem bind_next (w : Word) (below : ℕ → Option Word) (g : Word → Word) :
    (match (nextOf w).bind below with
      | none => -1
      | some pte => g pte) =
    if !present w then -1 else match below (tableOf w) with
      | none => -1
      | some pte => g pte := by
  cases h : present w with
  | false =>
    rw [nextOf_absent h]
    rfl
  | true =>
    rw [nextOf_present h]
    rfl

theorem bind_leaf (w : Word) (g : Word → Word) :
    (match leafOf w with
      | none => -1
      | some pte => g pte) = if !present w then -1 else g w := by
  cases h : present w <;> simp [leafOf, h]

/-- The walk of `va_to_pa` looks the page up in the tree. -/
theorem vaToPa_eq (s : Memory) (t : ℕ) (hva : va < userVmSize) :
    vaToPa s t va = match pml4Level.find (tree s t) (va / 4096) with
      | none => -1
      | some pte => (pte &&& addrMask)+BitVec.ofNat 64 (va % 4096) := by
  have hlow : ¬ kernelBase ≤ va := by
    rw [userVmSize] at hva
    rw [kernelBase]
    omega
  have hoffset : va-(va &&& addrMask.toNat) = va % 4096 := by
    rw [userVmSize] at hva
    rw [land_addrMask (by omega)]
    omega
  have hfind : pml4Level.find (tree s t) (va / 4096) =
      (nextOf (s.words t (pml4eIndex va))).bind fun pdp => (nextOf (s.words pdp (pdpeIndex va))).bind fun pd =>
        (nextOf (s.words pd (pdeIndex va))).bind fun pt => leafOf (s.words pt (pteIndex va)) := by
    rw [← pml4_index hva, ← pdp_index, ← pd_index, ← page_index]
    refine (find_read s.words t _).trans (congrArg _ (funext fun pdp => ?_))
    refine (find_read s.words pdp _).trans (congrArg _ (funext fun pd => ?_))
    refine (find_read s.words pd _).trans (congrArg _ (funext fun pt => ?_))
    exact find_last s.words pt _
  rw [hfind, vaToPa, if_neg hlow, hoffset]
  simp only [bind_next, bind_leaf]

end Words

end BabyOS.TableWords

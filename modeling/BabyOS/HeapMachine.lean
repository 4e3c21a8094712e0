import BabyOS.ByteWords

/-!
# The heap of the C library

`malloc.cc` on a memory of bytes. Headers, footers and the links of the free lists
are words of that memory; a null pointer is 0. The answer of `sbrk` is a
parameter of the calls that may ask for memory: nothing, or the contents of what
is added behind the break.
-/

set_option autoImplicit false

namespace BabyOS.HeapMachine
open BabyOS.ByteWords

def wsize : ℕ := 8
def dsize : ℕ := 16
def chunksize : ℕ := 4096
def freeListNum : ℕ := 12

/-- The memory of the process with the variables of `malloc.cc` and the break. -/
structure Heap where
  mem : Bytes
  listp : ℕ
  freeListHeads : ℕ → ℕ
  freeListTails : ℕ → ℕ
  brk : ℕ

/-- `None` is a failure of `sbrk`. -/
abbrev Answer := Option Bytes

/-! ## Words -/

def pack (size : ℕ) (prevAlloc alloc : Bool) : ℕ :=
  let ret := if alloc then size ||| 1 else size
  if prevAlloc then ret ||| 2 else ret

def get (h : Heap) (p : ℕ) : ℕ := word h.mem p wsize

def put (p val : ℕ) (h : Heap) : Heap := { h with mem := putWord p wsize val h.mem }

/-- A word without its three flags. -/
def sizeBits (w : ℕ) : ℕ := w &&& (2^64-8)

def getSize (h : Heap) (p : ℕ) : ℕ := sizeBits (get h p)

def getAlloc (h : Heap) (p : ℕ) : Bool := get h p &&& 1 != 0

def getPrevAlloc (h : Heap) (p : ℕ) : Bool := get h p &&& 2 != 0

def hdrp (bp : ℕ) : ℕ := bp-wsize

def ftrp (h : Heap) (bp : ℕ) : ℕ := bp+getSize h (hdrp bp)-dsize

def nextBlkp (h : Heap) (bp : ℕ) : ℕ := bp+getSize h (hdrp bp)

def prevBlkp (h : Heap) (bp : ℕ) : ℕ := bp-getSize h (bp-dsize)

def getPrevLink (h : Heap) (bp : ℕ) : ℕ := get h bp

def getNextLink (h : Heap) (bp : ℕ) : ℕ := get h (bp+wsize)

def setPrevLink (bp prev : ℕ) (h : Heap) : Heap := put bp prev h

def setNextLink (bp next : ℕ) (h : Heap) : Heap := put (bp+wsize) next h

/-- The difference of two `size_t`. -/
def minus (a b : ℕ) : ℕ := (a+2^64-b)%2^64

/-! ## Free lists -/

def getFreeListHeadId (asize : ℕ) : ℕ :=
  if asize ≤ 32 then 0
  else if asize ≤ 64 then 1
  else if asize ≤ 128 then 2
  else if asize ≤ 256 then 3
  else if asize ≤ 512 then 4
  else if asize ≤ 1024 then 5
  else if asize ≤ 2048 then 6
  else if asize ≤ 4096 then 7
  else if asize ≤ 8192 then 8
  else if asize ≤ 8192*2 then 9
  else if asize ≤ 8192*4 then 10
  else 11

def setHead (id p : ℕ) (h : Heap) : Heap :=
  { h with freeListHeads := Function.update h.freeListHeads id p }

def setTail (id p : ℕ) (h : Heap) : Heap :=
  { h with freeListTails := Function.update h.freeListTails id p }

def freeListInsert (p : ℕ) (h : Heap) : Heap :=
  let id := getFreeListHeadId (getSize h (hdrp p))
  let h := setNextLink p 0 (setPrevLink p 0 h)
  if h.freeListTails id = 0 then setHead id p (setTail id p h)
  else
    let h := setPrevLink p (h.freeListTails id) h
    setTail id p (setNextLink (h.freeListTails id) p h)

/-- A block from the middle of a list. -/
def unlink (p : ℕ) (h : Heap) : Heap :=
  let prev := getPrevLink h p
  let next := getNextLink h p
  let h := if prev ≠ 0 then setNextLink prev next h else h
  if next ≠ 0 then setPrevLink next prev h else h

def freeListRemove (p : ℕ) (h : Heap) : Heap :=
  let id := getFreeListHeadId (getSize h (hdrp p))
  let h :=
    if h.freeListHeads id = p then
      let h := setHead id (getNextLink h (h.freeListHeads id)) h
      if h.freeListHeads id ≠ 0 then setPrevLink (h.freeListHeads id) 0 h else setTail id 0 h
    else if h.freeListTails id = p then
      let h := setTail id (getPrevLink h (h.freeListTails id)) h
      setNextLink (h.freeListTails id) 0 h
    else unlink p h
  setNextLink p 0 (setPrevLink p 0 h)

/-! ## Blocks -/

def coalesce (bp : ℕ) (h : Heap) : ℕ × Heap :=
  let next := nextBlkp h bp
  let prevAlloc := getPrevAlloc h (hdrp bp)
  let nextAlloc := getAlloc h (hdrp next)
  let prev := if prevAlloc then 0 else prevBlkp h bp
  let size := getSize h (hdrp bp)
  match prevAlloc, nextAlloc with
  | true, true => (bp, h)
  | true, false =>
    let h := freeListRemove next h
    let size := size+getSize h (hdrp (nextBlkp h bp))
    let h := put (hdrp bp) (pack size true false) h
    (bp, put (ftrp h bp) (pack size true false) h)
  | false, true =>
    let h := freeListRemove prev h
    let size := size+getSize h (hdrp (prevBlkp h bp))
    let h := put (ftrp h bp) (pack size (getPrevAlloc h (hdrp prev)) false) h
    let h := put (hdrp (prevBlkp h bp)) (pack size (getPrevAlloc h (hdrp prev)) false) h
    (prevBlkp h bp, h)
  | false, false =>
    let h := freeListRemove next (freeListRemove prev h)
    let size := size+(getSize h (hdrp (prevBlkp h bp))+getSize h (ftrp h (nextBlkp h bp)))
    let h := put (hdrp (prevBlkp h bp)) (pack size (getPrevAlloc h (hdrp prev)) false) h
    let h := put (ftrp h (nextBlkp h bp)) (pack size (getPrevAlloc h (hdrp prev)) false) h
    (prevBlkp h bp, h)

/-- Memory behind the break, as far as there are addresses for it. -/
def sbrk (answer : Answer) (size : ℕ) (h : Heap) : Option (ℕ × Heap) :=
  match answer with
  | none => none
  | some contents =>
    if h.brk+size ≤ 2^64 then
      some (h.brk, { h with
        mem := fun x => if h.brk ≤ x ∧ x < h.brk+size then contents x else h.mem x
        brk := h.brk+size })
    else none

/-- The new block and the heap, or `none`. -/
def extendHeap (answer : Answer) (words : ℕ) (h : Heap) : Option (ℕ × Heap) :=
  let size := (if words%2 ≠ 0 then (words+1)*wsize else words*wsize)%2^64
  (sbrk answer size h).map fun r =>
    let bp := r.1
    let h := r.2
    let h := put (hdrp bp) (pack size (getPrevAlloc h (hdrp bp)) false) h
    let h := put (ftrp h bp) (pack size (getPrevAlloc h (hdrp bp)) false) h
    let h := put (hdrp (nextBlkp h bp)) (pack 0 false true) h
    coalesce bp h

/-- The result and the heap; the answers are those of the two calls of `sbrk`. -/
def mallocInit (first second : Answer) (h : Heap) : Bool × Heap :=
  match sbrk first (4*wsize) h with
  | none => (false, h)
  | some (listp, h) =>
    let h := put listp 0 h
    let h := put (listp+1*wsize) (pack dsize true true) h
    let h := put (listp+2*wsize) (pack dsize true true) h
    let h := put (listp+3*wsize) (pack 0 true true) h
    let h := { h with
      listp := listp+2*wsize
      freeListHeads := fun id => if id < freeListNum then 0 else h.freeListHeads id
      freeListTails := fun id => if id < freeListNum then 0 else h.freeListTails id }
    match extendHeap second (chunksize/wsize) h with
    | none => (false, h)
    | some (p, h) => (true, freeListInsert p h)

/-- The walk along one list: the block found or 0, `none` when the rounds are used
up. -/
def findIn (asize : ℕ) (h : Heap) : ℕ → ℕ → Option ℕ
  | 0, _ => none
  | fuel+1, p =>
    if p = 0 then some 0
    else if asize ≤ getSize h (hdrp p) then some p
    else findIn asize h fuel (getNextLink h p)

/-- The lists from `id` on, `n` of them. -/
def findFrom (fuel asize : ℕ) (h : Heap) : ℕ → ℕ → Option ℕ
  | 0, _ => some 0
  | n+1, id =>
    match findIn asize h fuel (h.freeListHeads id) with
    | none => none
    | some 0 => findFrom fuel asize h n (id+1)
    | some p => some p

def findFit (fuel asize : ℕ) (h : Heap) : Option ℕ :=
  let id := getFreeListHeadId asize
  findFrom fuel asize h (freeListNum-id) id

def place (bp asize : ℕ) (h : Heap) : Heap :=
  let csize := getSize h (hdrp bp)
  if minus csize asize ≥ 2*dsize then
    let h := put (hdrp bp) (pack asize (getPrevAlloc h (hdrp bp)) true) h
    let h := put (ftrp h bp) (pack asize (getPrevAlloc h (hdrp bp)) true) h
    let next := nextBlkp h bp
    let h := put (hdrp next) (pack (minus csize asize) true false) h
    let h := if !getAlloc h (hdrp next) then put (ftrp h next) (pack (minus csize asize) true false) h else h
    freeListInsert next h
  else
    let h := put (hdrp bp) (pack csize (getPrevAlloc h (hdrp bp)) true) h
    let h := put (ftrp h bp) (pack csize (getPrevAlloc h (hdrp bp)) true) h
    let next := nextBlkp h bp
    let h := put (hdrp next) (pack (getSize h (hdrp next)) true (getAlloc h (hdrp next))) h
    if !getAlloc h (hdrp next) then
      put (ftrp h next) (pack (getSize h (hdrp next)) true (getAlloc h (hdrp next))) h
    else h

/-! ## The calls -/

/-- The size of the block for a request. -/
def adjusted (size : ℕ) : ℕ :=
  if size ≤ dsize then 2*dsize else dsize*((size+wsize+(dsize-1))%2^64/dsize)

/-- `none` is a walk that does not end in `fuel` rounds. -/
def malloc (fuel : ℕ) (answer : Answer) (size : ℕ) (h : Heap) : Option (ℕ × Heap) :=
  if size = 0 then some (0, h)
  else
    let asize := adjusted size
    match findFit fuel asize h with
    | none => none
    | some 0 =>
      let extendsize := max asize chunksize
      match extendHeap answer (extendsize/wsize) h with
      | none => some (0, h)
      | some (bp, h) => some (bp, place bp asize h)
    | some bp => some (bp, place bp asize (freeListRemove bp h))

/-- `free` returns at once: the code behind its first line is never reached. -/
def free (_ptr : ℕ) (h : Heap) : Heap := h

def copyUp : ℕ → ℕ → ℕ → Bytes → Bytes
  | _, _, 0, m => m
  | s, d, n+1, m => copyUp (s+1) (d+1) n (Function.update m d (m s))

def copyDown : ℕ → ℕ → ℕ → Bytes → Bytes
  | _, _, 0, m => m
  | s, d, n+1, m => copyDown (s-1) (d-1) n (Function.update m (d-1) (m (s-1)))

def memmov (dst src n : ℕ) (m : Bytes) : Bytes :=
  if src < dst ∧ src+n > dst then copyDown (src+n) (dst+n) n m else copyUp src dst n m

/-- The length is an `unsigned`. -/
def memcpy (dst src n : ℕ) (h : Heap) : Heap := { h with mem := memmov dst src (n%2^32) h.mem }

def fill : ℕ → ℕ → Bytes → Bytes
  | _, 0, m => m
  | d, n+1, m => fill (d+1) n (Function.update m d 0)

/-- The length is an `unsigned`; the byte is always 0 here. -/
def memset (dst n : ℕ) (h : Heap) : Heap := { h with mem := fill dst (n%2^32) h.mem }

def realloc (fuel : ℕ) (answer : Answer) (oldptr size : ℕ) (h : Heap) : Option (ℕ × Heap) :=
  if oldptr = 0 then malloc fuel answer size h
  else if size = 0 then some (0, free oldptr h)
  else
    let oldsize := getSize h (hdrp oldptr)
    let size := (size+2*dsize-1)%2^64/dsize*dsize
    if oldsize ≥ size then some (oldptr, h)
    else
      match malloc fuel answer size h with
      | none => none
      | some (0, h) => some (0, h)
      | some (newptr, h) =>
        let oldsize := if size < oldsize then size else oldsize
        some (newptr, free oldptr (memcpy newptr oldptr oldsize h))

def calloc (fuel : ℕ) (answer : Answer) (nmemb size : ℕ) (h : Heap) : Option (ℕ × Heap) :=
  let size := size*nmemb%2^64
  (malloc fuel answer size h).map fun r => if r.1 ≠ 0 then (r.1, memset r.1 size r.2) else r

/-- A call of the program, with the answer of `sbrk` should it be asked. -/
inductive Call where
  | malloc (size : ℕ)
  | calloc (nmemb size : ℕ)
  | realloc (ptr size : ℕ)
  | free (ptr : ℕ)
deriving DecidableEq, Repr

def Call.run (fuel : ℕ) (answer : Answer) : Call → Heap → Option (ℕ × Heap)
  | .malloc size, h => HeapMachine.malloc fuel answer size h
  | .calloc nmemb size, h => HeapMachine.calloc fuel answer nmemb size h
  | .realloc ptr size, h => HeapMachine.realloc fuel answer ptr size h
  | .free ptr, h => some (0, HeapMachine.free ptr h)

end BabyOS.HeapMachine

import BabyOS.AtomicPrograms
import BabyOS.ByteWords
import BabyOS.FileTable

/-!
# The file system

Blocks, inodes, directories and the system calls on files, as programs of a
process. A process may be interrupted between any two accesses, which is more
often than the kernel lets it. The buffer cache is taken as a lock for each block
and the content that was last written to it; device files answer by themselves.
-/

set_option autoImplicit false

namespace BabyOS.FileSystem
open BabyOS.AtomicPrograms BabyOS.ByteWords BabyOS.FileTable

def blockSize : ℕ := 4096
def nDirect : ℕ := 12
def nIndirect : ℕ := 1024
def maxFileSize : ℕ := nDirect+nIndirect
def maxInodeCache : ℕ := 64
def maxPathLen : ℕ := 14
def inodesPerBlock : ℕ := 64
def bitsPerBlock : ℕ := blockSize*8
def entrySize : ℕ := 16
def rootDev : ℕ := 1
def rootInum : ℕ := 1
def superBlockLba : ℕ := 1
def inodeLba : ℕ := 2

def typeDir : BitVec 16 := 1
def typeFile : BitVec 16 := 2
def typeDev : BitVec 16 := 3

def modeRdonly : BitVec 32 := 0x1
def modeWronly : BitVec 32 := 0x2
def modeRdwr : BitVec 32 := 0x4
def modeCreate : BitVec 32 := 0x200

/-! ## Data -/

/-- A value kept in 32 bits. -/
@[irreducible] def uint32 (n : ℕ) : ℕ := n%2^32

theorem uint32_of_lt {n : ℕ} (h : n < 2^32) : uint32 n = n := by
  unfold uint32
  exact Nat.mod_eq_of_lt h

structure SuperBlock where
  size : ℕ
  nblocks : ℕ
  ninodes : ℕ

def superBlock (b : Bytes) : SuperBlock := ⟨word b 0 4, word b 4 4, word b 8 4⟩

/-- `m_addrs` ends with the indirect block, number `nDirect`. -/
structure DiskInode where
  type : BitVec 16
  major : BitVec 16
  minor : BitVec 16
  nlinks : BitVec 16
  size : BitVec 32
  addrs : ℕ → BitVec 32

/-- The record `k` of a block of inodes. -/
def diskInode (b : Bytes) (k : ℕ) : DiskInode where
  type := BitVec.ofNat 16 (word b (64*k) 2)
  major := BitVec.ofNat 16 (word b (64*k+2) 2)
  minor := BitVec.ofNat 16 (word b (64*k+4) 2)
  nlinks := BitVec.ofNat 16 (word b (64*k+6) 2)
  size := BitVec.ofNat 32 (word b (64*k+8) 4)
  addrs := fun j => if j ≤ nDirect then BitVec.ofNat 32 (word b (64*k+12+4*j) 4) else 0

def putDiskInode (k : ℕ) (x : DiskInode) (b : Bytes) : Bytes :=
  putArray (64*k+12) 4 (fun j => (x.addrs j).toNat) (nDirect+1)
    (putWord (64*k+8) 4 x.size.toNat (putWord (64*k+6) 2 x.nlinks.toNat
      (putWord (64*k+4) 2 x.minor.toNat (putWord (64*k+2) 2 x.major.toNat
        (putWord (64*k) 2 x.type.toNat b)))))

/-- `up` hands the unit to the first process that waits, which goes on later. -/
structure Semaphore where
  count : ℕ
  waiting : List ℕ
  granted : List ℕ
deriving DecidableEq

namespace Semaphore

def init (n : ℕ) : Semaphore := ⟨n, [], []⟩

/-- `down`, up to the sleep. -/
def down (p : ℕ) (x : Semaphore) : Semaphore :=
  if 0 < x.count then { x with count := x.count-1 } else { x with waiting := x.waiting ++ [p] }

def resume (p : ℕ) (x : Semaphore) : Semaphore := { x with granted := x.granted.erase p }

def up (x : Semaphore) : Semaphore :=
  match x.waiting with
  | [] => { x with count := x.count+1 }
  | p :: ps => { x with waiting := ps, granted := p :: x.granted }

end Semaphore

structure Inode extends DiskInode where
  dev : ℕ
  inum : ℕ
  ref : ℕ
  valid : Bool
  sem : Semaphore

/-- What `read` and `write` of a device answer; `none` is -1. -/
structure Device where
  read : ℕ → Option (List Byte)
  write : Bytes → ℕ → Option ℕ

/-- `overrun` tells what `strcmp` finds behind two names that fill their arrays. -/
structure Fs where
  disk : ℕ → Bytes
  buffers : ℕ → Semaphore
  inodes : ℕ → Inode
  files : System
  offsets : ℕ → ℕ
  cwd : ℕ → ℕ
  devices : BitVec 16 → Option Device
  overrun : ℕ → Bool
  overruns : ℕ

def Fs.setDisk (s : Fs) (n : ℕ) (b : Bytes) : Fs := { s with disk := Function.update s.disk n b }

def Fs.setBuffer (s : Fs) (n : ℕ) (x : Semaphore) : Fs :=
  { s with buffers := Function.update s.buffers n x }

def Fs.setInode (s : Fs) (i : ℕ) (x : Inode) : Fs :=
  { s with inodes := Function.update s.inodes i x }

/-- Places where the source takes a branch of interest. -/
inductive Branch
  | freed (lba : ℕ)
  | bitClear (n : ℕ)
  | indirect (n : ℕ)
  | unlocked (i : ℕ)
  | second (i j : ℕ)
  | linkExists (i : ℕ)
  | dead (i : ℕ)
  | full
deriving DecidableEq

/-- What an access does: a buffer or the lock of an inode is asked for, taken or given
back, a reference to an inode is taken, dropped, lost, given to a file or to the current
directory of the process, or taken back from there. -/
inductive Event
  | quiet
  | hold (n : ℕ)
  | write (n : ℕ)
  | release (n : ℕ)
  | ask (i : ℕ)
  | lock (i : ℕ)
  | unlock (i : ℕ)
  | take (i : ℕ)
  | fresh (i : ℕ)
  | drop (i : ℕ)
  | lose (i : ℕ)
  | keep (i : ℕ)
  | withdraw (e : FileTable.Event) (i : ℕ)
  | files (e : FileTable.Event)
  | leave (i : ℕ)
  | enter (i : ℕ)
  | retire (i : ℕ)
  | fork (i : ℕ)
  | claim (n : ℕ)
  | assign (i k : ℕ) (n : BitVec 32)
  | load (i : ℕ)
  | branch (b : Branch)
deriving DecidableEq

abbrev Prog := Program Fs Event

def look {α : Type} (f : Fs → α) : Prog α :=
  .access (fun _ => .quiet) (fun _ => true) id fun s => .done (f s)

def act (e : Event) (f : Fs → Fs) : Prog Unit :=
  .access (fun _ => e) (fun _ => true) f fun _ => .done ()

def mark (e : Event) : Prog Unit := act e id

/-- `f k`, `f (k+1)`, …, `n` of them. -/
def forFrom (f : ℕ → Prog Unit) : ℕ → ℕ → Prog Unit
  | 0, _ => pure ()
  | n+1, k => do
    f k
    forFrom f n (k+1)

/-! ## Blocks -/

def lockBuffer (p n : ℕ) : Prog Unit :=
  .access (fun _ => .hold n) (fun _ => true) (fun s => s.setBuffer n ((s.buffers n).down p)) fun s =>
    if 0 < (s.buffers n).count then .done ()
    else .access (fun _ => .quiet) (fun s => decide (p ∈ (s.buffers n).granted))
      (fun s => s.setBuffer n ((s.buffers n).resume p)) fun _ => .done ()

/-- `block_dev_t::read`. -/
def readBlock (p n : ℕ) : Prog Bytes := do
  lockBuffer p n
  look fun s => s.disk n

/-- `block_dev_t::write`. -/
def writeBlock (n : ℕ) (b : Bytes) : Prog Unit := act (.write n) fun s => s.setDisk n b

def releaseBlock (n : ℕ) : Prog Unit :=
  act (.release n) fun s => s.setBuffer n (s.buffers n).up

def readSuperBlock (p : ℕ) : Prog SuperBlock := do
  let b ← readBlock p superBlockLba
  releaseBlock superBlockLba
  pure (superBlock b)

def bitmapBlock (p : ℕ) : Prog ℕ := do
  let sb ← readSuperBlock p
  pure (3+sb.ninodes*64/blockSize)

def zeroBlock (p n : ℕ) : Prog Unit := do
  let b ← readBlock p n
  writeBlock n (paste 0 blockSize (fun _ => 0) 0 b)
  releaseBlock n

/-- The loop of `alloc_block` from bit `i` on, whose block is `index`. A loop that goes
round after `2^32` bits does not end. -/
def allocFrom (p : ℕ) (sb : SuperBlock) : ℕ → ℕ → ℕ → Prog ℕ
  | 0, _, _ => .stop
  | fuel+1, i, index =>
    if i < sb.nblocks then do
      let b ← readBlock p index
      let n := if uint32 (i+bitsPerBlock) > sb.nblocks then sb.nblocks-i else bitsPerBlock
      match firstClear b 0 n with
      | some k => do
        mark (.claim (i+k))
        writeBlock index (setBit k b)
        releaseBlock index
        zeroBlock p (i+k)
        pure (i+k)
      | none => do
        releaseBlock index
        allocFrom p sb fuel (uint32 (i+bitsPerBlock)) (index+1)
    else do
      mark (.branch .full)
      pure 0

def allocBlock (p : ℕ) : Prog ℕ := do
  let sb ← readSuperBlock p
  let index ← bitmapBlock p
  allocFrom p sb (2^17+1) 0 index

/-- A clear bit ends it without a release. -/
def freeBlock (p lba : ℕ) : Prog Unit := do
  mark (.branch (.freed lba))
  let index ← bitmapBlock p
  let n := index+lba/bitsPerBlock
  let b ← readBlock p n
  if bit b (lba%bitsPerBlock) = false then mark (.branch (.bitClear n))
  else do
    writeBlock n (clearBit (lba%bitsPerBlock) b)
    releaseBlock n

/-! ## Inodes -/

def Inode.setAddr (x : Inode) (k : ℕ) (n : BitVec 32) : Inode :=
  { x with addrs := Function.update x.addrs k n }

def Fs.setAddr (s : Fs) (i k : ℕ) (n : BitVec 32) : Fs := s.setInode i ((s.inodes i).setAddr k n)

/-- `m_addrs[k]`, after a block was allocated for it if there was none. -/
def addrOf (p i k : ℕ) : Prog (BitVec 32) := do
  let a ← look fun s => (s.inodes i).addrs k
  if a = 0 then do
    let n ← allocBlock p
    act (.assign i k (BitVec.ofNat 32 n)) fun s => s.setAddr i k (BitVec.ofNat 32 n)
  look fun s => (s.inodes i).addrs k

def blockMap (p i block : ℕ) : Prog (BitVec 32) :=
  if block < nDirect then addrOf p i block
  else do
    let a ← addrOf p i nDirect
    mark (.branch (.indirect a.toNat))
    let b ← readBlock p a.toNat
    let lba := word b (4*(block-nDirect)) 4
    if lba = 0 then do
      let n ← allocBlock p
      writeBlock a.toNat (putWord (4*(block-nDirect)) 4 n b)
      releaseBlock a.toNat
      pure (BitVec.ofNat 32 n)
    else do
      releaseBlock a.toNat
      pure (BitVec.ofNat 32 lba)

/-- The semaphore of an inode; `.ask` is a request that has to wait. -/
def lockInode (p i : ℕ) : Prog Unit :=
  .access (fun s => if 0 < (s.inodes i).sem.count then .lock i else .ask i) (fun _ => true)
    (fun s => s.setInode i { s.inodes i with sem := (s.inodes i).sem.down p }) fun s =>
    if 0 < (s.inodes i).sem.count then .done ()
    else .access (fun _ => .lock i) (fun s => decide (p ∈ (s.inodes i).sem.granted))
      (fun s => s.setInode i { s.inodes i with sem := (s.inodes i).sem.resume p }) fun _ => .done ()

def unlockInode (i : ℕ) : Prog Unit :=
  act (.unlock i) fun s => s.setInode i { s.inodes i with sem := (s.inodes i).sem.up }

def Fs.cached (s : Fs) (dev inum : ℕ) : Option ℕ :=
  (List.range maxInodeCache).find? fun i =>
    0 < (s.inodes i).ref ∧ (s.inodes i).dev = dev ∧ (s.inodes i).inum = inum

def Fs.empty (s : Fs) : Option ℕ :=
  (List.range maxInodeCache).find? fun i => (s.inodes i).ref = 0

def Inode.reset (x : Inode) (dev inum : ℕ) : Inode :=
  { x with dev, inum, ref := 1, valid := false, sem := .init 1, size := 0, addrs := fun _ => 0 }

def getInode (dev inum : ℕ) : Prog (Option ℕ) :=
  .access
    (fun s => match s.cached dev inum, s.empty with
      | some i, _ => .take i
      | none, some i => .fresh i
      | none, none => .quiet)
    (fun _ => true)
    (fun s => match s.cached dev inum, s.empty with
      | some i, _ => s.setInode i { s.inodes i with ref := (s.inodes i).ref+1 }
      | none, some i => s.setInode i ((s.inodes i).reset dev inum)
      | none, none => s)
    fun s => .done (match s.cached dev inum with
      | some i => some i
      | none => s.empty)

/-- `dup_inode` of the current directory. -/
def dupCwd (p : ℕ) : Prog ℕ :=
  .access (fun s => .take (s.cwd p)) (fun _ => true)
    (fun s => s.setInode (s.cwd p) { s.inodes (s.cwd p) with ref := (s.inodes (s.cwd p)).ref+1 })
    fun s => .done (s.cwd p)

def readFromDisk (p i id : ℕ) : Prog Unit := do
  if ← look fun s => (s.inodes i).valid then pure ()
  else do
    let n := inodeLba+id/inodesPerBlock
    let b ← readBlock p n
    releaseBlock n
    act (.load i) fun s => s.setInode i
      { s.inodes i with toDiskInode := diskInode b (id%inodesPerBlock), valid := true }

def writeToDisk (p i : ℕ) : Prog Unit := do
  let inum ← look fun s => (s.inodes i).inum
  let n := inum/inodesPerBlock+2
  let b ← readBlock p n
  let x ← look fun s => (s.inodes i).toDiskInode
  writeBlock n (putDiskInode (inum%inodesPerBlock) x b)
  releaseBlock n

/-- A round of the loop over the direct blocks. -/
def freeDirect (p i k : ℕ) : Prog Unit := do
  let a ← look fun s => (s.inodes i).addrs k
  if a = 0 then pure ()
  else do
    freeBlock p a.toNat
    act .quiet fun s => s.setAddr i k 0

/-- The indirect block: every entry is freed, also one that is zero. -/
def freeIndirect (p i : ℕ) : Prog Unit := do
  let a ← look fun s => (s.inodes i).addrs nDirect
  if a = 0 then pure ()
  else do
    mark (.branch (.indirect a.toNat))
    let b ← readBlock p a.toNat
    forFrom (fun k => freeBlock p (word b (4*k) 4)) nIndirect 0
    writeBlock a.toNat (putArray 0 4 (fun _ => 0) nIndirect b)
    releaseBlock a.toNat
    let a ← look fun s => (s.inodes i).addrs nDirect
    freeBlock p a.toNat
    act .quiet fun s => s.setAddr i nDirect 0

def putInode (p i : ℕ) : Prog Unit := do
  lockInode p i
  let x ← look fun s => s.inodes i
  if x.valid ∧ x.nlinks = 0 ∧ x.ref = 1 then do
    act .quiet fun s => s.setInode i { s.inodes i with type := 0 }
    forFrom (freeDirect p i) nDirect 0
    freeIndirect p i
    act .quiet fun s => s.setInode i { s.inodes i with size := 0 }
    writeToDisk p i
    act .quiet fun s => s.setInode i { s.inodes i with valid := false }
  unlockInode i
  act (.drop i) fun s => s.setInode i { s.inodes i with ref := (s.inodes i).ref-1 }

/-- The loop of `alloc_inode` over the inodes from `i` on. -/
def allocInodeFrom (p dev : ℕ) (type : BitVec 16) : ℕ → ℕ → Prog (Option ℕ)
  | 0, _ => pure none
  | k+1, i => do
    let n := 2+i/inodesPerBlock
    let b ← readBlock p n
    if (diskInode b (i%inodesPerBlock)).type = 0 then do
      writeBlock n (putDiskInode (i%inodesPerBlock) ⟨type, 0, 0, 0, 0, fun _ => 0⟩ b)
      releaseBlock n
      getInode dev i
    else do
      releaseBlock n
      allocInodeFrom p dev type k (i+1)

def allocInode (p dev : ℕ) (type : BitVec 16) : Prog (Option ℕ) := do
  let sb ← readSuperBlock p
  allocInodeFrom p dev type (sb.ninodes-1) 1

/-! ## Contents -/

/-- The loop of `read_inode`: `left` bytes from `off` on. A round reads at least one byte. -/
def readLoop (p i : ℕ) : ℕ → ℕ → ℕ → List Byte → Prog (List Byte)
  | 0, _, _, read => pure read
  | fuel+1, off, left, read =>
    if 0 < left then do
      let lba ← blockMap p i (off/blockSize)
      let b ← readBlock p lba.toNat
      let n := min (blockSize-off%blockSize) left
      releaseBlock lba.toNat
      readLoop p i fuel (off+n) (left-n) (read ++ slice b (off%blockSize) n)
    else pure read

def readInode (p i off size : ℕ) : Prog (Option (List Byte)) := do
  let x ← look fun s => s.inodes i
  if x.type = typeDev then look fun s => (s.devices x.major).bind fun d => d.read size
  else if off > x.size.toNat then pure none
  else do
    let size := if off+size > x.size.toNat then x.size.toNat-off else size
    let read ← readLoop p i size off size []
    pure (some read)

/-- The loop of `write_inode`; `k` bytes of the data are written. -/
def writeLoop (p i : ℕ) (data : Bytes) : ℕ → ℕ → ℕ → ℕ → Prog ℕ
  | 0, _, _, k => pure k
  | fuel+1, off, left, k =>
    if 0 < left then do
      let lba ← blockMap p i (off/blockSize)
      let b ← readBlock p lba.toNat
      let n := min (blockSize-off%blockSize) left
      writeBlock lba.toNat (paste (off%blockSize) n data k b)
      releaseBlock lba.toNat
      writeLoop p i data fuel (off+n) (left-n) (k+n)
    else pure k

def writeInode (p i : ℕ) (data : Bytes) (off size : ℕ) : Prog (Option ℕ) := do
  let x ← look fun s => s.inodes i
  if x.type = typeDev then look fun s => (s.devices x.major).bind fun d => d.write data size
  else if off > x.size.toNat then pure none
  else if off+size > maxFileSize*blockSize then pure none
  else do
    let total ← writeLoop p i data size off size 0
    let x ← look fun s => s.inodes i
    if total > 0 ∧ off+total > x.size.toNat then do
      act .quiet fun s => s.setInode i { s.inodes i with size := BitVec.ofNat 32 (off+total) }
      writeToDisk p i
    pure (some total)

/-! ## Directories -/

def dot : Byte := 0x2e
def slash : Byte := 0x2f

/-- The number and the name of an entry; the name ends with its first zero. -/
def entryInum (e : List Byte) : ℕ := word (fun j => e.getD j 0) 0 2

def entryName (e : List Byte) : List Byte := ((e.drop 2).take maxPathLen).takeWhile (· ≠ 0)

def entryBytes (inum : ℕ) (name : List Byte) : Bytes :=
  putWord 0 2 inum fun j => if 2 ≤ j ∧ j < 2+maxPathLen then name.getD (j-2) 0 else 0

/-- `strcmp(name, dir.m_name) == 0`. -/
def sameName (name name' : List Byte) : Prog Bool :=
  .access (fun _ => .quiet) (fun _ => true)
    (fun s => if name = name' ∧ name.length = maxPathLen then { s with overruns := s.overruns+1 } else s)
    fun s => .done (decide (name = name') && (decide (name.length ≠ maxPathLen) || s.overrun s.overruns))

/-- The loop of `dir_lookup` from `off` on: the inode, with a reference, and the offset
of its entry. Without a free inode `read_from_disk` is called on no object. -/
def dirLookupFrom (p i : ℕ) (name : List Byte) : ℕ → ℕ → Prog (Option (ℕ × ℕ))
  | 0, _ => .stop
  | fuel+1, off => do
    let e ← readInode p i off entrySize
    match e with
    | none => pure none
    | some e =>
      if e.length = entrySize then do
        let found ← if entryInum e ≠ 0 then sameName name (entryName e) else pure false
        if found then do
          let dev ← look fun s => (s.inodes i).dev
          match ← getInode dev (entryInum e) with
          | none => .stop
          | some j => do
            readFromDisk p j (entryInum e)
            pure (some (j, off))
        else dirLookupFrom p i name fuel (off+entrySize)
      else pure none

def dirLookup (p i : ℕ) (name : List Byte) : Prog (Option (ℕ × ℕ)) :=
  dirLookupFrom p i name (2^28) 0

/-- What is left of the path and the next name, cut to its first `maxPathLen` bytes. -/
def skipElem (path : List Byte) : Option (List Byte × List Byte) :=
  let path := path.dropWhile (· = slash)
  if path = [] then none
  else some ((path.dropWhile (· ≠ slash)).dropWhile (· = slash),
    (path.takeWhile (· ≠ slash)).take maxPathLen)

/-- The loop of `namei`. -/
def nameiFrom (p : ℕ) (parent : Bool) :
    ℕ → ℕ → List Byte → List Byte → Prog (Option (ℕ × List Byte))
  | 0, _, _, _ => .stop
  | fuel+1, i, path, name =>
    match skipElem path with
    | none =>
      if parent then do
        putInode p i
        pure none
      else pure (some (i, name))
    | some (path, name) => do
      lockInode p i
      let type ← look fun s => (s.inodes i).type
      if type ≠ typeDir then do
        unlockInode i
        putInode p i
        pure none
      else if parent ∧ path = [] then do
        unlockInode i
        pure (some (i, name))
      else match ← dirLookup p i name with
        | none => do
          unlockInode i
          putInode p i
          pure none
        | some (next, _) => do
          unlockInode i
          putInode p i
          nameiFrom p parent fuel next path name

/-- The inode, with a reference, and the last name. A path ends with its first zero. -/
def namei (p : ℕ) (path : List Byte) (parent : Bool) : Prog (Option (ℕ × List Byte)) := do
  let path := path.takeWhile (· ≠ 0)
  let first ← if path.head? = some slash then getInode rootDev rootInum
    else do
      let i ← dupCwd p
      pure (some i)
  match first with
  | none => .stop
  | some i => nameiFrom p parent (path.length+1) i path []

/-- The loop of `dir_link` that looks for an entry which is not in use. -/
def freeEntryFrom (p i : ℕ) : ℕ → ℕ → Prog (Option ℕ)
  | 0, _ => .stop
  | fuel+1, off => do
    let size ← look fun s => (s.inodes i).size
    if off < size.toNat then
      match ← readInode p i off entrySize with
      | none => pure none
      | some e =>
        if e.length = entrySize then
          if entryInum e = 0 then pure (some off) else freeEntryFrom p i fuel (off+entrySize)
        else pure none
    else pure (some off)

/-- `false` is the result -1. -/
def dirLink (p i : ℕ) (name : List Byte) (inum : ℕ) : Prog Bool := do
  match ← dirLookup p i name with
  | some _ => do
    mark (.branch (.linkExists i))
    putInode p i
    pure false
  | none =>
    match ← freeEntryFrom p i (2^28+1) 0 with
    | none => pure false
    | some off => do
      let _ ← writeInode p i (entryBytes inum name) off entrySize
      pure true

/-- The new inode is returned locked. -/
def create (p : ℕ) (path : List Byte) (type major minor : BitVec 16) : Prog (Option ℕ) := do
  match ← namei p path true with
  | none => pure none
  | some (d, name) => do
    lockInode p d
    match ← dirLookup p d name with
    | some (i, _) => do
      unlockInode d
      putInode p d
      lockInode p i
      let found ← look fun s => (s.inodes i).type
      if found = typeFile ∧ type = typeFile then pure (some i)
      else do
        unlockInode i
        putInode p i
        pure none
    | none => do
      let dev ← look fun s => (s.inodes d).dev
      match ← allocInode p dev type with
      | none => do
        unlockInode d
        mark (.lose d)
        pure none
      | some i => do
        mark (.branch (.second d i))
        lockInode p i
        act .quiet fun s => s.setInode i { s.inodes i with major, minor, nlinks := 1, type }
        writeToDisk p i
        let inum ← look fun s => (s.inodes i).inum
        let linked ← if type = typeDir then do
            act .quiet fun s => s.setInode d { s.inodes d with nlinks := (s.inodes d).nlinks+1 }
            writeToDisk p d
            if ← dirLink p i [dot] inum then dirLink p i [dot, dot] inum else pure false
          else pure true
        if linked then do
          let _ ← dirLink p d name inum
          unlockInode d
          putInode p d
          pure (some i)
        else do
          unlockInode i
          unlockInode d
          mark (.lose i)
          mark (.lose d)
          pure none

/-! ## System calls -/

inductive Answer
  | failed
  | ok
  | number (n : ℕ)
  | data (l : List Byte)
deriving DecidableEq

/-- The slot, the descriptor and the start of the offset. Nothing sleeps from here to the
end of `do_open`, so `unlock` may stand before it. -/
def openFile (p i : ℕ) (refused readable writeable : Bool) : Prog Answer :=
  .access
    (fun s => match s.files.doOpen p i refused readable writeable with
      | some ⟨_ :: _, _, _⟩ => .keep i
      | _ => .lose i)
    (fun s => (s.files.doOpen p i refused readable writeable).isSome)
    (fun s => match s.files.doOpen p i refused readable writeable with
      | some ⟨f :: _, _, files⟩ => { s with files, offsets := Function.update s.offsets f 0 }
      | some ⟨[], _, files⟩ => { s with files }
      | none => s)
    fun s => .done (match s.files.doOpen p i refused readable writeable with
      | some ⟨_ :: _, _, _⟩ =>
        match (s.files.procs p).allocFd 0 with
        | some (fd, _) => .number fd
        | none => .failed
      | _ => .failed)

def doOpen (p : ℕ) (path : List Byte) (mode : BitVec 32) : Prog Answer := do
  let found ← if mode &&& modeCreate ≠ 0 then create p path typeFile 0 0
    else do
      match ← namei p path false with
      | none => pure none
      | some (i, _) => do
        mark (.branch (.unlocked i))
        pure (some i)
  match found with
  | none => pure .failed
  | some i => do
    let type ← look fun s => (s.inodes i).type
    unlockInode i
    openFile p i (type = typeDir ∧ mode ≠ modeRdonly) (mode &&& modeWronly = 0)
      (mode &&& modeWronly ≠ 0 ∨ mode &&& modeRdwr ≠ 0)

/-- The inode of the slot that a step has released. -/
def releasedInode (s : System) : System.Result → Option ℕ
  | ⟨_, [f], _⟩ => if (s.table f).type = .inode then (s.table f).inode else none
  | _ => none

/-- A step of the file table that may release a slot, and `put_inode` of its inode. -/
def closeStep (p : ℕ) (e : FileTable.Event) : Prog Unit :=
  .access
    (fun s => match (perform s.files e).bind (releasedInode s.files) with
      | some i => .withdraw e i
      | none => .files e)
    (fun s => (perform s.files e).isSome)
    (fun s => match perform s.files e with
      | some r => { s with files := r.state }
      | none => s)
    fun s => match (perform s.files e).bind (releasedInode s.files) with
      | some i => putInode p i
      | none => .done ()

def doClose (p : ℕ) (fd : ℤ) : Prog Answer := do
  closeStep p (.doClose p fd)
  pure .ok

/-- The slot of a descriptor. -/
def Fs.file (s : Fs) (p : ℕ) (fd : ℤ) : Option (ℕ × File) :=
  ((s.files.procs p).getFile fd).map fun f => (f, s.files.table f)

/-- Pipes and sockets have their own `read` and `write`. -/
def doRead (p : ℕ) (fd : ℤ) (count : ℕ) : Prog Answer := do
  match ← look fun s => s.file p fd with
  | none => pure .failed
  | some (f, file) =>
    match file.readable, file.type, file.inode with
    | true, .inode, some i => do
      let off ← look fun s => s.offsets f
      match ← readInode p i off count with
      | none => pure .failed
      | some l => do
        if l ≠ [] then
          act .quiet fun s => { s with
            offsets := Function.update s.offsets f (uint32 (s.offsets f+l.length)) }
        pure (.data l)
    | _, _, _ => pure .failed

def doWrite (p : ℕ) (fd : ℤ) (data : Bytes) (count : ℕ) : Prog Answer := do
  match ← look fun s => s.file p fd with
  | none => pure .failed
  | some (f, file) =>
    match file.writeable, file.type, file.inode with
    | true, .inode, some i => do
      let off ← look fun s => s.offsets f
      match ← writeInode p i data off count with
      | none => pure .failed
      | some n => do
        if n > 0 then
          act .quiet fun s => { s with
            offsets := Function.update s.offsets f (uint32 (s.offsets f+n)) }
        pure (.number n)
    | _, _, _ => pure .failed

/-- `create` for a directory or a device. -/
def make (p : ℕ) (path : List Byte) (type major minor : BitVec 16) : Prog Answer := do
  match ← create p path type major minor with
  | none => pure .failed
  | some i => do
    unlockInode i
    putInode p i
    pure .ok

def doMkdir (p : ℕ) (path : List Byte) : Prog Answer := make p path typeDir 0 0

def doMknod (p : ℕ) (path : List Byte) (major minor : ℕ) : Prog Answer :=
  make p path typeDev (BitVec.ofNat 16 major) (BitVec.ofNat 16 minor)

/-- The label `failed` of `do_link`. -/
def linkFailed (p i : ℕ) : Prog Answer := do
  lockInode p i
  act .quiet fun s => s.setInode i { s.inodes i with nlinks := (s.inodes i).nlinks-1 }
  writeToDisk p i
  unlockInode i
  mark (.lose i)
  pure .failed

def doLink (p : ℕ) (old new : List Byte) : Prog Answer := do
  match ← namei p old false with
  | none => pure .failed
  | some (i, _) => do
    lockInode p i
    let type ← look fun s => (s.inodes i).type
    if type = typeDir then do
      unlockInode i
      putInode p i
      pure .failed
    else do
      act .quiet fun s => s.setInode i { s.inodes i with nlinks := (s.inodes i).nlinks+1 }
      writeToDisk p i
      unlockInode i
      match ← namei p new true with
      | none => linkFailed p i
      | some (d, name) => do
        lockInode p d
        let other ← look fun s => decide ((s.inodes d).dev ≠ (s.inodes i).dev)
        let inum ← look fun s => (s.inodes i).inum
        let linked ← if other then pure false else dirLink p d name inum
        unlockInode d
        putInode p d
        if linked then do
          putInode p i
          pure .ok
        else linkFailed p i

/-- The loop of `dir_empty`. -/
def dirEmptyFrom (p i : ℕ) : ℕ → ℕ → Prog Bool
  | 0, _ => .stop
  | fuel+1, off => do
    let size ← look fun s => (s.inodes i).size
    if off < size.toNat then
      match ← readInode p i off entrySize with
      | none => .stop
      | some e =>
        if e.length = entrySize then
          if entryInum e = 0 then dirEmptyFrom p i fuel (off+entrySize) else pure false
        else .stop
    else pure true

def dirEmpty (p i : ℕ) : Prog Bool := dirEmptyFrom p i (2^28+1) (2*entrySize)

/-- The label `failed` of `do_unlink`. -/
def unlinkFailed (p d : ℕ) : Prog Answer := do
  unlockInode d
  putInode p d
  pure .failed

def doUnlink (p : ℕ) (path : List Byte) : Prog Answer := do
  match ← namei p path true with
  | none => pure .failed
  | some (d, name) => do
    lockInode p d
    if name = [dot] ∨ name = [dot, dot] then unlinkFailed p d
    else match ← dirLookup p d name with
      | none => unlinkFailed p d
      | some (i, off) => do
        mark (.branch (.second d i))
        lockInode p i
        let x ← look fun s => s.inodes i
        if x.nlinks.toNat < 1 then do
          mark (.branch (.dead i))
          mark (.lose i)
          unlinkFailed p d
        else do
          let full ← if x.type = typeDir then do
              let empty ← dirEmpty p i
              pure !empty
            else pure false
          if full then do
            unlockInode i
            putInode p i
            unlinkFailed p d
          else do
            let _ ← writeInode p d (fun _ => 0) off entrySize
            let type ← look fun s => (s.inodes i).type
            if type = typeDir then do
              act .quiet fun s => s.setInode d { s.inodes d with nlinks := (s.inodes d).nlinks-1 }
              writeToDisk p d
            unlockInode d
            putInode p d
            act .quiet fun s => s.setInode i { s.inodes i with nlinks := (s.inodes i).nlinks-1 }
            writeToDisk p i
            unlockInode i
            putInode p i
            pure .ok

def doDup (p : ℕ) (fd : ℤ) : Prog Answer := do
  let free ← look fun s => ((s.files.procs p).getFile fd).bind (s.files.procs p).allocFd
  closeStep p (.doDup p fd)
  pure (if free.isSome then .ok else .failed)

def leaveCwd (p : ℕ) : Prog ℕ :=
  .access (fun s => .leave (s.cwd p)) (fun _ => true) id fun s => .done (s.cwd p)

def doChdir (p : ℕ) (path : List Byte) : Prog Answer := do
  match ← namei p path false with
  | none => pure .failed
  | some (i, _) => do
    mark (.branch (.unlocked i))
    let type ← look fun s => (s.inodes i).type
    unlockInode i
    if type ≠ typeDir then do
      putInode p i
      pure .failed
    else do
      let old ← leaveCwd p
      putInode p old
      act (.enter i) fun s => { s with cwd := Function.update s.cwd p i }
      pure .ok

/-- `copy_files` for the new process. -/
def fork (p : ℕ) : Prog Answer :=
  .access (fun s => .fork (s.cwd p)) (fun s => (s.files.fork p).isSome)
    (fun s => match s.files.fork p with
      | some r => { s.setInode (s.cwd p) { s.inodes (s.cwd p) with ref := (s.inodes (s.cwd p)).ref+1 } with
          files := r.state
          cwd := Function.update s.cwd s.files.count (s.cwd p) }
      | none => s)
    fun _ => .done .ok

/-- The process is exiting, and gives up its directory. -/
def retire (p : ℕ) : Prog ℕ :=
  .access (fun s => .retire (s.cwd p)) (fun s => (perform s.files (.exit p)).isSome)
    (fun s => match perform s.files (.exit p) with
      | some r => { s with files := r.state }
      | none => s)
    fun s => .done (s.cwd p)

/-- `close_all_files` in `exit`. -/
def exit (p : ℕ) : Prog Answer := do
  let i ← retire p
  putInode p i
  forFrom (fun k => closeStep p (.exitClose p k)) maxOpenFile 0
  closeStep p (.exited p)
  pure .ok

inductive Call
  | doOpen (path : List Byte) (mode : BitVec 32)
  | doClose (fd : ℤ)
  | doRead (fd : ℤ) (count : ℕ)
  | doWrite (fd : ℤ) (data : Bytes) (count : ℕ)
  | doMkdir (path : List Byte)
  | doMknod (path : List Byte) (major minor : ℕ)
  | doLink (old new : List Byte)
  | doUnlink (path : List Byte)
  | doDup (fd : ℤ)
  | doChdir (path : List Byte)
  | fork
  | exit

def program (p : ℕ) : Call → Prog Answer
  | .doOpen path mode => doOpen p path mode
  | .doClose fd => doClose p fd
  | .doRead fd count => doRead p fd count
  | .doWrite fd data count => doWrite p fd data count
  | .doMkdir path => doMkdir p path
  | .doMknod path major minor => doMknod p path major minor
  | .doLink old new => doLink p old new
  | .doUnlink path => doUnlink p path
  | .doDup fd => doDup p fd
  | .doChdir path => doChdir p path
  | .fork => fork p
  | .exit => exit p

end BabyOS.FileSystem

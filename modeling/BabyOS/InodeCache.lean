import BabyOS.FileSystem

/-!
# The inode cache

The functions on inodes between the places where a process can sleep: an access is what
a process does without sleeping. The inodes on the disk, the bitmap, the indirect blocks
and the directories are kept apart from each other, and the contents of files are left
out. A process that waits for a buffer or a semaphore goes on when it is free.
-/

set_option autoImplicit false

namespace BabyOS.InodeCache
open BabyOS.AtomicPrograms BabyOS.ByteWords
open BabyOS.FileSystem (DiskInode nDirect nIndirect maxFileSize blockSize maxInodeCache maxPathLen
  inodesPerBlock entrySize rootDev rootInum inodeLba typeDir typeFile typeDev modeRdonly modeCreate dot
  slash skipElem)

/-! ## Data -/

/-- `units` is the count of the semaphore. -/
structure Inode extends DiskInode where
  dev : ℕ
  inum : ℕ
  ref : ℕ
  valid : Bool
  units : ℕ

/-- `records` are the inodes on the disk, `tables` the indirect blocks, `entries` the
directories, each by its number; `opened` are the inodes behind the descriptors. -/
structure Cache where
  procs : ℕ
  inodes : ℕ → Inode
  records : ℕ → DiskInode
  holder : ℕ → Option ℕ
  bits : ℕ → Bool
  tables : ℕ → ℕ → BitVec 32
  tableHolder : ℕ → Option ℕ
  entries : ℕ → ℕ → ℕ × List Byte
  opened : ℕ → List ℕ
  cwd : ℕ → ℕ
  ninodes : ℕ
  nblocks : ℕ

/-- The block of an inode. -/
def inodeBlock (id : ℕ) : ℕ := inodeLba+id/inodesPerBlock

def Inode.reset (x : Inode) (dev inum : ℕ) : Inode :=
  { x with dev, inum, ref := 1, valid := false, units := 1, size := 0, addrs := fun _ => 0 }

def Inode.setAddr (x : Inode) (k : ℕ) (b : BitVec 32) : Inode :=
  { x with addrs := Function.update x.addrs k b }

/-- What is read from the disk. -/
def Inode.read (x : Inode) (y : DiskInode) : Inode := { x with toDiskInode := y, valid := true }

/-- The semaphore and the count at the end of `put_inode`. -/
def Inode.put (x : Inode) : Inode := { x with units := x.units+1, ref := x.ref-1 }

def Cache.setInode (s : Cache) (i : ℕ) (x : Inode) : Cache :=
  { s with inodes := Function.update s.inodes i x }

def Cache.setRecord (s : Cache) (id : ℕ) (x : DiskInode) : Cache :=
  { s with records := Function.update s.records id x }

def Cache.setHolder (s : Cache) (n : ℕ) (o : Option ℕ) : Cache :=
  { s with holder := Function.update s.holder n o }

/-! ## Accesses -/

/-- Why `get_inode` or `dup_inode` is called. -/
inductive Origin
  | root
  | cwd
  | entry (d k : ℕ)
  | alloc
deriving DecidableEq

/-- What a process does without sleeping. `put` and `erase` are the two ends of `put_inode`,
`make` is the record that `alloc_inode` writes; `fill` and `assign` are `block_map` in
`read_inode` and in `write_inode`; `start` and `settle` mark a `write_inode`, `loaded` an inode
that need not be read. -/
inductive Action
  | quiet
  | hold (n : ℕ)
  | holdInode (i n : ℕ)
  | release (n : ℕ)
  | holdTable (a : ℕ)
  | releaseTable (a : ℕ)
  | lock (i : ℕ)
  | unlock (i : ℕ)
  | take (i inum : ℕ) (o : Origin)
  | fresh (i dev inum : ℕ) (o : Origin)
  | full (o : Origin)
  | put (i : ℕ)
  | clear (i : ℕ)
  | free (b : ℕ)
  | forget (i k : ℕ)
  | wipe (a : ℕ)
  | shrink (i : ℕ)
  | erase (i : ℕ)
  | save (i : ℕ)
  | load (i id : ℕ)
  | loaded (i : ℕ)
  | make (id : ℕ) (type : BitVec 16)
  | claim (i b : ℕ)
  | zero (b : ℕ)
  | fill (i k : ℕ) (b : BitVec 32)
  | assign (i k : ℕ) (b : BitVec 32)
  | entry (a k : ℕ) (b : BitVec 32)
  | start (i last : ℕ)
  | grow (i last : ℕ)
  | settle (i : ℕ)
  | links (i : ℕ) (n : BitVec 16)
  | init (i : ℕ) (type major minor : BitVec 16)
  | name (d k inum : ℕ) (text : List Byte)
  | keep (i : ℕ)
  | lose (i : ℕ)
  | withdraw (i : ℕ)
  | linkExists (i : ℕ)
deriving DecidableEq

def Action.apply (p : ℕ) (e : Action) (s : Cache) : Cache :=
  match e with
  | .quiet | .full _ | .loaded _ | .start _ _ | .settle _ | .lose _ | .linkExists _ => s
  | .hold n | .holdInode _ n => s.setHolder n (some p)
  | .release n => s.setHolder n none
  | .holdTable a => { s with tableHolder := Function.update s.tableHolder a (some p) }
  | .releaseTable a => { s with tableHolder := Function.update s.tableHolder a none }
  | .lock i => s.setInode i { s.inodes i with units := (s.inodes i).units-1 }
  | .unlock i => s.setInode i { s.inodes i with units := (s.inodes i).units+1 }
  | .take i _ _ => s.setInode i { s.inodes i with ref := (s.inodes i).ref+1 }
  | .fresh i dev inum _ => s.setInode i ((s.inodes i).reset dev inum)
  | .put i => s.setInode i (s.inodes i).put
  | .clear i => s.setInode i { s.inodes i with type := 0 }
  | .free b => { s with bits := Function.update s.bits b false }
  | .forget i k => s.setInode i ((s.inodes i).setAddr k 0)
  | .wipe a | .zero a => { s with tables := Function.update s.tables a fun _ => 0 }
  | .shrink i => s.setInode i { s.inodes i with size := 0 }
  | .erase i => (s.setHolder (inodeBlock (s.inodes i).inum) none).setInode i
      { (s.inodes i).put with valid := false }
  | .save i => s.setRecord (s.inodes i).inum (s.inodes i).toDiskInode
  | .load i id => (s.setHolder (inodeBlock id) none).setInode i ((s.inodes i).read (s.records id))
  | .make id type => s.setRecord id ⟨type, 0, 0, 0, 0, fun _ => 0⟩
  | .claim _ b => { s with bits := Function.update s.bits b true }
  | .fill i k b | .assign i k b => s.setInode i ((s.inodes i).setAddr k b)
  | .entry a k b => { s with tables := Function.update s.tables a (Function.update (s.tables a) k b) }
  | .grow i last => s.setInode i { s.inodes i with size := BitVec.ofNat 32 last }
  | .links i n => s.setInode i { s.inodes i with nlinks := n }
  | .init i type major minor => s.setInode i { s.inodes i with major, minor, nlinks := 1, type }
  | .name d k inum text =>
    { s with entries := Function.update s.entries d (Function.update (s.entries d) k (inum, text)) }
  | .keep i => { s with opened := Function.update s.opened p (i :: s.opened p) }
  | .withdraw i => { s with opened := Function.update s.opened p ((s.opened p).erase i) }

abbrev Prog := Program Cache Action

/-- An access that is chosen by the state. -/
def choose {α : Type} (p : ℕ) (e : Cache → Action) (f : Cache → α) : Prog α :=
  .access e (fun _ => true) (fun s => (e s).apply p s) fun s => .done (f s)

def look {α : Type} (f : Cache → α) : Prog α := .access (fun _ => .quiet) (fun _ => true) id fun s => .done (f s)

def act (p : ℕ) (e : Action) : Prog Unit := choose p (fun _ => e) fun _ => ()

/-- `f k`, `f (k+1)`, …, `n` of them. -/
def forFrom (f : ℕ → Prog Unit) : ℕ → ℕ → Prog Unit
  | 0, _ => pure ()
  | n+1, k => do
    f k
    forFrom f n (k+1)

def wait (p : ℕ) (e : Action) (ready : Cache → Bool) : Prog Unit :=
  .access (fun _ => e) ready (e.apply p) fun _ => .done ()

/-- `block_dev_t::read` of a block of inodes. -/
def hold (p n : ℕ) : Prog Unit := wait p (.hold n) fun s => (s.holder n).isNone

def holdTable (p a : ℕ) : Prog Unit := wait p (.holdTable a) fun s => (s.tableHolder a).isNone

def lockInode (p i : ℕ) : Prog Unit := wait p (.lock i) fun s => decide (0 < (s.inodes i).units)

def unlockInode (p i : ℕ) : Prog Unit := act p (.unlock i)

/-! ## Blocks -/

def Cache.firstClear (s : Cache) : Option ℕ := (List.range s.nblocks).find? fun b => s.bits b = false

/-- A bit is found and set with the bitmap in hand; without one the result is 0. -/
def allocBlock (p i : ℕ) : Prog ℕ := do
  let found ← choose p (fun s => match s.firstClear with
    | some b => .claim i b
    | none => .quiet) fun s => s.firstClear
  match found with
  | some b => do
    act p (.zero b)
    pure b
  | none => pure 0

/-- `m_addrs[k]`; `assign` is the name of the access that sets it. -/
def addrOf (p i k : ℕ) (assign : ℕ → ℕ → BitVec 32 → Action) : Prog (BitVec 32) := do
  let a ← look fun s => (s.inodes i).addrs k
  if a = 0 then do
    let b ← allocBlock p i
    act p (assign i k (BitVec.ofNat 32 b))
  look fun s => (s.inodes i).addrs k

def blockMap (p i block : ℕ) (assign : ℕ → ℕ → BitVec 32 → Action) : Prog (BitVec 32) :=
  if block < nDirect then addrOf p i block assign
  else do
    let a ← addrOf p i nDirect assign
    holdTable p a.toNat
    let lba ← look fun s => s.tables a.toNat (block-nDirect)
    if lba = 0 then do
      let b ← allocBlock p i
      act p (.entry a.toNat (block-nDirect) (BitVec.ofNat 32 b))
      act p (.releaseTable a.toNat)
      pure (BitVec.ofNat 32 b)
    else do
      act p (.releaseTable a.toNat)
      pure lba

/-! ## Inodes -/

def Cache.cached (s : Cache) (dev inum : ℕ) : Option ℕ :=
  (List.range maxInodeCache).find? fun i =>
    0 < (s.inodes i).ref ∧ (s.inodes i).dev = dev ∧ (s.inodes i).inum = inum

def Cache.empty (s : Cache) : Option ℕ :=
  (List.range maxInodeCache).find? fun i => (s.inodes i).ref = 0

/-- What `get_inode` does. -/
def Cache.getting (s : Cache) (dev inum : ℕ) (o : Origin) : Action :=
  match s.cached dev inum, s.empty with
  | some i, _ => .take i inum o
  | none, some i => .fresh i dev inum o
  | none, none => .full o

/-- What `get_inode` returns. -/
def Cache.got (s : Cache) (dev inum : ℕ) : Option ℕ :=
  match s.cached dev inum with
  | some i => some i
  | none => s.empty

def getInode (p dev inum : ℕ) (o : Origin) : Prog (Option ℕ) :=
  choose p (fun s => s.getting dev inum o) fun s => s.got dev inum

/-- `dup_inode` of the current directory. -/
def dupCwd (p : ℕ) : Prog ℕ :=
  choose p (fun s => .take (s.cwd p) (s.inodes (s.cwd p)).inum .cwd) fun s => s.cwd p

/-- Nothing sleeps between the copy of the record and the end. -/
def readFromDisk (p i id : ℕ) : Prog Unit := do
  let valid ← choose p (fun s => if (s.inodes i).valid then .loaded i else .quiet) fun s => (s.inodes i).valid
  if valid then pure ()
  else do
    hold p (inodeBlock id)
    act p (.load i id)

/-- `write_to_disk` up to its `release_block`. -/
def saveInode (p i : ℕ) : Prog ℕ := do
  let n ← .access (fun s => .holdInode i (inodeBlock (s.inodes i).inum))
    (fun s => (s.holder (inodeBlock (s.inodes i).inum)).isNone)
    (fun s => (Action.holdInode i (inodeBlock (s.inodes i).inum)).apply p s)
    fun s => .done (inodeBlock (s.inodes i).inum)
  act p (.save i)
  pure n

def writeToDisk (p i : ℕ) : Prog Unit := do
  let n ← saveInode p i
  act p (.release n)

/-- A round of the loop over the direct blocks. -/
def freeDirect (p i k : ℕ) : Prog Unit := do
  let a ← look fun s => (s.inodes i).addrs k
  if a = 0 then pure ()
  else do
    act p (.free a.toNat)
    act p (.forget i k)

/-- An entry of the indirect block is freed, also one that is zero. -/
def freeEntry (p a k : ℕ) : Prog Unit := do
  let lba ← look fun s => s.tables a k
  act p (.free lba.toNat)

def freeIndirect (p i : ℕ) : Prog Unit := do
  let a ← look fun s => (s.inodes i).addrs nDirect
  if a = 0 then pure ()
  else do
    holdTable p a.toNat
    forFrom (freeEntry p a.toNat) nIndirect 0
    act p (.wipe a.toNat)
    act p (.releaseTable a.toNat)
    act p (.free a.toNat)
    act p (.forget i nDirect)

def Inode.last (x : Inode) : Bool := x.valid && x.nlinks = 0 && x.ref = 1

/-- Nothing sleeps between the test and the end when the inode stays, nor between the last
`release_block` and the end when it goes. -/
def putInode (p i : ℕ) : Prog Unit := do
  lockInode p i
  let freeing ← choose p (fun s => if (s.inodes i).last then .clear i else .put i) fun s => (s.inodes i).last
  if freeing then do
    forFrom (freeDirect p i) nDirect 0
    freeIndirect p i
    act p (.shrink i)
    let _ ← saveInode p i
    act p (.erase i)
  else pure ()

/-- The loop of `alloc_inode` over the inodes from `id` on. -/
def allocInodeFrom (p dev : ℕ) (type : BitVec 16) : ℕ → ℕ → Prog (Option ℕ)
  | 0, _ => pure none
  | k+1, id => do
    hold p (inodeBlock id)
    let free ← choose p (fun s => if (s.records id).type = 0 then .make id type else .quiet)
      fun s => decide ((s.records id).type = 0)
    if free then do
      act p (.release (inodeBlock id))
      getInode p dev id .alloc
    else do
      act p (.release (inodeBlock id))
      allocInodeFrom p dev type k (id+1)

def allocInode (p dev : ℕ) (type : BitVec 16) : Prog (Option ℕ) := do
  let n ← look fun s => s.ninodes
  allocInodeFrom p dev type (n-1) 1

/-- The number of links is changed and written to the disk. -/
def changeLinks (p i : ℕ) (change : BitVec 16 → BitVec 16) : Prog Unit := do
  choose p (fun s => .links i (change (s.inodes i).nlinks)) fun _ => ()
  writeToDisk p i

/-! ## Contents -/

/-- The loops of `read_inode` and `write_inode` over the blocks from `off` on; `piece` is
what is done to each block. -/
def blockLoop (p i : ℕ) (assign : ℕ → ℕ → BitVec 32 → Action) (piece : Action) : ℕ → ℕ → ℕ → Prog Unit
  | 0, _, _ => pure ()
  | fuel+1, off, left =>
    if 0 < left then do
      let _ ← blockMap p i (off/blockSize) assign
      act p piece
      let n := min (blockSize-off%blockSize) left
      blockLoop p i assign piece fuel (off+n) (left-n)
    else pure ()

/-- The number of bytes; devices answer by themselves. -/
def readInode (p i off size : ℕ) : Prog (Option ℕ) := do
  let x ← look fun s => s.inodes i
  if x.type = typeDev then pure none
  else if off > x.size.toNat then pure none
  else do
    let size := if off+size > x.size.toNat then x.size.toNat-off else size
    blockLoop p i .fill .quiet size off size
    pure (some size)

def writeInode (p i off size : ℕ) (piece : Action) : Prog (Option ℕ) := do
  let x ← look fun s => s.inodes i
  if x.type = typeDev then pure none
  else if off > x.size.toNat then pure none
  else if off+size > maxFileSize*blockSize then pure none
  else do
    act p (.start i (off+size))
    blockLoop p i .assign piece size off size
    let grown ← choose p (fun s =>
        if 0 < size ∧ off+size > (s.inodes i).size.toNat then .grow i (off+size) else .settle i)
      fun s => decide (0 < size ∧ off+size > (s.inodes i).size.toNat)
    if grown then writeToDisk p i
    pure (some size)

/-! ## Directories -/

/-- The entry is read, compared, and its inode taken. -/
def takeEntry (p i k : ℕ) (name : List Byte) : Prog (Option (ℕ × Option ℕ)) :=
  choose p (fun s =>
      if (s.entries (s.inodes i).inum k).1 ≠ 0 ∧ (s.entries (s.inodes i).inum k).2 = name then
        s.getting (s.inodes i).dev (s.entries (s.inodes i).inum k).1 (.entry i k)
      else .quiet)
    fun s =>
      if (s.entries (s.inodes i).inum k).1 ≠ 0 ∧ (s.entries (s.inodes i).inum k).2 = name then
        some ((s.entries (s.inodes i).inum k).1, s.got (s.inodes i).dev (s.entries (s.inodes i).inum k).1)
      else none

/-- The loop of `dir_lookup` from entry `k` on. Without a free inode `read_from_disk` is
called on no object. -/
def dirLookupFrom (p i : ℕ) (name : List Byte) : ℕ → ℕ → Prog (Option (ℕ × ℕ))
  | 0, _ => .stop
  | fuel+1, k => do
    let n ← readInode p i (entrySize*k) entrySize
    if n = some entrySize then
      match ← takeEntry p i k name with
      | none => dirLookupFrom p i name fuel (k+1)
      | some (_, none) => .stop
      | some (id, some j) => do
        readFromDisk p j id
        pure (some (j, k))
    else pure none

def dirLookup (p i : ℕ) (name : List Byte) : Prog (Option (ℕ × ℕ)) := dirLookupFrom p i name (2^28) 0

/-- The loop of `namei`. -/
def nameiFrom (p : ℕ) (parent : Bool) : ℕ → ℕ → List Byte → List Byte → Prog (Option (ℕ × List Byte))
  | 0, _, _, _ => .stop
  | fuel+1, i, path, name =>
    match skipElem path with
    | none =>
      if parent then do
        putInode p i
        pure none
      else pure (some (i, name))
    | some (path, name) => do
      lockInode p i
      let type ← look fun s => (s.inodes i).type
      if type ≠ typeDir then do
        unlockInode p i
        putInode p i
        pure none
      else if parent ∧ path = [] then do
        unlockInode p i
        pure (some (i, name))
      else match ← dirLookup p i name with
        | none => do
          unlockInode p i
          putInode p i
          pure none
        | some (next, _) => do
          unlockInode p i
          putInode p i
          nameiFrom p parent fuel next path name

/-- The inode, with a reference, and the last name. A path ends with its first zero. -/
def namei (p : ℕ) (path : List Byte) (parent : Bool) : Prog (Option (ℕ × List Byte)) := do
  let path := path.takeWhile (· ≠ 0)
  let first ← if path.head? = some slash then getInode p rootDev rootInum .root
    else do
      let i ← dupCwd p
      pure (some i)
  match first with
  | none => .stop
  | some i => nameiFrom p parent (path.length+1) i path []

/-- The loop of `dir_link` that looks for an entry which is not in use. -/
def freeEntryFrom (p i : ℕ) : ℕ → ℕ → Prog (Option ℕ)
  | 0, _ => .stop
  | fuel+1, k => do
    let size ← look fun s => (s.inodes i).size
    if entrySize*k < size.toNat then do
      let n ← readInode p i (entrySize*k) entrySize
      if n = some entrySize then do
        let id ← look fun s => (s.entries (s.inodes i).inum k).1
        if id = 0 then pure (some k) else freeEntryFrom p i fuel (k+1)
      else pure none
    else pure (some k)

/-- `false` is the result -1; an inode that is found is not put. -/
def dirLink (p i : ℕ) (name : List Byte) (inum : ℕ) : Prog Bool := do
  match ← dirLookup p i name with
  | some (j, _) => do
    act p (.linkExists i)
    act p (.lose j)
    putInode p i
    pure false
  | none =>
    match ← freeEntryFrom p i (2^28+1) 0 with
    | none => pure false
    | some k => do
      let d ← look fun s => (s.inodes i).inum
      let _ ← writeInode p i (entrySize*k) entrySize (.name d k inum name)
      pure true

/-- The new inode is returned locked. -/
def create (p : ℕ) (path : List Byte) (type major minor : BitVec 16) : Prog (Option ℕ) := do
  match ← namei p path true with
  | none => pure none
  | some (d, name) => do
    lockInode p d
    match ← dirLookup p d name with
    | some (i, _) => do
      unlockInode p d
      putInode p d
      lockInode p i
      let found ← look fun s => (s.inodes i).type
      if found = typeFile ∧ type = typeFile then pure (some i)
      else do
        unlockInode p i
        putInode p i
        pure none
    | none => do
      let dev ← look fun s => (s.inodes d).dev
      match ← allocInode p dev type with
      | none => do
        unlockInode p d
        act p (.lose d)
        pure none
      | some i => do
        lockInode p i
        act p (.init i type major minor)
        writeToDisk p i
        let inum ← look fun s => (s.inodes i).inum
        let linked ← if type = typeDir then do
            changeLinks p d (·+1)
            if ← dirLink p i [dot] inum then dirLink p i [dot, dot] inum else pure false
          else pure true
        if linked then do
          let _ ← dirLink p d name inum
          unlockInode p d
          putInode p d
          pure (some i)
        else do
          unlockInode p i
          unlockInode p d
          act p (.lose i)
          act p (.lose d)
          pure none

/-! ## System calls -/

/-- `room` tells whether there is a slot and a descriptor. -/
def doOpen (p : ℕ) (path : List Byte) (mode : BitVec 32) (room : Bool) : Prog Bool := do
  let found ← if mode &&& modeCreate ≠ 0 then create p path typeFile 0 0
    else do
      match ← namei p path false with
      | none => pure none
      | some (i, _) => pure (some i)
  match found with
  | none => pure false
  | some i => do
    let type ← look fun s => (s.inodes i).type
    unlockInode p i
    if (type = typeDir ∧ mode ≠ modeRdonly) ∨ room = false then do
      act p (.lose i)
      pure false
    else do
      act p (.keep i)
      pure true

/-- The descriptor is the last one of its slot. -/
def doClose (p k : ℕ) : Prog Bool := do
  match ← look fun s => (s.opened p)[k]? with
  | none => pure true
  | some i => do
    act p (.withdraw i)
    putInode p i
    pure true

def doRead (p k off count : ℕ) : Prog Bool := do
  match ← look fun s => (s.opened p)[k]? with
  | none => pure false
  | some i => do
    let n ← readInode p i off count
    pure n.isSome

def doWrite (p k off count : ℕ) : Prog Bool := do
  match ← look fun s => (s.opened p)[k]? with
  | none => pure false
  | some i => do
    let n ← writeInode p i off count .quiet
    pure n.isSome

/-- `create` for a directory or a device. -/
def make (p : ℕ) (path : List Byte) (type major minor : BitVec 16) : Prog Bool := do
  match ← create p path type major minor with
  | none => pure false
  | some i => do
    unlockInode p i
    putInode p i
    pure true

/-- The label `failed` of `do_link`. -/
def linkFailed (p i : ℕ) : Prog Bool := do
  lockInode p i
  changeLinks p i (·-1)
  unlockInode p i
  act p (.lose i)
  pure false

def doLink (p : ℕ) (old new : List Byte) : Prog Bool := do
  match ← namei p old false with
  | none => pure false
  | some (i, _) => do
    lockInode p i
    let type ← look fun s => (s.inodes i).type
    if type = typeDir then do
      unlockInode p i
      putInode p i
      pure false
    else do
      changeLinks p i (·+1)
      unlockInode p i
      match ← namei p new true with
      | none => linkFailed p i
      | some (d, name) => do
        lockInode p d
        let other ← look fun s => decide ((s.inodes d).dev ≠ (s.inodes i).dev)
        let inum ← look fun s => (s.inodes i).inum
        let linked ← if other then pure false else dirLink p d name inum
        unlockInode p d
        putInode p d
        if linked then do
          putInode p i
          pure true
        else linkFailed p i

/-- The loop of `dir_empty`. -/
def dirEmptyFrom (p i : ℕ) : ℕ → ℕ → Prog Bool
  | 0, _ => .stop
  | fuel+1, k => do
    let size ← look fun s => (s.inodes i).size
    if entrySize*k < size.toNat then do
      let n ← readInode p i (entrySize*k) entrySize
      if n = some entrySize then do
        let id ← look fun s => (s.entries (s.inodes i).inum k).1
        if id = 0 then dirEmptyFrom p i fuel (k+1) else pure false
      else .stop
    else pure true

def dirEmpty (p i : ℕ) : Prog Bool := dirEmptyFrom p i (2^28+1) 2

/-- The label `failed` of `do_unlink`. -/
def unlinkFailed (p d : ℕ) : Prog Bool := do
  unlockInode p d
  putInode p d
  pure false

def doUnlink (p : ℕ) (path : List Byte) : Prog Bool := do
  match ← namei p path true with
  | none => pure false
  | some (d, name) => do
    lockInode p d
    if name = [dot] ∨ name = [dot, dot] then unlinkFailed p d
    else match ← dirLookup p d name with
      | none => unlinkFailed p d
      | some (i, k) => do
        lockInode p i
        let x ← look fun s => s.inodes i
        if x.nlinks.toNat < 1 then do
          act p (.lose i)
          unlinkFailed p d
        else do
          let full ← if x.type = typeDir then do
              let empty ← dirEmpty p i
              pure !empty
            else pure false
          if full then do
            unlockInode p i
            putInode p i
            unlinkFailed p d
          else do
            let id ← look fun s => (s.inodes d).inum
            let _ ← writeInode p d (entrySize*k) entrySize (.name id k 0 [])
            let type ← look fun s => (s.inodes i).type
            if type = typeDir then changeLinks p d (·-1)
            unlockInode p d
            putInode p d
            changeLinks p i (·-1)
            unlockInode p i
            putInode p i
            pure true

inductive Call
  | doOpen (path : List Byte) (mode : BitVec 32) (room : Bool)
  | doClose (k : ℕ)
  | doRead (k off count : ℕ)
  | doWrite (k off count : ℕ)
  | doMkdir (path : List Byte)
  | doMknod (path : List Byte) (major minor : BitVec 16)
  | doLink (old new : List Byte)
  | doUnlink (path : List Byte)

def program (p : ℕ) : Call → Prog Bool
  | .doOpen path mode room => doOpen p path mode room
  | .doClose k => doClose p k
  | .doRead k off count => doRead p k off count
  | .doWrite k off count => doWrite p k off count
  | .doMkdir path => make p path typeDir 0 0
  | .doMknod path major minor => make p path typeDev major minor
  | .doLink old new => doLink p old new
  | .doUnlink path => doUnlink p path

end BabyOS.InodeCache

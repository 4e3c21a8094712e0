import BabyOS.FileSystem

/-!
# Accesses to contents

The counts and the semaphores of the inodes, the files and the directories of the
processes: what is left of the state when contents are left out. Blocks, the bitmap,
and the functions that read and write inodes do not touch them.
-/

set_option autoImplicit false

namespace BabyOS.InodeAccesses
open BabyOS.AtomicPrograms BabyOS.AtomicPrograms.Program BabyOS.ByteWords
open BabyOS.FileTable (System Phase perform maxOpenFile)
open BabyOS.FileSystem (Fs Event Inode Branch Prog Answer Call Semaphore look act mark forFrom)

/-! ## The state of the inodes -/

/-- The counts and the semaphores of the cached inodes, the files and the directories. -/
structure Core where
  ref : ℕ → ℕ
  sem : ℕ → Semaphore
  files : System
  cwd : ℕ → ℕ

def core (s : Fs) : Core := ⟨fun i => (s.inodes i).ref, fun i => (s.inodes i).sem, s.files, s.cwd⟩

namespace Core

def setRef (c : Core) (i n : ℕ) : Core := { c with ref := Function.update c.ref i n }

def setSem (c : Core) (i : ℕ) (x : Semaphore) : Core := { c with sem := Function.update c.sem i x }

end Core

theorem core_setInode (s : Fs) (i : ℕ) (x : Inode) :
    core (s.setInode i x) = ((core s).setRef i x.ref).setSem i x.sem := by
  rw [core, Core.setRef, Core.setSem]
  congr 1
  · funext j
    simp only [FileSystem.Fs.setInode, Function.update_apply]
    split <;> rfl
  · funext j
    simp only [FileSystem.Fs.setInode, Function.update_apply]
    split <;> rfl

theorem core_setInode_same {s : Fs} {i : ℕ} {x : Inode} (href : x.ref = (s.inodes i).ref)
    (hsem : x.sem = (s.inodes i).sem) : core (s.setInode i x) = core s := by
  rw [core_setInode, href, hsem, Core.setRef, Core.setSem]
  have hr : Function.update (core s).ref i (s.inodes i).ref = (core s).ref := Function.update_eq_self i _
  have hs : Function.update (core s).sem i (s.inodes i).sem = (core s).sem := Function.update_eq_self i _
  rw [hr, hs]

theorem core_sem (s : Fs) (i : ℕ) (x : Semaphore) :
    core (s.setInode i { s.inodes i with sem := x }) = (core s).setSem i x := by
  rw [core_setInode]
  congr 1
  exact congrArg (fun ref => { core s with ref }) (Function.update_eq_self i (core s).ref)

theorem core_ref (s : Fs) (i n : ℕ) :
    core (s.setInode i { s.inodes i with ref := n }) = (core s).setRef i n := by
  rw [core_setInode, Core.setSem]
  exact congrArg (fun sem => { (core s).setRef i n with sem }) (Function.update_eq_self i (core s).sem)

/-! ## Accesses to contents -/

/-- An access that takes no part in the counting of references and locks. -/
def Low : Event → Prop
  | .quiet | .hold _ | .write _ | .release _ | .claim _ | .assign _ _ _ | .load _ => True
  | .branch (.freed _) | .branch (.bitClear _) | .branch (.indirect _) | .branch .full => True
  | _ => False

def Apart (s : Fs) (e : Event) (s' : Fs) : Prop := Low e ∧ core s' = core s

section Contents

variable {α β : Type} {p n : ℕ}

theorem only_look (f : Fs → α) : (look f).Only Apart := fun _ => ⟨⟨trivial, rfl⟩, trivial⟩

theorem only_act {e : Event} {f : Fs → Fs} (he : Low e) (hf : ∀ s, core (f s) = core s) :
    (act e f).Only Apart := fun s => ⟨⟨he, hf s⟩, trivial⟩

theorem only_mark {e : Event} (he : Low e) : (mark e).Only Apart := only_act he (fun _ => rfl)

theorem only_pure (a : α) : (pure a : Prog α).Only Apart := trivial

theorem only_forFrom {f : ℕ → Prog Unit} (hf : ∀ k, (f k).Only Apart) (k : ℕ) :
    (forFrom f n k).Only Apart := by
  induction n generalizing k with
  | zero => trivial
  | succ n ih => exact only_bind (hf k) (fun _ => ih (k+1))

theorem only_lockBuffer : (FileSystem.lockBuffer p n).Only Apart := by
  intro s
  refine ⟨⟨trivial, rfl⟩, ?_⟩
  dsimp only
  split
  · trivial
  · exact fun _ => ⟨⟨trivial, rfl⟩, trivial⟩

theorem only_readBlock : (FileSystem.readBlock p n).Only Apart :=
  only_bind only_lockBuffer (fun _ => only_look _)

theorem only_writeBlock (b : Bytes) : (FileSystem.writeBlock n b).Only Apart :=
  only_act trivial (fun _ => rfl)

theorem only_releaseBlock : (FileSystem.releaseBlock n).Only Apart := only_act trivial (fun _ => rfl)

theorem only_readSuperBlock : (FileSystem.readSuperBlock p).Only Apart := by
  apply only_bind only_readBlock
  exact fun _ => only_bind only_releaseBlock (fun _ => only_pure _)

theorem only_bitmapBlock : (FileSystem.bitmapBlock p).Only Apart :=
  only_bind only_readSuperBlock (fun _ => only_pure _)

theorem only_zeroBlock : (FileSystem.zeroBlock p n).Only Apart := by
  apply only_bind only_readBlock
  exact fun _ => only_bind (only_writeBlock _) (fun _ => only_releaseBlock)

theorem only_allocFrom (sb : FileSystem.SuperBlock) (fuel i index : ℕ) :
    (FileSystem.allocFrom p sb fuel i index).Only Apart := by
  induction fuel generalizing i index with
  | zero => trivial
  | succ fuel ih =>
    apply only_ite
    · apply only_bind only_readBlock
      intro b
      dsimp only
      split
      · apply only_bind (only_mark (by trivial))
        intro _
        apply only_bind (only_writeBlock _)
        intro _
        apply only_bind only_releaseBlock
        exact fun _ => only_bind only_zeroBlock (fun _ => only_pure _)
      · exact only_bind only_releaseBlock (fun _ => ih _ _)
    · exact only_bind (only_mark (by trivial)) (fun _ => only_pure _)

theorem only_allocBlock : (FileSystem.allocBlock p).Only Apart := by
  apply only_bind only_readSuperBlock
  exact fun sb => only_bind only_bitmapBlock (fun _ => only_allocFrom sb _ _ _)

theorem only_freeBlock (lba : ℕ) : (FileSystem.freeBlock p lba).Only Apart := by
  apply only_bind (only_mark (by trivial))
  intro _
  apply only_bind only_bitmapBlock
  intro index
  apply only_bind only_readBlock
  intro b
  apply only_ite
  · exact only_mark trivial
  · exact only_bind (only_writeBlock _) (fun _ => only_releaseBlock)

theorem core_setAddr (s : Fs) (i k : ℕ) (n : BitVec 32) : core (s.setAddr i k n) = core s :=
  core_setInode_same rfl rfl

theorem only_addrOf (i k : ℕ) : (FileSystem.addrOf p i k).Only Apart := by
  apply only_bind (only_look _)
  intro a
  apply only_ite
  · apply only_bind only_allocBlock
    intro n
    exact only_bind (only_act (by trivial) (fun s => core_setAddr s i k _)) (fun _ => only_look _)
  · exact only_look _

theorem only_blockMap (i block : ℕ) : (FileSystem.blockMap p i block).Only Apart := by
  apply only_ite
  · exact only_addrOf i block
  · apply only_bind (only_addrOf i _)
    intro a
    apply only_bind (only_mark (by trivial))
    intro _
    apply only_bind only_readBlock
    intro b
    apply only_ite
    · apply only_bind only_allocBlock
      intro n
      apply only_bind (only_writeBlock _)
      exact fun _ => only_bind only_releaseBlock (fun _ => only_pure _)
    · exact only_bind only_releaseBlock (fun _ => only_pure _)

theorem only_readFromDisk (i id : ℕ) : (FileSystem.readFromDisk p i id).Only Apart := by
  apply only_bind (only_look _)
  intro valid
  apply only_ite
  · exact only_pure _
  · apply only_bind only_readBlock
    intro b
    apply only_bind only_releaseBlock
    exact fun _ => only_act trivial (fun s => core_setInode_same rfl rfl)

theorem only_writeToDisk (i : ℕ) : (FileSystem.writeToDisk p i).Only Apart := by
  apply only_bind (only_look _)
  intro inum
  apply only_bind only_readBlock
  intro b
  apply only_bind (only_look _)
  intro x
  exact only_bind (only_writeBlock _) (fun _ => only_releaseBlock)

theorem only_freeDirect (i k : ℕ) : (FileSystem.freeDirect p i k).Only Apart := by
  apply only_bind (only_look _)
  intro a
  apply only_ite
  · exact only_pure _
  · exact only_bind (only_freeBlock _) (fun _ => only_act trivial (fun s => core_setAddr s i k 0))

theorem only_freeIndirect (i : ℕ) : (FileSystem.freeIndirect p i).Only Apart := by
  apply only_bind (only_look _)
  intro a
  apply only_ite
  · exact only_pure _
  · apply only_bind (only_mark (by trivial))
    intro _
    apply only_bind only_readBlock
    intro b
    apply only_bind (only_forFrom (fun k => only_freeBlock _) 0)
    intro _
    apply only_bind (only_writeBlock _)
    intro _
    apply only_bind only_releaseBlock
    intro _
    apply only_bind (only_look _)
    intro a
    exact only_bind (only_freeBlock _) (fun _ => only_act trivial (fun s => core_setAddr s i _ 0))

theorem only_readLoop (i fuel off left : ℕ) (read : List Byte) :
    (FileSystem.readLoop p i fuel off left read).Only Apart := by
  induction fuel generalizing off left read with
  | zero => trivial
  | succ fuel ih =>
    apply only_ite
    · apply only_bind (only_blockMap i _)
      intro lba
      apply only_bind only_readBlock
      intro b
      exact only_bind only_releaseBlock (fun _ => ih _ _ _)
    · exact only_pure _

theorem only_readInode (i off size : ℕ) : (FileSystem.readInode p i off size).Only Apart := by
  apply only_bind (only_look _)
  intro x
  apply only_ite
  · exact only_look _
  · apply only_ite
    · exact only_pure _
    · exact only_bind (only_readLoop i _ _ _ _) (fun _ => only_pure _)

theorem only_writeLoop (i : ℕ) (data : Bytes) (fuel off left k : ℕ) :
    (FileSystem.writeLoop p i data fuel off left k).Only Apart := by
  induction fuel generalizing off left k with
  | zero => trivial
  | succ fuel ih =>
    apply only_ite
    · apply only_bind (only_blockMap i _)
      intro lba
      apply only_bind only_readBlock
      intro b
      apply only_bind (only_writeBlock _)
      exact fun _ => only_bind only_releaseBlock (fun _ => ih _ _ _)
    · exact only_pure _

theorem only_writeInode (i : ℕ) (data : Bytes) (off size : ℕ) :
    (FileSystem.writeInode p i data off size).Only Apart := by
  apply only_bind (only_look _)
  intro x
  apply only_ite
  · exact only_look _
  apply only_ite
  · exact only_pure _
  apply only_ite
  · exact only_pure _
  apply only_bind (only_writeLoop i data _ _ _ _)
  intro total
  apply only_bind (only_look _)
  intro x
  apply only_ite
  · refine only_bind (only_act ?_ (fun s => core_setInode_same rfl rfl)) ?_
    · trivial
    · exact fun _ => only_bind (only_writeToDisk i) (fun _ => only_pure _)
  · exact only_pure _

theorem only_sameName (name name' : List Byte) : (FileSystem.sameName name name').Only Apart := by
  intro s
  refine ⟨⟨trivial, ?_⟩, trivial⟩
  dsimp only
  split <;> rfl

theorem only_freeEntryFrom (i fuel off : ℕ) : (FileSystem.freeEntryFrom p i fuel off).Only Apart := by
  induction fuel generalizing off with
  | zero => trivial
  | succ fuel ih =>
    apply only_bind (only_look _)
    intro size
    apply only_ite
    · apply only_bind (only_readInode i _ _)
      intro e
      cases e with
      | none => exact only_pure _
      | some e => exact only_ite (only_ite (only_pure _) (ih _)) (only_pure _)
    · exact only_pure _

theorem only_dirEmpty (i : ℕ) : (FileSystem.dirEmpty p i).Only Apart := by
  have hloop : ∀ fuel off, (FileSystem.dirEmptyFrom p i fuel off).Only Apart := by
    intro fuel
    induction fuel with
    | zero => exact fun _ => trivial
    | succ fuel ih =>
      intro off
      apply only_bind (only_look _)
      intro size
      apply only_ite
      · apply only_bind (only_readInode i _ _)
        intro e
        cases e with
        | none => trivial
        | some e => exact only_ite (only_ite (ih _) (only_pure _)) trivial
      · exact only_pure _
  exact hloop _ _

end Contents

end BabyOS.InodeAccesses

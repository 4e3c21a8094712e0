import BabyOS.FileSystem

/-!
# Buffers along the paths of an operation

What a process holds of the buffer cache is the list of blocks that it has asked
for and not given back. Along every path of every operation it ends as it began,
whatever other processes do between its accesses; the exception is the path of
`free_block` that finds its bit clear.
-/

set_option autoImplicit false

namespace BabyOS.BufferPaths
open BabyOS.AtomicPrograms BabyOS.AtomicPrograms.Program BabyOS.ByteWords BabyOS.FileSystem

/-- The blocks whose buffers a process holds or waits for. -/
def note (v : List ℕ) : Event → List ℕ
  | .hold n => n :: v
  | .release n => v.erase n
  | _ => v

/-- No block is asked for twice, and only what is held is given back. -/
def keeps (v : List ℕ) : Event → Prop
  | .hold n => n ∉ v
  | .release n => n ∈ v
  | _ => True

/-- Only a write changes the disk. -/
def writes (s : Fs) (e : Event) (s' : Fs) : Prop := ∀ m, e ≠ .write m → s'.disk m = s.disk m

def rule (v : List ℕ) (s : Fs) (e : Event) (s' : Fs) : Prop := keeps v e ∧ writes s e s'

def bitmapStart (sb : SuperBlock) : ℕ := 3+sb.ninodes*64/blockSize

/-- The first block after the bitmap. -/
def dataStart (sb : SuperBlock) : ℕ := bitmapStart sb+(sb.nblocks+bitsPerBlock-1)/bitsPerBlock

/-- The branches that keep to the layout: a block that is freed has its bit set, an
indirect block is a data block, a block found free is a data block that the process does
not hold, and nothing is written over the super block. -/
def Allowed (sb : SuperBlock) (v : List ℕ) (_ : Fs) : Event → Prop
  | .branch (.bitClear _) => False
  | .branch (.freed lba) => lba < sb.nblocks
  | .branch (.indirect n) => dataStart sb ≤ n
  | .claim n => dataStart sb ≤ n ∧ n ∉ v
  | .write n => n ≠ superBlockLba
  | _ => True

/-- The super block on the disk. -/
def Layout (sb : SuperBlock) (s : Fs) : Prop :=
  (superBlock (s.disk superBlockLba)).nblocks = sb.nblocks ∧
    (superBlock (s.disk superBlockLba)).ninodes = sb.ninodes

section Paths

variable {sb : SuperBlock} {α β : Type} {p n : ℕ} {v : List ℕ}

/-- The paths of allowed accesses, in states with the layout. -/
def Path (sb : SuperBlock) (x : Prog α) (v : List ℕ) (Q : α → List ℕ → Prop) : Prop :=
  x.Along (fun v s e => Allowed sb v s e ∧ Layout sb s) note rule v Q

/-- The buffers held at the end are those held at the start. -/
def Kept (sb : SuperBlock) (v : List ℕ) (x : Prog α) : Prop := Path sb x v fun _ v' => v' = v

theorem kept_pure (a : α) : Kept sb v (pure a : Prog α) := rfl

theorem kept_stop : Kept sb v (.stop : Prog α) := trivial

theorem kept_bind {x : Prog α} {f : α → Prog β} (hx : Kept sb v x) (hf : ∀ a, Kept sb v (f a)) :
    Kept sb v (x >>= f) := by
  apply along_seq hx
  rintro a v' rfl
  exact hf a

theorem path_seq {x : Prog α} {f : α → Prog β} {P : α → List ℕ → Prop} {Q : β → List ℕ → Prop}
    (hx : Path sb x v P) (hf : ∀ a v, P a v → Path sb (f a) v Q) : Path sb (x >>= f) v Q :=
  along_seq hx hf

theorem kept_ite {c : Prop} [Decidable c] {x y : Prog α} (hx : c → Kept sb v x)
    (hy : ¬ c → Kept sb v y) : Kept sb v (if c then x else y) := by
  split
  next hc => exact hx hc
  next hc => exact hy hc

/-- An access that has nothing to do with buffers. -/
def Plain : Event → Prop
  | .hold _ | .release _ | .write _ => False
  | _ => True

theorem note_plain {e : Event} (h : Plain e) : note v e = v := by
  cases e <;> first | rfl | cases h

theorem rule_plain {e : Event} {s s' : Fs} (h : Plain e) (hd : s'.disk = s.disk) : rule v s e s' := by
  refine ⟨?_, fun m _ => by rw [hd]⟩
  cases e <;> trivial

theorem kept_access {e : Fs → Event} {r : Fs → Bool} {f : Fs → Fs} {k : Fs → Prog α}
    (he : ∀ s, Plain (e s)) (hf : ∀ s, (f s).disk = s.disk) (hk : ∀ s, Kept sb v (k s)) :
    Kept sb v (.access e r f k) := by
  intro s _ _
  rw [note_plain (he s)]
  exact ⟨rule_plain (he s) (hf s), hk s⟩

theorem kept_look (f : Fs → α) : Kept sb v (look f) :=
  kept_access (fun _ => trivial) (fun _ => rfl) (fun _ => rfl)

theorem kept_act {e : Event} {f : Fs → Fs} (he : Plain e) (hf : ∀ s, (f s).disk = s.disk) :
    Kept sb v (act e f) :=
  kept_access (fun _ => he) hf (fun _ => rfl)

/-- After a branch that is allowed. -/
theorem path_mark {e : Event} (he : Plain e) {c : Prop} (hc : ∀ s, Allowed sb v s e → c) :
    Path sb (mark e) v fun _ v' => v' = v ∧ c := by
  intro s _ ha
  rw [note_plain he]
  exact ⟨rule_plain he rfl, rfl, hc s ha.1⟩

theorem kept_mark {e : Event} (he : Plain e) : Kept sb v (mark e) := kept_act he (fun _ => rfl)

theorem kept_forFrom {f : ℕ → Prog Unit} (hf : ∀ k, Kept sb v (f k)) (k : ℕ) :
    Kept sb v (forFrom f n k) := by
  induction n generalizing k with
  | zero => exact kept_pure ()
  | succ n ih => exact kept_bind (hf k) (fun _ => ih (k+1))

/-! ## Blocks -/

theorem path_lockBuffer (hn : n ∉ v) : Path sb (lockBuffer p n) v fun _ v' => v' = n :: v := by
  intro s _ _
  refine ⟨⟨hn, fun m _ => rfl⟩, ?_⟩
  dsimp only
  by_cases hc : 0 < (s.buffers n).count
  · rw [if_pos hc]
    rfl
  · rw [if_neg hc]
    exact kept_access (fun _ => trivial) (fun _ => rfl) (fun _ => rfl)

theorem path_readBlock (hn : n ∉ v) : Path sb (readBlock p n) v fun b v' => v' = n :: v ∧
    (n = superBlockLba → bitmapStart (superBlock b) = bitmapStart sb ∧
      (superBlock b).nblocks = sb.nblocks) := by
  apply path_seq (path_lockBuffer hn)
  rintro - v' rfl s _ ha
  refine ⟨rule_plain trivial rfl, rfl, ?_⟩
  rintro rfl
  rw [bitmapStart, bitmapStart, ha.2.2]
  exact ⟨rfl, ha.2.1⟩

theorem path_releaseBlock : Path sb (releaseBlock n) (n :: v) fun _ v' => v' = v := by
  intro s _ _
  refine ⟨⟨List.mem_cons_self, fun m _ => rfl⟩, ?_⟩
  exact List.erase_cons_head n v

theorem kept_writeBlock (b : Bytes) : Kept sb v (writeBlock n b) := by
  intro s _ _
  refine ⟨⟨trivial, fun m hm => ?_⟩, rfl⟩
  have hne : m ≠ n := fun hmn => hm (by rw [hmn])
  exact Function.update_of_ne hne b s.disk

/-- A block is read, and given back at the end. -/
theorem kept_block {f : Bytes → Prog α} (hn : n ∉ v) (hf : ∀ b, Path sb (f b) (n :: v) fun _ v' => v' = v) :
    Kept sb v (readBlock p n >>= f) := by
  apply path_seq (path_readBlock hn)
  rintro b v' ⟨rfl, -⟩
  exact hf b

theorem path_then {x : Prog α} {f : α → Prog β} {w : List ℕ} (hx : Kept sb w x)
    (hf : ∀ a, Path sb (f a) w fun _ v' => v' = v) : Path sb (x >>= f) w fun _ v' => v' = v := by
  apply path_seq hx
  rintro a v' rfl
  exact hf a

theorem path_release {x : Prog α} (hx : Kept sb v x) :
    Path sb (releaseBlock n >>= fun _ => x) (n :: v) fun _ v' => v' = v := by
  apply path_seq path_releaseBlock
  rintro - v' rfl
  exact hx

theorem path_readSuperBlock (h : superBlockLba ∉ v) : Path sb (readSuperBlock p) v fun x v' =>
    v' = v ∧ bitmapStart x = bitmapStart sb ∧ x.nblocks = sb.nblocks := by
  apply path_seq (path_readBlock h)
  rintro b v' ⟨rfl, hb⟩
  apply path_seq path_releaseBlock
  rintro - v' rfl
  exact ⟨rfl, hb rfl⟩

theorem path_bitmapBlock (h : superBlockLba ∉ v) :
    Path sb (bitmapBlock p) v fun n v' => v' = v ∧ n = bitmapStart sb := by
  apply path_seq (path_readSuperBlock h)
  rintro x v' ⟨rfl, hx, -⟩
  exact ⟨rfl, hx⟩

theorem kept_zeroBlock (hn : n ∉ v) : Kept sb v (zeroBlock p n) := by
  apply kept_block hn
  intro b
  apply path_then (kept_writeBlock _)
  intro _
  exact path_releaseBlock

/-- The blocks in hand are data blocks. -/
def Data (sb : SuperBlock) (v : List ℕ) : Prop := ∀ n ∈ v, dataStart sb ≤ n

theorem data_nil : Data sb [] := by
  intro n hn
  cases hn

theorem data_one (h : dataStart sb ≤ n) : Data sb [n] := by
  intro m hm
  rw [List.mem_singleton.mp hm]
  exact h

theorem Data.super (h : Data sb v) : superBlockLba ∉ v := by
  intro hin
  have hle := h _ hin
  have hstart : 3 ≤ dataStart sb := le_trans (Nat.le_add_right 3 _) (Nat.le_add_right _ _)
  rw [superBlockLba] at hle
  omega

theorem Data.bitmap (h : Data sb v) {i : ℕ} (hi : i < sb.nblocks) :
    bitmapStart sb+i/bitsPerBlock ∉ v := by
  intro hin
  have hle := h _ hin
  rw [dataStart] at hle
  have hlt : i/bitsPerBlock < (sb.nblocks+bitsPerBlock-1)/bitsPerBlock := by
    rw [bitsPerBlock, blockSize]
    omega
  omega

theorem kept_allocFrom (hsb : sb.nblocks+bitsPerBlock ≤ 2^32) (h : Data sb v) {x : SuperBlock}
    (hx : x.nblocks = sb.nblocks) {fuel i index : ℕ} (hi : bitsPerBlock ∣ i)
    (hindex : index = bitmapStart sb+i/bitsPerBlock) : Kept sb v (allocFrom p x fuel i index) := by
  induction fuel generalizing i index with
  | zero => exact kept_stop
  | succ fuel ih =>
    rw [allocFrom, hx]
    apply kept_ite
    · intro hlt
      have hnot : index ∉ v := by
        rw [hindex]
        exact h.bitmap hlt
      apply kept_block hnot
      intro b
      simp only
      split
      next k _ =>
        apply path_seq (path_mark (by trivial) (fun s ha => ha))
        rintro - v' ⟨rfl, hdata, hfree⟩
        apply path_then (kept_writeBlock _)
        intro _
        apply path_release
        apply kept_bind (kept_zeroBlock (fun hin => hfree (List.mem_cons_of_mem _ hin)))
        exact fun _ => kept_pure _
      · apply path_release
        rw [uint32_of_lt (by omega)]
        apply ih (Dvd.dvd.add hi (dvd_refl _))
        have hpos : 0 < bitsPerBlock := by decide
        rw [hindex, Nat.add_div_right _ hpos, Nat.add_assoc]
    · exact fun _ => kept_bind (kept_mark (by trivial)) (fun _ => kept_pure _)

theorem kept_allocBlock (hsb : sb.nblocks+bitsPerBlock ≤ 2^32) (h : Data sb v) :
    Kept sb v (allocBlock p) := by
  apply path_seq (path_readSuperBlock h.super)
  rintro x v' ⟨rfl, -, hx⟩
  apply path_seq (path_bitmapBlock h.super)
  rintro index v' ⟨rfl, rfl⟩
  exact kept_allocFrom hsb h hx (dvd_zero _) (by rw [Nat.zero_div, Nat.add_zero])

theorem kept_freeBlock (h : Data sb v) (lba : ℕ) : Kept sb v (freeBlock p lba) := by
  apply path_seq (path_mark (by trivial) (fun s ha => ha))
  rintro - v' ⟨rfl, hlt⟩
  apply path_seq (path_bitmapBlock h.super)
  rintro index v' ⟨rfl, rfl⟩
  apply kept_block (h.bitmap hlt)
  intro b
  split
  · intro s _ ha
    exact ha.1.elim
  · apply path_then (kept_writeBlock _)
    intro _
    exact path_releaseBlock

/-! ## Inodes -/

theorem kept_addrOf (hsb : sb.nblocks+bitsPerBlock ≤ 2^32) (i k : ℕ) : Kept sb [] (addrOf p i k) := by
  apply kept_bind (kept_look _)
  intro a
  split
  · apply kept_bind (kept_allocBlock hsb data_nil)
    intro n
    exact kept_bind (kept_act trivial (fun _ => rfl)) (fun _ => kept_look _)
  · exact kept_look _

theorem kept_blockMap (hsb : sb.nblocks+bitsPerBlock ≤ 2^32) (i block : ℕ) :
    Kept sb [] (blockMap p i block) := by
  apply kept_ite
  · exact fun _ => kept_addrOf hsb i block
  · intro _
    apply kept_bind (kept_addrOf hsb i nDirect)
    intro a
    apply path_seq (path_mark (by trivial) (fun s ha => ha))
    rintro - v' ⟨rfl, hdata⟩
    apply kept_block List.not_mem_nil
    intro b
    dsimp only
    split
    · apply path_then (kept_allocBlock hsb (data_one hdata))
      intro n
      apply path_then (kept_writeBlock _)
      exact fun _ => path_release (kept_pure _)
    · exact path_release (kept_pure _)

theorem kept_lockInode (i : ℕ) : Kept sb v (lockInode p i) := by
  intro s _ _
  have hplain : Plain (if 0 < (s.inodes i).sem.count then .lock i else .ask i) := by
    split <;> trivial
  rw [note_plain hplain]
  refine ⟨rule_plain hplain rfl, ?_⟩
  dsimp only
  split
  · rfl
  · exact kept_access (fun _ => trivial) (fun _ => rfl) (fun _ => rfl)

theorem kept_unlockInode (i : ℕ) : Kept sb v (unlockInode i) := kept_act trivial (fun _ => rfl)

theorem kept_getInode (dev inum : ℕ) : Kept sb v (getInode dev inum) := by
  refine kept_access (fun s => ?_) (fun s => ?_) (fun s => rfl)
  · split <;> trivial
  · split <;> rfl

theorem kept_dupCwd : Kept sb v (dupCwd p) :=
  kept_access (fun _ => trivial) (fun _ => rfl) (fun _ => rfl)

theorem kept_readFromDisk (i id : ℕ) : Kept sb [] (readFromDisk p i id) := by
  apply kept_bind (kept_look _)
  intro valid
  split
  · exact kept_pure _
  · apply kept_block List.not_mem_nil
    intro b
    exact path_release (kept_act trivial (fun _ => rfl))

theorem kept_writeToDisk (i : ℕ) : Kept sb [] (writeToDisk p i) := by
  apply kept_bind (kept_look _)
  intro inum
  apply kept_block List.not_mem_nil
  intro b
  apply path_then (kept_look _)
  intro x
  apply path_then (kept_writeBlock _)
  exact fun _ => path_releaseBlock

theorem kept_freeDirect (i k : ℕ) : Kept sb [] (freeDirect p i k) := by
  apply kept_bind (kept_look _)
  intro a
  split
  · exact kept_pure _
  · apply kept_bind (kept_freeBlock data_nil _)
    exact fun _ => kept_act trivial (fun _ => rfl)

theorem kept_freeIndirect (i : ℕ) : Kept sb [] (freeIndirect p i) := by
  apply kept_bind (kept_look _)
  intro a
  split
  · exact kept_pure _
  · apply path_seq (path_mark (by trivial) (fun s ha => ha))
    rintro - v' ⟨rfl, hdata⟩
    apply kept_block List.not_mem_nil
    intro b
    apply path_then (kept_forFrom (fun k => kept_freeBlock (data_one hdata) _) 0)
    intro _
    apply path_then (kept_writeBlock _)
    intro _
    apply path_release
    apply kept_bind (kept_look _)
    intro a
    apply kept_bind (kept_freeBlock data_nil _)
    exact fun _ => kept_act trivial (fun _ => rfl)

theorem kept_putInode (i : ℕ) : Kept sb [] (putInode p i) := by
  have hlast : Kept sb [] (do
      unlockInode i
      act (.drop i) fun s => s.setInode i { s.inodes i with ref := (s.inodes i).ref-1 }) :=
    kept_bind (kept_unlockInode i) (fun _ => kept_act trivial (fun _ => rfl))
  apply kept_bind (kept_lockInode i)
  intro _
  apply kept_bind (kept_look _)
  intro x
  dsimp only
  split
  · apply kept_bind (kept_act (by trivial) (fun _ => rfl))
    intro _
    apply kept_bind (kept_forFrom (fun k => kept_freeDirect i k) 0)
    intro _
    apply kept_bind (kept_freeIndirect i)
    intro _
    apply kept_bind (kept_act (by trivial) (fun _ => rfl))
    intro _
    apply kept_bind (kept_writeToDisk i)
    intro _
    exact kept_bind (kept_act trivial (fun _ => rfl)) (fun _ => hlast)
  · exact hlast

theorem kept_allocInodeFrom (dev : ℕ) (type : BitVec 16) (k i : ℕ) :
    Kept sb [] (allocInodeFrom p dev type k i) := by
  induction k generalizing i with
  | zero => exact kept_pure _
  | succ k ih =>
    apply kept_block List.not_mem_nil
    intro b
    split
    · apply path_then (kept_writeBlock _)
      exact fun _ => path_release (kept_getInode dev i)
    · exact path_release (ih (i+1))

theorem kept_allocInode (dev : ℕ) (type : BitVec 16) : Kept sb [] (allocInode p dev type) := by
  apply path_seq (path_readSuperBlock List.not_mem_nil)
  rintro x v' ⟨rfl, -, -⟩
  exact kept_allocInodeFrom dev type _ _

/-! ## Contents and directories -/

theorem kept_readLoop (hsb : sb.nblocks+bitsPerBlock ≤ 2^32) (i fuel off left : ℕ) (read : List Byte) :
    Kept sb [] (readLoop p i fuel off left read) := by
  induction fuel generalizing off left read with
  | zero => exact kept_pure _
  | succ fuel ih =>
    apply kept_ite
    · intro _
      apply kept_bind (kept_blockMap hsb i _)
      intro lba
      apply kept_block List.not_mem_nil
      exact fun b => path_release (ih _ _ _)
    · exact fun _ => kept_pure _

theorem kept_readInode (hsb : sb.nblocks+bitsPerBlock ≤ 2^32) (i off size : ℕ) :
    Kept sb [] (readInode p i off size) := by
  apply kept_bind (kept_look _)
  intro x
  apply kept_ite
  · exact fun _ => kept_look _
  · intro _
    apply kept_ite
    · exact fun _ => kept_pure _
    · intro _
      exact kept_bind (kept_readLoop hsb i _ _ _ _) (fun _ => kept_pure _)

theorem kept_writeLoop (hsb : sb.nblocks+bitsPerBlock ≤ 2^32) (i : ℕ) (data : Bytes)
    (fuel off left k : ℕ) : Kept sb [] (writeLoop p i data fuel off left k) := by
  induction fuel generalizing off left k with
  | zero => exact kept_pure _
  | succ fuel ih =>
    apply kept_ite
    · intro _
      apply kept_bind (kept_blockMap hsb i _)
      intro lba
      apply kept_block List.not_mem_nil
      intro b
      apply path_then (kept_writeBlock _)
      exact fun _ => path_release (ih _ _ _)
    · exact fun _ => kept_pure _

theorem kept_writeInode (hsb : sb.nblocks+bitsPerBlock ≤ 2^32) (i : ℕ) (data : Bytes) (off size : ℕ) :
    Kept sb [] (writeInode p i data off size) := by
  apply kept_bind (kept_look _)
  intro x
  apply kept_ite
  · exact fun _ => kept_look _
  intro _
  apply kept_ite
  · exact fun _ => kept_pure _
  intro _
  apply kept_ite
  · exact fun _ => kept_pure _
  intro _
  apply kept_bind (kept_writeLoop hsb i data _ _ _ _)
  intro total
  apply kept_bind (kept_look _)
  intro x
  split
  · apply kept_bind (kept_act (by trivial) (fun _ => rfl))
    intro _
    exact kept_bind (kept_writeToDisk i) (fun _ => kept_pure _)
  · exact kept_pure _

theorem kept_sameName (name name' : List Byte) : Kept sb v (sameName name name') := by
  refine kept_access (fun _ => trivial) (fun s => ?_) (fun _ => rfl)
  split <;> rfl

/-- The entry is the one that is looked for, or the next is read. -/
theorem kept_dirFound {i off : ℕ} {next : Prog (Option (ℕ × ℕ))} (hnext : Kept sb [] next)
    (e : List Byte) (found : Bool) : Kept sb [] (if found then do
        let dev ← look fun s => (s.inodes i).dev
        match ← getInode dev (entryInum e) with
        | none => .stop
        | some j => do
          readFromDisk p j (entryInum e)
          pure (some (j, off))
      else next) := by
  apply kept_ite
  · intro _
    apply kept_bind (kept_look _)
    intro dev
    apply kept_bind (kept_getInode _ _)
    intro j
    cases j with
    | none => exact kept_stop
    | some j => exact kept_bind (kept_readFromDisk j _) (fun _ => kept_pure _)
  · exact fun _ => hnext

theorem kept_dirLookupFrom (hsb : sb.nblocks+bitsPerBlock ≤ 2^32) (i : ℕ) (name : List Byte)
    (fuel off : ℕ) : Kept sb [] (dirLookupFrom p i name fuel off) := by
  induction fuel generalizing off with
  | zero => exact kept_stop
  | succ fuel ih =>
    have hfound := @kept_dirFound sb p i off _ (ih (off+entrySize))
    apply kept_bind (kept_readInode hsb i _ _)
    intro e
    cases e with
    | none => exact kept_pure _
    | some e =>
      apply kept_ite
      · intro _
        apply kept_ite
        · exact fun _ => kept_bind (kept_sameName _ _) (hfound e)
        · exact fun _ => kept_bind (kept_pure _) (hfound e)
      · exact fun _ => kept_pure _

theorem kept_dirLookup (hsb : sb.nblocks+bitsPerBlock ≤ 2^32) (i : ℕ) (name : List Byte) :
    Kept sb [] (dirLookup p i name) := kept_dirLookupFrom hsb i name _ _

theorem kept_release_put (i : ℕ) {x : Prog α} (hx : Kept sb [] x) : Kept sb [] (do
    unlockInode i
    putInode p i
    x) := by
  apply kept_bind (kept_unlockInode i)
  intro _
  exact kept_bind (kept_putInode i) (fun _ => hx)

theorem kept_nameiFrom (hsb : sb.nblocks+bitsPerBlock ≤ 2^32) (parent : Bool) (fuel i : ℕ)
    (path name : List Byte) : Kept sb [] (nameiFrom p parent fuel i path name) := by
  induction fuel generalizing i path name with
  | zero => exact kept_stop
  | succ fuel ih =>
    rw [nameiFrom]
    split
    · apply kept_ite
      · exact fun _ => kept_bind (kept_putInode i) (fun _ => kept_pure _)
      · exact fun _ => kept_pure _
    next path name _ =>
      apply kept_bind (kept_lockInode i)
      intro _
      apply kept_bind (kept_look _)
      intro type
      apply kept_ite
      · exact fun _ => kept_release_put i (kept_pure _)
      intro _
      apply kept_ite
      · exact fun _ => kept_bind (kept_unlockInode i) (fun _ => kept_pure _)
      intro _
      apply kept_bind (kept_dirLookup hsb i name)
      intro r
      cases r with
      | none => exact kept_release_put i (kept_pure _)
      | some r => exact kept_release_put i (ih _ _ _)

/-- What follows when the first inode of a path was looked for. -/
theorem kept_nameiFirst (hsb : sb.nblocks+bitsPerBlock ≤ 2^32) (parent : Bool) (path : List Byte)
    (first : Option ℕ) : Kept sb [] (match first with
      | none => (.stop : Prog (Option (ℕ × List Byte)))
      | some i => nameiFrom p parent (path.length+1) i path []) := by
  cases first with
  | none => exact kept_stop
  | some i => exact kept_nameiFrom hsb parent _ _ _ _

theorem kept_namei (hsb : sb.nblocks+bitsPerBlock ≤ 2^32) (path : List Byte) (parent : Bool) :
    Kept sb [] (namei p path parent) := by
  have hfirst := kept_nameiFirst (p := p) hsb parent (path.takeWhile (· ≠ 0))
  apply kept_ite
  · exact fun _ => kept_bind (kept_getInode _ _) hfirst
  · exact fun _ => kept_bind kept_dupCwd (fun _ => kept_bind (kept_pure _) hfirst)

theorem kept_freeEntryFrom (hsb : sb.nblocks+bitsPerBlock ≤ 2^32) (i fuel off : ℕ) :
    Kept sb [] (freeEntryFrom p i fuel off) := by
  induction fuel generalizing off with
  | zero => exact kept_stop
  | succ fuel ih =>
    apply kept_bind (kept_look _)
    intro size
    apply kept_ite
    · intro _
      apply kept_bind (kept_readInode hsb i _ _)
      intro e
      cases e with
      | none => exact kept_pure _
      | some e =>
        apply kept_ite
        · intro _
          apply kept_ite
          · exact fun _ => kept_pure _
          · exact fun _ => ih _
        · exact fun _ => kept_pure _
    · exact fun _ => kept_pure _

theorem kept_dirLink (hsb : sb.nblocks+bitsPerBlock ≤ 2^32) (i : ℕ) (name : List Byte) (inum : ℕ) :
    Kept sb [] (dirLink p i name inum) := by
  apply kept_bind (kept_dirLookup hsb i name)
  intro r
  cases r with
  | some r =>
    apply kept_bind (kept_mark (by trivial))
    intro _
    exact kept_bind (kept_putInode i) (fun _ => kept_pure _)
  | none =>
    apply kept_bind (kept_freeEntryFrom hsb i _ _)
    intro r
    cases r with
    | none => exact kept_pure _
    | some off => exact kept_bind (kept_writeInode hsb i _ _ _) (fun _ => kept_pure _)

theorem kept_dirEmptyFrom (hsb : sb.nblocks+bitsPerBlock ≤ 2^32) (i fuel off : ℕ) :
    Kept sb [] (dirEmptyFrom p i fuel off) := by
  induction fuel generalizing off with
  | zero => exact kept_stop
  | succ fuel ih =>
    apply kept_bind (kept_look _)
    intro size
    apply kept_ite
    · intro _
      apply kept_bind (kept_readInode hsb i _ _)
      intro e
      cases e with
      | none => exact kept_stop
      | some e =>
        apply kept_ite
        · intro _
          apply kept_ite
          · exact fun _ => ih _
          · exact fun _ => kept_pure _
        · exact fun _ => kept_stop
    · exact fun _ => kept_pure _

theorem kept_dirEmpty (hsb : sb.nblocks+bitsPerBlock ≤ 2^32) (i : ℕ) : Kept sb [] (dirEmpty p i) :=
  kept_dirEmptyFrom hsb i _ _

theorem kept_create (hsb : sb.nblocks+bitsPerBlock ≤ 2^32) (path : List Byte)
    (type major minor : BitVec 16) : Kept sb [] (create p path type major minor) := by
  apply kept_bind (kept_namei hsb path true)
  intro r
  cases r with
  | none => exact kept_pure _
  | some r =>
    obtain ⟨d, name⟩ := r
    apply kept_bind (kept_lockInode d)
    intro _
    apply kept_bind (kept_dirLookup hsb d name)
    intro r
    cases r with
    | some r =>
      obtain ⟨i, off⟩ := r
      apply kept_release_put d
      apply kept_bind (kept_lockInode i)
      intro _
      apply kept_bind (kept_look _)
      intro found
      apply kept_ite
      · exact fun _ => kept_pure _
      · exact fun _ => kept_release_put i (kept_pure _)
    | none =>
      apply kept_bind (kept_look _)
      intro dev
      apply kept_bind (kept_allocInode dev type)
      intro r
      cases r with
      | none =>
        apply kept_bind (kept_unlockInode d)
        exact fun _ => kept_bind (kept_mark (by trivial)) (fun _ => kept_pure _)
      | some i =>
        have hend : ∀ (inum : ℕ) (linked : Bool), Kept sb [] (if linked then do
              let _ ← dirLink p d name inum
              unlockInode d
              putInode p d
              pure (some i)
            else do
              unlockInode i
              unlockInode d
              mark (.lose i)
              mark (.lose d)
              pure none) := by
          intro inum linked
          apply kept_ite
          · exact fun _ => kept_bind (kept_dirLink hsb d name inum)
              (fun _ => kept_release_put d (kept_pure _))
          · intro _
            apply kept_bind (kept_unlockInode i)
            intro _
            apply kept_bind (kept_unlockInode d)
            intro _
            apply kept_bind (kept_mark (by trivial))
            exact fun _ => kept_bind (kept_mark (by trivial)) (fun _ => kept_pure _)
        apply kept_bind (kept_mark (by trivial))
        intro _
        apply kept_bind (kept_lockInode i)
        intro _
        apply kept_bind (kept_act (by trivial) (fun _ => rfl))
        intro _
        apply kept_bind (kept_writeToDisk i)
        intro _
        apply kept_bind (kept_look _)
        intro inum
        apply kept_ite
        · intro _
          apply kept_bind (kept_act (by trivial) (fun _ => rfl))
          intro _
          apply kept_bind (kept_writeToDisk d)
          intro _
          apply kept_bind (kept_dirLink hsb i _ inum)
          intro first
          apply kept_ite
          · exact fun _ => kept_bind (kept_dirLink hsb i _ inum) (hend inum)
          · exact fun _ => kept_bind (kept_pure _) (hend inum)
        · exact fun _ => kept_bind (kept_pure _) (hend inum)

/-! ## System calls -/

theorem kept_openFile (i : ℕ) (refused readable writeable : Bool) :
    Kept sb v (openFile p i refused readable writeable) := by
  refine kept_access (fun s => ?_) (fun s => ?_) (fun _ => rfl)
  · split <;> trivial
  · split <;> rfl

/-- What follows when the inode was looked for or created. -/
theorem kept_openFound (mode : BitVec 32) (found : Option ℕ) : Kept sb [] (match found with
      | none => pure .failed
      | some i => do
        let type ← look fun s => (s.inodes i).type
        unlockInode i
        openFile p i (type = typeDir ∧ mode ≠ modeRdonly) (mode &&& modeWronly = 0)
          (mode &&& modeWronly ≠ 0 ∨ mode &&& modeRdwr ≠ 0) : Prog Answer) := by
  cases found with
  | none => exact kept_pure _
  | some i =>
    apply kept_bind (kept_look _)
    intro type
    exact kept_bind (kept_unlockInode i) (fun _ => kept_openFile i _ _ _)

theorem kept_doOpen (hsb : sb.nblocks+bitsPerBlock ≤ 2^32) (path : List Byte) (mode : BitVec 32) :
    Kept sb [] (doOpen p path mode) := by
  have hend := @kept_openFound sb p mode
  apply kept_ite
  · exact fun _ => kept_bind (kept_create hsb path _ _ _) hend
  · intro _
    apply kept_bind (kept_namei hsb path false)
    intro r
    cases r with
    | none => exact kept_bind (kept_pure _) hend
    | some r =>
      exact kept_bind (kept_mark (by trivial)) (fun _ => kept_bind (kept_pure _) hend)

theorem kept_closeStep (e : FileTable.Event) : Kept sb [] (closeStep p e) := by
  refine kept_access (fun s => ?_) (fun s => ?_) (fun s => ?_)
  · split <;> trivial
  · split <;> rfl
  · split
    · exact kept_putInode _
    · exact kept_pure ()

theorem kept_doRead (hsb : sb.nblocks+bitsPerBlock ≤ 2^32) (fd : ℤ) (count : ℕ) :
    Kept sb [] (doRead p fd count) := by
  apply kept_bind (kept_look _)
  intro r
  cases r with
  | none => exact kept_pure _
  | some r =>
    obtain ⟨f, file⟩ := r
    dsimp only
    split
    · apply kept_bind (kept_look _)
      intro off
      apply kept_bind (kept_readInode hsb _ _ _)
      intro l
      cases l with
      | none => exact kept_pure _
      | some l =>
        apply kept_ite
        · exact fun _ => kept_bind (kept_act (by trivial) (fun _ => rfl)) (fun _ => kept_pure _)
        · exact fun _ => kept_pure _
    · exact kept_pure _

theorem kept_doWrite (hsb : sb.nblocks+bitsPerBlock ≤ 2^32) (fd : ℤ) (data : Bytes) (count : ℕ) :
    Kept sb [] (doWrite p fd data count) := by
  apply kept_bind (kept_look _)
  intro r
  cases r with
  | none => exact kept_pure _
  | some r =>
    obtain ⟨f, file⟩ := r
    dsimp only
    split
    · apply kept_bind (kept_look _)
      intro off
      apply kept_bind (kept_writeInode hsb _ _ _ _)
      intro n
      cases n with
      | none => exact kept_pure _
      | some n =>
        apply kept_ite
        · exact fun _ => kept_bind (kept_act (by trivial) (fun _ => rfl)) (fun _ => kept_pure _)
        · exact fun _ => kept_pure _
    · exact kept_pure _

theorem kept_make (hsb : sb.nblocks+bitsPerBlock ≤ 2^32) (path : List Byte)
    (type major minor : BitVec 16) : Kept sb [] (make p path type major minor) := by
  apply kept_bind (kept_create hsb path _ _ _)
  intro r
  cases r with
  | none => exact kept_pure _
  | some i => exact kept_release_put i (kept_pure _)

theorem kept_linkFailed (i : ℕ) : Kept sb [] (linkFailed p i) := by
  apply kept_bind (kept_lockInode i)
  intro _
  apply kept_bind (kept_act (by trivial) (fun _ => rfl))
  intro _
  apply kept_bind (kept_writeToDisk i)
  intro _
  apply kept_bind (kept_unlockInode i)
  intro _
  exact kept_bind (kept_mark (by trivial)) (fun _ => kept_pure _)

theorem kept_doLink (hsb : sb.nblocks+bitsPerBlock ≤ 2^32) (old new : List Byte) :
    Kept sb [] (doLink p old new) := by
  apply kept_bind (kept_namei hsb old false)
  intro r
  cases r with
  | none => exact kept_pure _
  | some r =>
    obtain ⟨i, name⟩ := r
    apply kept_bind (kept_lockInode i)
    intro _
    apply kept_bind (kept_look _)
    intro type
    apply kept_ite
    · exact fun _ => kept_release_put i (kept_pure _)
    intro _
    apply kept_bind (kept_act (by trivial) (fun _ => rfl))
    intro _
    apply kept_bind (kept_writeToDisk i)
    intro _
    apply kept_bind (kept_unlockInode i)
    intro _
    apply kept_bind (kept_namei hsb new true)
    intro r
    cases r with
    | none => exact kept_linkFailed i
    | some r =>
      obtain ⟨d, name⟩ := r
      have hend : ∀ linked : Bool, Kept sb [] (do
          unlockInode d
          putInode p d
          if linked then do
            putInode p i
            pure .ok
          else linkFailed p i) := by
        intro linked
        apply kept_release_put d
        apply kept_ite
        · exact fun _ => kept_bind (kept_putInode i) (fun _ => kept_pure _)
        · exact fun _ => kept_linkFailed i
      apply kept_bind (kept_lockInode d)
      intro _
      apply kept_bind (kept_look _)
      intro other
      apply kept_bind (kept_look _)
      intro inum
      apply kept_ite
      · exact fun _ => kept_bind (kept_pure _) hend
      · exact fun _ => kept_bind (kept_dirLink hsb d name inum) hend

theorem kept_unlinkFailed (d : ℕ) : Kept sb [] (unlinkFailed p d) := kept_release_put d (kept_pure _)

theorem kept_doUnlink (hsb : sb.nblocks+bitsPerBlock ≤ 2^32) (path : List Byte) :
    Kept sb [] (doUnlink p path) := by
  apply kept_bind (kept_namei hsb path true)
  intro r
  cases r with
  | none => exact kept_pure _
  | some r =>
    obtain ⟨d, name⟩ := r
    apply kept_bind (kept_lockInode d)
    intro _
    apply kept_ite
    · exact fun _ => kept_unlinkFailed d
    intro _
    apply kept_bind (kept_dirLookup hsb d name)
    intro r
    cases r with
    | none => exact kept_unlinkFailed d
    | some r =>
      obtain ⟨i, off⟩ := r
      have hlast : Kept sb [] (do
          unlockInode d
          putInode p d
          act .quiet fun s => s.setInode i { s.inodes i with nlinks := (s.inodes i).nlinks-1 }
          writeToDisk p i
          unlockInode i
          putInode p i
          pure .ok : Prog Answer) := by
        apply kept_release_put d
        apply kept_bind (kept_act (by trivial) (fun _ => rfl))
        intro _
        exact kept_bind (kept_writeToDisk i) (fun _ => kept_release_put i (kept_pure _))
      have hend : ∀ full : Bool, Kept sb [] (if full then do
            unlockInode i
            putInode p i
            unlinkFailed p d
          else do
            let _ ← writeInode p d (fun _ => 0) off entrySize
            let type ← look fun s => (s.inodes i).type
            if type = typeDir then do
              act .quiet fun s => s.setInode d { s.inodes d with nlinks := (s.inodes d).nlinks-1 }
              writeToDisk p d
            unlockInode d
            putInode p d
            act .quiet fun s => s.setInode i { s.inodes i with nlinks := (s.inodes i).nlinks-1 }
            writeToDisk p i
            unlockInode i
            putInode p i
            pure .ok) := by
        intro full
        apply kept_ite
        · exact fun _ => kept_release_put i (kept_unlinkFailed d)
        · intro _
          apply kept_bind (kept_writeInode hsb d _ _ _)
          intro _
          apply kept_bind (kept_look _)
          intro type
          apply kept_ite
          · intro _
            apply kept_bind (kept_act (by trivial) (fun _ => rfl))
            exact fun _ => kept_bind (kept_writeToDisk d) (fun _ => hlast)
          · exact fun _ => hlast
      apply kept_bind (kept_mark (by trivial))
      intro _
      apply kept_bind (kept_lockInode i)
      intro _
      apply kept_bind (kept_look _)
      intro x
      apply kept_ite
      · intro _
        apply kept_bind (kept_mark (by trivial))
        exact fun _ => kept_bind (kept_mark (by trivial)) (fun _ => kept_unlinkFailed d)
      · intro _
        apply kept_ite
        · intro _
          apply kept_bind (kept_dirEmpty hsb i)
          exact fun _ => kept_bind (kept_pure _) hend
        · exact fun _ => kept_bind (kept_pure _) hend

theorem kept_leaveCwd : Kept sb v (leaveCwd p) :=
  kept_access (fun _ => trivial) (fun _ => rfl) (fun _ => rfl)

theorem kept_doChdir (hsb : sb.nblocks+bitsPerBlock ≤ 2^32) (path : List Byte) :
    Kept sb [] (doChdir p path) := by
  apply kept_bind (kept_namei hsb path false)
  intro r
  cases r with
  | none => exact kept_pure _
  | some r =>
    obtain ⟨i, name⟩ := r
    apply kept_bind (kept_mark (by trivial))
    intro _
    apply kept_bind (kept_look _)
    intro type
    apply kept_bind (kept_unlockInode i)
    intro _
    apply kept_ite
    · exact fun _ => kept_bind (kept_putInode i) (fun _ => kept_pure _)
    · intro _
      apply kept_bind kept_leaveCwd
      intro old
      apply kept_bind (kept_putInode old)
      intro _
      exact kept_bind (kept_act (by trivial) (fun _ => rfl)) (fun _ => kept_pure _)

theorem kept_fork : Kept sb v (fork p) := by
  refine kept_access (fun _ => trivial) (fun s => ?_) (fun _ => rfl)
  split <;> rfl

theorem kept_retire : Kept sb v (retire p) := by
  refine kept_access (fun _ => trivial) (fun s => ?_) (fun _ => rfl)
  split <;> rfl

theorem kept_exit : Kept sb [] (exit p) := by
  apply kept_bind kept_retire
  intro i
  apply kept_bind (kept_putInode i)
  intro _
  apply kept_bind (kept_forFrom (fun k => kept_closeStep _) 0)
  intro _
  exact kept_bind (kept_closeStep _) (fun _ => kept_pure _)

theorem kept_program (hsb : sb.nblocks+bitsPerBlock ≤ 2^32) (c : Call) :
    Kept sb [] (program p c) := by
  cases c with
  | doOpen path mode => exact kept_doOpen hsb path mode
  | doClose fd => exact kept_bind (kept_closeStep _) (fun _ => kept_pure _)
  | doRead fd count => exact kept_doRead hsb fd count
  | doWrite fd data count => exact kept_doWrite hsb fd data count
  | doMkdir path => exact kept_make hsb path _ _ _
  | doMknod path major minor => exact kept_make hsb path _ _ _
  | doLink old new => exact kept_doLink hsb old new
  | doUnlink path => exact kept_doUnlink hsb path
  | doDup fd => exact kept_bind (kept_look _) (fun _ => kept_bind (kept_closeStep _) (fun _ => kept_pure _))
  | doChdir path => exact kept_doChdir hsb path
  | fork => exact kept_fork
  | exit => exact kept_exit

end Paths

/-- The functions of the file system, started with no buffer in hand. -/
inductive Operation (p : ℕ) : (α : Type) → Prog α → Prop
  | addrOf (i k : ℕ) : Operation p _ (addrOf p i k)
  | blockMap (i block : ℕ) : Operation p _ (blockMap p i block)
  | readFromDisk (i id : ℕ) : Operation p _ (readFromDisk p i id)
  | writeToDisk (i : ℕ) : Operation p _ (writeToDisk p i)
  | putInode (i : ℕ) : Operation p _ (putInode p i)
  | allocInode (dev : ℕ) (type : BitVec 16) : Operation p _ (allocInode p dev type)
  | readInode (i off size : ℕ) : Operation p _ (readInode p i off size)
  | writeInode (i : ℕ) (data : Bytes) (off size : ℕ) : Operation p _ (writeInode p i data off size)
  | dirLookup (i : ℕ) (name : List Byte) : Operation p _ (dirLookup p i name)
  | dirLink (i : ℕ) (name : List Byte) (inum : ℕ) : Operation p _ (dirLink p i name inum)
  | dirEmpty (i : ℕ) : Operation p _ (dirEmpty p i)
  | namei (path : List Byte) (parent : Bool) : Operation p _ (namei p path parent)
  | create (path : List Byte) (type major minor : BitVec 16) :
      Operation p _ (create p path type major minor)
  | program (c : Call) : Operation p _ (program p c)

/-- The functions that are also called with a block in hand. -/
inductive Inner (p : ℕ) : (α : Type) → Prog α → Prop
  | readSuperBlock : Inner p _ (readSuperBlock p)
  | bitmapBlock : Inner p _ (bitmapBlock p)
  | allocBlock : Inner p _ (allocBlock p)
  | freeBlock (lba : ℕ) : Inner p _ (freeBlock p lba)

section Runs

variable {sb : SuperBlock} {α : Type} {p : ℕ} {v : List ℕ}

theorem kept_operation (hsb : sb.nblocks+bitsPerBlock ≤ 2^32) {x : Prog α} (h : Operation p α x) :
    Kept sb [] x := by
  cases h with
  | addrOf i k => exact kept_addrOf hsb i k
  | blockMap i block => exact kept_blockMap hsb i block
  | readFromDisk i id => exact kept_readFromDisk i id
  | writeToDisk i => exact kept_writeToDisk i
  | putInode i => exact kept_putInode i
  | allocInode dev type => exact kept_allocInode dev type
  | readInode i off size => exact kept_readInode hsb i off size
  | writeInode i data off size => exact kept_writeInode hsb i data off size
  | dirLookup i name => exact kept_dirLookup hsb i name
  | dirLink i name inum => exact kept_dirLink hsb i name inum
  | dirEmpty i => exact kept_dirEmpty hsb i
  | namei path parent => exact kept_namei hsb path parent
  | create path type major minor => exact kept_create hsb path type major minor
  | program c => exact kept_program hsb c

theorem kept_inner (hsb : sb.nblocks+bitsPerBlock ≤ 2^32) (hv : Data sb v) {x : Prog α}
    (h : Inner p α x) : Kept sb v x := by
  cases h with
  | readSuperBlock => exact along_mono (path_readSuperBlock hv.super) (fun _ _ h => h.1)
  | bitmapBlock => exact along_mono (path_bitmapBlock hv.super) (fun _ _ h => h.1)
  | allocBlock => exact kept_allocBlock hsb hv
  | freeBlock lba => exact kept_freeBlock hv lba

/-- The calls that a process can take up. -/
def calls (_ : Fs) (p : ℕ) (x : Prog Answer) : Prop := ∃ c, x = program p c

/-- One access: the layout stays, and no process has a block twice. -/
theorem step_kept {s s' : Fs} {e : Event} {g : ℕ → List ℕ} (h : Layout sb s ∧ ∀ q, (g q).Nodup)
    (ha : Allowed sb (g p) s e) (hr : rule (g p) s e s') :
    Layout sb s' ∧ ∀ q, (Function.update g p (note (g p) e) q).Nodup := by
  obtain ⟨hlayout, hnodup⟩ := h
  obtain ⟨hkeeps, hwrites⟩ := hr
  constructor
  · have hsuper : s'.disk superBlockLba = s.disk superBlockLba := by
      apply hwrites
      rintro rfl
      exact ha rfl
    rw [Layout, hsuper]
    exact hlayout
  · intro q
    by_cases hq : q = p
    · subst hq
      rw [Function.update_self]
      have hold := hnodup q
      cases e with
      | hold n => exact List.nodup_cons.mpr ⟨hkeeps, hold⟩
      | release n => exact hold.erase n
      | _ => exact hold
    · rw [Function.update_of_ne hq]
      exact hnodup q

/-- In every run whose branches are allowed, a process asks for no block that it holds, and
holds nothing between calls; and every function ends with what it held at its start. -/
theorem buffers_run (hsb : sb.nblocks+bitsPerBlock ≤ 2^32) :
    (∀ w, Run (Layout sb) calls (fun _ => Allowed sb) note [] w →
      ∀ p, (w.book p).Nodup ∧ (w.call p = none → w.book p = [])) ∧
    (∀ p α x, Operation p α x → Kept sb [] x) ∧
    ∀ p α x v, Inner p α x → Data sb v → Kept sb v x := by
  refine ⟨fun w hw p => ?_, fun p α x h => kept_operation hsb h,
    fun p α x v h hv => kept_inner hsb hv h⟩
  obtain ⟨⟨-, hnodup⟩, hfollows⟩ := @run_follows Fs Event Answer (List ℕ) (Layout sb) calls
    (fun _ => Allowed sb) note [] (fun _ _ => Layout sb) (fun _ => rule) (· = [])
    (fun s g => Layout sb s ∧ ∀ q, (g q).Nodup) rfl (fun s hs => ⟨hs, fun _ => List.nodup_nil⟩)
    (fun s g p x h hx hv => by
      obtain ⟨c, rfl⟩ := hx
      rw [hv]
      exact ⟨h.1, kept_program hsb c⟩)
    (fun s g p e s' h _ ha hr => by
      have hnext := step_kept h ha hr
      exact ⟨hnext, hnext.1, fun q _ _ => hnext.1⟩) w hw
  refine ⟨hnodup p, fun hnone => ?_⟩
  have hp := hfollows p
  rw [hnone] at hp
  exact hp

end Runs

/-! ## A file with a partly filled indirect block -/

/-- A disk of 32 blocks. Inode 2 is a file of 13 blocks that is no longer in a directory;
its blocks are 6 to 17 and 19, its indirect block is 18. -/
def unlinked : DiskInode where
  type := typeFile
  major := 0
  minor := 0
  nlinks := 0
  size := 53248
  addrs := fun k => if k ≤ nDirect then BitVec.ofNat 32 (6+k) else 0

def root : DiskInode where
  type := typeDir
  major := 0
  minor := 0
  nlinks := 1
  size := 32
  addrs := fun k => if k = 0 then 5 else 0

def zeros : Bytes := fun _ => 0

def imageDisk : ℕ → Bytes
  | 1 => putWord 8 4 64 (putWord 4 4 32 (putWord 0 4 32 zeros))
  | 2 => putDiskInode 2 unlinked (putDiskInode 1 root zeros)
  | 4 => putWord 0 4 (2^20-1) zeros
  | 5 => paste 0 16 (entryBytes 1 [dot]) 0 (paste 16 16 (entryBytes 1 [dot, dot]) 0 zeros)
  | 18 => putWord 0 4 19 zeros
  | _ => zeros

def noInode : Inode := ⟨⟨0, 0, 0, 0, 0, fun _ => 0⟩, 0, 0, 0, false, .init 1⟩

/-- Process 0 has the file open, as descriptor 0. -/
def image : Fs where
  disk := imageDisk
  buffers := fun _ => .init 1
  inodes := fun i => if i = 0 then ⟨root, 1, 1, 2, true, .init 1⟩
    else if i = 1 then ⟨unlinked, 1, 2, 1, true, .init 1⟩ else noInode
  files := {
    table := fun f => if f = 0 then ⟨.inode, 1, true, true, some 1, none, none⟩
      else ⟨.none, 0, false, false, none, none, none⟩
    procs := fun q => ⟨fun fd => if q = 0 ∧ fd = 0 then some 0 else none, .running⟩
    count := 2
    pipes := fun _ => .init
    pipeCount := 0 }
  offsets := fun _ => 0
  cwd := fun _ => 0
  devices := fun _ => none
  overrun := fun _ => false
  overruns := 0

def imageSuper : SuperBlock := superBlock (image.disk superBlockLba)

theorem image_blocks : imageSuper.nblocks = 32 := by decide +kernel

theorem image_data : dataStart imageSuper = 5 := by decide +kernel

theorem image_small : imageSuper.nblocks+bitsPerBlock ≤ 2^32 := by
  rw [image_blocks]
  decide

/-- The image, with a process that has taken up a call, and `free_block` beside block 18. -/
theorem buffers_run_image : ∃ w, Run (Layout imageSuper) calls (fun _ => Allowed imageSuper) note [] w ∧
    w.call 0 ≠ none ∧ (w.book 0).Nodup ∧ Kept imageSuper [18] (freeBlock 0 6) := by
  have hstart : Run (Layout imageSuper) calls (fun _ => Allowed imageSuper) note []
      ⟨image, fun _ => none, fun _ => []⟩ := Run.start ⟨rfl, rfl⟩
  have htake := hstart.step (Step.take (p := 0) rfl ⟨.doClose 0, rfl⟩)
  refine ⟨_, htake, ?_, ((buffers_run image_small).1 _ htake 0).1,
    (buffers_run image_small).2.2 0 _ _ [18] (.freeBlock 6) (data_one ?_)⟩
  · dsimp only
    rw [Function.update_self]
    exact Option.some_ne_none _
  · rw [image_data]
    decide

theorem image_stuck : (solo note 400 (program 0 (.doClose 0)) image []).2.2 = [4, 4, 18] := by
  decide +kernel

/-- The close asks for the block of the bitmap, number 4, that it has not given back. -/
theorem image_close : ∃ w, Run (Layout imageSuper) calls (fun _ _ _ _ => True) note [] w ∧
    w.book 0 = [4, 4, 18] := by
  have hstart : Run (Layout imageSuper) calls (fun _ _ _ _ => True) note []
      ⟨image, fun _ => none, fun _ => []⟩ := Run.start ⟨rfl, rfl⟩
  have htake := hstart.step (Step.take (p := 0) rfl ⟨.doClose 0, rfl⟩)
  obtain ⟨w, hw, -, -, hbook, -⟩ :=
    @run_solo _ _ _ _ _ _ _ _ 400 0 (program 0 (.doClose 0)) _ htake
      (by simp only [Function.update_self])
  dsimp only at hbook
  rw [image_stuck] at hbook
  exact ⟨w, hw, hbook⟩

/-- It holds a block twice. -/
theorem image_close_twice : ∃ w, Run (Layout imageSuper) calls (fun _ _ _ _ => True) note [] w ∧
    ¬ (w.book 0).Nodup := by
  obtain ⟨w, hw, hbook⟩ := image_close
  refine ⟨w, hw, ?_⟩
  rw [hbook]
  decide

end BabyOS.BufferPaths

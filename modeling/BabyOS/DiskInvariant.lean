import BabyOS.FileContents

/-!
# The invariant of the disk

A sound disk shares its blocks out among the inodes, every file has the blocks of its
size, and the cached inodes agree with their records. Reading keeps the state, and
writing changes one file.
-/

set_option autoImplicit false

namespace BabyOS.DiskInvariant
open BabyOS.AtomicPrograms BabyOS.AtomicPrograms.Program BabyOS.ByteWords BabyOS.FileSystem
open BabyOS.DiskBlocks BabyOS.BlockRules BabyOS.FileBlocks BabyOS.FileContents
open BabyOS.BufferPaths (bitmapStart dataStart)

/-- An inode with just the blocks that its size needs. -/
structure Whole (d : ℕ → Bytes) (x : DiskInode) : Prop where
  size : x.size.toNat ≤ maxFileSize*blockSize
  mapped : Mapped d x (blocksOf x.size.toNat)

structure Sound (sb : SuperBlock) (s : Fs) : Prop where
  super : superBlock (s.disk superBlockLba) = sb
  fits : Fits sb
  buffers : ∀ n, s.buffers n = .init 1
  sharing : Sharing sb noBlock s.disk (record s.disk)
  whole : ∀ i, Inum sb i → Whole s.disk (record s.disk i)
  cached : ∀ c, 0 < (s.inodes c).ref → c < maxInodeCache ∧ (s.inodes c).dev = rootDev ∧
    Inum sb (s.inodes c).inum ∧ (s.inodes c).toDiskInode = record s.disk (s.inodes c).inum
  distinct : ∀ c c', 0 < (s.inodes c).ref → 0 < (s.inodes c').ref →
    (s.inodes c).inum = (s.inodes c').inum → c = c'

/-- What `write_inode` has changed when it returns `n`. -/
structure Stored (sb : SuperBlock) (i : ℕ) (data : Bytes) (off n : ℕ) (d : ℕ → Bytes) (x : DiskInode)
    (d' : ℕ → Bytes) (x' : DiskInode) : Prop where
  fields : x' = { x with addrs := x'.addrs, size := x'.size }
  size : x'.size.toNat = max x.size.toNat (off+n)
  whole : Whole d' x'
  records : ∀ j, Inum sb j → record d' j = if j = i then x' else record d j
  sharing : Sharing sb noBlock d' (record d')
  inside : ∀ o, off ≤ o → o < off+n → byteAt d' x' o = data (o-off)
  outside : ∀ o < x.size.toNat, o < off ∨ off+n ≤ o → byteAt d' x' o = byteAt d x o
  others : ∀ j, Inum sb j → j ≠ i → ∀ k, slot d' (record d j) k = slot d (record d j) k ∧
    (slot d (record d j) k ≠ 0 →
      d' (slot d (record d j) k) = d (slot d (record d j) k))
  low : ∀ b < inodeLba, d' b = d b
  disk : ∀ b, d' b ≠ d b → b = inodeBlock i ∨ (bitmapStart sb ≤ b ∧ b < dataStart sb) ∨
    b ≠ 0 ∧ ∃ k, slot d' x' k = b

section Sizes

variable {d d' : ℕ → Bytes} {x x' : DiskInode}

theorem Whole.tail (h : Whole d x) : ∀ k, nDirect < k → x.addrs k = 0 := h.mapped.tail

/-- The places are the same. -/
theorem Whole.congr (h : Whole d x) (hsize : x'.size = x.size) (haddrs : x'.addrs = x.addrs)
    (hslots : ∀ k, slot d' x k = slot d x k) : Whole d' x' := by
  have hslot : ∀ k, slot d' x' k = slot d x k := by
    intro k
    rw [← hslots k, slot, slot, haddrs]
  obtain ⟨hle, hmapped⟩ := h
  rw [← hsize] at hle hmapped
  refine ⟨hle, hmapped.le, fun b hb => by rw [hslot]; exact hmapped.blocks b hb, ?_, ?_⟩
  · rw [haddrs]
    exact hmapped.indirect
  · rw [haddrs]
    exact hmapped.tail

end Sizes

section Rules

variable {t : Bool} {ok : Fs → Event → Prop} {sb : SuperBlock} {s : Fs} {p c i off n : ℕ} {data : Bytes}

theorem Sound.opened (h : Sound sb s) : Open sb noBlock s :=
  ⟨h.super, fun n _ => h.buffers n, fun _ hn => hn.elim⟩

theorem meets_writeToDisk {Q : Unit → Fs → Prop} (hopen : Open sb noBlock s)
    (hQ : Q () { s with disk := putRecord s.disk (s.inodes c).inum (s.inodes c).toDiskInode }) :
    (writeToDisk p c).Meets t ok s Q := by
  apply meets_look
  have hblock : (s.inodes c).inum/inodesPerBlock+2 = inodeBlock (s.inodes c).inum := Nat.add_comm _ _
  rw [hblock]
  have hfree := hopen.buffers (inodeBlock (s.inodes c).inum) id
  apply meets_readBlock hfree
  apply meets_look
  apply meets_writeBlock
  refine meets_releaseBlock (g := fun _ => pure ()) (taken_self s _) ?_
  rw [setDisk_back (s := s) hfree]
  exact hQ

/-- Contents of the file that was written, whose record may have been put on the disk. -/
theorem stored_of {d d' d'' : ℕ → Bytes} {x x' x'' : DiskInode} (hi : Inum sb i)
    (hend : off+n ≤ maxFileSize*blockSize) (hle : x.size.toNat ≤ maxFileSize*blockSize)
    (h : Written sb (record d) i data 0 off n (blocksOf x.size.toNat) d x d' x')
    (hx'' : x'' = { x' with size := x''.size }) (hsize : x''.size.toNat = max x.size.toNat (off+n))
    (hdisk : ∀ b, b ≠ inodeBlock i → d'' b = d' b)
    (hrecord : ∀ j, Inum sb j → record d'' j = if j = i then x'' else record d j) :
    Stored sb i data off n d x d'' x'' := by
  have hself : Function.update (record d) i x' i = x' := Function.update_self ..
  have haddrs : x''.addrs = x'.addrs := by rw [hx'']
  have hlow := inodeBlock_lt hi
  have hstart := bitmapStart_le sb
  have hdata : ∀ b, dataStart sb ≤ b → d'' b = d' b := fun b hb => hdisk b (by omega)
  obtain ⟨hsharing, hslots⟩ := h.sharing.disk (fun b (hb : d'' b ≠ _) => by
    have hbi : b = inodeBlock i := by
      by_contra hc
      exact hb (hdisk b hc)
    rw [hbi]
    exact ⟨Or.inl hlow, fun hc => by have := (h.sharing.indirect hc).1; omega⟩)
  have hsame : ∀ k, slot d'' x'' k = slot d'' x' k := by
    intro k
    rw [slot, slot, haddrs]
  have hslot : ∀ k, slot d'' x'' k = slot d' x' k := by
    intro k
    have := hslots i hi k
    rw [hself] at this
    rw [hsame, this]
  have hplaces : ∀ k, slot d' x' k ≠ 0 → dataStart sb ≤ slot d' x' k := by
    intro k hk
    have hplace : place sb d' (Function.update (record d) i x') (i, k) = slot d' x' k := by
      rw [place_inum hi, hself]
    rw [← hplace] at hk ⊢
    exact (h.sharing.range _ hk).1
  have hbyte : ∀ o, byteAt d'' x'' o = byteAt d' x' o := by
    intro o
    rw [byteAt, byteAt, hslot]
    by_cases hzero : slot d' x' (fileSlot (o/blockSize)) = 0
    · rw [hzero, hdisk 0 (by have := super_lt_inodeBlock i; omega)]
    · rw [hdata _ (hplaces _ hzero)]
  refine ⟨?_, hsize, ?_, hrecord, ?_, fun o ho hlt => ?_, fun o ho hout => ?_, fun j hj hji k => ?_,
    fun b hb => ?_, fun b hb => ?_⟩
  · rw [hx'', h.grown.fields]
  · have hblocks : blocksOf x''.size.toNat = max (blocksOf x.size.toNat) (blocksOf (off+n)) := by
      rw [hsize, blocksOf, blocksOf, blocksOf, blockSize]
      omega
    refine ⟨by omega, ?_⟩
    rw [hblocks]
    obtain ⟨hm, hb, hind, htail⟩ := h.mapped
    exact ⟨hm, fun b hlt => by rw [hslot]; exact hb b hlt, by rwa [haddrs], by rwa [haddrs]⟩
  · refine hsharing.congr (fun _ => Iff.rfl) (fun _ => Iff.rfl) (fun a => ?_)
    by_cases ha : Inum sb a.1
    · rw [place, place, if_pos ha, if_pos ha, hrecord _ ha]
      by_cases hai : a.1 = i
      · rw [if_pos hai, hai, hself, hsame]
      · rw [if_neg hai, Function.update_of_ne hai]
    · rw [place, place, if_neg ha, if_neg ha]
  · rw [hbyte, h.inside o ho hlt, Nat.zero_add]
  · rw [hbyte, h.outside o (lt_of_lt_of_le ho (blocksOf_le.mp le_rfl)) hout]
  · obtain ⟨hslot', hdata'⟩ := h.grown.others h.sharing hi hj hji k
    have hown : Function.update (record d) i x' j = record d j := Function.update_of_ne hji ..
    have hnew := hslots j hj k
    rw [hown] at hnew
    refine ⟨by rw [hnew, hslot'], fun hk => ?_⟩
    have hplace : place sb d' (Function.update (record d) i x') (j, k) = slot d (record d j) k := by
      rw [place_inum hj, hown, hslot']
    have hrange := (h.sharing.range (j, k) (by rwa [hplace])).1
    rw [hplace] at hrange
    rw [hdata _ hrange, hdata' hk]
  · have hsuper := super_lt_inodeBlock i
    have hlba : superBlockLba = 1 := rfl
    have hinode : inodeLba = 2 := rfl
    rw [hdisk b (by omega)]
    exact grown_super hi h.grown h.sharing (by omega)
  · by_cases hbi : b = inodeBlock i
    · exact Or.inl hbi
    · rw [hdisk b hbi] at hb
      obtain hbitmap | ⟨hne, k, hk⟩ := h.grown.disk b hb
      · exact Or.inr (Or.inl hbitmap)
      · exact Or.inr (Or.inr ⟨hne, k, by rw [hslot, hk]⟩)

theorem Stored.low_super {d d' : ℕ → Bytes} {x x' : DiskInode} (h : Stored sb i data off n d x d' x') :
    d' superBlockLba = d superBlockLba := h.low superBlockLba (by decide)

/-- The disk stays sound when a file is written. -/
theorem Sound.stored {d' : ℕ → Bytes} {x' : DiskInode} (h : Sound sb s) (hc : 0 < (s.inodes c).ref)
    (hst : Stored sb (s.inodes c).inum data off n s.disk (s.inodes c).toDiskInode d' x') :
    Sound sb (put s c d' x') := by
  obtain ⟨-, -, hi, hx⟩ := h.cached c hc
  have hinum : ∀ j, ((put s c d' x').inodes j).inum = (s.inodes j).inum := by
    intro j
    by_cases hj : j = c
    · rw [hj, put_inode]
    · rw [put_other _ _ _ _ hj]
  have hdev : ∀ j, ((put s c d' x').inodes j).dev = (s.inodes j).dev := by
    intro j
    by_cases hj : j = c
    · rw [hj, put_inode]
    · rw [put_other _ _ _ _ hj]
  have href : ∀ j, ((put s c d' x').inodes j).ref = (s.inodes j).ref := by
    intro j
    by_cases hj : j = c
    · rw [hj, put_inode]
    · rw [put_other _ _ _ _ hj]
  refine ⟨?_, h.fits, h.buffers, hst.sharing, fun j hj => ?_, fun j hj => ?_, fun j j' hj hj' heq => ?_⟩
  · rw [put_disk, hst.low_super, h.super]
  · rw [put_disk, hst.records j hj]
    by_cases hji : j = (s.inodes c).inum
    · rw [if_pos hji]
      exact hst.whole
    · rw [if_neg hji]
      exact (h.whole j hj).congr rfl rfl (fun k => (hst.others j hj hji k).1)
  · rw [href] at hj
    obtain ⟨hlt, hroot, hij, hxj⟩ := h.cached j hj
    rw [hinum, hdev, put_disk, hst.records _ hij]
    refine ⟨hlt, hroot, hij, ?_⟩
    by_cases hjc : j = c
    · rw [hjc, put_inode, if_pos rfl]
    · rw [put_other _ _ _ _ hjc, if_neg (fun heq => hjc (h.distinct j c hj hc heq)), hxj]
  · rw [href] at hj hj'
    rw [hinum, hinum] at heq
    exact h.distinct j j' hj hj' heq

theorem meets_writeInode {Q : Option ℕ → Fs → Prop} (h : Sound sb s) (hc : 0 < (s.inodes c).ref)
    (hfull : blocksOf (s.inodes c).size.toNat*blockSize < off+n → ∀ s, ¬ ok s (.branch .full))
    (hdev : (s.inodes c).type = typeDev → ∀ r, Q r s)
    (hrefused : (s.inodes c).type ≠ typeDev →
      (s.inodes c).size.toNat < off ∨ maxFileSize*blockSize < off+n → Q none s)
    (hQ : (s.inodes c).type ≠ typeDev → off ≤ (s.inodes c).size.toNat → off+n ≤ maxFileSize*blockSize →
      ∀ d' x', Stored sb (s.inodes c).inum data off n s.disk (s.inodes c).toDiskInode d' x' →
        Q (some n) (put s c d' x')) :
    (writeInode p c data off n).Meets t ok s Q := by
  obtain ⟨-, -, hi, hx⟩ := h.cached c hc
  have hwhole := h.whole _ hi
  rw [← hx] at hwhole
  apply meets_look
  by_cases htype : (s.inodes c).type = typeDev
  · rw [if_pos htype]
    exact ⟨fun _ => rfl, fun _ _ => hdev htype _⟩
  · rw [if_neg htype]
    by_cases hoff : off > (s.inodes c).size.toNat
    · rw [if_pos hoff]
      exact meets_pure (hrefused htype (Or.inl hoff))
    · rw [if_neg hoff]
      by_cases hend : off+n > maxFileSize*blockSize
      · rw [if_pos hend]
        exact meets_pure (hrefused htype (Or.inr hend))
      · rw [if_neg hend]
        have hstored := hQ htype (by omega) (by omega)
        have hstart : off ≤ blocksOf (s.inodes c).size.toNat*blockSize := by
          have := blocksOf_le.mp (le_refl (blocksOf (s.inodes c).size.toNat))
          omega
        refine meets_bind (meets_writeLoop h.fits h.opened h.sharing hi hx.symm rfl hwhole.mapped hstart
          (by omega) le_rfl hfull (fun d' x' hwritten => ?_))
        apply meets_look
        have hkeep : ∀ j, Inum sb j → record d' j = record s.disk j := fun j hj =>
          record_congr (grown_super hi hwritten.grown hwritten.sharing (inodeBlock_lt hj))
        have hsize : x'.size = (s.inodes c).size := by rw [hwritten.grown.fields]
        rw [put_inode, Nat.zero_add]
        dsimp only
        rw [hsize]
        by_cases hgrow : n > 0 ∧ off+n > (s.inodes c).size.toNat
        · rw [if_pos hgrow]
          have hsmall : (BitVec.ofNat 32 (off+n)).toNat = off+n := by
            have hmax : maxFileSize*blockSize < 2^32 := by decide
            exact toNat_ofNat (by omega)
          obtain ⟨x'', hx''⟩ : ∃ x'', x'' = { x' with size := BitVec.ofNat 32 (off+n) } := ⟨_, rfl⟩
          have hact : (put s c d' x').setInode c
              { (put s c d' x').inodes c with size := BitVec.ofNat 32 (off+n) } = put s c d' x'' := by
            rw [hx'', Fs.setInode, put_inode, put, put]
            dsimp only
            rw [Function.update_idem]
          have htail : ∀ k, nDirect < k → x''.addrs k = 0 := by
            rw [hx'']
            exact hwritten.mapped.tail
          apply meets_act
          rw [hact]
          refine meets_bind (meets_writeToDisk (?_ : Open sb _ _) ?_)
          · exact open_put h.opened (grown_super hi hwritten.grown hwritten.sharing
              (Nat.lt_trans (super_lt_inodeBlock _) (inodeBlock_lt hi)))
          · rw [put_inode, put_disk]
            refine meets_pure (hstored _ _ (stored_of hi (by omega) hwhole.size hwritten ?_ ?_
              (fun b hb => putRecord_other hb d' x'') (fun j hj => ?_)))
            · rw [hx'']
            · rw [hx'', hsmall, max_eq_right (by omega)]
            · rw [record_put htail, hkeep j hj]
        · rw [if_neg hgrow]
          have hle : off+n ≤ (s.inodes c).size.toNat := by omega
          have hx' : x' = (s.inodes c).toDiskInode := hwritten.same (by
            rw [blocksOf_le]
            exact le_trans hle (blocksOf_le.mp le_rfl))
          refine meets_pure (hstored _ _ (stored_of hi (by omega) hwhole.size hwritten rfl ?_ (fun _ _ => rfl)
            (fun j hj => ?_)))
          · rw [hsize, max_eq_left hle]
          · rw [hkeep j hj, hx', hx]
            by_cases hji : j = (s.inodes c).inum
            · rw [if_pos hji, hji]
            · rw [if_neg hji]

/-- The bytes that `read_inode` finds in a file; `none` is -1. -/
def bytesFrom (d : ℕ → Bytes) (x : DiskInode) (off n : ℕ) : Option (List Byte) :=
  if off ≤ x.size.toNat then some (slice (byteAt d x) off (min n (x.size.toNat-off))) else none

theorem meets_readInode {Q : Option (List Byte) → Fs → Prop} (h : Sound sb s)
    (hc : 0 < (s.inodes c).ref) (hdev : (s.inodes c).type = typeDev → ∀ r, Q r s)
    (hQ : (s.inodes c).type ≠ typeDev → Q (bytesFrom s.disk (s.inodes c).toDiskInode off n) s) :
    (readInode p c off n).Meets t ok s Q := by
  obtain ⟨-, -, hi, hx⟩ := h.cached c hc
  have hwhole := h.whole _ hi
  rw [← hx] at hwhole
  apply meets_look
  by_cases htype : (s.inodes c).type = typeDev
  · rw [if_pos htype]
    exact ⟨fun _ => rfl, fun _ _ => hdev htype _⟩
  · rw [if_neg htype]
    have hread := hQ htype
    rw [bytesFrom] at hread
    by_cases hoff : off > (s.inodes c).size.toNat
    · rw [if_neg (by omega)] at hread
      rw [if_pos hoff]
      exact meets_pure hread
    · rw [if_pos (by omega)] at hread
      rw [if_neg hoff]
      have hcut : (if off+n > (s.inodes c).size.toNat then (s.inodes c).size.toNat-off else n) =
          min n ((s.inodes c).size.toNat-off) := by
        split <;> omega
      have hend : off+min n ((s.inodes c).size.toNat-off) ≤ blocksOf (s.inodes c).size.toNat*blockSize := by
        have := blocksOf_le.mp (le_refl (blocksOf (s.inodes c).size.toNat))
        omega
      rw [hcut]
      refine meets_bind (meets_readLoop h.fits h.opened h.sharing hi hx.symm rfl hwhole.mapped hend
        le_rfl ?_)
      exact meets_pure hread

end Rules

/-! ## A small disk -/

section Small

def zeros : Bytes := fun _ => 0

/-- The root directory, which has one block, and a file that is empty. -/
def smallRoot : DiskInode := ⟨typeDir, 0, 0, 1, 48, fun k => if k = 0 then 4 else 0⟩

def smallFile : DiskInode := ⟨typeFile, 0, 0, 1, 0, fun _ => 0⟩

def smallName : List Byte := [0x61]

/-- Eight blocks, three inodes and the directory with the file in it. -/
def smallBase : ℕ → Bytes
  | 1 => putWord 8 4 3 (putWord 4 4 8 (putWord 0 4 8 zeros))
  | 3 => putWord 0 4 31 zeros
  | 4 => paste 32 16 (entryBytes 2 smallName) 0 (paste 16 16 (entryBytes 1 [dot, dot]) 0
      (paste 0 16 (entryBytes 1 [dot]) 0 zeros))
  | _ => zeros

def smallDisk : ℕ → Bytes := putRecord (putRecord smallBase 1 smallRoot) 2 smallFile

def smallSuper : SuperBlock := ⟨8, 8, 3⟩

/-- Slot 0 has the directory and slot 1 the file. -/
def smallInodes (c : ℕ) : Inode :=
  if c = 0 then ⟨smallRoot, rootDev, 1, 2, true, .init 1⟩
  else if c = 1 then ⟨smallFile, rootDev, 2, 1, true, .init 1⟩
  else ⟨⟨0, 0, 0, 0, 0, fun _ => 0⟩, 0, 0, 0, false, .init 1⟩

/-- Two processes, in the root directory; process 1 has the file open, as descriptor 0. -/
def small : Fs where
  disk := smallDisk
  buffers := fun _ => .init 1
  inodes := smallInodes
  files := {
    table := fun f => if f = 0 then ⟨.inode, 1, true, true, some 1, none, none⟩
      else ⟨.none, 0, false, false, none, none, none⟩
    procs := fun q => ⟨fun fd => if q = 1 ∧ fd = 0 then some 0 else none, .running⟩
    count := 2
    pipes := fun _ => .init
    pipeCount := 0 }
  offsets := fun _ => 0
  cwd := fun _ => 0
  devices := fun _ => none
  overrun := fun _ => false
  overruns := 0

theorem small_root : record smallDisk 1 = smallRoot := by
  rw [smallDisk, record_put (fun _ _ => rfl), if_neg (by decide), record_put, if_pos rfl]
  exact fun k hk => if_neg (by omega)

theorem small_file : record smallDisk 2 = smallFile := by
  rw [smallDisk, record_put (fun _ _ => rfl), if_pos rfl]

theorem small_inum {i : ℕ} (h : Inum smallSuper i) : i = 1 ∨ i = 2 := by
  obtain ⟨hpos, hlt⟩ := h
  have hlt : i < 3 := hlt
  omega

theorem small_slot (k : ℕ) : slot smallDisk smallRoot k = if k = 0 then 4 else 0 := by
  by_cases hk : k ≤ nDirect
  · rw [slot_direct hk, smallRoot]
    dsimp only
    split <;> rfl
  · rw [slot_none (by omega) rfl, if_neg (by omega)]

theorem small_slot_file (k : ℕ) : slot smallDisk smallFile k = 0 := by
  by_cases hk : k ≤ nDirect
  · rw [slot_direct hk]
    rfl
  · exact slot_none (by omega) rfl

theorem small_place (a : ℕ × ℕ) :
    place smallSuper smallDisk (record smallDisk) a = if a = (1, 0) then 4 else 0 := by
  obtain ⟨i, k⟩ := a
  by_cases hi : Inum smallSuper i
  · rw [place_inum hi]
    obtain rfl | rfl := small_inum hi
    · rw [small_root, small_slot]
      exact if_congr (by rw [Prod.mk.injEq, eq_self_iff_true, true_and]) rfl rfl
    · rw [small_file, small_slot_file, if_neg (fun hc => absurd (Prod.mk.inj hc).1 (by decide))]
  · rw [place, if_neg hi, if_neg]
    intro hc
    obtain ⟨rfl, rfl⟩ := Prod.mk.inj hc
    exact hi (by decide)

theorem small_marked : ∀ n < 8, (Marked smallSuper smallDisk n ↔ n < 5) := by
  unfold Marked
  decide +kernel

theorem small_sharing : Sharing smallSuper noBlock smallDisk (record smallDisk) := by
  have hstart : dataStart smallSuper = 4 := by decide +kernel
  refine ⟨by rw [hstart]; decide, fun a ha => ?_, fun a b ha hab => ?_, fun _ hn => hn.elim,
    fun _ => id, fun n hn => ?_⟩
  · rw [small_place] at ha ⊢
    rw [hstart]
    split at ha
    next h => rw [if_pos h]; decide
    next => exact absurd rfl ha
  · rw [small_place, small_place] at hab
    rw [small_place] at ha
    split at ha
    next h =>
      rw [if_pos h] at hab
      split at hab
      next h' => rw [h, h']
      next => cases hab
    next => exact absurd rfl ha
  · rw [small_marked n hn, hstart]
    constructor
    · intro hlt
      by_cases hn4 : n = 4
      · exact Or.inr (Or.inr ⟨(1, 0), by rw [small_place, if_pos rfl, hn4]⟩)
      · exact Or.inl (by omega)
    · rintro (hlt | hheld | ⟨a, rfl⟩)
      · omega
      · exact hheld.elim
      · rw [small_place]
        split <;> decide

theorem small_whole {i : ℕ} (h : Inum smallSuper i) : Whole smallDisk (record smallDisk i) := by
  obtain rfl | rfl := small_inum h
  · rw [small_root]
    refine ⟨by decide, by decide, fun b hb => ?_, by decide, fun k hk => if_neg (by omega)⟩
    have hblocks : blocksOf smallRoot.size.toNat = 1 := by decide
    have hslot : fileSlot b = 0 ↔ b = 0 := by
      have hdirect : nDirect = 12 := rfl
      rw [fileSlot]
      split <;> omega
    rw [small_slot, hblocks]
    split <;> omega
  · rw [small_file]
    refine ⟨by decide, by decide, fun b hb => ?_, by decide, fun k _ => rfl⟩
    have hblocks : blocksOf smallFile.size.toNat = 0 := by decide
    rw [small_slot_file, hblocks]
    omega

theorem small_cached {c : ℕ} (h : 0 < (smallInodes c).ref) : c = 0 ∨ c = 1 := by
  rw [smallInodes] at h
  split at h
  · exact Or.inl ‹_›
  · split at h
    · exact Or.inr ‹_›
    · exact absurd h (Nat.lt_irrefl 0)

theorem small_sound : Sound smallSuper small := by
  refine ⟨?_, ?_, fun n => rfl, small_sharing, fun i hi => small_whole hi, fun c hc => ?_,
    fun c c' hc hc' heq => ?_⟩
  · rw [superBlock, smallSuper, SuperBlock.mk.injEq]
    decide +kernel
  · rw [Fits]
    decide
  · obtain rfl | rfl := small_cached hc
    · exact ⟨by decide, rfl, by decide, small_root.symm⟩
    · exact ⟨by decide, rfl, by decide, small_file.symm⟩
  · obtain rfl | rfl := small_cached hc <;> obtain rfl | rfl := small_cached hc'
    · rfl
    · exact absurd heq (by decide)
    · exact absurd heq (by decide)
    · rfl

end Small

end BabyOS.DiskInvariant

import BabyOS.BlockRules

/-!
# Blocks of a file

`block_map` finds the block of a file, or takes a free one for it: the next block of a
file without holes, with an indirect block before it where one is needed.
-/

set_option autoImplicit false

namespace BabyOS.FileBlocks
open BabyOS.AtomicPrograms BabyOS.AtomicPrograms.Program BabyOS.ByteWords BabyOS.FileSystem
open BabyOS.DiskBlocks BabyOS.BlockRules
open BabyOS.BufferPaths (bitmapStart dataStart)

/-- No block is in hand. -/
def noBlock : ℕ → Prop := fun _ => False

/-- The state with another disk, and other contents of the cached inode `c`. -/
def put (s : Fs) (c : ℕ) (d : ℕ → Bytes) (x : DiskInode) : Fs :=
  { s with disk := d, inodes := Function.update s.inodes c { s.inodes c with toDiskInode := x } }

section Put

variable (s : Fs) (c : ℕ) (d d' : ℕ → Bytes) (x x' : DiskInode)

@[simp] theorem put_disk : (put s c d x).disk = d := rfl

@[simp] theorem put_buffers : (put s c d x).buffers = s.buffers := rfl

@[simp] theorem put_inode : (put s c d x).inodes c = { s.inodes c with toDiskInode := x } :=
  Function.update_self ..

theorem put_other {j : ℕ} (h : j ≠ c) : (put s c d x).inodes j = s.inodes j :=
  Function.update_of_ne h ..

@[simp] theorem put_put : put (put s c d x) c d' x' = put s c d' x' := by
  rw [put, put_inode, put, put]
  dsimp only
  rw [Function.update_idem]

@[simp] theorem put_self : put s c s.disk (s.inodes c).toDiskInode = s := by
  rw [put]
  exact congrArg (fun inodes => { s with inodes }) (Function.update_eq_self c s.inodes)

/-- The contents of the inode are as they were. -/
theorem put_same {s : Fs} {c : ℕ} {x : DiskInode} (h : (s.inodes c).toDiskInode = x)
    (d : ℕ → Bytes) : put s c d x = { s with disk := d } := by
  rw [put, ← h]
  exact congrArg (fun inodes => { s with disk := d, inodes }) (Function.update_eq_self c s.inodes)

end Put

/-! ## A block more -/

section Steps

variable {sb : SuperBlock} {d : ℕ → Bytes} {x : DiskInode} {v : ℕ → DiskInode} {i k n : ℕ}

/-- What a free block `n` that goes to place `k` changes. -/
structure Gained (sb : SuperBlock) (v : ℕ → DiskInode) (i k n : ℕ) (d : ℕ → Bytes) (x : DiskInode)
    (d' : ℕ → Bytes) (x' : DiskInode) : Prop where
  grown : Grown sb d x d' x'
  sharing : Sharing sb noBlock d' (Function.update v i x')
  slots : ∀ j, slot d' x' j = if j = k then n else slot d x j
  data : ∀ m, m ≠ n → dataStart sb ≤ m → m ≠ (x.addrs nDirect).toNat → d' m = d m
  tail : (∀ j, nDirect < j → x.addrs j = 0) → ∀ j, nDirect < j → x'.addrs j = 0

theorem word_claimed {j : ℕ} (hj : j < nIndirect) : word (claimed sb d n n) (4*j) 4 = 0 := by
  have hsize : nIndirect*4 = blockSize := rfl
  have hzero : word (claimed sb d n n) (4*j) 4 = word (fun _ => 0) (4*j) 4 := by
    apply word_congr
    intro l _ hl
    exact claimed_zero (by omega)
  rw [hzero]
  rfl

/-- The free block goes to an address. -/
theorem gained_addr (hwide : sb.nblocks ≤ 2^32) (h : Sharing sb noBlock d v) (hi : Inum sb i)
    (hx : v i = x) (hk : k ≤ nDirect) (hzero : x.addrs k = 0) (hn : n < sb.nblocks)
    (hfree : ¬ Marked sb d n) :
    Gained sb v i k n d x (claimed sb d n) (withAddr x k (BitVec.ofNat 32 n)) := by
  obtain ⟨hclaim, hkeep⟩ := h.claim hn hfree (fun m => (or_iff_right id).symm : ∀ m, m = n ↔ _)
  have hfirst := (h.free hn hfree).1
  have hpos := dataStart_pos sb
  have hslots : ∀ j, slot (claimed sb d n) x j = slot d x j := by
    rw [← hx]
    exact hkeep i hi
  have hnew : ∀ j, slot (claimed sb d n) (withAddr x k (BitVec.ofNat 32 n)) j =
      if j = k then n else slot d x j := by
    intro j
    rw [slot_withAddr hk (by omega) (by rintro rfl; exact ⟨hzero, fun l hl => word_claimed hl⟩), hslots]
  have hempty : slot d x k = 0 := by
    rw [slot_direct hk, hzero]
    rfl
  refine ⟨⟨rfl, fun j hj => ?_, fun m hm => ?_⟩, ?_, hnew, fun m hmn hm _ => ?_, fun htail j hj => ?_⟩
  · rw [hnew, if_neg (fun hc => hj (by rw [hc, hempty]))]
  · by_cases hmn : m = n
    · exact Or.inr ⟨by omega, k, by rw [hnew, if_pos rfl, hmn]⟩
    · by_cases hbit : m = bitBlock sb n
      · have hlt := bitBlock_lt hn
        have hle := le_bitBlock sb n
        exact Or.inl ⟨by omega, by omega⟩
      · exact absurd (claimed_other hbit hmn) hm
  · rw [← hx]
    refine hclaim.setAddr hi hk rfl hwide ?_ (fun _ l hl => word_claimed hl) (fun m => ?_)
    · rw [hkeep i hi, hx, hempty]
    · exact (and_not_self_iff _).symm
  · have hlt := bitBlock_lt hn
    exact claimed_other (by omega) hmn
  · rw [withAddr_ne (by omega)]
    exact htail j hj

/-- The free block goes to an entry of the indirect block. -/
theorem gained_entry (hwide : sb.nblocks ≤ 2^32) (h : Sharing sb noBlock d v) (hi : Inum sb i)
    (hx : v i = x) (hind : x.addrs nDirect ≠ 0) (hk : k < nIndirect)
    (hzero : slot d x (nDirect+1+k) = 0) (hn : n < sb.nblocks) (hfree : ¬ Marked sb d n) :
    Gained sb v i (nDirect+1+k) n d x (withEntry (claimed sb d n) x k n) x := by
  obtain ⟨hclaim, hkeep⟩ := h.claim hn hfree (fun m => (or_iff_right id).symm : ∀ m, m = n ↔ _)
  have hfirst := (h.free hn hfree).1
  have hpos := dataStart_pos sb
  have hslots : ∀ j, slot (claimed sb d n) x j = slot d x j := by
    rw [← hx]
    exact hkeep i hi
  have hnew : ∀ j, slot (withEntry (claimed sb d n) x k n) x j =
      if j = nDirect+1+k then n else slot d x j := by
    intro j
    rw [slot_withEntry hind hk (by omega), hslots]
  have hother : ∀ m, m ≠ (x.addrs nDirect).toNat →
      withEntry (claimed sb d n) x k n m = claimed sb d n m := fun m hm => Function.update_of_ne hm _ _
  refine ⟨⟨rfl, fun j hj => ?_, fun m hm => ?_⟩, ?_, hnew, fun m hmn hm hmi => ?_, fun htail => htail⟩
  · rw [hnew, if_neg (fun hc => hj (by rw [hc, hzero]))]
  · by_cases hmn : m = n
    · exact Or.inr ⟨by omega, _, by rw [hnew, if_pos rfl, hmn]⟩
    · by_cases hmi : m = (x.addrs nDirect).toNat
      · refine Or.inr ⟨by rw [hmi]; exact toNat_ne.mpr hind, nDirect, ?_⟩
        rw [hnew, if_neg (by omega), slot_direct le_rfl, hmi]
      · by_cases hbit : m = bitBlock sb n
        · have hlt := bitBlock_lt hn
          have hle := le_bitBlock sb n
          exact Or.inl ⟨by omega, by omega⟩
        · rw [hother m hmi, claimed_other hbit hmn] at hm
          exact absurd rfl hm
  · rw [← hx, Function.update_eq_self]
    refine (hclaim.setEntry hi (by rwa [hx]) hk rfl hwide ?_ (fun m => ?_)).1
    · rw [hkeep i hi, hx, hzero]
    · exact (and_not_self_iff _).symm
  · have hlt := bitBlock_lt hn
    rw [hother m hmi, claimed_other (by omega) hmn]

/-- The blocks that hold data of the file are not written. -/
theorem Gained.kept {d' : ℕ → Bytes} {x' : DiskInode} (g : Gained sb v i k n d x d' x')
    (h : Sharing sb noBlock d v) (hi : Inum sb i) (hx : v i = x) (hfree : ¬ Marked sb d n) {j : ℕ}
    (hj : j ≠ nDirect) (hne : slot d x j ≠ 0) : d' (slot d x j) = d (slot d x j) := by
  subst hx
  have hplace : place sb d v (i, j) = slot d (v i) j := place_inum hi
  have hrange := h.range (i, j) (by rwa [hplace])
  have hused := h.isUsed (a := (i, j)) (by rwa [hplace])
  rw [hplace] at hrange hused
  apply g.data
  · intro hc
    exact hfree (hc ▸ hused)
  · exact hrange.1
  · intro hc
    by_cases hind : (v i).addrs nDirect = 0
    · rw [hind] at hc
      exact hne hc
    · exact h.not_indirect hi hj hne ⟨i, hi, hind, hc.symm⟩

/-- The next block of the file is there, and the indirect block with the first entry. -/
theorem mapped_next {d' : ℕ → Bytes} {x' : DiskInode} {m n' : ℕ} (h : Mapped d x m)
    (hm : m < maxFileSize) (hn : n ≠ 0) (hn' : n' ≠ 0)
    (hslots : ∀ j, slot d' x' j =
      if j = fileSlot m then n else if j = nDirect ∧ m = nDirect then n' else slot d x j)
    (htail : ∀ j, nDirect < j → x'.addrs j = 0) : Mapped d' x' (m+1) := by
  refine ⟨hm, fun b hb => ?_, ?_, htail⟩
  · rw [hslots]
    by_cases hbm : b = m
    · subst hbm
      rw [if_pos rfl]
      exact iff_of_true hn (Nat.lt_succ_self b)
    · have hne : fileSlot b ≠ fileSlot m := fun hc => hbm (fileSlot_injective hc)
      rw [if_neg hne, if_neg (fun hc => fileSlot_ne b hc.1), h.blocks b hb]
      omega
  · have hold := h.indirect
    rw [← toNat_ne, ← slot_direct (d := d) le_rfl] at hold
    rw [← toNat_ne, ← slot_direct (d := d') le_rfl, hslots, if_neg (fileSlot_ne m).symm]
    by_cases hmd : m = nDirect
    · rw [if_pos ⟨rfl, hmd⟩]
      exact iff_of_true hn' (by omega)
    · rw [if_neg (fun hc => hmd hc.2), hold]
      omega

end Steps

/-! ## The block of a file -/

/-- What `block_map` has done when it returns block `n` for block `b` of a file that had its
first `m` blocks. -/
structure BlockMapped (sb : SuperBlock) (v : ℕ → DiskInode) (i b m n : ℕ) (d : ℕ → Bytes)
    (x : DiskInode) (d' : ℕ → Bytes) (x' : DiskInode) : Prop where
  grown : Grown sb d x d' x'
  sharing : Sharing sb noBlock d' (Function.update v i x')
  mapped : Mapped d' x' (max m (b+1))
  here : slot d' x' (fileSlot b) = n
  data : ∀ k, k ≠ nDirect → slot d x k ≠ 0 → d' (slot d x k) = d (slot d x k)
  same : b < m → d' = d ∧ x' = x

section Maps

variable {t : Bool} {ok : Fs → Event → Prop} {sb : SuperBlock} {s : Fs} {p c i b m k : ℕ}
  {v : ℕ → DiskInode}

/-- The bits of the super block, the inodes and the bitmap are set. -/
theorem metadata_marked {held : ℕ → Prop} {d : ℕ → Bytes} (h : Sharing sb held d v) :
    ∀ n < dataStart sb, n < sb.nblocks → Marked sb d n :=
  fun n hn hlt => (h.marks n hlt).mpr (Or.inl hn)

theorem meets_addrOf {Q : BitVec 32 → Fs → Prop} (hsb : Fits sb) (hopen : Open sb noBlock s)
    (h : Sharing sb noBlock s.disk v) (hfull : (s.inodes c).addrs k = 0 → ∀ s, ¬ ok s (.branch .full))
    (hold : (s.inodes c).addrs k ≠ 0 → Q ((s.inodes c).addrs k) s)
    (hnew : (s.inodes c).addrs k = 0 → ∀ n < sb.nblocks, ¬ Marked sb s.disk n →
      Q (BitVec.ofNat 32 n) (put s c (claimed sb s.disk n)
        (withAddr (s.inodes c).toDiskInode k (BitVec.ofNat 32 n)))) :
    (addrOf p c k).Meets t ok s Q := by
  apply meets_look
  by_cases hzero : (s.inodes c).addrs k = 0
  · rw [if_pos hzero]
    refine meets_bind (meets_allocBlock hsb hopen (metadata_marked h) (hfull hzero) (fun n hn hfree => ?_))
    refine meets_act ⟨fun _ => rfl, fun _ _ => ?_⟩
    have hself : ((put s c (claimed sb s.disk n)
        (withAddr (s.inodes c).toDiskInode k (BitVec.ofNat 32 n))).inodes c).addrs k = BitVec.ofNat 32 n := by
      rw [put_inode]
      exact withAddr_self _ k _
    have hfound : Q (((put s c (claimed sb s.disk n)
        (withAddr (s.inodes c).toDiskInode k (BitVec.ofNat 32 n))).inodes c).addrs k)
        (put s c (claimed sb s.disk n) (withAddr (s.inodes c).toDiskInode k (BitVec.ofNat 32 n))) := by
      rw [hself]
      exact hnew hzero n hn hfree
    exact hfound
  · rw [if_neg hzero]
    exact ⟨fun _ => rfl, fun _ _ => hold hzero⟩

/-- What is left of `block_map` with the indirect block in hand. -/
def mapEntry (p block : ℕ) (a : BitVec 32) : Prog (BitVec 32) := do
  mark (.branch (.indirect a.toNat))
  let b ← readBlock p a.toNat
  let lba := word b (4*(block-nDirect)) 4
  if lba = 0 then do
    let n ← allocBlock p
    writeBlock a.toNat (putWord (4*(block-nDirect)) 4 n b)
    releaseBlock a.toNat
    pure (BitVec.ofNat 32 n)
  else do
    releaseBlock a.toNat
    pure (BitVec.ofNat 32 lba)

theorem blockMap_indirect (hb : ¬ b < nDirect) :
    blockMap p c b = addrOf p c nDirect >>= mapEntry p b := by
  rw [blockMap, if_neg hb]
  rfl

theorem meets_mapEntry {x : DiskInode} {Q : BitVec 32 → Fs → Prop} (hsb : Fits sb)
    (hopen : Open sb noBlock s) (h : Sharing sb noBlock s.disk v) (hi : Inum sb i) (hx : v i = x)
    (hc : (s.inodes c).toDiskInode = x) (hind : x.addrs nDirect ≠ 0) (hk : k < nIndirect)
    (hfull : slot s.disk x (nDirect+1+k) = 0 → ∀ s, ¬ ok s (.branch .full))
    (hold : ∀ n, n.toNat = slot s.disk x (nDirect+1+k) → n.toNat ≠ 0 → Q n s)
    (hnew : slot s.disk x (nDirect+1+k) = 0 → ∀ n < sb.nblocks, ¬ Marked sb s.disk n →
      Q (BitVec.ofNat 32 n) (put s c (withEntry (claimed sb s.disk n) x k n) x)) :
    (mapEntry p (nDirect+k) (x.addrs nDirect)).Meets t ok s Q := by
  obtain ⟨hdata, hlt, -, hmarked⟩ := h.indirect ⟨i, hi, by rwa [hx], rfl⟩
  rw [hx] at hdata hlt hmarked
  have hfree := hopen.buffers (x.addrs nDirect).toNat id
  have hentry := slot_entry (d := s.disk) hk hind
  apply meets_mark
  intro _
  apply meets_readBlock hfree
  dsimp only
  rw [Nat.add_sub_cancel_left, ← hentry]
  by_cases hzero : slot s.disk x (nDirect+1+k) = 0
  · rw [if_pos hzero]
    have hhand : Open sb (· = (x.addrs nDirect).toNat) (s.setBuffer (x.addrs nDirect).toNat taken) := by
      refine ⟨hopen.super, fun n hn => ?_, fun n hn => ?_⟩
      · exact (Function.update_of_ne hn _ _).trans (hopen.buffers n id)
      · rw [hn]
        exact ⟨hdata, hmarked⟩
    refine meets_bind (meets_allocBlock hsb hhand (metadata_marked h) (hfull hzero) (fun n hn hclear => ?_))
    have hne : (x.addrs nDirect).toNat ≠ n := by
      rintro rfl
      exact hclear hmarked
    have hkeep : claimed sb s.disk n (x.addrs nDirect).toNat = s.disk (x.addrs nDirect).toNat := by
      have hbit := bitBlock_lt hn
      exact claimed_other (by omega) hne
    apply meets_writeBlock
    refine meets_releaseBlock (taken_self s _) ?_
    have hback : ((({ s with disk := claimed sb s.disk n } : Fs).setBuffer (x.addrs nDirect).toNat taken).setDisk
        (x.addrs nDirect).toNat (putWord (4*k) 4 n (s.disk (x.addrs nDirect).toNat))).setBuffer
        (x.addrs nDirect).toNat (.init 1) = put s c (withEntry (claimed sb s.disk n) x k n) x := by
      rw [put_same hc, withEntry, hkeep]
      exact setDisk_back (s := { s with disk := claimed sb s.disk n }) hfree taken _
    have hmapped := hnew hzero n hn hclear
    rw [← hback] at hmapped
    exact hmapped
  · rw [if_neg hzero]
    refine meets_releaseBlock (taken_self s _) ?_
    rw [setBuffer_back hfree]
    have hword : (BitVec.ofNat 32 (slot s.disk x (nDirect+1+k))).toNat = slot s.disk x (nDirect+1+k) := by
      apply toNat_ofNat
      rw [hentry]
      exact word_lt _ _ 4
    exact hold _ hword (by rwa [hword])

/-- The low blocks are as they were. -/
theorem open_put {d : ℕ → Bytes} {x : DiskInode} (h : Open sb noBlock s)
    (hd : d superBlockLba = s.disk superBlockLba) : Open sb noBlock (put s c d x) :=
  ⟨(congrArg superBlock hd).trans h.super, h.buffers, fun _ hn => hn.elim⟩

theorem blockMapped_same {n : ℕ} {d : ℕ → Bytes} {x : DiskInode} (h : Sharing sb noBlock d v)
    (hx : v i = x) (hm : Mapped d x m) (hb : b < m) (hn : slot d x (fileSlot b) = n) :
    BlockMapped sb v i b m n d x d x := by
  refine ⟨Grown.refl sb d x, ?_, ?_, hn, fun _ _ _ => rfl, fun _ => ⟨rfl, rfl⟩⟩
  · rw [← hx, Function.update_eq_self]
    exact h
  · rw [max_eq_left hb]
    exact hm

/-- The next block, at a place whose indirect block is there. -/
theorem blockMapped_next {n : ℕ} {d d' : ℕ → Bytes} {x x' : DiskInode} (h : Sharing sb noBlock d v)
    (hi : Inum sb i) (hx : v i = x) (hm : Mapped d x m) (hlt : m < maxFileSize) (hmd : m ≠ nDirect)
    (hfree : ¬ Marked sb d n) (hn : n ≠ 0) (g : Gained sb v i (fileSlot m) n d x d' x') :
    BlockMapped sb v i m m n d x d' x' := by
  refine ⟨g.grown, g.sharing, ?_, ?_, fun j hj hne => g.kept h hi hx hfree hj hne,
    fun hc => absurd hc (lt_irrefl m)⟩
  · rw [max_eq_right (Nat.le_succ m)]
    refine mapped_next hm hlt hn hn (fun j => ?_) (g.tail hm.tail)
    rw [g.slots, if_neg (c := j = nDirect ∧ m = nDirect) (fun hc => hmd hc.2)]
  · rw [g.slots, if_pos rfl]

/-- The first entry, with a new indirect block. -/
theorem blockMapped_first {n n' : ℕ} {d d' d'' : ℕ → Bytes} {x x' : DiskInode}
    (h : Sharing sb noBlock d v) (hi : Inum sb i) (hx : v i = x) (hm : Mapped d x nDirect)
    (hfree : ¬ Marked sb d n) (hn : n ≠ 0) (g : Gained sb v i nDirect n d x d' x')
    (hfree' : ¬ Marked sb d' n') (hn' : n' ≠ 0)
    (g' : Gained sb (Function.update v i x') i (nDirect+1+0) n' d' x' d'' x') :
    BlockMapped sb v i nDirect nDirect n' d x d'' x' := by
  have hself : Function.update v i x' i = x' := Function.update_self ..
  have hslot : fileSlot nDirect = nDirect+1+0 := fileSlot_entry 0
  have hsharing := g'.sharing
  rw [Function.update_idem] at hsharing
  refine ⟨g.grown.trans g'.grown, hsharing, ?_, ?_, fun j hj hne => ?_, fun hc => absurd hc (lt_irrefl _)⟩
  · refine mapped_next hm (by decide) hn' hn (fun j => ?_) (g'.tail (g.tail hm.tail))
    rw [g'.slots, g.slots, hslot, if_congr (and_iff_left rfl) rfl rfl]
  · rw [hslot, g'.slots, if_pos rfl]
  · have hkept := g.kept h hi hx hfree hj hne
    have hsame : slot d' x' j = slot d x j := by
      rw [g.slots, if_neg hj]
    have hkept' := g'.kept g.sharing hi hself hfree' hj (by rwa [hsame])
    rw [hsame] at hkept'
    rw [hkept', hkept]

/-- A first entry: the indirect block is new, and has none. -/
theorem meets_firstEntry {x : DiskInode} {n : ℕ} {Q : BitVec 32 → Fs → Prop} (hsb : Fits sb)
    (hopen : Open sb noBlock s) (h : Sharing sb noBlock s.disk v) (hi : Inum sb i) (hx : v i = x)
    (hm : Mapped s.disk x nDirect) (hn : n < sb.nblocks) (hfree : ¬ Marked sb s.disk n)
    (hfull : ∀ s, ¬ ok s (.branch .full))
    (hQ : ∀ n d' x', BlockMapped sb v i nDirect nDirect n.toNat s.disk x d' x' → Q n (put s c d' x')) :
    (mapEntry p (nDirect+0) (BitVec.ofNat 32 n)).Meets t ok
      (put s c (claimed sb s.disk n) (withAddr x nDirect (BitVec.ofNat 32 n))) Q := by
  have hwide : sb.nblocks ≤ 2^32 := by
    rw [Fits] at hsb
    omega
  have hzero : x.addrs nDirect = 0 := by
    by_contra hc
    exact absurd (hm.indirect.mp hc) (lt_irrefl _)
  have hfirst := (h.free hn hfree).1
  have hpos := dataStart_pos sb
  have g := gained_addr hwide h hi hx le_rfl hzero hn hfree
  have hsuper : claimed sb s.disk n superBlockLba = s.disk superBlockLba := by
    have hbit := le_bitBlock sb n
    have hlow : 3 ≤ bitmapStart sb := Nat.le_add_right 3 _
    have hlba : superBlockLba = 1 := rfl
    exact claimed_other (by omega) (by omega)
  have hind : (withAddr x nDirect (BitVec.ofNat 32 n)).addrs nDirect = BitVec.ofNat 32 n := withAddr_self ..
  have hword : (BitVec.ofNat 32 n).toNat = n := toNat_ofNat (by omega)
  have hnone : slot (claimed sb s.disk n) (withAddr x nDirect (BitVec.ofNat 32 n)) (nDirect+1+0) = 0 := by
    rw [g.slots, if_neg (by omega), slot_none (by omega) hzero]
  have hnonzero : (withAddr x nDirect (BitVec.ofNat 32 n)).addrs nDirect ≠ 0 := by
    rw [hind, ← toNat_ne, hword]
    omega
  suffices hmap : (mapEntry p (nDirect+0) ((withAddr x nDirect (BitVec.ofNat 32 n)).addrs nDirect)).Meets t ok
      (put s c (claimed sb s.disk n) (withAddr x nDirect (BitVec.ofNat 32 n))) Q by
    rwa [hind] at hmap
  refine meets_mapEntry hsb (open_put hopen hsuper) g.sharing hi (Function.update_self ..)
    (by rw [put_inode]) hnonzero (by decide) (fun _ => hfull) (fun m hm hne => ?_) (fun _ n' hn' hfree' => ?_)
  · rw [hm, put_disk, hnone] at hne
    exact absurd rfl hne
  · rw [put_put]
    refine hQ _ _ _ ?_
    have hfirst' := (g.sharing.free hn' hfree').1
    rw [toNat_ofNat (by omega)]
    have g' := gained_entry hwide g.sharing hi (Function.update_self ..) hnonzero (by decide) hnone hn' hfree'
    exact blockMapped_first h hi hx hm hfree (by omega) g hfree' (by omega) g'

theorem meets_blockMap {x : DiskInode} {Q : BitVec 32 → Fs → Prop} (hsb : Fits sb)
    (hopen : Open sb noBlock s) (h : Sharing sb noBlock s.disk v) (hi : Inum sb i) (hx : v i = x)
    (hc : (s.inodes c).toDiskInode = x) (hm : Mapped s.disk x m) (hb : b ≤ m) (hlt : b < maxFileSize)
    (hfull : b = m → ∀ s, ¬ ok s (.branch .full))
    (hQ : ∀ n d' x', BlockMapped sb v i b m n.toNat s.disk x d' x' → Q n (put s c d' x')) :
    (blockMap p c b).Meets t ok s Q := by
  have hwide : sb.nblocks ≤ 2^32 := by
    rw [Fits] at hsb
    omega
  have hself : put s c s.disk x = s := by
    rw [← hc]
    exact put_self s c
  have haddrs : ∀ k, (s.inodes c).addrs k = x.addrs k := fun k => by rw [← hc]
  have hword : ∀ n < sb.nblocks, (BitVec.ofNat 32 n).toNat = n := fun n hn => toNat_ofNat (by omega)
  have hne : ∀ n < sb.nblocks, ¬ Marked sb s.disk n → n ≠ 0 := by
    intro n hn hfree
    have hfirst := (h.free hn hfree).1
    have hpos := dataStart_pos sb
    omega
  -- a block that is there already
  have hthere : ∀ n : BitVec 32, n.toNat = slot s.disk x (fileSlot b) → n.toNat ≠ 0 → Q n s := by
    intro n hn hne
    have hbm : b < m := (hm.blocks b hlt).mp (by rwa [← hn])
    have hsame := hQ n _ _ (blockMapped_same h hx hm hbm hn.symm)
    rwa [hself] at hsame
  have hlast : slot s.disk x (fileSlot b) = 0 → b = m := by
    intro hzero
    have hnot := (hm.blocks b hlt).not
    rw [hzero] at hnot
    have := hnot.mp (fun hc => hc rfl)
    omega
  by_cases hdirect : b < nDirect
  · rw [blockMap, if_pos hdirect]
    have hslot : slot s.disk x (fileSlot b) = (x.addrs b).toNat := by
      rw [fileSlot_direct hdirect, slot_direct (Nat.le_of_lt hdirect)]
    have hnext : (s.inodes c).addrs b = 0 → b = m := by
      intro hzero
      rw [haddrs] at hzero
      exact hlast (by rw [hslot, hzero]; rfl)
    refine meets_addrOf hsb hopen h (fun hzero => hfull (hnext hzero)) (fun hold => ?_)
      (fun hzero n hn hfree => ?_)
    · rw [haddrs] at hold ⊢
      exact hthere _ hslot.symm (toNat_ne.mpr hold)
    · have hbm := hnext hzero
      rw [haddrs] at hzero
      subst hbm
      have g : Gained sb v i (fileSlot b) n s.disk x (claimed sb s.disk n)
          (withAddr x b (BitVec.ofNat 32 n)) := by
        rw [fileSlot_direct hdirect]
        exact gained_addr hwide h hi hx (Nat.le_of_lt hdirect) hzero hn hfree
      rw [hc]
      refine hQ _ _ _ ?_
      rw [hword n hn]
      exact blockMapped_next h hi hx hm hlt (by omega) hfree (hne n hn hfree) g
  · rw [blockMap_indirect hdirect]
    obtain ⟨k, rfl⟩ := Nat.exists_eq_add_of_le (Nat.le_of_not_lt hdirect)
    have hk : k < nIndirect := by
      rw [maxFileSize] at hlt
      omega
    have hslot : fileSlot (nDirect+k) = nDirect+1+k := fileSlot_entry k
    have hfirst : (s.inodes c).addrs nDirect = 0 → m = nDirect := by
      intro hzero
      rw [haddrs] at hzero
      have hnot := hm.indirect.not.mp (fun hc => hc hzero)
      omega
    refine meets_bind (meets_addrOf hsb hopen h (fun hzero => hfull ?_) (fun hind => ?_)
      (fun hzero n hn hfree => ?_))
    · have := hfirst hzero
      omega
    · rw [haddrs] at hind ⊢
      have hdm := hm.indirect.mp hind
      refine meets_mapEntry hsb hopen h hi hx hc hind hk (fun hzero => hfull (hlast (by rw [hslot, hzero])))
        (fun n hn => ?_) (fun hzero n hn hfree => ?_)
      · exact hthere n (by rw [hn, hslot])
      · have hbm : nDirect+k = m := hlast (by rw [hslot, hzero])
        have g : Gained sb v i (fileSlot (nDirect+k)) n s.disk x
            (withEntry (claimed sb s.disk n) x k n) x := by
          rw [hslot]
          exact gained_entry hwide h hi hx hind hk hzero hn hfree
        subst hbm
        refine hQ _ _ _ ?_
        rw [hword n hn]
        exact blockMapped_next h hi hx hm hlt (by omega) hfree (hne n hn hfree) g
    · have hmd := hfirst hzero
      obtain rfl : k = 0 := by omega
      subst hmd
      rw [hc]
      exact meets_firstEntry hsb hopen h hi hx hm hn hfree (hfull rfl) hQ

end Maps

end BabyOS.FileBlocks

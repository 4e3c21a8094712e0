import BabyOS.DirectoryLookup

/-!
# Directories are maps

A directory that is changed by `dir_link` and by the removal of entries in `do_unlink`
stays a map from names to inodes, as long as no name is linked that is there already and
every write finds its block.
-/

set_option autoImplicit false

namespace BabyOS.DirectoryMap
open BabyOS.AtomicPrograms BabyOS.AtomicPrograms.Program BabyOS.ByteWords BabyOS.FileSystem
open BabyOS.DiskBlocks BabyOS.BlockRules BabyOS.FileBlocks BabyOS.FileContents BabyOS.DiskInvariant
open BabyOS.FileArrays BabyOS.SlottedMaps BabyOS.DirectoryEntries BabyOS.DirectoryLookup

/-- A name of a path, with room for its zero. -/
structure Plain (name : List Byte) : Prop where
  nonempty : name ≠ []
  short : name.length < maxPathLen
  zero : 0 ∉ name
  slash : slash ∉ name

/-- The names are different, and every entry has an inode of the disk. A name without room
for its zero may be there twice. -/
structure Directory (sb : SuperBlock) (s : Fs) (c : ℕ) : Prop extends Opened sb s c where
  distinct : Distinct (fun name : List Byte => name.length ≠ maxPathLen) (dirSlots s c)
  valid : ∀ (i : ℕ) (name : List Byte) (inum : ℕ), (dirSlots s c)[i]? = some (some (name, inum)) → Inum sb inum

def content (s : Fs) (c : ℕ) : List Byte := contents s.disk (s.inodes c).toDiskInode

/-- There is a hole, or the directory can grow. -/
def Room (s : Fs) (c : ℕ) : Prop :=
  none ∈ dirSlots s c ∨ (s.inodes c).size.toNat+entrySize ≤ maxFileSize*blockSize

/-- What happens elsewhere, while the directory stays as it is. -/
structure Elsewhere (sb : SuperBlock) (c : ℕ) (s s' : Fs) : Prop where
  sound : Sound sb s'
  held : 0 < (s'.inodes c).ref
  type : (s'.inodes c).type = (s.inodes c).type
  inum : (s'.inodes c).inum = (s.inodes c).inum
  content : content s' c = content s c

/-- The disk is not found full, and no name is found that is to be linked. -/
def fresh (_ : Fs) (e : Event) : Prop := e ≠ .branch .full ∧ ∀ i, e ≠ .branch (.linkExists i)

/-- The states of a directory that is changed by `dir_link` and by the last part of
`do_unlink`, which writes over the entry that it has looked up before. -/
inductive Built (sb : SuperBlock) (c : ℕ) : Fs → Prop
  | start {s : Fs} : Directory sb s c → Built sb c s
  | link {s s' : Fs} {p inum : ℕ} {name : List Byte} {r : Bool} : Built sb c s →
      name.length ≤ maxPathLen → 0 ∉ name → Inum sb inum → inum < 2^16 → Room s c →
      (dirLink p c name inum).Clear fresh s → (dirLink p c name inum).run s = some (r, s') → Built sb c s'
  | remove {s s₁ s₂ s' : Fs} {p j off : ℕ} {name : List Byte} {r : Option ℕ} : Built sb c s →
      (dirLookup p c name).run s = some (some (j, off), s₁) → Elsewhere sb c s₁ s₂ →
      (writeInode p c (fun _ => 0) off entrySize).run s₂ = some (r, s') → Built sb c s'
  | other {s s' : Fs} : Built sb c s → Elsewhere sb c s s' → Built sb c s'

section Entries

variable {sb : SuperBlock} {s s' : Fs} {p c inum j off : ℕ} {name : List Byte} {d d' : ℕ → Bytes} {x x' : DiskInode}

theorem entries_contents (h : contents d' x' = contents d x) : entries d' x' = entries d x := by
  have hsize : x'.size.toNat = x.size.toNat := by
    rw [← length_contents d', h, length_contents]
  apply List.ext_getElem?
  intro j
  rw [getElem?_entries, getElem?_entries, hsize]
  by_cases hj : j < x.size.toNat/entrySize
  · have hslice : ∀ (d : ℕ → Bytes) (y : DiskInode), y.size.toNat = x.size.toNat →
        slice (byteAt d y) (entrySize*j) entrySize = ((contents d y).drop (entrySize*j)).take entrySize := by
      intro d y hy
      have hend := Nat.mul_le_of_le_div _ _ _ (Nat.succ_le_of_lt hj)
      have hpiece : min entrySize (x.size.toNat-entrySize*j) = entrySize := by
        rw [Nat.succ_mul, Nat.mul_comm] at hend
        omega
      rw [contents, take_drop_slice, hy, hpiece]
    rw [hslice d' x' hsize, hslice d x rfl, h]
  · rw [if_neg hj, if_neg hj]

theorem Elsewhere.slots (h : Elsewhere sb c s s') : dirSlots s' c = dirSlots s c :=
  entries_contents h.content

theorem Elsewhere.size (h : Elsewhere sb c s s') : (s'.inodes c).size.toNat = (s.inodes c).size.toNat := by
  have hcontent : contents s'.disk (s'.inodes c).toDiskInode = contents s.disk (s.inodes c).toDiskInode :=
    h.content
  rw [← length_contents s'.disk, hcontent, length_contents]

theorem Directory.elsewhere (h : Directory sb s c) (he : Elsewhere sb c s s') : Directory sb s' c := by
  refine ⟨⟨he.sound, he.held, by rw [he.type, h.type], by rw [he.size]; exact h.whole⟩, ?_, ?_⟩
  · rw [he.slots]
    exact h.distinct
  · rw [he.slots]
    exact h.valid

/-- A reference to an inode of the disk leaves the directory as it is. -/
theorem Directory.fetched (h : Directory sb s c) (hi : Inum sb inum) (ht : target s inum = some j) :
    Elsewhere sb c s (fetched s j inum) := by
  have hsound := Sound.fetched h.sound hi ht
  by_cases hcj : c = j
  · subst hcj
    have hself : (DirectoryLookup.fetched s c inum).inodes c =
        { s.inodes c with ref := (s.inodes c).ref+1, valid := true } := by
      rw [fetched_self, if_pos h.held]
    refine ⟨hsound, ?_, ?_, ?_, ?_⟩
    · rw [hself]
      exact Nat.succ_pos _
    · rw [hself]
    · rw [hself]
    · rw [content, hself]
      rfl
  · have hother : (DirectoryLookup.fetched s j inum).inodes c = s.inodes c := fetched_other hcj
    refine ⟨hsound, ?_, ?_, ?_, ?_⟩
    · rw [hother]
      exact h.held
    · rw [hother]
    · rw [hother]
    · rw [content, hother]
      rfl

theorem hole_offset (h : Opened sb s c) (hroom : Room s c) :
    entrySize*hole (dirSlots s c) ≤ (s.inodes c).size.toNat ∧
    entrySize*hole (dirSlots s c)+entrySize ≤ maxFileSize*blockSize ∧
    (none ∈ dirSlots s c → entrySize*hole (dirSlots s c)+entrySize ≤ (s.inodes c).size.toNat) := by
  have hle := hole_le (dirSlots s c)
  have hlen : (dirSlots s c).length = (s.inodes c).size.toNat/entrySize := length_entries ..
  have hcount := Nat.mul_div_le (s.inodes c).size.toNat entrySize
  obtain ⟨-, -, hi, hx⟩ := h.sound.cached c h.held
  have hsize := (h.sound.whole _ hi).size
  rw [← hx] at hsize
  have hoff := Nat.mul_le_mul_left entrySize hle
  rw [hlen] at hoff
  have hin : none ∈ dirSlots s c → entrySize*hole (dirSlots s c)+entrySize ≤ (s.inodes c).size.toNat := by
    intro hnone
    have hlt := Nat.mul_le_mul_left entrySize (Nat.succ_le_of_lt (hole_lt.mpr hnone))
    rw [hlen, Nat.mul_succ] at hlt
    omega
  refine ⟨by omega, ?_, hin⟩
  rcases hroom with hnone | hgrow
  · have := hin hnone
    omega
  · omega

/-- An entry of a directory is written. -/
theorem opened_stored {data : Bytes} (h : Opened sb s c) (hj : j ≤ (dirSlots s c).length)
    (hst : Stored sb (s.inodes c).inum data (entrySize*j) entrySize s.disk (s.inodes c).toDiskInode d' x') :
    Opened sb (FileBlocks.put s c d' x') c ∧
    dirSlots (FileBlocks.put s c d' x') c =
      SlottedMaps.put (dirSlots s c) j (entryOf (slice data 0 entrySize)) ∧
    content (FileBlocks.put s c d' x') c =
      overwrite (content s c) (entrySize*j) (slice data 0 entrySize) := by
  have hlen : (dirSlots s c).length = (s.inodes c).size.toNat/entrySize := length_entries ..
  have hoff : entrySize*j ≤ (s.inodes c).size.toNat := by
    rw [hlen] at hj
    exact le_trans (Nat.mul_le_mul_left _ hj) (Nat.mul_div_le _ _)
  have hself := put_inode (s := s) (c := c) (d := d') (x := x')
  refine ⟨⟨h.sound.stored h.held hst, ?_, ?_, ?_⟩, ?_, ?_⟩
  · rw [hself]
    exact h.held
  · rw [hself]
    change x'.type = typeDir
    rw [hst.fields]
    exact h.type
  · rw [hself]
    change entrySize ∣ x'.size.toNat
    obtain ⟨m, hm⟩ := h.whole
    rw [hst.size, hm, ← Nat.mul_add_one, Nat.mul_max_mul_left]
    exact Dvd.intro _ rfl
  · rw [dirSlots, put_disk, hself, dirSlots]
    exact entries_stored hst (by rw [← hlen]; exact hj) h.whole
  · rw [content, put_disk, hself, content]
    exact contents_stored hst hoff

theorem directory_link {r : Bool} (h : Directory sb s c) (hlen : name.length ≤ maxPathLen) (hzero : 0 ∉ name)
    (hi : Inum sb inum) (hlt : inum < 2^16) (hroom : Room s c)
    (hclear : (dirLink p c name inum).Clear fresh s) (hrun : (dirLink p c name inum).run s = some (r, s')) :
    Directory sb s' c := by
  have hle := hole_le (dirSlots s c)
  obtain ⟨-, hfits, -⟩ := hole_offset h.toOpened hroom
  refine meets_run (t := false) (Q := fun _ s' => Directory sb s' c) (meets_dirLink h.toOpened
    (fun _ hc => hc.1 rfl) (Or.inr ⟨rfl, fun _ i hc => hc.2 i rfl⟩) hfits
    (fun n hn d' x' hst => ?_)) hclear hrun
  obtain ⟨hopen, hslots, -⟩ := opened_stored (s := { s with overruns := n }) (h.overruns n) hle hst
  change dirSlots _ c = SlottedMaps.put (dirSlots s c) _ _ at hslots
  rw [entryOf_bytes hi.1 hlt hlen hzero] at hslots
  refine ⟨hopen, ?_, fun i name' inum' hentry => ?_⟩
  · rw [hslots]
    exact h.distinct.put hle (fun hshort => find_eq_none.mp (hn hshort).2)
  · rw [hslots, getElem?_put hle] at hentry
    split at hentry
    next =>
      obtain ⟨-, rfl⟩ := Prod.mk.inj (Option.some.inj (Option.some.inj hentry))
      exact hi
    next => exact h.valid i name' inum' hentry

theorem Directory.overruns (h : Directory sb s c) (n : ℕ) : Directory sb { s with overruns := n } c :=
  ⟨h.toOpened.overruns n, h.distinct, h.valid⟩

/-- What is known when a lookup has found a name. -/
theorem lookup_found {s₁ : Fs} (h : Directory sb s c)
    (hrun : (dirLookup p c name).run s = some (some (j, off), s₁)) :
    ∃ i inum, (dirSlots s c)[i]? = some (some (name, inum)) ∧ off = entrySize*i ∧ Elsewhere sb c s s₁ ∧
      (name.length ≠ maxPathLen → find name (dirSlots s c) = some (i, inum)) := by
  have hrule : (dirLookup p c name).Meets false (fun _ _ => True) s fun r s₁ => ∀ j off, r = some (j, off) →
      ∃ i inum, (dirSlots s c)[i]? = some (some (name, inum)) ∧ off = entrySize*i ∧ Elsewhere sb c s s₁ ∧
        (name.length ≠ maxPathLen → find name (dirSlots s c) = some (i, inum)) := by
    refine meets_dirLookup h.toOpened (fun n _ j off hc => by cases hc) (fun n i inum hi hn => ?_)
    refine meets_fetch (h.overruns n).sound h.held (fun _ => rfl) (fun k hk j off hj => ?_)
    obtain ⟨rfl, rfl⟩ := Prod.mk.inj (Option.some.inj hj)
    have he := (h.overruns n).fetched (h.valid i name inum hi) hk
    exact ⟨i, inum, hi, rfl, ⟨he.sound, he.held, he.type, he.inum, he.content⟩, fun hlen => (hn hlen).2⟩
  exact meets_run hrule (clear_all _ s) hrun j off rfl

/-- The slots of the inode cache stand for the same inodes. -/
def SameCache (s s' : Fs) : Prop := ∀ k, (s'.inodes k).ref = (s.inodes k).ref ∧
  (s'.inodes k).dev = (s.inodes k).dev ∧ (s'.inodes k).inum = (s.inodes k).inum

theorem sameCache_put (s : Fs) (c : ℕ) (d : ℕ → Bytes) (x : DiskInode) :
    SameCache s (FileBlocks.put s c d x) := by
  intro k
  by_cases hk : k = c
  · rw [hk, put_inode]
    exact ⟨rfl, rfl, rfl⟩
  · rw [put_other _ _ _ _ hk]
    exact ⟨rfl, rfl, rfl⟩

theorem SameCache.target (h : SameCache s s') (inum : ℕ) : target s' inum = target s inum := by
  have hcached : s'.cached rootDev inum = s.cached rootDev inum := by
    rw [Fs.cached, Fs.cached]
    congr 1
    funext k
    obtain ⟨href, hdev, hinum⟩ := h k
    rw [href, hdev, hinum]
  have hempty : s'.empty = s.empty := by
    rw [Fs.empty, Fs.empty]
    congr 1
    funext k
    rw [(h k).1]
  rw [DirectoryLookup.target, DirectoryLookup.target, hcached, hempty]

/-- The entry that was looked up is made a hole. -/
theorem entry_removed {i : ℕ} {r : Option ℕ} (h : Opened sb s c) (hi : i < (dirSlots s c).length)
    (hrun : (writeInode p c (fun _ => 0) (entrySize*i) entrySize).run s = some (r, s')) :
    Opened sb s' c ∧ dirSlots s' c = SlottedMaps.put (dirSlots s c) i none ∧
    content s' c = overwrite (content s c) (entrySize*i) (List.replicate entrySize 0) ∧ SameCache s s' := by
  have hlen : (dirSlots s c).length = (s.inodes c).size.toNat/entrySize := length_entries ..
  have hend : entrySize*i+entrySize ≤ (s.inodes c).size.toNat := by
    have hmul := Nat.mul_le_mul_left entrySize (Nat.succ_le_of_lt hi)
    rw [hlen, Nat.mul_succ] at hmul
    exact le_trans hmul (Nat.mul_div_le _ _)
  obtain ⟨-, -, hinum, hx⟩ := h.sound.cached c h.held
  have hsize := (h.sound.whole _ hinum).size
  rw [← hx] at hsize
  have hblocks := blocksOf_le.mp (le_refl (blocksOf (s.inodes c).size.toNat))
  have hrule : (writeInode p c (fun _ => 0) (entrySize*i) entrySize).Meets false (fun _ _ => True) s
      fun _ s' => Opened sb s' c ∧ dirSlots s' c = SlottedMaps.put (dirSlots s c) i none ∧
        content s' c = overwrite (content s c) (entrySize*i) (List.replicate entrySize 0) ∧
        SameCache s s' := by
    refine meets_writeInode h.sound h.held (fun hc => ?_) (fun hc => absurd hc h.notDev)
      (fun _ hout => ?_) (fun _ _ _ d' x' hst => ?_)
    · omega
    · omega
    · obtain ⟨hopen, hslots, hcontent⟩ := opened_stored h (Nat.le_of_lt hi) hst
      rw [entryOf_zeros] at hslots
      exact ⟨hopen, hslots, hcontent, sameCache_put s c d' x'⟩
  obtain ⟨hopen, hslots, hcontent, hcache⟩ := meets_run hrule (clear_all _ s) hrun
  exact ⟨hopen, hslots, hcontent, hcache⟩

theorem directory_remove {s₁ s₂ : Fs} {r : Option ℕ} (h : Directory sb s c)
    (hlook : (dirLookup p c name).run s = some (some (j, off), s₁)) (he : Elsewhere sb c s₁ s₂)
    (hrun : (writeInode p c (fun _ => 0) off entrySize).run s₂ = some (r, s')) : Directory sb s' c := by
  obtain ⟨i, inum, hi, rfl, he₁, -⟩ := lookup_found h hlook
  have h₂ := (h.elsewhere he₁).elsewhere he
  have hslots₂ : dirSlots s₂ c = dirSlots s c := by
    rw [he.slots, he₁.slots]
  have hlt := (List.getElem?_eq_some_iff.mp hi).1
  rw [← hslots₂] at hlt
  obtain ⟨hopen, hslots, -⟩ := entry_removed h₂.toOpened hlt hrun
  have hle := Nat.le_of_lt hlt
  refine ⟨hopen, ?_, fun k name' inum' hentry => ?_⟩
  · rw [hslots]
    exact h₂.distinct.clear hle
  · rw [hslots, getElem?_put hle] at hentry
    split at hentry
    next => cases hentry
    next => exact h₂.valid k name' inum' hentry

/-- A directory that was built from a directory is a directory. -/
theorem built_directory (h : Built sb c s) : Directory sb s c := by
  induction h with
  | start hs => exact hs
  | link _ hlen hzero hi hlt hroom hclear hrun ih =>
    exact directory_link ih hlen hzero hi hlt hroom hclear hrun
  | remove _ hlook he hrun ih => exact directory_remove ih hlook he hrun
  | other _ he ih => exact ih.elsewhere he

end Entries

/-! ## The laws -/

/-- The result of a lookup: the slot of the inode, and the offset of the entry. -/
def answer (s : Fs) (p c : ℕ) (name : List Byte) : Option (Option (ℕ × ℕ)) :=
  ((dirLookup p c name).run s).map Prod.fst

/-- What a new name changes: it is found at the offset that was written, in a hole if there
is one, and the other names are found as before. -/
structure Linked (s : Fs) (c : ℕ) (name : List Byte) (inum off : ℕ) (s' : Fs) : Prop where
  content : content s' c = overwrite (content s c) off (slice (entryBytes inum name) 0 entrySize)
  size : none ∈ dirSlots s c → (s'.inodes c).size = (s.inodes c).size
  found : ∀ q j, target s' inum = some j → ∃ s'', (dirLookup q c name).run s' = some (some (j, off), s'') ∧
    (s''.inodes j).dev = rootDev ∧ (s''.inodes j).inum = inum
  others : ∀ q name', Plain name' → name' ≠ name → answer s' q c name' = answer s q c name'

/-- What the removal of a name changes: it is not found, its entry is a hole, and the other
names are found as before. -/
structure Removed (s : Fs) (c : ℕ) (name : List Byte) (off : ℕ) (s' : Fs) : Prop where
  content : content s' c = overwrite (content s c) off (List.replicate entrySize 0)
  size : (s'.inodes c).size = (s.inodes c).size
  hole : none ∈ dirSlots s' c
  missing : ∀ q, (dirLookup q c name).run s' = some (none, s')
  others : ∀ q name', Plain name' → name' ≠ name → answer s' q c name' = answer s q c name'

/-- A name can be linked that is not there. A name that is there is refused without a
change if it is an entry for the directory itself, which nobody has locked. -/
structure Laws (sb : SuperBlock) (s : Fs) (c : ℕ) : Prop where
  link : ∀ p name inum, Plain name → 0 < inum → inum < 2^16 → find name (dirSlots s c) = none → Room s c →
    (dirLink p c name inum).Clear notFull s →
    ∃ off s', (dirLink p c name inum).run s = some (true, s') ∧ Linked s c name inum off s'
  refuse : ∀ p name inum i, Plain name → find name (dirSlots s c) = some (i, (s.inodes c).inum) →
    0 < (s.inodes c).sem.count →
    ∃ s', (dirLink p c name inum).run s = some (false, s') ∧ content s' c = content s c ∧
      ∀ k, (s'.inodes k).ref = (s.inodes k).ref
  remove : ∀ p name j off s₁ s₂ r s', Plain name →
    (dirLookup p c name).run s = some (some (j, off), s₁) → Elsewhere sb c s₁ s₂ →
    (writeInode p c (fun _ => 0) off entrySize).run s₂ = some (r, s') → Removed s₂ c name off s'

section Laws

variable {sb : SuperBlock} {s s' : Fs} {p c inum j off : ℕ} {name : List Byte}

/-- The answer depends on the slots, and on which inodes are cached. -/
theorem answer_slots (h : Opened sb s c) (hlen : name.length ≠ maxPathLen) :
    answer s p c name = match find name (dirSlots s c) with
      | none => some none
      | some (i, inum) => (target s inum).map fun j => some (j, entrySize*i) := by
  rw [answer, run_dirLookup h hlen]
  cases find name (dirSlots s c) with
  | none => rfl
  | some r => exact Option.map_map ..

theorem answer_congr (h : Opened sb s c) (h' : Opened sb s' c) (hcache : SameCache s s')
    (hlen : name.length ≠ maxPathLen) (hfind : find name (dirSlots s' c) = find name (dirSlots s c)) :
    answer s' p c name = answer s p c name := by
  rw [answer_slots h hlen, answer_slots h' hlen, hfind]
  cases find name (dirSlots s c) with
  | none => rfl
  | some r =>
    dsimp only
    rw [hcache.target]

theorem law_link (h : Directory sb s c) (hname : Plain name) (hpos : 0 < inum) (hlt : inum < 2^16)
    (habsent : find name (dirSlots s c) = none) (hroom : Room s c)
    (hclear : (dirLink p c name inum).Clear notFull s) :
    ∃ off s', (dirLink p c name inum).run s = some (true, s') ∧ Linked s c name inum off s' := by
  have hle := hole_le (dirSlots s c)
  have hlen := Nat.ne_of_lt hname.short
  obtain ⟨-, hfits, hin⟩ := hole_offset h.toOpened hroom
  have hrule : (dirLink p c name inum).Meets true notFull s fun r s' => r = true ∧
      Linked s c name inum (entrySize*hole (dirSlots s c)) s' := by
    refine meets_dirLink h.toOpened (fun _ hc => hc rfl) (Or.inl ⟨hlen, habsent⟩) hfits
      (fun n hn d' x' hst => ?_)
    obtain ⟨rfl, -⟩ := hn hlen
    obtain ⟨hopen, hslots, hcontent⟩ := opened_stored h.toOpened hle hst
    have hcache := sameCache_put s c d' x'
    rw [entryOf_bytes hpos hlt (Nat.le_of_lt hname.short) hname.zero] at hslots
    refine ⟨rfl, hcontent, fun hnone => ?_, fun q j hj => ?_, fun q name' hname' hne => ?_⟩
    · rw [put_inode]
      apply BitVec.eq_of_toNat_eq
      have := hin hnone
      rw [hst.size, max_eq_left this]
    · have hfind : find name (dirSlots (FileBlocks.put s c d' x') c) = some (hole (dirSlots s c), inum) := by
        rw [hslots]
        exact find_put_self hle habsent
      obtain ⟨-, -, hdev, hinum, -⟩ := fetched_target hj
      refine ⟨_, ?_, hdev, hinum⟩
      rw [run_dirLookup hopen hlen, hfind]
      dsimp only
      rw [hj]
      rfl
    · apply answer_congr h.toOpened hopen hcache (Nat.ne_of_lt hname'.short)
      rw [hslots]
      refine find_put_other hle (fun w => getElem?_hole _ _ _) (fun w hc => ?_)
      exact hne (Prod.mk.inj (Option.some.inj hc)).1.symm
  obtain ⟨r, s', hrun, rfl, hlinked⟩ := meets_ends hrule hclear
  exact ⟨_, s', hrun, hlinked⟩

/-- `put_inode` of an inode that has links or that others have too, when nobody has it locked. -/
theorem meets_putInode_kept {t : Bool} {ok : Fs → Event → Prop} {Q : Unit → Fs → Prop}
    (hcount : 0 < (s.inodes c).sem.count) (hkeep : (s.inodes c).nlinks ≠ 0 ∨ (s.inodes c).ref ≠ 1)
    (hQ : Q () (s.setInode c { s.inodes c with
      sem := ((s.inodes c).sem.down p).up, ref := (s.inodes c).ref-1 })) :
    (putInode p c).Meets t ok s Q := by
  have hlock : ∀ (R : Unit → Fs → Prop),
      R () (s.setInode c { s.inodes c with sem := (s.inodes c).sem.down p }) →
      (lockInode p c).Meets t ok s R := by
    intro R hR
    refine ⟨fun _ => rfl, fun _ _ => ?_⟩
    dsimp only
    rw [if_pos hcount]
    exact hR
  refine meets_bind (hlock _ ?_)
  apply meets_look
  rw [setInode_self]
  have hfreed : ¬ ((s.inodes c).valid = true ∧ (s.inodes c).nlinks = 0 ∧ (s.inodes c).ref = 1) := by
    rintro ⟨-, hlinks, hone⟩
    rcases hkeep with hkeep | hkeep
    · exact hkeep hlinks
    · exact hkeep hone
  rw [if_neg hfreed]
  apply meets_act
  rw [setInode_idem, setInode_self]
  refine ⟨fun _ => rfl, fun _ _ => ?_⟩
  change Q () ((s.setInode c _).setInode c _)
  rw [setInode_idem, setInode_self]
  exact hQ

theorem law_refuse {i : ℕ} (h : Directory sb s c) (hname : Plain name)
    (hfind : find name (dirSlots s c) = some (i, (s.inodes c).inum)) (hcount : 0 < (s.inodes c).sem.count) :
    ∃ s', (dirLink p c name inum).run s = some (false, s') ∧ content s' c = content s c ∧
      ∀ k, (s'.inodes k).ref = (s.inodes k).ref := by
  have hlen := Nat.ne_of_lt hname.short
  obtain ⟨-, hdev, -, -⟩ := h.sound.cached c h.held
  have htarget : target s (s.inodes c).inum = some c := by
    cases ht : target s (s.inodes c).inum with
    | some j => rw [target_only h.sound ht h.held rfl]
    | none =>
      rw [target] at ht
      split at ht
      next => cases ht
      next hnone => exact absurd rfl (cached_none hnone (h.sound.cached c h.held).1 h.held hdev)
  have hself : (fetched s c (s.inodes c).inum).inodes c =
      { s.inodes c with ref := (s.inodes c).ref+1, valid := true } := by
    rw [fetched_self, if_pos h.held]
  have hrule : ((mark (.branch (.linkExists c)) : Prog Unit) >>= fun _ => putInode p c >>= fun _ =>
      (pure false : Prog Bool)).Meets true (fun _ _ => True) (fetched s c (s.inodes c).inum) fun r s' =>
      r = false ∧ content s' c = content s c ∧ ∀ k, (s'.inodes k).ref = (s.inodes k).ref := by
    refine meets_mark (fun _ => meets_bind (meets_putInode_kept ?_ (Or.inr ?_) (meets_pure ⟨rfl, ?_, fun k => ?_⟩)))
    · rw [hself]
      exact hcount
    · rw [hself]
      exact fun hc => absurd (Nat.succ.inj hc) (Nat.ne_of_gt h.held)
    · rw [content, setInode_self, hself]
      rfl
    · by_cases hk : k = c
      · rw [hk, setInode_self, hself]
        rfl
      · exact congrArg Inode.ref ((Function.update_of_ne hk _ _).trans (fetched_other hk))
  obtain ⟨r, s', hrun, rfl, hkept⟩ := meets_ends hrule (clear_all _ _)
  refine ⟨s', ?_, hkept⟩
  have hlook : (dirLookup p c name).run s = some (some (c, entrySize*i), fetched s c (s.inodes c).inum) := by
    rw [run_dirLookup h.toOpened hlen, hfind]
    dsimp only
    rw [htarget]
    rfl
  exact (run_bind_of hlook).trans hrun

theorem law_remove {s₁ s₂ : Fs} {r : Option ℕ} (h : Directory sb s c) (hname : Plain name)
    (hlook : (dirLookup p c name).run s = some (some (j, off), s₁)) (he : Elsewhere sb c s₁ s₂)
    (hrun : (writeInode p c (fun _ => 0) off entrySize).run s₂ = some (r, s')) : Removed s₂ c name off s' := by
  have hlen := Nat.ne_of_lt hname.short
  obtain ⟨i, inum, hi, rfl, he₁, hfind⟩ := lookup_found h hlook
  have h₂ := (h.elsewhere he₁).elsewhere he
  have hslots₂ : dirSlots s₂ c = dirSlots s c := by
    rw [he.slots, he₁.slots]
  have hlt := (List.getElem?_eq_some_iff.mp hi).1
  have hfound := hfind hlen
  rw [← hslots₂] at hlt hfound
  obtain ⟨hopen, hslots, hcontent, hcache⟩ := entry_removed h₂.toOpened hlt hrun
  have hle := Nat.le_of_lt hlt
  refine ⟨hcontent, ?_, ?_, fun q => ?_, fun q name' hname' hne => ?_⟩
  · have hcount : (content s' c).length = (content s₂ c).length := by
      have hend : entrySize*i+entrySize ≤ (content s₂ c).length := by
        have hlen₂ : (dirSlots s₂ c).length = (s₂.inodes c).size.toNat/entrySize := length_entries ..
        have hmul := Nat.mul_le_mul_left entrySize (Nat.succ_le_of_lt hlt)
        rw [hlen₂, Nat.mul_succ] at hmul
        rw [content, length_contents]
        exact le_trans hmul (Nat.mul_div_le _ _)
      rw [hcontent, overwrite, List.length_append, List.length_append, List.length_take, List.length_drop,
        List.length_replicate]
      omega
    rw [content, content, length_contents, length_contents] at hcount
    exact BitVec.eq_of_toNat_eq hcount
  · rw [hslots]
    exact List.mem_append_right _ (List.mem_cons_self ..)
  · have hgone : find name (dirSlots s' c) = none := by
      rw [hslots]
      exact find_clear_self h₂.distinct hlen hfound
    rw [run_dirLookup hopen hlen, hgone]
  · apply answer_congr h₂.toOpened hopen hcache (Nat.ne_of_lt hname'.short)
    rw [hslots]
    exact find_clear_other hne.symm hfound

/-- A directory is a map from names to inodes, however it was built. -/
theorem directory_laws (h : Built sb c s) : Laws sb s c :=
  have hd := built_directory h
  ⟨fun _ _ _ hname hpos hlt habsent hroom hclear => law_link hd hname hpos hlt habsent hroom hclear,
    fun _ _ _ _ hname hfind hcount => law_refuse hd hname hfind hcount,
    fun _ _ _ _ _ _ _ _ hname hlook he hrun => law_remove hd hname hlook he hrun⟩

end Laws

section Small

/-- The root directory of the small disk. -/
theorem small_slots : dirSlots small 0 = [some ([dot], 1), some ([dot, dot], 1), some (smallName, 2)] := by
  decide +kernel

theorem small_directory : Directory smallSuper small 0 := by
  refine ⟨⟨small_sound, by decide, rfl, by decide⟩, fun i j k v w _ hi hj => ?_, fun i name inum hi => ?_⟩
  · rw [small_slots] at hi hj
    match i, j, hi, hj with
    | 0, 0, _, _ => rfl
    | 1, 1, _, _ => rfl
    | 2, 2, _, _ => rfl
    | 0, 1, hi, hj => cases hi; cases hj
    | 0, 2, hi, hj => cases hi; cases hj
    | 1, 0, hi, hj => cases hi; cases hj
    | 1, 2, hi, hj => cases hi; cases hj
    | 2, 0, hi, hj => cases hi; cases hj
    | 2, 1, hi, hj => cases hi; cases hj
  · rw [small_slots] at hi
    have hmem := List.mem_of_getElem? hi
    simp only [List.mem_cons, Option.some.injEq, Prod.mk.injEq, List.not_mem_nil, or_false] at hmem
    obtain ⟨-, rfl⟩ | ⟨-, rfl⟩ | ⟨-, rfl⟩ := hmem <;> decide

theorem directory_laws_small : Laws smallSuper small 0 := directory_laws (.start small_directory)

/-- A name that is there: the directory loses a reference, and its inode gets one. -/
theorem link_present : ¬ ∀ (sb : SuperBlock) (s s' : Fs) (p c inum : ℕ) (name : List Byte) (r : Bool),
    Built sb c s → Plain name → find name (dirSlots s c) ≠ none →
    (dirLink p c name inum).run s = some (r, s') → ∀ k, (s'.inodes k).ref = (s.inodes k).ref := by
  intro h
  have hplain : Plain smallName := ⟨by decide, by decide, by decide, by decide⟩
  have href : ((dirLink 1 0 smallName 2).run small).map (fun r => (r.2.inodes 1).ref) = some 2 := by
    decide +kernel
  obtain ⟨⟨r, s'⟩, hrun, hr⟩ := Option.map_eq_some_iff.mp href
  have hsame := h smallSuper small s' 1 0 2 smallName r (.start small_directory) hplain
    (by rw [small_slots]; decide) hrun 1
  rw [hr] at hsame
  exact absurd hsame (by decide)

end Small

end BabyOS.DirectoryMap

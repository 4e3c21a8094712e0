import BabyOS.DirectoryLookup

/-!
# Records of inodes

What `write_to_disk` puts into a record, `read_from_disk` gets back from it, and the
functions that compute the place of a record agree.
-/

set_option autoImplicit false

namespace BabyOS.InodeRecords
open BabyOS.AtomicPrograms BabyOS.AtomicPrograms.Program BabyOS.ByteWords BabyOS.FileSystem
open BabyOS.DiskBlocks BabyOS.BlockRules BabyOS.DiskInvariant BabyOS.DirectoryLookup

/-- The same fields and addresses; an inode has `nDirect+1` addresses. -/
structure SameFields (x y : DiskInode) : Prop where
  type : x.type = y.type
  major : x.major = y.major
  minor : x.minor = y.minor
  nlinks : x.nlinks = y.nlinks
  size : x.size = y.size
  addrs : ∀ k ≤ nDirect, x.addrs k = y.addrs k

/-- The addresses that there are. -/
def cut (x : DiskInode) : DiskInode := { x with addrs := fun k => if k ≤ nDirect then x.addrs k else 0 }

/-- Only the bytes of record `i` differ. -/
def OnlyRecord (i : ℕ) (d d' : ℕ → Bytes) : Prop :=
  ∀ n j, d' n j ≠ d n j → n = inodeBlock i ∧ 64*(i%inodesPerBlock) ≤ j ∧ j < 64*(i%inodesPerBlock)+64

section Records

variable {s : Fs} {p q c c' i : ℕ} {x : DiskInode} {d : ℕ → Bytes}

theorem putArray_congr {off w n : ℕ} {f g : ℕ → ℕ} {b : Bytes} (h : ∀ j < n, f j = g j) :
    putArray off w f n b = putArray off w g n b := by
  induction n with
  | zero => rfl
  | succ n ih =>
    rw [putArray, putArray, h n (Nat.lt_succ_self n), ih (fun j hj => h j (Nat.lt_succ_of_lt hj))]

theorem cut_tail (x : DiskInode) : ∀ k, nDirect < k → (cut x).addrs k = 0 := by
  intro k hk
  exact if_neg (by omega)

theorem putRecord_cut (d : ℕ → Bytes) (i : ℕ) (x : DiskInode) : putRecord d i (cut x) = putRecord d i x := by
  have haddrs : ∀ k b, putArray (64*k+12) 4 (fun j => ((cut x).addrs j).toNat) (nDirect+1) b =
      putArray (64*k+12) 4 (fun j => (x.addrs j).toNat) (nDirect+1) b := by
    intro k b
    apply putArray_congr
    intro j hj
    rw [cut]
    dsimp only
    rw [if_pos (Nat.le_of_lt_succ hj)]
  rw [putRecord, putRecord, putDiskInode, putDiskInode, haddrs]
  rfl

theorem same_cut (x : DiskInode) : SameFields (cut x) x :=
  ⟨rfl, rfl, rfl, rfl, rfl, fun _ hk => if_pos hk⟩

/-- The record has the fields, and the other records are as they were. -/
theorem record_cut (d : ℕ → Bytes) (i j : ℕ) (x : DiskInode) :
    record (putRecord d i x) j = if j = i then cut x else record d j := by
  rw [← putRecord_cut, record_put (cut_tail x)]

theorem onlyRecord_put (d : ℕ → Bytes) (i : ℕ) (x : DiskInode) : OnlyRecord i d (putRecord d i x) := by
  intro n j hne
  have hn : n = inodeBlock i := by
    by_contra hc
    exact hne (by rw [putRecord_other hc])
  subst hn
  refine ⟨rfl, ?_⟩
  by_contra hc
  apply hne
  rw [putRecord, Function.update_self]
  exact putDiskInode_other (by omega) x _

theorem run_writeToDisk (hfree : s.buffers (inodeBlock (s.inodes c).inum) = .init 1) :
    (writeToDisk p c).run s =
      some ((), { s with disk := putRecord s.disk (s.inodes c).inum (s.inodes c).toDiskInode }) := by
  have hrule : (writeToDisk p c).Meets true (fun _ _ => True) s fun a s' =>
      (a, s') = ((), { s with disk := putRecord s.disk (s.inodes c).inum (s.inodes c).toDiskInode }) := by
    have hblock : (s.inodes c).inum/inodesPerBlock+2 = inodeBlock (s.inodes c).inum := Nat.add_comm _ _
    apply meets_look
    rw [hblock]
    apply meets_readBlock hfree
    apply meets_look
    apply meets_writeBlock
    refine meets_releaseBlock (g := fun _ => pure ()) (taken_self s _) ?_
    rw [setDisk_back (s := s) hfree]
    rfl
  obtain ⟨a, s', hrun, heq⟩ := meets_ends hrule (clear_all _ s)
  rw [hrun, heq]

/-- A slot that has not been filled gets the record. -/
theorem run_readFromDisk (hfree : s.buffers (inodeBlock i) = .init 1) (hfresh : (s.inodes c).valid = false) :
    (readFromDisk p c i).run s = some ((), s.setInode c { s.inodes c with
      toDiskInode := record s.disk i, valid := true }) := by
  have hrule : (readFromDisk p c i).Meets true (fun _ _ => True) s fun a s' =>
      (a, s') = ((), s.setInode c { s.inodes c with toDiskInode := record s.disk i, valid := true }) := by
    refine meets_readFromDisk hfree (fun hc => ?_) (fun _ => rfl)
    rw [hfresh] at hc
    cases hc
  obtain ⟨a, s', hrun, heq⟩ := meets_ends hrule (clear_all _ s)
  rw [hrun, heq]

/-- The record that `alloc_inode` puts in place of one that is free. -/
def newRecord (type : BitVec 16) : DiskInode := ⟨type, 0, 0, 0, 0, fun _ => 0⟩

/-- A round of `alloc_inode` looks at record `i` and writes record `i`. -/
theorem run_allocInodeFrom (hfree : s.buffers (inodeBlock i) = .init 1) (dev k : ℕ) (type : BitVec 16) :
    (allocInodeFrom p dev type (k+1) i).run s = if (record s.disk i).type = 0
      then (getInode dev i).run { s with disk := putRecord s.disk i (newRecord type) }
      else (allocInodeFrom p dev type k (i+1)).run s := by
  have hread : (readBlock p (inodeBlock i)).run s =
      some (s.disk (inodeBlock i), s.setBuffer (inodeBlock i) taken) := by
    have hrule : (readBlock p (inodeBlock i) >>= pure).Meets true (fun _ _ => True) s fun a s' =>
        (a, s') = (s.disk (inodeBlock i), s.setBuffer (inodeBlock i) taken) := meets_readBlock hfree rfl
    obtain ⟨a, s', hrun, heq⟩ := meets_ends hrule (clear_all _ s)
    obtain ⟨a', s'', hrun', hpure⟩ := run_bind_some hrun
    rw [hrun', ← heq]
    exact hpure
  have hrelease : ∀ s' : Fs, s'.buffers (inodeBlock i) = taken →
      (releaseBlock (inodeBlock i)).run s' = some ((), s'.setBuffer (inodeBlock i) (.init 1)) := by
    intro s' hs'
    have hup : (s'.buffers (inodeBlock i)).up = .init 1 := by
      rw [hs']
      rfl
    rw [releaseBlock, act, run_access rfl, hup]
    rfl
  have hself := taken_self s (inodeBlock i)
  rw [allocInodeFrom]
  refine (run_bind_of hread).trans ?_
  change (if (record s.disk i).type = 0 then _ else _ : Prog (Option ℕ)).run _ = _
  by_cases htype : (record s.disk i).type = 0
  · rw [if_pos htype, if_pos htype]
    change (writeBlock (inodeBlock i) _ >>= fun _ => releaseBlock (inodeBlock i) >>= fun _ =>
      getInode dev i).run _ = _
    have hwrite : (writeBlock (inodeBlock i) (putDiskInode (i%inodesPerBlock) (newRecord type)
        (s.disk (inodeBlock i)))).run (s.setBuffer (inodeBlock i) taken) = some ((),
          (s.setBuffer (inodeBlock i) taken).setDisk (inodeBlock i)
            (putDiskInode (i%inodesPerBlock) (newRecord type) (s.disk (inodeBlock i)))) := rfl
    have hdone := hrelease ((s.setBuffer (inodeBlock i) taken).setDisk (inodeBlock i)
      (putDiskInode (i%inodesPerBlock) (newRecord type) (s.disk (inodeBlock i)))) hself
    refine (run_bind_of hwrite).trans ((run_bind_of hdone).trans ?_)
    rw [setDisk_back hfree]
    rfl
  · rw [if_neg htype, if_neg htype]
    refine (run_bind_of (hrelease _ hself)).trans ?_
    rw [setBuffer_back hfree]

/-- Inodes are encoded and decoded by inverse functions, at one place for each number. -/
theorem inode_records (hfree : ∀ n, s.buffers n = .init 1) :
    (∀ p q c c', c' ≠ c → (s.inodes c').valid = false →
      ∃ s₁ s₂, (writeToDisk p c).run s = some ((), s₁) ∧
        (readFromDisk q c' (s.inodes c).inum).run s₁ = some ((), s₂) ∧
        SameFields (s₂.inodes c').toDiskInode (s.inodes c).toDiskInode ∧
        OnlyRecord (s.inodes c).inum s.disk s₁.disk ∧
        ∀ j, j ≠ (s.inodes c).inum → record s₁.disk j = record s.disk j) ∧
    ∀ p dev k i type, (allocInodeFrom p dev type (k+1) i).run s = if (record s.disk i).type = 0
      then (getInode dev i).run { s with disk := putRecord s.disk i (newRecord type) }
      else (allocInodeFrom p dev type k (i+1)).run s := by
  constructor
  · intro p q c c' hne hfresh
    refine ⟨_, _, run_writeToDisk (hfree _), run_readFromDisk (hfree _) hfresh, ?_, onlyRecord_put _ _ _,
      fun j hj => ?_⟩
    · rw [setInode_self]
      change SameFields (record (putRecord s.disk _ _) _) _
      rw [record_cut, if_pos rfl]
      exact same_cut _
    · change record (putRecord s.disk _ _) j = _
      rw [record_cut, if_neg hj]
  · intro p dev k i type
    exact run_allocInodeFrom (hfree _) dev k type

/-- The root directory of the small disk, and a slot that is free. -/
theorem inode_records_small : ∃ s₁ s₂, (writeToDisk 0 0).run small = some ((), s₁) ∧
    (readFromDisk 0 2 1).run s₁ = some ((), s₂) ∧ SameFields (s₂.inodes 2).toDiskInode smallRoot ∧
    OnlyRecord 1 small.disk s₁.disk ∧ ∀ j, j ≠ 1 → record s₁.disk j = record small.disk j :=
  (inode_records (s := small) (fun _ => rfl)).1 0 0 0 2 (by decide) rfl

end Records

end BabyOS.InodeRecords

import BabyOS.CacheInvariant
import BabyOS.AtomicSchedules

/-!
# Contents of the inode cache

A loaded inode is what the disk has, or one process has changed it and not yet written it,
where a read fills no block, a write sets no block below the size, and no free inode is
read. A write that is done settles only what its own process has changed.
-/

set_option autoImplicit false

namespace BabyOS.CacheContents
open BabyOS.AtomicPrograms BabyOS.AtomicSchedules
open BabyOS.FileSystem (DiskInode blockSize typeDir typeFile modeRdwr)
open BabyOS.InodeCache BabyOS.CacheBooks BabyOS.CachePaths BabyOS.CacheCounts BabyOS.CacheInvariant

/-- The accesses that leave nothing behind. -/
def Tidy (s : Cache) : Action → Prop
  | .linkExists _ => False
  | .fill i k b => b = (s.inodes i).addrs k
  | .assign i k _ => (s.inodes i).size.toNat ≤ blockSize*k
  | .load _ id => (s.records id).type ≠ 0
  | _ => True

/-- A process has changed an inode, and will write it. -/
def Pending (v : Book) (s : Cache) (i : ℕ) : Prop :=
  i ∈ v.dirty ∧ ∀ last, v.writing = some (i, last) → (s.inodes i).size.toNat < last

/-- An inode in use without a type is freed. -/
def Draining (s : Cache) (g : ℕ → Book) : Prop :=
  ∀ i, 0 < (s.inodes i).ref → (s.inodes i).valid = true → (s.inodes i).type = 0 → ∃ p, (g p).freeing = some i

/-- The loaded inodes and the disk. -/
structure Matched (s : Cache) (g : ℕ → Book) : Prop where
  draining : Draining s g
  typed : ∀ i, 0 < (s.inodes i).ref → (s.inodes i).valid = true → (s.records (s.inodes i).inum).type = 0 →
    ∃ p, (g p).freeing = some i
  saved : ∀ i, 0 < (s.inodes i).ref → (s.inodes i).valid = true →
    (s.inodes i).toDiskInode = s.records (s.inodes i).inum ∨ ∃ p, Pending (g p) s i

section Steps

variable {lost : ℕ → ℕ} {s : Cache} {g : ℕ → Book} {p i : ℕ} {e : Action}

/-- Only `put_inode` ends what it began. -/
theorem freeing_kept (h : ∃ q, (g q).freeing = some i) (hmay : may p (g p) s e) (he : e ≠ .erase i) :
    ∃ q, (Function.update g p (note (g p) e) q).freeing = some i := by
  obtain ⟨q, hq⟩ := h
  by_cases hqp : q = p
  · subst hqp
    refine ⟨q, ?_⟩
    rw [Function.update_self]
    cases e with
    | clear j => exact nomatch hq.symm.trans hmay.1.2.1
    | erase j => exact absurd (congrArg Action.erase (Option.some.inj (hmay.1.symm.trans hq))) he
    | _ => exact hq
  · exact ⟨q, by rw [Function.update_of_ne hqp]; exact hq⟩

/-- The record that is written. -/
def written (s : Cache) : Action → Option ℕ
  | .save i => some (s.inodes i).inum
  | .make id _ => some id
  | _ => none

theorem record_other {id : ℕ} (h : written s e ≠ some id) : (e.apply p s).records id = s.records id := by
  cases e <;> first
    | rfl
    | exact Function.update_of_ne (fun hc => h (congrArg some hc.symm)) _ _

theorem draining_access (h : Draining s g) (hmay : may p (g p) s e)
    (hload : ∀ j id, e = .load j id → (s.records id).type ≠ 0) :
    Draining (e.apply p s) (Function.update g p (note (g p) e)) := by
  intro i hi hvalid htype
  by_cases hshaping : Shaping i e
  · cases e with
    | fresh j | erase j =>
      obtain rfl : j = i := hshaping
      exact nomatch (field_self Inode.valid _).symm.trans hvalid
    | clear j =>
      obtain rfl : j = i := hshaping
      exact ⟨p, by rw [Function.update_self]; rfl⟩
    | load j id =>
      obtain rfl : j = i := hshaping
      exact absurd ((field_self (·.type) _).symm.trans htype) (hload j id rfl)
    | links j n =>
      obtain rfl : j = i := hshaping
      have hused := lt_of_lt_of_eq hi (field_self Inode.ref _)
      have hv := (field_self Inode.valid _).symm.trans hvalid
      have ht := (field_self (·.type) _).symm.trans htype
      exact freeing_kept (h j hused hv ht) hmay nofun
    | init j =>
      obtain rfl : j = i := hshaping
      exact absurd ((field_self (·.type) _).symm.trans htype) hmay.2.2.2.1
    | _ => exact hshaping.elim
  · have hshape := @shape_apply e p i s hshaping
    obtain hused | ⟨dev, inum, o, rfl⟩ := used_apply hmay hi
    · rw [hshape.valid] at hvalid
      rw [hshape.type] at htype
      refine freeing_kept (h i hused hvalid htype) hmay ?_
      rintro rfl
      exact hshaping rfl
    · exact absurd rfl hshaping

/-- An inode that is loaded was loaded before, or is now. -/
theorem valid_apply (hmay : may p (g p) s e) (hi : 0 < ((e.apply p s).inodes i).ref)
    (hvalid : ((e.apply p s).inodes i).valid = true) :
    0 < (s.inodes i).ref ∧ e ≠ .erase i ∧ ((s.inodes i).valid = true ∨ ∃ id, e = .load i id) := by
  have hused : 0 < (s.inodes i).ref := by
    obtain hused | ⟨dev, inum, o, rfl⟩ := used_apply hmay hi
    · exact hused
    · exact nomatch (field_self Inode.valid _).symm.trans hvalid
  by_cases hshaping : Shaping i e
  · cases e with
    | fresh j | erase j =>
      obtain rfl : j = i := hshaping
      exact nomatch (field_self Inode.valid _).symm.trans hvalid
    | clear j | links j | init j =>
      obtain rfl : j = i := hshaping
      refine ⟨hused, nofun, Or.inl (Eq.trans (Eq.symm ?_) hvalid)⟩
      exact field_self Inode.valid _
    | load j id =>
      obtain rfl : j = i := hshaping
      exact ⟨hused, nofun, Or.inr ⟨id, rfl⟩⟩
    | _ => exact hshaping.elim
  · rw [(@shape_apply e p i s hshaping).valid] at hvalid
    refine ⟨hused, ?_, Or.inl hvalid⟩
    rintro rfl
    exact hshaping rfl

/-- The inode that is loaded has the number that is read. -/
theorem load_number {id : ℕ} (ho : Orderly lost s g) (hmay : may p (g p) s (.load i id)) :
    (s.inodes i).inum = id :=
  ((ho.sound p).known i id hmay.2.2.1).2

/-- The inode that is written is in use. -/
theorem save_used (ho : Orderly lost s g) (hmay : may p (g p) s (.save i)) : 0 < (s.inodes i).ref := by
  obtain ⟨⟨n, hbuffer⟩, -⟩ := hmay
  have haim := ((ho.sound p).aim i n (by rw [hbuffer]; rfl)).1
  exact has_pos ho.counted haim

theorem typed_access (ho : Orderly lost s g) (h : Matched s g) (hmay : may p (g p) s e) (htidy : Tidy s e)
    (hi : 0 < ((e.apply p s).inodes i).ref) (hvalid : ((e.apply p s).inodes i).valid = true)
    (htype : ((e.apply p s).records ((e.apply p s).inodes i).inum).type = 0) :
    ∃ q, (Function.update g p (note (g p) e) q).freeing = some i := by
  obtain ⟨hused, hne, hvalid⟩ := valid_apply hmay hi hvalid
  rw [(number_apply hmay hused).1] at htype
  obtain hvalid | ⟨id, rfl⟩ := hvalid
  · by_cases hwritten : written s e = some (s.inodes i).inum
    · cases e with
      | save j =>
        obtain rfl := ho.numbered.unique j i (save_used ho hmay) hused (Option.some.inj hwritten)
        have hcontent : (s.inodes j).toDiskInode.type = 0 := by
          rw [← htype]
          exact (congrArg DiskInode.type (Function.update_self ..)).symm
        exact freeing_kept (h.draining j hused hvalid hcontent) hmay hne
      | make id type =>
        obtain rfl : id = (s.inodes i).inum := Option.some.inj hwritten
        exact absurd ((congrArg DiskInode.type (Function.update_self ..)).symm.trans htype) hmay.2.2.1
      | _ => cases hwritten
    · rw [record_other hwritten] at htype
      exact freeing_kept (h.typed i hused hvalid htype) hmay hne
  · rw [load_number ho hmay] at htype
    exact absurd htype htidy

/-! ## What is changed and not written -/

theorem pending_note (h : Pending (g p) s i) (hmay : may p (g p) s e) (he : e ≠ .save i)
    (hsize : ((e.apply p s).inodes i).size = (s.inodes i).size) : Pending (note (g p) e) (e.apply p s) i := by
  obtain ⟨hdirty, hwriting⟩ := h
  have hkeep : ∀ last, (g p).writing = some (i, last) → ((e.apply p s).inodes i).size.toNat < last := by
    intro last hlast
    rw [hsize]
    exact hwriting last hlast
  cases e with
  | save j =>
    refine ⟨List.mem_filter.mpr ⟨hdirty, ?_⟩, hkeep⟩
    apply decide_eq_true
    rintro rfl
    exact he rfl
  | settle j =>
    obtain ⟨last, hlast, hsettled⟩ := hmay
    refine ⟨List.mem_filter.mpr ⟨hdirty, ?_⟩, nofun⟩
    apply decide_eq_true
    rintro rfl
    obtain hle | hnil := hsettled
    · have hlt := hwriting last hlast
      omega
    · rw [hnil] at hdirty
      exact List.not_mem_nil hdirty
  | start j last =>
    rw [hmay.2] at hdirty
    exact absurd hdirty List.not_mem_nil
  | grow j last => exact ⟨List.mem_cons_of_mem _ hdirty, nofun⟩
  | clear j | forget j | shrink j | assign j | links j | init j => exact ⟨List.mem_cons_of_mem _ hdirty, hkeep⟩
  | _ => exact ⟨hdirty, hkeep⟩

/-- The accesses that change an inode. -/
def Changing (i : ℕ) : Action → Prop
  | .clear j | .forget j _ | .shrink j | .assign j _ _ | .grow j _ | .links j _ | .init j _ _ _ => j = i
  | _ => False

theorem pending_changing (ho : Orderly lost s g) (hmay : may p (g p) s e) (htidy : Tidy s e)
    (h : Changing i e) : Pending (note (g p) e) (e.apply p s) i := by
  have hnone : ∀ last (P : Prop), (g p).writing = none → (g p).writing = some (i, last) → P :=
    fun last P hnone hsome => nomatch hnone.symm.trans hsome
  cases e with
  | clear j =>
    obtain rfl : j = i := h
    exact ⟨List.mem_cons_self, fun last => hnone last _ hmay.1.2.2.1⟩
  | forget j | shrink j =>
    obtain rfl : j = i := h
    have hwriting := ((ho.sound p).freeing j hmay.1).2.1.1
    exact ⟨List.mem_cons_self, fun last => hnone last _ hwriting⟩
  | assign j k b =>
    obtain rfl : j = i := h
    refine ⟨List.mem_cons_self, fun last hlast => ?_⟩
    obtain ⟨last', hlast', hk⟩ := hmay
    obtain ⟨-, rfl⟩ := Prod.mk.inj (Option.some.inj (hlast'.symm.trans hlast))
    refine lt_of_le_of_lt (le_trans (le_of_eq ?_) htidy) hk
    exact field_self (·.size.toNat) _
  | grow j =>
    obtain rfl : j = i := h
    exact ⟨List.mem_cons_self, nofun⟩
  | links j =>
    obtain rfl : j = i := h
    exact ⟨List.mem_cons_self, fun last => hnone last _ hmay.2.1⟩
  | init j =>
    obtain rfl : j = i := h
    exact ⟨List.mem_cons_self, fun last => hnone last _ hmay.2.1⟩
  | _ => exact h.elim

/-- The others keep the inode the same: it is loaded, filled with what it has, or given
another count. -/
theorem content_apply (htidy : Tidy s e) (h : ¬ Changing i e) (hi : 0 < ((e.apply p s).inodes i).ref)
    (hvalid : ((e.apply p s).inodes i).valid = true) :
    ((e.apply p s).inodes i).toDiskInode = (s.inodes i).toDiskInode ∨ ∃ id, e = .load i id := by
  by_cases htouched : touched e = some i
  · cases e with
    | clear j | forget j | shrink j | assign j | grow j | links j | init j =>
      exact absurd (Option.some.inj htouched) h
    | fresh j | erase j =>
      obtain rfl : j = i := Option.some.inj htouched
      exact nomatch (field_self Inode.valid _).symm.trans hvalid
    | load j id =>
      obtain rfl : j = i := Option.some.inj htouched
      exact Or.inr ⟨id, rfl⟩
    | fill j k b =>
      obtain rfl : j = i := Option.some.inj htouched
      left
      refine (field_self Inode.toDiskInode _).trans ?_
      obtain rfl : b = (s.inodes j).addrs k := htidy
      rw [InodeCache.Inode.setAddr, Function.update_eq_self]
    | lock j | unlock j | take j | put j =>
      obtain rfl : j = i := Option.some.inj htouched
      exact Or.inl (field_self Inode.toDiskInode _)
    | _ => cases htouched
  · rw [inode_other htouched]
    exact Or.inl rfl

/-- `alloc_inode` writes a record that is free: its inode is not loaded, or it is freed and
not yet written. -/
theorem make_pending {id : ℕ} {type : BitVec 16} (ho : Orderly lost s g) (h : Matched s g)
    (hmay : may p (g p) s (.make id type)) (hused : 0 < (s.inodes i).ref) (hvalid : (s.inodes i).valid = true)
    (hid : (s.inodes i).inum = id) : ∃ q, q ≠ p ∧ Pending (g q) s i := by
  obtain ⟨hblock, htype, -, hfree⟩ := hmay
  obtain ⟨q, hq⟩ := h.typed i hused hvalid (by rw [hid]; exact htype)
  have hqp : q ≠ p := by
    rintro rfl
    exact nomatch hq.symm.trans hfree
  obtain ⟨-, ⟨hwriting, -⟩, hdirty | ⟨n, hn⟩⟩ := (ho.sound q).freeing i hq
  · exact ⟨q, hqp, hdirty, fun last hlast => nomatch hwriting.symm.trans hlast⟩
  · -- The buffer of the inode is with the process that frees it.
    obtain ⟨-, rfl⟩ := (ho.sound q).aim i n (by rw [hn]; rfl)
    have hq := (ho.sound q).held (inodeBlock (s.inodes i).inum) (by rw [hn]; rfl)
    have hp := (ho.sound p).held (inodeBlock id) (by rw [hblock]; rfl)
    rw [hid] at hq
    exact absurd (Option.some.inj (hq.symm.trans hp)) hqp

theorem saved_access (ho : Orderly lost s g) (h : Matched s g) (hmay : may p (g p) s e) (htidy : Tidy s e)
    (hi : 0 < ((e.apply p s).inodes i).ref) (hvalid : ((e.apply p s).inodes i).valid = true) :
    ((e.apply p s).inodes i).toDiskInode = (e.apply p s).records ((e.apply p s).inodes i).inum ∨
      ∃ q, Pending (Function.update g p (note (g p) e) q) (e.apply p s) i := by
  obtain ⟨hused, -, hbefore⟩ := valid_apply hmay hi hvalid
  rw [(number_apply hmay hused).1]
  by_cases hchanging : Changing i e
  · exact Or.inr ⟨p, by rw [Function.update_self]; exact pending_changing ho hmay htidy hchanging⟩
  obtain hsame | ⟨id, rfl⟩ := @content_apply s p i e htidy hchanging hi hvalid
  · have hsize : ((e.apply p s).inodes i).size = (s.inodes i).size := congrArg DiskInode.size hsame
    have hother : ∀ q, q ≠ p → Pending (g q) s i → ∃ q, Pending (Function.update g p (note (g p) e) q) (e.apply p s) i := by
      rintro q hq ⟨hdirty, hwriting⟩
      refine ⟨q, ?_⟩
      rw [Function.update_of_ne hq]
      refine ⟨hdirty, fun last hlast => ?_⟩
      rw [hsize]
      exact hwriting last hlast
    rw [hsame]
    obtain hvalid | ⟨id, rfl⟩ := hbefore
    · by_cases hsave : e = .save i
      · subst hsave
        left
        exact (Function.update_self (s.inodes i).inum (s.inodes i).toDiskInode s.records).symm
      obtain hrecord | ⟨q, hq⟩ := h.saved i hused hvalid
      · by_cases hwritten : written s e = some (s.inodes i).inum
        · cases e with
          | save j =>
            obtain rfl := ho.numbered.unique j i (save_used ho hmay) hused (Option.some.inj hwritten)
            exact absurd rfl hsave
          | make id type =>
            obtain ⟨q, hq, hpending⟩ := make_pending ho h hmay hused hvalid (Option.some.inj hwritten).symm
            exact Or.inr (hother q hq hpending)
          | _ => cases hwritten
        · rw [record_other hwritten]
          exact Or.inl hrecord
      · right
        by_cases hqp : q = p
        · subst hqp
          refine ⟨q, ?_⟩
          rw [Function.update_self]
          exact pending_note hq hmay hsave hsize
        · exact hother q hqp hq
    · left
      rw [← hsame, load_number ho hmay]
      exact field_self Inode.toDiskInode _
  · left
    rw [load_number ho hmay]
    exact field_self Inode.toDiskInode _

theorem matched_access (ho : Orderly lost s g) (h : Matched s g) (hmay : may p (g p) s e) (htidy : Tidy s e) :
    Matched (e.apply p s) (Function.update g p (note (g p) e)) where
  draining := by
    apply draining_access h.draining hmay
    rintro j id rfl
    exact htidy
  typed := fun _ => typed_access ho h hmay htidy
  saved := fun _ => saved_access ho h hmay htidy

end Steps

/-! ## Runs -/

/-- Nobody has a file open, and a loaded inode is what the disk has, and is not free. -/
structure Loaded (s : Cache) : Prop where
  begun : Begun s
  typed : ∀ i, 0 < (s.inodes i).ref → (s.inodes i).valid = true → (s.inodes i).type ≠ 0
  saved : ∀ i, 0 < (s.inodes i).ref → (s.inodes i).valid = true →
    (s.inodes i).toDiskInode = s.records (s.inodes i).inum

theorem matched_loaded {s : Cache} (h : Loaded s) : Matched s fun _ => blank where
  draining := fun i hi hvalid htype => absurd htype (h.typed i hi hvalid)
  typed := by
    intro i hi hvalid htype
    rw [← h.saved i hi hvalid] at htype
    exact absurd htype (h.typed i hi hvalid)
  saved := fun i hi hvalid => Or.inl (h.saved i hi hvalid)

/-- One slot for an inode; and it is what the disk has, but for what a process has changed
and will write. -/
structure Coherent (s : Cache) (g : ℕ → Book) : Prop where
  unique : ∀ i j, 0 < (s.inodes i).ref → 0 < (s.inodes j).ref → (s.inodes i).dev = (s.inodes j).dev →
    (s.inodes i).inum = (s.inodes j).inum → i = j
  saved : ∀ i, 0 < (s.inodes i).ref → (s.inodes i).valid = true →
    (s.inodes i).toDiskInode = s.records (s.inodes i).inum ∨ ∃ p, i ∈ (g p).dirty

/-- A slot in use stays with its inode. -/
def Stays (s s' : Cache) : Prop := ∀ i, 0 < (s.inodes i).ref →
  (s'.inodes i).dev = (s.inodes i).dev ∧ (s'.inodes i).inum = (s.inodes i).inum

section Runs

variable {w w' : World Cache Action Bool Book}

abbrev TidyRun (w : World Cache Action Bool Book) : Prop :=
  Run Loaded calls (fun _ _ s e => Tidy s e) note blank w

theorem matched_run (h : TidyRun w) : ((∃ lost, Orderly lost w.state w.book) ∧ Matched w.state w.book) ∧
    Follows (fun _ _ s e => Tidy s e) note Relies rule Idle w := by
  have hfair : ∀ (_ : Book) s e, Tidy s e → Fair e := by
    rintro _ _ e htidy i rfl
    exact htidy
  apply run_cache hfair _ _ h
  · exact fun s hs => ⟨hs.begun, matched_loaded hs⟩
  · exact fun _ _ _ _ _ ho hm _ htidy hmay => matched_access ho hm hmay htidy

end Runs

/-! ## A file that two processes write -/

def rootRecord : DiskInode := ⟨typeDir, 0, 0, 1, 16, fun k => if k = 0 then 10 else 0⟩

def fileRecord : DiskInode := ⟨typeFile, 0, 0, 1, 0, fun _ => 0⟩

def noRecord : DiskInode := ⟨0, 0, 0, 0, 0, fun _ => 0⟩

/-- Two processes, and an empty file `f`. -/
def twoProcesses : Cache where
  procs := 2
  inodes := fun i => if i = 0 then ⟨rootRecord, 1, 1, 2, true, 1⟩ else ⟨noRecord, 0, 0, 0, false, 1⟩
  records := fun id => if id = 1 then rootRecord else if id = 2 then fileRecord else noRecord
  holder := fun _ => none
  bits := fun b => b < 11
  tables := fun _ _ => 0
  tableHolder := fun _ => none
  entries := fun d k => if d = 1 ∧ k = 0 then (2, [0x66]) else (0, [])
  opened := fun _ => []
  cwd := fun _ => 0
  ninodes := 8
  nblocks := 32

theorem twoProcesses_used {i : ℕ} (h : 0 < (twoProcesses.inodes i).ref) : i = 0 := by
  by_contra hi
  change 0 < (if i = 0 then _ else _ : InodeCache.Inode).ref at h
  rw [if_neg hi] at h
  exact absurd h (lt_irrefl 0)

theorem twoProcesses_loaded : Loaded twoProcesses where
  begun := by
    refine ⟨fun _ => rfl, fun i => ?_, fun i hi => ?_, fun i hi => ?_, fun i j hi hj _ => ?_⟩
    · by_cases hi : i = 0
      · subst hi
        decide
      · change (if i = 0 then _ else _ : InodeCache.Inode).ref = _
        rw [if_neg hi, shares]
        refine (Finset.sum_eq_zero fun p _ => ?_).symm
        change 0+0+(if 0 = i then 1 else 0) = 0
        rw [if_neg (Ne.symm hi), Nat.add_zero]
    · obtain rfl := twoProcesses_used hi
      rfl
    · obtain rfl := twoProcesses_used hi
      decide
    · exact (twoProcesses_used hi).trans (twoProcesses_used hj).symm
  typed := by
    intro i hi _
    obtain rfl := twoProcesses_used hi
    decide
  saved := by
    intro i hi _
    obtain rfl := twoProcesses_used hi
    rfl

/-- Both open the file; the first finds that it has no block, the second writes a byte, and
then the first. -/
def bothWrite : List (Turn Call) :=
  [.take 0 (.doOpen [0x2f, 0x66] modeRdwr true), .go 0 40, .leave 0,
    .take 1 (.doOpen [0x2f, 0x66] modeRdwr true), .go 1 40, .leave 1,
    .take 0 (.doWrite 0 0 1), .go 0 4, .take 1 (.doWrite 0 0 1), .go 1 40, .leave 1, .go 0 40, .leave 0]

def ready (s : Cache) (p : ℕ) (_ : Call) : Bool := decide (p < s.procs)

theorem calls_ready (s : Cache) (p : ℕ) (c : Call) (h : ready s p c = true) : calls s p (program p c) :=
  ⟨of_decide_eq_true h, c, rfl⟩

/-- Nobody is in a call, and the file has a block that its record does not have. -/
def differs (w : World Cache Action Bool Book) : Bool :=
  (w.call 0).isNone && (w.call 1).isNone && (w.book 0).dirty = [] && (w.book 1).dirty = [] &&
    0 < (w.state.inodes 1).ref && (w.state.inodes 1).valid &&
    (w.state.inodes 1).addrs 0 ≠ (w.state.records (w.state.inodes 1).inum).addrs 0

end BabyOS.CacheContents

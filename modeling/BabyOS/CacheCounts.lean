import BabyOS.CachePaths
import BabyOS.RangeSums

/-!
# Counts of the inode cache

The count of an inode is the number of references in hand, of descriptors and of current
directories, and of references that were lost. At most one inode in use has a number.
-/

set_option autoImplicit false

namespace BabyOS.CacheCounts
open BabyOS.AtomicPrograms BabyOS.RangeSums
open BabyOS.FileSystem (maxInodeCache rootDev rootInum)
open BabyOS.InodeCache BabyOS.CacheBooks

/-! ## What an access touches -/

/-- The inode that an access sets. -/
def touched : Action → Option ℕ
  | .lock i | .unlock i | .take i _ _ | .fresh i _ _ _ | .put i | .clear i | .forget i _ | .shrink i
  | .erase i | .load i _ | .fill i _ _ | .assign i _ _ | .grow i _ | .links i _ | .init i _ _ _ => some i
  | _ => none

theorem inode_other {e : Action} {p j : ℕ} {s : Cache} (h : touched e ≠ some j) :
    (e.apply p s).inodes j = s.inodes j := by
  cases e <;> first
    | rfl
    | exact Function.update_of_ne (fun hc => h (congrArg some hc.symm)) _ _

theorem inode_self {s : Cache} {i : ℕ} {x : Inode} : (s.setInode i x).inodes i = x := Function.update_self ..

/-- A field of the inode that is set. -/
theorem field_self {β : Type} (f : Inode → β) {s : Cache} {i : ℕ} (x : Inode) :
    f ((s.setInode i x).inodes i) = f x := by
  rw [inode_self]

theorem inode_ne {s : Cache} {i j : ℕ} {x : Inode} (h : j ≠ i) : (s.setInode i x).inodes j = s.inodes j :=
  Function.update_of_ne h _ _

/-- The accesses that count. -/
def Counting : Action → Prop
  | .take _ _ _ | .fresh _ _ _ _ | .put _ | .erase _ | .keep _ | .lose _ | .withdraw _ => True
  | _ => False

instance : DecidablePred Counting := fun e => by
  cases e <;> first | exact instDecidableTrue | exact instDecidableFalse

/-- Nothing that counts is touched. -/
structure Steady (s s' : Cache) : Prop where
  procs : s'.procs = s.procs
  cwd : s'.cwd = s.cwd
  opened : s'.opened = s.opened
  ref : ∀ i, (s'.inodes i).ref = (s.inodes i).ref
  dev : ∀ i, (s'.inodes i).dev = (s.inodes i).dev
  inum : ∀ i, (s'.inodes i).inum = (s.inodes i).inum

theorem steady_setInode {s : Cache} {i : ℕ} {x : Inode} (href : x.ref = (s.inodes i).ref)
    (hdev : x.dev = (s.inodes i).dev) (hinum : x.inum = (s.inodes i).inum) : Steady s (s.setInode i x) := by
  refine ⟨rfl, rfl, rfl, fun j => ?_, fun j => ?_, fun j => ?_⟩ <;>
  · by_cases hj : j = i
    · subst hj
      rw [inode_self]
      assumption
    · rw [inode_ne hj]

theorem steady_apply {e : Action} {p : ℕ} {s : Cache} (h : ¬ Counting e) : Steady s (e.apply p s) := by
  have hsame : ∀ s' : Cache, s'.procs = s.procs → s'.cwd = s.cwd → s'.opened = s.opened →
      s'.inodes = s.inodes → Steady s s' := by
    intro s' hprocs hcwd hopened hinodes
    exact ⟨hprocs, hcwd, hopened, fun i => by rw [hinodes], fun i => by rw [hinodes], fun i => by rw [hinodes]⟩
  cases e with
  | take | fresh | put | erase | keep | lose | withdraw => exact absurd trivial h
  | lock i | unlock i | clear i | forget i | shrink i | fill i | assign i | grow i | links i | init i =>
    exact steady_setInode rfl rfl rfl
  | load i id =>
    have hload := @steady_setInode (s.setHolder (inodeBlock id) none) i ((s.inodes i).read (s.records id)) rfl rfl rfl
    exact ⟨hload.procs, hload.cwd, hload.opened, hload.ref, hload.dev, hload.inum⟩
  | _ => exact hsame _ rfl rfl rfl rfl

theorem steady_note {e : Action} {v : Book} (h : ¬ Counting e) :
    (note v e).refs = v.refs ∧ (note v e).files = v.files := by
  cases e with
  | take | fresh | put | erase | keep | lose | withdraw => exact absurd trivial h
  | _ => exact ⟨rfl, rfl⟩

/-! ## Counts -/

/-- What a process has of the count of inode `i`. -/
def share (s : Cache) (v : Book) (p i : ℕ) : ℕ :=
  v.refs.count i+v.files.count i+if s.cwd p = i then 1 else 0

def shares (s : Cache) (g : ℕ → Book) (i : ℕ) : ℕ := ∑ p ∈ Finset.range s.procs, share s (g p) p i

/-- What is counted, with the references that were lost. -/
structure Counted (lost : ℕ → ℕ) (s : Cache) (g : ℕ → Book) : Prop where
  ref : ∀ i, (s.inodes i).ref = shares s g i+lost i
  files : ∀ p, s.opened p = (g p).files
  blank : ∀ p, s.procs ≤ p → g p = blank

section Steps

variable {lost lost' : ℕ → ℕ} {s s' : Cache} {g : ℕ → Book} {p i : ℕ} {v' : Book}

/-- The step of one process: its part of the counts and the counts agree. -/
theorem counted_step (h : Counted lost s g) (hp : p < s.procs) (hprocs : s'.procs = s.procs)
    (hcwd : s'.cwd = s.cwd) (hfiles : s'.opened p = v'.files) (hopened : ∀ q, q ≠ p → s'.opened q = s.opened q)
    (href : ∀ i, (s'.inodes i).ref+share s (g p) p i+lost i = (s.inodes i).ref+share s v' p i+lost' i) :
    Counted lost' s' (Function.update g p v') := by
  refine ⟨fun i => ?_, fun q => ?_, fun q hq => ?_⟩
  · have hsum := @sum_change _ _ hp (fun q => share s (g q) q i)
      (fun q => share s (Function.update g p v' q) q i) (fun q _ hq => by rw [Function.update_of_ne hq])
    rw [Function.update_self] at hsum
    have hshares : shares s' (Function.update g p v') i =
        ∑ q ∈ Finset.range s.procs, share s (Function.update g p v' q) q i := by
      rw [shares, hprocs]
      apply Finset.sum_congr rfl
      intro q _
      rw [share, share, hcwd]
    have hold := h.ref i
    have hnew := href i
    rw [shares] at hold
    omega
  · by_cases hq : q = p
    · subst hq
      rw [Function.update_self]
      exact hfiles
    · rw [Function.update_of_ne hq, hopened q hq]
      exact h.files q
  · rw [Function.update_of_ne (by omega)]
    exact h.blank q (by omega)

theorem share_le (hp : p < s.procs) (i : ℕ) : share s (g p) p i ≤ shares s g i :=
  Finset.single_le_sum (f := fun q => share s (g q) q i) (fun _ _ => Nat.zero_le _) (Finset.mem_range.mpr hp)

/-- The book of a process that does something exists. -/
theorem has_lt (h : Counted lost s g) (hi : Has (g p) i) : p < s.procs := by
  by_contra hge
  rw [h.blank p (Nat.le_of_not_lt hge)] at hi
  obtain hi | hi := hi <;> exact absurd hi List.not_mem_nil

theorem has_share (hi : Has (g p) i) : 0 < (g p).refs.count i+(g p).files.count i := by
  obtain hi | hi := hi
  · have := List.count_pos_iff.mpr hi
    omega
  · have := List.count_pos_iff.mpr hi
    omega

theorem has_pos (h : Counted lost s g) (hi : Has (g p) i) : 0 < (s.inodes i).ref := by
  have hle := share_le (g := g) (has_lt h hi) i
  have hpos := has_share hi
  have href := h.ref i
  rw [share] at hle
  omega

theorem home_pos (h : Counted lost s g) (hp : p < s.procs) : 0 < (s.inodes (s.cwd p)).ref := by
  have hle := share_le (g := g) hp (s.cwd p)
  have href := h.ref (s.cwd p)
  rw [share, if_pos rfl] at hle
  omega

/-- A count of one is one reference. -/
theorem has_alone (h : Counted lost s g) (hone : (s.inodes i).ref = 1) (hi : Has (g p) i) :
    shares s g i = 1 ∧ (∀ q, Has (g q) i → q = p) ∧ ∀ q < s.procs, s.cwd q ≠ i := by
  have hp := has_lt h hi
  have href := h.ref i
  have hpos := has_share hi
  have hle := share_le (g := g) hp i
  have hself : share s (g p) p i = (g p).refs.count i+(g p).files.count i+if s.cwd p = i then 1 else 0 := rfl
  have hother : ∀ q < s.procs, q ≠ p → share s (g q) q i = 0 := by
    intro q hq hne
    have hpair := Finset.add_le_sum (f := fun q => share s (g q) q i) (fun _ _ => Nat.zero_le _)
      (Finset.mem_range.mpr hp) (Finset.mem_range.mpr hq) (Ne.symm hne)
    rw [shares] at href
    omega
  refine ⟨by omega, fun q hq => ?_, fun q hq hc => ?_⟩
  · by_contra hne
    have hzero := hother q (has_lt h hq) hne
    have hqpos := has_share hq
    rw [share] at hzero
    omega
  · by_cases hne : q = p
    · subst hne
      rw [if_pos hc] at hself
      omega
    · have hzero := hother q hq hne
      rw [share, if_pos hc] at hzero
      omega

theorem count_cons (l : List ℕ) (i j : ℕ) : (i :: l).count j = l.count j+if j = i then 1 else 0 := by
  have hiff : (i == j) = true ↔ j = i := by
    rw [beq_iff_eq]
    exact eq_comm
  rw [List.count_cons, if_congr hiff rfl rfl]

theorem count_erase {l : List ℕ} (h : i ∈ l) (j : ℕ) :
    (l.erase i).count j+(if j = i then 1 else 0) = l.count j := by
  rw [List.count_erase]
  by_cases hj : j = i
  · subst hj
    rw [beq_self_eq_true, if_pos rfl, if_pos rfl, Nat.sub_add_cancel (List.count_pos_iff.mpr h)]
  · rw [if_neg (by rw [beq_iff_eq]; exact Ne.symm hj), if_neg hj]
    rfl

theorem ref_setInode (s : Cache) (i : ℕ) (x : Inode) (j : ℕ) :
    ((s.setInode i x).inodes j).ref = if j = i then x.ref else (s.inodes j).ref := by
  by_cases hj : j = i
  · subst hj
    rw [inode_self, if_pos rfl]
  · rw [if_neg hj, inode_ne hj]

/-- A reference is taken. -/
theorem counted_take (h : Counted lost s g) (hp : p < s.procs) (hprocs : s'.procs = s.procs)
    (hcwd : s'.cwd = s.cwd) (hopened : s'.opened = s.opened)
    (href : ∀ j, (s'.inodes j).ref = (s.inodes j).ref+if j = i then 1 else 0)
    (hrefs : v'.refs = i :: (g p).refs) (hfiles : v'.files = (g p).files) :
    Counted lost s' (Function.update g p v') := by
  refine counted_step h hp hprocs hcwd ?_ (fun q _ => by rw [hopened]) (fun j => ?_)
  · rw [hopened, hfiles]
    exact h.files p
  · have hj := href j
    rw [share, share, hrefs, hfiles, count_cons]
    omega

/-- A reference is given back. -/
theorem counted_drop (h : Counted lost s g) (hprocs : s'.procs = s.procs)
    (hcwd : s'.cwd = s.cwd) (hopened : s'.opened = s.opened) (hi : i ∈ (g p).refs)
    (href : ∀ j, (s'.inodes j).ref = (s.inodes j).ref-if j = i then 1 else 0)
    (hrefs : v'.refs = (g p).refs.erase i) (hfiles : v'.files = (g p).files) :
    Counted lost s' (Function.update g p v') := by
  have hp := has_lt h (Or.inl hi)
  refine counted_step h hp hprocs hcwd ?_ (fun q _ => by rw [hopened]) (fun j => ?_)
  · rw [hopened, hfiles]
    exact h.files p
  · have hcount := count_erase hi j
    have hpos := has_pos h (Or.inl hi)
    have hj := href j
    rw [share, share, hrefs, hfiles]
    by_cases hji : j = i
    · subst hji
      rw [if_pos rfl] at hj hcount
      omega
    · rw [if_neg hji] at hj hcount
      omega

/-- One more is lost. -/
def lose (lost : ℕ → ℕ) (i j : ℕ) : ℕ := lost j+if j = i then 1 else 0

def lostAfter (lost : ℕ → ℕ) : Action → ℕ → ℕ
  | .lose i => lose lost i
  | _ => lost

theorem counted_access {e : Action} (h : Counted lost s g) (hp : p < s.procs) (hmay : may p (g p) s e) :
    Counted (lostAfter lost e) (e.apply p s) (Function.update g p (note (g p) e)) := by
  by_cases hcounting : Counting e
  · cases e with
    | take i inum o =>
      refine counted_take h hp rfl rfl rfl (fun j => ?_) rfl rfl
      refine (ref_setInode s i _ j).trans ?_
      split
      next hj => rw [hj]
      next => rfl
    | fresh i dev inum o =>
      refine counted_take h hp rfl rfl rfl (fun j => ?_) rfl rfl
      refine (ref_setInode s i _ j).trans ?_
      split
      next hj => rw [hj, hmay.2.2.1]; rfl
      next => rfl
    | put i =>
      refine counted_drop h rfl rfl rfl hmay.2.1 (fun j => ?_) rfl rfl
      refine (ref_setInode s i _ j).trans ?_
      split
      next hj => rw [hj]; rfl
      next => rfl
    | erase i =>
      refine counted_drop h rfl rfl rfl hmay.2.1 (fun j => ?_) rfl rfl
      refine (ref_setInode _ i _ j).trans ?_
      split
      next hj => rw [hj]; rfl
      next => rfl
    | keep i =>
      refine counted_step h hp rfl rfl ?_ (fun q hq => Function.update_of_ne hq ..) (fun j => ?_)
      · exact (Function.update_self ..).trans (congrArg (i :: ·) (h.files p))
      · have herase := count_erase hmay.2 j
        have hcons := count_cons (g p).files i j
        change (s.inodes j).ref+share s (g p) p j+lost j = _+((((g p).refs.erase i).count j+(i :: (g p).files).count j)+_)+lost j
        rw [share]
        omega
    | lose i =>
      refine counted_step h hp rfl rfl (h.files p) (fun _ _ => rfl) (fun j => ?_)
      have herase := count_erase hmay.2 j
      change (s.inodes j).ref+share s (g p) p j+lost j = _+((((g p).refs.erase i).count j+(g p).files.count j)+_)+lose lost i j
      rw [share, lose]
      omega
    | withdraw i =>
      refine counted_step h hp rfl rfl ?_ (fun q hq => Function.update_of_ne hq ..) (fun j => ?_)
      · exact (Function.update_self ..).trans (congrArg (List.erase · i) (h.files p))
      · have herase := count_erase hmay.2 j
        have hcons := count_cons (g p).refs i j
        change (s.inodes j).ref+share s (g p) p j+lost j = _+(((i :: (g p).refs).count j+((g p).files.erase i).count j)+_)+lost j
        rw [share]
        omega
    | _ => exact absurd hcounting id
  · have hsteady := @steady_apply e p s hcounting
    obtain ⟨hrefs, hfiles⟩ := @steady_note e (g p) hcounting
    have hlost : lostAfter lost e = lost := by
      cases e <;> first | rfl | exact absurd trivial hcounting
    rw [hlost]
    refine counted_step h hp hsteady.procs hsteady.cwd ?_ (fun q _ => by rw [hsteady.opened]) (fun j => ?_)
    · rw [hsteady.opened, hfiles]
      exact h.files p
    · rw [hsteady.ref, share, share, hrefs, hfiles]

end Steps

end BabyOS.CacheCounts

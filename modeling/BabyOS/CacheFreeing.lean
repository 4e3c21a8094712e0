import BabyOS.CacheContents

/-!
# Freed inodes

While entries name inodes that have links, an inode is freed where nobody else has a
reference to it, by one process, and is not found or allocated before that is done.
-/

set_option autoImplicit false

namespace BabyOS.CacheFreeing
open BabyOS.AtomicPrograms BabyOS.AtomicSchedules
open BabyOS.FileSystem (DiskInode rootDev rootInum typeDir typeFile modeRdonly modeCreate)
open BabyOS.InodeCache BabyOS.CacheBooks BabyOS.CachePaths BabyOS.CacheCounts BabyOS.CacheInvariant
open BabyOS.CacheContents

/-! ## Links -/

/-- An entry that is followed names an inode with links, in the cache when it is loaded and
else on the disk. The entry of a directory for itself is not counted. -/
def Linked (s : Cache) : Action → Prop
  | .take i inum (.entry d _) => inum ≠ (s.inodes d).inum → (s.inodes i).valid = true → (s.inodes i).nlinks ≠ 0
  | .take i _ .root => (s.inodes i).valid = true → (s.inodes i).nlinks ≠ 0
  | .fresh _ _ inum (.entry _ _) | .fresh _ _ inum .root => (s.records inum).type ≠ 0 ∧ (s.records inum).nlinks ≠ 0
  | _ => True

/-- Its type is not what the slot had before. -/
def Ready (s : Cache) (i : ℕ) : Prop := (s.inodes i).valid = true ∨ (s.inodes i).type ≠ 0

structure Guarded (s : Cache) (g : ℕ → Book) : Prop where
  homes : ∀ p < s.procs, Ready s (s.cwd p)
  root : ∃ p < s.procs, (s.inodes (s.cwd p)).inum = rootInum
  ready : ∀ p i, Has (g p) i → (∀ id, (g p).known ≠ some (i, id)) → Ready s i
  alone : ∀ p i, (g p).freeing = some i → ((s.inodes i).ref = 1 ∧ (s.inodes i).valid = true) ∧
    (s.inodes i).type = 0 ∧ (s.inodes i).nlinks = 0
  draining : Draining s g
  typed : ∀ i, 0 < (s.inodes i).ref → (s.records (s.inodes i).inum).type = 0 →
    ∃ p n, (g p).freeing = some i ∧ (g p).buffer = .saved i n
  making : ∀ p id, (g p).making = some id → ((s.records id).type ≠ 0 ∧ (s.records id).nlinks = 0) ∧
    (∀ i, 0 < (s.inodes i).ref → (s.inodes i).inum ≠ id) ∧ ∀ q, (g q).making = some id → q = p

section Steps

variable {lost : ℕ → ℕ} {s : Cache} {g : ℕ → Book} {p q i : ℕ} {e : Action}

/-- Only the process that frees an inode has it. -/
theorem freeing_alone (ho : Orderly lost s g) (h : Guarded s g) (hq : (g q).freeing = some i) :
    shares s g i = 1 ∧ (∀ q', Has (g q') i → q' = q) ∧ ∀ q' < s.procs, s.cwd q' ≠ i :=
  has_alone ho.counted (h.alone q i hq).1.1 (Or.inl ((ho.sound q).freeing i hq).1)

/-- No reference is taken to it. -/
theorem freeing_take (ho : Orderly lost s g) (h : Guarded s g) (hp : p < s.procs) (hq : (g q).freeing = some i)
    {inum : ℕ} {o : Origin} (hmay : may p (g p) s (.take i inum o)) : ¬ Linked s (.take i inum o) := by
  intro hlinked
  obtain ⟨⟨-, hvalid⟩, -, hnlinks⟩ := h.alone q i hq
  obtain ⟨-, hhas, hcwd⟩ := freeing_alone ho h hq
  obtain ⟨hfree, hused, hinum, hreason⟩ := hmay
  cases o with
  | root => exact hlinked hvalid hnlinks
  | cwd => exact hcwd p hp hreason.symm
  | alloc => exact (h.making p inum hreason).2.1 i hused hinum
  | entry d k =>
    by_cases hself : inum = (s.inodes d).inum
    · have hd := has_pos ho.counted (Or.inl hreason.1)
      obtain rfl := ho.numbered.unique i d hused hd (hinum.trans hself)
      obtain rfl := hhas p (Or.inl hreason.1)
      exact nomatch hq.symm.trans hfree.2.1
    · exact hlinked hself hvalid hnlinks

/-- An inode comes into use with a record that has a type. -/
theorem fresh_typed (ho : Orderly lost s g) (h : Guarded s g) (hp : p < s.procs) {dev inum : ℕ} {o : Origin}
    (hmay : may p (g p) s (.fresh i dev inum o)) (hlinked : Linked s (.fresh i dev inum o)) :
    (s.records inum).type ≠ 0 ∧ ((s.records inum).nlinks ≠ 0 ∨ (g p).making = some inum) := by
  obtain ⟨-, -, href, -, -, hreason⟩ := hmay
  cases o with
  | root | entry d k => exact ⟨hlinked.1, Or.inl hlinked.2⟩
  | alloc => exact ⟨(h.making p inum hreason).1.1, Or.inr hreason⟩
  | cwd =>
    have hhome := home_pos ho.counted hp
    rw [← hreason, href] at hhome
    exact absurd hhome (lt_irrefl 0)

/-- What is read has a type. -/
theorem load_typed (ho : Orderly lost s g) (h : Guarded s g) {id : ℕ} (hmay : may p (g p) s (.load i id)) :
    (s.records id).type ≠ 0 := by
  intro htype
  obtain ⟨hi, hnumber⟩ := (ho.sound p).known i id hmay.2.2.1
  rw [← hnumber] at htype
  obtain ⟨q, n, hq, hbuffer⟩ := h.typed i (has_pos ho.counted (Or.inl hi)) htype
  obtain rfl := (freeing_alone ho h hq).2.1 p (Or.inl hi)
  exact nomatch hmay.1.symm.trans hbuffer

theorem ready_apply (h : Guarded s g) (hmay : may p (g p) s e) (hi : 0 < (s.inodes i).ref)
    (hafter : 0 < ((e.apply p s).inodes i).ref) (hready : Ready s i) : Ready (e.apply p s) i := by
  by_cases hshaping : Shaping i e
  · cases e with
    | fresh j =>
      obtain rfl : j = i := hshaping
      exact absurd hmay.2.2.1 (Nat.ne_of_gt hi)
    | clear j =>
      obtain rfl : j = i := hshaping
      have hvalid : (s.inodes j).valid = true := by
        have hlast := hmay.2.2
        simp only [InodeCache.Inode.last, Bool.and_eq_true] at hlast
        exact hlast.1.1
      exact Or.inl ((field_self Inode.valid _).trans hvalid)
    | erase j =>
      obtain rfl : j = i := hshaping
      have hless : 0 < (s.inodes j).ref-1 := lt_of_lt_of_eq hafter (field_self Inode.ref _)
      rw [(h.alone p j hmay.1).1.1] at hless
      exact absurd hless (lt_irrefl 0)
    | load j =>
      obtain rfl : j = i := hshaping
      exact Or.inl (field_self Inode.valid _)
    | links j =>
      obtain rfl : j = i := hshaping
      obtain hvalid | htype := hready
      · exact Or.inl ((field_self Inode.valid _).trans hvalid)
      · refine Or.inr fun hc => htype (Eq.trans (Eq.symm ?_) hc)
        exact field_self (·.type) _
    | init j =>
      obtain rfl : j = i := hshaping
      exact Or.inr fun hc => hmay.2.2.2.1 ((field_self (·.type) _).symm.trans hc)
    | _ => exact hshaping.elim
  · have hshape := @shape_apply e p i s hshaping
    rw [Ready, hshape.valid, hshape.type]
    exact hready

theorem cwd_apply (e : Action) (p : ℕ) (s : Cache) : (e.apply p s).cwd = s.cwd := by
  cases e <;> rfl

theorem homes_access (ho : Orderly lost s g) (ho' : Orderly (lostAfter lost e) (e.apply p s)
      (Function.update g p (note (g p) e))) (h : Guarded s g) (hmay : may p (g p) s e) :
    ∀ q < (e.apply p s).procs, Ready (e.apply p s) ((e.apply p s).cwd q) := by
  intro q hq
  have hafter := home_pos ho'.counted hq
  rw [procs_apply] at hq
  rw [cwd_apply] at hafter ⊢
  exact ready_apply h hmay (home_pos ho.counted hq) hafter (h.homes q hq)

theorem root_access (ho : Orderly lost s g) (h : Guarded s g) (hmay : may p (g p) s e) :
    ∃ q < (e.apply p s).procs, ((e.apply p s).inodes ((e.apply p s).cwd q)).inum = rootInum := by
  obtain ⟨q, hq, hroot⟩ := h.root
  refine ⟨q, by rw [procs_apply]; exact hq, ?_⟩
  rw [cwd_apply, (number_apply hmay (home_pos ho.counted hq)).1]
  exact hroot

/-- The root and the current directory are there. -/
theorem root_ready (ho : Orderly lost s g) (h : Guarded s g) (hi : 0 < (s.inodes i).ref)
    (hinum : (s.inodes i).inum = rootInum) : Ready s i := by
  obtain ⟨q, hq, hroot⟩ := h.root
  rw [ho.numbered.unique i (s.cwd q) hi (home_pos ho.counted hq) (hinum.trans hroot.symm)]
  exact h.homes q hq

theorem fresh_known (ho : Orderly lost s g) (h : Guarded s g) (hp : p < s.procs) {dev inum : ℕ} {o : Origin}
    (hmay : may p (g p) s (.fresh i dev inum o)) : fetched (g p).known i inum o = some (i, inum) := by
  obtain ⟨-, -, href, hdev, hcached, hreason⟩ := hmay
  cases o with
  | entry | alloc => rfl
  | cwd =>
    have hhome := home_pos ho.counted hp
    rw [← hreason, href] at hhome
    exact absurd hhome (lt_irrefl 0)
  | root =>
    obtain ⟨q, hq, hroot⟩ := h.root
    have hused := home_pos ho.counted hq
    have hrooted := (ho.numbered.rooted _ hused).trans hdev.symm
    exact absurd (hroot.trans hreason.symm) (cached_none hcached (ho.numbered.small _ hused) hused hrooted)

theorem ready_note (ho : Orderly lost s g) (h : Guarded s g) (hp : p < s.procs) (hmay : may p (g p) s e)
    (hi : Has (note (g p) e) i) (hknown : ∀ id, (note (g p) e).known ≠ some (i, id)) :
    (0 < (s.inodes i).ref ∧ Ready s i) ∨ e = .load i (s.inodes i).inum ∨ ∃ t m n, e = .init i t m n := by
  have hhas : Has (g p) i → (∀ id, (g p).known ≠ some (i, id)) → 0 < (s.inodes i).ref ∧ Ready s i :=
    fun hi hk => ⟨has_pos ho.counted hi, h.ready p i hi hk⟩
  obtain hi | ⟨inum, o, rfl⟩ | ⟨dev, inum, o, rfl⟩ := has_note hmay hi
  · by_cases hold : ∀ id, (g p).known ≠ some (i, id)
    · exact Or.inl (hhas hi hold)
    · simp only [ne_eq, not_forall, not_not] at hold
      obtain ⟨id, hold⟩ := hold
      cases e with
      | load j id' =>
        obtain ⟨rfl, rfl⟩ := Prod.mk.inj (Option.some.inj (hmay.2.2.1.symm.trans hold))
        obtain ⟨-, hnumber⟩ := (ho.sound p).known j id' hold
        exact Or.inr (Or.inl (by rw [hnumber]))
      | loaded j =>
        obtain ⟨hvalid, id', hj⟩ := hmay
        obtain ⟨rfl, rfl⟩ := Prod.mk.inj (Option.some.inj (hj.symm.trans hold))
        exact Or.inl ⟨has_pos ho.counted hi, Or.inl hvalid⟩
      | init j type major minor =>
        obtain ⟨-, -, -, -, id', hj⟩ := hmay
        obtain ⟨rfl, rfl⟩ := Prod.mk.inj (Option.some.inj (hj.symm.trans hold))
        exact Or.inr (Or.inr ⟨_, _, _, rfl⟩)
      | take j | fresh j => exact nomatch hold.symm.trans hmay.1.2.2.2
      | _ => exact absurd hold (hknown id)
  · left
    refine ⟨hmay.2.1, ?_⟩
    cases o with
    | entry | alloc => exact absurd rfl (hknown inum)
    | root => exact root_ready ho h hmay.2.1 (hmay.2.2.1.trans hmay.2.2.2)
    | cwd =>
      obtain rfl : i = s.cwd p := hmay.2.2.2
      exact h.homes p hp
  · exact absurd (fresh_known ho h hp hmay) (hknown inum)

theorem ready_access (ho : Orderly lost s g) (ho' : Orderly (lostAfter lost e) (e.apply p s)
      (Function.update g p (note (g p) e))) (h : Guarded s g) (hp : p < s.procs) (hmay : may p (g p) s e)
    (hi : Has (Function.update g p (note (g p) e) q) i)
    (hknown : ∀ id, (Function.update g p (note (g p) e) q).known ≠ some (i, id)) : Ready (e.apply p s) i := by
  have hafter := has_pos ho'.counted hi
  by_cases hq : q = p
  · subst hq
    rw [Function.update_self] at hi hknown
    obtain ⟨hused, hready⟩ | rfl | ⟨type, major, minor, rfl⟩ := ready_note ho h hp hmay hi hknown
    · exact ready_apply h hmay hused hafter hready
    · exact Or.inl (field_self Inode.valid _)
    · exact Or.inr fun hc => hmay.2.2.2.1 ((field_self (·.type) _).symm.trans hc)
  · rw [Function.update_of_ne hq] at hi hknown
    exact ready_apply h hmay (has_pos ho.counted hi) hafter (h.ready q i hi hknown)

/-- What a process frees, nobody else touches. -/
theorem alone_access (ho : Orderly lost s g) (h : Guarded s g) (hp : p < s.procs) (hmay : may p (g p) s e)
    (hlinked : Linked s e) (hq : (Function.update g p (note (g p) e) q).freeing = some i) :
    (((e.apply p s).inodes i).ref = 1 ∧ ((e.apply p s).inodes i).valid = true) ∧
      ((e.apply p s).inodes i).type = 0 ∧ ((e.apply p s).inodes i).nlinks = 0 := by
  have hkeep : ∀ q, (g q).freeing = some i → (touched e = some i → ¬ (Counting e ∨ Shaping i e)) →
      (((e.apply p s).inodes i).ref = 1 ∧ ((e.apply p s).inodes i).valid = true) ∧
        ((e.apply p s).inodes i).type = 0 ∧ ((e.apply p s).inodes i).nlinks = 0 := by
    intro q hq hnot
    obtain ⟨⟨href, hvalid⟩, htype, hnlinks⟩ := h.alone q i hq
    by_cases htouched : touched e = some i
    · obtain ⟨hcounting, hshaping⟩ := not_or.mp (hnot htouched)
      have hsteady := @steady_apply e p s hcounting
      have hshape := @shape_apply e p i s hshaping
      rw [hsteady.ref, hshape.valid, hshape.type, hshape.nlinks]
      exact ⟨⟨href, hvalid⟩, htype, hnlinks⟩
    · rw [inode_other htouched]
      exact ⟨⟨href, hvalid⟩, htype, hnlinks⟩
  by_cases hqp : q = p
  · subst hqp
    rw [Function.update_self] at hq
    have hnone : (g q).freeing = none → (g q).freeing = some i → False := fun hnone hsome => nomatch hnone.symm.trans hsome
    cases e with
    | clear j =>
      obtain rfl : j = i := Option.some.inj hq
      have hlast := hmay.2.2
      simp only [InodeCache.Inode.last, Bool.and_eq_true, decide_eq_true_eq] at hlast
      obtain ⟨⟨hvalid, hnlinks⟩, href⟩ := hlast
      exact ⟨⟨(field_self Inode.ref _).trans href, (field_self Inode.valid _).trans hvalid⟩,
        field_self (·.type) _, (field_self (·.nlinks) _).trans hnlinks⟩
    | take j | fresh j | put j | keep j | lose j | withdraw j => exact (hnone hmay.1.2.1 hq).elim
    | load j => exact (hnone hmay.2.2.2 hq).elim
    | links j => exact (hnone hmay.2.2 hq).elim
    | init j => exact (hnone hmay.2.2.1 hq).elim
    | erase j => cases hq
    | _ => exact hkeep q hq (fun _ hc => hc.elim id id)
  · rw [Function.update_of_ne hqp] at hq
    have hmine : ¬ Has (g p) i := fun hi => hqp ((freeing_alone ho h hq).2.1 p hi).symm
    apply hkeep q hq
    intro htouched hc
    cases e with
    | take j inum o =>
      obtain rfl : j = i := Option.some.inj htouched
      exact freeing_take ho h hp hq hmay hlinked
    | fresh j =>
      obtain rfl : j = i := Option.some.inj htouched
      exact absurd (hmay.2.2.1.symm.trans (h.alone q j hq).1.1) nofun
    | put j | clear j | erase j | load j =>
      obtain rfl : j = i := Option.some.inj htouched
      exact hmine (Or.inl hmay.2.1)
    | links j | init j =>
      obtain rfl : j = i := Option.some.inj htouched
      exact hmine (Or.inl hmay.1)
    | keep | lose | withdraw => cases htouched
    | _ => exact hc.elim id id

theorem typed_access (ho : Orderly lost s g) (h : Guarded s g) (hp : p < s.procs) (hmay : may p (g p) s e)
    (hlinked : Linked s e) (hi : 0 < ((e.apply p s).inodes i).ref)
    (htype : ((e.apply p s).records ((e.apply p s).inodes i).inum).type = 0) :
    ∃ q n, (Function.update g p (note (g p) e) q).freeing = some i ∧
      (Function.update g p (note (g p) e) q).buffer = .saved i n := by
  have hkeep : ∀ q n, (g q).freeing = some i → (g q).buffer = .saved i n →
      ∃ q n, (Function.update g p (note (g p) e) q).freeing = some i ∧
        (Function.update g p (note (g p) e) q).buffer = .saved i n := by
    intro q n hq hbuffer
    refine ⟨q, n, ?_⟩
    by_cases hqp : q = p
    · subst hqp
      rw [Function.update_self]
      have hother : ∀ b, (g q).buffer = b → b ≠ .saved i n → False := fun b hb hne => hne (hb.symm.trans hbuffer)
      cases e with
      | hold m | holdInode j m | load j id => exact (hother _ hmay.1 nofun).elim
      | make id type => exact (hother _ hmay.1 nofun).elim
      | clear j => exact (hother _ hmay.1.1 nofun).elim
      | release m =>
        obtain hblock | ⟨_, -, hnone⟩ := hmay
        · exact (hother _ hblock nofun).elim
        · exact nomatch hnone.symm.trans hq
      | save j =>
        obtain ⟨⟨m, hm⟩, -⟩ := hmay
        exact (hother _ hm nofun).elim
      | erase j =>
        obtain rfl : j = i := Option.some.inj (hmay.1.symm.trans hq)
        have hless : 0 < (s.inodes j).ref-1 := lt_of_lt_of_eq hi (field_self Inode.ref _)
        rw [(h.alone q j hq).1.1] at hless
        exact absurd hless (lt_irrefl 0)
      | _ => exact ⟨hq, hbuffer⟩
    · rw [Function.update_of_ne hqp]
      exact ⟨hq, hbuffer⟩
  obtain hused | ⟨dev, inum, o, rfl⟩ := used_apply hmay hi
  · rw [(number_apply hmay hused).1] at htype
    by_cases hwritten : written s e = some (s.inodes i).inum
    · cases e with
      | save j =>
        obtain rfl := ho.numbered.unique j i (save_used ho hmay) hused (Option.some.inj hwritten)
        obtain ⟨⟨n, hbuffer⟩, hknown⟩ := hmay
        have hhas := ((ho.sound p).aim j n (by rw [hbuffer]; rfl)).1
        have hcontent : (s.inodes j).type = 0 :=
          (congrArg DiskInode.type (Function.update_self ..)).symm.trans htype
        have hready := h.ready p j hhas (fun id hc => nomatch hknown.symm.trans hc)
        obtain ⟨q, hq⟩ := h.draining j hused (hready.resolve_right (fun hne => hne hcontent)) hcontent
        obtain rfl := (freeing_alone ho h hq).2.1 p hhas
        refine ⟨p, n, ?_⟩
        rw [Function.update_self]
        refine ⟨hq, ?_⟩
        change (g p).buffer.save = _
        rw [hbuffer]
        rfl
      | make id type =>
        obtain rfl : id = (s.inodes i).inum := Option.some.inj hwritten
        exact absurd ((congrArg DiskInode.type (Function.update_self ..)).symm.trans htype) hmay.2.2.1
      | _ => cases hwritten
    · rw [record_other hwritten] at htype
      obtain ⟨q, n, hq, hbuffer⟩ := h.typed i hused htype
      exact hkeep q n hq hbuffer
  · have hinum : ((Action.fresh i dev inum o).apply p s).inodes i = _ := inode_self
    rw [hinum] at htype
    exact absurd htype (fresh_typed ho h hp hmay hlinked).1

/-- `alloc_inode` finds a free record: no inode in use has its number. -/
theorem make_unused (ho : Orderly lost s g) (h : Guarded s g) {id : ℕ} {type : BitVec 16}
    (hmay : may p (g p) s (.make id type)) (hi : 0 < (s.inodes i).ref) : (s.inodes i).inum ≠ id := by
  rintro rfl
  obtain ⟨hblock, htype, -, -⟩ := hmay
  obtain ⟨q, n, -, hbuffer⟩ := h.typed i hi htype
  -- The buffer is with the process that frees the inode.
  obtain ⟨-, rfl⟩ := (ho.sound q).aim i n (by rw [hbuffer]; rfl)
  have hq := (ho.sound q).held (inodeBlock (s.inodes i).inum) (by rw [hbuffer]; rfl)
  have hp := (ho.sound p).held (inodeBlock (s.inodes i).inum) (by rw [hblock]; rfl)
  obtain rfl := Option.some.inj (hq.symm.trans hp)
  exact nomatch hblock.symm.trans hbuffer

theorem making_note {id : ℕ} (hid : (note (g p) e).making = some id) :
    (∃ type, e = .make id type) ∨ (g p).making = some id ∧ ∀ j dev inum o, e ≠ .fresh j dev inum o := by
  cases e with
  | make j type =>
    obtain rfl : j = id := Option.some.inj hid
    exact Or.inl ⟨type, rfl⟩
  | take | fresh | full => cases hid
  | _ => exact Or.inr ⟨hid, nofun⟩

theorem making_access (ho : Orderly lost s g) (h : Guarded s g) (hp : p < s.procs) (hmay : may p (g p) s e)
    (hlinked : Linked s e) {id : ℕ} (hid : (Function.update g p (note (g p) e) q).making = some id) :
    (((e.apply p s).records id).type ≠ 0 ∧ ((e.apply p s).records id).nlinks = 0) ∧
      (∀ i, 0 < ((e.apply p s).inodes i).ref → ((e.apply p s).inodes i).inum ≠ id) ∧
      ∀ q', (Function.update g p (note (g p) e) q').making = some id → q' = q := by
  have hbefore : (∃ type, q = p ∧ e = .make id type) ∨
      (g q).making = some id ∧ (q = p → ∀ j dev inum o, e ≠ .fresh j dev inum o) := by
    by_cases hqp : q = p
    · subst hqp
      rw [Function.update_self] at hid
      obtain ⟨type, he⟩ | ⟨hid, he⟩ := making_note hid
      · exact Or.inl ⟨type, rfl, he⟩
      · exact Or.inr ⟨hid, fun _ => he⟩
    · rw [Function.update_of_ne hqp] at hid
      exact Or.inr ⟨hid, fun hc => absurd hc hqp⟩
  obtain ⟨type, rfl, rfl⟩ | ⟨hold, hfresh⟩ := hbefore
  · have hrecord : ((Action.make id type).apply q s).records id = ⟨type, 0, 0, 0, 0, fun _ => 0⟩ :=
      Function.update_self ..
    rw [hrecord]
    refine ⟨⟨hmay.2.2.1, rfl⟩, fun i hi => make_unused ho h hmay hi, fun q' hq' => ?_⟩
    by_contra hne
    rw [Function.update_of_ne hne] at hq'
    exact (h.making q' id hq').1.1 hmay.2.1
  · obtain ⟨⟨htype, hnlinks⟩, hunused, hunique⟩ := h.making q id hold
    have hwritten : written s e ≠ some id := by
      intro hwritten
      cases e with
      | save j => exact hunused j (save_used ho hmay) (Option.some.inj hwritten)
      | make j type =>
        obtain rfl : j = id := Option.some.inj hwritten
        exact htype hmay.2.1
      | _ => cases hwritten
    rw [record_other hwritten]
    refine ⟨⟨htype, hnlinks⟩, fun i hi => ?_, fun q' hq' => ?_⟩
    · obtain hused | ⟨dev, inum, o, rfl⟩ := used_apply hmay hi
      · rw [(number_apply hmay hused).1]
        exact hunused i hused
      · have hinum : ((Action.fresh i dev inum o).apply p s).inodes i = _ := inode_self
        rw [hinum]
        rintro rfl
        obtain hne | hmaking := (fresh_typed ho h hp hmay hlinked).2
        · exact hne hnlinks
        · exact hfresh (hunique p hmaking).symm _ _ _ _ rfl
    · by_cases hqp : q' = p
      · subst hqp
        rw [Function.update_self] at hq'
        obtain ⟨type, rfl⟩ | ⟨hq', -⟩ := making_note hq'
        · exact absurd rfl hwritten
        · exact hunique q' hq'
      · rw [Function.update_of_ne hqp] at hq'
        exact hunique q' hq'

theorem guarded_access (ho : Orderly lost s g) (h : Guarded s g) (hp : p < s.procs) (hmay : may p (g p) s e)
    (hlinked : Linked s e) : Guarded (e.apply p s) (Function.update g p (note (g p) e)) := by
  have ho' := orderly_access ho hp hmay
  refine ⟨homes_access ho ho' h hmay, root_access ho h hmay, ?_, ?_, ?_, ?_, ?_⟩
  · exact fun _ _ => ready_access ho ho' h hp hmay
  · exact fun _ _ => alone_access ho h hp hmay hlinked
  · apply draining_access h.draining hmay
    rintro j id rfl
    exact load_typed ho h hmay
  · exact fun _ => typed_access ho h hp hmay hlinked
  · exact fun _ _ => making_access ho h hp hmay hlinked

end Steps

/-! ## Runs -/

/-- Nobody has a file open; a process is in the root; and what is in use is loaded, and not
free. -/
structure Booted (s : Cache) : Prop where
  begun : Begun s
  root : ∃ p < s.procs, (s.inodes (s.cwd p)).inum = rootInum
  loaded : ∀ i, 0 < (s.inodes i).ref → (s.inodes i).valid = true ∧ (s.inodes i).type ≠ 0 ∧
    (s.records (s.inodes i).inum).type ≠ 0

theorem guarded_booted {s : Cache} (h : Booted s) : Guarded s fun _ => blank where
  homes := by
    intro p hp
    have hused := home_pos (orderly_begun h.begun).counted hp
    exact Or.inl (h.loaded _ hused).1
  root := h.root
  ready := by
    rintro p i (hi | hi)
    · exact absurd hi List.not_mem_nil
    · exact absurd hi List.not_mem_nil
  alone := nofun
  draining := fun i hi _ htype => absurd htype (h.loaded i hi).2.1
  typed := fun i hi htype => absurd htype (h.loaded i hi).2.2
  making := nofun

section Runs

variable {w : World Cache Action Bool Book}

/-- The access that a process makes when it goes on. -/
def Next (w : World Cache Action Bool Book) (p : ℕ) (e : Action) : Prop :=
  ∃ (f : Cache → Action) (r : Cache → Bool) (n : Cache → Cache) (k : Cache → Prog Bool),
    w.call p = some (.access f r n k) ∧ r w.state = true ∧ f w.state = e

/-- The putter is alone: its reference is the only one that is counted. -/
def Alone (w : World Cache Action Bool Book) (p i : ℕ) : Prop :=
  (w.state.inodes i).ref = 1 ∧ shares w.state w.book i = 1 ∧ i ∈ (w.book p).refs

/-- An inode is freed when its links are gone, by a process that is alone; meanwhile there
is no other such process, no new reference, no other slot and no record with its number;
and the last one to put an inode without links frees it. -/
structure FreedOnce (w : World Cache Action Bool Book) (ok : Cache → Action → Prop) : Prop where
  enters : ∀ p i, Next w p (.clear i) → ok w.state (.clear i) → (w.state.inodes i).nlinks = 0 ∧ Alone w p i
  alone : ∀ p i, (w.book p).freeing = some i → (w.state.inodes i).nlinks = 0 ∧ Alone w p i
  one : ∀ p q i, (w.book p).freeing = some i → (w.book q).freeing = some i → p = q
  untaken : ∀ p q i inum o, (w.book p).freeing = some i → Next w q (.take i inum o) → ¬ ok w.state (.take i inum o)
  unused : ∀ p q i j dev inum o, (w.book p).freeing = some i → Next w q (.fresh j dev inum o) →
    ok w.state (.fresh j dev inum o) → j ≠ i ∧ inum ≠ (w.state.inodes i).inum
  unmade : ∀ p q i id type, (w.book p).freeing = some i → Next w q (.make id type) →
    ok w.state (.make id type) → id ≠ (w.state.inodes i).inum
  last : ∀ p i, Next w p (.put i) → ok w.state (.put i) →
    ¬ ((w.state.inodes i).valid = true ∧ (w.state.inodes i).nlinks = 0 ∧ (w.state.inodes i).ref = 1)

/-- Entries name inodes that have links, and `link` does not find the new name. -/
def Sure (s : Cache) (e : Action) : Prop := Fair e ∧ Linked s e

abbrev SureRun (w : World Cache Action Bool Book) : Prop :=
  Run Booted calls (fun _ _ s e => Sure s e) note blank w

theorem guarded_run (h : SureRun w) : ((∃ lost, Orderly lost w.state w.book) ∧ Guarded w.state w.book) ∧
    Follows (fun _ _ s e => Sure s e) note Relies rule Idle w := by
  have hfair : ∀ (_ : Book) s e, Sure s e → Fair e := fun _ _ _ hsure => hsure.1
  apply run_cache hfair _ _ h
  · exact fun s hs => ⟨hs.begun, guarded_booted hs⟩
  · exact fun _ _ _ _ _ ho hg hp hsure hmay => guarded_access ho hg hp hmay hsure.2

theorem next_may (hfollows : Follows (fun _ _ s e => Sure s e) note Relies rule Idle w) {p : ℕ} {e : Action}
    (h : Next w p e) (hsure : Sure w.state e) : p < w.state.procs ∧ may p (w.book p) w.state e := by
  obtain ⟨f, r, n, k, hx, hr, rfl⟩ := h
  have hp := hfollows p
  rw [hx] at hp
  exact ⟨hp.1.lt, (hfollows.access hx hr hsure).1⟩

theorem freeing_run (h : SureRun w) : FreedOnce w Sure := by
  obtain ⟨⟨⟨lost, ho⟩, hg⟩, hfollows⟩ := guarded_run h
  have halone : ∀ p i, (w.book p).freeing = some i → (w.state.inodes i).nlinks = 0 ∧ Alone w p i := by
    intro p i hi
    obtain ⟨⟨href, -⟩, -, hnlinks⟩ := hg.alone p i hi
    exact ⟨hnlinks, href, (freeing_alone ho hg hi).1, ((ho.sound p).freeing i hi).1⟩
  refine ⟨?_, halone, ?_, ?_, ?_, ?_, ?_⟩
  · intro p i hnext hsure
    obtain ⟨-, -, hi, hlast⟩ := next_may hfollows hnext hsure
    simp only [InodeCache.Inode.last, Bool.and_eq_true, decide_eq_true_eq] at hlast
    obtain ⟨⟨-, hnlinks⟩, href⟩ := hlast
    exact ⟨hnlinks, href, (has_alone ho.counted href (Or.inl hi)).1, hi⟩
  · intro p q i hp hq
    exact (freeing_alone ho hg hq).2.1 p (Or.inl ((ho.sound p).freeing i hp).1)
  · intro p q i inum o hi hnext hsure
    obtain ⟨hq, hmay⟩ := next_may hfollows hnext hsure
    exact freeing_take ho hg hq hi hmay hsure.2
  · intro p q i j dev inum o hi hnext hsure
    obtain ⟨hq, hmay⟩ := next_may hfollows hnext hsure
    obtain ⟨-, -, href, hdev, hcached, -⟩ := hmay
    have hone := (hg.alone p i hi).1.1
    have hused : 0 < (w.state.inodes i).ref := by omega
    refine ⟨?_, ?_⟩
    · rintro rfl
      omega
    · have hrooted := (ho.numbered.rooted i hused).trans hdev.symm
      exact Ne.symm (cached_none hcached (ho.numbered.small i hused) hused hrooted)
  · intro p q i id type hi hnext hsure
    obtain ⟨hq, hmay⟩ := next_may hfollows hnext hsure
    have hused : 0 < (w.state.inodes i).ref := by
      have hone := (hg.alone p i hi).1.1
      omega
    exact Ne.symm (make_unused ho hg hmay hused)
  · rintro p i hnext hsure ⟨hvalid, hnlinks, href⟩
    obtain ⟨-, -, -, hlast⟩ := next_may hfollows hnext hsure
    rw [InodeCache.Inode.last, hvalid, hnlinks, href] at hlast
    exact absurd hlast (by decide)

end Runs

/-! ## A directory that is put twice -/

def linked (s : Cache) : Action → Bool
  | .take i inum (.entry d _) => inum = (s.inodes d).inum || !(s.inodes i).valid || (s.inodes i).nlinks ≠ 0
  | .take i _ .root => !(s.inodes i).valid || (s.inodes i).nlinks ≠ 0
  | .fresh _ _ inum (.entry _ _) | .fresh _ _ inum .root => (s.records inum).type ≠ 0 && (s.records inum).nlinks ≠ 0
  | _ => true

theorem linked_test {s : Cache} {e : Action} (h : linked s e = true) : Linked s e := by
  cases e with
  | take i inum o =>
    cases o with
    | root =>
      intro hvalid
      simpa [linked, hvalid] using h
    | entry d k =>
      intro hself hvalid
      simpa [linked, hself, hvalid] using h
    | cwd | alloc => trivial
  | fresh i dev inum o =>
    cases o with
    | root | entry d k => simpa [linked, Linked] using h
    | cwd | alloc => trivial
  | _ => trivial

def sure (s : Cache) : Action → Bool
  | .linkExists _ => false
  | e => linked s e

theorem sure_test {s : Cache} {e : Action} (h : sure s e = true) : Sure s e := by
  cases e with
  | linkExists i => cases h
  | _ => exact ⟨nofun, linked_test h⟩

def dirRecord (size block : BitVec 32) : DiskInode := ⟨typeDir, 0, 0, 1, size, fun k => if k = 0 then block else 0⟩

def filesRecord (nlinks : BitVec 16) : DiskInode := ⟨typeFile, 0, 0, nlinks, 0, fun _ => 0⟩

/-- One process in the root, that has the file `a`, the directory `d` and the empty file `c`;
`d/b` is another name of `a`. -/
def oneProcess : Cache where
  procs := 1
  inodes := fun i => if i = 0 then ⟨dirRecord 80 10, 1, 1, 1, true, 1⟩ else ⟨noRecord, 0, 0, 0, false, 1⟩
  records := fun id => match id with
    | 1 => dirRecord 80 10
    | 2 => filesRecord 2
    | 3 => dirRecord 48 11
    | 4 => filesRecord 1
    | _ => noRecord
  holder := fun _ => none
  bits := fun b => b < 12
  tables := fun _ _ => 0
  tableHolder := fun _ => none
  entries := fun d k => match d, k with
    | 1, 0 => (1, [0x2e])
    | 1, 1 => (1, [0x2e, 0x2e])
    | 1, 2 => (2, [0x61])
    | 1, 3 => (3, [0x64])
    | 1, 4 => (4, [0x63])
    | 3, 0 => (3, [0x2e])
    | 3, 1 => (1, [0x2e, 0x2e])
    | 3, 2 => (2, [0x62])
    | _, _ => (0, [])
  opened := fun _ => []
  cwd := fun _ => 0
  ninodes := 8
  nblocks := 32

theorem oneProcess_used {i : ℕ} (h : 0 < (oneProcess.inodes i).ref) : i = 0 := by
  by_contra hi
  change 0 < (if i = 0 then _ else _ : InodeCache.Inode).ref at h
  rw [if_neg hi] at h
  exact absurd h (lt_irrefl 0)

theorem oneProcess_booted : Booted oneProcess where
  begun := by
    refine ⟨fun _ => rfl, fun i => ?_, fun i hi => ?_, fun i hi => ?_, fun i j hi hj _ => ?_⟩
    · by_cases hi : i = 0
      · subst hi
        decide
      · change (if i = 0 then _ else _ : InodeCache.Inode).ref = _
        rw [if_neg hi, shares]
        refine (Finset.sum_eq_zero fun p _ => ?_).symm
        change 0+0+(if 0 = i then 1 else 0) = 0
        rw [if_neg (Ne.symm hi), Nat.add_zero]
    · obtain rfl := oneProcess_used hi
      rfl
    · obtain rfl := oneProcess_used hi
      decide
    · exact (oneProcess_used hi).trans (oneProcess_used hj).symm
  root := ⟨0, Nat.zero_lt_one, rfl⟩
  loaded := by
    intro i hi
    obtain rfl := oneProcess_used hi
    decide

/-- It opens `c`, unlinks it, and comes in its close to the branch that frees. -/
def closeLast : List (Turn Call) :=
  [.take 0 (.doOpen [0x2f, 0x63] modeRdonly true), .go 0 60, .leave 0,
    .take 0 (.doUnlink [0x2f, 0x63]), .go 0 80, .leave 0, .take 0 (.doClose 0), .go 0 5]

theorem freeing_run_close : ∃ w, SureRun w ∧ (w.book 0).freeing = some 1 ∧ FreedOnce w Sure := by
  have hplay : (play program ready (fun _ => sure) note closeLast
      ⟨oneProcess, fun _ => none, fun _ => blank⟩).any (fun w => (w.book 0).freeing = some 1) = true := by
    decide +kernel
  obtain ⟨w, hw, hfreeing, -⟩ := run_schedule calls_ready
    (fun _ _ s e h => (sure_test h : Sure s e)) oneProcess_booted hplay
  exact ⟨w, hw, of_decide_eq_true hfreeing, freeing_run hw⟩

/-- It opens `d`, whose lock has two units then, and links `a` to `d/b`, which is there: the
slot of `d` is free although it is open. Then it opens `c`, which gets that slot, unlinks
it, and closes. -/
def putTwice : List (Turn Call) :=
  [.take 0 (.doOpen [0x2f, 0x64] modeRdonly true), .go 0 60, .leave 0,
    .take 0 (.doLink [0x2f, 0x61] [0x2f, 0x64, 0x2f, 0x62]), .go 0 120, .leave 0,
    .take 0 (.doOpen [0x2f, 0x63] modeRdonly true), .go 0 60, .leave 0,
    .take 0 (.doUnlink [0x2f, 0x63]), .go 0 80, .leave 0, .take 0 (.doClose 0), .go 0 3]

def freesOpened (w : World Cache Action Bool Book) : Bool :=
  (match w.call 0 with
    | some (.access f r _ _) => r w.state && f w.state = .clear 1
    | _ => false) && shares w.state w.book 1 ≠ 1

/-- The close frees the inode of another descriptor. -/
theorem frees_opened : ∃ w : World Cache Action Bool Book,
    Run Booted calls (fun _ _ s e => Linked s e) note blank w ∧ ¬ FreedOnce w Linked := by
  have hplay : (play program ready (fun _ => linked) note putTwice
      ⟨oneProcess, fun _ => none, fun _ => blank⟩).any freesOpened = true := by decide +kernel
  obtain ⟨w, hw, hfrees, -⟩ := run_schedule calls_ready
    (fun _ _ s e h => (linked_test h : Linked s e)) oneProcess_booted hplay
  refine ⟨w, hw, fun hfreed => ?_⟩
  rw [freesOpened, Bool.and_eq_true, decide_eq_true_eq] at hfrees
  obtain ⟨hnext, hshares⟩ := hfrees
  have hclear : Next w 0 (.clear 1) := by
    split at hnext
    next f r n k hx =>
      rw [Bool.and_eq_true, decide_eq_true_eq] at hnext
      exact ⟨f, r, n, k, hx, hnext.1, hnext.2⟩
    next => cases hnext
  exact hshares (hfreed.enters 0 1 hclear trivial).2.2.1

end BabyOS.CacheFreeing

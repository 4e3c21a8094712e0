import BabyOS.CacheCounts

/-!
# The inode cache in a run

An inode in use has one slot and keeps its number; a buffer has one holder; and an inode
whose type is cleared is in the hand of one process, that frees it.
-/

set_option autoImplicit false

namespace BabyOS.CacheInvariant
open BabyOS.AtomicPrograms BabyOS.AtomicPrograms.Program
open BabyOS.FileSystem (maxInodeCache rootDev rootInum)
open BabyOS.InodeCache BabyOS.CacheBooks BabyOS.CachePaths BabyOS.CacheCounts

/-! ## What an access leaves alone -/

/-- The accesses that set what `put_inode` tests. -/
def Shaping (i : ℕ) : Action → Prop
  | .fresh j _ _ _ | .clear j | .erase j | .load j _ | .links j _ | .init j _ _ _ => j = i
  | _ => False

structure SameShape (x y : Inode) : Prop where
  valid : y.valid = x.valid
  type : y.type = x.type
  nlinks : y.nlinks = x.nlinks

theorem shape_apply {e : Action} {p i : ℕ} {s : Cache} (h : ¬ Shaping i e) :
    SameShape (s.inodes i) ((e.apply p s).inodes i) := by
  by_cases htouched : touched e = some i
  · cases e with
    | fresh j | clear j | erase j | load j | links j | init j => exact absurd (Option.some.inj htouched) h
    | lock j | unlock j | take j | put j | forget j | shrink j | fill j | assign j | grow j =>
      obtain rfl : j = i := Option.some.inj htouched
      exact ⟨field_self Inode.valid _, field_self (·.type) _, field_self (·.nlinks) _⟩
    | _ => cases htouched
  · rw [inode_other htouched]
    exact ⟨rfl, rfl, rfl⟩

/-- An inode in use keeps its number. -/
theorem number_apply {e : Action} {p q i : ℕ} {s : Cache} {v : Book} (hmay : may q v s e)
    (hi : 0 < (s.inodes i).ref) :
    ((e.apply p s).inodes i).inum = (s.inodes i).inum ∧ ((e.apply p s).inodes i).dev = (s.inodes i).dev := by
  by_cases htouched : touched e = some i
  · cases e with
    | fresh j =>
      obtain rfl : j = i := Option.some.inj htouched
      exact absurd hmay.2.2.1 (Nat.ne_of_gt hi)
    | lock j | unlock j | take j | put j | forget j | shrink j | fill j | assign j | grow j | clear j | erase j
    | load j | links j | init j =>
      obtain rfl : j = i := Option.some.inj htouched
      exact ⟨field_self Inode.inum _, field_self Inode.dev _⟩
    | _ => cases htouched
  · rw [inode_other htouched]
    exact ⟨rfl, rfl⟩

/-- An inode comes into use by `get_inode`. -/
theorem used_apply {e : Action} {p i : ℕ} {s : Cache} {v : Book} (hmay : may p v s e)
    (h : 0 < ((e.apply p s).inodes i).ref) :
    0 < (s.inodes i).ref ∨ ∃ dev inum o, e = .fresh i dev inum o := by
  by_cases htouched : touched e = some i
  · cases e with
    | fresh j dev inum o =>
      obtain rfl : j = i := Option.some.inj htouched
      exact Or.inr ⟨dev, inum, o, rfl⟩
    | take j inum o =>
      obtain rfl : j = i := Option.some.inj htouched
      exact Or.inl hmay.2.1
    | lock j | unlock j | forget j | shrink j | fill j | assign j | grow j | clear j | load j | links j | init j =>
      obtain rfl : j = i := Option.some.inj htouched
      exact Or.inl (lt_of_lt_of_eq h (field_self Inode.ref _))
    | put j | erase j =>
      obtain rfl : j = i := Option.some.inj htouched
      have hless : 0 < (s.inodes j).ref-1 := lt_of_lt_of_eq h (field_self Inode.ref _)
      exact Or.inl (by omega)
    | _ => cases htouched
  · rw [inode_other htouched] at h
    exact Or.inl h

/-! ## Numbers -/

/-- Every inode in use has its own number. -/
structure Numbered (s : Cache) : Prop where
  rooted : ∀ i, 0 < (s.inodes i).ref → (s.inodes i).dev = rootDev
  small : ∀ i, 0 < (s.inodes i).ref → i < maxInodeCache
  unique : ∀ i j, 0 < (s.inodes i).ref → 0 < (s.inodes j).ref →
    (s.inodes i).inum = (s.inodes j).inum → i = j

theorem cached_none {s : Cache} {dev inum j : ℕ} (h : s.cached dev inum = none) (hj : j < maxInodeCache)
    (hused : 0 < (s.inodes j).ref) (hdev : (s.inodes j).dev = dev) : (s.inodes j).inum ≠ inum := by
  intro hinum
  have hnone := List.find?_eq_none.mp h j (List.mem_range.mpr hj)
  exact hnone (decide_eq_true ⟨hused, hdev, hinum⟩)

theorem numbered_access {e : Action} {p : ℕ} {s : Cache} {v : Book} (h : Numbered s) (hmay : may p v s e) :
    Numbered (e.apply p s) := by
  refine ⟨fun i hi => ?_, fun i hi => ?_, fun i j hi hj hij => ?_⟩
  · obtain hused | ⟨dev, inum, o, rfl⟩ := used_apply hmay hi
    · rw [(number_apply hmay hused).2]
      exact h.rooted i hused
    · exact (field_self Inode.dev _).trans hmay.2.2.2.1
  · obtain hused | ⟨dev, inum, o, rfl⟩ := used_apply hmay hi
    · exact h.small i hused
    · exact hmay.2.1
  · obtain hiused | ⟨dev, inum, o, rfl⟩ := used_apply hmay hi
    · rw [(number_apply hmay hiused).1] at hij
      obtain hjused | ⟨dev, inum, o, rfl⟩ := used_apply hmay hj
      · rw [(number_apply hmay hjused).1] at hij
        exact h.unique i j hiused hjused hij
      · have hinum : ((Action.fresh j dev inum o).apply p s).inodes j = _ := inode_self
        rw [hinum] at hij
        have hdev := (h.rooted i hiused).trans hmay.2.2.2.1.symm
        exact absurd hij (cached_none hmay.2.2.2.2.1 (h.small i hiused) hiused hdev)
    · by_contra hne
      have hsame : ((Action.fresh i dev inum o).apply p s).inodes j = s.inodes j := inode_ne (Ne.symm hne)
      have hinum : ((Action.fresh i dev inum o).apply p s).inodes i = _ := inode_self
      rw [hsame] at hj hij
      rw [hinum] at hij
      have hdev := (h.rooted j hj).trans hmay.2.2.2.1.symm
      exact absurd hij.symm (cached_none hmay.2.2.2.2.1 (h.small j hj) hj hdev)

/-! ## Books -/

def Buffer.number : Buffer → Option ℕ
  | .none => none
  | .block n | .inode _ n | .saved _ n => some n

/-- The inode whose record the buffer was taken for. -/
def Buffer.aim : Buffer → Option (ℕ × ℕ)
  | .none | .block _ => none
  | .inode i n | .saved i n => some (i, n)

/-- What a book tells of the cache. -/
structure Sound (p : ℕ) (v : Book) (s : Cache) : Prop where
  held : ∀ n, Buffer.number v.buffer = some n → s.holder n = some p
  aim : ∀ i n, Buffer.aim v.buffer = some (i, n) → Has v i ∧ n = inodeBlock (s.inodes i).inum
  known : ∀ i id, v.known = some (i, id) → i ∈ v.refs ∧ (s.inodes i).inum = id
  freeing : ∀ i, v.freeing = some i → i ∈ v.refs ∧ (v.writing = none ∧ v.known = none) ∧
    (i ∈ v.dirty ∨ ∃ n, v.buffer = .saved i n)

theorem sound_blank (p : ℕ) (s : Cache) : Sound p blank s := ⟨nofun, nofun, nofun, nofun⟩

section Books

variable {p q : ℕ} {s : Cache} {v : Book} {e : Action}

/-- A reference is new only by `get_inode`. -/
theorem has_note {i : ℕ} (hmay : may p v s e) (h : Has (note v e) i) :
    Has v i ∨ (∃ inum o, e = .take i inum o) ∨ ∃ dev inum o, e = .fresh i dev inum o := by
  cases e with
  | take j inum o =>
    obtain h | h := h
    · obtain rfl | h := List.mem_cons.mp h
      · exact Or.inr (Or.inl ⟨inum, o, rfl⟩)
      · exact Or.inl (Or.inl h)
    · exact Or.inl (Or.inr h)
  | fresh j dev inum o =>
    obtain h | h := h
    · obtain rfl | h := List.mem_cons.mp h
      · exact Or.inr (Or.inr ⟨dev, inum, o, rfl⟩)
      · exact Or.inl (Or.inl h)
    · exact Or.inl (Or.inr h)
  | put j | lose j | erase j => exact Or.inl (h.imp_left List.mem_of_mem_erase)
  | keep j =>
    obtain h | h := h
    · exact Or.inl (Or.inl (List.mem_of_mem_erase h))
    · obtain rfl | h := List.mem_cons.mp h
      · exact Or.inl (Or.inl hmay.2)
      · exact Or.inl (Or.inr h)
  | withdraw j =>
    obtain h | h := h
    · obtain rfl | h := List.mem_cons.mp h
      · exact Or.inl (Or.inr hmay.2)
      · exact Or.inl (Or.inl h)
    · exact Or.inl (Or.inr (List.mem_of_mem_erase h))
  | _ => exact Or.inl h

theorem held_note (h : Sound p v s) (n : ℕ) (hn : Buffer.number (note v e).buffer = some n) :
    (e.apply p s).holder n = some p := by
  cases e with
  | hold m | holdInode i m =>
    obtain rfl : m = n := Option.some.inj hn
    exact Function.update_self ..
  | release m | load i id | erase i => cases hn
  | save i =>
    apply h.held n
    change Buffer.number v.buffer.save = some n at hn
    cases hbuffer : v.buffer <;> rw [hbuffer] at hn <;> exact hn
  | _ => exact h.held n hn

/-- The buffers of the others stay with them. -/
theorem held_other (h : Sound p v s) (hmay : may p v s e) (hne : q ≠ p) {n : ℕ} (hn : s.holder n = some q) :
    (e.apply p s).holder n = some q := by
  have hmine : ∀ m, s.holder m = some p → n ≠ m := by
    rintro m hm rfl
    exact hne (Option.some.inj (hn.symm.trans hm))
  have hfree : ∀ m, s.holder m = none → n ≠ m := by
    rintro m hm rfl
    exact absurd (hn.symm.trans hm) nofun
  have hset : ∀ m o, n ≠ m → Function.update s.holder m o n = some q :=
    fun m o hnm => (Function.update_of_ne hnm ..).trans hn
  cases e with
  | hold m => exact hset m _ (hfree m hmay.2)
  | holdInode i m => exact hset m _ (hfree m hmay.2.1)
  | release m =>
    apply hset m _ (hmine m (h.held m _))
    obtain hbuffer | ⟨i, hbuffer, -⟩ := hmay <;> rw [hbuffer] <;> rfl
  | load i id =>
    refine hset _ _ (hmine _ (h.held _ ?_))
    rw [hmay.1]
    rfl
  | erase i =>
    obtain ⟨-, -, m, hbuffer⟩ := hmay
    obtain ⟨-, hm⟩ := h.aim i m (by rw [hbuffer]; rfl)
    refine hset _ _ (hmine _ (h.held _ ?_))
    rw [hbuffer, ← hm]
    rfl
  | _ => exact hn

theorem aim_none {b : Buffer} {i n : ℕ} (h : b = .none) (hc : Buffer.aim b = some (i, n)) : False := by
  rw [h] at hc
  cases hc

theorem aim_note (h : Sound p v s) (hmay : may p v s e) (hused : ∀ i, Has v i → 0 < (s.inodes i).ref) (i n : ℕ)
    (hn : Buffer.aim (note v e).buffer = some (i, n)) :
    Has (note v e) i ∧ n = inodeBlock ((e.apply p s).inodes i).inum := by
  have hkeep : Buffer.aim v.buffer = some (i, n) → Has v i ∧ n = inodeBlock ((e.apply p s).inodes i).inum := by
    intro hv
    obtain ⟨hi, hn⟩ := h.aim i n hv
    rw [(number_apply hmay (hused i hi)).1]
    exact ⟨hi, hn⟩
  cases e with
  | hold m | release m | load j id | erase j => cases hn
  | holdInode j m =>
    obtain ⟨rfl, rfl⟩ := Prod.mk.inj (Option.some.inj hn)
    exact ⟨hmay.2.2.2.1, hmay.2.2.1⟩
  | save j =>
    apply hkeep
    change Buffer.aim v.buffer.save = _ at hn
    cases hbuffer : v.buffer <;> rw [hbuffer] at hn <;> exact hn
  | take j | fresh j | put j | clear j | keep j | lose j | withdraw j | start j =>
    exact (aim_none hmay.1.1 hn).elim
  | _ => exact hkeep hn

theorem fetched_some {i j id inum : ℕ} {o : Origin} (h : fetched none j inum o = some (i, id)) : i = j ∧ id = inum := by
  cases o with
  | root | cwd => cases h
  | entry d k | alloc =>
    obtain ⟨rfl, rfl⟩ := Prod.mk.inj (Option.some.inj h)
    exact ⟨rfl, rfl⟩

theorem known_note (h : Sound p v s) (hmay : may p v s e) (hused : ∀ i, Has v i → 0 < (s.inodes i).ref) (i id : ℕ)
    (hknown : (note v e).known = some (i, id)) : i ∈ (note v e).refs ∧ ((e.apply p s).inodes i).inum = id := by
  have hnone : v.known = none → v.known = some (i, id) → False := fun hnone hsome => nomatch hnone.symm.trans hsome
  have hkeep : v.known = some (i, id) → i ∈ v.refs ∧ ((e.apply p s).inodes i).inum = id := by
    intro hknown
    obtain ⟨hi, hid⟩ := h.known i id hknown
    rw [(number_apply hmay (hused i (Or.inl hi))).1]
    exact ⟨hi, hid⟩
  cases e with
  | take j inum o =>
    change fetched v.known j inum o = _ at hknown
    rw [hmay.1.2.2.2] at hknown
    obtain ⟨rfl, rfl⟩ := fetched_some hknown
    exact ⟨List.mem_cons_self, (field_self Inode.inum _).trans hmay.2.2.1⟩
  | fresh j dev inum o =>
    change fetched v.known j inum o = _ at hknown
    rw [hmay.1.2.2.2] at hknown
    obtain ⟨rfl, rfl⟩ := fetched_some hknown
    exact ⟨List.mem_cons_self, field_self Inode.inum _⟩
  | load j | loaded j | init j => cases hknown
  | put j | lose j | keep j | withdraw j => exact (hnone hmay.1.2.2.2 hknown).elim
  | erase j => exact (hnone (h.freeing j hmay.1).2.1.2 hknown).elim
  | _ => exact hkeep hknown

theorem freeing_note (h : Sound p v s) (hmay : may p v s e) (i : ℕ) (hi : (note v e).freeing = some i) :
    i ∈ (note v e).refs ∧ ((note v e).writing = none ∧ (note v e).known = none) ∧
      (i ∈ (note v e).dirty ∨ ∃ n, (note v e).buffer = .saved i n) := by
  have hnone : v.freeing = none → v.freeing = some i → False := fun hnone hsome => nomatch hnone.symm.trans hsome
  have hdirty : ∀ b, v.buffer = b → (∀ n, b ≠ .saved i n) → v.freeing = some i →
      i ∈ v.refs ∧ (v.writing = none ∧ v.known = none) ∧ i ∈ v.dirty := by
    intro b hb hnot hi
    obtain ⟨hrefs, hwriting, hdirty | ⟨n, hn⟩⟩ := h.freeing i hi
    · exact ⟨hrefs, hwriting, hdirty⟩
    · exact absurd (hb.symm.trans hn) (hnot n)
  have hwriting : ∀ j last, v.writing = some (j, last) → v.freeing = some i → False := by
    intro j last hj hi
    exact nomatch (h.freeing i hi).2.1.1.symm.trans hj
  cases e with
  | take j | fresh j | put j | keep j | lose j | withdraw j | start j => exact (hnone hmay.1.2.1 hi).elim
  | clear j =>
    obtain rfl : j = i := Option.some.inj hi
    exact ⟨hmay.2.1, hmay.1.2.2, Or.inl List.mem_cons_self⟩
  | erase j => cases hi
  | hold n =>
    obtain ⟨hrefs, hw, hd⟩ := hdirty _ hmay.1 nofun hi
    exact ⟨hrefs, hw, Or.inl hd⟩
  | holdInode j n =>
    obtain ⟨hrefs, hw, hd⟩ := hdirty _ hmay.1 nofun hi
    exact ⟨hrefs, hw, Or.inl hd⟩
  | release n =>
    obtain hbuffer | ⟨_, -, hnot⟩ := hmay
    · obtain ⟨hrefs, hw, hd⟩ := hdirty _ hbuffer nofun hi
      exact ⟨hrefs, hw, Or.inl hd⟩
    · exact (hnone hnot hi).elim
  | load j id =>
    exact (hnone hmay.2.2.2 hi).elim
  | save j =>
    obtain ⟨⟨n, hbuffer⟩, -⟩ := hmay
    obtain ⟨hrefs, hw, hd⟩ := hdirty _ hbuffer nofun hi
    refine ⟨hrefs, hw, ?_⟩
    by_cases hji : i = j
    · subst hji
      refine Or.inr ⟨n, ?_⟩
      change v.buffer.save = _
      rw [hbuffer]
      rfl
    · exact Or.inl (List.mem_filter.mpr ⟨hd, decide_eq_true hji⟩)
  | forget j | shrink j =>
    obtain ⟨hrefs, hw, hd⟩ := hdirty _ hmay.2 nofun hi
    exact ⟨hrefs, hw, Or.inl (List.mem_cons_of_mem _ hd)⟩
  | assign j =>
    obtain ⟨last, hlast, -⟩ := hmay
    exact (hwriting _ _ hlast hi).elim
  | grow j => exact (hwriting _ _ hmay.1 hi).elim
  | settle j =>
    obtain ⟨last, hlast, -⟩ := hmay
    exact (hwriting _ _ hlast hi).elim
  | links j => exact (hnone hmay.2.2 hi).elim
  | init j => exact (hnone hmay.2.2.1 hi).elim
  | make id => exact (hnone hmay.2.2.2 hi).elim
  | loaded j =>
    obtain ⟨hrefs, ⟨hw, -⟩, hd⟩ := h.freeing i hi
    exact ⟨hrefs, ⟨hw, rfl⟩, hd⟩
  | _ => exact h.freeing i hi

theorem sound_note (h : Sound p v s) (hmay : may p v s e) (hused : ∀ i, Has v i → 0 < (s.inodes i).ref) :
    Sound p (note v e) (e.apply p s) :=
  ⟨held_note h, aim_note h hmay hused, known_note h hmay hused, freeing_note h hmay⟩

theorem sound_other {v' : Book} (h : Sound q v' s) (hp : Sound p v s) (hmay : may p v s e) (hne : q ≠ p)
    (hused : ∀ i, Has v' i → 0 < (s.inodes i).ref) : Sound q v' (e.apply p s) where
  held := fun n hn => held_other hp hmay hne (h.held n hn)
  aim := by
    intro i n hn
    obtain ⟨hi, hn⟩ := h.aim i n hn
    rw [(number_apply hmay (hused i hi)).1]
    exact ⟨hi, hn⟩
  known := by
    intro i id hknown
    obtain ⟨hi, hid⟩ := h.known i id hknown
    rw [(number_apply hmay (hused i (Or.inl hi))).1]
    exact ⟨hi, hid⟩
  freeing := h.freeing

end Books

/-! ## The cache in a run -/

/-- What holds of the cache with the books of all processes. -/
structure Orderly (lost : ℕ → ℕ) (s : Cache) (g : ℕ → Book) : Prop where
  counted : Counted lost s g
  numbered : Numbered s
  sound : ∀ p, Sound p (g p) s

/-- Nobody has a file open. -/
structure Begun (s : Cache) : Prop where
  opened : ∀ p, s.opened p = []
  ref : ∀ i, (s.inodes i).ref = shares s (fun _ => blank) i
  numbered : Numbered s

theorem orderly_begun {s : Cache} (h : Begun s) : Orderly (fun _ => 0) s fun _ => blank where
  counted := ⟨h.ref, h.opened, fun _ _ => rfl⟩
  numbered := h.numbered
  sound := fun p => sound_blank p s

section Runs

variable {lost : ℕ → ℕ} {s : Cache} {g : ℕ → Book} {p : ℕ} {e : Action}

theorem orderly_relies (h : Orderly lost s g) (hp : p < s.procs) : Relies p (g p) s where
  lt := hp
  files := h.counted.files p
  used := fun _ => has_pos h.counted
  home := home_pos h.counted hp
  rooted := h.numbered.rooted

theorem procs_apply (e : Action) (p : ℕ) (s : Cache) : (e.apply p s).procs = s.procs := by
  cases e <;> rfl

theorem orderly_access (h : Orderly lost s g) (hp : p < s.procs) (hmay : may p (g p) s e) :
    Orderly (lostAfter lost e) (e.apply p s) (Function.update g p (note (g p) e)) where
  counted := counted_access h.counted hp hmay
  numbered := numbered_access h.numbered hmay
  sound := by
    intro q
    by_cases hq : q = p
    · subst hq
      rw [Function.update_self]
      exact sound_note (h.sound q) hmay (fun _ => has_pos h.counted)
    · rw [Function.update_of_ne hq]
      exact sound_other (h.sound q) (h.sound p) hmay hq (fun _ => has_pos h.counted)

/-- A process takes up a call. -/
def calls (s : Cache) (p : ℕ) (x : Prog Bool) : Prop := p < s.procs ∧ ∃ c, x = program p c

/-- What more holds of the cache, from one access to the next where they are `ok`. -/
theorem run_cache {start : Cache → Prop} {ok : Book → Cache → Action → Prop} {J : Cache → (ℕ → Book) → Prop}
    (hok : ∀ v s e, ok v s e → Fair e) (hstart : ∀ s, start s → Begun s ∧ J s fun _ => blank)
    (hstep : ∀ lost s g p e, Orderly lost s g → J s g → p < s.procs → ok (g p) s e → may p (g p) s e →
      J (e.apply p s) (Function.update g p (note (g p) e)))
    {w : World Cache Action Bool Book} (h : Run start calls (fun _ => ok) note blank w) :
    ((∃ lost, Orderly lost w.state w.book) ∧ J w.state w.book) ∧
      Follows (fun _ => ok) note Relies rule Idle w := by
  apply run_follows (I := fun s g => (∃ lost, Orderly lost s g) ∧ J s g) _ _ _ _ h
  · exact ⟨[], rfl⟩
  · exact fun s hs => ⟨⟨_, orderly_begun (hstart s hs).1⟩, (hstart s hs).2⟩
  · rintro s g p x ⟨⟨lost, ho⟩, -⟩ ⟨hp, c, rfl⟩ hidle
    refine ⟨orderly_relies ho hp, ?_⟩
    exact along_allow (path_program hidle c) (fun v s e ha => ⟨hok v s e ha.1, ha.2⟩)
  · rintro s g p e s' ⟨⟨lost, ho⟩, hJ⟩ hk ha ⟨hmay, rfl⟩
    have ho' := orderly_access ho hk.lt hmay
    refine ⟨⟨⟨_, ho'⟩, hstep lost s g p e ho hJ hk.lt ha hmay⟩, ?_, fun q hq hkq => ?_⟩
    · have hp := @orderly_relies _ _ _ p ho' (by rw [procs_apply]; exact hk.lt)
      rwa [Function.update_self] at hp
    · have hq' := @orderly_relies _ _ _ q ho' (by rw [procs_apply]; exact hkq.lt)
      rwa [Function.update_of_ne hq] at hq'

end Runs

end BabyOS.CacheInvariant

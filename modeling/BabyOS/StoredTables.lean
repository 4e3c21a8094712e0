import BabyOS.RadixTables

/-!
# Trees of tables in a memory

A memory gives every frame its words, and a word of a table may lead to another frame. A
reader of a level reads the tree below a frame off the memory. What a store changes of the
tree follows from which frames the tree lies in.
-/

set_option autoImplicit false

namespace BabyOS.StoredTables
open BabyOS.RadixTables

variable {W α E : Type} {L : Level α E}

abbrev Words (W : Type) := ℕ → ℕ → W

structure Reader (W : Type) (L : Level α E) where
  read : Words W → ℕ → α
  /-- A tree lies in its root, among others. -/
  root : ∀ m r, 0 < L.frames r (read m r)
  /-- A tree is read from the frames that it lies in. -/
  congr : ∀ m m' r, (∀ f, 0 < L.frames f (read m r) → m' f = m f) → read m' r = read m r

/-- No two tables of the tree lie in one frame. -/
def Sole (L : Level α E) (t : α) : Prop := ∀ f, L.frames f t ≤ 1

/-! ## The last tables -/

section Leaves

variable (leaf : W → Option E) (size : ℕ) (hsize : 0 < size)

theorem frames_last (f : ℕ) (t : Node E) :
    ((Level.leaf E).up size hsize).frames f t = if t.frame = f then 1 else 0 := by
  have hzero : t.sum ((Level.leaf E).frames f) size = 0 := by
    apply Finset.sum_eq_zero
    intro k _
    cases t.entry k <;> rfl
  change (if t.frame = f then 1 else 0)+t.sum ((Level.leaf E).frames f) size = _
  rw [hzero, Nat.add_zero]

theorem leaves_last (v : E → ℕ) (t : Node E) : ((Level.leaf E).up size hsize).leaves v t = t.sum v size := rfl

/-- A table whose words are leaves. -/
def lastTable : Reader W ((Level.leaf E).up size hsize) where
  read := fun m r => ⟨r, fun i => if i < size then leaf (m r i) else none⟩
  root := by
    intro m r
    rw [frames_last, if_pos rfl]
    exact Nat.one_pos
  congr := by
    intro m m' r h
    have hsame : m' r = m r := by
      apply h
      rw [frames_last, if_pos rfl]
      exact Nat.one_pos
    rw [hsame]

variable {leaf size hsize} {m m' : Words W} {r i : ℕ} {w : W} {e : E}

theorem read_last (hi : i < size) : ((lastTable leaf size hsize).read m r).entry i = leaf (m r i) := if_pos hi

theorem find_last (m : Words W) (r n : ℕ) :
    ((Level.leaf E).up size hsize).find ((lastTable leaf size hsize).read m r) n =
      leaf (m r ((Level.leaf E).index size n)) := by
  have hi : (Level.leaf E).index size n < size := Nat.mod_lt _ hsize
  change (Level.leaf E).findUp size _ n = _
  rw [Level.findUp, read_last hi]
  cases leaf (m r ((Level.leaf E).index size n)) <;> rfl

/-- A leaf is stored. -/
theorem read_store (hi : i < size) (hw : leaf w = some e) (hm : m' r = Function.update (m r) i w) :
    (lastTable leaf size hsize).read m' r = ((lastTable leaf size hsize).read m r).set i e := by
  change Node.mk r _ = Node.mk r _
  congr 1
  funext j
  rw [hm]
  by_cases hj : j = i
  · subst hj
    rw [if_pos hi, Function.update_self, Function.update_self, hw]
  · rw [Function.update_of_ne hj, Function.update_of_ne hj]
    rfl

theorem last_blank (h : ∀ i < size, leaf (m r i) = none) :
    ((Level.leaf E).up size hsize).Blank r ((lastTable leaf size hsize).read m r) := by
  have hread : (lastTable leaf size hsize).read m r = ⟨r, fun _ => none⟩ := by
    change Node.mk r _ = Node.mk r _
    congr 1
    funext i
    by_cases hi : i < size
    · rw [if_pos hi, h i hi]
    · rw [if_neg hi]
  rw [hread]
  exact Level.blank_up r

end Leaves

/-! ## Tables of tables -/

section Links

variable (next : W → Option ℕ) (R : Reader W L) (size : ℕ) (hsize : 0 < size)

/-- A table whose words lead to tables of the level below. -/
def upTable : Reader W (L.up size hsize) where
  read := fun m r => ⟨r, fun i => if i < size then (next (m r i)).map (R.read m) else none⟩
  root := by
    intro m r
    change 0 < (if r = r then 1 else 0)+_
    rw [if_pos rfl]
    omega
  congr := by
    intro m m' r h
    have hroot : m' r = m r := by
      apply h
      change 0 < (if r = r then 1 else 0)+_
      rw [if_pos rfl]
      omega
    have hbelow : ∀ i < size, ∀ c, next (m r i) = some c → R.read m' c = R.read m c := by
      intro i hi c hc
      apply R.congr
      intro f hf
      apply h
      refine Nat.add_pos_right _ (Nat.lt_of_lt_of_le hf ?_)
      have hle := Finset.single_le_sum
        (f := fun k => ((if k < size then (next (m r k)).map (R.read m) else none).elim 0 (L.frames f)))
        (fun _ _ => Nat.zero_le _) (Finset.mem_range.mpr hi)
      rw [if_pos hi, hc] at hle
      exact hle
    change Node.mk r _ = Node.mk r _
    congr 1
    funext i
    rw [hroot]
    by_cases hi : i < size
    · rw [if_pos hi, if_pos hi]
      cases hc : next (m r i) with
      | none => rfl
      | some c => exact congrArg some (hbelow i hi c hc)
    · rw [if_neg hi, if_neg hi]

variable {next R size hsize} {m m' : Words W} {r f i j c d c' : ℕ}

/-- The tables of a tree are its root and those of its children. -/
theorem frames_read (m : Words W) (r f : ℕ) :
    (L.up size hsize).frames f ((upTable next R size hsize).read m r) =
      (if r = f then 1 else 0)+∑ i ∈ Finset.range size, (next (m r i)).elim 0 fun c => L.frames f (R.read m c) := by
  change (if r = f then 1 else 0)+Node.sum (L.frames f) size _ = _
  congr 1
  apply Finset.sum_congr rfl
  intro i hi
  change (if i < size then (next (m r i)).map (R.read m) else none).elim 0 (L.frames f) = _
  rw [if_pos (Finset.mem_range.mp hi)]
  cases next (m r i) <;> rfl

theorem frames_below (hi : i < size) (hc : next (m r i) = some c) :
    (if r = f then 1 else 0)+L.frames f (R.read m c) ≤
      (L.up size hsize).frames f ((upTable next R size hsize).read m r) := by
  have hle := Finset.single_le_sum
    (f := fun k => (next (m r k)).elim 0 fun c => L.frames f (R.read m c))
    (fun _ _ => Nat.zero_le _) (Finset.mem_range.mpr hi)
  simp only [hc, Option.elim_some] at hle
  rw [frames_read]
  exact Nat.add_le_add_left hle _

theorem frames_beside (hi : i < size) (hj : j < size) (hij : i ≠ j) (hc : next (m r i) = some c)
    (hd : next (m r j) = some d) : L.frames f (R.read m c)+L.frames f (R.read m d) ≤
      (L.up size hsize).frames f ((upTable next R size hsize).read m r) := by
  have hsub : ({i, j} : Finset ℕ) ⊆ Finset.range size := by
    intro k hk
    rcases Finset.mem_insert.mp hk with rfl | hk
    · exact Finset.mem_range.mpr hi
    · rw [Finset.mem_singleton.mp hk]
      exact Finset.mem_range.mpr hj
  have hle := Finset.sum_le_sum_of_subset
    (f := fun k => (next (m r k)).elim 0 fun c => L.frames f (R.read m c)) hsub
  rw [Finset.sum_pair hij] at hle
  simp only [hc, hd, Option.elim_some] at hle
  rw [frames_read]
  exact Nat.le_add_left_of_le hle

/-- The child of entry `i` is another tree, and the other children stay. -/
theorem read_change (hi : i < size) (hc : next (m' r i) = some c')
    (hroot : ∀ j < size, j ≠ i → next (m' r j) = next (m r j))
    (hrest : ∀ j < size, j ≠ i → ∀ d, next (m r j) = some d → ∀ f, 0 < L.frames f (R.read m d) → m' f = m f) :
    (upTable next R size hsize).read m' r = ((upTable next R size hsize).read m r).set i (R.read m' c') := by
  change Node.mk r _ = Node.mk r _
  congr 1
  funext j
  by_cases hj : j = i
  · subst hj
    rw [if_pos hi, hc, Function.update_self]
    rfl
  · rw [Function.update_of_ne hj]
    change _ = if j < size then (next (m r j)).map (R.read m) else none
    by_cases hsize : j < size
    · rw [if_pos hsize, if_pos hsize, hroot j hsize hj]
      cases hd : next (m r j) with
      | none => rfl
      | some d => exact congrArg some (R.congr m m' d (hrest j hsize hj d hd))
    · rw [if_neg hsize, if_neg hsize]

/-- What changes in a child, or outside the tree, leaves the root and the other children. -/
theorem read_below (hsole : Sole (L.up size hsize) ((upTable next R size hsize).read m r)) (hi : i < size)
    (hc : next (m r i) = some c)
    (hm : ∀ f, m' f ≠ m f → 0 < L.frames f (R.read m c) ∨
      (L.up size hsize).frames f ((upTable next R size hsize).read m r) = 0) :
    m' r = m r ∧ (upTable next R size hsize).read m' r =
      ((upTable next R size hsize).read m r).set i (R.read m' c) := by
  have hroot : m' r = m r := by
    by_contra hne
    have hle := @frames_below _ _ _ _ next R size hsize m r r i c hi hc
    have hone := hsole r
    rcases hm r hne with hpos | hzero
    · rw [if_pos rfl] at hle
      omega
    · rw [if_pos rfl] at hle
      omega
  refine ⟨hroot, read_change hi (by rw [hroot]; exact hc) (fun j _ _ => by rw [hroot]) ?_⟩
  intro j hj hji d hd f hpos
  by_contra hne
  have hle := @frames_beside _ _ _ _ next R size hsize m r f i j c d hi hj (Ne.symm hji) hc hd
  have hone := hsole f
  rcases hm f hne with hchild | hzero
  · omega
  · omega

/-- A new table is linked to an entry that led nowhere. -/
theorem read_link {w : W} {g : ℕ} (hi : i < size) (hw : next w = some g)
    (hg : (L.up size hsize).frames g ((upTable next R size hsize).read m r) = 0)
    (hsole : Sole (L.up size hsize) ((upTable next R size hsize).read m r))
    (hroot : m' r = Function.update (m r) i w) (hm : ∀ f, f ≠ r → f ≠ g → m' f = m f) :
    (upTable next R size hsize).read m' r =
      ((upTable next R size hsize).read m r).set i (R.read m' g) := by
  apply read_change hi
  · rw [hroot, Function.update_self]
    exact hw
  · intro j _ hj
    rw [hroot, Function.update_of_ne hj]
  · intro j hj hji d hd f hpos
    have hle := @frames_below _ _ _ _ next R size hsize m r f j d hj hd
    have hone := hsole f
    apply hm
    · rintro rfl
      rw [if_pos rfl] at hle
      omega
    · rintro rfl
      omega

theorem entry_read (hi : i < size) :
    ((upTable next R size hsize).read m r).entry i = (next (m r i)).map (R.read m) := if_pos hi

/-- A key is looked up in the child that its entry leads to. -/
theorem find_read (m : Words W) (r n : ℕ) :
    (L.up size hsize).find ((upTable next R size hsize).read m r) n =
      (next (m r (L.index size n))).bind fun c => L.find (R.read m c) n := by
  have hi : L.index size n < size := Nat.mod_lt _ hsize
  change L.findUp size _ n = _
  rw [Level.findUp, entry_read hi]
  cases next (m r (L.index size n)) <;> rfl

/-- A leaf was set in a child, and the rest of the tree is as it was. -/
theorem placed_below {n : ℕ} {e : E} (hsole : Sole (L.up size hsize) ((upTable next R size hsize).read m r))
    (hc : next (m r (L.index size n)) = some c) (hm : ∀ f, m' f ≠ m f → 0 < L.frames f (R.read m c))
    (h : L.Placed n e (fun _ => 0) (R.read m c) (R.read m' c)) :
    m' r = m r ∧ (L.up size hsize).Placed n e (fun _ => 0) ((upTable next R size hsize).read m r)
      ((upTable next R size hsize).read m' r) := by
  have hi : L.index size n < size := Nat.mod_lt _ hsize
  obtain ⟨hroot, hread⟩ := read_below hsole hi hc (fun f hf => Or.inl (hm f hf))
  have hentry : ((upTable next R size hsize).read m r).entry (L.index size n) = some (R.read m c) := by
    rw [entry_read hi, hc]
    rfl
  refine ⟨hroot, ?_⟩
  rw [hread]
  exact Level.placed_up hentry h

/-- Below an entry that leads nowhere there is nothing. -/
theorem read_blank (h : ∀ i < size, next (m r i) = none) :
    (L.up size hsize).Blank r ((upTable next R size hsize).read m r) := by
  have hread : (upTable next R size hsize).read m r = ⟨r, fun _ => none⟩ := by
    change Node.mk r _ = Node.mk r _
    congr 1
    funext i
    by_cases hi : i < size
    · rw [if_pos hi, h i hi]
      rfl
    · rw [if_neg hi]
  rw [hread]
  exact Level.blank_up r

end Links

/-! ## Empty tables -/

section Growth

variable {size : ℕ} {hsize : 0 < size} {new new' : ℕ → ℕ}

/-- `t'` is `t` with `new f` more tables in frame `f`, and no other leaves. -/
structure Grows (L : Level α E) (new : ℕ → ℕ) (t t' : α) : Prop where
  find : ∀ n, L.find t' n = L.find t n
  frames : ∀ f, L.frames f t' = L.frames f t+new f

theorem Grows.refl (t : α) : Grows L (fun _ => 0) t t := ⟨fun _ => rfl, fun _ => rfl⟩

theorem Grows.up {t : Node α} {c c' : α} {i : ℕ} (h : Grows L new c c') (hi : i < size)
    (hc : t.entry i = some c) : Grows (L.up size hsize) new t (t.set i c') := by
  refine ⟨fun n => ?_, fun f => ?_⟩
  · change L.findUp size (t.set i c') n = L.findUp size t n
    rw [Level.findUp_set, h.find]
    split
    next hidx => rw [Level.findUp, hidx, hc, Option.bind_some]
    next => rfl
  · have hsum := Node.sum_set (L.frames f) t c' hi
    rw [hc, Option.elim_some, h.frames] at hsum
    change (if t.frame = f then 1 else 0)+(t.set i c').sum (L.frames f) size =
      (if t.frame = f then 1 else 0)+t.sum (L.frames f) size+new f
    omega

/-- A table without entries below an entry that led nowhere. -/
theorem grows_blank {t : Node α} {c : α} {g i : ℕ} (hi : i < size) (ht : t.entry i = none)
    (hc : L.Blank g c) : Grows (L.up size hsize) (fun f => if g = f then 1 else 0) t (t.set i c) := by
  obtain ⟨hfind, -, hframes⟩ := hc
  refine ⟨fun n => ?_, fun f => ?_⟩
  · change L.findUp size (t.set i c) n = L.findUp size t n
    rw [Level.findUp_set, hfind]
    split
    next hidx => rw [Level.findUp, hidx, ht, Option.bind_none]
    next => rfl
  · have hsum := Node.sum_set (L.frames f) t c hi
    rw [ht, Option.elim_none, hframes] at hsum
    change (if t.frame = f then 1 else 0)+(t.set i c).sum (L.frames f) size =
      (if t.frame = f then 1 else 0)+t.sum (L.frames f) size+(if g = f then 1 else 0)
    omega

end Growth

end BabyOS.StoredTables

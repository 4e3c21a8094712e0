import BabyOS.RangeSums

/-!
# Radix trees of tables

A table is a frame with entries; the entries of one level are the tables of the
level below, and those of the last level are leaves. A level knows how to look a
key up, and how to add a weight over its leaves and over the frames of its
tables. The laws that connect the three are fields, and `Level.up` proves them
for the next level.
-/

set_option autoImplicit false

namespace BabyOS.RadixTables

structure Node (α : Type) where
  frame : ℕ
  entry : ℕ → Option α

namespace Node

variable {α : Type} {n i j : ℕ} {t : Node α} {c d x : α} (w : α → ℕ)

def set (t : Node α) (i : ℕ) (x : α) : Node α :=
  { t with entry := Function.update t.entry i (some x) }

def sum (n : ℕ) (t : Node α) : ℕ := ∑ i ∈ Finset.range n, (t.entry i).elim 0 w

@[simp] theorem set_frame (t : Node α) (i : ℕ) (x : α) : (t.set i x).frame = t.frame := rfl

@[simp] theorem set_entry_self (t : Node α) (i : ℕ) (x : α) : (t.set i x).entry i = some x :=
  Function.update_self _ _ _

theorem set_entry_of_ne (t : Node α) (x : α) (h : j ≠ i) : (t.set i x).entry j = t.entry j :=
  Function.update_of_ne h _ _

theorem sum_succ (t : Node α) : t.sum w (n+1) = t.sum w n+(t.entry n).elim 0 w :=
  Finset.sum_range_succ _ _

theorem sum_congr {t u : Node α} (h : ∀ k < n, t.entry k = u.entry k) : t.sum w n = u.sum w n :=
  Finset.sum_congr rfl (fun k hk => by rw [h k (Finset.mem_range.mp hk)])

theorem sum_empty (h : ∀ k < n, t.entry k = none) : t.sum w n = 0 :=
  Finset.sum_eq_zero (fun k hk => by rw [h k (Finset.mem_range.mp hk)]; rfl)

/-- One entry is replaced. -/
theorem sum_set (t : Node α) (x : α) (hi : i < n) :
    (t.set i x).sum w n+(t.entry i).elim 0 w = t.sum w n+w x := by
  have hsum := @RangeSums.sum_change _ _ hi (fun k => (t.entry k).elim 0 w)
    (fun k => ((t.set i x).entry k).elim 0 w) (fun k _ hk => by rw [set_entry_of_ne t x hk])
  rw [set_entry_self] at hsum
  exact hsum

end Node

/-- A level of tables over leaves of type `E`. -/
structure Level (α E : Type) where
  /-- How many keys one table of this level covers. -/
  span : ℕ
  find : α → ℕ → Option E
  leaves : (E → ℕ) → α → ℕ
  frames : ℕ → α → ℕ
  span_pos : 0 < span
  find_mod : ∀ c n, find c (n % span) = find c n
  leaves_eq : ∀ w c, leaves w c = ∑ n ∈ Finset.range span, (find c n).elim 0 w

namespace Level

variable {α E : Type}

/-- The leaves themselves. -/
def leaf (E : Type) : Level E E where
  span := 1
  find := fun e _ => some e
  leaves := fun w e => w e
  frames := fun _ _ => 0
  span_pos := Nat.one_pos
  find_mod := fun _ _ => rfl
  leaves_eq := by simp

section Laws

variable (L : Level α E) (w : E → ℕ) {c : α} {n m : ℕ} {e e' : E}

theorem find_le (hn : n < L.span) (h : L.find c n = some e) : w e ≤ L.leaves w c := by
  have hle := Finset.single_le_sum (f := fun k => (L.find c k).elim 0 w) (fun _ _ => Nat.zero_le _)
    (Finset.mem_range.mpr hn)
  rw [L.leaves_eq]
  simpa [h] using hle

theorem find_pair (hn : n < L.span) (hm : m < L.span) (hne : n ≠ m) (h : L.find c n = some e)
    (h' : L.find c m = some e') : w e+w e' ≤ L.leaves w c := by
  have hsub : ({n, m} : Finset ℕ) ⊆ Finset.range L.span := by
    intro k hk
    rcases Finset.mem_insert.mp hk with rfl | hk
    · exact Finset.mem_range.mpr hn
    · rw [Finset.mem_singleton.mp hk]
      exact Finset.mem_range.mpr hm
  have hle := Finset.sum_le_sum_of_subset (f := fun k => (L.find c k).elim 0 w) hsub
  rw [Finset.sum_pair hne] at hle
  rw [L.leaves_eq]
  simpa [h, h'] using hle

end Laws

/-- Which entry of a table covers a key. -/
def index (L : Level α E) (size n : ℕ) : ℕ := n / L.span % size

def findUp (L : Level α E) (size : ℕ) (t : Node α) (n : ℕ) : Option E :=
  (t.entry (L.index size n)).bind fun c => L.find c n

theorem index_block (L : Level α E) {size i n : ℕ} (hi : i < size) (hn : n < L.span) :
    L.index size (L.span*i+n) = i := by
  rw [index, Nat.mul_add_div L.span_pos, Nat.div_eq_of_lt hn, add_zero, Nat.mod_eq_of_lt hi]

theorem findUp_block (L : Level α E) {size i n : ℕ} (hi : i < size) (hn : n < L.span) (t : Node α) :
    L.findUp size t (L.span*i+n) = (t.entry i).bind fun c => L.find c n := by
  rw [findUp, L.index_block hi hn]
  congr 1
  funext c
  rw [← L.find_mod c (L.span*i+n), Nat.mul_add_mod, L.find_mod]

/-- Adding over the keys of the first `k` entries is adding over these entries. -/
theorem leaves_blocks (L : Level α E) (w : E → ℕ) {size k : ℕ} (hk : k ≤ size) (t : Node α) :
    t.sum (L.leaves w) k =
      ∑ n ∈ Finset.range (L.span*k), (L.findUp size t n).elim 0 w := by
  induction k with
  | zero => simp [Node.sum]
  | succ k ih =>
    rw [Node.sum_succ, ih (by omega), Nat.mul_succ, Finset.sum_range_add]
    congr 1
    have hblock : ∀ n ∈ Finset.range L.span, (L.findUp size t (L.span*k+n)).elim 0 w =
        ((t.entry k).bind fun c => L.find c n).elim 0 w := by
      intro n hn
      rw [L.findUp_block (by omega) (Finset.mem_range.mp hn)]
    rw [Finset.sum_congr rfl hblock]
    cases t.entry k with
    | none => simp
    | some c => exact L.leaves_eq w c

/-- The tables of the next level up. -/
def up (L : Level α E) (size : ℕ) (hsize : 0 < size) : Level (Node α) E where
  span := L.span*size
  find := L.findUp size
  leaves := fun w t => t.sum (L.leaves w) size
  frames := fun f t => (if t.frame = f then 1 else 0)+t.sum (L.frames f) size
  span_pos := Nat.mul_pos L.span_pos hsize
  find_mod := by
    intro t n
    have hidx : L.index size (n % (L.span*size)) = L.index size n := by
      rw [index, index, Nat.mod_mul_right_div_self, Nat.mod_mod]
    rw [findUp, findUp, hidx]
    congr 1
    funext c
    rw [← L.find_mod c (n % (L.span*size)), Nat.mod_mul_right_mod, L.find_mod]
  leaves_eq := fun w t => L.leaves_blocks w le_rfl t

theorem findUp_set (L : Level α E) (size : ℕ) (t : Node α) (i : ℕ) (x : α) (n : ℕ) :
    L.findUp size (t.set i x) n = if L.index size n = i then L.find x n else L.findUp size t n := by
  rw [findUp]
  split
  next h => rw [h, Node.set_entry_self, Option.bind_some]
  next h => rw [Node.set_entry_of_ne t x h, findUp]

/-! ## One leaf is set -/

/-- `t'` is `t` with the leaf `e` at key `n` and `new f` more tables in frame `f`. -/
structure Placed (L : Level α E) (n : ℕ) (e : E) (new : ℕ → ℕ) (t t' : α) : Prop where
  find : ∀ m, L.find t' m = if m % L.span = n % L.span then some e else L.find t m
  leaves : ∀ w, L.leaves w t'+(L.find t n).elim 0 w = L.leaves w t+w e
  frames : ∀ f, L.frames f t' = L.frames f t+new f

/-- An entry of the last table, whether or not it was there. -/
theorem placed_entry {size : ℕ} {hsize : 0 < size} (n : ℕ) (e : E) (t : Node E) :
    ((leaf E).up size hsize).Placed n e (fun _ => 0) t (t.set ((leaf E).index size n) e) := by
  have hi : (leaf E).index size n < size := Nat.mod_lt _ hsize
  have hidx : ∀ m, (leaf E).index size m = m % ((leaf E).span*size) := by
    intro m
    simp [index, leaf]
  refine ⟨fun m => ?_, fun w => ?_, fun f => ?_⟩
  · change (leaf E).findUp size (t.set _ e) m = _
    rw [findUp_set, hidx m, hidx n]
    rfl
  · have hsum := Node.sum_set w t e hi
    have hold : ((leaf E).up size hsize).find t n = t.entry ((leaf E).index size n) := by
      change (leaf E).findUp size t n = _
      rw [findUp]
      cases t.entry ((leaf E).index size n) <;> rfl
    rw [hold]
    exact hsum
  · have hzero : ∀ u : Node E, u.sum ((leaf E).frames f) size = 0 := by
      intro u
      apply Finset.sum_eq_zero
      intro k _
      cases u.entry k <;> rfl
    change (if t.frame = f then 1 else 0)+(t.set _ e).sum _ size = (if t.frame = f then 1 else 0)+t.sum _ size+0
    rw [hzero, hzero]

theorem key_split (L : Level α E) {size n m : ℕ} :
    m % (L.span*size) = n % (L.span*size) ↔
      L.index size m = L.index size n ∧ m % L.span = n % L.span := by
  rw [Nat.mod_mul, Nat.mod_mul, index, index]
  constructor
  · intro h
    have hlow : m % L.span = n % L.span := by
      have := congrArg (· % L.span) h
      simpa [Nat.add_mul_mod_self_left] using this
    rw [hlow] at h
    exact ⟨Nat.eq_of_mul_eq_mul_left L.span_pos (Nat.add_left_cancel h), hlow⟩
  · rintro ⟨h1, h2⟩
    rw [h1, h2]

/-- Below an entry that is there. -/
theorem placed_up {L : Level α E} {size : ℕ} {hsize : 0 < size} {n : ℕ} {e : E} {new : ℕ → ℕ}
    {t : Node α} {c c' : α} (hc : t.entry (L.index size n) = some c) (h : L.Placed n e new c c') :
    (L.up size hsize).Placed n e new t (t.set (L.index size n) c') := by
  have hi : L.index size n < size := Nat.mod_lt _ hsize
  refine ⟨fun m => ?_, fun w => ?_, fun f => ?_⟩
  · change L.findUp size (t.set (L.index size n) c') m = _
    rw [findUp_set, h.find]
    change _ = if m % (L.span*size) = n % (L.span*size) then some e else L.findUp size t m
    rw [if_congr L.key_split rfl rfl]
    by_cases hidx : L.index size m = L.index size n
    · have hfind : L.findUp size t m = L.find c m := by rw [findUp, hidx, hc, Option.bind_some]
      simp [hidx, hfind]
    · simp [hidx]
  · have hsum := Node.sum_set (L.leaves w) t c' hi
    have hold : (L.up size hsize).find t n = L.find c n := by
      change L.findUp size t n = _
      rw [findUp, hc, Option.bind_some]
    have hleaf := h.leaves w
    rw [hc, Option.elim_some] at hsum
    rw [hold]
    change (t.set _ c').sum (L.leaves w) size+_ = t.sum (L.leaves w) size+_
    omega
  · have hsum := Node.sum_set (L.frames f) t c' hi
    rw [hc, Option.elim_some, h.frames f] at hsum
    change (if t.frame = f then 1 else 0)+(t.set _ c').sum (L.frames f) size =
      (if t.frame = f then 1 else 0)+t.sum (L.frames f) size+new f
    omega

/-- A table without entries. -/
def Blank (L : Level α E) (frame : ℕ) (c : α) : Prop :=
  (∀ m, L.find c m = none) ∧ (∀ w, L.leaves w c = 0) ∧
    ∀ f, L.frames f c = if frame = f then 1 else 0

theorem blank_up {L : Level α E} {size : ℕ} {hsize : 0 < size} (frame : ℕ) :
    (L.up size hsize).Blank frame ⟨frame, fun _ => none⟩ := by
  refine ⟨fun _ => rfl, fun w => ?_, fun f => ?_⟩
  · exact Node.sum_empty _ (fun _ _ => rfl)
  · change (if frame = f then 1 else 0)+Node.sum (L.frames f) size ⟨frame, fun _ => none⟩ = _
    rw [Node.sum_empty _ (fun _ _ => rfl), add_zero]

/-- Below an entry that was not there. -/
theorem placed_up_blank {L : Level α E} {size : ℕ} {hsize : 0 < size} {n frame : ℕ} {e : E}
    {new : ℕ → ℕ} {t : Node α} {c c' : α} (hc : t.entry (L.index size n) = none)
    (hblank : L.Blank frame c) (h : L.Placed n e new c c') :
    (L.up size hsize).Placed n e (fun f => (if frame = f then 1 else 0)+new f) t
      (t.set (L.index size n) c') := by
  have hi : L.index size n < size := Nat.mod_lt _ hsize
  obtain ⟨hfind, hleaves, hframes⟩ := hblank
  refine ⟨fun m => ?_, fun w => ?_, fun f => ?_⟩
  · change L.findUp size (t.set (L.index size n) c') m = _
    rw [findUp_set, h.find, hfind]
    change _ = if m % (L.span*size) = n % (L.span*size) then some e else L.findUp size t m
    rw [if_congr L.key_split rfl rfl]
    by_cases hidx : L.index size m = L.index size n
    · have hnone : L.findUp size t m = none := by rw [findUp, hidx, hc, Option.bind_none]
      simp [hidx, hnone]
    · simp [hidx]
  · have hsum := Node.sum_set (L.leaves w) t c' hi
    have hold : (L.up size hsize).find t n = none := by
      change L.findUp size t n = _
      rw [findUp, hc, Option.bind_none]
    have hleaf := h.leaves w
    rw [hfind, hleaves, Option.elim_none] at hleaf
    rw [hc, Option.elim_none] at hsum
    rw [hold, Option.elim_none]
    change (t.set _ c').sum (L.leaves w) size+_ = t.sum (L.leaves w) size+_
    omega
  · have hsum := Node.sum_set (L.frames f) t c' hi
    rw [hc, Option.elim_none, h.frames f, hframes] at hsum
    change (if t.frame = f then 1 else 0)+(t.set _ c').sum (L.frames f) size =
      (if t.frame = f then 1 else 0)+t.sum (L.frames f) size+_
    omega

end Level

end BabyOS.RadixTables

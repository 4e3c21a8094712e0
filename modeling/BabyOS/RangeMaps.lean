import BabyOS.OrderedRanges

/-!
# The map a list of ranges describes

Every range of the list carries a label. A point has the label of the first range
it lies in; in a list without overlap this is the only one. Two neighbours that
meet and carry the same label may be joined, which does not change the map.
-/

set_option autoImplicit false

namespace BabyOS.RangeMaps
open BabyOS.OrderedRanges

section Maps

variable {α K β : Type*} [LinearOrder K] (lo hi : α → K) (g : α → β)

/-- The point lies in the range. -/
def Within (a : α) (x : K) : Prop := lo a ≤ x ∧ x < hi a

instance (a : α) (x : K) : Decidable (Within lo hi a x) := inferInstanceAs (Decidable (_ ∧ _))

def valueAt : List α → K → Option β
  | [], _ => none
  | a :: l, x => if Within lo hi a x then some (g a) else valueAt l x

variable {lo hi g}

theorem valueAt_append (l m : List α) (x : K) :
    valueAt lo hi g (l++m) x = (valueAt lo hi g l x).or (valueAt lo hi g m x) := by
  induction l with
  | nil => simp [valueAt]
  | cons a l ih =>
    by_cases ha : Within lo hi a x
    · simp [valueAt, ha]
    · simp [valueAt, ha, ih]

theorem valueAt_eq_none {l : List α} {x : K} :
    valueAt lo hi g l x = none ↔ ∀ a ∈ l, ¬ Within lo hi a x := by
  induction l with
  | nil => simp [valueAt]
  | cons a l ih =>
    by_cases ha : Within lo hi a x
    · simp [valueAt, ha]
    · simp [valueAt, ha, ih]

theorem valueAt_some {l : List α} {x : K} {b : β} (h : valueAt lo hi g l x = some b) :
    ∃ a ∈ l, Within lo hi a x ∧ g a = b := by
  induction l with
  | nil => cases h
  | cons a l ih =>
    rw [valueAt] at h
    split at h
    next ha => exact ⟨a, List.mem_cons_self, ha, Option.some.inj h⟩
    next =>
      obtain ⟨c, hc, hin, hg⟩ := ih h
      exact ⟨c, List.mem_cons_of_mem a hc, hin, hg⟩

/-- A range in the middle decides the points in it. -/
theorem valueAt_middle {l r : List α} {a : α} (h : Ordered lo hi (l++a :: r)) (x : K) :
    valueAt lo hi g (l++a :: r) x =
      if Within lo hi a x then some (g a) else valueAt lo hi g (l++r) x := by
  rw [valueAt_append, valueAt_append, valueAt]
  by_cases ha : Within lo hi a x
  · have hl : valueAt lo hi g l x = none := by
      rw [valueAt_eq_none]
      intro b hb hin
      have hba := (ordered_append.mp h).2.2 b hb a List.mem_cons_self
      exact absurd (hin.2.trans_le hba) (not_lt.mpr ha.1)
    simp [ha, hl]
  · simp [ha]

/-- In a list without overlap every range holds its own points. -/
theorem valueAt_mem {l : List α} (h : Ordered lo hi l) {a : α} (ha : a ∈ l) {x : K}
    (hx : Within lo hi a x) : valueAt lo hi g l x = some (g a) := by
  obtain ⟨s, t, rfl⟩ := List.append_of_mem ha
  rw [valueAt_middle h, if_pos hx]

/-- A range of points is vacant when the map is undefined on it. -/
theorem vacant_iff {l : List α} (h : ∀ a ∈ l, lo a < hi a) {x y : K} (hxy : x < y) :
    Vacant lo hi x y l ↔ ∀ z, x ≤ z → z < y → valueAt lo hi g l z = none := by
  constructor
  · intro hvac z hz hzy
    rw [valueAt_eq_none]
    rintro a ha ⟨hlow, hhigh⟩
    rcases hvac a ha with hle | hle
    · exact absurd (hz.trans_lt hhigh) (not_lt.mpr hle)
    · exact absurd (hlow.trans_lt hzy) (not_lt.mpr hle)
  · intro hnone a ha
    by_contra hmeet
    obtain ⟨hx, hy⟩ := not_or.mp hmeet
    rw [not_le] at hx hy
    rcases le_total x (lo a) with hle | hle
    · exact valueAt_eq_none.mp (hnone (lo a) hle hy) a ha ⟨le_rfl, h a ha⟩
    · exact valueAt_eq_none.mp (hnone x le_rfl hxy) a ha ⟨hle, hx⟩

/-! ## Joining neighbours -/

variable (lo hi g)

/-- `c` covers what `a` and `b` cover, under their common label. -/
structure Join (a b c : α) : Prop where
  meet : hi a = lo b
  start : lo c = lo a
  finish : hi c = hi b
  left : g a = g c
  right : g b = g c

/-- Two neighbours of the list become one. -/
inductive JoinStep : List α → List α → Prop
  | intro {l r : List α} {a b c : α} : Join lo hi g a b c → JoinStep (l++a :: b :: r) (l++c :: r)

variable {lo hi g}

theorem JoinStep.ordered {l m : List α} (h : JoinStep lo hi g l m) (hl : Ordered lo hi l) :
    Ordered lo hi m := by
  obtain ⟨hj⟩ := h
  rw [ordered_append, ordered_cons, ordered_cons] at hl
  obtain ⟨hfront, ⟨ha, ⟨hb, hr, hbr⟩, -⟩, hcross⟩ := hl
  rw [ordered_append, ordered_cons, hj.start, hj.finish]
  refine ⟨hfront, ⟨?_, hr, hbr⟩, ?_⟩
  · rw [hj.meet] at ha
    exact ha.trans hb
  · intro u hu v hv
    rcases List.mem_cons.mp hv with rfl | hv
    · rw [hj.start]
      exact hcross u hu _ List.mem_cons_self
    · exact hcross u hu v (by simp [hv])

theorem JoinStep.valueAt {l m : List α} (h : JoinStep lo hi g l m) (hl : ∀ a ∈ l, lo a < hi a) (x : K) :
    valueAt lo hi g m x = valueAt lo hi g l x := by
  cases h with
  | @intro l r a b c hj =>
    have ha : lo a < hi a := hl a (by simp)
    have hb : lo b < hi b := hl b (by simp)
    have hwithin : Within lo hi c x ↔ Within lo hi a x ∨ Within lo hi b x := by
      rw [Within, Within, Within, hj.start, hj.finish, hj.meet]
      rw [hj.meet] at ha
      constructor
      · rintro ⟨hlow, hhigh⟩
        rcases lt_or_ge x (lo b) with hx | hx
        · exact Or.inl ⟨hlow, hx⟩
        · exact Or.inr ⟨hx, hhigh⟩
      · rintro (⟨hlow, hhigh⟩ | ⟨hlow, hhigh⟩)
        · exact ⟨hlow, hhigh.trans hb⟩
        · exact ⟨ha.le.trans hlow, hhigh⟩
    rw [valueAt_append, valueAt_append]
    congr 1
    simp only [RangeMaps.valueAt, hwithin, hj.left, hj.right]
    by_cases hina : Within lo hi a x
    · simp [hina]
    · simp [hina]

end Maps

end BabyOS.RangeMaps

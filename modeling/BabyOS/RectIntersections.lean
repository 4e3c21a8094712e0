import BabyOS.Surfaces

/-!
# Intersections of rectangles

`rect_t::intersect` writes its result field by field into an object that may be one of
the two operands. `rect_t::has_intersection` is a copy of it that writes nothing. Both
give up when a sum or a difference is not an `int`.
-/

set_option autoImplicit false

namespace BabyOS.RectIntersections
open BabyOS.PixelGrids BabyOS.Surfaces

variable {α : Type} [DecidableEq α]

/-- The objects at their addresses. -/
abbrev Objects (α : Type) : Type := α → Rect

/-- A result of `int` arithmetic; `none` is an overflow. -/
def int (z : ℤ) : Option ℤ := if IsInt z then some z else none

def empty (r : Rect) : Bool := r.w ≤ 0 || r.h ≤ 0

/-- `lhs_min` and `lhs_max` in one direction, after the two comparisons. -/
def overlap (lhs lhsExtent rhs rhsExtent : ℤ) : Option (ℤ × ℤ) := do
  let lhsMax ← int (lhs+lhsExtent)
  let rhsMax ← int (rhs+rhsExtent)
  let lhsMin := if rhs > lhs then rhs else lhs
  let lhsMax := if rhsMax < lhsMax then rhsMax else lhsMax
  return (lhsMin, lhsMax)

def setX (a : α) (v : ℤ) (s : Objects α) : Objects α := Function.update s a { s a with x := v }
def setY (a : α) (v : ℤ) (s : Objects α) : Objects α := Function.update s a { s a with y := v }
def setW (a : α) (v : ℤ) (s : Objects α) : Objects α := Function.update s a { s a with w := v }
def setH (a : α) (v : ℤ) (s : Objects α) : Objects α := Function.update s a { s a with h := v }

/-- The answer, and the objects afterwards. -/
def intersect (lhs rhs result : α) (s : Objects α) : Option (Bool × Objects α) :=
  if empty (s lhs) || empty (s rhs) then
    some (false, setH result 0 (setW result 0 s))
  else do
    let (lhsMin, lhsMax) ← overlap (s lhs).x (s lhs).w (s rhs).x (s rhs).w
    let s := setX result lhsMin s
    let s := setW result (← int (lhsMax-lhsMin)) s
    -- The operands are read again here, after a part of the result was written.
    let (lhsMin, lhsMax) ← overlap (s lhs).y (s lhs).h (s rhs).y (s rhs).h
    let s := setY result lhsMin s
    let s := setH result (← int (lhsMax-lhsMin)) s
    return (!empty (s result), s)

def hasIntersection (lhs rhs : Rect) : Option Bool :=
  if empty lhs || empty rhs then some false
  else do
    let (lhsMin, lhsMax) ← overlap lhs.x lhs.w rhs.x rhs.w
    if lhsMax ≤ lhsMin then return false
    let (lhsMin, lhsMax) ← overlap lhs.y lhs.h rhs.y rhs.h
    if lhsMax ≤ lhsMin then return false
    return true

/-! ## What the fields hold -/

/-- The fields and the edges lie between `-2^30` and `2^30`. -/
structure Bounded (r : Rect) : Prop where
  x : -2^30 ≤ r.x ∧ r.x ≤ 2^30
  y : -2^30 ≤ r.y ∧ r.y ≤ 2^30
  w : -2^30 ≤ r.w ∧ r.w ≤ 2^30
  h : -2^30 ≤ r.h ∧ r.h ≤ 2^30
  right : -2^30 ≤ r.x+r.w ∧ r.x+r.w ≤ 2^30
  bottom : -2^30 ≤ r.y+r.h ∧ r.y+r.h ≤ 2^30

theorem empty_iff (r : Rect) : empty r = true ↔ ¬ ∃ x y, r.Has x y := by
  rw [Rect.has_some, empty, Bool.or_eq_true, decide_eq_true_iff, decide_eq_true_iff]
  omega

theorem int_some {z : ℤ} (h : IsInt z) : int z = some z := if_pos h

theorem overlap_eq {a m b n : ℤ} (ha : IsInt (a+m)) (hb : IsInt (b+n)) :
    overlap a m b n = some (max a b, min (a+m) (b+n)) := by
  have hmin : (if b > a then b else a) = max a b := by
    split <;> omega
  have hmax : (if b+n < a+m then b+n else a+m) = min (a+m) (b+n) := by
    split <;> omega
  rw [overlap, int_some ha, int_some hb]
  change some (ite _ _ _, ite _ _ _) = _
  rw [hmin, hmax]

/-- Between the corner of one and the end of the other. -/
theorem span_int {a m b n : ℤ} (ha : -2^30 ≤ a ∧ a ≤ 2^30) (hb : -2^30 ≤ b ∧ b ≤ 2^30)
    (hm : 0 < m ∧ m ≤ 2^30) (hn : 0 < n) (ham : a+m ≤ 2^30) (hbn : b+n ≤ 2^30) :
    IsInt (min (a+m) (b+n)-max a b) := by
  have hlow : -2^30 ≤ min (a+m) (b+n) := by omega
  have hhigh : min (a+m) (b+n) ≤ 2^30 := by omega
  have hcorner : -2^30 ≤ max a b := by omega
  have hend : max a b ≤ 2^30 := by omega
  have hneg : -2^31 ≤ min (a+m) (b+n)-max a b := by omega
  have hpos : min (a+m) (b+n)-max a b ≤ m := by omega
  exact ⟨hneg, by omega⟩

section Operands

variable {a b : Rect}

theorem Bounded.ints (ha : Bounded a) : IsInt (a.x+a.w) ∧ IsInt (a.y+a.h) := by
  have hx := ha.right
  have hy := ha.bottom
  simp only [IsInt]
  omega

/-- The extents of the result are `int`s too, also where they are negative. -/
theorem meet_ints (ha : Bounded a) (hb : Bounded b) (hane : ¬ empty a = true) (hbne : ¬ empty b = true) :
    IsInt (a.meet b).w ∧ IsInt (a.meet b).h := by
  have hpa := (Rect.has_some a).mp (not_not.mp fun h => hane ((empty_iff a).mpr h))
  have hpb := (Rect.has_some b).mp (not_not.mp fun h => hbne ((empty_iff b).mpr h))
  exact ⟨span_int ha.x hb.x ⟨hpa.1, ha.w.2⟩ hpb.1 ha.right.2 hb.right.2,
    span_int ha.y hb.y ⟨hpa.2, ha.h.2⟩ hpb.2 ha.bottom.2 hb.bottom.2⟩

end Operands

/-! ## Both functions -/

section Calls

variable {s : Objects α} {lhs rhs : α}

/-- The objects after the four stores. -/
def stored (result : α) (r : Rect) (s : Objects α) : Objects α := Function.update s result r

theorem stored_eq (result : α) (x y w h : ℤ) (s : Objects α) :
    setH result h (setY result y (setW result w (setX result x s))) = stored result ⟨x, y, w, h⟩ s := by
  simp [setH, setY, setW, setX, stored]

/-- The first two stores leave the fields of the second direction. -/
theorem first_keeps (result a : α) (x w : ℤ) (s : Objects α) :
    (setW result w (setX result x s) a).y = (s a).y ∧ (setW result w (setX result x s) a).h = (s a).h := by
  by_cases h : a = result
  · subst h
    simp [setW, setX]
  · simp [setW, setX, h]

theorem intersect_empty (result : α) (h : (empty (s lhs) || empty (s rhs)) = true) :
    intersect lhs rhs result s = some (false, setH result 0 (setW result 0 s)) := if_pos h

/-- Whichever object the result is. -/
theorem intersect_meets (result : α) (ha : Bounded (s lhs)) (hb : Bounded (s rhs))
    (hane : ¬ empty (s lhs) = true) (hbne : ¬ empty (s rhs) = true) :
    intersect lhs rhs result s =
      some (!empty ((s lhs).meet (s rhs)), stored result ((s lhs).meet (s rhs)) s) := by
  have hw : int (min ((s lhs).x+(s lhs).w) ((s rhs).x+(s rhs).w)-max (s lhs).x (s rhs).x) =
      some ((s lhs).meet (s rhs)).w := int_some (meet_ints ha hb hane hbne).1
  have hh : int (min ((s lhs).y+(s lhs).h) ((s rhs).y+(s rhs).h)-max (s lhs).y (s rhs).y) =
      some ((s lhs).meet (s rhs)).h := int_some (meet_ints ha hb hane hbne).2
  have hside := overlap_eq ha.ints.1 hb.ints.1
  have hdown := overlap_eq ha.ints.2 hb.ints.2
  have hown : ∀ r : Rect, stored result r s result = r := fun r => Function.update_self _ _ _
  rw [intersect, if_neg (by simp [hane, hbne])]
  simp only [Option.bind_eq_bind, hside, hw, first_keeps, hdown, hh, Option.bind_some, stored_eq, hown]
  rfl

theorem hasIntersection_meets {a b : Rect} (ha : Bounded a) (hb : Bounded b)
    (hane : ¬ empty a = true) (hbne : ¬ empty b = true) :
    hasIntersection a b = some (!empty (a.meet b)) := by
  have hside := overlap_eq ha.ints.1 hb.ints.1
  have hdown := overlap_eq ha.ints.2 hb.ints.2
  have hw : (a.meet b).w ≤ 0 ↔ min (a.x+a.w) (b.x+b.w) ≤ max a.x b.x := sub_nonpos
  have hh : (a.meet b).h ≤ 0 ↔ min (a.y+a.h) (b.y+b.h) ≤ max a.y b.y := sub_nonpos
  rw [hasIntersection, if_neg (by simp [hane, hbne])]
  simp only [Option.bind_eq_bind, hside, hdown, Option.bind_some, empty, hw, hh]
  split
  · simp [*]
  · split <;> simp [*]

/-- The common points, with the emptiness of the two operands. -/
theorem common_nonempty {a b : Rect} :
    (∃ x y, a.Has x y ∧ b.Has x y) → ¬ empty a = true ∧ ¬ empty b = true := by
  rintro ⟨x, y, ha, hb⟩
  simp only [empty_iff, not_not]
  exact ⟨⟨x, y, ha⟩, x, y, hb⟩

/-- `intersect` answers whether there is a common point, and then leaves the rectangle of
the common points in its result, which may be either operand; no other object changes.
`has_intersection` answers the same. -/
theorem rect_intersections (s : Objects α) (lhs rhs result : α) (ha : Bounded (s lhs)) (hb : Bounded (s rhs)) :
    ∃ (found : Bool) (s' : Objects α), intersect lhs rhs result s = some (found, s') ∧
      (found = true ↔ ∃ x y, (s lhs).Has x y ∧ (s rhs).Has x y) ∧
      (found = true → ∀ x y, (s' result).Has x y ↔ (s lhs).Has x y ∧ (s rhs).Has x y) ∧
      (∀ a, a ≠ result → s' a = s a) ∧
      hasIntersection (s lhs) (s rhs) = some found := by
  by_cases hempty : (empty (s lhs) || empty (s rhs)) = true
  · refine ⟨false, _, intersect_empty result hempty, ?_, fun h => (nomatch h), ?_, if_pos hempty⟩
    · simp only [Bool.false_eq_true, false_iff]
      intro hcommon
      have hne := common_nonempty hcommon
      simp [hne.1, hne.2] at hempty
    · intro a hne
      simp [setH, setW, hne]
  · have hane : ¬ empty (s lhs) = true := fun h => hempty (by simp [h])
    have hbne : ¬ empty (s rhs) = true := fun h => hempty (by simp [h])
    refine ⟨_, _, intersect_meets result ha hb hane hbne, ?_, fun _ => ?_, ?_,
      hasIntersection_meets ha hb hane hbne⟩
    · rw [Bool.not_eq_true', ← Bool.not_eq_true, empty_iff, not_not]
      simp only [Rect.has_meet]
    · intro x y
      rw [stored, Function.update_self]
      exact Rect.has_meet
    · intro a hne
      exact Function.update_of_ne hne _ _

/-- Two objects, the second of which is also the result. -/
theorem overwritten_operand :
    ∃ s' : Objects Bool, intersect false true true (fun a => if a then ⟨2, -1, 9, 3⟩ else ⟨0, 0, 4, 4⟩) = some (true, s') ∧
      ∀ x y, (s' true).Has x y ↔ (⟨0, 0, 4, 4⟩ : Rect).Has x y ∧ (⟨2, -1, 9, 3⟩ : Rect).Has x y := by
  obtain ⟨found, s', hrun, hfound, hhas, -, -⟩ := rect_intersections (α := Bool)
    (fun a => if a then ⟨2, -1, 9, 3⟩ else ⟨0, 0, 4, 4⟩) false true true
    ⟨by decide, by decide, by decide, by decide, by decide, by decide⟩
    ⟨by decide, by decide, by decide, by decide, by decide, by decide⟩
  have htrue : found = true := hfound.mpr ⟨2, 0, by decide, by decide⟩
  rw [htrue] at hrun
  exact ⟨s', hrun, hhas htrue⟩

end Calls

end BabyOS.RectIntersections

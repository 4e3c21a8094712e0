import Mathlib

/-!
# Rectangles and rows of pixels

Rectangles of the integer plane by their points, and pictures whose rows lie one after
another in memory.
-/

set_option autoImplicit false

namespace BabyOS.PixelGrids

/-! ## Rectangles -/

/-- A corner and two extents, which may be negative. -/
structure Rect where
  x : ℤ
  y : ℤ
  w : ℤ
  h : ℤ
deriving DecidableEq

/-- A point of the rectangle. -/
def Rect.Has (r : Rect) (x y : ℤ) : Prop := (r.x ≤ x ∧ x < r.x+r.w) ∧ (r.y ≤ y ∧ y < r.y+r.h)

instance (r : Rect) (x y : ℤ) : Decidable (r.Has x y) := inferInstanceAs (Decidable (_ ∧ _))

namespace Rect

variable {a b : Rect} {x y : ℤ}

/-- From the larger of the two corners to the smaller of the two ends, which may lie before it. -/
def meet (a b : Rect) : Rect where
  x := max a.x b.x
  y := max a.y b.y
  w := min (a.x+a.w) (b.x+b.w)-max a.x b.x
  h := min (a.y+a.h) (b.y+b.h)-max a.y b.y

theorem has_meet : (a.meet b).Has x y ↔ a.Has x y ∧ b.Has x y := by
  simp only [Has, meet]
  omega

/-- A rectangle has a point when both extents are positive: its corner. -/
theorem has_some (r : Rect) : (∃ x y, r.Has x y) ↔ 0 < r.w ∧ 0 < r.h := by
  constructor
  · rintro ⟨x, y, hx, hy⟩
    omega
  · rintro ⟨hw, hh⟩
    have hcorner : r.Has r.x r.y := by
      simp only [Has]
      omega
    exact ⟨r.x, r.y, hcorner⟩

end Rect

/-! ## Pictures -/

/-- `pitch` bytes for a row of `width` pixels of `depth` bytes. -/
structure Grid where
  width : ℕ
  height : ℕ
  depth : ℕ
  pitch : ℕ
  row : depth*width ≤ pitch

namespace Grid

variable {g : Grid} {x x' y y' n k o : ℕ}

/-- Where a pixel begins. -/
def place (g : Grid) (x y : ℕ) : ℕ := g.pitch*y+g.depth*x

/-- The byte belongs to the pixel. -/
def Holds (g : Grid) (x y o : ℕ) : Prop := g.place x y ≤ o ∧ o < g.place x y+g.depth

theorem row_end (hx : x+n ≤ g.width) : g.place x y+g.depth*n ≤ g.pitch*(y+1) := by
  have hle : g.depth*(x+n) ≤ g.depth*g.width := Nat.mul_le_mul_left _ hx
  have hrow := g.row
  rw [Nat.mul_add] at hle
  rw [place, Nat.mul_succ]
  omega

/-- Some pixels of a row lie in the picture. -/
theorem span_end (hx : x+n ≤ g.width) (hy : y < g.height) : g.place x y+g.depth*n ≤ g.pitch*g.height :=
  (row_end hx).trans (Nat.mul_le_mul_left _ hy)

/-- Which bytes of pixels are among those of `n` pixels of row `y'`. -/
theorem in_span (hx : x < g.width) (hn : x'+n ≤ g.width) (hk : k < g.depth) :
    (g.place x' y' ≤ g.place x y+k ∧ g.place x y+k < g.place x' y'+g.depth*n) ↔
      y = y' ∧ x' ≤ x ∧ x < x'+n := by
  have hend : g.place x y+g.depth*1 ≤ g.pitch*(y+1) := row_end hx
  have hend' : g.place x' y'+g.depth*n ≤ g.pitch*(y'+1) := row_end hn
  have hstart : g.pitch*y ≤ g.place x y := Nat.le_add_right _ _
  have hstart' : g.pitch*y' ≤ g.place x' y' := Nat.le_add_right _ _
  constructor
  · rintro ⟨hlow, hhigh⟩
    have hy : y = y' := by
      rcases Nat.lt_trichotomy y y' with hlt | heq | hlt
      · have hle : g.pitch*(y+1) ≤ g.pitch*y' := Nat.mul_le_mul_left _ hlt
        omega
      · exact heq
      · have hle : g.pitch*(y'+1) ≤ g.pitch*y := Nat.mul_le_mul_left _ hlt
        omega
    subst hy
    rw [place, place] at hlow hhigh
    refine ⟨rfl, ?_, ?_⟩
    · by_contra hlt
      have hle : g.depth*(x+1) ≤ g.depth*x' := Nat.mul_le_mul_left _ (not_le.mp hlt)
      rw [Nat.mul_succ] at hle
      omega
    · by_contra hge
      have hle : g.depth*(x'+n) ≤ g.depth*x := Nat.mul_le_mul_left _ (not_lt.mp hge)
      rw [Nat.mul_add] at hle
      omega
  · rintro ⟨rfl, hle, hlt⟩
    have hfirst : g.depth*x' ≤ g.depth*x := Nat.mul_le_mul_left _ hle
    have hlast : g.depth*(x+1) ≤ g.depth*(x'+n) := Nat.mul_le_mul_left _ hlt
    rw [Nat.mul_succ, Nat.mul_add] at hlast
    rw [place, place]
    omega

/-- A byte of a row's pixels belongs to one of them. -/
theorem span_pixel (hlow : g.place x y ≤ o) (hhigh : o < g.place x y+g.depth*n) :
    ∃ i < n, g.Holds (x+i) y o := by
  have hdepth : 0 < g.depth := Nat.pos_of_ne_zero fun hz => by
    rw [hz, Nat.zero_mul] at hhigh
    omega
  have hdiv := Nat.div_add_mod (o-g.place x y) g.depth
  have hmod := Nat.mod_lt (o-g.place x y) hdepth
  refine ⟨(o-g.place x y)/g.depth, ?_, ?_, ?_⟩
  · refine Nat.div_lt_of_lt_mul ?_
    omega
  · rw [place, Nat.mul_add]
    rw [place] at hdiv hlow ⊢
    omega
  · rw [place, Nat.mul_add]
    rw [place] at hdiv hlow hmod ⊢
    omega

end Grid

end BabyOS.PixelGrids

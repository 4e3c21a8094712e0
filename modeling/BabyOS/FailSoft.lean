import Mathlib.Algebra.Order.Group.Defs
import Mathlib.Data.List.Basic
import Mathlib.Order.Lattice
import Mathlib.Tactic

/-!
# Fail-soft search

A search with a window returns a bound of the value that it looks for: an upper
bound below the window, a lower bound above it, and the value itself inside. The
rules are those of a loop over the successors of a position, which looks for the
largest of their negated values and narrows the window as it goes.
-/

set_option autoImplicit false

namespace BabyOS.FailSoft

variable {α ι : Type*} [AddCommGroup α] [LinearOrder α] [IsOrderedAddMonoid α]

/-- The result `r` of a search for `v` with the window from `lo` to `hi`. -/
structure Bounds (lo hi r v : α) : Prop where
  low : r ≤ lo → v ≤ r
  high : hi ≤ r → r ≤ v
  mid : lo < r → r < hi → r = v

/-- The largest of a start value and the negated values of the successors. -/
def best (v : ι → α) (w : α) (l : List ι) : α := l.foldl (fun b c => max b (-v c)) w

variable {lo lo₀ hi r v w b x : α}

omit [AddCommGroup α] [IsOrderedAddMonoid α] in
theorem Bounds.self : Bounds lo hi r r := ⟨fun _ => le_refl r, fun _ => le_refl r, fun _ _ => rfl⟩

/-- The window of the other side. -/
theorem Bounds.neg (h : Bounds (-hi) (-lo) r v) : Bounds lo hi (-r) (-v) := by
  refine ⟨fun hle => ?_, fun hle => ?_, fun hl hh => ?_⟩
  · exact neg_le_neg (h.high (neg_le.mp hle))
  · exact neg_le_neg (h.low (le_neg.mp hle))
  · rw [h.mid (neg_lt_neg_iff.mp (by rwa [neg_neg])) (lt_neg.mp hl)]

section Rounds

omit [AddCommGroup α] [IsOrderedAddMonoid α]

/-- A successor that is not better than the best so far. -/
theorem Bounds.skip (hb : Bounds lo₀ hi b w) (hx : Bounds (max lo₀ b) hi x v) (hlt : b < hi)
    (hle : x ≤ b) : Bounds lo₀ hi b (max w v) := by
  have hv : v ≤ b := (hx.low (hle.trans (le_max_right _ _))).trans hle
  refine ⟨fun hlo => max_le (hb.low hlo) hv, fun hhi => absurd hhi (not_le.mpr hlt), fun hlo _ => ?_⟩
  have he := hb.mid hlo hlt
  rw [← he]
  exact (max_eq_left hv).symm

/-- A successor that is better, inside or below the window. -/
theorem Bounds.improve (hb : Bounds lo₀ hi b w) (hx : Bounds (max lo₀ b) hi x v) (hlt : b < x)
    (hhi : x < hi) : Bounds lo₀ hi x (max w v) := by
  refine ⟨fun hlo => ?_, fun hge => absurd hge (not_le.mpr hhi), fun hlo _ => ?_⟩
  · have hw : w ≤ x := (hb.low (hlt.le.trans hlo)).trans hlt.le
    exact max_le hw (hx.low (hlo.trans (le_max_left _ _)))
  · have hv : x = v := hx.mid (max_lt hlo hlt) hhi
    have hw : w ≤ x := by
      rcases le_or_gt b lo₀ with hble | hbgt
      · exact (hb.low hble).trans hlt.le
      · rw [← hb.mid hbgt (hlt.trans hhi)]
        exact hlt.le
    rw [← hv]
    exact (max_eq_right hw).symm

/-- A successor above the window ends the search. -/
theorem Bounds.cut (hx : Bounds lo hi x v) (hlo : lo₀ < hi) (hhi : hi ≤ x) (hw : v ≤ w) :
    Bounds lo₀ hi x w :=
  ⟨fun hle => absurd (hhi.trans hle) (not_le.mpr hlo), fun _ => (hx.high hhi).trans hw,
    fun _ hlt => absurd hhi (not_le.mpr hlt)⟩

/-- The new lower end of the window. -/
theorem narrow (hlt : b < x) : max lo₀ x = if max lo₀ b < x then x else max lo₀ b := by
  split
  · rename_i hmax
    exact max_eq_right ((le_max_left _ _).trans hmax.le)
  · rename_i hmax
    rcases max_cases lo₀ b with ⟨he, _⟩ | ⟨he, _⟩
    · rw [he] at hmax ⊢
      exact max_eq_left (not_lt.mp hmax)
    · rw [he] at hmax
      exact absurd hlt hmax

end Rounds

section Values

omit [IsOrderedAddMonoid α]

theorem le_best (val : ι → α) (w : α) (l : List ι) : w ≤ best val w l := by
  induction l generalizing w with
  | nil => exact le_refl w
  | cons c l ih => exact (le_max_left _ _).trans (ih (max w (-val c)))

theorem mem_le_best (val : ι → α) (w : α) {l : List ι} {c : ι} (hc : c ∈ l) : -val c ≤ best val w l := by
  induction l generalizing w with
  | nil => cases hc
  | cons d l ih =>
    rcases List.mem_cons.mp hc with hc | hc
    · rw [hc]
      exact (le_max_right _ _).trans (le_best val (max w (-val d)) l)
    · exact ih (max w (-val d)) hc

theorem best_le (val : ι → α) {w u : α} {l : List ι} (hw : w ≤ u) (hl : ∀ c ∈ l, -val c ≤ u) :
    best val w l ≤ u := by
  induction l generalizing w with
  | nil => exact hw
  | cons c l ih =>
    exact ih (max_le hw (hl c List.mem_cons_self)) fun d hd => hl d (List.mem_cons_of_mem c hd)

/-- The order of the successors does not matter. -/
theorem best_perm (val : ι → α) (w : α) {l l' : List ι} (h : l.Perm l') : best val w l = best val w l' := by
  refine h.foldl_eq' (fun c _ d _ b => ?_) w
  rw [max_right_comm]

end Values

end BabyOS.FailSoft

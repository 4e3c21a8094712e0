import Mathlib

/-!
# Chains of indices in a table

A table gives each index the next one; a chain starts at an index and ends in a mark. Free
entries of an array are kept in such a chain: one is taken off the front or put there.
-/

set_option autoImplicit false

namespace BabyOS.IndexChains

/-- The indices from `first` on, up to `last`. -/
def Follows (table : ℕ → ℕ) (last : ℕ) : ℕ → List ℕ → Prop
  | first, [] => first = last
  | first, i :: l => first = i ∧ Follows table last (table i) l

variable {table table' : ℕ → ℕ} {last first i n : ℕ} {l : List ℕ}

/-- A chain depends on its own indices only. -/
theorem Follows.congr (h : Follows table last first l) (hsame : ∀ i ∈ l, table' i = table i) :
    Follows table' last first l := by
  induction l generalizing first with
  | nil => exact h
  | cons j l ih =>
    obtain ⟨rfl, hrest⟩ := h
    refine ⟨rfl, ?_⟩
    rw [hsame first List.mem_cons_self]
    exact ih hrest (fun i hi => hsame i (List.mem_cons_of_mem _ hi))

/-- An index is put before the chain. -/
theorem Follows.push (h : Follows table last first l) (hi : i ∉ l) :
    Follows (Function.update table i first) last i (i :: l) := by
  refine ⟨rfl, ?_⟩
  rw [Function.update_self]
  apply h.congr
  intro j hj
  apply Function.update_of_ne
  rintro rfl
  exact hi hj

theorem Follows.end_iff (h : Follows table last first l) (hl : last ∉ l) : first = last ↔ l = [] := by
  cases l with
  | nil => exact iff_of_true h rfl
  | cons i l =>
    obtain ⟨rfl, -⟩ := h
    exact iff_of_false (fun hfirst => hl (hfirst ▸ List.mem_cons_self)) (List.cons_ne_nil _ _)

/-- Every index of the table, in order. -/
theorem follows_range (count start : ℕ) (hcount : 0 < count)
    (hnext : ∀ i, start ≤ i → i+1 < start+count → table i = i+1) (hlast : table (start+count-1) = last) :
    Follows table last start (List.range' start count) := by
  induction count generalizing start with
  | zero => exact absurd hcount (Nat.lt_irrefl 0)
  | succ count ih =>
    rw [List.range'_succ]
    refine ⟨rfl, ?_⟩
    by_cases hzero : count = 0
    · subst hzero
      exact hlast
    · rw [hnext start le_rfl (by omega)]
      refine ih (start+1) (by omega) (fun i hi hlt => hnext i (by omega) (by omega)) ?_
      rw [← hlast]
      congr 1
      omega

/-- A chain without one of the `n` indices is shorter. -/
theorem length_lt (hnodup : l.Nodup) (hlt : ∀ j ∈ l, j < n) (hin : i < n) (hi : i ∉ l) : l.length < n := by
  have hsub : (i :: l).toFinset ⊆ Finset.range n := by
    intro j hj
    rw [List.mem_toFinset, List.mem_cons] at hj
    rw [Finset.mem_range]
    rcases hj with rfl | hj
    · exact hin
    · exact hlt j hj
  have hcard := Finset.card_le_card hsub
  rw [List.toFinset_card_of_nodup (List.nodup_cons.mpr ⟨hi, hnodup⟩), Finset.card_range, List.length_cons] at hcard
  exact hcard

end BabyOS.IndexChains

import Mathlib

/-!
# Lists of ranges in order

A list of records, each with a lower and an upper bound in a linear order, that
is sorted and without overlap. Every edit of such a list is a cut of the list in
two and a new middle part.
-/

set_option autoImplicit false

namespace BabyOS.OrderedRanges

section Ranges

variable {α K : Type*} [LinearOrder K] (lo hi : α → K)

/-- Every range is inhabited and ends before the next one starts. -/
def Ordered (l : List α) : Prop :=
  (∀ a ∈ l, lo a < hi a) ∧ l.Pairwise (fun a b => hi a ≤ lo b)

/-- The range `[x, y)` meets none of the list. -/
def Vacant (x y : K) (l : List α) : Prop := ∀ a ∈ l, hi a ≤ x ∨ y ≤ lo a

variable {lo hi}

theorem ordered_nil : Ordered lo hi [] := ⟨by simp, List.Pairwise.nil⟩

theorem ordered_append {l m : List α} : Ordered lo hi (l++m) ↔
    Ordered lo hi l ∧ Ordered lo hi m ∧ ∀ a ∈ l, ∀ b ∈ m, hi a ≤ lo b := by
  simp only [Ordered, List.pairwise_append, List.mem_append]
  constructor
  · rintro ⟨hlt, hl, hm, hlm⟩
    exact ⟨⟨fun a ha => hlt a (Or.inl ha), hl⟩, ⟨fun a ha => hlt a (Or.inr ha), hm⟩, hlm⟩
  · rintro ⟨⟨hlt, hl⟩, ⟨hlt', hm⟩, hlm⟩
    exact ⟨fun a ha => ha.elim (hlt a) (hlt' a), hl, hm, hlm⟩

theorem ordered_cons {a : α} {l : List α} : Ordered lo hi (a :: l) ↔
    lo a < hi a ∧ Ordered lo hi l ∧ ∀ b ∈ l, hi a ≤ lo b := by
  simp only [Ordered, List.pairwise_cons, List.mem_cons, forall_eq_or_imp]
  tauto

/-- A new middle part between two parts it lies between. -/
theorem ordered_insert {l m r : List α} (h : Ordered lo hi (l++r)) (hm : Ordered lo hi m)
    (hl : ∀ a ∈ l, ∀ b ∈ m, hi a ≤ lo b) (hr : ∀ b ∈ m, ∀ c ∈ r, hi b ≤ lo c) :
    Ordered lo hi (l++m++r) := by
  obtain ⟨hol, hor, hlr⟩ := ordered_append.mp h
  rw [ordered_append, ordered_append]
  refine ⟨⟨hol, hm, hl⟩, hor, ?_⟩
  intro a ha c hc
  rcases List.mem_append.mp ha with ha | ha
  · exact hlr a ha c hc
  · exact hr a ha c hc

theorem ordered_remove {l m r : List α} (h : Ordered lo hi (l++m++r)) : Ordered lo hi (l++r) := by
  rw [List.append_assoc, ordered_append, ordered_append] at h
  obtain ⟨hl, ⟨-, hr, -⟩, hall⟩ := h
  rw [ordered_append]
  exact ⟨hl, hr, fun a ha b hb => hall a ha b (List.mem_append_right _ hb)⟩

/-- One range gives way to ranges inside it. -/
theorem ordered_replace {l m r : List α} {a : α} (h : Ordered lo hi (l++[a]++r))
    (hm : Ordered lo hi m) (hin : ∀ b ∈ m, lo a ≤ lo b ∧ hi b ≤ hi a) :
    Ordered lo hi (l++m++r) := by
  have hrest := h
  rw [List.append_assoc, List.singleton_append, ordered_append, ordered_cons] at hrest
  obtain ⟨-, ⟨-, -, har⟩, hla⟩ := hrest
  apply ordered_insert (ordered_remove h) hm
  · exact fun b hb c hc => (hla b hb a List.mem_cons_self).trans (hin c hc).1
  · exact fun c hc b hb => (hin c hc).2.trans (har b hb)

/-- The bounds increase along the list. -/
theorem ordered_sorted {l : List α} (h : Ordered lo hi l) :
    l.Pairwise (fun a b => lo a < lo b) := by
  have hlt := h.1
  exact h.2.imp_of_mem (fun ha _ hab => (hlt _ ha).trans_le hab)

/-! ## The first range that ends after a point -/

variable (x : K)

theorem below_takeWhile (l : List α) : ∀ a ∈ l.takeWhile (fun a => ¬ x < hi a), hi a ≤ x := by
  intro a ha
  have := List.mem_takeWhile_imp ha
  simpa using this

theorem head_above {l : List α} {a : α} {rest : List α}
    (h : l.dropWhile (fun a => ¬ x < hi a) = a :: rest) : x < hi a := by
  induction l with
  | nil => cases h
  | cons b l ih =>
    by_cases hb : x < hi b
    · rw [List.dropWhile_cons_of_neg (by simpa using hb)] at h
      rwa [← (List.cons.inj h).1]
    · rw [List.dropWhile_cons_of_pos (by simpa using hb)] at h
      exact ih h

/-- Cut at a point: what ends at or before it, and what ends after it. -/
theorem cut_above {l : List α} (h : Ordered lo hi l) :
    ∀ a ∈ l.dropWhile (fun a => ¬ x < hi a), x < hi a := by
  cases hd : l.dropWhile (fun a => ¬ x < hi a) with
  | nil => simp
  | cons b rest =>
    have hb := head_above x hd
    have hcut := List.takeWhile_append_dropWhile (p := fun a => decide (¬ x < hi a)) (l := l)
    rw [hd] at hcut
    rw [← hcut, ordered_append, ordered_cons] at h
    obtain ⟨-, ⟨-, hrest, hbr⟩, -⟩ := h
    intro a ha
    rcases List.mem_cons.mp ha with rfl | ha
    · exact hb
    · exact hb.trans_le ((hbr a ha).trans (hrest.1 a ha).le)

/-- Cut at a bound: from the first range on that starts at or after it, all do. -/
theorem cut_starts {l : List α} (h : Ordered lo hi l) :
    ∀ a ∈ l.dropWhile (fun a => lo a < x), x ≤ lo a := by
  induction l with
  | nil => simp
  | cons b l ih =>
    obtain ⟨hb, hl, hbl⟩ := ordered_cons.mp h
    by_cases hx : lo b < x
    · rw [List.dropWhile_cons_of_pos (by simpa using hx)]
      exact ih hl
    · rw [List.dropWhile_cons_of_neg (by simpa using hx)]
      intro a ha
      rcases List.mem_cons.mp ha with rfl | ha
      · exact not_lt.mp hx
      · exact (not_lt.mp hx).trans (hb.le.trans (hbl a ha))

end Ranges

section Sums

variable {α : Type*} {lo hi : α → ℕ} (g : ℕ → ℕ)

/-- The values of `g` over the ranges of a list. -/
def rangeSum (lo hi : α → ℕ) (g : ℕ → ℕ) : List α → ℕ
  | [] => 0
  | v :: rest => ∑ n ∈ Finset.Ico (lo v) (hi v), g n+rangeSum lo hi g rest

/-- Ranges in order, between `a` and `b`, add up to at most the whole. -/
theorem rangeSum_le {l : List α} (h : Ordered lo hi l) {a b : ℕ} (hab : a ≤ b)
    (ha : ∀ v ∈ l, a ≤ lo v) (hb : ∀ v ∈ l, hi v ≤ b) :
    rangeSum lo hi g l ≤ ∑ n ∈ Finset.Ico a b, g n := by
  induction l generalizing a with
  | nil => exact Nat.zero_le _
  | cons v rest ih =>
    obtain ⟨hv, hrest, hnext⟩ := ordered_cons.mp h
    have hlo := ha v List.mem_cons_self
    have hhi := hb v List.mem_cons_self
    have hbelow := ih hrest hhi hnext (fun u hu => hb u (List.mem_cons_of_mem v hu))
    rw [rangeSum, ← Finset.sum_Ico_consecutive g hlo (hv.le.trans hhi),
      ← Finset.sum_Ico_consecutive g hv.le hhi]
    omega

/-- They add up to the whole when `g` is zero outside of them. -/
theorem rangeSum_eq {l : List α} (h : Ordered lo hi l) {a b : ℕ} (hab : a ≤ b)
    (ha : ∀ v ∈ l, a ≤ lo v) (hb : ∀ v ∈ l, hi v ≤ b)
    (hg : ∀ n, a ≤ n → n < b → (∀ v ∈ l, ¬ (lo v ≤ n ∧ n < hi v)) → g n = 0) :
    rangeSum lo hi g l = ∑ n ∈ Finset.Ico a b, g n := by
  induction l generalizing a with
  | nil =>
    symm
    apply Finset.sum_eq_zero
    intro n hn
    rw [Finset.mem_Ico] at hn
    exact hg n hn.1 hn.2 (by simp)
  | cons v rest ih =>
    obtain ⟨hv, hrest, hnext⟩ := ordered_cons.mp h
    have hlo := ha v List.mem_cons_self
    have hhi := hb v List.mem_cons_self
    have hbelow := ih hrest hhi hnext (fun u hu => hb u (List.mem_cons_of_mem v hu)) (by
      intro n hn hnb hout
      apply hg n (hlo.trans (hv.le.trans hn)) hnb
      intro u hu
      rcases List.mem_cons.mp hu with rfl | hu
      · omega
      · exact hout u hu)
    have hgap : ∑ n ∈ Finset.Ico a (lo v), g n = 0 := by
      apply Finset.sum_eq_zero
      intro n hn
      rw [Finset.mem_Ico] at hn
      apply hg n hn.1 (hn.2.trans (hv.trans_le hhi))
      intro u hu
      rcases List.mem_cons.mp hu with rfl | hu
      · omega
      · have := hnext u hu
        omega
    rw [rangeSum, ← Finset.sum_Ico_consecutive g hlo (hv.le.trans hhi),
      ← Finset.sum_Ico_consecutive g hv.le hhi, hgap, hbelow, zero_add]

end Sums

end BabyOS.OrderedRanges

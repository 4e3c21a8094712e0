import Mathlib

/-!
# Maps in slots

A list of slots that are empty or have a key and its value. A search takes the first
slot of the key, a new key goes into the first hole or behind the last slot, and a key is
removed by making its slot a hole.
-/

set_option autoImplicit false

namespace BabyOS.SlottedMaps

abbrev Slots (κ ν : Type) := List (Option (κ × ν))

section Slots

variable {κ ν : Type}

/-- The first hole, or the end. -/
def hole (l : Slots κ ν) : ℕ := l.findIdx fun e => e.isNone

/-- The slot `j` is written, which may be the one behind the last. -/
def put (l : Slots κ ν) (j : ℕ) (e : Option (κ × ν)) : Slots κ ν := l.take j ++ e :: l.drop (j+1)

/-- No two slots have one key, of those in `P`. -/
def Distinct (P : κ → Prop) (l : Slots κ ν) : Prop :=
  ∀ (i j : ℕ) (k : κ) (v w : ν), P k → l[i]? = some (some (k, v)) → l[j]? = some (some (k, w)) → i = j

variable {l l' : Slots κ ν} {k k' : κ} {v : ν} {i j : ℕ} {e : Option (κ × ν)} {P : κ → Prop}

theorem getElem?_put (h : j ≤ l.length) : (put l j e)[i]? = if i = j then some e else l[i]? := by
  have hlen : (l.take j).length = j := by
    rw [List.length_take, min_eq_left h]
  rw [put]
  by_cases hlt : i < j
  · rw [List.getElem?_append_left (by omega), List.getElem?_take, if_pos hlt, if_neg (by omega)]
  · rw [List.getElem?_append_right (by omega), hlen]
    by_cases hij : i = j
    · rw [hij, Nat.sub_self, List.getElem?_cons_zero, if_pos rfl]
    · have hi : i-j = (i-j-1)+1 := by omega
      rw [hi, List.getElem?_cons_succ, List.getElem?_drop, if_neg hij]
      congr 1
      omega

theorem hole_le (l : Slots κ ν) : hole l ≤ l.length := List.findIdx_le_length

theorem hole_lt : hole l < l.length ↔ none ∈ l := by
  rw [hole, List.findIdx_lt_length]
  constructor
  · rintro ⟨e, he, hnone⟩
    rwa [Option.isNone_iff_eq_none.mp hnone] at he
  · intro h
    exact ⟨none, h, rfl⟩

/-- What is written over has no key. -/
theorem getElem?_hole (l : Slots κ ν) (k : κ) (v : ν) : l[hole l]? ≠ some (some (k, v)) := by
  intro h
  obtain ⟨hlt, heq⟩ := List.getElem?_eq_some_iff.mp h
  have hnone : (l[hole l]).isNone = true := List.findIdx_getElem
  rw [heq] at hnone
  cases hnone

theorem before_hole (h : i < hole l) : ∃ x, l[i]? = some (some x) := by
  have hlt : i < l.length := Nat.lt_of_lt_of_le h (hole_le l)
  have hsome : (l[i]).isNone = false := List.not_of_lt_findIdx h
  cases hx : l[i] with
  | none =>
    rw [hx] at hsome
    cases hsome
  | some x => exact ⟨x, by rw [List.getElem?_eq_getElem hlt, hx]⟩

/-- A new key keeps the keys apart. -/
theorem Distinct.put (h : Distinct P l) (hj : j ≤ l.length)
    (habsent : P k → ∀ (i : ℕ) (w : ν), l[i]? ≠ some (some (k, w))) : Distinct P (put l j (some (k, v))) := by
  intro a b k' w w' hk ha hb
  rw [getElem?_put hj] at ha hb
  split at ha
  next haj =>
    obtain ⟨rfl, -⟩ := Prod.mk.inj (Option.some.inj (Option.some.inj ha))
    split at hb
    next hbj => rw [haj, hbj]
    next => exact absurd hb (habsent hk b w')
  next =>
    split at hb
    next =>
      obtain ⟨rfl, -⟩ := Prod.mk.inj (Option.some.inj (Option.some.inj hb))
      exact absurd ha (habsent hk a w)
    next => exact h a b k' w w' hk ha hb

theorem Distinct.clear (h : Distinct P l) (hj : j ≤ l.length) :
    Distinct P (SlottedMaps.put l j none) := by
  intro a b k' w w' hk ha hb
  rw [getElem?_put hj] at ha hb
  split at ha
  next => cases ha
  next =>
    split at hb
    next => cases hb
    next => exact h a b k' w w' hk ha hb

end Slots

/-! ## Searches -/

section Searches

variable {κ ν : Type} [DecidableEq κ]

/-- The first slot of a key, and the value. -/
def find (k : κ) : Slots κ ν → Option (ℕ × ν)
  | [] => none
  | none :: l => (find k l).map fun r => (r.1+1, r.2)
  | some (k', v) :: l => if k' = k then some (0, v) else (find k l).map fun r => (r.1+1, r.2)

variable {l l' : Slots κ ν} {k k' : κ} {v : ν} {j : ℕ} {e : Option (κ × ν)} {P : κ → Prop}

theorem find_cons_ne (h : ∀ v, e ≠ some (k, v)) :
    find k (e :: l) = (find k l).map fun r => (r.1+1, r.2) := by
  match e with
  | none => rfl
  | some (k', v') =>
    rw [find, if_neg]
    intro hk
    exact h v' (by rw [hk])

theorem find_eq_none : find k l = none ↔ ∀ (j : ℕ) (v : ν), l[j]? ≠ some (some (k, v)) := by
  induction l with
  | nil =>
    constructor
    · intro _ j v h
      rw [List.getElem?_nil] at h
      cases h
    · intro _
      rfl
  | cons e l ih =>
    by_cases he : ∃ v, e = some (k, v)
    · obtain ⟨v, rfl⟩ := he
      rw [find, if_pos rfl]
      constructor
      · intro h
        cases h
      · intro h
        exact absurd rfl (h 0 v)
    · have hne : ∀ v, e ≠ some (k, v) := fun v hc => he ⟨v, hc⟩
      rw [find_cons_ne hne, Option.map_eq_none_iff, ih]
      constructor
      · intro h j v
        cases j with
        | zero =>
          intro hc
          exact hne v (Option.some.inj hc)
        | succ j => exact h j v
      · intro h j v
        exact h (j+1) v

theorem find_eq_some : find k l = some (j, v) ↔
    l[j]? = some (some (k, v)) ∧ ∀ i < j, ∀ w : ν, l[i]? ≠ some (some (k, w)) := by
  induction l generalizing j with
  | nil =>
    rw [List.getElem?_nil]
    constructor
    · intro h
      cases h
    · intro h
      cases h.1
  | cons e l ih =>
    by_cases he : ∃ v, e = some (k, v)
    · obtain ⟨v', rfl⟩ := he
      rw [find, if_pos rfl, Option.some.injEq, Prod.mk.injEq]
      constructor
      · rintro ⟨rfl, rfl⟩
        exact ⟨rfl, fun i hi => absurd hi i.not_lt_zero⟩
      · rintro ⟨hj, hfirst⟩
        cases j with
        | zero =>
          rw [List.getElem?_cons_zero, Option.some.injEq, Option.some.injEq, Prod.mk.injEq] at hj
          exact ⟨rfl, hj.2⟩
        | succ j => exact absurd rfl (hfirst 0 (Nat.succ_pos j) v')
    · have hne : ∀ v, e ≠ some (k, v) := fun v hc => he ⟨v, hc⟩
      rw [find_cons_ne hne, Option.map_eq_some_iff]
      cases j with
      | zero =>
        constructor
        · rintro ⟨r, -, hr⟩
          exact absurd (congrArg Prod.fst hr) (Nat.succ_ne_zero _)
        · intro h
          exact absurd (Option.some.inj h.1) (hne v)
      | succ j =>
        have hrest : (∃ r, find k l = some r ∧ (r.1+1, r.2) = (j+1, v)) ↔ find k l = some (j, v) := by
          constructor
          · rintro ⟨⟨a, b⟩, ha, hr⟩
            obtain ⟨haj, rfl⟩ := Prod.mk.inj hr
            obtain rfl : a = j := Nat.succ.inj haj
            exact ha
          · intro h
            exact ⟨_, h, rfl⟩
        rw [hrest, ih]
        constructor
        · rintro ⟨hj, hfirst⟩
          refine ⟨hj, fun i hi w => ?_⟩
          cases i with
          | zero =>
            intro hc
            exact hne w (Option.some.inj hc)
          | succ i => exact hfirst i (Nat.lt_of_succ_lt_succ hi) w
        · rintro ⟨hj, hfirst⟩
          exact ⟨hj, fun i hi w => hfirst (i+1) (Nat.succ_lt_succ hi) w⟩

/-- A search sees the slots of its key only. -/
theorem find_congr (h : ∀ (j : ℕ) (v : ν), l[j]? = some (some (k, v)) ↔ l'[j]? = some (some (k, v))) :
    find k l = find k l' := by
  cases hfind : find k l with
  | none =>
    rw [find_eq_none] at hfind
    rw [Eq.comm, find_eq_none]
    intro j v hc
    exact hfind j v ((h j v).mpr hc)
  | some r =>
    obtain ⟨hr, hfirst⟩ := find_eq_some.mp hfind
    rw [Eq.comm, find_eq_some]
    refine ⟨(h _ _).mp hr, fun i hi w hc => ?_⟩
    exact hfirst i hi w ((h i w).mpr hc)

theorem find_put_self (hj : j ≤ l.length) (h : find k l = none) :
    find k (put l j (some (k, v))) = some (j, v) := by
  rw [find_eq_none] at h
  rw [find_eq_some, getElem?_put hj, if_pos rfl]
  refine ⟨rfl, fun i hi w => ?_⟩
  rw [getElem?_put hj, if_neg (by omega)]
  exact h i w

/-- Another key is found as before, if the slot neither had it nor gets it. -/
theorem find_put_other (hj : j ≤ l.length) (hold : ∀ w : ν, l[j]? ≠ some (some (k, w)))
    (hnew : ∀ w, e ≠ some (k, w)) : find k (put l j e) = find k l := by
  apply find_congr
  intro i w
  rw [getElem?_put hj]
  by_cases hij : i = j
  · rw [if_pos hij, hij]
    constructor
    · intro hc
      exact absurd (Option.some.inj hc) (hnew w)
    · intro hc
      exact absurd hc (hold w)
  · rw [if_neg hij]

theorem find_clear_self (h : Distinct P l) (hk : P k) (hj : find k l = some (j, v)) :
    find k (put l j none) = none := by
  obtain ⟨hslot, -⟩ := find_eq_some.mp hj
  have hle : j ≤ l.length := Nat.le_of_lt (List.getElem?_eq_some_iff.mp hslot).1
  rw [find_eq_none]
  intro i w
  rw [getElem?_put hle]
  by_cases hij : i = j
  · rw [if_pos hij]
    intro hc
    cases hc
  · rw [if_neg hij]
    intro hc
    exact hij (h i j k w v hk hc hslot)

theorem find_clear_other (h : k ≠ k') (hj : find k l = some (j, v)) :
    find k' (put l j none) = find k' l := by
  obtain ⟨hslot, -⟩ := find_eq_some.mp hj
  have hle : j ≤ l.length := Nat.le_of_lt (List.getElem?_eq_some_iff.mp hslot).1
  apply find_put_other hle
  · intro w hc
    rw [hslot] at hc
    exact h (Prod.mk.inj (Option.some.inj (Option.some.inj hc))).1
  · intro w hc
    cases hc

end Searches

end BabyOS.SlottedMaps

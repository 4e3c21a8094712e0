import Mathlib

/-!
# Gregorian dates

Days counted by the leap-year rule, in closed form for years and by summing for
months. A day has exactly one date.
-/

set_option autoImplicit false

namespace BabyOS.GregorianDates

/-- Every fourth year, but of the centuries only every fourth. -/
def Leap (y : ℕ) : Prop := y%4 = 0 ∧ (y%100 ≠ 0 ∨ y%400 = 0)

instance (y : ℕ) : Decidable (Leap y) := inferInstanceAs (Decidable (_ ∧ _))

def yearLength (y : ℕ) : ℕ := if Leap y then 366 else 365

def monthLengths (y : ℕ) : List ℕ := [31, if Leap y then 29 else 28, 31, 30, 31, 30, 31, 31, 30, 31, 30, 31]

/-- A date, with months and days from 1 on. -/
structure Date where
  year : ℕ
  month : ℕ
  day : ℕ
deriving DecidableEq, Repr

structure Date.Valid (d : Date) : Prop where
  year : 1 ≤ d.year
  month : 1 ≤ d.month ∧ d.month ≤ 12
  day : 1 ≤ d.day ∧ d.day ≤ (monthLengths d.year).getD (d.month-1) 0

/-- The days before a year, from the first of January of the year 1 on. -/
def daysBefore (y : ℕ) : ℕ := 365*(y-1)+(y-1)/4-(y-1)/100+(y-1)/400

/-- The days of a year before its month. -/
def daysBeforeMonth (y m : ℕ) : ℕ := ((monthLengths y).take (m-1)).sum

def Date.dayOfYear (d : Date) : ℕ := daysBeforeMonth d.year d.month+(d.day-1)

def Date.number (d : Date) : ℕ := daysBefore d.year+d.dayOfYear

/-- Sunday is 0; the first of January of the year 1 was a Monday. -/
def Date.weekday (d : Date) : ℕ := (d.number+1)%7

/-! ## Years -/

/-- A division by a period grows by one where the period ends. -/
theorem div_succ (n c : ℕ) : (n+1)/c = n/c+if (n+1)%c = 0 then 1 else 0 := by
  rw [Nat.succ_div]
  congr 1
  exact if_congr Nat.dvd_iff_mod_eq_zero rfl rfl

theorem daysBefore_succ {y : ℕ} (hy : 1 ≤ y) : daysBefore (y+1) = daysBefore y+yearLength y := by
  obtain ⟨n, rfl⟩ : ∃ n, y = n+1 := ⟨y-1, by omega⟩
  have h4 := div_succ n 4
  have h100 := div_succ n 100
  have h400 := div_succ n 400
  have hle : n/100 ≤ n/4 := Nat.div_le_div_left (by decide) (by decide)
  have hsub : (n+1)%400 = 0 → (n+1)%100 = 0 := fun h => by omega
  have hsub' : (n+1)%100 = 0 → (n+1)%4 = 0 := fun h => by omega
  rw [daysBefore, daysBefore, yearLength, Nat.add_sub_cancel, Nat.add_sub_cancel, h4, h100, h400]
  have hleap : Leap (n+1) ↔ (n+1)%4 = 0 ∧ ((n+1)%100 ≠ 0 ∨ (n+1)%400 = 0) := Iff.rfl
  generalize n/4 = a at *
  generalize n/100 = b at *
  generalize n/400 = c at *
  by_cases c4 : (n+1)%4 = 0
  · by_cases c100 : (n+1)%100 = 0
    · by_cases c400 : (n+1)%400 = 0
      · rw [if_pos c4, if_pos c100, if_pos c400, if_pos (hleap.mpr ⟨c4, .inr c400⟩)]
        omega
      · rw [if_pos c4, if_pos c100, if_neg c400, if_neg fun h => (hleap.mp h).2.elim (fun hn => hn c100) c400]
        omega
    · rw [if_pos c4, if_neg c100, if_neg fun h => c100 (hsub h), if_pos (hleap.mpr ⟨c4, .inl c100⟩)]
      omega
  · rw [if_neg c4, if_neg fun h => c4 (hsub' h), if_neg fun h => c4 (hsub' (hsub h)), if_neg fun h => c4 (hleap.mp h).1]
    omega

theorem yearLength_pos (y : ℕ) : 365 ≤ yearLength y := by
  rw [yearLength]
  split <;> decide

theorem daysBefore_mono {y z : ℕ} (hy : 1 ≤ y) (h : y ≤ z) : daysBefore y ≤ daysBefore z := by
  induction z, h using Nat.le_induction with
  | base => exact le_rfl
  | succ z hz ih =>
    rw [daysBefore_succ (hy.trans hz)]
    exact ih.trans (Nat.le_add_right _ _)

/-! ## Months -/

/-- The days before a month, without the leap day, beside those with it. -/
theorem daysBeforeMonth_eq (y : ℕ) {m : ℕ} (hm : 1 ≤ m ∧ m ≤ 13) :
    daysBeforeMonth y m = ([31, 28, 31, 30, 31, 30, 31, 31, 30, 31, 30, 31].take (m-1)).sum+
      if Leap y ∧ 3 ≤ m then 1 else 0 := by
  obtain ⟨hlow, hhigh⟩ := hm
  by_cases hl : Leap y
  · rw [daysBeforeMonth, monthLengths, if_pos hl]
    interval_cases m <;> simp [hl]
  · rw [daysBeforeMonth, monthLengths, if_neg hl, if_neg fun h => hl h.1]
    rfl

theorem daysBeforeMonth_succ (y : ℕ) {m : ℕ} (hm : 1 ≤ m ∧ m ≤ 12) :
    daysBeforeMonth y (m+1) = daysBeforeMonth y m+(monthLengths y).getD (m-1) 0 := by
  have hlen : (monthLengths y).length = 12 := rfl
  have hsucc : m+1-1 = m-1+1 := by omega
  rw [daysBeforeMonth, daysBeforeMonth, hsucc, List.sum_take_succ _ _ (by omega), List.getD_eq_getElem _ _ (by omega)]

theorem daysBeforeMonth_mono (y : ℕ) {m n : ℕ} (hm : 1 ≤ m) (h : m ≤ n) (hn : n ≤ 13) :
    daysBeforeMonth y m ≤ daysBeforeMonth y n := by
  induction n, h using Nat.le_induction with
  | base => exact le_rfl
  | succ n hmn ih =>
    rw [daysBeforeMonth_succ y ⟨hm.trans hmn, by omega⟩]
    exact (ih (by omega)).trans (Nat.le_add_right _ _)

theorem daysBeforeMonth_last (y : ℕ) : daysBeforeMonth y 13 = yearLength y := by
  rw [daysBeforeMonth_eq y (by omega), yearLength]
  by_cases hl : Leap y
  · rw [if_pos hl, if_pos ⟨hl, by decide⟩]
    rfl
  · rw [if_neg hl, if_neg fun h => hl h.1]
    rfl

/-! ## Dates -/

variable {d e : Date}

theorem Date.Valid.dayOfYear_lt (h : d.Valid) :
    daysBeforeMonth d.year d.month ≤ d.dayOfYear ∧ d.dayOfYear < daysBeforeMonth d.year (d.month+1) := by
  have hday := h.day
  rw [daysBeforeMonth_succ _ h.month, Date.dayOfYear]
  omega

theorem Date.Valid.number_lt (h : d.Valid) :
    daysBefore d.year ≤ d.number ∧ d.number < daysBefore (d.year+1) := by
  have hlt := h.dayOfYear_lt.2
  have hle := daysBeforeMonth_mono d.year (by omega : 1 ≤ d.month+1) (by have := h.month.2; omega : d.month+1 ≤ 13) le_rfl
  rw [daysBeforeMonth_last] at hle
  rw [daysBefore_succ h.year, Date.number]
  omega

/-- Different dates are different days. -/
theorem number_injective (hd : d.Valid) (he : e.Valid) (h : d.number = e.number) : d = e := by
  have hdn := hd.number_lt
  have hen := he.number_lt
  have hyear : d.year = e.year := by
    rcases lt_trichotomy d.year e.year with hlt | heq | hgt
    · have hmono := daysBefore_mono (by omega : 1 ≤ d.year+1) hlt
      omega
    · exact heq
    · have hmono := daysBefore_mono (by omega : 1 ≤ e.year+1) hgt
      omega
  have hsame : d.dayOfYear = e.dayOfYear := by
    rw [Date.number, Date.number, hyear] at h
    omega
  have hdm := hd.dayOfYear_lt
  have hem := he.dayOfYear_lt
  rw [hyear] at hdm
  have hmonth : d.month = e.month := by
    have hm := hd.month
    have hn := he.month
    rcases lt_trichotomy d.month e.month with hlt | heq | hgt
    · have hmono := daysBeforeMonth_mono e.year (by omega : 1 ≤ d.month+1) hlt (by omega)
      omega
    · exact heq
    · have hmono := daysBeforeMonth_mono e.year (by omega : 1 ≤ e.month+1) hgt (by omega)
      omega
  have hday : d.day = e.day := by
    have h1 := hd.day.1
    have h2 := he.day.1
    rw [Date.dayOfYear, Date.dayOfYear, hyear, hmonth] at hsame
    omega
  cases d
  cases e
  simp only at hyear hmonth hday
  rw [hyear, hmonth, hday]

end BabyOS.GregorianDates

import BabyOS.GregorianDates

/-!
# Calendar time

`time_to_tm` and `mktime` of the C library. An `int` wraps where a `time_t` is
stored into one. `localtime` is `time_to_tm` on a buffer of its own.
-/

set_option autoImplicit false

namespace BabyOS.CalendarTime
open BabyOS.GregorianDates

/-- The fields of `struct tm`; nobody sets `tm_isdst`. -/
structure Tm where
  sec : ℤ
  min : ℤ
  hour : ℤ
  mday : ℤ
  mon : ℤ
  year : ℤ
  wday : ℤ
  yday : ℤ
deriving DecidableEq, Repr

def int (x : ℤ) : ℤ := Int.bmod x (2^32)

def isLeapYear (year : ℤ) : Bool := year.tmod 4 = 0 && (year.tmod 100 ≠ 0 || year.tmod 400 = 0)

def daysPerMonth : List ℤ := [31, 28, 31, 30, 31, 30, 31, 31, 30, 31, 30, 31]

def secondsPerDay : ℤ := 60*60*24

def daysOf (year : ℤ) : ℤ := 365+(isLeapYear year).toInt

theorem daysOf_pos (year : ℤ) : 365 ≤ daysOf year := by
  rw [daysOf]
  cases isLeapYear year <;> decide

/-- The loop over the years: the year and the days left in it. -/
def yearFrom (year days : ℤ) : ℤ × ℤ :=
  if days ≥ daysOf year then yearFrom (year+1) (days-daysOf year) else (year, days)
termination_by days.toNat
decreasing_by
  have hpos := daysOf_pos year
  omega

/-- The loop over the months that are not the last. -/
def monthFrom : List ℤ → ℤ → ℤ → ℤ × ℤ
  | [], month, days => (month, days)
  | l :: ls, month, days => if days ≥ l then monthFrom ls (month+1) (days-l) else (month, days)

def timeToTm (t : ℤ) : Tm :=
  let days := int (t.tdiv secondsPerDay)
  let remaining := int (t.tmod secondsPerDay)
  let sec := remaining.tmod 60
  let remaining := remaining.tdiv 60
  let min := remaining.tmod 60
  let hour := remaining.tdiv 60
  let wday := (4+days).tmod 7
  let r := yearFrom 1970 days
  let year := r.1
  let days := r.2
  let yday := days
  let mday := if isLeapYear year ∧ days = 59 then 1+1 else 1
  let days := if isLeapYear year ∧ days ≥ 59 then days-1 else days
  let r := monthFrom (daysPerMonth.take 11) 0 days
  { sec, min, hour, wday, yday, year := year-1900, mon := r.1, mday := mday+r.2 }

def localtime (t : ℤ) : Tm := timeToTm t

/-- The result, and the structure with the day of the year that it sets. -/
def mktime (tm : Tm) : ℤ × Tm :=
  let seconds := tm.hour*3600+tm.min*60+tm.sec
  let days := (List.range (tm.year-70).toNat).foldl (fun (days : ℤ) (k : ℕ) => days+daysOf (1900+(70+k))) 0
  let yday := (List.range tm.mon.toNat).foldl (fun (yday : ℤ) (month : ℕ) => yday+daysPerMonth.getD month 0) (tm.mday-1)
  let days := days+yday
  (int (days*secondsPerDay+seconds), { tm with yday })

/-! ## The date of a second -/

def epoch : Date := ⟨1970, 1, 1⟩

/-- The date that a number of seconds after the first of January 1970 falls on. -/
def IsDate (t : ℤ) (d : Date) : Prop := d.Valid ∧ d.number = epoch.number+(t/86400).toNat

/-- The structure has the date and the time of day. -/
structure Shows (t : ℤ) (tm : Tm) : Prop where
  date : ∃ d : Date, IsDate t d ∧ tm.year = d.year-1900 ∧ tm.mon = d.month-1 ∧ tm.mday = d.day ∧
    tm.wday = d.weekday ∧ tm.yday = d.dayOfYear
  hour : 0 ≤ tm.hour ∧ tm.hour < 24
  min : 0 ≤ tm.min ∧ tm.min < 60
  sec : 0 ≤ tm.sec ∧ tm.sec < 60
  time : tm.hour*3600+tm.min*60+tm.sec = t%86400

/-- Behind the twenty-ninth of February of a leap year. -/
def AfterLeapDay (t : ℤ) : Prop := ∃ d, IsDate t d ∧ Leap d.year ∧ 3 ≤ d.month

/-! ## The loops -/

section Loops

variable {year month days : ℤ}

theorem int_eq {x : ℤ} (hlow : -2^31 ≤ x) (hhigh : x < 2^31) : int x = x :=
  Int.bmod_eq_of_le_mul_two (by omega) (by omega)

theorem leap_iff (y : ℕ) : isLeapYear y = true ↔ Leap y := by
  rw [isLeapYear, Leap]
  simp only [Bool.and_eq_true, Bool.or_eq_true, decide_eq_true_eq]
  have h : ∀ c : ℕ, (y : ℤ).tmod c = ((y%c : ℕ) : ℤ) := fun c => rfl
  have h4 := h 4
  have h100 := h 100
  have h400 := h 400
  push_cast at h4 h100 h400
  rw [h4, h100, h400]
  norm_cast

theorem daysOf_eq (y : ℕ) : daysOf y = yearLength y := by
  rw [daysOf, yearLength]
  by_cases hl : Leap y
  · rw [if_pos hl, (leap_iff y).mpr hl]
    rfl
  · have hf : isLeapYear y = false := by
      rw [← Bool.not_eq_true, leap_iff]
      exact hl
    rw [if_neg hl, hf]
    rfl

/-- The year that a day falls into. -/
theorem yearFrom_spec (n y : ℕ) (hy : 1 ≤ y) :
    ∃ z k : ℕ, yearFrom y n = ((z : ℤ), (k : ℤ)) ∧ y ≤ z ∧ daysBefore z+k = daysBefore y+n ∧ k < yearLength z := by
  induction n using Nat.strong_induction_on generalizing y with
  | _ n ih =>
    have hpos := yearLength_pos y
    rw [yearFrom, daysOf_eq]
    by_cases hlt : yearLength y ≤ n
    · have hcast : (n : ℤ)-(yearLength y : ℤ) = ((n-yearLength y : ℕ) : ℤ) := by omega
      obtain ⟨z, k, hz, hle, heq, hk⟩ := ih (n-yearLength y) (by omega) (y+1) (by omega)
      rw [if_pos (by exact_mod_cast hlt), hcast]
      refine ⟨z, k, hz, by omega, ?_, hk⟩
      rw [daysBefore_succ hy] at heq
      omega
    · rw [if_neg (by exact_mod_cast hlt)]
      exact ⟨y, n, rfl, le_rfl, rfl, by omega⟩

/-- The month that a day falls into, and the days left in it. -/
theorem monthFrom_list (ls : List ℕ) (m n : ℕ) :
    ∃ j k : ℕ, monthFrom (ls.map Nat.cast) m n = (((m+j : ℕ) : ℤ), (k : ℤ)) ∧ j ≤ ls.length ∧
      (ls.take j).sum+k = n ∧ (j < ls.length → k < ls.getD j 0) := by
  induction ls generalizing m n with
  | nil => exact ⟨0, n, rfl, le_rfl, Nat.zero_add n, fun h => absurd h (Nat.lt_irrefl 0)⟩
  | cons l ls ih =>
    rw [List.map_cons, monthFrom]
    by_cases hlt : l ≤ n
    · have hcast : (n : ℤ)-(l : ℤ) = ((n-l : ℕ) : ℤ) := by omega
      obtain ⟨j, k, hj, hle, hsum, hk⟩ := ih (m+1) (n-l)
      rw [if_pos (by exact_mod_cast hlt), hcast]
      refine ⟨j+1, k, ?_, Nat.succ_le_succ hle, ?_, fun h => hk (Nat.lt_of_succ_lt_succ h)⟩
      · rw [show m+(j+1) = m+1+j by omega, ← hj]
        push_cast
        rfl
      · rw [List.take_succ_cons, List.sum_cons]
        omega
    · rw [if_neg (by exact_mod_cast hlt)]
      exact ⟨0, n, rfl, Nat.zero_le _, Nat.zero_add n, fun _ => Nat.lt_of_not_le hlt⟩

def commonLengths : List ℕ := [31, 28, 31, 30, 31, 30, 31, 31, 30, 31, 30, 31]

theorem monthFrom_spec {n : ℕ} (hn : n < 365) :
    ∃ m k : ℕ, monthFrom (daysPerMonth.take 11) 0 n = ((m : ℤ), (k : ℤ)) ∧ m < 12 ∧
      (commonLengths.take m).sum+k = n ∧ k < commonLengths.getD m 0 := by
  have hlist : daysPerMonth.take 11 = (commonLengths.take 11).map Nat.cast := rfl
  obtain ⟨j, k, hj, hle, hsum, hk⟩ := monthFrom_list (commonLengths.take 11) 0 n
  have hle' : j ≤ 11 := hle
  rw [List.take_take, Nat.min_eq_left hle'] at hsum
  rw [Nat.zero_add] at hj
  refine ⟨j, k, ?_, by omega, hsum, ?_⟩
  · rw [hlist]
    exact hj
  · by_cases h11 : j = 11
    · subst h11
      have htotal : (commonLengths.take 11).sum = 334 := rfl
      have hlast : commonLengths.getD 11 0 = 31 := rfl
      omega
    · have hlt := hk (by change j < 11; omega)
      rw [List.getD_eq_getElem?_getD, List.getElem?_take_of_lt (by omega)] at hlt
      exact hlt

end Loops

/-! ## Dates -/

section Dates

variable {z k m r : ℕ} {t : ℤ}

theorem monthLengths_get (z : ℕ) (hm : m < 12) :
    (monthLengths z).getD m 0 = commonLengths.getD m 0+if Leap z ∧ m = 1 then 1 else 0 := by
  by_cases hl : Leap z
  · rw [monthLengths, if_pos hl]
    interval_cases m <;> simp [hl, commonLengths]
  · rw [monthLengths, if_neg hl, if_neg fun h => hl h.1]
    rfl

/-- January and February are the first 59 days. -/
theorem february_ends (hm : m < 12) :
    (2 ≤ m → 59 ≤ (commonLengths.take m).sum) ∧
    (m ≤ 1 → (commonLengths.take m).sum+commonLengths.getD m 0 ≤ 59) ∧
    (m = 1 → (commonLengths.take m).sum = 31 ∧ commonLengths.getD m 0 = 28) := by
  interval_cases m <;> decide

/-- The date that `time_to_tm` makes of a day of a year. -/
theorem date_valid (hz : 1 ≤ z) (hm : m < 12) (hr : r < commonLengths.getD m 0)
    (hsum : (commonLengths.take m).sum+r = if Leap z ∧ 59 ≤ k then k-1 else k) :
    (Date.mk z (m+1) ((if Leap z ∧ k = 59 then 2 else 1)+r)).Valid ∧
      (Date.mk z (m+1) ((if Leap z ∧ k = 59 then 2 else 1)+r)).dayOfYear = k := by
  have ⟨hlate, hearly, hfeb⟩ := february_ends hm
  have hlength := monthLengths_get z hm
  have hbefore := daysBeforeMonth_eq z (by omega : 1 ≤ m+1 ∧ m+1 ≤ 13)
  change daysBeforeMonth z (m+1) = (commonLengths.take m).sum+_ at hbefore
  by_cases hl : Leap z
  · by_cases h59 : k = 59
    · -- the leap day itself
      rw [if_pos ⟨hl, by omega⟩] at hsum
      have hm1 : m = 1 := by
        have hcase : m = 0 ∨ m = 1 ∨ 2 ≤ m := by omega
        rcases hcase with h0 | h1 | h2
        · subst h0
          have hzero : (commonLengths.take 0).sum = 0 := rfl
          have hjan : commonLengths.getD 0 0 = 31 := rfl
          omega
        · exact h1
        · have := hlate h2
          omega
      have ⟨hjan, h28⟩ := hfeb hm1
      rw [if_pos ⟨hl, hm1⟩] at hlength
      rw [if_neg (by omega)] at hbefore
      rw [if_pos ⟨hl, h59⟩]
      refine ⟨⟨hz, by simp only; omega, ?_⟩, ?_⟩
      · change 1 ≤ 2+r ∧ 2+r ≤ (monthLengths z).getD m 0
        omega
      · change daysBeforeMonth z (m+1)+(2+r-1) = k
        omega
    · rw [if_neg fun h => h59 h.2]
      refine ⟨⟨hz, by simp only; omega, ?_⟩, ?_⟩
      · change 1 ≤ 1+r ∧ 1+r ≤ (monthLengths z).getD m 0
        omega
      · change daysBeforeMonth z (m+1)+(1+r-1) = k
        by_cases hk : 59 ≤ k
        · rw [if_pos ⟨hl, hk⟩] at hsum
          have h2 : 2 ≤ m := by
            by_contra hn
            have := hearly (by omega)
            omega
          rw [if_pos ⟨hl, by omega⟩] at hbefore
          omega
        · rw [if_neg fun h => hk h.2] at hsum
          have h1 : ¬ 2 ≤ m := fun h => by
            have := hlate h
            omega
          rw [if_neg (by omega)] at hbefore
          omega
  · rw [if_neg fun h => hl h.1] at hsum hlength hbefore
    rw [if_neg fun h => hl h.1]
    refine ⟨⟨hz, by simp only; omega, ?_⟩, ?_⟩
    · change 1 ≤ 1+r ∧ 1+r ≤ (monthLengths z).getD m 0
      omega
    · change daysBeforeMonth z (m+1)+(1+r-1) = k
      omega

/-- The first of January 1970 was a Thursday. -/
theorem epoch_weekday (n : ℕ) : (epoch.number+n+1)%7 = (4+n)%7 := by
  have hepoch : epoch.number = 719162 := by decide +kernel
  rw [hepoch]
  omega

/-- The fields by the results of the two loops. -/
theorem timeToTm_fields {days y k m r : ℤ} (hdays : int (t.tdiv secondsPerDay) = days)
    (hyear : yearFrom 1970 days = (y, k))
    (hmonth : monthFrom (daysPerMonth.take 11) 0 (if isLeapYear y = true ∧ k ≥ 59 then k-1 else k) = (m, r)) :
    (timeToTm t).year = y-1900 ∧ (timeToTm t).mon = m ∧
      (timeToTm t).mday = (if isLeapYear y = true ∧ k = 59 then 1+1 else 1)+r ∧ (timeToTm t).yday = k ∧
      (timeToTm t).wday = (4+days).tmod 7 := by
  rw [timeToTm]
  simp only [hdays, hyear, hmonth]
  trivial

/-- What `time_to_tm` leaves in the structure. -/
theorem timeToTm_date (h0 : 0 ≤ t) (ht : t < 2^31) :
    ∃ d : Date, IsDate t d ∧ 1970 ≤ d.year ∧ (timeToTm t).year = d.year-1900 ∧ (timeToTm t).mon = d.month-1 ∧
      (timeToTm t).mday = d.day ∧ (timeToTm t).yday = d.dayOfYear ∧ (timeToTm t).wday = d.weekday := by
  obtain ⟨n, rfl⟩ := Int.eq_ofNat_of_zero_le h0
  have hdays : int ((n : ℤ).tdiv secondsPerDay) = ((n/86400 : ℕ) : ℤ) := by
    have hday : secondsPerDay = ((86400 : ℕ) : ℤ) := by decide
    rw [hday, ← Int.ofNat_tdiv]
    exact int_eq (by omega) (by omega)
  obtain ⟨z, k, hyear, hle, hsum, hk⟩ := yearFrom_spec (n/86400) 1970 (by decide)
  have hcommon : (if Leap z ∧ 59 ≤ k then k-1 else k) < 365 := by
    rw [yearLength] at hk
    by_cases hl : Leap z
    · rw [if_pos hl] at hk
      by_cases h59 : 59 ≤ k
      · rw [if_pos ⟨hl, h59⟩]
        omega
      · rw [if_neg fun h => h59 h.2]
        omega
    · rw [if_neg hl] at hk
      rw [if_neg fun h => hl h.1]
      exact hk
  obtain ⟨m, r, hmonth, hm, hmsum, hr⟩ := monthFrom_spec hcommon
  obtain ⟨hvalid, hyday⟩ := date_valid (by omega) hm hr hmsum
  have hnumber : (Date.mk z (m+1) ((if Leap z ∧ k = 59 then 2 else 1)+r)).number = epoch.number+n/86400 := by
    have hepoch : epoch.number = daysBefore 1970 := by decide +kernel
    rw [Date.number, hyday, hepoch]
    exact hsum
  have hrest : (if isLeapYear z = true ∧ (k : ℤ) ≥ 59 then (k : ℤ)-1 else k) =
      ((if Leap z ∧ 59 ≤ k then k-1 else k : ℕ) : ℤ) := by
    by_cases hc : Leap z ∧ 59 ≤ k
    · rw [if_pos ⟨(leap_iff z).mpr hc.1, by omega⟩, if_pos hc]
      omega
    · rw [if_neg fun h => hc ⟨(leap_iff z).mp h.1, by omega⟩, if_neg hc]
  have hextra : (if isLeapYear z = true ∧ (k : ℤ) = 59 then (1+1 : ℤ) else 1) =
      ((if Leap z ∧ k = 59 then 2 else 1 : ℕ) : ℤ) := by
    by_cases hc : Leap z ∧ k = 59
    · rw [if_pos ⟨(leap_iff z).mpr hc.1, by omega⟩, if_pos hc]
      rfl
    · rw [if_neg fun h => hc ⟨(leap_iff z).mp h.1, by omega⟩, if_neg hc]
      rfl
  have hyear' : yearFrom 1970 ((n/86400 : ℕ) : ℤ) = ((z : ℤ), (k : ℤ)) := hyear
  rw [← hrest] at hmonth
  obtain ⟨h1, h2, h3, h4, h5⟩ := timeToTm_fields hdays hyear' hmonth
  rw [hextra] at h3
  have hdate : ((n : ℤ)/86400).toNat = n/86400 := by omega
  refine ⟨_, ⟨hvalid, by rw [hdate]; exact hnumber⟩, hle, h1, ?_, ?_, ?_, ?_⟩
  · rw [h2]
    push_cast
    omega
  · rw [h3]
    push_cast
    rfl
  · rw [h4, hyday]
  · have hmod : (4+((n/86400 : ℕ) : ℤ)).tmod 7 = (((4+n/86400)%7 : ℕ) : ℤ) := by
      rw [Int.tmod_eq_emod_of_nonneg (by omega)]
      omega
    rw [h5, hmod, Date.weekday, hnumber, epoch_weekday]

theorem timeToTm_time (h0 : 0 ≤ t) :
    (timeToTm t).hour = t%86400/3600 ∧ (timeToTm t).min = t%86400/60%60 ∧ (timeToTm t).sec = t%86400%60 := by
  have hrem : int (t.tmod secondsPerDay) = t%86400 := by
    have hday : secondsPerDay = 86400 := by decide
    rw [hday, Int.tmod_eq_emod_of_nonneg h0]
    exact int_eq (by omega) (by omega)
  have hle : 0 ≤ t%86400 := by omega
  rw [timeToTm]
  simp only [hrem]
  generalize t%86400 = r at hle
  refine ⟨?_, ?_, ?_⟩
  · rw [Int.tdiv_eq_ediv_of_nonneg hle, Int.tdiv_eq_ediv_of_nonneg (by omega)]
    omega
  · rw [Int.tdiv_eq_ediv_of_nonneg hle, Int.tmod_eq_emod_of_nonneg (by omega)]
  · exact Int.tmod_eq_emod_of_nonneg hle

theorem timeToTm_shows (h0 : 0 ≤ t) (ht : t < 2^31) : Shows t (timeToTm t) := by
  obtain ⟨d, hd, _, hyear, hmon, hday, hyday, hwday⟩ := timeToTm_date h0 ht
  have ⟨hhour, hmin, hsec⟩ := timeToTm_time h0
  refine ⟨⟨d, hd, hyear, hmon, hday, hwday, hyday⟩, ?_, ?_, ?_, ?_⟩
  · rw [hhour]
    omega
  · rw [hmin]
    omega
  · rw [hsec]
    omega
  · rw [hhour, hmin, hsec]
    omega

/-- The years that `mktime` adds up. -/
theorem years_sum (n : ℕ) :
    (List.range n).foldl (fun (days : ℤ) (k : ℕ) => days+daysOf (1900+(70+k))) 0 =
      (daysBefore (1970+n) : ℤ)-daysBefore 1970 := by
  induction n with
  | zero => exact (sub_self _).symm
  | succ n ih =>
    have hyear : (1900+(70+(n : ℤ))) = ((1970+n : ℕ) : ℤ) := by omega
    have hstep := daysBefore_succ (by omega : 1 ≤ 1970+n)
    rw [List.range_succ, List.foldl_append, ih, List.foldl_cons, List.foldl_nil, hyear, daysOf_eq,
      ← Nat.add_assoc 1970 n 1, hstep, Nat.cast_add]
    ring

theorem months_sum (n : ℕ) (days : ℤ) (hn : n ≤ 12) :
    (List.range n).foldl (fun (yday : ℤ) (month : ℕ) => yday+daysPerMonth.getD month 0) days =
      days+((commonLengths.take n).sum : ℕ) := by
  interval_cases n <;> simp [List.range_succ, daysPerMonth, commonLengths] <;> ring

/-- `mktime` leaves out the leap day of the year itself. -/
theorem mktime_localtime (h0 : 0 ≤ t) (ht : t < 2^31) {d : Date} (hd : IsDate t d) :
    (mktime (localtime t)).1 = t-if Leap d.year ∧ 3 ≤ d.month then 86400 else 0 := by
  obtain ⟨e, he, hle, hyear, hmon, hday, _⟩ := timeToTm_date h0 ht
  have hde : d = e := number_injective hd.1 he.1 (hd.2.trans he.2.symm)
  subst hde
  have ⟨hhour, hmin, hsec⟩ := timeToTm_time h0
  have hm := hd.1.month
  have hn := hd.2
  have hd1 := hd.1.day.1
  have hbefore := daysBeforeMonth_eq d.year (by omega : 1 ≤ d.month ∧ d.month ≤ 13)
  change daysBeforeMonth d.year d.month = (commonLengths.take (d.month-1)).sum+_ at hbefore
  have hepoch : epoch.number = daysBefore 1970 := by decide +kernel
  have hcount : ((d.year : ℤ)-1900-70).toNat = d.year-1970 := by omega
  have hmonths : ((d.month : ℤ)-1).toNat = d.month-1 := by omega
  have hsum : 1970+(d.year-1970) = d.year := by omega
  have hspd : secondsPerDay = 86400 := by decide
  rw [Date.number, Date.dayOfYear, hepoch, hbefore] at hn
  rw [mktime, localtime]
  simp only [hyear, hmon, hday, hhour, hmin, hsec, hcount, hmonths, years_sum, hsum, hspd]
  rw [months_sum _ _ (by omega)]
  generalize (commonLengths.take (d.month-1)).sum = c at hn
  generalize daysBefore 1970 = b at hn
  by_cases hl : Leap d.year ∧ 3 ≤ d.month
  · rw [if_pos hl] at hn ⊢
    rw [int_eq (by omega) (by omega)]
    omega
  · rw [if_neg hl] at hn ⊢
    rw [int_eq (by omega) (by omega)]
    omega

end Dates

/-- The structure shows the date and the time of every second, and `mktime` leads
back to it if and only if it is not behind the leap day of its year. -/
theorem calendar_exact (t : ℤ) (h0 : 0 ≤ t) (ht : t < 2^31) :
    (Shows t (localtime t) ∧ (mktime (localtime t)).1 = t) ↔ ¬ AfterLeapDay t := by
  have hshows := timeToTm_shows h0 ht
  obtain ⟨d, hd, _⟩ := hshows.date
  have hback := mktime_localtime h0 ht hd
  constructor
  · rintro ⟨_, hround⟩ ⟨e, he, hl⟩
    have hde : d = e := number_injective hd.1 he.1 (hd.2.trans he.2.symm)
    subst hde
    rw [if_pos hl] at hback
    omega
  · intro hn
    rw [if_neg fun hl => hn ⟨d, hd, hl⟩, sub_zero] at hback
    exact ⟨hshows, hback⟩

/-- The last second of February 2000. -/
theorem calendar_exact_leap_day : (Shows 951868799 (localtime 951868799) ∧
    (mktime (localtime 951868799)).1 = 951868799) := by
  refine (calendar_exact 951868799 (by decide) (by decide)).mpr ?_
  rintro ⟨e, he, _, hmonth⟩
  have hday : IsDate 951868799 ⟨2000, 2, 29⟩ := ⟨⟨by decide, by decide, by decide⟩, by decide +kernel⟩
  have heq := number_injective he.1 hday.1 (he.2.trans hday.2.symm)
  rw [heq] at hmonth
  revert hmonth
  decide

/-- The first of March 1972 comes back as the twenty-ninth of February. -/
theorem march_lost : (mktime (localtime 68256000)).1 = 68256000-86400 ∧
    ¬ (Shows 68256000 (localtime 68256000) ∧ (mktime (localtime 68256000)).1 = 68256000) := by
  have hday : IsDate 68256000 ⟨1972, 3, 1⟩ := ⟨⟨by decide, by decide, by decide⟩, by decide +kernel⟩
  have hback := mktime_localtime (by decide) (by decide) hday
  rw [if_pos (by decide)] at hback
  refine ⟨hback, fun h => ?_⟩
  rw [hback] at h
  exact absurd h.2 (by decide)

end BabyOS.CalendarTime

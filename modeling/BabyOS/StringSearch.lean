import BabyOS.StringPrimitives

/-!
# Substring search

`strstr` of the C library: the inner loop goes behind the next byte that is the first
one of the text, the outer one compares what follows.
-/

set_option autoImplicit false

namespace BabyOS.StringSearch
open BabyOS.ByteWords BabyOS.StringPrimitives

/-- `do { if ((sc = *s++) == '\0') return NULL; } while (sc != c)`; the value is `s`, or
`none` for the return. -/
def findChar (m : Memory) (c : Byte) : ℕ → ℕ → Option (Scan (Option ℕ))
  | 0, _ => none
  | fuel+1, s =>
    if m s = 0 then some ⟨none, [s]⟩
    else if m s ≠ c then (findChar m c fuel (s+1)).map (Scan.after · [s])
    else some ⟨some (s+1), [s]⟩

/-- `do { ... } while (strncmp(s, find, len) != 0); s--` -/
def findText (m : Memory) (c : Byte) (find len : ℕ) : ℕ → ℕ → Option (Scan (Option ℕ))
  | 0, _ => none
  | fuel+1, s => do
    let r ← findChar m c fuel s
    match r.value with
    | none => return r
    | some s =>
      let cmp := strncmp m s find len
      if cmp.value ≠ 0 then (findText m c find len fuel s).map (Scan.after · (r.reads ++ cmp.reads))
      else return ⟨some (s-1), r.reads ++ cmp.reads⟩

def strstr (m : Memory) (s find fuel : ℕ) : Option (Scan (Option ℕ)) :=
  let c := m find
  if c ≠ 0 then do
    let len ← strlen m (find+1) fuel
    let r ← findText m c (find+1) len.value fuel s
    return r.after (find :: len.reads)
  else some ⟨some s, [find]⟩

/-! ## What is read -/

section Reads

variable {m : Memory} {s t n k : ℕ}

/-- Every address lies in one of the two strings or is that of its terminator. -/
def Within (s n t k : ℕ) (reads : List ℕ) : Prop := ∀ a ∈ reads, (s ≤ a ∧ a ≤ s+n) ∨ (t ≤ a ∧ a ≤ t+k)

theorem Within.append {l l' : List ℕ} (h : Within s n t k l) (h' : Within s n t k l') : Within s n t k (l ++ l') := by
  intro a ha
  rcases List.mem_append.mp ha with ha | ha
  · exact h a ha
  · exact h' a ha

/-- The ends of two strings. -/
theorem Within.later {s' n' t' k' : ℕ} {l : List ℕ} (h : Within s' n' t' k' l) (hs : s ≤ s') (hn : s'+n' = s+n)
    (ht : t ≤ t') (hk : t'+k' = t+k) : Within s n t k l := by
  intro a ha
  have hin := h a ha
  omega

theorem within_pair : Within s n t k [s, t] := by
  intro a ha
  simp only [List.mem_cons, List.not_mem_nil, or_false] at ha
  omega

theorem looks_within (m : Memory) : Within s n t k (looks m s t) := by
  rw [looks]
  split
  · exact within_pair
  · intro a ha
    have hin := List.mem_singleton.mp ha
    omega

theorem difference_within (m : Memory) (i : ℤ) : Within s n t k (difference m s t i).reads := by
  rw [difference]
  split
  · intro a ha
    cases ha
  · exact within_pair

theorem Same.longer (hs : StringAt m s n) (ht : StringAt m t k) (h : Same m s t) :
    ∃ n' k', n = n'+1 ∧ k = k'+1 ∧ StringAt m (s+1) n' ∧ StringAt m (t+1) k' := by
  cases n with
  | zero => exact absurd (hs.first.mpr rfl) h.1
  | succ n =>
    cases k with
    | zero => exact absurd (ht.first.mpr rfl) h.2.1
    | succ k => exact ⟨n, k, rfl, rfl, hs.rest, ht.rest⟩

theorem strncmp_within (hs : StringAt m s n) (ht : StringAt m t k) (i : ℕ) :
    Within s n t k (strncmp m s t i).reads := by
  induction i generalizing s t n k with
  | zero =>
    rw [strncmp]
    split
    · rw [if_neg (by decide)]
      exact (looks_within m).append (difference_within m _)
    · exact (looks_within m).append (difference_within m _)
  | succ i ih =>
    have hi : ((i+1 : ℕ) : ℤ)-1 = i := by push_cast; ring
    rw [strncmp]
    split
    · rename_i hsame
      obtain ⟨n', k', rfl, rfl, hs', ht'⟩ := Same.longer hs ht hsame
      rw [hi, if_pos (Int.natCast_nonneg i)]
      exact (looks_within m).append ((ih hs' ht').later (by omega) (by omega) (by omega) (by omega))
    · exact (looks_within m).append (difference_within m _)

end Reads

/-! ## The loops -/

section Loops

variable {m : Memory} {s find n k : ℕ} {c : Byte}

theorem countBytes_eq (h : StringAt m s n) (len : ℕ) {fuel : ℕ} (hlen : len+n < 2^31) (hfuel : n < fuel) :
    ∃ reads, countBytes m fuel s len = some ⟨len+n, reads⟩ ∧ ∀ a ∈ reads, s ≤ a ∧ a ≤ s+n := by
  induction n generalizing s fuel len with
  | zero =>
    obtain ⟨fuel, rfl⟩ := Nat.exists_eq_succ_of_ne_zero (Nat.ne_of_gt hfuel)
    refine ⟨[s], ?_, fun a ha => ?_⟩
    · simp [countBytes, h.first.mpr rfl]
    · have hin := List.mem_singleton.mp ha
      omega
  | succ n ih =>
    obtain ⟨fuel, rfl⟩ := Nat.exists_eq_succ_of_ne_zero (Nat.ne_of_gt (Nat.zero_lt_of_lt hfuel))
    have hne : m s ≠ 0 := fun hz => Nat.succ_ne_zero n (h.first.mp hz)
    obtain ⟨reads, hrun, hin⟩ := ih h.rest (len+1) (by omega) (Nat.lt_of_succ_lt_succ hfuel)
    refine ⟨s :: reads, ?_, fun a ha => ?_⟩
    · rw [countBytes, if_pos hne, if_pos (by omega), hrun, Option.map_some, Scan.after]
      simp only [List.singleton_append, Option.some.injEq, Scan.mk.injEq, and_true]
      omega
    · rcases List.mem_cons.mp ha with rfl | ha
      · omega
      · have hrest := hin a ha
        omega

/-- What the inner loop has found: the first place of the byte, or that there is none. -/
def NextChar (m : Memory) (c : Byte) (s n : ℕ) : Option ℕ → Prop
  | none => ∀ j < n, m (s+j) ≠ c
  | some s' => ∃ j < n, s' = s+j+1 ∧ m (s+j) = c ∧ ∀ i < j, m (s+i) ≠ c

theorem NextChar.later {v : Option ℕ} (h : NextChar m c (s+1) n v) (hc : m s ≠ c) : NextChar m c s (n+1) v := by
  have hshift : ∀ i, m (s+1+i) = m (s+(i+1)) := by
    intro i
    rw [Nat.add_assoc, Nat.add_comm 1 i]
  cases v with
  | none =>
    intro j hj
    cases j with
    | zero => exact hc
    | succ j =>
      rw [← hshift]
      exact h j (Nat.lt_of_succ_lt_succ hj)
  | some s' =>
    obtain ⟨j, hj, hs, hfound, hbefore⟩ := h
    refine ⟨j+1, Nat.succ_lt_succ hj, by omega, by rw [← hshift]; exact hfound, fun i hi => ?_⟩
    cases i with
    | zero => exact hc
    | succ i =>
      rw [← hshift]
      exact hbefore i (Nat.lt_of_succ_lt_succ hi)

theorem findChar_next (h : StringAt m s n) (c : Byte) {fuel : ℕ} (hfuel : n < fuel) :
    ∃ r, findChar m c fuel s = some r ∧ NextChar m c s n r.value ∧ ∀ a ∈ r.reads, s ≤ a ∧ a ≤ s+n := by
  induction n generalizing s fuel with
  | zero =>
    obtain ⟨fuel, rfl⟩ := Nat.exists_eq_succ_of_ne_zero (Nat.ne_of_gt hfuel)
    refine ⟨⟨none, [s]⟩, ?_, fun j hj => absurd hj (Nat.not_lt_zero j), fun a ha => ?_⟩
    · rw [findChar, if_pos (h.first.mpr rfl)]
    · have hin := List.mem_singleton.mp ha
      omega
  | succ n ih =>
    obtain ⟨fuel, rfl⟩ := Nat.exists_eq_succ_of_ne_zero (Nat.ne_of_gt (Nat.zero_lt_of_lt hfuel))
    have hne : m s ≠ 0 := fun hz => Nat.succ_ne_zero n (h.first.mp hz)
    by_cases hc : m s = c
    · refine ⟨⟨some (s+1), [s]⟩, ?_, ⟨0, Nat.succ_pos n, rfl, hc, fun i hi => absurd hi (Nat.not_lt_zero i)⟩, fun a ha => ?_⟩
      · rw [findChar, if_neg hne, if_neg (not_not.mpr hc)]
      · have hin := List.mem_singleton.mp ha
        omega
    · obtain ⟨r, hrun, hnext, hin⟩ := ih h.rest (Nat.lt_of_succ_lt_succ hfuel)
      refine ⟨r.after [s], ?_, ?_, fun a ha => ?_⟩
      · rw [findChar, if_neg hne, if_pos hc, hrun, Option.map_some]
      · exact hnext.later hc
      · rcases List.mem_cons.mp ha with rfl | ha
        · omega
        · have hrest := hin a ha
          omega

theorem suffix {j : ℕ} (h : StringAt m s n) (hj : j ≤ n) : StringAt m (s+j) (n-j) := by
  refine ⟨fun i hi => ?_, ?_, by have := h.int; omega⟩
  · rw [Nat.add_assoc]
    exact h.bytes (j+i) (by omega)
  · rw [Nat.add_assoc, Nat.add_sub_cancel' hj]
    exact h.ends

/-! ## Occurrences -/

/-- The text of `k` bytes lies at `p` in the string of `n`. -/
def Occurs (m : Memory) (s n find k p : ℕ) : Prop := s ≤ p ∧ p+k ≤ s+n ∧ ∀ i < k, m (p+i) = m (find+i)

/-- The first place of the text, or that there is none. -/
def Found (m : Memory) (s n find k : ℕ) : Option ℕ → Prop
  | none => ∀ p, ¬ Occurs m s n find k p
  | some p => Occurs m s n find k p ∧ ∀ q < p, ¬ Occurs m s n find k q

theorem Occurs.first {p : ℕ} (h : Occurs m s n find (k+1) p) : m p = m find := h.2.2 0 (Nat.succ_pos k)

/-- The bytes behind the first one decide. -/
theorem equalFor_occurs {j : ℕ} (hs : StringAt m s n) (hf : StringAt m find (k+1)) (hj : j < n) (hc : m (s+j) = m find) :
    EqualFor m (s+j+1) (find+1) k ↔ Occurs m s n find (k+1) (s+j) := by
  constructor
  · intro heq
    have hall : ∀ i < k, m (s+j+1+i) = m (find+1+i) := by
      intro i
      induction i using Nat.strong_induction_on with
      | h i ih =>
        intro hi
        refine heq i hi fun i' hi' => ?_
        rw [ih i' hi' (hi'.trans hi)]
        exact hf.rest.bytes i' (hi'.trans hi)
    have hfit : j+(k+1) ≤ n := by
      by_contra hlong
      have hend := hall (n-j-1) (by omega)
      have haddress : s+j+1+(n-j-1) = s+n := by omega
      rw [haddress, hs.ends] at hend
      exact hf.rest.bytes (n-j-1) (by omega) hend.symm
    refine ⟨Nat.le_add_right s j, by omega, fun i hi => ?_⟩
    cases i with
    | zero => exact hc
    | succ i =>
      have hbyte := hall i (Nat.lt_of_succ_lt_succ hi)
      rwa [Nat.add_assoc (s+j), Nat.add_assoc find, Nat.add_comm 1 i] at hbyte
  · intro h i hi _
    have hbyte := h.2.2 (i+1) (Nat.succ_lt_succ hi)
    rwa [← Nat.add_assoc find, Nat.add_right_comm find, ← Nat.add_assoc (s+j), Nat.add_right_comm (s+j)] at hbyte

theorem compared_iff {j : ℕ} (hs : StringAt m s n) (hf : StringAt m find (k+1)) (hj : j < n) (hc : m (s+j) = m find) :
    (strncmp m (s+j+1) (find+1) k).value = 0 ↔ Occurs m s n find (k+1) (s+j) :=
  (strncmp_zero m _ _ k).trans (equalFor_occurs hs hf hj hc)

/-- An occurrence behind the places that are none. -/
theorem Occurs.found {j : ℕ} (h : Occurs m s n find k (s+j)) (hnone : ∀ i < j, ¬ Occurs m s n find k (s+i)) :
    Found m s n find k (some (s+j)) := by
  refine ⟨h, fun q hq hoccurs => ?_⟩
  obtain ⟨i, rfl⟩ := Nat.exists_eq_add_of_le hoccurs.1
  exact hnone i (by omega) hoccurs

/-- What is found behind the places that are none. -/
theorem Found.earlier {j : ℕ} {v : Option ℕ} (hj : j ≤ n) (h : Found m (s+j) (n-j) find k v)
    (hnone : ∀ i < j, ¬ Occurs m s n find k (s+i)) : Found m s n find k v := by
  have hlater : ∀ p, Occurs m s n find k p → Occurs m (s+j) (n-j) find k p := by
    intro p hp
    have hge : s+j ≤ p := by
      obtain ⟨i, rfl⟩ := Nat.exists_eq_add_of_le hp.1
      by_contra hlt
      exact hnone i (by omega) hp
    have hend := hp.2.1
    exact ⟨hge, by omega, hp.2.2⟩
  cases v with
  | none => exact fun p hp => h p (hlater p hp)
  | some p =>
    obtain ⟨⟨hge, hend, hbytes⟩, hfirst⟩ := h
    exact ⟨⟨by omega, by omega, hbytes⟩, fun q hq hoccurs => hfirst q hq (hlater q hoccurs)⟩

/-- The outer loop. A round that does not find the text leaves a shorter string. -/
theorem findText_found (hs : StringAt m s n) (hf : StringAt m find (k+1)) {fuel : ℕ} (hfuel : n+2 ≤ fuel) :
    ∃ r, findText m (m find) (find+1) k fuel s = some r ∧ Found m s n find (k+1) r.value ∧
      Within s n (find+1) k r.reads := by
  induction n using Nat.strong_induction_on generalizing s fuel with
  | h n ih =>
    obtain ⟨fuel, rfl⟩ := Nat.exists_eq_succ_of_ne_zero (Nat.ne_of_gt (Nat.zero_lt_of_lt hfuel))
    obtain ⟨r, hrun, hnext, hin⟩ := findChar_next hs (m find) (by omega : n < fuel)
    have hreads : Within s n (find+1) k r.reads := fun a ha => .inl (hin a ha)
    rw [findText, hrun, Option.bind_eq_bind, Option.bind_some]
    cases hv : r.value with
    | none =>
      rw [hv] at hnext
      refine ⟨r, rfl, ?_, hreads⟩
      rw [hv]
      intro p hp
      have hend := hp.2.1
      obtain ⟨i, rfl⟩ := Nat.exists_eq_add_of_le hp.1
      exact hnext i (by omega) hp.first
    | some s' =>
      rw [hv] at hnext
      obtain ⟨j, hj, rfl, hc, hbefore⟩ := hnext
      have hrest := suffix hs (Nat.succ_le_of_lt hj)
      have hcmp := strncmp_within hrest hf.rest k
      have hcmpreads : Within s n (find+1) k (strncmp m (s+j+1) (find+1) k).reads :=
        hcmp.later (by omega) (by omega) le_rfl rfl
      have hskipped : ∀ i < j, ¬ Occurs m s n find (k+1) (s+i) := fun i hi h => hbefore i hi h.first
      have hcompared := compared_iff hs hf hj hc
      dsimp only
      by_cases hzero : (strncmp m (s+j+1) (find+1) k).value = 0
      · rw [if_neg (not_not.mpr hzero)]
        exact ⟨_, rfl, (hcompared.mp hzero).found hskipped, hreads.append hcmpreads⟩
      · obtain ⟨r', hrun', hfound, hreads'⟩ := ih (n-(j+1)) (by omega) hrest
          (by omega : n-(j+1)+2 ≤ fuel)
        have hrest' : findText m (m find) (find+1) k fuel (s+j+1) = some r' := hrun'
        rw [if_pos hzero, hrest', Option.map_some]
        refine ⟨_, rfl, hfound.earlier (Nat.succ_le_of_lt hj) ?_, ?_⟩
        · intro i hi
          rcases Nat.lt_succ_iff_lt_or_eq.mp hi with hlt | rfl
          · exact hskipped i hlt
          · exact mt hcompared.mpr hzero
        · exact (hreads.append hcmpreads).append (hreads'.later (by omega) (by omega) le_rfl rfl)

end Loops

section Calls

variable {m : Memory} {s find n k : ℕ}

theorem Found.value_iff {v : Option ℕ} (h : Found m s n find k v) :
    (∀ p, v = some p ↔ Occurs m s n find k p ∧ ∀ q < p, ¬ Occurs m s n find k q) ∧
      (v = none ↔ ∀ p, ¬ Occurs m s n find k p) := by
  cases v with
  | none =>
    refine ⟨fun p => ⟨fun heq => (nomatch heq), fun hp => absurd hp.1 (h p)⟩, ?_⟩
    exact ⟨fun _ => h, fun _ => rfl⟩
  | some p' =>
    refine ⟨fun p => ⟨?_, ?_⟩, fun heq => (nomatch heq), fun hnone => absurd h.1 (hnone p')⟩
    · rintro heq
      cases heq
      exact h
    · rintro ⟨hp, hfirst⟩
      rcases Nat.lt_trichotomy p p' with hlt | rfl | hgt
      · exact absurd hp (h.2 p hlt)
      · rfl
      · exact absurd h.1 (hfirst p' hgt)

theorem strstr_empty (hf : StringAt m find 0) (fuel : ℕ) : strstr m s find fuel = some ⟨some s, [find]⟩ := by
  have hz : m find = 0 := hf.first.mpr rfl
  simp [strstr, hz]

theorem strstr_found (hs : StringAt m s n) (hf : StringAt m find k) :
    ∃ r, strstr m s find (n+k+2) = some r ∧ Found m s n find k r.value ∧ Within s n find k r.reads := by
  cases k with
  | zero =>
    refine ⟨_, strstr_empty hf _, ⟨⟨le_rfl, by omega, fun i hi => absurd hi (Nat.not_lt_zero i)⟩, ?_⟩, ?_⟩
    · exact fun q hq h => absurd h.1 (not_le.mpr hq)
    · intro a ha
      have hin := List.mem_singleton.mp ha
      omega
  | succ k =>
    have hne : m find ≠ 0 := fun hz => Nat.succ_ne_zero k (hf.first.mp hz)
    have hint : 0+k < 2^31 := by
      have hlong := hf.int
      omega
    obtain ⟨reads, hlen, hin⟩ := countBytes_eq hf.rest 0 hint (by omega : k < n+(k+1)+2)
    obtain ⟨r, hrun, hfound, hreads⟩ := findText_found hs hf (by omega : n+2 ≤ n+(k+1)+2)
    rw [Nat.zero_add] at hlen
    refine ⟨r.after (find :: reads), ?_, hfound, ?_⟩
    · simp only [strstr, strlen, hlen, hrun, if_pos hne, Option.bind_eq_bind, Option.bind_some]
      rfl
    · refine Within.append ?_ (hreads.later le_rfl rfl (by omega) (by omega))
      intro a ha
      rcases List.mem_cons.mp ha with rfl | ha
      · omega
      · have hbyte := hin a ha
        omega

end Calls

/-- `strstr` ends, and returns the first place of the text, or null when there is none;
it reads the two strings and their terminators. -/
theorem strstr_first {m : Memory} {s find n k : ℕ} (hs : StringAt m s n) (hf : StringAt m find k) :
    ∃ fuel r, strstr m s find fuel = some r ∧
      (∀ p, r.value = some p ↔ Occurs m s n find k p ∧ ∀ q < p, ¬ Occurs m s n find k q) ∧
      (r.value = none ↔ ∀ p, ¬ Occurs m s n find k p) ∧
      (k = 0 → r.value = some s) ∧
      ∀ a ∈ r.reads, (s ≤ a ∧ a ≤ s+n) ∨ (find ≤ a ∧ a ≤ find+k) := by
  obtain ⟨r, hrun, hfound, hreads⟩ := strstr_found hs hf
  refine ⟨n+k+2, r, hrun, hfound.value_iff.1, hfound.value_iff.2, ?_, hreads⟩
  rintro rfl
  rw [strstr_empty hf] at hrun
  cases hrun
  rfl

/-- `aab` contains `ab`, after a byte that only looks like its beginning. -/
def repeated : Memory := fun a => ([0x61, 0x61, 0x62, 0, 0x61, 0x62, 0] : List Byte).getD a 0

theorem found_behind_prefix : ∃ fuel r, strstr repeated 0 4 fuel = some r ∧ r.value = some 1 := by
  have hs : StringAt repeated 0 3 := ⟨by decide, by decide, by decide⟩
  have hf : StringAt repeated 4 2 := ⟨by decide, by decide, by decide⟩
  obtain ⟨fuel, r, hrun, hfirst, -⟩ := strstr_first hs hf
  refine ⟨fuel, r, hrun, (hfirst 1).mpr ⟨⟨by decide, by decide, by decide⟩, fun q hq hoccurs => ?_⟩⟩
  have hzero : q = 0 := by omega
  subst hzero
  exact absurd (hoccurs.2.2 1 (by decide)) (by decide)

end BabyOS.StringSearch

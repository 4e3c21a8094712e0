import BabyOS.AreaMachine
import BabyOS.OrderedRanges

/-!
# The area list stays sorted

Inserting, cutting and growing areas, one lemma for each edit of the list.
-/

set_option autoImplicit false

namespace BabyOS.AreaInvariant
open BabyOS.BuddyMachine BabyOS.OrderedRanges BabyOS.AreaMachine

/-- Page bounds inside user memory. -/
def Bounded (v : Vma) : Prop := pageSize ∣ v.mStart ∧ pageSize ∣ v.mEnd ∧ v.mEnd ≤ userVmSize

def WellFormed (l : Areas) : Prop := Ordered Vma.mStart Vma.mEnd l ∧ ∀ v ∈ l, Bounded v

theorem wellFormed_append {l m : Areas} : WellFormed (l++m) ↔
    WellFormed l ∧ WellFormed m ∧ ∀ u ∈ l, ∀ v ∈ m, u.mEnd ≤ v.mStart := by
  simp only [WellFormed, ordered_append, List.mem_append]
  constructor
  · rintro ⟨⟨hl, hm, hlm⟩, hb⟩
    exact ⟨⟨hl, fun v hv => hb v (Or.inl hv)⟩, ⟨hm, fun v hv => hb v (Or.inr hv)⟩, hlm⟩
  · rintro ⟨⟨hl, hbl⟩, ⟨hm, hbm⟩, hlm⟩
    exact ⟨⟨hl, hm, hlm⟩, fun v hv => hv.elim (hbl v) (hbm v)⟩

theorem wellFormed_cons {v : Vma} {l : Areas} : WellFormed (v :: l) ↔
    (v.mStart < v.mEnd ∧ Bounded v) ∧ WellFormed l ∧ ∀ u ∈ l, v.mEnd ≤ u.mStart := by
  simp only [WellFormed, ordered_cons, List.mem_cons, forall_eq_or_imp]
  tauto

theorem wellFormed_nil : WellFormed [] := ⟨ordered_nil, by simp⟩

/-- One area gives way to areas inside it. -/
theorem wellFormed_replace {l m r : Areas} {v : Vma} (h : WellFormed (l++v :: r))
    (hm : WellFormed m) (hin : ∀ u ∈ m, v.mStart ≤ u.mStart ∧ u.mEnd ≤ v.mEnd) :
    WellFormed (l++m++r) := by
  have hv : l++v :: r = l++[v]++r := by simp
  rw [hv] at h
  refine ⟨ordered_replace h.1 hm.1 hin, ?_⟩
  intro u hu
  rcases List.mem_append.mp hu with hu | hu
  · rcases List.mem_append.mp hu with hu | hu
    · exact h.2 u (by simp [hu])
    · exact hm.2 u hu
  · exact h.2 u (by simp [hu])

/-! ## Page bounds -/

theorem pageAlign_dvd (x : ℕ) : pageSize ∣ pageAlign x := Dvd.intro_left _ rfl

theorem pageDown_dvd (x : ℕ) : pageSize ∣ pageDown x := Dvd.intro_left _ rfl

theorem pageDown_le (x : ℕ) : pageDown x ≤ x := Nat.div_mul_le_self x pageSize

theorem le_pageDown {a x : ℕ} (ha : pageSize ∣ a) (h : a ≤ x) : a ≤ pageDown x := by
  obtain ⟨c, rfl⟩ := ha
  rw [pageDown, mul_comm pageSize c]
  apply Nat.mul_le_mul_right
  rw [Nat.le_div_iff_mul_le (by decide), mul_comm]
  exact h

theorem userVmSize_dvd : pageSize ∣ userVmSize := by decide

/-- A length that fits between an aligned address and the end still fits after
it is aligned. -/
theorem pageAlign_le {x b : ℕ} (hb : pageSize ∣ b) (hx : x ≤ b) : pageAlign x ≤ b := by
  obtain ⟨c, rfl⟩ := hb
  have hle : (x+(pageSize-1)) % 2 ^ 64 ≤ x+(pageSize-1) := Nat.mod_le _ _
  rw [pageAlign, mul_comm pageSize c]
  apply Nat.mul_le_mul_right
  have hpos : 0 < pageSize := by decide
  apply Nat.le_of_lt_succ
  rw [Nat.div_lt_iff_lt_mul hpos, Nat.succ_mul]
  have hcomm : c*pageSize = pageSize*c := mul_comm _ _
  omega

theorem pageAlign_bounds {x : ℕ} (h : x+pageSize ≤ 2 ^ 64) : x ≤ pageAlign x ∧ pageAlign x < x+pageSize := by
  have hsmall : x+(pageSize-1) < 2 ^ 64 := by
    rw [pageSize] at h ⊢
    omega
  rw [pageAlign, Nat.mod_eq_of_lt hsmall]
  rw [pageSize] at hsmall ⊢
  omega

theorem pageAlign_wrap {x : ℕ} (h : 2 ^ 64 < x+pageSize) (hx : x < 2 ^ 64) : pageAlign x = 0 := by
  rw [pageAlign]
  rw [pageSize] at h ⊢
  omega

theorem pageAlign_of_dvd {x : ℕ} (hx : pageSize ∣ x) (h : x+pageSize ≤ 2 ^ 64) : pageAlign x = x := by
  have hlow := (pageAlign_bounds h).1
  have hhigh := pageAlign_le hx le_rfl
  omega

/-! ## Insertion -/

theorem mergeNext_wellFormed {l r : Areas} {vma : Vma} (h : WellFormed (l++vma :: r)) :
    WellFormed (l++mergeNext vma r) := by
  cases r with
  | nil => exact h
  | cons p rest =>
    rw [mergeNext]
    split
    next hmeet =>
      have hcut := h
      rw [wellFormed_append, wellFormed_cons, wellFormed_cons] at hcut
      obtain ⟨hl, ⟨⟨hv, hbv⟩, ⟨⟨hp, hbp⟩, hrest, hpr⟩, -⟩, hlv⟩ := hcut
      rw [wellFormed_append, wellFormed_cons]
      refine ⟨hl, ⟨⟨?_, hbv.1, hbp.2⟩, hrest, hpr⟩, ?_⟩
      · have := hmeet.1
        simp only
        omega
      · intro u hu v hv
        rcases List.mem_cons.mp hv with rfl | hv
        · exact hlv u hu vma List.mem_cons_self
        · exact hlv u hu v (by simp [hv])
    next => exact h

/-- The checked insertion keeps the list, whatever area is inserted. -/
theorem insertVma_wellFormed {l l' : Areas} {vma : Vma} (h : WellFormed l)
    (hv : vma.mStart < vma.mEnd) (hb : Bounded vma) (hs : insertVma l vma = some l') :
    WellFormed l' := by
  rw [insertVma] at hs
  have hcut : l.takeWhile (fun p => p.mStart < vma.mEnd)++l.dropWhile (fun p => p.mStart < vma.mEnd) = l :=
    List.takeWhile_append_dropWhile
  have hafter := cut_starts vma.mEnd h.1
  generalize l.takeWhile (fun p => p.mStart < vma.mEnd) = before at hs hcut
  generalize l.dropWhile (fun p => p.mStart < vma.mEnd) = after at hs hcut hafter
  subst hcut
  obtain ⟨hwb, hwa, hba⟩ := wellFormed_append.mp h
  have hva : WellFormed (vma :: after) := wellFormed_cons.mpr ⟨⟨hv, hb⟩, hwa, hafter⟩
  cases hlast : before.getLast? with
  | none =>
    simp only [hlast] at hs
    obtain rfl := Option.some.inj hs
    have := mergeNext_wellFormed (l := []) hva
    simpa using this
  | some prev =>
    simp only [hlast] at hs
    obtain ⟨init, rfl⟩ : ∃ init, before = init++[prev] :=
      ⟨_, (List.dropLast_append_getLast? prev hlast).symm⟩
    split at hs
    · cases hs
    next hle =>
    have hprev : prev.mEnd ≤ vma.mStart := by omega
    obtain ⟨hinit, hone, hip⟩ := wellFormed_append.mp hwb
    have hp := (wellFormed_cons.mp hone).1
    have hbefore : ∀ u ∈ init++[prev], u.mEnd ≤ vma.mStart := by
      intro u hu
      rcases List.mem_append.mp hu with hu | hu
      · exact (hip u hu prev List.mem_cons_self).trans (hp.1.le.trans hprev)
      · obtain rfl := List.mem_singleton.mp hu
        exact hprev
    split at hs
    next hmeet =>
      -- the last area before the new one grows over it
      obtain rfl := Option.some.inj hs
      rw [List.dropLast_concat]
      apply mergeNext_wellFormed
      rw [wellFormed_append, wellFormed_cons]
      refine ⟨hinit, ⟨⟨?_, hp.2.1, hb.2⟩, hwa, hafter⟩, ?_⟩
      · simp only
        omega
      · intro u hu v hv
        rcases List.mem_cons.mp hv with rfl | hv
        · exact hip u hu prev List.mem_cons_self
        · exact hba u (by simp [hu]) v hv
    next =>
      obtain rfl := Option.some.inj hs
      apply mergeNext_wellFormed
      rw [wellFormed_append]
      refine ⟨hwb, hva, ?_⟩
      intro u hu v hv
      rcases List.mem_cons.mp hv with rfl | hv
      · exact hbefore u hu
      · exact hba u hu v hv

end BabyOS.AreaInvariant

import BabyOS.AreaOperations
import BabyOS.RangeMaps

/-!
# The protection of every address

The area list as a map from addresses to the flags and the page protection of the
area they lie in, and what each edit of the list does to this map.
-/

set_option autoImplicit false

namespace BabyOS.AreaAttributes
open BabyOS.BuddyMachine BabyOS.OrderedRanges BabyOS.RangeMaps BabyOS.AreaMachine
open BabyOS.AreaInvariant BabyOS.AreaOperations

/-- Sorted by start, without overlap, every area non-empty. -/
abbrev Sorted (l : Areas) : Prop := Ordered Vma.mStart Vma.mEnd l

theorem sorted_append {l m : Areas} : Sorted (l++m) ↔
    Sorted l ∧ Sorted m ∧ ∀ u ∈ l, ∀ v ∈ m, u.mEnd ≤ v.mStart :=
  ordered_append

theorem sorted_cons {v : Vma} {l : Areas} : Sorted (v :: l) ↔
    v.mStart < v.mEnd ∧ Sorted l ∧ ∀ u ∈ l, v.mEnd ≤ u.mStart :=
  ordered_cons

def attributes (v : Vma) : ℕ × ℕ := (v.mFlags, v.mPageProt)

abbrev Contains (v : Vma) (a : ℕ) : Prop := Within Vma.mStart Vma.mEnd v a

def attributesAt (l : Areas) (a : ℕ) : Option (ℕ × ℕ) := valueAt Vma.mStart Vma.mEnd attributes l a

/-- Neighbours that meet and have the same attributes become one, any number of
times. -/
abbrev Joins : Areas → Areas → Prop :=
  Relation.ReflTransGen (JoinStep Vma.mStart Vma.mEnd attributes)

theorem joins_sorted {l m : Areas} (h : Joins l m) (hl : Sorted l) : Sorted m := by
  induction h with
  | refl => exact hl
  | tail _ hstep ih => exact hstep.ordered ih

theorem joins_attributesAt {l m : Areas} (h : Joins l m) (hl : Sorted l) (a : ℕ) :
    attributesAt m a = attributesAt l a := by
  induction h with
  | refl => rfl
  | tail hjoins hstep ih =>
    rw [← ih]
    exact hstep.valueAt (joins_sorted hjoins hl).1 a

theorem attributesAt_append (l m : Areas) (a : ℕ) :
    attributesAt (l++m) a = (attributesAt l a).or (attributesAt m a) :=
  valueAt_append l m a

theorem attributesAt_middle {l r : Areas} {v : Vma} (h : Sorted (l++v :: r)) (a : ℕ) :
    attributesAt (l++v :: r) a = if Contains v a then some (attributes v) else attributesAt (l++r) a :=
  valueAt_middle h a

/-! ## Insertion -/

theorem mergeNext_joins (l r : Areas) (vma : Vma) : Joins (l++vma :: r) (l++mergeNext vma r) := by
  cases r with
  | nil => exact Relation.ReflTransGen.refl
  | cons p rest =>
    rw [mergeNext]
    split
    next hmeet =>
      obtain ⟨hend, hprot, hflags⟩ := hmeet
      apply Relation.ReflTransGen.single
      exact JoinStep.intro ⟨hend, rfl, rfl, rfl, by simp [attributes, hprot, hflags]⟩
    next => exact Relation.ReflTransGen.refl

/-- Where the scan of `insert_vma` stops. -/
theorem insertVma_scan {l : Areas} (h : Sorted l) (vma : Vma) :
    ∃ before after, l = before++after ∧ (∀ u ∈ before, u.mStart < vma.mEnd) ∧
      (∀ u ∈ after, vma.mEnd ≤ u.mStart) ∧
      insertVma l vma = match before.getLast? with
        | none => some (mergeNext vma after)
        | some prev =>
          if prev.mEnd > vma.mStart then none
          else if prev.mEnd = vma.mStart ∧ Alike prev vma then
            some (before.dropLast++mergeNext { prev with mEnd := vma.mEnd } after)
          else some (before++mergeNext vma after) := by
  refine ⟨l.takeWhile (fun p => p.mStart < vma.mEnd), l.dropWhile (fun p => p.mStart < vma.mEnd),
    List.takeWhile_append_dropWhile.symm, ?_, cut_starts vma.mEnd h, rfl⟩
  intro u hu
  simpa using List.mem_takeWhile_imp hu

/-- The insertion is refused exactly when the new area overlaps one of the list. -/
theorem insertVma_eq_none {l : Areas} (h : Sorted l) {vma : Vma} :
    insertVma l vma = none ↔ ∃ u ∈ l, u.mStart < vma.mEnd ∧ vma.mStart < u.mEnd := by
  obtain ⟨before, after, rfl, hbefore, hafter, hinsert⟩ := insertVma_scan h vma
  rw [hinsert]
  cases hlast : before.getLast? with
  | none =>
    rw [List.getLast?_eq_none_iff] at hlast
    subst hlast
    simp only [List.nil_append, reduceCtorEq, false_iff, not_exists, not_and]
    intro u hu hlow
    exact absurd hlow (not_lt.mpr (hafter u hu))
  | some prev =>
    obtain ⟨init, rfl⟩ : ∃ init, before = init++[prev] :=
      ⟨_, (List.dropLast_append_getLast? prev hlast).symm⟩
    have hprev : prev ∈ init++[prev]++after := by simp
    constructor
    · intro hnone
      refine ⟨prev, hprev, hbefore prev (by simp), ?_⟩
      by_contra hle
      simp only [gt_iff_lt, hle, if_false] at hnone
      split at hnone <;> cases hnone
    · rintro ⟨u, hu, hlow, hhigh⟩
      -- the last area that starts below the new end reaches at least as far as `u`
      have hreach : u.mEnd ≤ prev.mEnd := by
        rcases List.mem_append.mp hu with hu | hu
        · rcases List.mem_append.mp hu with hu | hu
          · have hsorted := (ordered_append.mp (ordered_append.mp h).1).2.2
            exact (hsorted u hu prev List.mem_cons_self).trans (h.1 prev hprev).le
          · rw [List.mem_singleton.mp hu]
        · exact absurd hlow (not_lt.mpr (hafter u hu))
      exact if_pos (hhigh.trans_le hreach)

/-- The new list is the old one with the new area in its place, up to joins. -/
theorem insertVma_joins {l l' : Areas} (h : Sorted l) {vma : Vma} (hv : vma.mStart < vma.mEnd)
    (hs : insertVma l vma = some l') :
    ∃ before after, l = before++after ∧ Sorted (before++vma :: after) ∧
      Joins (before++vma :: after) l' := by
  have hfree : ∀ u ∈ l, ¬ (u.mStart < vma.mEnd ∧ vma.mStart < u.mEnd) := by
    intro u hu hmeet
    have hnone := (insertVma_eq_none h).mpr ⟨u, hu, hmeet⟩
    rw [hs] at hnone
    cases hnone
  obtain ⟨before, after, rfl, hbefore, hafter, hinsert⟩ := insertVma_scan h vma
  have hplaced : Sorted (before++vma :: after) := by
    rw [sorted_append] at h
    rw [sorted_append, sorted_cons]
    refine ⟨h.1, ⟨hv, h.2.1, hafter⟩, ?_⟩
    intro u hu v hv
    rcases List.mem_cons.mp hv with rfl | hv
    · have hmeet := hfree u (by simp [hu])
      have hlow := hbefore u hu
      omega
    · exact h.2.2 u hu v hv
  refine ⟨before, after, rfl, hplaced, ?_⟩
  rw [hinsert] at hs
  cases hlast : before.getLast? with
  | none =>
    rw [List.getLast?_eq_none_iff] at hlast
    subst hlast
    obtain rfl := Option.some.inj hs
    exact mergeNext_joins [] after vma
  | some prev =>
    simp only [hlast] at hs
    split at hs
    · cases hs
    split at hs
    next hmeet =>
      obtain ⟨hend, hprot, hflags⟩ := hmeet
      obtain ⟨init, rfl⟩ : ∃ init, before = init++[prev] :=
        ⟨_, (List.dropLast_append_getLast? prev hlast).symm⟩
      rw [List.dropLast_concat] at hs
      obtain rfl := Option.some.inj hs
      have hfirst : JoinStep Vma.mStart Vma.mEnd attributes (init++prev :: vma :: after)
          (init++{ prev with mEnd := vma.mEnd } :: after) :=
        JoinStep.intro ⟨hend, rfl, rfl, rfl, by simp [attributes, hprot, hflags]⟩
      rw [List.append_assoc, List.singleton_append]
      exact (Relation.ReflTransGen.single hfirst).trans (mergeNext_joins init after _)
    next =>
      obtain rfl := Option.some.inj hs
      exact mergeNext_joins before after vma

/-- The map after an insertion: the old map and the new area. -/
theorem insertVma_attributes {l l' : Areas} (h : Sorted l) {vma : Vma} (hv : vma.mStart < vma.mEnd)
    (hs : insertVma l vma = some l') :
    Sorted l' ∧ ∀ a, attributesAt l' a = if Contains vma a then some (attributes vma) else attributesAt l a := by
  obtain ⟨before, after, rfl, hplaced, hjoins⟩ := insertVma_joins h hv hs
  refine ⟨joins_sorted hjoins hplaced, fun a => ?_⟩
  rw [joins_attributesAt hjoins hplaced, attributesAt_middle hplaced]

/-! ## Removal -/

/-- The neighbours of an area say nothing about its addresses. -/
theorem attributesAt_around {l r : Areas} {v : Vma} (h : Sorted (l++v :: r)) {a : ℕ}
    (ha : Contains v a) : attributesAt l a = none ∧ attributesAt r a = none := by
  rw [sorted_append, sorted_cons] at h
  obtain ⟨-, ⟨-, hr, hvr⟩, hlv⟩ := h
  constructor
  · apply valueAt_eq_none.mpr
    intro u hu hin
    have hle := hlv u hu v List.mem_cons_self
    exact absurd (hin.2.trans_le hle) (not_lt.mpr ha.1)
  · apply valueAt_eq_none.mpr
    intro u hu hin
    have hle := hvr u hu
    exact absurd (ha.2.trans_le hle) (not_lt.mpr hin.1)

theorem splitVma_sorted {vma : Vma} (obj : Vma) {addr len : ℕ} (hin : vma.mStart ≤ addr)
    (hend : addr+len ≤ vma.mEnd) :
    Sorted (splitVma vma obj addr len) ∧
      ∀ u ∈ splitVma vma obj addr len, vma.mStart ≤ u.mStart ∧ u.mEnd ≤ vma.mEnd := by
  rw [splitVma]
  by_cases hfirst : vma.mStart = addr <;> by_cases hsecond : addr+len = vma.mEnd <;>
    simp [hfirst, hsecond, sorted_cons, ordered_nil] <;> omega

/-- An area is linked only if it is not empty. -/
theorem linked_attributesAt (v : Vma) (a : ℕ) :
    attributesAt (if v.mStart = v.mEnd then [] else [v]) a =
      if Contains v a then some (attributes v) else none := by
  by_cases hempty : v.mStart = v.mEnd
  · have hout : ¬ Contains v a := by
      rintro ⟨hlow, hhigh⟩
      omega
    rw [if_pos hempty, if_neg hout]
    rfl
  · rw [if_neg hempty]
    rfl

theorem splitVma_attributesAt (vma obj : Vma) (addr len a : ℕ) :
    attributesAt (splitVma vma obj addr len) a =
      if vma.mStart ≤ a ∧ a < addr then some (attributes vma)
      else if addr+len ≤ a ∧ a < vma.mEnd then some (attributes obj) else none := by
  have hfirst := linked_attributesAt { vma with mEnd := addr } a
  have hsecond := linked_attributesAt { obj with mStart := addr+len, mEnd := vma.mEnd } a
  dsimp only at hfirst hsecond
  rw [splitVma, attributesAt_append, hfirst, hsecond]
  by_cases hlow : vma.mStart ≤ a ∧ a < addr
  · have hin : Contains { vma with mEnd := addr } a := hlow
    rw [if_pos hin, if_pos hlow]
    rfl
  · have hout : ¬ Contains { vma with mEnd := addr } a := hlow
    rw [if_neg hout, if_neg hlow]
    rfl

/-- The map after `[addr, addr+len)` is cut out of an area: the part above it has
the attributes the new object had. -/
theorem cut_attributesAt {l r : Areas} {vma : Vma} (obj : Vma) (h : Sorted (l++vma :: r))
    {addr len : ℕ} (hin : vma.mStart ≤ addr) (hend : addr+len ≤ vma.mEnd) (a : ℕ) :
    attributesAt (l++splitVma vma obj addr len++r) a =
      if addr ≤ a ∧ a < addr+len then none
      else if addr+len ≤ a ∧ a < vma.mEnd then some (attributes obj)
      else attributesAt (l++vma :: r) a := by
  rw [attributesAt_append, attributesAt_append, splitVma_attributesAt]
  by_cases ha : Contains vma a
  · obtain ⟨hl, hr⟩ := attributesAt_around h ha
    rw [attributesAt_middle h, if_pos ha, hl, hr, Option.none_or, Option.or_none]
    obtain ⟨hlow, hhigh⟩ := ha
    split_ifs <;> first | rfl | omega
  · have hout : ¬ (vma.mStart ≤ a ∧ a < vma.mEnd) := ha
    have hlow : ¬ (vma.mStart ≤ a ∧ a < addr) := by omega
    have hhigh : ¬ (addr+len ≤ a ∧ a < vma.mEnd) := by omega
    have hrange : ¬ (addr ≤ a ∧ a < addr+len) := by omega
    rw [attributesAt_middle h, if_neg ha, if_neg hlow, if_neg hhigh, if_neg hrange,
      attributesAt_append, Option.or_none]
    simp only [hhigh, if_false]

/-- The area that ends at the break grows, and no new object is used. -/
theorem extendBrk_grow {l : Areas} (h : Sorted l) {addr : ℕ} (len : ℕ) {u : Vma} (hu : u ∈ l)
    (hend : u.mEnd = addr) :
    ∃ before after, l = before++u :: after ∧
      ∀ obj, extendBrk l addr len obj = before++{ u with mEnd := addr+len } :: after := by
  have hpos : u.mStart < u.mEnd := h.1 u hu
  obtain ⟨before, rest, hfind⟩ : ∃ before rest, findVma l (addr-1) = (before, rest) := ⟨_, _, rfl⟩
  cases rest with
  | nil =>
    have := findVma_none hfind u hu
    omega
  | cons p after =>
    obtain ⟨rfl, habove, hlow, -⟩ := findVma_split h hfind
    have hp : u = p := by
      have hafter := (sorted_cons.mp (sorted_append.mp h).2.1).2.2
      rcases List.mem_append.mp hu with hu | hu
      · have := hlow u hu
        omega
      · rcases List.mem_cons.mp hu with rfl | hu
        · rfl
        · have := hafter u hu
          omega
    subst hp
    refine ⟨before, after, rfl, fun obj => ?_⟩
    have haddr : addr ≠ 0 := by omega
    simp only [extendBrk, hfind, hend, haddr, ne_eq, not_false_eq_true, if_true]

end BabyOS.AreaAttributes

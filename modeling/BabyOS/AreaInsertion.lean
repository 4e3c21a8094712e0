import BabyOS.AreaLinks

/-!
# `insert_vma` on linked objects

Linking the new object between two cut halves of the list, and joining two
neighbours of which the second is freed. The code is one link and up to two joins.
-/

set_option autoImplicit false

namespace BabyOS.AreaInsertion
open BabyOS.BuddyMachine BabyOS.OrderedRanges BabyOS.RangeMaps BabyOS.AreaMachine
open BabyOS.AreaAttributes BabyOS.AreaNodes BabyOS.AreaNodes.Space BabyOS.AreaLinks

/-! ## Linking -/

/-- A new object between the two halves of a list. -/
theorem link_holds {s : Space} {before after : List ℕ} {x : ℕ} (h : Holds s (before++after))
    (hx : x ∉ before++after) (hlive : x ∈ s.live) :
    Holds ((s.setNext x after.head?).setLink before.getLast? (some x)) (before++x :: after) := by
  obtain ⟨hhead, hlinks, hnodup, hall⟩ := h
  rw [links_append, Option.or_none] at hlinks
  obtain ⟨hb, ha, hba⟩ := List.nodup_append.mp hnodup
  have hnotb : x ∉ before := fun hin => hx (List.mem_append_left _ hin)
  have hnota : x ∉ after := fun hin => hx (List.mem_append_right _ hin)
  have hnew : (before++x :: after).Nodup := by
    rw [List.nodup_append, List.nodup_cons]
    refine ⟨hb, ⟨hnota, ha⟩, fun y hy z hz => ?_⟩
    rcases List.mem_cons.mp hz with rfl | hz
    · exact fun hyz => hnotb (hyz ▸ hy)
    · exact hba y hy z hz
  have hmem : ∀ y ∈ before++x :: after, y ∈ s.live := by
    intro y hy
    rcases List.mem_append.mp hy with hy | hy
    · exact hall y (List.mem_append_left _ hy)
    · rcases List.mem_cons.mp hy with rfl | hy
      · exact hlive
      · exact hall y (List.mem_append_right _ hy)
  cases hlast : before.getLast? with
  | none =>
    rw [List.getLast?_eq_none_iff] at hlast
    subst hlast
    refine ⟨rfl, ⟨?_, ?_⟩, hnew, hmem⟩
    · simp [setLink, next]
    · refine links_congr (fun y hy => ?_) hlinks.2
      have hne : y ≠ x := fun hyx => hnota (hyx ▸ hy)
      simp [setLink, next, hne]
  | some q =>
    obtain ⟨init, rfl⟩ : ∃ init, before = init++[q] := ⟨_, (List.dropLast_append_getLast? q hlast).symm⟩
    have hxq : x ≠ q := fun hxq => hnotb (by simp [hxq])
    have hqa : ∀ y ∈ after, y ≠ q := fun y hy hyq => hba q (by simp) y hy hyq.symm
    have hqi : ∀ y ∈ init, y ≠ q := fun y hy hyq =>
      (List.nodup_append.mp hb).2.2 y hy q List.mem_cons_self hyq
    refine ⟨?_, ?_, hnew, hmem⟩
    · simp only [setLink, setNext_mmap, hhead]
      cases init <;> rfl
    · rw [links_append]
      refine ⟨links_last ?_ (fun y hy => ?_) hlinks.1, ?_, ?_⟩
      · simp [setLink, next]
      · have hyx : y ≠ x := fun hyx => hnotb (by simp [← hyx, hy])
        simp [setLink, next, hqi y hy, hyx]
      · simp [setLink, next, hxq]
      · refine links_congr (fun y hy => ?_) hlinks.2
        have hyx : y ≠ x := fun hyx => hnota (hyx ▸ hy)
        simp [setLink, next, hyx, hqa y hy]

theorem setLink_area (s : Space) (prev y : Option ℕ) (x : ℕ) : (s.setLink prev y).area x = s.area x := by
  cases prev with
  | none => rfl
  | some q => simp [setLink, area]

theorem setLink_live (s : Space) (prev y : Option ℕ) : (s.setLink prev y).live = s.live := by
  cases prev <;> rfl

theorem setLink_freed (s : Space) (prev y : Option ℕ) : (s.setLink prev y).freed = s.freed := by
  cases prev <;> rfl

/-! ## Joining -/

/-- The second of two neighbours leaves the list and the first one has the area `w`. -/
def join (s : Space) (u v : ℕ) (w : Vma) (q : Option ℕ) : Space := ((s.setArea u w).setNext u q).free v

theorem join_holds {s : Space} {pre post : List ℕ} {u v : ℕ} (w : Vma)
    (h : Holds s (pre++u :: v :: post)) {q : Option ℕ} (hq : q = post.head?) :
    Holds (join s u v w q) (pre++u :: post) ∧
      areas (join s u v w q) (pre++u :: post) = areas s pre++w :: areas s post := by
  obtain ⟨hhead, hlinks, hnodup, hall⟩ := h
  rw [List.nodup_append, List.nodup_cons, List.nodup_cons] at hnodup
  obtain ⟨hpre, ⟨hu, hv, hpost⟩, hcross⟩ := hnodup
  have hup : ∀ y ∈ pre, y ≠ u := fun y hy => hcross y hy u List.mem_cons_self
  have huq : ∀ y ∈ post, y ≠ u := fun y hy hyu => hu (by simp [← hyu, hy])
  rw [links_append] at hlinks
  obtain ⟨hfront, -, -, hback⟩ := hlinks
  constructor
  · refine ⟨?_, ?_, ?_, ?_⟩
    · rw [join, free_mmap, setNext_mmap, setArea_mmap, hhead]
      cases pre <;> rfl
    · rw [links_append]
      refine ⟨links_congr (fun y hy => ?_) hfront, ?_, links_congr (fun y hy => ?_) hback⟩
      · simp [join, next, hup y hy]
      · simp [join, next, hq]
      · simp [join, next, huq y hy]
    · rw [List.nodup_append, List.nodup_cons]
      refine ⟨hpre, ⟨fun hin => hu (List.mem_cons_of_mem v hin), hpost⟩, fun y hy z hz => ?_⟩
      apply hcross y hy z
      rcases List.mem_cons.mp hz with rfl | hz
      · exact List.mem_cons_self
      · simp [hz]
    · intro y hy
      have hyv : y ≠ v := by
        rintro rfl
        rcases List.mem_append.mp hy with hy | hy
        · exact hcross y hy y (by simp) rfl
        · rcases List.mem_cons.mp hy with rfl | hy
          · exact hu List.mem_cons_self
          · exact hv hy
      have hlive : y ∈ s.live := by
        apply hall
        rcases List.mem_append.mp hy with hy | hy
        · simp [hy]
        · rcases List.mem_cons.mp hy with rfl | hy
          · simp
          · simp [hy]
      rw [join, free_live, setNext_live, setArea_live]
      exact (List.mem_erase_of_ne hyv).mpr hlive
  · rw [areas_append, areas_cons]
    congr 1
    · exact areas_congr fun y hy => by simp [join, area, hup y hy]
    · congr 1
      · simp [join, area]
      · exact areas_congr fun y hy => by simp [join, area, huq y hy]

theorem join_frame (s : Space) {u v : ℕ} (w : Vma) (q : Option ℕ) {x : ℕ} (hx : x ≠ u) :
    (join s u v w q).node x = s.node x := by
  simp [join, setNext, setArea, Function.update, hx, free]

/-- From the objects `l` some are freed, each once, and the rest holds the areas
`rest`; no other object is touched. -/
structure Leaves (s : Space) (l : List ℕ) (s' : Space) (ids gone : List ℕ) : Prop where
  holds : Holds s' ids
  freed : s'.freed = s.freed++gone
  perm : (gone++ids).Perm l
  frame : ∀ x, x ∉ l → s'.node x = s.node x

theorem leaves_same {s : Space} {l : List ℕ} (h : Holds s l) : Leaves s l s l [] :=
  ⟨h, (List.append_nil _).symm, List.Perm.refl _, fun _ _ => rfl⟩

theorem Leaves.trans {s s₁ s₂ : Space} {l l₁ l₂ gone₁ gone₂ : List ℕ} (h₁ : Leaves s l s₁ l₁ gone₁)
    (h₂ : Leaves s₁ l₁ s₂ l₂ gone₂) : Leaves s l s₂ l₂ (gone₁++gone₂) where
  holds := h₂.holds
  freed := by rw [h₂.freed, h₁.freed, List.append_assoc]
  perm := by
    rw [List.append_assoc]
    exact (h₂.perm.append_left gone₁).trans h₁.perm
  frame x hx := by
    have hnot : x ∉ l₁ := fun hin => hx (h₁.perm.subset (List.mem_append_right gone₁ hin))
    rw [h₂.frame x hnot, h₁.frame x hx]

theorem join_leaves {s : Space} {pre post : List ℕ} {u v : ℕ} (w : Vma)
    (h : Holds s (pre++u :: v :: post)) {q : Option ℕ} (hq : q = post.head?) :
    Leaves s (pre++u :: v :: post) (join s u v w q) (pre++u :: post) [v] where
  holds := (join_holds w h hq).1
  freed := rfl
  perm := by
    have hswap : (v :: (pre++u :: post)).Perm (pre++v :: u :: post) := List.perm_middle.symm
    exact hswap.trans ((List.Perm.swap u v post).append_left pre)
  frame x hx := join_frame s w q fun hxu => hx (by simp [hxu])

theorem mergeP_spec {s : Space} {pre after : List ℕ} {u : ℕ} (h : Holds s (pre++u :: after)) :
    ∃ ids gone, Leaves s (pre++u :: after) (s.mergeP u after.head?) ids gone ∧
      areas (s.mergeP u after.head?) ids = areas s pre++mergeNext (s.area u) (areas s after) := by
  cases after with
  | nil => exact ⟨_, _, leaves_same h, by rw [areas_append]; rfl⟩
  | cons v post =>
    rw [areas_cons, mergeNext]
    simp only [List.head?_cons, mergeP]
    split
    next =>
      have hnext : s.next v = post.head? := by
        obtain ⟨-, -, hv, -⟩ := links_append.mp h.links
        rw [hv, Option.or_none]
      exact ⟨_, _, join_leaves _ h hnext, (join_holds _ h hnext).2⟩
    next => exact ⟨_, _, leaves_same h, by rw [areas_append]; rfl⟩

theorem mergePrev_spec {s : Space} {before after : List ℕ} {vma : ℕ} (h : Holds s (before++vma :: after)) :
    ∃ pre gone,
      Leaves s (before++vma :: after) (s.mergePrev before.getLast? vma after.head?).1
        (pre++(s.mergePrev before.getLast? vma after.head?).2 :: after) gone ∧
      areas (s.mergePrev before.getLast? vma after.head?).1 pre++
          mergeNext ((s.mergePrev before.getLast? vma after.head?).1.area
            (s.mergePrev before.getLast? vma after.head?).2)
            (areas (s.mergePrev before.getLast? vma after.head?).1 after) =
        match (areas s before).getLast? with
        | none => mergeNext (s.area vma) (areas s after)
        | some prev =>
          if prev.mEnd = (s.area vma).mStart ∧ Alike prev (s.area vma) then
            (areas s before).dropLast++mergeNext { prev with mEnd := (s.area vma).mEnd } (areas s after)
          else areas s before++mergeNext (s.area vma) (areas s after) := by
  cases hlast : before.getLast? with
  | none =>
    rw [List.getLast?_eq_none_iff] at hlast
    subst hlast
    exact ⟨[], [], leaves_same h, rfl⟩
  | some q =>
    obtain ⟨init, rfl⟩ : ∃ init, before = init++[q] := ⟨_, (List.dropLast_append_getLast? q hlast).symm⟩
    have hareas : areas s (init++[q]) = areas s init++[s.area q] := areas_append s init [q]
    rw [hareas, List.getLast?_concat, List.dropLast_concat]
    simp only [mergePrev]
    rw [List.append_assoc, List.singleton_append] at h ⊢
    split
    next hmeet =>
      obtain ⟨w, hw⟩ : ∃ w : Vma, (⟨(s.area q).mStart, (s.area vma).mEnd, (s.area q).mPageProt,
          (s.area q).mFlags⟩ : Vma) = w := ⟨_, rfl⟩
      obtain ⟨-, hsplit⟩ := join_holds w h (Eq.refl after.head?)
      rw [areas_append, areas_cons] at hsplit
      obtain ⟨hinit, hrest⟩ := List.append_inj hsplit (by simp [areas])
      obtain ⟨hq, hafter⟩ := List.cons.inj hrest
      refine ⟨init, [vma], join_leaves _ h rfl, ?_⟩
      simp only [hw]
      show areas (join s q vma w after.head?) init++mergeNext ((join s q vma w after.head?).area q)
        (areas (join s q vma w after.head?) after) = areas s init++mergeNext w (areas s after)
      rw [hinit, hafter, hq]
    next =>
      refine ⟨init++[q], [], ?_, by rw [hareas]⟩
      rw [List.append_assoc, List.singleton_append]
      exact leaves_same h

/-- The code of `insert_vma` does to the linked objects what the list operation does
to their areas. -/
theorem insertVma_refines {s : Space} {l : List ℕ} {vma : ℕ} (h : Holds s l) (hnew : vma ∉ l)
    (hlive : vma ∈ s.live) :
    match AreaMachine.insertVma (areas s l) (s.area vma) with
    | none => s.insertVma vma = (false, s)
    | some l' => (s.insertVma vma).1 = true ∧ ∃ ids gone,
        Leaves s (vma :: l) (s.insertVma vma).2 ids gone ∧ areas (s.insertVma vma).2 ids = l' := by
  obtain ⟨before, after, rfl, hbefore, hafter, hscan⟩ :=
    scan_cut h (fun v => v.mStart ≥ (s.area vma).mEnd)
  have hnot : (fun v : Vma => !decide (v.mStart ≥ (s.area vma).mEnd)) =
      fun v => decide (v.mStart < (s.area vma).mEnd) := by
    funext v
    by_cases hv : v.mStart < (s.area vma).mEnd
    · simp [hv]
    · simp [hv, not_lt.mp hv]
  rw [hnot] at hbefore hafter
  rw [AreaMachine.insertVma, ← hbefore, ← hafter, Space.insertVma]
  simp only [hscan]
  -- the object in the list, before anything is merged
  obtain ⟨s₁, hs₁⟩ : ∃ s₁, (s.setNext vma after.head?).setLink before.getLast? (some vma) = s₁ := ⟨_, rfl⟩
  have hlinked : Holds s₁ (before++vma :: after) := hs₁ ▸ link_holds h hnew hlive
  have hsame : ∀ x, s₁.area x = s.area x := by
    intro x
    rw [← hs₁, setLink_area]
    simp [area]
  have hareas : ∀ m, areas s₁ m = areas s m := fun m => areas_congr fun x _ => hsame x
  have hstart : Leaves s (vma :: (before++after)) s₁ (before++vma :: after) [] := by
    refine ⟨hlinked, ?_, List.perm_middle, fun x hx => ?_⟩
    · rw [← hs₁, setLink_freed, setNext_freed, List.append_nil]
    · have hxv : x ≠ vma := fun hxv => hx (by simp [hxv])
      rw [← hs₁]
      cases hlast : before.getLast? with
      | none => simp [setLink, setNext, Function.update, hxv]
      | some q =>
        have hxq : x ≠ q := by
          rintro rfl
          exact hx (by simp [List.mem_of_getLast? hlast])
        simp [setLink, setNext, Function.update, hxv, hxq]
  obtain ⟨pre, gone, hprev, hlist⟩ := mergePrev_spec hlinked
  have hboth := hstart.trans hprev
  obtain ⟨ids, gone', hp, hend⟩ := mergeP_spec hprev.holds
  rw [hlist] at hend
  simp only [hareas, hsame] at hend
  have hlastArea : (areas s before).getLast? = before.getLast?.map s.area := List.getLast?_map
  rw [hlastArea] at hend ⊢
  cases hlast : before.getLast? with
  | none =>
    rw [hlast] at hs₁ hboth hp hend
    simp only [Option.map_none] at hend ⊢
    rw [if_neg (by simp), hs₁]
    exact ⟨rfl, ids, _, hboth.trans hp, hend⟩
  | some q =>
    rw [hlast] at hs₁ hboth hp hend
    simp only [Option.map_some] at hend ⊢
    by_cases hover : (s.area q).mEnd > (s.area vma).mStart
    · rw [if_pos hover]
      exact if_pos ⟨q, rfl, hover⟩
    · have hfree : ¬ ∃ r, some q = some r ∧ (s.area r).mEnd > (s.area vma).mStart := by
        rintro ⟨r, hr, hbig⟩
        cases hr
        exact hover hbig
      rw [if_neg hover, if_neg hfree, hs₁]
      by_cases hmeet : (s.area q).mEnd = (s.area vma).mStart ∧ Alike (s.area q) (s.area vma)
      · rw [if_pos hmeet] at hend ⊢
        exact ⟨rfl, ids, _, hboth.trans hp, hend⟩
      · rw [if_neg hmeet] at hend ⊢
        exact ⟨rfl, ids, _, hboth.trans hp, hend⟩

/-- Changing an object that is not in the list. -/
theorem holds_outside {s s' : Space} {l : List ℕ} (h : Holds s l) (hmmap : s'.mmap = s.mmap)
    (hnext : ∀ x ∈ l, s'.next x = s.next x) (hlive : ∀ x ∈ s.live, x ∈ s'.live) : Holds s' l :=
  ⟨hmmap.trans h.head, links_congr hnext h.links, h.nodup, fun x hx => hlive x (h.live x hx)⟩

/-- An object `x` of the cache is filled in and inserted. -/
theorem insertFresh_refines {s s₀ : Space} {l : List ℕ} {x : ℕ} (h : Holds s l) (hx : x ∉ s.live)
    (hmmap : s₀.mmap = s.mmap) (hlive : s₀.live = x :: s.live)
    (hnode : ∀ y, y ≠ x → s₀.area y = s.area y ∧ s₀.next y = s.next y) :
    (s₀.insertVma x).1 = (AreaMachine.insertVma (areas s l) (s₀.area x)).isSome ∧
      ∃ ids, Holds (s₀.insertVma x).2 ids ∧
        areas (s₀.insertVma x).2 ids = (AreaMachine.insertVma (areas s l) (s₀.area x)).getD (areas s l) := by
  have hnot : x ∉ l := fun hin => hx (h.live x hin)
  have hne : ∀ y ∈ l, y ≠ x := fun y hy hyx => hnot (hyx ▸ hy)
  have hareas : areas s₀ l = areas s l := areas_congr fun y hy => (hnode y (hne y hy)).1
  have hholds : Holds s₀ l := holds_outside h hmmap (fun y hy => (hnode y (hne y hy)).2)
    fun y hy => by simp [hlive, hy]
  have hrefines := insertVma_refines hholds hnot (by simp [hlive])
  rw [hareas] at hrefines
  cases hs : AreaMachine.insertVma (areas s l) (s₀.area x) with
  | none =>
    rw [hs] at hrefines
    simp only at hrefines
    rw [hrefines]
    exact ⟨rfl, l, hholds, hareas⟩
  | some l' =>
    rw [hs] at hrefines
    obtain ⟨hok, ids, gone, hleaves, hids⟩ := hrefines
    exact ⟨hok, ids, hleaves.holds, hids⟩

/-! ## Exactness -/

/-- What is freed is freed once and is no longer linked. -/
theorem Leaves.apart {s s' : Space} {l ids gone : List ℕ} (h : Leaves s l s' ids gone) (hl : l.Nodup) :
    gone.Nodup ∧ ∀ x ∈ gone, x ∉ ids := by
  have hboth := h.perm.nodup_iff.mpr hl
  rw [List.nodup_append] at hboth
  exact ⟨hboth.1, fun x hx hin => hboth.2.2 x hx x hin rfl⟩

/-- `insert_vma` refuses exactly the areas that overlap one of the list; otherwise the
new area is added to the map, joins happen between neighbours with equal attributes
only, and every object that drops out is freed once. -/
theorem insert_exact {s : Space} {l : List ℕ} {vma : ℕ} (h : Holds s l) (hsorted : Sorted (areas s l))
    (hnew : vma ∉ l) (hlive : vma ∈ s.live) (hv : (s.area vma).mStart < (s.area vma).mEnd) :
    ((∃ x ∈ l, (s.area x).mStart < (s.area vma).mEnd ∧ (s.area vma).mStart < (s.area x).mEnd) →
      s.insertVma vma = (false, s)) ∧
    ((¬ ∃ x ∈ l, (s.area x).mStart < (s.area vma).mEnd ∧ (s.area vma).mStart < (s.area x).mEnd) →
      (s.insertVma vma).1 = true ∧ ∃ ids gone before after,
        Leaves s (vma :: l) (s.insertVma vma).2 ids gone ∧ gone.Nodup ∧ (∀ x ∈ gone, x ∉ ids) ∧
        Sorted (areas (s.insertVma vma).2 ids) ∧
        (∀ a, attributesAt (areas (s.insertVma vma).2 ids) a =
          if Contains (s.area vma) a then some (attributes (s.area vma)) else attributesAt (areas s l) a) ∧
        areas s l = before++after ∧
        Joins (before++s.area vma :: after) (areas (s.insertVma vma).2 ids)) := by
  have hrefines := insertVma_refines h hnew hlive
  have hnone := @insertVma_eq_none (areas s l) hsorted (s.area vma)
  have hover : (∃ u ∈ areas s l, u.mStart < (s.area vma).mEnd ∧ (s.area vma).mStart < u.mEnd) ↔
      ∃ x ∈ l, (s.area x).mStart < (s.area vma).mEnd ∧ (s.area vma).mStart < (s.area x).mEnd := by
    simp [areas]
  rw [hover] at hnone
  rw [← hnone]
  cases hs : AreaMachine.insertVma (areas s l) (s.area vma) with
  | none =>
    rw [hs] at hrefines
    exact ⟨fun _ => hrefines, fun hsome => absurd rfl hsome⟩
  | some l' =>
    rw [hs] at hrefines
    obtain ⟨hok, ids, gone, hleaves, rfl⟩ := hrefines
    obtain ⟨hsorted', hmap⟩ := insertVma_attributes hsorted hv hs
    obtain ⟨before, after, hl, -, hjoins⟩ := insertVma_joins hsorted hv hs
    obtain ⟨honce, hgone⟩ := hleaves.apart (List.nodup_cons.mpr ⟨hnew, h.nodup⟩)
    constructor
    · intro hnever
      cases hnever
    · exact fun _ => ⟨hok, ids, gone, before, after, hleaves, honce, hgone, hsorted', hmap, hl, hjoins⟩

/-- Two areas with a hole of one page, and a new object for the hole. -/
def bridged : Space where
  mmap := some 0
  node := fun x =>
    if x = 0 then ⟨⟨0x1000, 0x2000, 1, 1⟩, some 1, false⟩
    else if x = 1 then ⟨⟨0x3000, 0x4000, 1, 1⟩, none, false⟩
    else ⟨⟨0x2000, 0x3000, 1, 1⟩, none, false⟩
  live := [2, 1, 0]
  freed := []

theorem insert_exact_bridged : (bridged.insertVma 2).1 = true := by
  have hl : areas bridged [0, 1] = [⟨0x1000, 0x2000, 1, 1⟩, ⟨0x3000, 0x4000, 1, 1⟩] := rfl
  have hholds : Holds bridged [0, 1] := ⟨rfl, ⟨rfl, rfl, trivial⟩, by decide, by decide⟩
  have hsorted : Sorted (areas bridged [0, 1]) := by
    rw [hl]
    simp [Ordered]
  have hexact := @insert_exact bridged [0, 1] 2 hholds hsorted (by decide) (by decide) (by decide)
  exact (hexact.2 (by decide)).1

end BabyOS.AreaInsertion

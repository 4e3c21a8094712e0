import BabyOS.AreaInsertion

/-!
# `do_munmap` and `do_brk` on linked objects

Taking an object out of the list, the split of an area into two objects of which
empty ones are taken out again, and the growth of the heap.
-/

set_option autoImplicit false

namespace BabyOS.AreaRemoval
open BabyOS.BuddyMachine BabyOS.AreaMachine BabyOS.AreaNodes BabyOS.AreaNodes.Space
open BabyOS.AreaLinks BabyOS.AreaInsertion

/-! ## Removal -/

/-- An object leaves the list; the pointer before it skips it. -/
theorem removeVma_holds {s : Space} {pre post : List ℕ} {x : ℕ} (h : Holds s (pre++x :: post)) :
    Holds (s.removeVma x pre.getLast?) (pre++post) := by
  obtain ⟨hhead, hlinks, hnodup, hall⟩ := h
  rw [List.nodup_append, List.nodup_cons] at hnodup
  obtain ⟨hpre, ⟨hx, hpost⟩, hcross⟩ := hnodup
  rw [links_append] at hlinks
  obtain ⟨hfront, hnext, hback⟩ := hlinks
  rw [Option.or_none] at hnext
  have hnew : (pre++post).Nodup :=
    List.nodup_append.mpr ⟨hpre, hpost, fun y hy z hz => hcross y hy z (List.mem_cons_of_mem x hz)⟩
  have hmem : ∀ y ∈ pre++post, y ∈ (s.setLink pre.getLast? (s.next x)).live.erase x := by
    intro y hy
    have hyx : y ≠ x := by
      rintro rfl
      rcases List.mem_append.mp hy with hy | hy
      · exact hcross y hy y List.mem_cons_self rfl
      · exact hx hy
    rw [setLink_live]
    apply (List.mem_erase_of_ne hyx).mpr
    apply hall
    rcases List.mem_append.mp hy with hy | hy
    · simp [hy]
    · simp [hy]
  rw [removeVma, hnext]
  rw [hnext] at hmem
  cases hlast : pre.getLast? with
  | none =>
    rw [List.getLast?_eq_none_iff] at hlast
    subst hlast
    exact ⟨rfl, @links_congr s _ post none (fun _ _ => rfl) hback, hnew, hmem⟩
  | some q =>
    obtain ⟨init, rfl⟩ : ∃ init, pre = init++[q] := ⟨_, (List.dropLast_append_getLast? q hlast).symm⟩
    rw [hlast] at hmem
    have hqi : ∀ y ∈ init, y ≠ q := fun y hy hyq =>
      (List.nodup_append.mp hpre).2.2 y hy q List.mem_cons_self hyq
    have hqp : ∀ y ∈ post, y ≠ q := fun y hy hyq =>
      hcross q (by simp) y (List.mem_cons_of_mem x hy) hyq.symm
    refine ⟨?_, ?_, hnew, hmem⟩
    · rw [free_mmap, setLink, setNext_mmap, hhead]
      cases init <;> rfl
    · rw [links_append, Option.or_none]
      refine ⟨links_last ?_ (fun y hy => ?_) hfront, links_congr (fun y hy => ?_) hback⟩
      · simp [setLink, next]
      · simp [setLink, next, hqi y hy]
      · simp [setLink, next, hqp y hy]

theorem removeVma_area (s : Space) (x : ℕ) (prev : Option ℕ) (y : ℕ) :
    (s.removeVma x prev).area y = s.area y :=
  setLink_area s prev (s.next x) y

/-! ## The split -/

theorem splitVma_refines {s : Space} {before after : List ℕ} {vma fresh : ℕ}
    (h : Holds s (before++vma :: after)) (hfresh : fresh ∉ s.live) (addr len : ℕ) :
    ∃ ids, Holds (s.splitVma vma before.getLast? addr len fresh) ids ∧
      areas (s.splitVma vma before.getLast? addr len fresh) ids =
        areas s before++AreaMachine.splitVma (s.area vma) (s.area fresh) addr len++areas s after := by
  have hnot : fresh ∉ before++vma :: after := fun hin => hfresh (h.live fresh hin)
  have hfv : vma ≠ fresh := fun hvf => hnot (by simp [hvf])
  have hnext : s.next vma = after.head? := by
    have := (links_append.mp h.links).2.1
    rwa [Option.or_none] at this
  obtain ⟨s₁, hs₁⟩ : ∃ s₁, s.cutVma vma addr len fresh = s₁ := ⟨_, rfl⟩
  have hholds₁ : Holds s₁ (before++vma :: after) := by
    apply holds_outside h
    · simp [← hs₁, cutVma]
    · intro x hx
      simp [← hs₁, cutVma, next]
    · intro x hx
      simp [← hs₁, cutVma, hx]
  have hvma₁ : s₁.area vma = { s.area vma with mEnd := addr } := by simp [← hs₁, cutVma, area, hfv]
  have hfresh₁ : s₁.area fresh = { s.area fresh with mStart := addr+len, mEnd := (s.area vma).mEnd } := by
    simp [← hs₁, cutVma, area, hfv.symm]
  have hother₁ : ∀ x, x ≠ vma → x ≠ fresh → s₁.area x = s.area x := by
    intro x hxv hxf
    simp [← hs₁, cutVma, area, hxv, hxf]
  have hnext₁ : s₁.next vma = after.head? := by
    rw [← hnext]
    simp [← hs₁, cutVma, next]
  have hcut : before++vma :: after = (before++[vma])++after := by simp
  obtain ⟨s₂, hs₂⟩ : ∃ s₂, (s₁.setNext fresh (s₁.next vma)).setNext vma (some fresh) = s₂ := ⟨_, rfl⟩
  have hholds₂ : Holds s₂ (before++vma :: fresh :: after) := by
    have hlive : fresh ∈ s₁.live := by simp [← hs₁, cutVma]
    have hlink := link_holds (hcut ▸ hholds₁) (hcut ▸ hnot) hlive
    rw [List.getLast?_concat, List.append_assoc] at hlink
    rw [← hs₂, hnext₁]
    exact hlink
  have harea₂ : ∀ x, s₂.area x = s₁.area x := by
    intro x
    simp [← hs₂, area]
  obtain ⟨hbefore, hafter⟩ : (∀ x ∈ before, x ≠ vma ∧ x ≠ fresh) ∧ ∀ x ∈ after, x ≠ vma ∧ x ≠ fresh := by
    have hnodup := hholds₂.nodup
    rw [List.nodup_append, List.nodup_cons, List.nodup_cons] at hnodup
    obtain ⟨-, ⟨hv, hf, -⟩, hcross⟩ := hnodup
    refine ⟨fun x hx => ⟨hcross x hx vma (by simp), hcross x hx fresh (by simp)⟩, fun x hx => ⟨?_, ?_⟩⟩
    · rintro rfl
      exact hv (by simp [hx])
    · rintro rfl
      exact hf hx
  have hareasB : areas s₂ before = areas s before := areas_congr fun x hx => by
    rw [harea₂, hother₁ x (hbefore x hx).1 (hbefore x hx).2]
  have hareasA : areas s₂ after = areas s after := areas_congr fun x hx => by
    rw [harea₂, hother₁ x (hafter x hx).1 (hafter x hx).2]
  have hvma₂ : s₂.area vma = { s.area vma with mEnd := addr } := (harea₂ vma).trans hvma₁
  have hfresh₂ : s₂.area fresh = { s.area fresh with mStart := addr+len, mEnd := (s.area vma).mEnd } := (harea₂ fresh).trans hfresh₁
  -- the first part stays or goes
  obtain ⟨s₃, first, hs₃⟩ : ∃ s₃ first,
      (if (s₂.area vma).mStart = (s₂.area vma).mEnd then s₂.removeVma vma before.getLast? else s₂) = s₃ ∧
      (if (s₂.area vma).mStart = (s₂.area vma).mEnd then before.getLast? else some vma) =
        (before++first).getLast? ∧
      Holds s₃ (before++first++fresh :: after) ∧ (∀ x, s₃.area x = s₂.area x) ∧
      areas s₂ first = if (s.area vma).mStart = addr then [] else [{ s.area vma with mEnd := addr }] := by
    rw [hvma₂]
    by_cases hempty : (s.area vma).mStart = addr
    · refine ⟨s₂.removeVma vma before.getLast?, [], if_pos hempty, ?_, ?_, removeVma_area s₂ vma _, ?_⟩
      · rw [if_pos hempty, List.append_nil]
      · rw [List.append_nil]
        exact removeVma_holds hholds₂
      · rw [if_pos hempty]
        rfl
    · refine ⟨s₂, [vma], if_neg hempty, ?_, ?_, fun _ => rfl, ?_⟩
      · rw [if_neg hempty, List.getLast?_concat]
      · rw [List.append_assoc]
        exact hholds₂
      · rw [if_neg hempty, areas_cons, hvma₂]
        rfl
  obtain ⟨hs₃, hprev, hholds₃, harea₃, hfirst⟩ := hs₃
  have hsplit : s.splitVma vma before.getLast? addr len fresh =
      if (s₃.area fresh).mStart = (s₃.area fresh).mEnd then s₃.removeVma fresh (before++first).getLast?
      else s₃ := by
    simp only [Space.splitVma, hs₁, hs₂]
    rw [hs₃, hprev]
  have hsame : ∀ m, areas s₃ m = areas s₂ m := fun m => areas_congr fun x _ => harea₃ x
  rw [hsplit, harea₃, hfresh₂, AreaMachine.splitVma]
  by_cases hempty : addr+len = (s.area vma).mEnd
  · refine ⟨before++first++after, ?_, ?_⟩
    · rw [if_pos hempty]
      exact removeVma_holds hholds₃
    · rw [if_pos hempty, if_pos hempty, areas_congr fun x _ => removeVma_area s₃ fresh _ x]
      rw [hsame, areas_append, areas_append, hareasB, hareasA, hfirst, List.append_nil]
  · refine ⟨before++first++fresh :: after, ?_, ?_⟩
    · rw [if_neg hempty]
      exact hholds₃
    · rw [if_neg hempty, if_neg hempty, hsame, areas_append, areas_append, areas_cons, hareasB, hareasA,
        hfirst, hfresh₂]
      simp

/-- The code of `do_munmap` does to the linked objects what the list operation does to
their areas. -/
theorem doMunmap_refines {s : Space} {l : List ℕ} (h : Holds s l) {fresh : ℕ} (hfresh : fresh ∉ s.live)
    (addr len : ℕ) :
    (s.doMunmap addr len fresh).1 = (AreaMachine.doMunmap (areas s l) addr len (s.area fresh)).1 ∧
      ∃ ids, Holds (s.doMunmap addr len fresh).2 ids ∧
        areas (s.doMunmap addr len fresh).2 ids =
          (AreaMachine.doMunmap (areas s l) addr len (s.area fresh)).2 := by
  simp only [Space.doMunmap, AreaMachine.doMunmap]
  by_cases hrange : addr % pageSize ≠ 0 ∨ addr > userVmSize ∨ len > userVmSize-addr
  · rw [if_pos hrange, if_pos hrange]
    exact ⟨rfl, l, h, rfl⟩
  rw [if_neg hrange, if_neg hrange]
  by_cases hlen : pageAlign len = 0
  · rw [if_pos hlen, if_pos hlen]
    exact ⟨rfl, l, h, rfl⟩
  rw [if_neg hlen, if_neg hlen]
  obtain ⟨before, after, rfl, hlist, hnodes⟩ := findVma_cut h addr
  rw [hlist, hnodes]
  cases after with
  | nil => exact ⟨rfl, _, h, rfl⟩
  | cons vma after =>
    simp only [List.head?_cons, areas_cons]
    by_cases hout : addr < (s.area vma).mStart ∨ addr+pageAlign len > (s.area vma).mEnd
    · rw [if_pos hout, if_pos hout]
      exact ⟨rfl, _, h, rfl⟩
    · rw [if_neg hout, if_neg hout]
      exact ⟨rfl, splitVma_refines h hfresh addr (pageAlign len)⟩

/-! ## The heap -/

theorem newBrkArea_refines {s : Space} {l : List ℕ} (h : Holds s l) {fresh : ℕ} (hfresh : fresh ∉ s.live)
    (addr len : ℕ) :
    ∃ ids, Holds (s.newBrkArea addr len fresh) ids ∧
      areas (s.newBrkArea addr len fresh) ids = (AreaMachine.insertVma (areas s l) { s.area fresh with
        mStart := addr, mEnd := addr+len, mPageProt := vmRead ||| vmWrite ||| vmExec }).getD (areas s l) := by
  obtain ⟨s₀, hs₀⟩ : ∃ s₀, ((s.alloc fresh).setArea fresh { (s.alloc fresh).area fresh with
      mStart := addr, mEnd := addr+len, mPageProt := vmRead ||| vmWrite ||| vmExec }).setStack fresh false =
    s₀ := ⟨_, rfl⟩
  have hnode : ∀ y, y ≠ fresh → s₀.area y = s.area y ∧ s₀.next y = s.next y := by
    intro y hy
    simp [← hs₀, area, next, hy]
  obtain ⟨-, hids⟩ := insertFresh_refines h hfresh (by simp [← hs₀]) (by simp [← hs₀]) hnode
  have harea : s₀.area fresh = { s.area fresh with
      mStart := addr, mEnd := addr+len, mPageProt := vmRead ||| vmWrite ||| vmExec } := by
    simp [← hs₀, area]
  rw [harea] at hids
  simp only [newBrkArea, hs₀]
  exact hids

theorem extendBrk_refines {s : Space} {l : List ℕ} (h : Holds s l) {fresh : ℕ} (hfresh : fresh ∉ s.live)
    (addr len : ℕ) :
    ∃ ids, Holds (s.extendBrk addr len fresh) ids ∧
      areas (s.extendBrk addr len fresh) ids = AreaMachine.extendBrk (areas s l) addr len (s.area fresh) := by
  have hnew := newBrkArea_refines h hfresh addr len
  simp only [Space.extendBrk, AreaMachine.extendBrk]
  by_cases haddr : addr ≠ 0
  swap
  · rw [if_neg haddr, if_neg haddr]
    exact hnew
  rw [if_pos haddr, if_pos haddr]
  obtain ⟨before, after, rfl, hlist, hnodes⟩ := findVma_cut h (addr-1)
  rw [hlist, hnodes]
  cases after with
  | nil => exact hnew
  | cons p after =>
    simp only [List.head?_cons, areas_cons]
    by_cases hmeet : (s.area p).mEnd = addr
    swap
    · rw [if_neg hmeet, if_neg hmeet]
      exact hnew
    rw [if_pos hmeet, if_pos hmeet]
    have hnodup := h.nodup
    rw [List.nodup_append, List.nodup_cons] at hnodup
    obtain ⟨-, ⟨hp, -⟩, hcross⟩ := hnodup
    refine ⟨before++p :: after, ?_, ?_⟩
    · exact holds_outside h rfl (fun x _ => by simp [next]) fun x hx => hx
    · rw [areas_append, areas_cons]
      congr 1
      · exact areas_congr fun x hx => by simp [area, hcross x hx p List.mem_cons_self]
      · congr 1
        · simp [area]
        · refine areas_congr fun x hx => ?_
          have hxp : x ≠ p := fun hxp => hp (hxp ▸ hx)
          simp [area, hxp]

theorem doBrk_refines {s : Space} {l : List ℕ} (h : Holds s l) {addr len fresh fresh' : ℕ}
    (hfresh : fresh ∉ s.live) (hfresh' : fresh' ∉ (s.doMunmap addr (pageAlign len) fresh).2.live) :
    (s.doBrk addr len fresh fresh').1 = (AreaMachine.doBrk (areas s l) addr len (s.area fresh)
        ((s.doMunmap addr (pageAlign len) fresh).2.area fresh')).1 ∧
      ∃ ids, Holds (s.doBrk addr len fresh fresh').2 ids ∧
        areas (s.doBrk addr len fresh fresh').2 ids = (AreaMachine.doBrk (areas s l) addr len (s.area fresh)
          ((s.doMunmap addr (pageAlign len) fresh).2.area fresh')).2 := by
  simp only [Space.doBrk, AreaMachine.doBrk]
  by_cases hlen : pageAlign len = 0
  · rw [if_pos hlen, if_pos hlen]
    exact ⟨rfl, l, h, rfl⟩
  rw [if_neg hlen, if_neg hlen]
  obtain ⟨hok, ids, hholds, hids⟩ := doMunmap_refines h hfresh addr (pageAlign len)
  generalize s.doMunmap addr (pageAlign len) fresh = r at hfresh' hok hholds hids ⊢
  generalize AreaMachine.doMunmap (areas s l) addr (pageAlign len) (s.area fresh) = r' at hok hids ⊢
  obtain ⟨ok, l'⟩ := r'
  simp only at hok hids
  subst hids
  cases ok with
  | false =>
    rw [hok]
    exact ⟨rfl, ids, hholds, rfl⟩
  | true =>
    rw [hok]
    exact ⟨rfl, extendBrk_refines hholds hfresh' addr (pageAlign len)⟩

end BabyOS.AreaRemoval

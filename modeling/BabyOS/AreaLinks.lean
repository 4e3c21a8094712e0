import BabyOS.AreaAttributes
import BabyOS.AreaNodes

/-!
# The linked objects hold the area list

Which objects the pointers of a process lead through, and that the code with
pointers does to them what the list operations do to the areas.
-/

set_option autoImplicit false

namespace BabyOS.AreaLinks
open BabyOS.BuddyMachine BabyOS.AreaMachine BabyOS.AreaNodes BabyOS.AreaNodes.Space

/-! ## Fields -/

section Fields

variable (s : Space) (x y : ℕ) (v : Vma) (q : Option ℕ) (b : Bool)

@[simp] theorem setArea_mmap : (s.setArea x v).mmap = s.mmap := rfl
@[simp] theorem setArea_live : (s.setArea x v).live = s.live := rfl
@[simp] theorem setArea_freed : (s.setArea x v).freed = s.freed := rfl
@[simp] theorem setNext_mmap : (s.setNext x q).mmap = s.mmap := rfl
@[simp] theorem setNext_live : (s.setNext x q).live = s.live := rfl
@[simp] theorem setNext_freed : (s.setNext x q).freed = s.freed := rfl
@[simp] theorem setStack_mmap : (s.setStack x b).mmap = s.mmap := rfl
@[simp] theorem setStack_live : (s.setStack x b).live = s.live := rfl
@[simp] theorem setStack_freed : (s.setStack x b).freed = s.freed := rfl
@[simp] theorem alloc_node : (s.alloc x).node = s.node := rfl
@[simp] theorem alloc_mmap : (s.alloc x).mmap = s.mmap := rfl
@[simp] theorem alloc_live : (s.alloc x).live = x :: s.live := rfl
@[simp] theorem alloc_freed : (s.alloc x).freed = s.freed := rfl
@[simp] theorem free_node : (s.free x).node = s.node := rfl
@[simp] theorem free_mmap : (s.free x).mmap = s.mmap := rfl
@[simp] theorem free_live : (s.free x).live = s.live.erase x := rfl
@[simp] theorem free_freed : (s.free x).freed = s.freed++[x] := rfl

@[simp] theorem setArea_node_area :
    ((s.setArea x v).node y).area = if y = x then v else (s.node y).area := by
  by_cases h : y = x <;> simp [setArea, Function.update, h]

@[simp] theorem setArea_node_next : ((s.setArea x v).node y).next = (s.node y).next := by
  by_cases h : y = x <;> simp [setArea, Function.update, h]

@[simp] theorem setArea_node_stack : ((s.setArea x v).node y).stack = (s.node y).stack := by
  by_cases h : y = x <;> simp [setArea, Function.update, h]

@[simp] theorem setNext_node_area : ((s.setNext x q).node y).area = (s.node y).area := by
  by_cases h : y = x <;> simp [setNext, Function.update, h]

@[simp] theorem setNext_node_next :
    ((s.setNext x q).node y).next = if y = x then q else (s.node y).next := by
  by_cases h : y = x <;> simp [setNext, Function.update, h]

@[simp] theorem setNext_node_stack : ((s.setNext x q).node y).stack = (s.node y).stack := by
  by_cases h : y = x <;> simp [setNext, Function.update, h]

@[simp] theorem setStack_node_area : ((s.setStack x b).node y).area = (s.node y).area := by
  by_cases h : y = x <;> simp [setStack, Function.update, h]

@[simp] theorem setStack_node_next : ((s.setStack x b).node y).next = (s.node y).next := by
  by_cases h : y = x <;> simp [setStack, Function.update, h]

@[simp] theorem setStack_node_stack :
    ((s.setStack x b).node y).stack = if y = x then b else (s.node y).stack := by
  by_cases h : y = x <;> simp [setStack, Function.update, h]

end Fields

/-! ## Links -/

/-- The objects `l` follow one another, and `q` follows the last one. -/
def Links (s : Space) : List ℕ → Option ℕ → Prop
  | [], _ => True
  | x :: l, q => s.next x = l.head?.or q ∧ Links s l q

theorem links_append {s : Space} {l m : List ℕ} {q : Option ℕ} :
    Links s (l++m) q ↔ Links s l (m.head?.or q) ∧ Links s m q := by
  induction l with
  | nil => simp [Links]
  | cons x l ih =>
    have hhead : (l++m).head?.or q = l.head?.or (m.head?.or q) := by
      cases l with
      | nil => rfl
      | cons y l => rfl
    rw [List.cons_append, Links, Links, ih, hhead, and_assoc]

/-- A chain of objects depends on their pointers only. -/
theorem links_congr {s s' : Space} {l : List ℕ} {q : Option ℕ} (h : ∀ x ∈ l, s'.next x = s.next x)
    (hl : Links s l q) : Links s' l q := by
  induction l with
  | nil => trivial
  | cons x l ih =>
    obtain ⟨hx, hrest⟩ := hl
    refine ⟨(h x List.mem_cons_self).trans hx, ?_⟩
    exact ih (fun y hy => h y (List.mem_cons_of_mem x hy)) hrest

/-- The last object gets another successor. -/
theorem links_last {s s' : Space} {l : List ℕ} {x : ℕ} {q q' : Option ℕ} (hx : s'.next x = q')
    (h : ∀ y ∈ l, s'.next y = s.next y) (hl : Links s (l++[x]) q) : Links s' (l++[x]) q' := by
  rw [links_append] at hl ⊢
  have hfront : Links s l ([x].head?.or q') := hl.1
  exact ⟨links_congr h hfront, hx, trivial⟩

/-- The list of a process is `l`. -/
structure Holds (s : Space) (l : List ℕ) : Prop where
  head : s.mmap = l.head?
  links : Links s l none
  nodup : l.Nodup
  live : ∀ x ∈ l, x ∈ s.live

theorem links_unique {s : Space} {l l' : List ℕ} (h : Links s l none) (h' : Links s l' none)
    (hhead : l.head? = l'.head?) : l = l' := by
  induction l generalizing l' with
  | nil => exact (List.head?_eq_none_iff.mp hhead.symm).symm
  | cons x l ih =>
    cases l' with
    | nil => cases hhead
    | cons y l' =>
      obtain rfl : x = y := Option.some.inj hhead
      rw [ih h.2 h'.2 (by simpa [h.1] using h'.1)]

theorem Holds.unique {s : Space} {l l' : List ℕ} (h : Holds s l) (h' : Holds s l') : l = l' :=
  links_unique h.links h'.links (h.head.symm.trans h'.head)

def areas (s : Space) (l : List ℕ) : Areas := l.map s.area

theorem areas_append (s : Space) (l m : List ℕ) : areas s (l++m) = areas s l++areas s m := List.map_append

theorem areas_cons (s : Space) (x : ℕ) (l : List ℕ) : areas s (x :: l) = s.area x :: areas s l := rfl

theorem areas_congr {s s' : Space} {l : List ℕ} (h : ∀ x ∈ l, s'.area x = s.area x) :
    areas s' l = areas s l :=
  List.map_congr_left h

theorem Holds.length_le {s : Space} {l : List ℕ} (h : Holds s l) : l.length ≤ s.live.length :=
  (List.subperm_of_subset h.nodup h.live).length_le

/-! ## Walks -/

theorem scan_eq (s : Space) (stop : Vma → Bool) {l : List ℕ} {n : ℕ} (hn : l.length < n)
    (prev : Option ℕ) (h : Links s l none) :
    s.scan stop n prev l.head? =
      ((l.takeWhile fun x => !stop (s.area x)).getLast?.or prev,
        (l.dropWhile fun x => !stop (s.area x)).head?) := by
  induction l generalizing n prev with
  | nil =>
    obtain ⟨m, rfl⟩ : ∃ m, n = m+1 := ⟨n-1, by simp at hn; omega⟩
    rfl
  | cons x l ih =>
    obtain ⟨m, rfl⟩ : ∃ m, n = m+1 := ⟨n-1, by simp at hn; omega⟩
    obtain ⟨hx, hrest⟩ := h
    rw [Option.or_none] at hx
    rw [List.head?_cons, scan]
    by_cases hstop : stop (s.area x) = true
    · simp [hstop]
    · have htake : (x :: l).takeWhile (fun x => !stop (s.area x)) =
          x :: l.takeWhile (fun x => !stop (s.area x)) := by simp [hstop]
      have hdrop : (x :: l).dropWhile (fun x => !stop (s.area x)) =
          l.dropWhile (fun x => !stop (s.area x)) := by simp [hstop]
      rw [if_neg hstop, htake, hdrop, hx, ih (by simp at hn; omega) (some x) hrest, List.getLast?_cons]
      cases (l.takeWhile fun x => !stop (s.area x)).getLast? with
      | none => rfl
      | some y => rfl

/-- The walk that every function starts with, as a cut of the list. -/
theorem scan_cut {s : Space} {l : List ℕ} (h : Holds s l) (stop : Vma → Bool) :
    ∃ before after, l = before++after ∧
      areas s before = (areas s l).takeWhile (fun v => !stop v) ∧
      areas s after = (areas s l).dropWhile (fun v => !stop v) ∧
      s.scan stop (s.live.length+1) none s.mmap = (before.getLast?, after.head?) := by
  refine ⟨l.takeWhile (fun x => !stop (s.area x)), l.dropWhile (fun x => !stop (s.area x)),
    List.takeWhile_append_dropWhile.symm, ?_, ?_, ?_⟩
  · rw [areas, areas, List.takeWhile_map]
    rfl
  · rw [areas, areas, List.dropWhile_map]
    rfl
  · rw [h.head, scan_eq s stop (Nat.lt_succ_of_le h.length_le) none h.links, Option.or_none]

theorem findVma_cut {s : Space} {l : List ℕ} (h : Holds s l) (addr : ℕ) :
    ∃ before after, l = before++after ∧
      AreaMachine.findVma (areas s l) addr = (areas s before, areas s after) ∧
      s.findVma addr = (before.getLast?, after.head?) := by
  obtain ⟨before, after, hl, hbefore, hafter, hscan⟩ := scan_cut h (fun v => addr < v.mEnd)
  refine ⟨before, after, hl, ?_, hscan⟩
  have hnot : (fun v : Vma => !decide (addr < v.mEnd)) = fun v => decide (¬ addr < v.mEnd) := by
    funext v
    by_cases hv : addr < v.mEnd <;> simp [hv]
  rw [AreaMachine.findVma, hbefore, hafter, hnot]

end BabyOS.AreaLinks

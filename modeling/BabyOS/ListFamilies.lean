import BabyOS.LinkedLists

/-!
# Several lists over the same nodes

Lists that share their nodes but hold different ones. A node that leaves one list and
joins another leaves all others as they were.
-/

set_option autoImplicit false

namespace BabyOS.ListFamilies
open BabyOS.LinkedLists

variable {ν κ : Type} [DecidableEq ν]

/-! ## The front of a list -/

def addHead (m : Nodes ν) (h : Head ν) (x : ν) : Nodes ν × Head ν :=
  let m := (m.setPrev x none).setNext x h.first
  match h.first with
  | none => (m, ⟨some x, some x, lengthMore h.length⟩)
  | some y => (m.setPrev y (some x), ⟨some x, h.last, lengthMore h.length⟩)

section Front

variable {m : Nodes ν} {h : Head ν} {x : ν} {l : List ν}

theorem addHead_holds (hl : Holds m h l) (hx : x ∉ l) (hlen : l.length+1 < 2 ^ 64) :
    Holds (addHead m h x).1 (addHead m h x).2 (x :: l) := by
  have hcount : lengthMore h.length = (x :: l).length := by
    rw [hl.length, lengthMore_eq hlen, List.length_cons]
  have hnodup : (x :: l).Nodup := List.nodup_cons.mpr ⟨hx, hl.nodup⟩
  cases l with
  | nil =>
    have hfirst : h.first = none := hl.first
    rw [addHead, hfirst]
    exact ⟨rfl, rfl, hcount, hnodup, by simp, by simp, trivial⟩
  | cons y l =>
    have hfirst : h.first = some y := hl.first
    have hxy : x ≠ y := fun h => hx (h ▸ List.mem_cons_self)
    have hne : ∀ z ∈ y :: l, z ≠ x := fun z hz hzx => hx (hzx ▸ hz)
    rw [addHead, hfirst]
    refine ⟨rfl, hl.last, hcount, hnodup, ?_, ?_, ?_⟩
    · rw [Nodes.setPrev_other _ _ hxy]
      exact Nodes.setPrev_same ..
    · exact Nodes.setNext_same ..
    · apply chain_setFirst (some x) hl.nodup
      refine chain_congr (fun z hz => ?_) (fun z hz => ?_) hl.chain
      · exact Nodes.setPrev_other _ _ (hne z hz)
      · exact Nodes.setNext_other _ _ (hne z hz)

/-- What `addHead` changes: the node and the first one. -/
theorem addHead_other (hl : Holds m h l) {z : ν} (hzx : z ≠ x) (hz : z ∉ l) :
    (addHead m h x).1.prev z = m.prev z ∧ (addHead m h x).1.next z = m.next z := by
  have hm : ((m.setPrev x none).setNext x h.first).prev z = m.prev z ∧
      ((m.setPrev x none).setNext x h.first).next z = m.next z :=
    ⟨Nodes.setPrev_other _ _ hzx, Nodes.setNext_other _ _ hzx⟩
  cases hfirst : h.first with
  | none =>
    rw [hfirst] at hm
    rw [addHead, hfirst]
    exact hm
  | some y =>
    have hzy : z ≠ y := by
      rintro rfl
      rw [hl.first] at hfirst
      exact hz (List.mem_of_mem_head? hfirst)
    rw [hfirst] at hm
    rw [addHead, hfirst]
    exact ⟨(Nodes.setPrev_other _ _ hzy).trans hm.1, hm.2⟩

end Front

/-! ## Families -/

/-- Each head holds its own nodes. -/
structure Family (m : Nodes ν) (h : κ → Head ν) (l : κ → List ν) : Prop where
  holds : ∀ k, Holds m (h k) (l k)
  apart : ∀ k k', k ≠ k' → ∀ x ∈ l k, x ∉ l k'

section Families

variable [DecidableEq κ] {m m' : Nodes ν} {h : κ → Head ν} {l : κ → List ν} {k k' : κ} {x : ν}

omit [DecidableEq ν] in
/-- One list changes, with nodes of its own or new ones. -/
theorem Family.change {h' : Head ν} {l' : List ν} (hf : Family m h l) (hk : Holds m' h' l')
    (hother : ∀ z, z ∉ l k → z ∉ l' → m'.prev z = m.prev z ∧ m'.next z = m.next z)
    (hnew : ∀ z ∈ l', z ∈ l k ∨ ∀ j, z ∉ l j) :
    Family m' (Function.update h k h') (Function.update l k l') := by
  have hout : ∀ j, j ≠ k → ∀ z ∈ l j, z ∉ l k ∧ z ∉ l' := by
    intro j hj z hz
    have hzk : z ∉ l k := hf.apart j k hj z hz
    refine ⟨hzk, fun hz' => ?_⟩
    rcases hnew z hz' with hold | hfresh
    · exact hzk hold
    · exact hfresh j hz
  constructor
  · intro j
    by_cases hj : j = k
    · subst hj
      rw [Function.update_self, Function.update_self]
      exact hk
    · rw [Function.update_of_ne hj, Function.update_of_ne hj]
      have hsame : ∀ z ∈ l j, m'.prev z = m.prev z ∧ m'.next z = m.next z := fun z hz =>
        hother z (hout j hj z hz).1 (hout j hj z hz).2
      exact (hf.holds j).congr (fun z hz => (hsame z hz).1) (fun z hz => (hsame z hz).2)
  · intro i j hij z hz
    by_cases hi : i = k
    · subst hi
      rw [Function.update_self] at hz
      rw [Function.update_of_ne (Ne.symm hij)]
      exact fun hzj => (hout j (Ne.symm hij) z hzj).2 hz
    · rw [Function.update_of_ne hi] at hz
      by_cases hj : j = k
      · subst hj
        rw [Function.update_self]
        exact (hout i hi z hz).2
      · rw [Function.update_of_ne hj]
        exact hf.apart i j hij z hz

theorem Family.addTail (hf : Family m h l) (hx : ∀ j, x ∉ l j) (hlen : (l k).length+1 < 2 ^ 64) :
    Family (addTail m (h k) x).1 (Function.update h k (addTail m (h k) x).2)
      (Function.update l k (l k++[x])) := by
  apply hf.change (addTail_holds (hf.holds k) (hx k) hlen)
  · intro z hz hz'
    refine addTail_other (hf.holds k) (fun hzx => hz' ?_) hz
    rw [hzx]
    exact List.mem_append_right _ List.mem_cons_self
  · intro z hz
    rcases List.mem_append.mp hz with hz | hz
    · exact Or.inl hz
    · rw [List.mem_singleton.mp hz]
      exact Or.inr hx

theorem Family.addHead (hf : Family m h l) (hx : ∀ j, x ∉ l j) (hlen : (l k).length+1 < 2 ^ 64) :
    Family (addHead m (h k) x).1 (Function.update h k (addHead m (h k) x).2)
      (Function.update l k (x :: l k)) := by
  apply hf.change (addHead_holds (hf.holds k) (hx k) hlen)
  · intro z hz hz'
    exact addHead_other (hf.holds k) (fun hzx => hz' (hzx ▸ List.mem_cons_self)) hz
  · intro z hz
    rcases List.mem_cons.mp hz with rfl | hz
    · exact Or.inr hx
    · exact Or.inl hz

theorem Family.remove (hf : Family m h l) (hx : x ∈ l k) (hlen : (l k).length < 2 ^ 64) :
    Family (remove m (h k) x).1 (Function.update h k (remove m (h k) x).2)
      (Function.update l k ((l k).erase x)) := by
  apply hf.change (remove_holds (hf.holds k) hx hlen)
  · intro z hz _
    exact remove_other (hf.holds k) hx hz
  · exact fun z hz => Or.inl (List.mem_of_mem_erase hz)

/-- A node that was removed is in no list. -/
theorem Family.removed (hf : Family m h l) (hx : x ∈ l k) :
    ∀ j, x ∉ Function.update l k ((l k).erase x) j := by
  intro j
  by_cases hj : j = k
  · subst hj
    rw [Function.update_self]
    exact (hf.holds j).nodup.not_mem_erase
  · rw [Function.update_of_ne hj]
    exact hf.apart k j (Ne.symm hj) x hx

/-- From one list to the front of another. -/
theorem Family.move (hf : Family m h l) (hk : k ≠ k') (hx : x ∈ l k) (hlen : (l k).length < 2 ^ 64)
    (hlen' : (l k').length+1 < 2 ^ 64) :
    let m' := (LinkedLists.remove m (h k) x).1
    Family (ListFamilies.addHead m' (h k') x).1
      (Function.update (Function.update h k (LinkedLists.remove m (h k) x).2) k' (ListFamilies.addHead m' (h k') x).2)
      (Function.update (Function.update l k ((l k).erase x)) k' (x :: l k')) := by
  have hremoved := hf.remove hx hlen
  have hh : Function.update h k (LinkedLists.remove m (h k) x).2 k' = h k' := Function.update_of_ne (Ne.symm hk) _ _
  have hl : Function.update l k ((l k).erase x) k' = l k' := Function.update_of_ne (Ne.symm hk) _ _
  have hadded := @Family.addHead _ _ _ _ _ _ _ k' x hremoved (hf.removed hx) (by rw [hl]; exact hlen')
  rw [hh, hl] at hadded
  exact hadded

/-- Where a node of the family is after the move. -/
theorem Family.mem_move (hf : Family m h l) (hk : k ≠ k') (hx : x ∈ l k) {z : ν} {j : κ} :
    z ∈ Function.update (Function.update l k ((l k).erase x)) k' (x :: l k') j ↔
      if z = x then j = k' else z ∈ l j := by
  by_cases hz : z = x
  · subst hz
    rw [if_pos rfl]
    by_cases hj : j = k'
    · subst hj
      rw [Function.update_self]
      exact iff_of_true List.mem_cons_self rfl
    · rw [Function.update_of_ne hj]
      exact iff_of_false (hf.removed hx j) hj
  · rw [if_neg hz]
    by_cases hj : j = k'
    · subst hj
      rw [Function.update_self, List.mem_cons, or_iff_right hz]
    · rw [Function.update_of_ne hj]
      by_cases hjk : j = k
      · subst hjk
        rw [Function.update_self]
        exact List.mem_erase_of_ne hz
      · rw [Function.update_of_ne hjk]

end Families

end BabyOS.ListFamilies

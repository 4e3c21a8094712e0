import Mathlib

/-!
# Doubly linked lists in shared nodes

A list head knows its first and last node and a length; the nodes of all lists lie in
one memory, and each holds the node before and the node behind it.
-/

set_option autoImplicit false

namespace BabyOS.LinkedLists

variable {ν : Type*} [DecidableEq ν]

structure Nodes (ν : Type*) where
  prev : ν → Option ν
  next : ν → Option ν

structure Head (ν : Type*) where
  first : Option ν
  last : Option ν
  length : ℕ

namespace Nodes

def setPrev (m : Nodes ν) (x : ν) (y : Option ν) : Nodes ν := { m with prev := Function.update m.prev x y }

def setNext (m : Nodes ν) (x : ν) (y : Option ν) : Nodes ν := { m with next := Function.update m.next x y }

@[simp] theorem setPrev_next (m : Nodes ν) (x : ν) (y : Option ν) : (m.setPrev x y).next = m.next := rfl

@[simp] theorem setNext_prev (m : Nodes ν) (x : ν) (y : Option ν) : (m.setNext x y).prev = m.prev := rfl

@[simp] theorem setPrev_same (m : Nodes ν) (x : ν) (y : Option ν) : (m.setPrev x y).prev x = y :=
  Function.update_self ..

@[simp] theorem setNext_same (m : Nodes ν) (x : ν) (y : Option ν) : (m.setNext x y).next x = y :=
  Function.update_self ..

theorem setPrev_other (m : Nodes ν) {x z : ν} (y : Option ν) (h : z ≠ x) :
    (m.setPrev x y).prev z = m.prev z :=
  Function.update_of_ne h _ _

theorem setNext_other (m : Nodes ν) {x z : ν} (y : Option ν) (h : z ≠ x) :
    (m.setNext x y).next z = m.next z :=
  Function.update_of_ne h _ _

end Nodes

/-! ## Chains -/

/-- The nodes `l`, linked both ways between `before` and `after`. -/
def Chain (m : Nodes ν) (before : Option ν) : List ν → Option ν → Prop
  | [], _ => True
  | x :: l, after => m.prev x = before ∧ m.next x = l.head?.or after ∧ Chain m (some x) l after

omit [DecidableEq ν] in
theorem chain_append {m : Nodes ν} {before after : Option ν} {l l' : List ν} :
    Chain m before (l++l') after ↔
      Chain m before l (l'.head?.or after) ∧ Chain m (l.getLast?.or before) l' after := by
  induction l generalizing before with
  | nil => simp [Chain]
  | cons x l ih =>
    have hhead : ((l++l').head?).or after = l.head?.or (l'.head?.or after) := by
      cases l with
      | nil => rfl
      | cons y l => rfl
    have hlast : (x :: l).getLast?.or before = l.getLast?.or (some x) := by
      cases l with
      | nil => rfl
      | cons y l => simp [List.getLast?_cons]
    rw [List.cons_append, Chain, Chain, ih, hhead, hlast]
    tauto

omit [DecidableEq ν] in
/-- A chain depends on its own nodes only. -/
theorem chain_congr {m m' : Nodes ν} {before after : Option ν} {l : List ν}
    (hprev : ∀ x ∈ l, m'.prev x = m.prev x) (hnext : ∀ x ∈ l, m'.next x = m.next x)
    (h : Chain m before l after) : Chain m' before l after := by
  induction l generalizing before with
  | nil => trivial
  | cons x l ih =>
    obtain ⟨hp, hn, hrest⟩ := h
    refine ⟨(hprev x List.mem_cons_self).trans hp, (hnext x List.mem_cons_self).trans hn, ?_⟩
    exact ih (fun y hy => hprev y (List.mem_cons_of_mem _ hy))
      (fun y hy => hnext y (List.mem_cons_of_mem _ hy)) hrest

/-- The node behind the last one is set. -/
theorem chain_setLast {m : Nodes ν} {before after : Option ν} {l : List ν} {y : ν} (after' : Option ν)
    (hnodup : (l++[y]).Nodup) (h : Chain m before (l++[y]) after) :
    Chain (m.setNext y after') before (l++[y]) after' := by
  rw [chain_append] at h ⊢
  have hne : ∀ x ∈ l, x ≠ y := fun x hx hxy =>
    (List.nodup_append.mp hnodup).2.2 x hx y List.mem_cons_self hxy
  have hfront : Chain m before l ([y].head?.or after') := h.1
  refine ⟨chain_congr (fun x _ => congrFun (m.setNext_prev y after') x)
    (fun x hx => m.setNext_other _ (hne x hx)) hfront, ?_, ?_, trivial⟩
  · exact h.2.1
  · rw [m.setNext_same]
    rfl

/-- The node before the first one is set. -/
theorem chain_setFirst {m : Nodes ν} {before after : Option ν} {l : List ν} {y : ν} (before' : Option ν)
    (hnodup : (y :: l).Nodup) (h : Chain m before (y :: l) after) :
    Chain (m.setPrev y before') before' (y :: l) after := by
  have hne : ∀ x ∈ l, x ≠ y := fun x hx hxy => (List.nodup_cons.mp hnodup).1 (hxy ▸ hx)
  refine ⟨m.setPrev_same y _, h.2.1, ?_⟩
  exact chain_congr (fun x hx => m.setPrev_other _ (hne x hx)) (fun _ _ => rfl) h.2.2

/-! ## Lists -/

/-- The list head and the nodes hold the list `l`. -/
structure Holds (m : Nodes ν) (h : Head ν) (l : List ν) : Prop where
  first : h.first = l.head?
  last : h.last = l.getLast?
  length : h.length = l.length
  nodup : l.Nodup
  chain : Chain m none l none

def empty : Head ν := ⟨none, none, 0⟩

omit [DecidableEq ν] in
theorem holds_empty (m : Nodes ν) : Holds m empty [] := ⟨rfl, rfl, rfl, List.nodup_nil, trivial⟩

omit [DecidableEq ν] in
theorem Holds.congr {m m' : Nodes ν} {h : Head ν} {l : List ν} (hl : Holds m h l)
    (hprev : ∀ x ∈ l, m'.prev x = m.prev x) (hnext : ∀ x ∈ l, m'.next x = m.next x) : Holds m' h l :=
  { hl with chain := chain_congr hprev hnext hl.chain }

/-- The walk from a node along `next`, to the end. -/
inductive Walk (m : Nodes ν) : Option ν → List ν → Prop
  | nil : Walk m none []
  | cons {x : ν} {l : List ν} : Walk m (m.next x) l → Walk m (some x) (x :: l)

omit [DecidableEq ν] in
theorem Walk.unique {m : Nodes ν} {x : Option ν} {l l' : List ν} (h : Walk m x l) (h' : Walk m x l') :
    l = l' := by
  induction h generalizing l' with
  | nil =>
    cases h'
    rfl
  | cons _ ih =>
    cases h' with
    | cons hrest => rw [ih hrest]

omit [DecidableEq ν] in
theorem walk_chain {m : Nodes ν} {before : Option ν} {l : List ν} (h : Chain m before l none) :
    Walk m l.head? l := by
  induction l generalizing before with
  | nil => exact .nil
  | cons x l ih =>
    obtain ⟨-, hnext, hrest⟩ := h
    refine .cons ?_
    rw [hnext, Option.or_none]
    exact ih hrest

omit [DecidableEq ν] in
theorem Holds.walk {m : Nodes ν} {h : Head ν} {l : List ν} (hl : Holds m h l) : Walk m h.first l := by
  rw [hl.first]
  exact walk_chain hl.chain

/-! ## Operations -/

/-- The length is a 64-bit counter. -/
def lengthMore (n : ℕ) : ℕ := (n+1) % 2 ^ 64

def lengthLess (n : ℕ) : ℕ := (n+(2 ^ 64-1)) % 2 ^ 64

theorem lengthMore_eq {n : ℕ} (h : n+1 < 2 ^ 64) : lengthMore n = n+1 := Nat.mod_eq_of_lt h

theorem lengthLess_eq {n : ℕ} (h : n+1 < 2 ^ 64) : lengthLess (n+1) = n := by
  have hc : ∀ c, n+1 < c → (n+1+(c-1)) % c = n := by
    intro c hlt
    rw [show n+1+(c-1) = n+c by omega, Nat.add_mod_right, Nat.mod_eq_of_lt (by omega)]
  exact hc _ h

attribute [irreducible] lengthMore lengthLess

def addTail (m : Nodes ν) (h : Head ν) (x : ν) : Nodes ν × Head ν :=
  let m := (m.setNext x none).setPrev x h.last
  match h.last with
  | none => (m, ⟨some x, some x, lengthMore h.length⟩)
  | some y => (m.setNext y (some x), ⟨h.first, some x, lengthMore h.length⟩)

/-- The node behind `x`, or the last of the list, is set to what is before `x`. -/
def unlinkNext (m : Nodes ν) (h : Head ν) (x : ν) : Nodes ν × Head ν :=
  match m.next x with
  | none => (m, { h with last := m.prev x })
  | some y => (m.setPrev y (m.prev x), h)

/-- The node before `x`, or the first of the list, is set to what is behind `x`. -/
def unlinkPrev (m : Nodes ν) (h : Head ν) (x : ν) : Nodes ν × Head ν :=
  match m.prev x with
  | none => (m, { h with first := m.next x })
  | some y => (m.setNext y (m.next x), h)

def remove (m : Nodes ν) (h : Head ν) (x : ν) : Nodes ν × Head ν :=
  let a := unlinkNext m h x
  let b := unlinkPrev a.1 a.2 x
  (b.1, { b.2 with length := lengthLess b.2.length })

theorem addTail_holds {m : Nodes ν} {h : Head ν} {l : List ν} {x : ν} (hl : Holds m h l) (hx : x ∉ l)
    (hlen : l.length+1 < 2 ^ 64) : Holds (addTail m h x).1 (addTail m h x).2 (l++[x]) := by
  have hcount : lengthMore h.length = (l++[x]).length := by
    rw [hl.length, lengthMore_eq hlen, List.length_append, List.length_singleton]
  have hnodup : (l++[x]).Nodup := List.nodup_append.mpr
    ⟨hl.nodup, List.nodup_singleton x, fun a ha b hb hab => hx (List.mem_singleton.mp hb ▸ hab ▸ ha)⟩
  rcases List.eq_nil_or_concat l with rfl | ⟨l', y, hlist⟩
  · have hlast : h.last = none := hl.last
    rw [addTail, hlast]
    exact ⟨rfl, rfl, hcount, hnodup, by simp, by simp, trivial⟩
  · rw [List.concat_eq_append] at hlist
    have hlast : h.last = some y := by
      rw [hl.last, hlist]
      exact List.getLast?_concat ..
    have hyx : y ≠ x := by
      rintro rfl
      exact hx (by rw [hlist]; simp)
    have hne : ∀ z ∈ l, z ≠ x := fun z hz hzx => hx (hzx ▸ hz)
    rw [addTail, hlast]
    refine ⟨?_, ?_, hcount, hnodup, ?_⟩
    · change h.first = (l++[x]).head?
      rw [hl.first, hlist]
      cases l' with
      | nil => rfl
      | cons z l' => rfl
    · exact (List.getLast?_concat ..).symm
    · rw [chain_append]
      constructor
      · have hold : Chain ((m.setNext x none).setPrev x (some y)) none l none := by
          refine chain_congr (fun z hz => ?_) (fun z hz => ?_) hl.chain
          · exact Nodes.setPrev_other _ _ (hne z hz)
          · exact Nodes.setNext_other _ _ (hne z hz)
        rw [hlist] at hold ⊢
        exact chain_setLast _ (hlist ▸ hl.nodup) hold
      · rw [hlist, List.getLast?_concat]
        refine ⟨Nodes.setPrev_same .., ?_, trivial⟩
        rw [Nodes.setNext_other _ _ hyx.symm]
        exact Nodes.setNext_same ..

section Remove

variable {m : Nodes ν} {h : Head ν} {x : ν} {l l' : List ν}

/-- The node `x` between `l` and `l'`. -/
structure Between (m : Nodes ν) (l : List ν) (x : ν) (l' : List ν) : Prop where
  prev : m.prev x = l.getLast?
  next : m.next x = l'.head?
  front : Chain m none l (some x)
  back : Chain m (some x) l' none

omit [DecidableEq ν] in
theorem between_of (hl : Holds m h (l++x :: l')) : Between m l x l' := by
  obtain ⟨hfront, hprev, hnext, hback⟩ := chain_append.mp hl.chain
  rw [Option.or_none] at hprev hnext
  exact ⟨hprev, hnext, hfront, hback⟩

theorem unlinkNext_spec (hnodup : (l++x :: l').Nodup) (hb : Between m l x l')
    (hlast : h.last = (l++x :: l').getLast?) :
    (unlinkNext m h x).2.last = (l++l').getLast? ∧ (unlinkNext m h x).2.first = h.first ∧
      (unlinkNext m h x).2.length = h.length ∧ (unlinkNext m h x).1.next = m.next ∧
      (unlinkNext m h x).1.prev x = m.prev x ∧
      (∀ z, z ∉ l' → (unlinkNext m h x).1.prev z = m.prev z) ∧
      Chain (unlinkNext m h x).1 l.getLast? l' none := by
  have hx : x ∉ l' := (List.nodup_cons.mp (List.nodup_append.mp hnodup).2.1).1
  have hnodup' : l'.Nodup := (List.nodup_cons.mp (List.nodup_append.mp hnodup).2.1).2
  cases l' with
  | nil =>
    have hnone : m.next x = none := hb.next
    rw [unlinkNext, hnone]
    refine ⟨?_, rfl, rfl, rfl, rfl, fun _ _ => rfl, trivial⟩
    rw [List.append_nil]
    exact hb.prev
  | cons y l' =>
    have hsome : m.next x = some y := hb.next
    rw [unlinkNext, hsome]
    refine ⟨?_, rfl, rfl, rfl, ?_, fun z hz => ?_, ?_⟩
    · change h.last = _
      rw [hlast, List.getLast?_append, List.getLast?_append, List.getLast?_cons_cons]
    · exact m.setPrev_other _ (fun hxy => hx (hxy ▸ List.mem_cons_self))
    · exact m.setPrev_other _ (fun hzy => hz (hzy ▸ List.mem_cons_self))
    · rw [← hb.prev]
      exact chain_setFirst _ hnodup' hb.back

theorem unlinkPrev_spec (hnodup : (l++x :: l').Nodup) (hprev : m.prev x = l.getLast?)
    (hnext : m.next x = l'.head?) (hfront : Chain m none l (some x))
    (hfirst : h.first = (l++x :: l').head?) :
    (unlinkPrev m h x).2.first = (l++l').head? ∧ (unlinkPrev m h x).2.last = h.last ∧
      (unlinkPrev m h x).2.length = h.length ∧ (unlinkPrev m h x).1.prev = m.prev ∧
      (∀ z, z ∉ l → (unlinkPrev m h x).1.next z = m.next z) ∧
      Chain (unlinkPrev m h x).1 none l l'.head? := by
  have hnodup' : l.Nodup := (List.nodup_append.mp hnodup).1
  rcases List.eq_nil_or_concat l with rfl | ⟨k, y, hlist⟩
  · have hnone : m.prev x = none := hprev
    rw [unlinkPrev, hnone]
    exact ⟨hnext, rfl, rfl, rfl, fun _ _ => rfl, trivial⟩
  · rw [List.concat_eq_append] at hlist
    have hsome : m.prev x = some y := by
      rw [hprev, hlist]
      exact List.getLast?_concat ..
    rw [unlinkPrev, hsome]
    refine ⟨?_, rfl, rfl, rfl, fun z hz => ?_, ?_⟩
    · change h.first = _
      rw [hfirst, hlist]
      cases k with
      | nil => rfl
      | cons z k => rfl
    · refine m.setNext_other _ ?_
      rintro rfl
      exact hz (by rw [hlist]; simp)
    · rw [hnext]
      rw [hlist] at hfront hnodup' ⊢
      exact chain_setLast _ hnodup' hfront

theorem remove_split (hl : Holds m h (l++x :: l')) (hlen : (l++x :: l').length < 2 ^ 64) :
    Holds (remove m h x).1 (remove m h x).2 (l++l') := by
  have hb := between_of hl
  obtain ⟨hlast, hfirst, hlength, hnext, hprev, hkept, hback⟩ := unlinkNext_spec hl.nodup hb hl.last
  have hapart : ∀ z ∈ l, z ∉ l' := fun z hz hz' =>
    (List.nodup_append.mp hl.nodup).2.2 z hz z (List.mem_cons_of_mem _ hz') rfl
  have hfront : Chain (unlinkNext m h x).1 none l (some x) :=
    chain_congr (fun z hz => hkept z (hapart z hz)) (fun z _ => congrFun hnext z) hb.front
  obtain ⟨hfirst', hlast', hlength', hprev', hkept', hfront'⟩ :=
    @unlinkPrev_spec _ _ (unlinkNext m h x).1 (unlinkNext m h x).2 x l l' hl.nodup
      (hprev.trans hb.prev) ((congrFun hnext x).trans hb.next) hfront (hfirst.trans hl.first)
  rw [remove]
  dsimp only
  constructor
  · exact hfirst'
  · exact hlast'.trans hlast
  · have hsum : (l++x :: l').length = (l++l').length+1 := by
      rw [List.length_append, List.length_append, List.length_cons]
      omega
    rw [hlength', hlength, hl.length, hsum]
    rw [hsum] at hlen
    exact lengthLess_eq hlen
  · exact hl.nodup.sublist (List.Sublist.append (List.Sublist.refl l) (List.sublist_cons_self x l'))
  · rw [chain_append]
    constructor
    · rw [Option.or_none]
      exact hfront'
    · rw [Option.or_none]
      refine chain_congr (fun z _ => congrFun hprev' z) (fun z hz => ?_) hback
      exact hkept' z (fun hz' => hapart z hz' hz)

/-- Taking a node out of the list that holds it. -/
theorem remove_holds {l : List ν} (hl : Holds m h l) (hx : x ∈ l) (hlen : l.length < 2 ^ 64) :
    Holds (remove m h x).1 (remove m h x).2 (l.erase x) := by
  obtain ⟨k, k', rfl⟩ := List.append_of_mem hx
  have hk : x ∉ k := fun hmem =>
    (List.nodup_append.mp hl.nodup).2.2 x hmem x List.mem_cons_self rfl
  rw [List.erase_append_right _ hk, List.erase_cons_head]
  exact remove_split hl hlen

end Remove

/-! ## Other lists -/

section Frames

variable {m : Nodes ν} {h : Head ν} {x : ν} {l : List ν}

/-- What `addTail` changes: the node and the last one. -/
theorem addTail_other (hl : Holds m h l) {z : ν} (hzx : z ≠ x) (hz : z ∉ l) :
    (addTail m h x).1.prev z = m.prev z ∧ (addTail m h x).1.next z = m.next z := by
  have hm : ((m.setNext x none).setPrev x h.last).prev z = m.prev z ∧
      ((m.setNext x none).setPrev x h.last).next z = m.next z :=
    ⟨Nodes.setPrev_other _ _ hzx, Nodes.setNext_other _ _ hzx⟩
  cases hlast : h.last with
  | none =>
    rw [hlast] at hm
    rw [addTail, hlast]
    exact hm
  | some y =>
    have hzy : z ≠ y := by
      rintro rfl
      rw [hl.last] at hlast
      exact hz (List.mem_of_getLast? hlast)
    rw [hlast] at hm
    rw [addTail, hlast]
    exact ⟨hm.1, (Nodes.setNext_other _ _ hzy).trans hm.2⟩

/-- What `remove` changes: the nodes of the list. -/
theorem remove_other (hl : Holds m h l) (hx : x ∈ l) {z : ν} (hz : z ∉ l) :
    (remove m h x).1.prev z = m.prev z ∧ (remove m h x).1.next z = m.next z := by
  obtain ⟨k, k', rfl⟩ := List.append_of_mem hx
  have hb := between_of hl
  obtain ⟨-, hfirst, -, hnext, hprev, hkept, -⟩ := unlinkNext_spec hl.nodup hb hl.last
  rw [List.mem_append, List.mem_cons, not_or, not_or] at hz
  have hfront : Chain (unlinkNext m h x).1 none k (some x) := by
    refine chain_congr (fun w hw => hkept w ?_) (fun w _ => congrFun hnext w) hb.front
    exact fun hw' => (List.nodup_append.mp hl.nodup).2.2 w hw w (List.mem_cons_of_mem _ hw') rfl
  obtain ⟨-, -, -, hprev', hkept', -⟩ :=
    @unlinkPrev_spec _ _ (unlinkNext m h x).1 (unlinkNext m h x).2 x k k' hl.nodup
      (hprev.trans hb.prev) ((congrFun hnext x).trans hb.next) hfront (hfirst.trans hl.first)
  exact ⟨(congrFun hprev' z).trans (hkept z hz.2.2), (hkept' z hz.1).trans (congrFun hnext z)⟩

end Frames

end BabyOS.LinkedLists

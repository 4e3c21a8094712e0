import BabyOS.ListFamilies

/-!
# The operations of the lists

All six operations of `dlist_t` on one list, over any sequence of them. `insert`
before a node that is not the first one counts down where it should count up, so the
counter agrees with the list in exactly the sequences that insert at the front only;
the links are right in all of them.
-/

set_option autoImplicit false

namespace BabyOS.ListOperations
open BabyOS.LinkedLists BabyOS.ListFamilies

section Operations

variable {ν : Type} [DecidableEq ν]

def isEmpty (h : Head ν) : Bool := h.length == 0

def insert (m : Nodes ν) (h : Head ν) (pos node : ν) : Nodes ν × Head ν :=
  match m.prev pos with
  | none => addHead m h node
  | some y =>
    ((((m.setPrev node (some y)).setNext y (some node)).setPrev pos (some node)).setNext node (some pos),
      { h with length := lengthLess h.length })

/-- The node and the list without it. -/
def removeHead (m : Nodes ν) (h : Head ν) : Option ν × Nodes ν × Head ν :=
  match h.first with
  | none => (none, m, h)
  | some x => (some x, remove m h x)

def removeTail (m : Nodes ν) (h : Head ν) : Option ν × Nodes ν × Head ν :=
  match h.last with
  | none => (none, m, h)
  | some x => (some x, remove m h x)

inductive Op (ν : Type) where
  | addHead (node : ν)
  | addTail (node : ν)
  | insert (pos node : ν)
  | remove (node : ν)
  | removeHead
  | removeTail

structure State (ν : Type) where
  nodes : Nodes ν
  list : Head ν

def step (s : State ν) : Op ν → State ν
  | .addHead x => ⟨(addHead s.nodes s.list x).1, (addHead s.nodes s.list x).2⟩
  | .addTail x => ⟨(addTail s.nodes s.list x).1, (addTail s.nodes s.list x).2⟩
  | .insert pos x => ⟨(insert s.nodes s.list pos x).1, (insert s.nodes s.list pos x).2⟩
  | .remove x => ⟨(remove s.nodes s.list x).1, (remove s.nodes s.list x).2⟩
  | .removeHead => ⟨(removeHead s.nodes s.list).2.1, (removeHead s.nodes s.list).2.2⟩
  | .removeTail => ⟨(removeTail s.nodes s.list).2.1, (removeTail s.nodes s.list).2.2⟩

/-! ## What the operations are for -/

def insertBefore (pos x : ν) : List ν → List ν
  | [] => []
  | y :: l => if y = pos then x :: y :: l else y :: insertBefore pos x l

def perform (l : List ν) : Op ν → List ν
  | .addHead x => x :: l
  | .addTail x => l++[x]
  | .insert pos x => insertBefore pos x l
  | .remove x => l.erase x
  | .removeHead => l.tail
  | .removeTail => l.dropLast

/-- What is added is not in the list, and the nodes named are. -/
def Allowed (l : List ν) : Op ν → Prop
  | .addHead x => x ∉ l
  | .addTail x => x ∉ l
  | .insert pos x => pos ∈ l ∧ x ∉ l
  | .remove x => x ∈ l
  | .removeHead => True
  | .removeTail => True

def Valid (l : List ν) : List (Op ν) → Prop
  | [] => True
  | op :: ops => Allowed l op ∧ Valid (perform l op) ops

/-- The links read the other way round. -/
def reversed (m : Nodes ν) : Nodes ν := ⟨m.next, m.prev⟩

/-- The links enumerate the list from both ends. -/
structure Ordered (s : State ν) (l : List ν) : Prop where
  forward : Walk s.nodes s.list.first l
  backward : Walk (reversed s.nodes) s.list.last l.reverse
  first : s.list.first = none ↔ l = []
  last : s.list.last = none ↔ l = []

/-- The counter agrees with the list, and so does the test for emptiness. -/
structure Counted (s : State ν) (l : List ν) : Prop where
  length : s.list.length = l.length
  empty : isEmpty s.list = true ↔ l = []

/-- A property of every state on the way, with the list that it should hold. -/
def Always (P : State ν → List ν → Prop) (s : State ν) (l : List ν) : List (Op ν) → Prop
  | [] => P s l
  | op :: ops => P s l ∧ Always P (step s op) (perform l op) ops

/-- Nothing is inserted but before the first node. -/
def AtFront (l : List ν) : List (Op ν) → Prop
  | [] => True
  | op :: ops => (∀ pos x, op = .insert pos x → l.head? = some pos) ∧ AtFront (perform l op) ops

/-! ## Links without the counter -/

/-- The head with another counter. -/
def recount (h : Head ν) (n : ℕ) : Head ν := { h with length := n }

theorem addHead_recount (m : Nodes ν) (h : Head ν) (x : ν) (n : ℕ) :
    addHead m (recount h n) x =
      ((addHead m h x).1, recount (addHead m h x).2 (lengthMore n)) := by
  have hfirst : (recount h n).first = h.first := rfl
  rw [addHead, addHead, hfirst]
  cases h.first with
  | none => rfl
  | some y => rfl

theorem addTail_recount (m : Nodes ν) (h : Head ν) (x : ν) (n : ℕ) :
    addTail m (recount h n) x =
      ((addTail m h x).1, recount (addTail m h x).2 (lengthMore n)) := by
  have hlast : (recount h n).last = h.last := rfl
  rw [addTail, addTail, hlast]
  cases h.last with
  | none => rfl
  | some y => rfl

theorem remove_recount (m : Nodes ν) (h : Head ν) (x : ν) (n : ℕ) :
    remove m (recount h n) x =
      ((remove m h x).1, recount (remove m h x).2 (lengthLess n)) := by
  have hnext : unlinkNext m (recount h n) x = ((unlinkNext m h x).1, recount (unlinkNext m h x).2 n) := by
    rw [unlinkNext, unlinkNext]
    cases m.next x with
    | none => rfl
    | some y => rfl
  have hprev : ∀ (m : Nodes ν) (h : Head ν),
      unlinkPrev m (recount h n) x = ((unlinkPrev m h x).1, recount (unlinkPrev m h x).2 n) := by
    intro m h
    rw [unlinkPrev, unlinkPrev]
    cases m.prev x with
    | none => rfl
    | some y => rfl
  rw [remove, remove]
  dsimp only
  rw [hnext, hprev]
  rfl

theorem remove_length (m : Nodes ν) (h : Head ν) (x : ν) :
    (remove m h x).2.length = lengthLess h.length := by
  have hrecount := congrArg (fun r => r.2.length) (remove_recount m h x h.length)
  exact hrecount

/-- The list head holds `l` but for its counter. -/
def Links (s : State ν) (l : List ν) : Prop := Holds s.nodes (recount s.list l.length) l

omit [DecidableEq ν] in
/-- The chain from the other end. -/
theorem chain_reverse {m : Nodes ν} {before after : Option ν} {l : List ν} (h : Chain m before l after) :
    Chain (reversed m) after l.reverse before := by
  induction l generalizing before with
  | nil => trivial
  | cons x l ih =>
    obtain ⟨hprev, hnext, hrest⟩ := h
    rw [List.reverse_cons, chain_append]
    refine ⟨ih hrest, ?_, ?_, trivial⟩
    · rw [List.getLast?_reverse]
      exact hnext
    · exact hprev

omit [DecidableEq ν] in
theorem Links.ordered {s : State ν} {l : List ν} (h : Links s l) : Ordered s l := by
  have hfirst : s.list.first = l.head? := h.first
  have hlast : s.list.last = l.getLast? := h.last
  refine ⟨h.walk, ?_, ?_, ?_⟩
  · rw [hlast, ← List.head?_reverse]
    exact walk_chain (chain_reverse h.chain)
  · rw [hfirst]
    exact List.head?_eq_none_iff
  · rw [hlast]
    exact List.getLast?_eq_none_iff

/-! ## Insertion -/

theorem insertBefore_append {pos x : ν} {k k' : List ν} (hk : pos ∉ k) :
    insertBefore pos x (k++pos :: k') = k++x :: pos :: k' := by
  induction k with
  | nil => exact if_pos rfl
  | cons y k ih =>
    have hy : y ≠ pos := fun h => hk (h ▸ List.mem_cons_self)
    rw [List.cons_append, insertBefore, if_neg hy, ih fun h => hk (List.mem_cons_of_mem _ h)]
    rfl

/-- The links that `insert` sets between `y` and `pos`. -/
theorem chain_insert {m : Nodes ν} {k k' : List ν} {y pos x : ν} (hnodup : (k++[y]++pos :: k').Nodup)
    (hx : x ∉ k++[y]++pos :: k') (h : Chain m none (k++[y]++pos :: k') none) :
    Chain ((((m.setPrev x (some y)).setNext y (some x)).setPrev pos (some x)).setNext x (some pos)) none
      (k++[y]++x :: pos :: k') none := by
  have hparts := List.nodup_append.mp hnodup
  obtain ⟨hfront, hback⟩ := chain_append.mp h
  have hne : ∀ z ∈ k++[y]++pos :: k', z ≠ x := fun z hz hzx => hx (hzx ▸ hz)
  have hposx : pos ≠ x := hne pos (List.mem_append_right _ List.mem_cons_self)
  have hyx : y ≠ x := hne y (List.mem_append_left _ (List.mem_append_right _ List.mem_cons_self))
  have hypos : ∀ z ∈ k++[y], z ≠ pos := fun z hz hzp => hparts.2.2 z hz pos List.mem_cons_self hzp
  have hposy : ∀ z ∈ pos :: k', z ≠ y := fun z hz hzy =>
    hparts.2.2 y (List.mem_append_right _ List.mem_cons_self) z hz hzy.symm
  rw [chain_append]
  refine ⟨?_, ?_, ?_, ?_⟩
  · -- up to the node before the new one
    have hset : Chain (m.setNext y (some x)) none (k++[y]) (some x) :=
      chain_setLast (some x) hparts.1 hfront
    refine chain_congr (fun z hz => ?_) (fun z hz => ?_) hset
    · change ((((m.setPrev x (some y)).setNext y (some x)).setPrev pos (some x)).prev z) = m.prev z
      rw [Nodes.setPrev_other _ _ (hypos z hz)]
      exact Nodes.setPrev_other _ _ (hne z (List.mem_append_left _ hz))
    · rw [Nodes.setNext_other _ _ (hne z (List.mem_append_left _ hz))]
      rfl
  · change ((((m.setPrev x (some y)).setNext y (some x)).setPrev pos (some x)).prev x) = _
    rw [Nodes.setPrev_other _ _ hposx.symm, Nodes.setNext_prev, Nodes.setPrev_same, List.getLast?_concat]
    rfl
  · exact Nodes.setNext_same ..
  · have hset : Chain (m.setPrev pos (some x)) (some x) (pos :: k') none :=
      chain_setFirst (some x) hparts.2.1 hback
    refine chain_congr (fun z hz => ?_) (fun z hz => ?_) hset
    · change (((m.setPrev x (some y)).setNext y (some x)).setPrev pos (some x)).prev z = _
      by_cases hzp : z = pos
      · rw [hzp, Nodes.setPrev_same, Nodes.setPrev_same]
      · rw [Nodes.setPrev_other _ _ hzp, Nodes.setPrev_other _ _ hzp]
        exact Nodes.setPrev_other _ _ (hne z (List.mem_append_right _ hz))
    · rw [Nodes.setNext_other _ _ (hne z (List.mem_append_right _ hz))]
      exact Nodes.setNext_other _ _ (hposy z hz)

/-- Before the first node `insert` is `addHead`. -/
theorem insert_first {s : State ν} {l : List ν} {pos : ν} (x : ν) (h : Links s (pos :: l)) :
    insert s.nodes s.list pos x = addHead s.nodes s.list x := by
  have hprev : s.nodes.prev pos = none := h.chain.1
  rw [insert, hprev]

theorem insert_inner {s : State ν} {k k' : List ν} {y pos : ν} (x : ν)
    (h : Links s (k++[y]++pos :: k')) :
    insert s.nodes s.list pos x =
      ((((s.nodes.setPrev x (some y)).setNext y (some x)).setPrev pos (some x)).setNext x (some pos),
        { s.list with length := lengthLess s.list.length }) := by
  have hprev : s.nodes.prev pos = some y := by
    rw [(chain_append.mp h.chain).2.1, List.getLast?_concat]
    rfl
  rw [insert, hprev]

theorem insert_links {s : State ν} {l : List ν} {pos x : ν} (h : Links s l) (hpos : pos ∈ l) (hx : x ∉ l)
    (hlen : l.length+1 < 2^64) : Links (step s (.insert pos x)) (insertBefore pos x l) := by
  obtain ⟨k, k', rfl⟩ := List.append_of_mem hpos
  have hk : pos ∉ k := fun hmem => (List.nodup_append.mp h.nodup).2.2 pos hmem pos List.mem_cons_self rfl
  rw [insertBefore_append hk]
  rcases List.eq_nil_or_concat k with rfl | ⟨k₀, y, hlist⟩
  · have hadd : Links ⟨(addHead s.nodes s.list x).1, (addHead s.nodes s.list x).2⟩ (x :: pos :: k') := by
      have hadd := addHead_holds h hx hlen
      rw [addHead_recount, lengthMore_eq hlen] at hadd
      exact hadd
    rw [step, insert_first x h]
    exact hadd
  · rw [List.concat_eq_append] at hlist
    subst hlist
    have hnodup : (k₀++[y]++x :: pos :: k').Nodup := by
      have hperm : (k₀++[y]++x :: pos :: k').Perm (x :: (k₀++[y]++pos :: k')) := List.perm_middle
      exact hperm.nodup_iff.mpr (List.nodup_cons.mpr ⟨hx, h.nodup⟩)
    have hfirst : s.list.first = (k₀++[y]++pos :: k').head? := h.first
    have hlast : s.list.last = (k₀++[y]++pos :: k').getLast? := h.last
    have hend : s.list.last = (k₀++[y]++x :: pos :: k').getLast? := by
      rw [hlast, List.getLast?_append, @List.getLast?_append _ _ (x :: pos :: k'), List.getLast?_cons_cons]
    have hstart : s.list.first = (k₀++[y]++x :: pos :: k').head? := by
      rw [hfirst]
      cases k₀ with
      | nil => rfl
      | cons z k₀ => rfl
    have hlinks : ∀ n, Links ⟨(((s.nodes.setPrev x (some y)).setNext y (some x)).setPrev pos (some x)).setNext x
        (some pos), { s.list with length := n }⟩ (k₀++[y]++x :: pos :: k') := fun n =>
      ⟨hstart, hend, rfl, hnodup, chain_insert h.nodup hx h.chain⟩
    rw [step, insert_inner x h]
    exact hlinks _

/-! ## One operation -/

theorem remove_links {s : State ν} {l : List ν} {x : ν} (h : Links s l) (hx : x ∈ l)
    (hlen : l.length < 2^64) :
    Links ⟨(remove s.nodes s.list x).1, (remove s.nodes s.list x).2⟩ (l.erase x) := by
  have hremoved := remove_holds h hx hlen
  have hcount : lengthLess l.length = (l.erase x).length := by
    have hl := hremoved.length
    rw [remove_length] at hl
    exact hl
  rw [remove_recount, hcount] at hremoved
  exact hremoved

theorem removeHead_links {s : State ν} {l : List ν} (h : Links s l) (hlen : l.length < 2^64) :
    (removeHead s.nodes s.list).1 = l.head? ∧
      Links ⟨(removeHead s.nodes s.list).2.1, (removeHead s.nodes s.list).2.2⟩ l.tail := by
  have hfirst : s.list.first = l.head? := h.first
  cases l with
  | nil =>
    rw [removeHead, hfirst]
    exact ⟨rfl, h⟩
  | cons x l =>
    have hremoved := remove_links h List.mem_cons_self hlen
    rw [List.erase_cons_head] at hremoved
    rw [removeHead, hfirst]
    exact ⟨rfl, hremoved⟩

theorem removeTail_links {s : State ν} {l : List ν} (h : Links s l) (hlen : l.length < 2^64) :
    (removeTail s.nodes s.list).1 = l.getLast? ∧
      Links ⟨(removeTail s.nodes s.list).2.1, (removeTail s.nodes s.list).2.2⟩ l.dropLast := by
  have hlast : s.list.last = l.getLast? := h.last
  rcases List.eq_nil_or_concat l with rfl | ⟨k, x, hlist⟩
  · rw [removeTail, hlast]
    exact ⟨rfl, h⟩
  · rw [List.concat_eq_append] at hlist
    subst hlist
    have hk : x ∉ k := fun hmem => (List.nodup_append.mp h.nodup).2.2 x hmem x List.mem_cons_self rfl
    have hremoved := remove_links h (List.mem_append_right _ List.mem_cons_self) hlen
    rw [List.erase_append_right _ hk, List.erase_cons_head, List.append_nil] at hremoved
    rw [removeTail, hlast, List.getLast?_concat, List.dropLast_concat]
    exact ⟨rfl, hremoved⟩

/-- Every operation keeps the links. -/
theorem step_links {s : State ν} {l : List ν} {op : Op ν} (h : Links s l) (ha : Allowed l op)
    (hlen : l.length+1 < 2^64) : Links (step s op) (perform l op) := by
  cases op with
  | addHead x =>
    have hadd := addHead_holds h ha hlen
    rw [addHead_recount, lengthMore_eq hlen] at hadd
    exact hadd
  | addTail x =>
    have hadd := addTail_holds h ha hlen
    rw [addTail_recount, lengthMore_eq hlen, ← List.length_singleton, ← List.length_append] at hadd
    exact hadd
  | insert pos x => exact insert_links h ha.1 ha.2 hlen
  | remove x => exact remove_links h ha (Nat.lt_of_succ_lt hlen)
  | removeHead => exact (removeHead_links h (Nat.lt_of_succ_lt hlen)).2
  | removeTail => exact (removeTail_links h (Nat.lt_of_succ_lt hlen)).2

omit [DecidableEq ν] in
theorem counted_of {s : State ν} {l : List ν} (hlen : s.list.length = l.length) : Counted s l := by
  refine ⟨hlen, ?_⟩
  rw [isEmpty, beq_iff_eq, hlen]
  exact List.length_eq_zero_iff

omit [DecidableEq ν] in
/-- With the right counter the list is held as a whole. -/
theorem Links.holds {s : State ν} {l : List ν} (h : Links s l) (hc : Counted s l) :
    Holds s.nodes s.list l := by
  have hrecount : recount s.list l.length = s.list := by
    rw [← hc.length]
    rfl
  rw [Links, hrecount] at h
  exact h

theorem insert_counted {s : State ν} {l : List ν} {pos x : ν} (h : Links s l) (hc : Counted s l)
    (hpos : pos ∈ l) (hx : x ∉ l) (hlen : l.length+1 < 2^64) :
    (step s (.insert pos x)).list.length = (insertBefore pos x l).length ↔ l.head? = some pos := by
  obtain ⟨k, k', rfl⟩ := List.append_of_mem hpos
  have hk : pos ∉ k := fun hmem => (List.nodup_append.mp h.nodup).2.2 pos hmem pos List.mem_cons_self rfl
  rw [insertBefore_append hk]
  rcases List.eq_nil_or_concat k with rfl | ⟨k₀, y, hlist⟩
  · have hadd := (addHead_holds (h.holds hc) hx hlen).length
    rw [step, insert_first x h]
    exact ⟨fun _ => rfl, fun _ => hadd⟩
  · rw [List.concat_eq_append] at hlist
    subst hlist
    rw [step, insert_inner x h]
    constructor
    · -- one less instead of one more
      intro hcount
      obtain ⟨n, hn⟩ : ∃ n, (k₀++[y]++pos :: k').length = n+1 :=
        ⟨(k₀++[y]++k').length, by simp only [List.length_append, List.length_cons]; omega⟩
      have hmore : (k₀++[y]++x :: pos :: k').length = n+2 := by
        simp only [List.length_append, List.length_cons] at hn ⊢
        omega
      have hless : lengthLess s.list.length = (k₀++[y]++x :: pos :: k').length := hcount
      rw [hn] at hlen
      rw [hc.length, hn, lengthLess_eq (Nat.lt_of_succ_lt hlen), hmore] at hless
      omega
    · intro hhead
      refine absurd ?_ hk
      cases k₀ with
      | nil =>
        have hy : y = pos := Option.some.inj hhead
        rw [hy]
        exact List.mem_cons_self
      | cons z k₀ =>
        have hz : z = pos := Option.some.inj hhead
        rw [hz]
        exact List.mem_cons_self

/-- The counter stays right in all operations but an insertion behind the front. -/
theorem step_counted {s : State ν} {l : List ν} {op : Op ν} (h : Links s l) (hc : Counted s l)
    (ha : Allowed l op) (hlen : l.length+1 < 2^64) :
    Counted (step s op) (perform l op) ↔ ∀ pos x, op = .insert pos x → l.head? = some pos := by
  have hholds := h.holds hc
  have hlt := Nat.lt_of_succ_lt hlen
  have hright : (step s op).list.length = (perform l op).length →
      (∀ pos x, op ≠ .insert pos x) →
      (Counted (step s op) (perform l op) ↔ ∀ pos x, op = .insert pos x → l.head? = some pos) :=
    fun hcount hne => ⟨fun _ pos x hop => absurd hop (hne pos x), fun _ => counted_of hcount⟩
  cases op with
  | addHead x => exact hright (addHead_holds hholds ha hlen).length (by intros; nofun)
  | addTail x => exact hright (addTail_holds hholds ha hlen).length (by intros; nofun)
  | insert pos x =>
    have hiff := insert_counted h hc ha.1 ha.2 hlen
    constructor
    · intro hcount pos' x' hop
      cases hop
      exact hiff.mp hcount.length
    · exact fun hhead => counted_of (hiff.mpr (hhead pos x rfl))
  | remove x => exact hright (remove_holds hholds ha hlt).length (by intros; nofun)
  | removeHead =>
    refine hright ?_ (by intros; nofun)
    have hfirst : s.list.first = l.head? := hholds.first
    cases l with
    | nil =>
      rw [step, removeHead, hfirst]
      exact hc.length
    | cons x l =>
      have hremoved := (remove_holds hholds List.mem_cons_self hlt).length
      rw [List.erase_cons_head] at hremoved
      rw [step, removeHead, hfirst]
      exact hremoved
  | removeTail =>
    refine hright ?_ (by intros; nofun)
    have hlinks := (removeTail_links h hlt).2
    have hlast : s.list.last = l.getLast? := hholds.last
    rcases List.eq_nil_or_concat l with rfl | ⟨k, x, hlist⟩
    · rw [step, removeTail, hlast]
      exact hc.length
    · rw [List.concat_eq_append] at hlist
      subst hlist
      have hremoved := (remove_holds hholds (List.mem_append_right k List.mem_cons_self) hlt).length
      rw [step, removeTail, hlast, List.getLast?_concat]
      refine hremoved.trans ?_
      rw [List.length_erase_of_mem (List.mem_append_right k List.mem_cons_self), perform,
        List.length_dropLast]

end Operations

/-! ## Any sequence of operations -/

/-- The places of nodes but null, which are multiples of 8. -/
abbrev Address : Type := Fin (2^61-1)

theorem links_lt {s : State Address} {l : List Address} (h : Links s l) : l.length+1 < 2^64 := by
  have hle := h.nodup.length_le_card
  rw [Fintype.card_fin] at hle
  omega

theorem always_links {P : State Address → List Address → Prop}
    (hP : ∀ s l, Links s l → P s l) {ops : List (Op Address)} {s : State Address} {l : List Address}
    (h : Links s l) (hv : Valid l ops) : Always P s l ops := by
  induction ops generalizing s l with
  | nil => exact hP s l h
  | cons op ops ih => exact ⟨hP s l h, ih (step_links h hv.1 (links_lt h)) hv.2⟩

theorem always_counted {ops : List (Op Address)} {s : State Address} {l : List Address}
    (h : Links s l) (hc : Counted s l) (hv : Valid l ops) :
    Always (fun s l => Ordered s l ∧ Counted s l) s l ops ↔ AtFront l ops := by
  induction ops generalizing s l with
  | nil => exact ⟨fun _ => trivial, fun _ => ⟨h.ordered, hc⟩⟩
  | cons op ops ih =>
    have hlinks := step_links h hv.1 (links_lt h)
    have hiff := step_counted h hc hv.1 (links_lt h)
    constructor
    · rintro ⟨-, hrest⟩
      have hnext : Counted (step s op) (perform l op) := by
        cases ops with
        | nil => exact hrest.2
        | cons op' ops => exact hrest.1.2
      exact ⟨hiff.mp hnext, (ih hlinks hnext hv.2).mp hrest⟩
    · rintro ⟨hfront, hrest⟩
      exact ⟨⟨h.ordered, hc⟩, (ih hlinks (hiff.mpr hfront) hv.2).mpr hrest⟩

theorem links_init (m : Nodes Address) : Links ⟨m, empty⟩ [] ∧ Counted (State.mk m empty) [] :=
  ⟨holds_empty m, counted_of rfl⟩

/-- From `init` on the links are those of the list in every state, and the counter is
right in every state if and only if nothing is inserted behind the front. -/
theorem operations_exact (m : Nodes Address) (ops : List (Op Address)) (hv : Valid [] ops) :
    Always Ordered ⟨m, empty⟩ [] ops ∧
      (Always (fun s l => Ordered s l ∧ Counted s l) ⟨m, empty⟩ [] ops ↔ AtFront [] ops) :=
  ⟨always_links (fun _ _ h => h.ordered) (links_init m).1 hv,
    always_counted (links_init m).1 (links_init m).2 hv⟩

def unlinked : Nodes Address := ⟨fun _ => none, fun _ => none⟩

/-- One of the first places. -/
def low (i : Fin 4) : Address := ⟨i, i.isLt.trans (by decide)⟩

theorem low_inj {i j : Fin 4} : low i = low j ↔ i = j :=
  ⟨fun h => Fin.ext (congrArg (fun a : Address => a.val) h), congrArg low⟩

theorem operations_exact_front :
    Always Ordered ⟨unlinked, empty⟩ [] [.addTail (low 1), .insert (low 1) (low 2), .removeTail] ∧
      (Always (fun s l => Ordered s l ∧ Counted s l) ⟨unlinked, empty⟩ []
        [.addTail (low 1), .insert (low 1) (low 2), .removeTail] ↔
        AtFront [] [.addTail (low 1), .insert (low 1) (low 2), .removeTail]) :=
  operations_exact unlinked _ (by simp [Valid, Allowed, perform, low_inj])

/-- Three nodes, and the counter says one. -/
theorem insert_miscounted :
    Valid [] [.addTail (low 1), .addTail (low 2), .insert (low 2) (low 3)] ∧
      ¬ Always (fun s l => Ordered s l ∧ Counted s l) ⟨unlinked, empty⟩ []
        [.addTail (low 1), .addTail (low 2), .insert (low 2) (low 3)] := by
  have hv : Valid [] [.addTail (low 1), .addTail (low 2), .insert (low 2) (low 3)] := by
    simp [Valid, Allowed, perform, low_inj]
  refine ⟨hv, fun h => ?_⟩
  have hfront := (always_counted (links_init unlinked).1 (links_init unlinked).2 hv).mp h
  have hhead := hfront.2.2.1 (low 2) (low 3) rfl
  simp [perform, low_inj] at hhead

end BabyOS.ListOperations

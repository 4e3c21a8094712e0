import Mathlib.Data.List.Basic
import Mathlib.Data.Nat.ModEq
import Mathlib.Logic.Function.Basic
import Mathlib.Tactic.Common

/-!
# Ring queues

The queue template over any element type: a buffer of fixed capacity and two
indices. One slot stays unused, so that a full queue differs from an empty one.
-/

set_option autoImplicit false

namespace BabyOS.RingQueues

variable {T : Type}

/-- `m_front` is the oldest element, `m_rear` the next free slot. -/
structure Queue (T : Type) where
  capacity : ℕ
  front : ℕ
  rear : ℕ
  buffer : ℕ → T

namespace Queue

def init (capacity : ℕ) (buffer : ℕ → T) : Queue T := ⟨capacity, 0, 0, buffer⟩

def empty (q : Queue T) : Bool := q.front == q.rear

def full (q : Queue T) : Bool := (q.rear+1)%q.capacity == q.front

def push (q : Queue T) (val : T) : Bool × Queue T :=
  if q.full then (false, q)
  else (true, { q with
    buffer := Function.update q.buffer q.rear val
    rear := (q.rear+1)%q.capacity })

def pop (q : Queue T) : Bool × Queue T :=
  if q.empty then (false, q)
  else (true, { q with front := (q.front+1)%q.capacity })

def head (q : Queue T) : T := q.buffer q.front

/-- The queue holds the elements of a list, the oldest first. -/
structure Holds (q : Queue T) (l : List T) : Prop where
  inside : q.front < q.capacity
  room : l.length < q.capacity
  rear : q.rear = (q.front+l.length)%q.capacity
  slots : ∀ i (h : i < l.length), q.buffer ((q.front+i)%q.capacity) = l[i]

end Queue

open Queue

theorem holds_init {capacity : ℕ} (hpos : 0 < capacity) (buffer : ℕ → T) :
    (Queue.init capacity buffer).Holds [] :=
  ⟨hpos, hpos, (Nat.zero_mod capacity).symm, fun i hi => absurd hi (Nat.not_lt_zero i)⟩

/-- Two offsets below the capacity that meet are the same. -/
theorem offset_inj {front i j capacity : ℕ} (hi : i < capacity) (hj : j < capacity)
    (h : (front+i)%capacity = (front+j)%capacity) : i = j := by
  have hmod : i%capacity = j%capacity := Nat.ModEq.add_left_cancel' front h
  rwa [Nat.mod_eq_of_lt hi, Nat.mod_eq_of_lt hj] at hmod

theorem pop_capacity (q : Queue T) : q.pop.2.capacity = q.capacity := by
  rw [Queue.pop]
  split_ifs <;> rfl

theorem push_capacity (q : Queue T) (val : T) : (q.push val).2.capacity = q.capacity := by
  rw [Queue.push]
  split_ifs <;> rfl

section Contents

variable {q : Queue T} {l : List T} (h : q.Holds l)

include h

theorem empty_iff : q.empty = true ↔ l = [] := by
  have hfront : q.front = (q.front+0)%q.capacity := by
    rw [Nat.add_zero, Nat.mod_eq_of_lt h.inside]
  rw [Queue.empty, beq_iff_eq, h.rear]
  constructor
  · intro heq
    have hlen := offset_inj (Nat.zero_lt_of_lt h.room) h.room (hfront.symm.trans heq)
    exact List.length_eq_zero_iff.mp hlen.symm
  · intro hnil
    subst hnil
    exact hfront

theorem full_iff : q.full = true ↔ l.length+1 = q.capacity := by
  have hnext : (q.rear+1)%q.capacity = (q.front+(l.length+1))%q.capacity := by
    rw [h.rear, Nat.mod_add_mod, Nat.add_assoc]
  have hroom := h.room
  rw [Queue.full, beq_iff_eq, hnext]
  constructor
  · intro heq
    by_contra hne
    have hzero := offset_inj (j := 0) (by omega) (Nat.zero_lt_of_lt hroom)
      (heq.trans (Nat.mod_eq_of_lt h.inside).symm)
    omega
  · intro heq
    rw [heq, Nat.add_mod_right, Nat.mod_eq_of_lt h.inside]

theorem holds_push (hfull : l.length+1 ≠ q.capacity) (val : T) :
    (q.push val).1 = true ∧ (q.push val).2.Holds (l++[val]) := by
  have hnot : ¬ q.full = true := fun hc => hfull ((full_iff h).mp hc)
  have hroom := h.room
  rw [Queue.push, if_neg hnot]
  refine ⟨rfl, h.inside, ?_, ?_, ?_⟩
  · simp only [List.length_append, List.length_singleton]
    omega
  · change (q.rear+1)%q.capacity = _
    rw [h.rear, Nat.mod_add_mod, List.length_append, List.length_singleton, Nat.add_assoc]
  · intro i hi
    rw [List.length_append, List.length_singleton] at hi
    change Function.update q.buffer q.rear val ((q.front+i)%q.capacity) = _
    by_cases hlast : i = l.length
    · subst hlast
      rw [← h.rear, Function.update_self, List.getElem_append_right (le_refl _)]
      simp
    · have hlt : i < l.length := by omega
      have hother : (q.front+i)%q.capacity ≠ q.rear := by
        rw [h.rear]
        exact fun hc => hlast (offset_inj (by omega) hroom hc)
      rw [Function.update_of_ne hother, List.getElem_append_left hlt]
      exact h.slots i hlt

theorem holds_pop : q.pop.2.Holds l.tail := by
  cases l with
  | nil =>
    rw [Queue.pop, if_pos ((empty_iff h).mpr rfl)]
    exact h
  | cons x rest =>
    have hroom := h.room
    have hnot : ¬ q.empty = true := fun hc => nomatch (empty_iff h).mp hc
    rw [List.length_cons] at hroom
    rw [Queue.pop, if_neg hnot]
    refine ⟨Nat.mod_lt _ (by omega), ?_, ?_, ?_⟩
    · change rest.length < q.capacity
      omega
    · change q.rear = ((q.front+1)%q.capacity+rest.length)%q.capacity
      rw [h.rear, Nat.mod_add_mod, List.length_cons]
      congr 1
      omega
    · intro i hi
      change q.buffer (((q.front+1)%q.capacity+i)%q.capacity) = rest[i]
      have hslot := h.slots (i+1) (Nat.succ_lt_succ hi)
      rw [List.getElem_cons_succ] at hslot
      have hshift : q.front+1+i = q.front+(i+1) := by omega
      rw [Nat.mod_add_mod, hshift]
      exact hslot

theorem head_eq {x : T} {rest : List T} (hl : l = x :: rest) : q.head = x := by
  subst hl
  have hslot := h.slots 0 (Nat.succ_pos _)
  rw [Nat.add_zero, Nat.mod_eq_of_lt h.inside] at hslot
  exact hslot

end Contents

/-- What a push leaves when the oldest element makes room: the last elements, as many as fit. -/
def keepLast (l : List T) (capacity : ℕ) (val : T) : List T :=
  if l.length+1 = capacity then l.tail++[val] else l++[val]

/-- `if (full()) pop(); push(val);`. -/
def pushLast (q : Queue T) (val : T) : Queue T :=
  ((if q.full then q.pop.2 else q).push val).2

theorem holds_pushLast {q : Queue T} {l : List T} (h : q.Holds l) (hpair : 1 < q.capacity) (val : T) :
    (pushLast q val).Holds (keepLast l q.capacity val) ∧ (pushLast q val).capacity = q.capacity := by
  by_cases hfull : l.length+1 = q.capacity
  · have hpop := holds_pop h
    have hcap := pop_capacity q
    have hroom : l.tail.length+1 ≠ q.pop.2.capacity := by
      rw [List.length_tail, hcap]
      omega
    rw [pushLast, if_pos ((full_iff h).mpr hfull), keepLast, if_pos hfull]
    exact ⟨(holds_push hpop hroom val).2, (push_capacity _ val).trans hcap⟩
  · rw [pushLast, if_neg fun hc => hfull ((full_iff h).mp hc), keepLast, if_neg hfull]
    exact ⟨(holds_push h hfull val).2, push_capacity q val⟩

end BabyOS.RingQueues

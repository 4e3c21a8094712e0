import BabyOS.LinkedLists

/-!
# Parents and children

Who the parent of a process is stands in `m_parent` and, a second time, in the list
`m_children` of the parent. A child that is left by its parent gets a new `m_parent`
but no new place in a list.
-/

set_option autoImplicit false

namespace BabyOS.ProcessTree
open BabyOS.LinkedLists

/-- Of a `process_t`, or of the pages that one may be put in. -/
inductive Life
  | free
  | alive
  | zombie
deriving DecidableEq, Repr

/-- Processes are numbered by the first page of their `process_t`; 0 is the idle process.
`nodes` are the nodes `m_child_list_node`. -/
structure Tree where
  life : ℕ → Life
  pid : ℕ → ℤ
  parent : ℕ → Option ℕ
  children : ℕ → Head ℕ
  nodes : Nodes ℕ
  reaper : Option ℕ

namespace Tree

/-- `init` of the child `q`, and at the end of `fork` its place in the list of `p`. -/
def fork (s : Tree) (p q : ℕ) (n : ℤ) : Tree :=
  let r := addTail ((s.nodes.setPrev q none).setNext q none) (s.children p) q
  { s with
    life := Function.update s.life q .alive
    pid := Function.update s.pid q n
    parent := Function.update s.parent q (some p)
    children := Function.update (Function.update s.children q empty) p r.2
    nodes := r.1 }

/-- `get_child_reaper`: the first child of the idle process, found once. -/
def getChildReaper (s : Tree) : Option ℕ := s.reaper.or (s.children 0).first

/-- `adope_children`, with the nodes it walks over. -/
def adopeChildren (s : Tree) (l : List ℕ) : Tree :=
  { s with
    reaper := s.getChildReaper
    parent := fun q => if q ∈ l then s.getChildReaper else s.parent q }

def exit (s : Tree) (p : ℕ) (l : List ℕ) : Tree :=
  { s.adopeChildren l with life := Function.update s.life p .zombie }

/-- `release_process`. -/
def release (s : Tree) (z : ℕ) : Tree :=
  match s.parent z with
  | none => { s with life := Function.update s.life z .free }
  | some q =>
    let r := remove s.nodes (s.children q) z
    { s with
      life := Function.update s.life z .free
      children := Function.update s.children q r.2
      nodes := r.1 }

/-- The child that `wait_children` finds among the nodes it walks over. -/
def found (s : Tree) (pid : ℤ) (l : List ℕ) : Option ℕ :=
  l.find? fun p => decide (pid = -1 ∨ pid = s.pid p) && decide (s.life p = .zombie)

/-- One round of `wait_children`, up to the return or to `schedule`. -/
def wait (s : Tree) (pid : ℤ) (l : List ℕ) : Tree :=
  match s.found pid l with
  | none => s
  | some z => s.release z

end Tree

/-! ## Runs -/

/-- `reuse` is another use of free pages. -/
inductive Event
  | fork (p q : ℕ) (n : ℤ)
  | exit (p : ℕ)
  | wait (p : ℕ) (pid : ℤ)
  | reuse (q : ℕ)

/-- The number of a page of a 64-bit address is below `2^52`; `get_next_pid` gives a number
that no process has. -/
inductive Step : Tree → Event → Tree → Prop
  | fork {s : Tree} {p q : ℕ} {n : ℤ} : s.life p = .alive → s.life q = .free → q < 2 ^ 52 →
      (∀ r, s.life r ≠ .free → s.pid r ≠ n) → Step s (.fork p q n) (s.fork p q n)
  | exit {s : Tree} {p : ℕ} {l : List ℕ} : s.life p = .alive → p ≠ 0 →
      Walk s.nodes (s.children p).first l → Step s (.exit p) (s.exit p l)
  | wait {s : Tree} {p : ℕ} {pid : ℤ} {l : List ℕ} : s.life p = .alive →
      Walk s.nodes (s.children p).first l → Step s (.wait p pid) (s.wait pid l)
  | reuse {s : Tree} {q : ℕ} (x y z : Option ℕ) (h : Head ℕ) (n : ℤ) : s.life q = .free →
      Step s (.reuse q) { s with
        pid := Function.update s.pid q n
        parent := Function.update s.parent q x
        children := Function.update s.children q h
        nodes := (s.nodes.setPrev q y).setNext q z }

/-- After `init_idle`. -/
def start : Tree where
  life := fun p => if p = 0 then .alive else .free
  pid := fun _ => 0
  parent := fun _ => none
  children := fun _ => empty
  nodes := ⟨fun _ => none, fun _ => none⟩
  reaper := none

inductive Run (allowed : Tree → Event → Prop) : Tree → Prop
  | start : Run allowed start
  | step {s s' : Tree} {e : Event} : Run allowed s → allowed s e → Step s e s' → Run allowed s'

/-- Process `q` calls `wait(-1)` again and again. -/
inductive Waits (q : ℕ) : Tree → Tree → Prop
  | refl {s : Tree} : Waits q s s
  | step {s s' t : Tree} : Step s (.wait q (-1)) s' → Waits q s' t → Waits q s t

/-- The processes whose `m_parent` is `q`. -/
def Tree.Members (s : Tree) (q : ℕ) (l : List ℕ) : Prop :=
  ∀ p, p ∈ l ↔ s.life p ≠ .free ∧ s.parent p = some q

/-- What a state of a run has to satisfy: each list is well formed and holds the processes
whose `m_parent` is its owner; each zombie is in the list of a live process, which
finds and releases it. -/
structure Consistent (s : Tree) : Prop where
  lists : ∀ q, s.life q ≠ .free → ∃ l, Holds s.nodes (s.children q) l ∧ s.Members q l
  zombies : ∀ z, s.life z = .zombie → ∃ q l, s.life q = .alive ∧ Holds s.nodes (s.children q) l ∧
    z ∈ l ∧ ∃ s', Waits q s s' ∧ s'.life z = .free

/-- No process exits that has children. -/
def NoOrphans (s : Tree) : Event → Prop
  | .exit p => (s.children p).first = none
  | _ => True

end BabyOS.ProcessTree

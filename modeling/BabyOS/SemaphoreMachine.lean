import Mathlib

/-!
# Semaphores and the scheduler

One processor. Kernel code is not preempted, so a process leaves it only through
`schedule`; an interrupt handler can run wherever interrupts are on, which is
between any two steps here. What a lock with interrupts off covers is one step.
-/

set_option autoImplicit false

namespace BabyOS.SemaphoreMachine

/-- Where a process is in `down`: not in it, in `down_common` with the lock dropped
but before `schedule`, or in `schedule`. -/
inductive Place
  | out
  | dropped
  | scheduled
deriving DecidableEq, Repr

/-- One semaphore, and what the scheduler keeps for each process. Process 0 is the
idle process. `isUp` is the field `m_up` of the waiter of a process; `running` is
`m_state == RUNNING`. -/
structure Machine where
  count : ℕ
  waitList : List ℕ
  isUp : ℕ → Bool
  place : ℕ → Place
  running : ℕ → Bool
  runQueue : List ℕ
  hasCpu : ℕ → Bool
  current : ℕ

namespace Machine

/-- `add_process_to_rq`. -/
def addProcessToRq (m : Machine) (p : ℕ) : Machine :=
  if p ∈ m.runQueue then m else { m with runQueue := p :: m.runQueue }

def wakeUpProcess (m : Machine) (p : ℕ) : Machine :=
  { m with running := Function.update m.running p true }.addProcessToRq p

/-- The choice of the next process; the idle process if there is none. -/
def next (m : Machine) : ℕ := (m.runQueue.find? fun p => m.running p && !m.hasCpu p).getD 0

/-- The run queue after the choice. The queue holds each process at most once. -/
def rest (m : Machine) : List ℕ :=
  match m.runQueue.find? fun p => m.running p && !m.hasCpu p with
  | none => m.runQueue
  | some p => m.runQueue.erase p

/-- `cpu_t::schedule`, up to the switch, and `schedule_tail` of the process before. -/
def schedule (m : Machine) : Machine :=
  let prev := m.current
  if m.next = prev then { m with runQueue := m.rest }
  else
    { m with
      runQueue := if prev ≠ 0 ∧ m.running prev = true ∧ prev ∉ m.rest then m.rest ++ [prev] else m.rest
      hasCpu := Function.update (Function.update m.hasCpu m.next true) prev false
      current := m.next }

/-- `up_common` for the waiter at the head. -/
def upCommon (m : Machine) (waiter : ℕ) : Machine :=
  { m with isUp := Function.update m.isUp waiter true }.wakeUpProcess waiter

/-- `m_count` is a `uint32`. -/
def up (m : Machine) : Machine :=
  match m.waitList with
  | [] => { m with count := (m.count+1) % 2 ^ 32 }
  | waiter :: waiters => { m with waitList := waiters }.upCommon waiter

/-- The round of `down_common` that sets the state and drops the lock. -/
def wait (m : Machine) : Machine :=
  { m with
    running := Function.update m.running m.current false
    place := Function.update m.place m.current .dropped }

/-- `down` until it returns or drops the lock. -/
def down (m : Machine) : Machine :=
  if 0 < m.count then { m with count := m.count-1 }
  else { m with
    isUp := Function.update m.isUp m.current false
    waitList := m.waitList++[m.current] }.wait

/-- `down_common` from the return of `schedule`. -/
def recheck (m : Machine) : Machine :=
  if m.isUp m.current then { m with place := Function.update m.place m.current .out } else m.wait

end Machine

/-! ## Steps -/

/-- `wakeUp` and `setState` are what the rest of the kernel does: any process may be
woken at any time, and a process outside of `down` may change its own state. -/
inductive Event
  | down
  | recheck
  | up
  | schedule
  | wakeUp (p : ℕ)
  | setState (running : Bool)

inductive Step : Machine → Event → Machine → Prop
  | down {m : Machine} : m.current ≠ 0 → m.place m.current = .out → Step m .down m.down
  | recheck {m : Machine} : m.place m.current = .scheduled → Step m .recheck m.recheck
  | up {m : Machine} : Step m .up m.up
  | schedule {m : Machine} : m.place m.current = .out → Step m .schedule m.schedule
  | scheduleDown {m : Machine} : m.place m.current = .dropped →
      Step m .schedule { m with place := Function.update m.place m.current .scheduled }.schedule
  | wakeUp {m : Machine} {p : ℕ} : p ≠ 0 → Step m (.wakeUp p) (m.wakeUpProcess p)
  | setState {m : Machine} {b : Bool} : m.current ≠ 0 → m.place m.current = .out →
      Step m (.setState b) { m with running := Function.update m.running m.current b }

/-! ## Runs -/

/-- What has happened: downs that returned, ups, ups that took `m_count` from
`2^32-1` to 0, and when each process blocked last. -/
structure History where
  completed : ℕ
  ups : ℕ
  wraps : ℕ
  blocked : ℕ
  arrival : ℕ → ℕ

def History.next (g : History) (m : Machine) : Event → History
  | .down =>
    if 0 < m.count then { g with completed := g.completed+1 }
    else { g with blocked := g.blocked+1, arrival := Function.update g.arrival m.current g.blocked }
  | .recheck => if m.isUp m.current then { g with completed := g.completed+1 } else g
  | .up => { g with
      ups := g.ups+1
      wraps := if m.waitList = [] ∧ m.count+1 = 2 ^ 32 then g.wraps+1 else g.wraps }
  | _ => g

/-- After `init`: nobody waits, and only the running process has the processor. -/
structure Start (n : ℕ) (m : Machine) : Prop where
  count : m.count = n
  small : n < 2 ^ 32
  empty : m.waitList = []
  out : ∀ p, m.place p = .out
  cpu : ∀ p, m.hasCpu p = true ↔ p = m.current
  idle : 0 ∉ m.runQueue

inductive Run (n : ℕ) : Machine → History → Prop
  | start {m : Machine} : Start n m → Run n m ⟨0, 0, 0, 0, fun _ => 0⟩
  | step {m m' : Machine} {g : History} {e : Event} : Run n m g → Step m e m' →
      Run n m' (g.next m e)

end BabyOS.SemaphoreMachine

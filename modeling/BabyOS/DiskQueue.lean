import Mathlib

/-!
# The queue of disk requests

One processor, and kernel code is not preempted: at most one process is inside
`add_request`. The interrupt of the drive can arrive between any two of its steps
that are not under the lock; the handler runs with interrupts off.
-/

set_option autoImplicit false

namespace BabyOS.DiskQueue

inductive Cmd
  | read
  | write
deriving DecidableEq, Repr

/-- `number` and `proc` tell the calls of `add_request` apart; the rest is `request_t`. -/
structure Request where
  number : ℕ
  proc : ℕ
  dev : ℕ
  lba : ℕ
  cmd : Cmd
  buffer : ℕ
deriving DecidableEq, Repr

/-- Where the process inside `add_request` is: it has tested whether `m_current` is
null, or it has set `m_current`. -/
inductive Place
  | out
  | tested (r : Request) (free : Bool)
  | taken (r : Request)
deriving DecidableEq, Repr

/-- `device` is the command the drive works on. Of an `io_buffer_t`, `holder` is who
has it locked, `done` is `m_done` and `units` the count of `m_sem_wait_done`; `waiting`
is the request that a process waits for. The last four record what has happened. -/
structure Ide where
  current : Option Request
  reqList : List Request
  device : Option Request
  place : Place
  holder : ℕ → Option ℕ
  done : ℕ → Bool
  units : ℕ → ℕ
  waiting : ℕ → Option Request
  submitted : List Request
  became : List Request
  sent : List Request
  completed : List (Request × ℕ)

namespace Ide

/-- The test at the head of `add_request`. -/
def test (s : Ide) (r : Request) : Ide :=
  { s with place := .tested r s.current.isNone, submitted := s.submitted++[r] }

def setCurrent (s : Ide) (r : Option Request) : Ide :=
  { s with current := r, became := s.became++r.toList }

def doRequest (s : Ide) : Ide :=
  match s.current with
  | none => s
  | some r => { s with device := some r, sent := s.sent++[r] }

/-- `add_request` has returned, and its caller waits for the buffer. -/
def wait (s : Ide) (r : Request) : Ide :=
  { s with place := .out, waiting := Function.update s.waiting r.proc (some r) }

/-- `add_request` goes on. -/
def proceed (s : Ide) : Ide :=
  match s.place with
  | .out => s
  | .tested r true => { s.setCurrent (some r) with place := .taken r }
  | .tested r false => { s with reqList := s.reqList++[r] }.wait r
  | .taken r => s.doRequest.wait r

/-- `io_buffer_t::done`. -/
def bufferDone (s : Ide) (b : ℕ) : Ide :=
  { s with done := Function.update s.done b true, units := Function.update s.units b (s.units b+1) }

/-- The head of the queue, if there is one, becomes the current request. -/
def takeNext (s : Ide) : Ide := { s.setCurrent s.reqList.head? with reqList := s.reqList.tail }

/-- `end_request`; `none` is an access through a null pointer. -/
def endRequest (s : Ide) : Option Ide :=
  match s.current with
  | none => none
  | some r => some (s.bufferDone r.buffer).takeNext.doRequest

/-- The drive has completed its command. The pair is the command and the buffer that is marked. -/
def complete (s : Ide) (c : Request) : Ide :=
  { s with device := none, completed := s.completed++s.current.toList.map fun r => (c, r.buffer) }

end Ide

/-! ## Steps -/

/-- `lock`, `unlock` and `reuse` are what the cache of blocks does with a buffer. -/
inductive Event
  | submit (r : Request)
  | proceed
  | irq
  | resume (p : ℕ)
  | lock (p b : ℕ)
  | unlock (p b : ℕ)
  | reuse (b : ℕ)

/-- `read` and `write` of a device are called with the buffer locked, and
return from `wait` with a unit of `m_sem_wait_done`. -/
inductive Step : Ide → Event → Ide → Prop
  | submit {s : Ide} {r : Request} : s.place = .out → s.waiting r.proc = none →
      s.holder r.buffer = some r.proc → r.number = s.submitted.length →
      Step s (.submit r) (s.test r)
  | proceed {s : Ide} : s.place ≠ .out → Step s .proceed s.proceed
  | irq {s s' : Ide} {c : Request} : s.device = some c → (s.complete c).endRequest = some s' →
      Step s .irq s'
  | resume {s : Ide} {p : ℕ} {r : Request} : s.place = .out → s.waiting p = some r →
      0 < s.units r.buffer →
      Step s (.resume p) { s with
        units := Function.update s.units r.buffer (s.units r.buffer-1)
        waiting := Function.update s.waiting p none }
  | lock {s : Ide} {p b : ℕ} : s.place = .out → s.waiting p = none → s.holder b = none →
      Step s (.lock p b) { s with holder := Function.update s.holder b (some p) }
  | unlock {s : Ide} {p b : ℕ} : s.place = .out → s.waiting p = none → s.holder b = some p →
      Step s (.unlock p b) { s with holder := Function.update s.holder b none }
  | reuse {s : Ide} {b : ℕ} : s.place = .out →
      Step s (.reuse b) { s with done := Function.update s.done b false }

/-- After `ide_t::init` and `block_dev_t::init`. -/
def start : Ide where
  current := none
  reqList := []
  device := none
  place := .out
  holder := fun _ => none
  done := fun _ => false
  units := fun _ => 0
  waiting := fun _ => none
  submitted := []
  became := []
  sent := []
  completed := []

inductive Run (allowed : Ide → Event → Prop) : Ide → Prop
  | start : Run allowed start
  | step {s s' : Ide} {e : Event} : Run allowed s → allowed s e → Step s e s' → Run allowed s'

/-- What follows a state, with this many interrupts of the drive in it. -/
inductive Follows (allowed : Ide → Event → Prop) (s : Ide) : ℕ → Ide → Prop
  | refl : Follows allowed s 0 s
  | irq {n : ℕ} {t t' : Ide} : Follows allowed s n t → allowed t .irq → Step t .irq t' →
      Follows allowed s (n+1) t'
  | step {n : ℕ} {t t' : Ide} {e : Event} : Follows allowed s n t → e ≠ .irq → allowed t e →
      Step t e t' → Follows allowed s n t'

/-! ## What a state of a run has to satisfy -/

/-- The request that `add_request` has in hand. -/
def Place.request : Place → Option Request
  | .out => none
  | .tested r _ => some r
  | .taken r => some r

/-- The request that is current but not yet sent. -/
def Place.unsent : Place → Option Request
  | .taken r => some r
  | _ => none

/-- A queue with requests has a current one, and the drive at work; the requests are
sent in the order in which they are submitted, each once; each completion marks the
buffer of its own request; a process that waits has its request in the queue or with the
drive, or its unit is there. -/
structure Served (s : Ide) : Prop where
  busy : s.reqList ≠ [] → s.current ≠ none ∧ s.device ≠ none
  order : s.submitted = s.sent++s.reqList++s.place.request.toList
  once : (s.submitted.map (·.number)).Nodup
  became : s.became = s.sent++s.place.unsent.toList
  sent : s.sent = s.completed.map Prod.fst++s.device.toList
  marked : ∀ x ∈ s.completed, x.2 = x.1.buffer
  irq : ∀ c, s.device = some c → s.current = some c
  awake : ∀ p r, s.waiting p = some r → r ∈ s.reqList ∨ s.device = some r ∨ 0 < s.units r.buffer

/-- No interrupt that finds the queue empty comes between the test of `m_current` and the lock. -/
def NotBetween (s : Ide) : Event → Prop
  | .irq => ∀ r, s.place = .tested r false → s.reqList ≠ []
  | _ => True

end BabyOS.DiskQueue

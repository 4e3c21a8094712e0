import Mathlib

/-!
# The run queue and the lives of processes

One processor; kernel code is not preempted. An interrupt can wake a process between
any two steps, also while `schedule` switches; what a lock covers is one step. The
list of waiters of a semaphore and the list of timers hold records that lie on the kernel
stack of a process, that is in the pages of its `process_t`.
-/

set_option autoImplicit false

namespace BabyOS.RunQueue

/-- Of a `process_t`, or of the pages that one may be put in. -/
inductive Life
  | free
  | running
  | sleep
  | zombie
deriving DecidableEq, Repr

/-- The lists that a process is linked in while it sleeps: a `wait_queue_t`, the
`m_wait_child` of a process, the timers, the waiters of a semaphore. -/
inductive Where
  | queue (k : ℕ)
  | child (q : ℕ)
  | timer
  | sem (k : ℕ)
deriving DecidableEq, Repr

/-- Where a process is in `sleep_on` or `sleep` (`joined` to `away`), in `down` (`asleep`,
`away`), in `wait_children` (`waitJoined` to `waitLeave`), or in `exit`. `away` is inside `schedule`. -/
inductive Place
  | out
  | joined (w : Where)
  | asleep (w : Where)
  | away (w : Where)
  | waitJoined (pid : ℤ)
  | waitWalk (pid : ℤ)
  | waitAsleep (pid : ℤ)
  | waitAway (pid : ℤ)
  | waitEnd
  | waitLeave
  | stopped
  | dying
  | dead
deriving DecidableEq, Repr

/-- Where the processor is in `schedule`: the next process is chosen, or the stack is
switched and the process before still has `m_has_cpu` set. -/
inductive Phase
  | normal
  | chosen (next : ℕ)
  | switched (prev : ℕ)
deriving DecidableEq, Repr

/-- Process 0 is the idle process. `expires` is the `m_expires` of the timer of a process, `isUp`
the `m_up` of its waiter. -/
structure State where
  life : ℕ → Life
  runQueue : List ℕ
  hasCpu : ℕ → Bool
  current : ℕ
  phase : Phase
  place : ℕ → Place
  lists : Where → List ℕ
  expires : ℕ → ℕ
  count : ℕ → ℕ
  isUp : ℕ → Bool
  pid : ℕ → ℤ
  parent : ℕ → Option ℕ
  children : ℕ → List ℕ
  reaper : Option ℕ

namespace State

def setPlace (s : State) (x : Place) : State :=
  { s with place := Function.update s.place s.current x }

def setLife (s : State) (p : ℕ) (x : Life) : State := { s with life := Function.update s.life p x }

def link (s : State) (w : Where) : State :=
  { s with lists := Function.update s.lists w (s.lists w++[s.current]) }

def unlink (s : State) (w : Where) : State :=
  { s with lists := Function.update s.lists w ((s.lists w).erase s.current) }

/-- `add_timer` of the timer on the stack. -/
def addTimer (s : State) (ticks : ℕ) : State :=
  { s with expires := Function.update s.expires s.current ticks }.link .timer

/-! ## Waking -/

def addProcessToRq (s : State) (p : ℕ) : State :=
  if p ∈ s.runQueue then s else { s with runQueue := p :: s.runQueue }

def wakeUpProcess (s : State) (p : ℕ) : State := (s.setLife p .running).addProcessToRq p

/-- `wait_queue_t::wake_up`: the head stays in the queue. -/
def wakeUp (s : State) (w : Where) : State :=
  match s.lists w with
  | [] => s
  | p :: _ => s.wakeUpProcess p

/-- `timer_t::update`. -/
def timerUpdate (s : State) (p : ℕ) : State :=
  if s.expires p = 0 then s
  else
    let s' := { s with expires := Function.update s.expires p (s.expires p-1) }
    if s'.expires p = 0 then s'.wakeUpProcess p else s'

/-- `timer_mgr_t::update`. -/
def tick (s : State) : State := (s.lists .timer).foldl timerUpdate s

/-- `up`; `m_count` is a `uint32`. -/
def up (s : State) (k : ℕ) : State :=
  match s.lists (.sem k) with
  | [] => { s with count := Function.update s.count k ((s.count k+1) % 2 ^ 32) }
  | p :: l =>
    { s with
      lists := Function.update s.lists (.sem k) l
      isUp := Function.update s.isUp p true }.wakeUpProcess p

/-! ## schedule -/

/-- The choice of the next process; the idle process if there is none. -/
def next (s : State) : ℕ := (s.runQueue.find? fun p => decide (s.life p = .running) && !s.hasCpu p).getD 0

def rest (s : State) : List ℕ :=
  match s.runQueue.find? fun p => decide (s.life p = .running) && !s.hasCpu p with
  | none => s.runQueue
  | some p => s.runQueue.erase p

/-- `schedule` up to the unlock. -/
def choose (s : State) : State :=
  if s.next = s.current then { s with runQueue := s.rest }
  else
    { s with
      runQueue :=
        if s.current ≠ 0 ∧ s.life s.current = .running ∧ s.current ∉ s.rest then s.rest++[s.current]
        else s.rest
      hasCpu := Function.update s.hasCpu s.next true
      phase := .chosen s.next }

def switchTo (s : State) (n : ℕ) : State := { s with current := n, phase := .switched s.current }

def scheduleTail (s : State) (prev : ℕ) : State :=
  { s with hasCpu := Function.update s.hasCpu prev false, phase := .normal }

/-! ## Processes -/

/-- The child of `fork`, on page `q` and with number `n`, and its place among the children. -/
def newChild (s : State) (q : ℕ) (n : ℤ) : State :=
  { s with
    life := Function.update s.life q .running
    hasCpu := Function.update s.hasCpu q false
    place := Function.update s.place q .out
    lists := Function.update s.lists (.child q) []
    pid := Function.update s.pid q n
    parent := Function.update s.parent q (some s.current)
    children := Function.update (Function.update s.children q []) s.current (s.children s.current++[q]) }

def fork (s : State) (q : ℕ) (n : ℤ) : State := (s.newChild q n).addProcessToRq q

/-- `down` until it returns or drops the lock. -/
def down (s : State) (k : ℕ) : State :=
  if 0 < s.count k then { s with count := Function.update s.count k (s.count k-1) }
  else ({ s with isUp := Function.update s.isUp s.current false }.link (.sem k)).setLife s.current .sleep
    |>.setPlace (.asleep (.sem k))

/-- `down_common` from the return of `schedule`. -/
def recheck (s : State) (k : ℕ) : State :=
  if s.isUp s.current then s.setPlace .out
  else (s.setLife s.current .sleep).setPlace (.asleep (.sem k))

/-- `release_process`, after it has seen that the process is off the processor. -/
def release (s : State) (z : ℕ) : State :=
  { s with
    life := Function.update s.life z .free
    children := match s.parent z with
      | none => s.children
      | some q => Function.update s.children q ((s.children q).erase z) }

/-- The children that `wait_children` asks for, in the order of the list. -/
def asked (s : State) (pid : ℤ) : List ℕ :=
  (s.children s.current).filter fun p => decide (pid = -1 ∨ pid = s.pid p)

/-- The walk of `wait_children` over the list. -/
def walk (s : State) (pid : ℤ) : State :=
  match (s.asked pid).find? fun p => decide (s.life p = .zombie) with
  | some z => (s.release z).setPlace .waitEnd
  | none => if s.asked pid = [] then s.setPlace .waitEnd else s.setPlace (.waitAsleep pid)

def getChildReaper (s : State) : Option ℕ := s.reaper.or (s.children 0).head?

/-- `exit` from `adope_children` to the setting of the state. -/
def exit (s : State) : State :=
  { s with
    reaper := s.getChildReaper
    parent := fun p => if p ∈ s.children s.current then s.getChildReaper else s.parent p
    life := Function.update s.life s.current .zombie }.setPlace .dying

end State

/-! ## Steps -/

/-- Where a process goes on when it has left the processor in `schedule` and comes back. -/
def Place.afterSchedule : Place → Place
  | .asleep w => .away w
  | .waitAsleep pid => .waitAway pid
  | .stopped => .out
  | x => x

/-- The places that `schedule` is called from. -/
def Place.callsSchedule : Place → Bool
  | .out => true
  | .asleep _ => true
  | .waitAsleep _ => true
  | .stopped => true
  | .dead => true
  | _ => false

/-- The lists of `sleep_on` and `sleep`. -/
def Where.isSleep : Where → Bool
  | .queue _ => true
  | .timer => true
  | _ => false

inductive Event
  | wake (w : Where)
  | tick
  | up (k : ℕ)
  | schedule
  | switchTo
  | tail
  | sleepOn (k : ℕ)
  | sleep (ticks : ℕ)
  | doze
  | leave
  | down (k : ℕ)
  | recheck
  | waitStart (pid : ℤ)
  | waitDoze
  | walk
  | waitWake
  | waitLeave
  | stop
  | fork (q : ℕ) (n : ℤ)
  | exit
  | notify

/-- The first three can happen at any moment. -/
inductive Step : State → Event → State → Prop
  | wake {s : State} {w : Where} : (∀ k, w ≠ .sem k) → w ≠ .timer → Step s (.wake w) (s.wakeUp w)
  | tick {s : State} : Step s .tick s.tick
  | up {s : State} {k : ℕ} : Step s (.up k) (s.up k)
  | schedule {s : State} : s.phase = .normal → (s.place s.current).callsSchedule = true →
      Step s .schedule (s.setPlace (s.place s.current).afterSchedule).choose
  | switchTo {s : State} {n : ℕ} : s.phase = .chosen n → Step s .switchTo (s.switchTo n)
  | tail {s : State} {p : ℕ} : s.phase = .switched p → Step s .tail (s.scheduleTail p)
  | sleepOn {s : State} {k : ℕ} : s.phase = .normal → s.place s.current = .out →
      Step s (.sleepOn k) ((s.link (.queue k)).setPlace (.joined (.queue k)))
  | sleep {s : State} {ticks : ℕ} : s.phase = .normal → s.place s.current = .out →
      Step s (.sleep ticks) ((s.addTimer ticks).setPlace (.joined .timer))
  | doze {s : State} {w : Where} : s.phase = .normal → s.place s.current = .joined w →
      Step s .doze ((s.setLife s.current .sleep).setPlace (.asleep w))
  | leave {s : State} {w : Where} : s.phase = .normal → s.place s.current = .away w →
      w.isSleep = true → Step s .leave ((s.unlink w).setPlace .out)
  | down {s : State} {k : ℕ} : s.phase = .normal → s.place s.current = .out →
      Step s (.down k) (s.down k)
  | recheck {s : State} {k : ℕ} : s.phase = .normal → s.place s.current = .away (.sem k) →
      Step s .recheck (s.recheck k)
  | waitStart {s : State} {pid : ℤ} : s.phase = .normal → s.place s.current = .out →
      Step s (.waitStart pid) ((s.link (.child s.current)).setPlace (.waitJoined pid))
  | waitDoze {s : State} {pid : ℤ} : s.phase = .normal →
      s.place s.current = .waitJoined pid ∨ s.place s.current = .waitAway pid →
      Step s .waitDoze ((s.setLife s.current .sleep).setPlace (.waitWalk pid))
  | walk {s : State} {pid : ℤ} : s.phase = .normal → s.place s.current = .waitWalk pid →
      Step s .walk (s.walk pid)
  | waitWake {s : State} : s.phase = .normal → s.place s.current = .waitEnd →
      Step s .waitWake ((s.setLife s.current .running).setPlace .waitLeave)
  | waitLeave {s : State} : s.phase = .normal → s.place s.current = .waitLeave →
      Step s .waitLeave ((s.unlink (.child s.current)).setPlace .out)
  | stop {s : State} : s.phase = .normal → s.place s.current = .out →
      Step s .stop ((s.setLife s.current .sleep).setPlace .stopped)
  | fork {s : State} {q : ℕ} {n : ℤ} : s.phase = .normal → s.place s.current = .out →
      s.life q = .free → Step s (.fork q n) (s.fork q n)
  | exit {s : State} : s.phase = .normal → s.place s.current = .out → s.current ≠ 0 →
      Step s .exit s.exit
  | notify {s : State} {q : ℕ} : s.phase = .normal → s.place s.current = .dying →
      s.parent s.current = some q → Step s .notify ((s.wakeUp (.child q)).setPlace .dead)

/-! ## Runs -/

/-- After `init_idle`: the idle process runs. -/
def start : State where
  life := fun p => if p = 0 then .running else .free
  runQueue := []
  hasCpu := fun _ => false
  current := 0
  phase := .normal
  place := fun _ => .out
  lists := fun _ => []
  expires := fun _ => 0
  count := fun _ => 1
  isUp := fun _ => false
  pid := fun _ => 0
  parent := fun _ => none
  children := fun _ => []
  reaper := none

inductive Run (allowed : State → Event → Prop) : State → Prop
  | start (count : ℕ → ℕ) : Run allowed { start with count := count }
  | step {s s' : State} {e : Event} : Run allowed s → allowed s e → Step s e s' → Run allowed s'

/-- Who has the processor: the current process, or the one that `schedule` has chosen and
is about to switch to. -/
def State.holder (s : State) : ℕ :=
  match s.phase with
  | .chosen n => n
  | _ => s.current

/-- What a state of a run has to satisfy. -/
structure Orderly (s : State) : Prop where
  once : s.runQueue.Nodup
  running : ∀ p, p ≠ 0 → s.life p = .running → p = s.holder ∨ p ∈ s.runQueue
  zombie : ∀ p, s.life p = .zombie → p ∉ s.runQueue ∧ ∀ w, p ∉ s.lists w
  freed : ∀ p, s.life p = .free →
    p ∉ s.runQueue ∧ (∀ w, p ∉ s.lists w) ∧ ∀ q, s.life q ≠ .free → p ∉ s.children q

/-- A process that exits has not been woken since `schedule` chose it. -/
def NotWoken (s : State) : Event → Prop
  | .exit => s.current ∉ s.runQueue
  | _ => True

end BabyOS.RunQueue

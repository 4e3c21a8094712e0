import Mathlib

/-!
# Pipes

`pipe_t` with its ring buffer and its two wait queues. Kernel code is not
preempted, so a step runs from the call of an operation, or from the return of
`sleep_on` inside it, to its next sleep or its end.
-/

set_option autoImplicit false

namespace BabyOS.PipeMachine

def bufferSize : ℕ := 1024

/-- Where a process is: in no operation, or asleep (or woken and not yet run) inside
`read` or `write`, with what is left to do. -/
inductive Place
  | out
  | reading (size : ℕ)
  | writing (data : List ℕ)
deriving DecidableEq, Repr

/-- A pipe, and the state of each process: `running` is `m_state == RUNNING`. The
indices are `uint32`. -/
structure Pipe where
  buffer : ℕ → ℕ
  readIndex : ℕ
  writeIndex : ℕ
  readable : Bool
  writable : Bool
  readerWq : List ℕ
  writerWq : List ℕ
  running : ℕ → Bool
  place : ℕ → Place

namespace Pipe

def wakeUp (s : Pipe) : List ℕ → Pipe
  | [] => s
  | p :: _ => { s with running := Function.update s.running p true }

/-- `m_reader_wq.wake_up()`: the head is woken, and stays on the queue. -/
def wakeReader (s : Pipe) : Pipe := s.wakeUp s.readerWq

def wakeWriter (s : Pipe) : Pipe := s.wakeUp s.writerWq

/-- `sleep_on(&m_reader_wq)` up to `schedule`. -/
def sleepReader (s : Pipe) (p size : ℕ) : Pipe :=
  { s with
    readerWq := s.readerWq++[p]
    running := Function.update s.running p false
    place := Function.update s.place p (.reading size) }

def sleepWriter (s : Pipe) (p : ℕ) (data : List ℕ) : Pipe :=
  { s with
    writerWq := s.writerWq++[p]
    running := Function.update s.running p false
    place := Function.update s.place p (.writing data) }

def done (s : Pipe) (p : ℕ) : Pipe := { s with place := Function.update s.place p .out }

/-- The copying loop of `read`: the bytes in their order. -/
def take : ℕ → Pipe → List ℕ × Pipe
  | 0, s => ([], s)
  | size+1, s =>
    if s.readIndex = s.writeIndex then ([], s)
    else
      let r := take size { s with readIndex := (s.readIndex+1) % 2 ^ 32 }
      (s.buffer (s.readIndex % bufferSize) :: r.1, r.2)

/-- `read` from its start or from the return of `sleep_on`. -/
def read (s : Pipe) (p size : ℕ) : List ℕ × Pipe :=
  if s.writeIndex = s.readIndex ∧ s.writable = true then ([], s.sleepReader p size)
  else
    let r := take size s
    (r.1, r.2.wakeWriter.done p)

/-- `m_buffer[m_write_index++ % BUFFER_SIZE] = byte`. -/
def put (s : Pipe) (byte : ℕ) : Pipe :=
  { s with
    buffer := Function.update s.buffer (s.writeIndex % bufferSize) byte
    writeIndex := (s.writeIndex+1) % 2 ^ 32 }

/-- The loop of `write`, from its start or from the return of `sleep_on`. The first
part of the result is what has been stored. -/
def write (s : Pipe) (p : ℕ) : List ℕ → List ℕ × Pipe
  | [] => ([], s.wakeReader.done p)
  | byte :: rest =>
    if s.writeIndex = (s.readIndex+bufferSize) % 2 ^ 32 then
      if s.readable = false then ([], s.done p)
      else ([], s.wakeReader.sleepWriter p (byte :: rest))
    else
      let r := (s.put byte).write p rest
      (byte :: r.1, r.2)

/-- `close`, without the release of the buffer. -/
def close (s : Pipe) (writeEnd : Bool) : Pipe :=
  if writeEnd then { s with writable := false }.wakeReader
  else { s with readable := false }.wakeWriter

/-- The return of `sleep_on`: `remove` from the queue. -/
def leaveReaders (s : Pipe) (p : ℕ) : Pipe := { s with readerWq := s.readerWq.erase p }

def leaveWriters (s : Pipe) (p : ℕ) : Pipe := { s with writerWq := s.writerWq.erase p }

end Pipe

/-! ## Steps -/

inductive Event
  | read (p size : ℕ)
  | resumeRead (p size : ℕ)
  | write (p : ℕ) (data : List ℕ)
  | resumeWrite (p : ℕ) (data : List ℕ)
  | close (writeEnd : Bool)

/-- A step, with the bytes that it returns and the bytes that it stores. -/
inductive Step : Pipe → Event → List ℕ → List ℕ → Pipe → Prop
  | read {s : Pipe} {p size : ℕ} : s.place p = .out →
      Step s (.read p size) (s.read p size).1 [] (s.read p size).2
  | resumeRead {s : Pipe} {p size : ℕ} : s.place p = .reading size → s.running p = true →
      Step s (.resumeRead p size) ((s.leaveReaders p).read p size).1 [] ((s.leaveReaders p).read p size).2
  | write {s : Pipe} {p : ℕ} {data : List ℕ} : s.place p = .out →
      Step s (.write p data) [] (s.write p data).1 (s.write p data).2
  | resumeWrite {s : Pipe} {p : ℕ} {data : List ℕ} : s.place p = .writing data → s.running p = true →
      Step s (.resumeWrite p data) [] ((s.leaveWriters p).write p data).1 ((s.leaveWriters p).write p data).2
  | close {s : Pipe} {writeEnd : Bool} : Step s (.close writeEnd) [] [] (s.close writeEnd)

/-- After `init`. -/
structure Start (s : Pipe) : Prop where
  readIndex : s.readIndex = 0
  writeIndex : s.writeIndex = 0
  readable : s.readable = true
  writable : s.writable = true
  readers : s.readerWq = []
  writers : s.writerWq = []
  out : ∀ p, s.place p = .out

/-- Runs with steps that `allowed` admits, with all bytes that were returned and all
bytes that were stored. -/
inductive Run (allowed : Pipe → Event → Prop) : Pipe → List ℕ → List ℕ → Prop
  | start {s : Pipe} : Start s → Run allowed s [] []
  | step {s s' : Pipe} {e : Event} {returned stored out ins : List ℕ} : Run allowed s returned stored →
      allowed s e → Step s e out ins s' → Run allowed s' (returned++out) (stored++ins)

end BabyOS.PipeMachine

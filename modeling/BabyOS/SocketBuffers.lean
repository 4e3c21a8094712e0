import BabyOS.RangeSums

/-!
# The stream buffer of a socket

Any number of processes get and put bytes, one or several at a time. What the
spin lock covers is one step for the single bytes; `get_data` and `put_data`
use the semaphores while they hold it, so their loops are steps of their own.
-/

set_option autoImplicit false

namespace BabyOS.SocketBuffers
open BabyOS.RangeSums

/-- The semaphores `m_wait_item` and `m_wait_space`. -/
inductive Kind
  | item
  | space
deriving DecidableEq, Repr

structure Semaphore where
  count : ℕ
  waitList : List ℕ

/-- Where a process is in the four operations. In the last four it has the lock:
before the test of the loop, and before a `down`. The two that are stuck wait
for a unit with the lock. -/
inductive Place
  | out
  | getWait
  | getLock
  | getUp
  | putWait (ch : ℕ)
  | putLock (ch : ℕ)
  | putUp
  | readWait (max : ℕ)
  | readLock (max : ℕ)
  | readStuck (n : ℕ)
  | writeStuck (rest : List ℕ)
  | readByte (n : ℕ)
  | readItem (n : ℕ)
  | writeByte (data : List ℕ)
  | writeSpace (rest : List ℕ)
deriving DecidableEq

/-- What follows a `down` that has its unit. -/
def Place.granted : Place → Place
  | .getWait => .getLock
  | .putWait ch => .putLock ch
  | .readWait max => .readLock max
  | .readStuck n => .readByte n
  | .writeStuck rest => .writeByte rest
  | x => x

/-- `sock_ring_buffer_t`; `connected` tells whether the state of the socket is
`SS_CONNECTED`, and `lock` who holds `m_lock`. -/
structure Ring where
  buffer : ℕ → ℕ
  length : ℕ
  left : ℕ
  readIndex : ℕ
  writeIndex : ℕ
  lock : Option ℕ
  sem : Kind → Semaphore
  connected : Bool
  place : ℕ → Place
  procs : ℕ

def Ring.go (s : Ring) (p : ℕ) (x : Place) : Ring := { s with place := Function.update s.place p x }

/-- `down`, which leaves the process where it waits when there is no unit. -/
def Ring.down (s : Ring) (k : Kind) (p : ℕ) (wait : Place) : Ring :=
  if 0 < (s.sem k).count then
    { s with sem := Function.update s.sem k { s.sem k with count := (s.sem k).count-1 } }.go p wait.granted
  else
    { s with sem := Function.update s.sem k { s.sem k with waitList := (s.sem k).waitList ++ [p] } }.go p wait

/-- `up`, which hands its unit to the first that waits. -/
def Ring.up (s : Ring) (k : Kind) : Ring :=
  match (s.sem k).waitList with
  | [] => { s with sem := Function.update s.sem k { s.sem k with count := ((s.sem k).count+1)%2^32 } }
  | q :: rest =>
    { s with sem := Function.update s.sem k { s.sem k with waitList := rest } }.go q (s.place q).granted

/-- The byte at the read index is taken. -/
def Ring.take (s : Ring) : Ring :=
  { s with readIndex := (s.readIndex+1)%s.length, left := (s.left+1)%2^32 }

def Ring.put (s : Ring) (ch : ℕ) : Ring :=
  { s with
    buffer := Function.update s.buffer s.writeIndex ch
    writeIndex := (s.writeIndex+1)%s.length
    left := (s.left+(2^32-1))%2^32 }

inductive Event
  | getChar (p : ℕ)
  | putChar (p ch : ℕ)
  | getData (p max : ℕ)
  | putData (p : ℕ) (data : List ℕ)
  | go (p : ℕ)
  | disconnect

/-- A step, with the bytes that it returns and stores. -/
inductive Step : Ring → Event → List ℕ → List ℕ → Ring → Prop
  | getChar {s : Ring} {p : ℕ} : p < s.procs → s.place p = .out →
      Step s (.getChar p) [] [] (s.down .item p .getWait)
  | getByte {s : Ring} {p : ℕ} : s.place p = .getLock → s.lock = none → s.connected = true →
      Step s (.go p) [s.buffer s.readIndex] [] (s.take.go p .getUp)
  | getNone {s : Ring} {p : ℕ} : s.place p = .getLock → s.lock = none → s.connected = false →
      Step s (.go p) [] [] (s.go p .getUp)
  | getUp {s : Ring} {p : ℕ} : s.place p = .getUp → Step s (.go p) [] [] ((s.go p .out).up .space)
  | putChar {s : Ring} {p ch : ℕ} : p < s.procs → s.place p = .out →
      Step s (.putChar p ch) [] [] (s.down .space p (.putWait ch))
  | putByte {s : Ring} {p ch : ℕ} : s.place p = .putLock ch → s.lock = none → s.connected = true →
      Step s (.go p) [] [ch] ((s.put ch).go p .putUp)
  | putNone {s : Ring} {p ch : ℕ} : s.place p = .putLock ch → s.lock = none → s.connected = false →
      Step s (.go p) [] [] (s.go p .putUp)
  | putUp {s : Ring} {p : ℕ} : s.place p = .putUp → Step s (.go p) [] [] ((s.go p .out).up .item)
  | getData {s : Ring} {p max : ℕ} : p < s.procs → s.place p = .out →
      Step s (.getData p max) [] [] (s.down .item p (.readWait max))
  | readLock {s : Ring} {p max : ℕ} : s.place p = .readLock max → s.lock = none → s.connected = true →
      Step s (.go p) [] [] ({ s with lock := some p }.go p (.readByte max))
  | readNone {s : Ring} {p max : ℕ} : s.place p = .readLock max → s.lock = none → s.connected = false →
      Step s (.go p) [] [] (s.go p .out)
  | readByte {s : Ring} {p n : ℕ} : s.place p = .readByte (n+1) →
      Step s (.go p) [s.buffer s.readIndex] [] ((s.take.go p (.readItem n)).up .space)
  /-- `max` bytes are read. -/
  | readDone {s : Ring} {p : ℕ} : s.place p = .readByte 0 →
      Step s (.go p) [] [] ({ s with lock := none }.go p .out)
  | readItem {s : Ring} {p n : ℕ} : s.place p = .readItem n → s.left ≠ s.length →
      Step s (.go p) [] [] (s.down .item p (.readStuck n))
  /-- The buffer is empty. -/
  | readBreak {s : Ring} {p n : ℕ} : s.place p = .readItem n → s.left = s.length →
      Step s (.go p) [] [] ({ s with lock := none }.go p .out)
  /-- The result is -1 without enough room, and 0 without a connection. -/
  | putNothing {s : Ring} {p : ℕ} {data : List ℕ} : p < s.procs → s.place p = .out → s.lock = none →
      s.left < data.length ∨ s.connected = false → Step s (.putData p data) [] [] s
  | putData {s : Ring} {p : ℕ} {data : List ℕ} : p < s.procs → s.place p = .out → s.lock = none →
      data.length ≤ s.left → s.connected = true →
      Step s (.putData p data) [] [] ({ s with lock := some p }.go p (.writeByte data))
  | writeByte {s : Ring} {p ch : ℕ} {rest : List ℕ} : s.place p = .writeByte (ch :: rest) →
      Step s (.go p) [] [ch] (((s.put ch).go p (.writeSpace rest)).up .item)
  | writeDone {s : Ring} {p : ℕ} : s.place p = .writeByte [] →
      Step s (.go p) [] [] ({ s with lock := none }.go p .out)
  | writeSpace {s : Ring} {p : ℕ} {rest : List ℕ} : s.place p = .writeSpace rest →
      Step s (.go p) [] [] (s.down .space p (.writeStuck rest))
  | disconnect {s : Ring} : Step s .disconnect [] [] { s with connected := false }

def pageSize : ℕ := 4096

/-- After `init`, which gets its buffer from `alloc_pages`. -/
structure Start (s : Ring) : Prop where
  length : ∃ order, s.length = pageSize*2^order
  small : s.length < 2^32
  left : s.left = s.length
  readIndex : s.readIndex = 0
  writeIndex : s.writeIndex = 0
  lock : s.lock = none
  item : s.sem .item = ⟨0, []⟩
  space : s.sem .space = ⟨s.length, []⟩
  place : ∀ p, s.place p = .out

/-- A state with the bytes returned and stored so far. -/
inductive Run (allowed : Ring → Event → Prop) : Ring → List ℕ → List ℕ → Prop
  | start {s : Ring} : Start s → Run allowed s [] []
  | step {s s' : Ring} {e : Event} {returned stored out ins : List ℕ} : Run allowed s returned stored →
      allowed s e → Step s e out ins s' → Run allowed s' (returned ++ out) (stored ++ ins)

/-! ## The property -/

/-- No operation is in progress, but for those that wait for their first unit. -/
def Quiet (s : Ring) : Prop :=
  ∀ p, s.place p = .out ∨ s.place p = .getWait ∨ (∃ ch, s.place p = .putWait ch) ∨
    ∃ max, s.place p = .readWait max

def Reads : Place → Prop
  | .getWait | .readWait _ => True
  | _ => False

def Writes : Place → Prop
  | .putWait _ => True
  | _ => False

/-- A `down` that waits with the lock. -/
def Stuck : Place → Prop
  | .readStuck _ | .writeStuck _ => True
  | _ => False

structure Sound (s : Ring) (returned stored : List ℕ) : Prop where
  order : returned <+: stored
  left : s.left+(stored.length-returned.length) = s.length
  items : Quiet s → (s.sem .item).count = stored.length-returned.length
  spaces : Quiet s → (s.sem .space).count = s.left
  readers : Quiet s → returned.length < stored.length → ∀ p, ¬ Reads (s.place p)
  writers : Quiet s → 0 < s.left → ∀ p, ¬ Writes (s.place p)
  lock : ∀ p, ¬ Stuck (s.place p)

/-- A process that has a unit of an item and not its byte, or has stored a byte
and not passed on the unit; and likewise for the space. -/
def claim : Kind → Place → ℕ
  | .item, .getLock | .item, .readLock _ | .item, .readByte _ | .item, .putUp => 1
  | .space, .putLock _ | .space, .getUp => 1
  | _, _ => 0

def claims (k : Kind) (s : Ring) : ℕ := ∑ q ∈ Finset.range s.procs, claim k (s.place q)

/-- Bytes are got and put while the socket is connected; `get_data` ends because
the buffer is empty; and when `get_data` or `put_data` want a further unit, the
others do not lay claim to all bytes, or to all of the room. -/
def Allowed (s : Ring) : Event → Prop
  | .go p => match s.place p with
    | .getLock | .putLock _ | .readLock _ => s.connected = true
    | .readByte n => n ≠ 0
    | .readItem _ => s.left ≠ s.length → claims .item s < s.length-s.left
    | .writeSpace _ => claims .space s ≤ s.left
    | _ => True
  | _ => True

end BabyOS.SocketBuffers

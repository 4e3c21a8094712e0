import Mathlib

/-!
# The cache of blocks

`block_dev_t` with its buffers, the list of the used and the list of the free ones.
Kernel code is not preempted, so a process leaves it only where it sleeps: on the lock
of a buffer, and on the drive. The drive serves requests in any order.
-/

set_option autoImplicit false

namespace BabyOS.BufferCache

/-- An `io_buffer_t`: `holder` has its lock, and `waiters` sleep on it. -/
structure Buffer (α : Type) where
  block : ℕ
  done : Bool
  holder : Option ℕ
  waiters : List ℕ
  data : α

/-- Where a process is: in `get_block` on the lock of the buffer that it has picked, or on
the drive, which may have served it already. -/
inductive Place
  | out
  | locking (n b : ℕ)
  | reading (n b : ℕ) (served : Bool)
  | writing (n b : ℕ) (served : Bool)
deriving DecidableEq, Repr

/-- `got` are the blocks that a process has asked for and not given back, with the buffers
that it was given; `last` is what was last written to a block. -/
structure Cache (α : Type) where
  count : ℕ
  bufs : ℕ → Buffer α
  used : List ℕ
  free : List ℕ
  disk : ℕ → α
  place : ℕ → Place
  got : ℕ → List (ℕ × ℕ)
  last : ℕ → α

namespace Cache

variable {α : Type}

def setBuf (s : Cache α) (b : ℕ) (x : Buffer α) : Cache α := { s with bufs := Function.update s.bufs b x }

def setPlace (s : Cache α) (p : ℕ) (x : Place) : Cache α := { s with place := Function.update s.place p x }

def findFromCache (s : Cache α) (n : ℕ) : Option ℕ := s.used.find? fun b => (s.bufs b).block = n

/-- A buffer is given another block. -/
def retarget (s : Cache α) (b n : ℕ) : Cache α :=
  s.setBuf b { s.bufs b with block := n, done := false }

/-- `get_block` up to the lock; `none` is the node of an empty list. -/
def pick (s : Cache α) (n : ℕ) : Option (ℕ × Cache α) :=
  match s.findFromCache n with
  | some b => some (b, s)
  | none =>
    match s.free, s.used with
    | b :: rest, _ => some (b, { s with free := rest }.retarget b n)
    | [], b :: rest => some (b, { s with used := rest }.retarget b n)
    | [], [] => none

/-- The lock is free, and taken. -/
def take (s : Cache α) (p n b : ℕ) : Cache α :=
  (s.setBuf b { s.bufs b with holder := some p }).setPlace p (.locking n b)

def await (s : Cache α) (p n b : ℕ) : Cache α :=
  (s.setBuf b { s.bufs b with waiters := (s.bufs b).waiters++[p] }).setPlace p (.locking n b)

/-- `read` returns. -/
def give (s : Cache α) (p n b : ℕ) : Cache α :=
  { s.setPlace p .out with got := Function.update s.got p ((n, b) :: s.got p) }

/-- `read` behind `get_block`. -/
def load (s : Cache α) (p n b : ℕ) : Cache α :=
  if (s.bufs b).done then s.give p n b else s.setPlace p (.reading n b false)

def lock (s : Cache α) (p n b : ℕ) : Cache α :=
  if (s.bufs b).holder = none then (s.take p n b).load p n b else s.await p n b

/-- `read`, up to its sleep. -/
def read (s : Cache α) (p n : ℕ) : Option (Cache α) := (s.pick n).map fun r => r.2.lock p n r.1

/-- The drive has served a request. -/
def serve (s : Cache α) (p : ℕ) : Cache α :=
  match s.place p with
  | .reading n b _ => (s.setBuf b { s.bufs b with data := s.disk n, done := true }).setPlace p (.reading n b true)
  | .writing n b _ =>
    { (s.setBuf b { s.bufs b with done := true }).setPlace p (.writing n b true) with
      disk := Function.update s.disk n (s.bufs b).data }
  | _ => s

/-- The process is woken, and its call returns. -/
def finish (s : Cache α) (p : ℕ) : Cache α :=
  match s.place p with
  | .reading n b _ => s.give p n b
  | _ => s.setPlace p .out

/-- The holder has put new contents into the buffer, and calls `write`. -/
def write (s : Cache α) (p b : ℕ) (x : α) : Cache α :=
  { (s.setBuf b { s.bufs b with data := x }).setPlace p (.writing (s.bufs b).block b false) with
    last := Function.update s.last (s.bufs b).block x }

/-- The lock goes to the first process that waits. -/
def unlock (s : Cache α) (b : ℕ) : Cache α :=
  s.setBuf b { s.bufs b with holder := (s.bufs b).waiters.head?, waiters := (s.bufs b).waiters.tail }

def releaseBlock (s : Cache α) (p b : ℕ) : Cache α :=
  { s with
    used := if s.findFromCache (s.bufs b).block = none then s.used++[b] else s.used
    got := Function.update s.got p ((s.got p).filter fun r => r.2 ≠ b) }.unlock b

end Cache

/-! ## Runs -/

inductive Event
  | read (p n : ℕ)
  | resume (p : ℕ)
  | serve (p : ℕ)
  | finish (p : ℕ)
  | write (p b : ℕ)
  | release (p b : ℕ)
deriving DecidableEq, Repr

section Runs

variable {α : Type}

/-- A process writes and releases buffers that it was given. -/
inductive Step : Cache α → Event → Cache α → Prop
  | read {s s' : Cache α} {p n : ℕ} : s.place p = .out → s.read p n = some s' → Step s (.read p n) s'
  | resume {s : Cache α} {p n b : ℕ} : s.place p = .locking n b → (s.bufs b).holder = some p →
      Step s (.resume p) (s.load p n b)
  | serveRead {s : Cache α} {p n b : ℕ} : s.place p = .reading n b false → Step s (.serve p) (s.serve p)
  | serveWrite {s : Cache α} {p n b : ℕ} : s.place p = .writing n b false → Step s (.serve p) (s.serve p)
  | finishRead {s : Cache α} {p n b : ℕ} : s.place p = .reading n b true → Step s (.finish p) (s.finish p)
  | finishWrite {s : Cache α} {p n b : ℕ} : s.place p = .writing n b true → Step s (.finish p) (s.finish p)
  | write {s : Cache α} {p n b : ℕ} (x : α) : s.place p = .out → (n, b) ∈ s.got p →
      Step s (.write p b) (s.write p b x)
  | release {s : Cache α} {p n b : ℕ} : s.place p = .out → (n, b) ∈ s.got p →
      Step s (.release p b) (s.releaseBlock p b)

/-- After `block_dev_t::init`. -/
def start (count : ℕ) (disk data : ℕ → α) : Cache α where
  count := count
  bufs := fun b => ⟨0, false, none, [], data b⟩
  used := []
  free := List.range count
  disk := disk
  place := fun _ => .out
  got := fun _ => []
  last := disk

inductive Run (allowed : Cache α → Event → Prop) : Cache α → Prop
  | start (count : ℕ) (disk data : ℕ → α) : Run allowed (start count disk data)
  | step {s s' : Cache α} {e : Event} : Run allowed s → allowed s e → Step s e s' → Run allowed s'

/-- A buffer that was taken off the lists and not put back. -/
def Off (s : Cache α) (b : ℕ) : Prop := b < s.count ∧ b ∉ s.used ∧ b ∉ s.free

/-- A process does not ask for a block that it holds. Where the block is not cached, no
buffer off the lists has it, and there is a free buffer, or the first used one is unlocked. -/
def Fair (s : Cache α) : Event → Prop
  | .read p n => (∀ b, (n, b) ∉ s.got p) ∧ (s.findFromCache n = none →
      (∀ b, Off s b → (s.bufs b).block ≠ n) ∧
      (s.free = [] → ∃ b rest, s.used = b :: rest ∧ (s.bufs b).holder = none))
  | _ => True

/-- What the cache has to satisfy. A buffer is on one list, or in the hands of one process.
The blocks are different, apart from those of free buffers. A buffer that is locked or
waited for keeps its block, and one that was given to a process has what was last written. -/
structure Coherent (s : Cache α) : Prop where
  once : s.used.Nodup ∧ s.free.Nodup
  placed : ∀ b < s.count, (b ∈ s.used ∧ b ∉ s.free) ∨
    (b ∈ s.free ∧ b ∉ s.used ∧ (s.bufs b).holder = none) ∨ (Off s b ∧ (s.bufs b).holder ≠ none)
  distinct : ∀ b < s.count, ∀ b' < s.count, b ∉ s.free → b' ∉ s.free →
    (s.bufs b).block = (s.bufs b').block → b = b'
  kept : ∀ p n b, (n, b) ∈ s.got p ∨ s.place p = .locking n b ∨ (∃ f, s.place p = .reading n b f) ∨
    (∃ f, s.place p = .writing n b f) → (s.bufs b).block = n
  held : ∀ p n b, (n, b) ∈ s.got p → (s.bufs b).holder = some p
  last : ∀ p n b, (n, b) ∈ s.got p → (s.bufs b).data = s.last n
  others : ∀ p b, p ∈ (s.bufs b).waiters → (s.bufs b).holder ≠ some p

/-! ## The invariant -/

/-- Locks, places and contents agree. -/
structure Inv (s : Cache α) : Prop where
  used_nodup : s.used.Nodup
  free_nodup : s.free.Nodup
  apart : ∀ b ∈ s.used, b ∉ s.free
  bound : ∀ b, b ∈ s.used ∨ b ∈ s.free ∨ (s.bufs b).holder ≠ none → b < s.count
  spare : ∀ b ∈ s.free, (s.bufs b).holder = none
  off : ∀ b < s.count, b ∉ s.used → b ∉ s.free → (s.bufs b).holder ≠ none
  quiet : ∀ b, (s.bufs b).holder = none → (s.bufs b).waiters = []
  distinct : ∀ b < s.count, ∀ b' < s.count, b ∉ s.free → b' ∉ s.free →
    (s.bufs b).block = (s.bufs b').block → b = b'
  holder : ∀ b p, (s.bufs b).holder = some p → ((s.bufs b).block, b) ∈ s.got p ∨
    s.place p = .locking (s.bufs b).block b ∨ ∃ f, s.place p = .reading (s.bufs b).block b f
  got : ∀ p n b, (n, b) ∈ s.got p → (s.bufs b).holder = some p ∧ (s.bufs b).block = n ∧ (s.bufs b).done = true
  locking : ∀ p n b, s.place p = .locking n b → (s.bufs b).block = n ∧ b < s.count ∧ b ∉ s.free ∧
    ((s.bufs b).holder = some p ∨ p ∈ (s.bufs b).waiters)
  reading : ∀ p n b f, s.place p = .reading n b f → (s.bufs b).block = n ∧ (s.bufs b).holder = some p ∧
    (s.bufs b).done = f
  writing : ∀ p n b f, s.place p = .writing n b f → (n, b) ∈ s.got p
  waits : ∀ b, ∀ p ∈ (s.bufs b).waiters, s.place p = .locking (s.bufs b).block b ∧
    (s.bufs b).holder ≠ some p
  waiters_nodup : ∀ b, (s.bufs b).waiters.Nodup
  data : ∀ b < s.count, b ∉ s.free → (s.bufs b).done = true → (s.bufs b).data = s.last (s.bufs b).block
  disk : ∀ n, (∀ p b, s.place p ≠ .writing n b false) → s.disk n = s.last n

variable {s s' : Cache α} {p n b : ℕ}

theorem coherent_of (h : Inv s) : Coherent s where
  once := ⟨h.used_nodup, h.free_nodup⟩
  placed := by
    intro b hb
    by_cases hused : b ∈ s.used
    · exact Or.inl ⟨hused, h.apart b hused⟩
    · by_cases hfree : b ∈ s.free
      · exact Or.inr (Or.inl ⟨hfree, hused, h.spare b hfree⟩)
      · exact Or.inr (Or.inr ⟨⟨hb, hused, hfree⟩, h.off b hb hused hfree⟩)
  distinct := h.distinct
  kept := by
    rintro p n b (hgot | hplace | ⟨f, hplace⟩ | ⟨f, hplace⟩)
    · exact (h.got p n b hgot).2.1
    · exact (h.locking p n b hplace).1
    · exact (h.reading p n b f hplace).1
    · exact (h.got p n b (h.writing p n b f hplace)).2.1
  held := fun p n b hgot => (h.got p n b hgot).1
  last := by
    intro p n b hgot
    obtain ⟨hholder, hblock, hdone⟩ := h.got p n b hgot
    have hsome : (s.bufs b).holder ≠ none := by simp [hholder]
    have hfree : b ∉ s.free := fun hc => hsome (h.spare b hc)
    rw [h.data b (h.bound b (Or.inr (Or.inr hsome))) hfree hdone, hblock]
  others := fun p b hp => (h.waits b p hp).2

/-- The lock of a buffer is taken. -/
theorem inv_take (h : Inv s) (hout : s.place p = .out) (hb : b < s.count) (hfree : b ∉ s.free)
    (hblock : (s.bufs b).block = n) (hnone : (s.bufs b).holder = none) : Inv (s.take p n b) := by
  have hquiet := h.quiet b hnone
  have hbound := h.bound
  unfold Cache.take Cache.setBuf Cache.setPlace
  constructor <;> dsimp only
  case used_nodup => exact h.used_nodup
  case free_nodup => exact h.free_nodup
  case apart => exact h.apart
  case bound => grind
  case spare => grind [h.spare]
  case off => grind [h.off]
  case quiet => grind [h.quiet]
  case distinct => grind [h.distinct]
  case holder => grind [h.holder]
  case got => grind [h.got]
  case locking => grind [h.locking]
  case reading => grind [h.reading]
  case writing => grind [h.writing]
  case waits => grind [h.waits]
  case waiters_nodup => grind [h.waiters_nodup]
  case data => grind [h.data]
  case disk =>
    intro m hm
    refine h.disk m (fun q k hq => hm q k ?_)
    grind

/-- The lock of another process is waited for. -/
theorem inv_await {q : ℕ} (h : Inv s) (hout : s.place p = .out) (hblock : (s.bufs b).block = n)
    (hsome : (s.bufs b).holder = some q) (hgot : (n, b) ∉ s.got p) : Inv (s.await p n b) := by
  have hne : q ≠ p := by
    rintro rfl
    grind [h.holder b q hsome]
  have hwait : p ∉ (s.bufs b).waiters := fun hc => by grind [h.waits b p hc]
  have hspare := h.spare b
  have hbound := h.bound
  unfold Cache.await Cache.setBuf Cache.setPlace
  constructor <;> dsimp only
  case used_nodup => exact h.used_nodup
  case free_nodup => exact h.free_nodup
  case apart => exact h.apart
  case bound => grind [h.bound]
  case spare => grind [h.spare]
  case off => grind [h.off]
  case quiet => grind [h.quiet]
  case distinct => grind [h.distinct]
  case holder => grind [h.holder]
  case got => grind [h.got]
  case locking => grind [h.locking]
  case reading => grind [h.reading]
  case writing => grind [h.writing]
  case waits => grind [h.waits]
  case waiters_nodup => grind [h.waiters_nodup]
  case data => grind [h.data]
  case disk =>
    intro m hm
    refine h.disk m (fun q k hq => hm q k ?_)
    grind

/-- `read` returns with a buffer that is up to date. -/
theorem inv_give (h : Inv s) (hblock : (s.bufs b).block = n) (hholder : (s.bufs b).holder = some p)
    (hdone : (s.bufs b).done = true) (hplace : s.place p = .locking n b ∨ s.place p = .reading n b true) :
    Inv (s.give p n b) := by
  unfold Cache.give Cache.setPlace
  constructor <;> dsimp only
  case used_nodup => exact h.used_nodup
  case free_nodup => exact h.free_nodup
  case apart => exact h.apart
  case bound => exact h.bound
  case spare => exact h.spare
  case off => exact h.off
  case quiet => exact h.quiet
  case distinct => exact h.distinct
  case holder => grind [h.holder]
  case got => grind [h.got]
  case locking => grind [h.locking]
  case reading => grind [h.reading]
  case writing => grind [h.writing]
  case waits => grind [h.waits]
  case waiters_nodup => exact h.waiters_nodup
  case data => exact h.data
  case disk =>
    intro m hm
    refine h.disk m (fun q k hq => hm q k ?_)
    grind

/-- The block has to be read from the drive. -/
theorem inv_request (h : Inv s) (hplace : s.place p = .locking n b) (hholder : (s.bufs b).holder = some p)
    (hdone : (s.bufs b).done = false) : Inv (s.setPlace p (.reading n b false)) := by
  obtain ⟨hblock, -⟩ := h.locking p n b hplace
  unfold Cache.setPlace
  constructor <;> dsimp only
  case used_nodup => exact h.used_nodup
  case free_nodup => exact h.free_nodup
  case apart => exact h.apart
  case bound => exact h.bound
  case spare => exact h.spare
  case off => exact h.off
  case quiet => exact h.quiet
  case distinct => exact h.distinct
  case holder => grind [h.holder]
  case got => grind [h.got]
  case locking => grind [h.locking]
  case reading => grind [h.reading]
  case writing => grind [h.writing]
  case waits => grind [h.waits]
  case waiters_nodup => exact h.waiters_nodup
  case data => exact h.data
  case disk =>
    intro m hm
    refine h.disk m (fun q k hq => hm q k ?_)
    grind

/-- A buffer is taken off its list, for another block. -/
theorem inv_miss {used free : List ℕ} (h : Inv s) (hout : s.place p = .out) (hb : b < s.count)
    (hnone : (s.bufs b).holder = none) (hnew : ∀ k < s.count, k ∉ s.free → (s.bufs k).block ≠ n)
    (hused : used.Nodup ∧ ∀ k, k ∈ used ↔ k ∈ s.used ∧ k ≠ b)
    (hfree : free.Nodup ∧ ∀ k, k ∈ free ↔ k ∈ s.free ∧ k ≠ b) :
    Inv (({ s with used := used, free := free }.retarget b n).take p n b) := by
  have hquiet := h.quiet b hnone
  have hbound := h.bound
  obtain ⟨hun, hum⟩ := hused
  obtain ⟨hfn, hfm⟩ := hfree
  unfold Cache.retarget Cache.take Cache.setBuf Cache.setPlace
  constructor <;> dsimp only
  case used_nodup => exact hun
  case free_nodup => exact hfn
  case apart => grind [h.apart]
  case bound => grind [h.bound]
  case spare => grind [h.spare]
  case off => grind [h.off]
  case quiet => grind [h.quiet]
  case distinct => grind [h.distinct]
  case holder => grind [h.holder]
  case got => grind [h.got]
  case locking => grind [h.locking]
  case reading => grind [h.reading]
  case writing => grind [h.writing]
  case waits => grind [h.waits]
  case waiters_nodup => grind [h.waiters_nodup]
  case data => grind [h.data]
  case disk =>
    intro m hm
    refine h.disk m (fun q k hq => hm q k ?_)
    grind

/-- The drive has filled a buffer. -/
theorem inv_serveRead (h : Inv s) (hplace : s.place p = .reading n b false) : Inv (s.serve p) := by
  obtain ⟨hblock, hholder, hdone⟩ := h.reading p n b false hplace
  have hbound := h.bound
  have hsome : b < s.count ∧ b ∉ s.free := by grind [h.spare]
  -- a write of the block would hold the same buffer
  have hdisk : s.disk n = s.last n := by
    refine h.disk n (fun q k hq => ?_)
    have hgot := h.got q n k (h.writing q n k false hq)
    have hsame := h.distinct b hsome.1 k
    grind [h.spare]
  rw [Cache.serve, hplace]
  unfold Cache.setBuf Cache.setPlace
  constructor <;> dsimp only
  case used_nodup => exact h.used_nodup
  case free_nodup => exact h.free_nodup
  case apart => exact h.apart
  case bound => grind [h.bound]
  case spare => grind [h.spare]
  case off => grind [h.off]
  case quiet => grind [h.quiet]
  case distinct => grind [h.distinct]
  case holder => grind [h.holder]
  case got => grind [h.got]
  case locking => grind [h.locking]
  case reading => grind [h.reading]
  case writing => grind [h.writing]
  case waits => grind [h.waits]
  case waiters_nodup => grind [h.waiters_nodup]
  case data => grind [h.data]
  case disk =>
    intro m hm
    refine h.disk m (fun q k hq => hm q k ?_)
    grind

/-- The drive has stored a buffer. -/
theorem inv_serveWrite (h : Inv s) (hplace : s.place p = .writing n b false) : Inv (s.serve p) := by
  obtain ⟨hholder, hblock, hdone⟩ := h.got p n b (h.writing p n b false hplace)
  have hbound := h.bound
  have hsome : b < s.count ∧ b ∉ s.free := by grind [h.spare]
  have hdata := h.data b hsome.1 hsome.2 hdone
  rw [Cache.serve, hplace]
  unfold Cache.setBuf Cache.setPlace
  constructor <;> dsimp only
  case used_nodup => exact h.used_nodup
  case free_nodup => exact h.free_nodup
  case apart => exact h.apart
  case bound => grind [h.bound]
  case spare => grind [h.spare]
  case off => grind [h.off]
  case quiet => grind [h.quiet]
  case distinct => grind [h.distinct]
  case holder => grind [h.holder]
  case got => grind [h.got]
  case locking => grind [h.locking]
  case reading => grind [h.reading]
  case writing => grind [h.writing]
  case waits => grind [h.waits]
  case waiters_nodup => grind [h.waiters_nodup]
  case data => grind [h.data]
  case disk =>
    intro m hm
    rw [Function.update_apply]
    split
    next hmn => rw [hdata, hblock, hmn]
    next =>
      refine h.disk m (fun q k hq => hm q k ?_)
      grind

/-- A write is over. -/
theorem inv_out (h : Inv s) (hplace : s.place p = .writing n b true) : Inv (s.setPlace p .out) := by
  unfold Cache.setPlace
  constructor <;> dsimp only
  case used_nodup => exact h.used_nodup
  case free_nodup => exact h.free_nodup
  case apart => exact h.apart
  case bound => exact h.bound
  case spare => exact h.spare
  case off => exact h.off
  case quiet => exact h.quiet
  case distinct => exact h.distinct
  case holder => grind [h.holder]
  case got => exact h.got
  case locking => grind [h.locking]
  case reading => grind [h.reading]
  case writing => grind [h.writing]
  case waits => grind [h.waits]
  case waiters_nodup => exact h.waiters_nodup
  case data => exact h.data
  case disk =>
    intro m hm
    refine h.disk m (fun q k hq => hm q k ?_)
    grind

/-- The holder of a buffer begins to write it. -/
theorem inv_write (h : Inv s) (x : α) (hout : s.place p = .out) (hgot : (n, b) ∈ s.got p) :
    Inv (s.write p b x) := by
  obtain ⟨hholder, hblock, hdone⟩ := h.got p n b hgot
  have hbound := h.bound
  have hsome : b < s.count ∧ b ∉ s.free := by grind [h.spare]
  unfold Cache.write Cache.setBuf Cache.setPlace
  constructor <;> dsimp only
  case used_nodup => exact h.used_nodup
  case free_nodup => exact h.free_nodup
  case apart => exact h.apart
  case bound => grind [h.bound]
  case spare => grind [h.spare]
  case off => grind [h.off]
  case quiet => grind [h.quiet]
  case distinct => grind [h.distinct]
  case holder => grind [h.holder]
  case got => grind [h.got]
  case locking => grind [h.locking]
  case reading => grind [h.reading]
  case writing => grind [h.writing]
  case waits => grind [h.waits]
  case waiters_nodup => grind [h.waiters_nodup]
  case data => grind [h.data, h.distinct]
  case disk =>
    intro m hm
    have hmn : m ≠ (s.bufs b).block := by
      rintro rfl
      exact hm p b (Function.update_self ..)
    rw [Function.update_of_ne hmn]
    refine h.disk m (fun q k hq => hm q k ?_)
    grind

theorem findFromCache_none : s.findFromCache n = none ↔ ∀ b ∈ s.used, (s.bufs b).block ≠ n := by
  simp [Cache.findFromCache]

theorem findFromCache_some (h : s.findFromCache n = some b) : b ∈ s.used ∧ (s.bufs b).block = n := by
  rw [Cache.findFromCache] at h
  exact ⟨List.mem_of_find?_eq_some h, by simpa using List.find?_some h⟩

/-- A buffer that is given back is on the list of the used ones, once. -/
theorem used_release (h : Inv s) (hb : b < s.count) (hfree : b ∉ s.free) :
    (if s.findFromCache (s.bufs b).block = none then s.used++[b] else s.used).Nodup ∧
    ∀ k, k ∈ (if s.findFromCache (s.bufs b).block = none then s.used++[b] else s.used) ↔ k ∈ s.used ∨ k = b := by
  by_cases hused : b ∈ s.used
  · rw [if_neg (fun hc => findFromCache_none.mp hc b hused rfl)]
    refine ⟨h.used_nodup, fun k => ⟨Or.inl, ?_⟩⟩
    rintro (hk | rfl)
    · exact hk
    · exact hused
  · have hnone : s.findFromCache (s.bufs b).block = none := by
      rw [findFromCache_none]
      intro k hk hblock
      have hsame := h.distinct k (h.bound k (Or.inl hk)) b hb (h.apart k hk) hfree hblock
      exact hused (hsame ▸ hk)
    rw [if_pos hnone]
    refine ⟨List.nodup_append.mpr ⟨h.used_nodup, List.nodup_singleton b, ?_⟩, fun k => ?_⟩
    · grind
    · rw [List.mem_append, List.mem_singleton]

/-- A buffer is given back. -/
theorem inv_release (h : Inv s) (hout : s.place p = .out) (hgot : (n, b) ∈ s.got p) :
    Inv (s.releaseBlock p b) := by
  obtain ⟨hholder, hblock, hdone⟩ := h.got p n b hgot
  have hbound := h.bound
  have hsome : b < s.count ∧ b ∉ s.free := by grind [h.spare]
  obtain ⟨hun, hum⟩ := used_release h hsome.1 hsome.2
  have hwait := h.waits b
  have hnodup := h.waiters_nodup b
  have hhead : ∀ q, (s.bufs b).waiters.head? = some q → q ∈ (s.bufs b).waiters := fun q hq => List.mem_of_head? hq
  have hsplit : ∀ q ∈ (s.bufs b).waiters, (s.bufs b).waiters.head? = some q ∨ q ∈ (s.bufs b).waiters.tail := by
    cases (s.bufs b).waiters with
    | nil => simp
    | cons w ws => grind
  have htail : ∀ q ∈ (s.bufs b).waiters.tail, q ∈ (s.bufs b).waiters ∧ (s.bufs b).waiters.head? ≠ some q := by
    cases hw : (s.bufs b).waiters with
    | nil => simp
    | cons w ws => grind
  unfold Cache.releaseBlock Cache.unlock Cache.setBuf
  constructor <;> dsimp only
  case used_nodup => exact hun
  case free_nodup => exact h.free_nodup
  case apart => grind [h.apart]
  case bound => grind [h.bound]
  case spare => grind [h.spare]
  case off => grind [h.off]
  case quiet =>
    intro k hk
    by_cases hkb : k = b
    · rw [hkb, Function.update_self] at hk ⊢
      dsimp only at hk ⊢
      rw [List.head?_eq_none_iff.mp hk, List.tail_nil]
    · rw [Function.update_of_ne hkb] at hk ⊢
      exact h.quiet k hk
  case distinct => grind [h.distinct]
  case holder => grind [h.holder]
  case got => grind [h.got]
  case locking => grind [h.locking]
  case reading => grind [h.reading]
  case writing => grind [h.writing]
  case waits => grind [h.waits]
  case waiters_nodup => grind [h.waiters_nodup]
  case data => grind [h.data]
  case disk => exact h.disk

/-- `read` goes on with the lock. -/
theorem inv_load (h : Inv s) (hplace : s.place p = .locking n b) (hholder : (s.bufs b).holder = some p) :
    Inv (s.load p n b) := by
  obtain ⟨hblock, -⟩ := h.locking p n b hplace
  rw [Cache.load]
  by_cases hdone : (s.bufs b).done = true
  · rw [if_pos hdone]
    exact inv_give h hblock hholder hdone (Or.inl hplace)
  · rw [if_neg hdone]
    exact inv_request h hplace hholder (Bool.eq_false_iff.mpr hdone)

theorem load_take (h : Inv (s.take p n b)) : Inv ((s.take p n b).load p n b) := by
  refine inv_load h (Function.update_self ..) ?_
  change (Function.update s.bufs b _ b).holder = some p
  rw [Function.update_self]

/-- A block that is not cached gets the buffer at the head of a list. -/
theorem inv_fetch {used free : List ℕ} (h : Inv s) (hout : s.place p = .out) (hb : b < s.count)
    (hnone : (s.bufs b).holder = none) (hnew : ∀ k < s.count, k ∉ s.free → (s.bufs k).block ≠ n)
    (hused : used.Nodup ∧ ∀ k, k ∈ used ↔ k ∈ s.used ∧ k ≠ b)
    (hfree : free.Nodup ∧ ∀ k, k ∈ free ↔ k ∈ s.free ∧ k ≠ b) :
    Inv (({ s with used := used, free := free }.retarget b n).lock p n b) := by
  have hfresh : ((({ s with used := used, free := free } : Cache α).retarget b n).bufs b).holder = none := by
    change (Function.update s.bufs b _ b).holder = none
    rw [Function.update_self]
    exact hnone
  rw [Cache.lock, if_pos hfresh]
  exact load_take (inv_miss h hout hb hnone hnew hused hfree)

theorem inv_read (h : Inv s) (hout : s.place p = .out) (hfair : Fair s (.read p n))
    (hread : s.read p n = some s') : Inv s' := by
  obtain ⟨hgot, hmiss⟩ := hfair
  rw [Cache.read, Cache.pick] at hread
  cases hfind : s.findFromCache n with
  | some b =>
    obtain ⟨hused, hblock⟩ := findFromCache_some hfind
    rw [hfind] at hread
    obtain rfl : s.lock p n b = s' := Option.some.inj hread
    rw [Cache.lock]
    cases hholder : (s.bufs b).holder with
    | none =>
      rw [if_pos rfl]
      exact load_take (inv_take h hout (h.bound b (Or.inl hused)) (h.apart b hused) hblock hholder)
    | some q =>
      rw [if_neg nofun]
      exact inv_await h hout hblock hholder (hgot b)
  | none =>
    obtain ⟨hoff, hempty⟩ := hmiss hfind
    have hnew : ∀ k < s.count, k ∉ s.free → (s.bufs k).block ≠ n := by
      intro k hk hfree
      by_cases hused : k ∈ s.used
      · exact findFromCache_none.mp hfind k hused
      · exact hoff k ⟨hk, hused, hfree⟩
    rw [hfind] at hread
    cases hfree : s.free with
    | cons b rest =>
      have hnodup := h.free_nodup
      have hmem : b ∈ s.free := by grind
      rw [hfree] at hread
      obtain rfl := Option.some.inj hread
      refine inv_fetch h hout (h.bound b (Or.inr (Or.inl hmem))) (h.spare b hmem) hnew
        ⟨h.used_nodup, fun k => ?_⟩ ⟨?_, fun k => ?_⟩
      · grind [h.apart]
      · grind
      · grind
    | nil =>
      obtain ⟨b, rest, hused, hnone⟩ := hempty hfree
      have hnodup := h.used_nodup
      have hmem : b ∈ s.used := by grind
      rw [hfree, hused] at hread
      obtain rfl := Option.some.inj hread
      refine inv_fetch h hout (h.bound b (Or.inl hmem)) hnone hnew
        ⟨?_, fun k => ?_⟩ ⟨List.nodup_nil, fun k => ?_⟩
      · grind
      · grind
      · grind

theorem inv_start (count : ℕ) (disk data : ℕ → α) : Inv (start count disk data) where
  used_nodup := List.nodup_nil
  free_nodup := List.nodup_range
  apart := nofun
  bound := by simp [start]
  spare := fun _ _ => rfl
  off := fun b hb _ hfree => absurd (List.mem_range.mpr hb) hfree
  quiet := fun _ _ => rfl
  distinct := fun b hb _ _ hfree => absurd (List.mem_range.mpr hb) hfree
  holder := nofun
  got := nofun
  locking := nofun
  reading := nofun
  writing := nofun
  waits := nofun
  waiters_nodup := fun _ => List.nodup_nil
  data := nofun
  disk := fun _ _ => rfl

theorem inv_step {e : Event} (h : Inv s) (hfair : Fair s e) (hstep : Step s e s') : Inv s' := by
  cases hstep with
  | read hout hread => exact inv_read h hout hfair hread
  | resume hplace hholder => exact inv_load h hplace hholder
  | serveRead hplace => exact inv_serveRead h hplace
  | serveWrite hplace => exact inv_serveWrite h hplace
  | finishRead hplace =>
    obtain ⟨hblock, hholder, hdone⟩ := h.reading _ _ _ _ hplace
    rw [Cache.finish, hplace]
    exact inv_give h hblock hholder hdone (Or.inr hplace)
  | finishWrite hplace =>
    rw [Cache.finish, hplace]
    exact inv_out h hplace
  | write x hout hgot => exact inv_write h x hout hgot
  | release hout hgot => exact inv_release h hout hgot

theorem inv_run (h : Run Fair s) : Inv s := by
  induction h with
  | start count disk data => exact inv_start count disk data
  | step _ hfair hstep ih => exact inv_step ih hfair hstep

/-! ## Coherence -/

/-- The cache is coherent in every state, as long as each block that is not cached finds a
buffer that nobody has, and no other process has just fetched it. -/
theorem cache_coherent (h : Run Fair s) : Coherent s := coherent_of (inv_run h)

end Runs

section Small

/-- Two buffers, and a disk whose block `n` has the contents `10*n`. -/
def small : Cache ℕ := start 2 (fun n => 10*n) (fun _ => 0)

/-- A read that sleeps on the drive. -/
def asked (p n : ℕ) (s : Cache ℕ) : Cache ℕ := (s.read p n).getD s

theorem small_fair (n : ℕ) : Fair small (.read 1 n) :=
  ⟨fun _ => nofun, fun _ => ⟨fun _ hoff => absurd (List.mem_range.mpr hoff.1) hoff.2.2, fun hc => absurd hc (by decide)⟩⟩

/-- Process 1 has read block 5 and written 7 to it. -/
def written : Cache ℕ :=
  (((((asked 1 5 small).serve 1).finish 1).write 1 0 7).serve 1).finish 1

theorem written_run : Run Fair written := by
  have hread : Run Fair (asked 1 5 small) := .step (.start 2 _ _) (small_fair 5) (.read rfl rfl)
  have hserved : Run Fair ((asked 1 5 small).serve 1) := .step (e := .serve 1) hread trivial (.serveRead rfl)
  have hgot : Run Fair (((asked 1 5 small).serve 1).finish 1) := .step (e := .finish 1) hserved trivial (.finishRead rfl)
  have hwrite : Run Fair ((((asked 1 5 small).serve 1).finish 1).write 1 0 7) :=
    .step (e := .write 1 0) hgot trivial (.write 7 rfl (List.mem_cons_self ..))
  have hstored : Run Fair (((((asked 1 5 small).serve 1).finish 1).write 1 0 7).serve 1) :=
    .step (e := .serve 1) hwrite trivial (.serveWrite rfl)
  exact .step (e := .finish 1) hstored trivial (.finishWrite rfl)

/-- Process 2 reads it then. -/
theorem cache_coherent_again : Coherent (asked 2 5 (written.releaseBlock 1 0)) ∧
    (5, 0) ∈ (asked 2 5 (written.releaseBlock 1 0)).got 2 ∧
    ((asked 2 5 (written.releaseBlock 1 0)).bufs 0).data = 7 := by
  have hback : Run Fair (written.releaseBlock 1 0) :=
    .step (e := .release 1 0) written_run trivial (.release rfl (List.mem_cons_self ..))
  have hfair : Fair (written.releaseBlock 1 0) (.read 2 5) := ⟨fun _ => nofun, nofun⟩
  exact ⟨cache_coherent (.step hback hfair (.read rfl rfl)), List.mem_cons_self .., rfl⟩

/-- Two processes that miss one block get two buffers for it. -/
theorem block_twice : ¬ ∀ s : Cache ℕ, Run (fun _ _ => True) s → Coherent s := by
  intro h
  have hstart : Run (fun _ _ => True) small := .start 2 _ _
  have hread : Run (fun _ _ => True) (asked 1 5 small) := .step (e := .read 1 5) hstart trivial (.read rfl rfl)
  have hcoherent := h (asked 2 5 (asked 1 5 small)) (.step (e := .read 2 5) hread trivial (.read rfl rfl))
  exact absurd (hcoherent.distinct 0 (by decide) 1 (by decide) (by decide) (by decide) rfl) (by decide)

end Small

end BabyOS.BufferCache

import Mathlib.Data.List.Basic
import Mathlib.Logic.Function.Basic
import Mathlib.Tactic

/-!
# Local sockets

The table of the local sockets, and the system calls on them by any number of
processes. Nothing here sleeps except `connect`, `accept` and `write`, so the
other calls are one step each. `exit` closes the descriptors one after the other,
as `close` does; `read` and the bytes in a buffer leave the table alone.

`m_connecting_list` is taken as the list of the sockets linked in it. That is so
as long as a socket is linked in one list at a time.
-/

set_option autoImplicit false

namespace BabyOS.LocalSockets

def maxLocalSocket : ℕ := 128
def maxLocalPath : ℕ := 108
def afLocal : BitVec 16 := 1

/-- The path up to its first zero; one of `maxLocalPath` bytes has none. -/
structure Address where
  family : BitVec 16
  path : List (BitVec 8)
  fits : path.length ≤ maxLocalPath
  nonzero : ∀ b ∈ path, b ≠ 0
deriving DecidableEq

/-- The path is cleared. -/
def Address.clear (a : Address) : Address := ⟨a.family, [], Nat.zero_le _, fun _ h => by cases h⟩

inductive SocketState
  | free
  | unconnected
  | connecting
  | connected
  | disconnecting
deriving DecidableEq, Repr

/-- `socket_local_t`. The last four fields are no part of it: the number of the
allocation, whether the socket was bound and listened to since, and the number
of the socket that `accept` has connected it with. -/
structure Socket where
  ref : ℕ
  addr : Address
  acceptcon : Bool
  state : SocketState
  connecting : List ℕ
  peer : Option ℕ
  waitAccept : ℕ
  serial : ℕ
  bound : Bool
  listened : Bool
  mate : Option ℕ

abbrev Sockets := ℕ → Socket

def modify (t : Sockets) (i : ℕ) (g : Socket → Socket) : Sockets := Function.update t i (g (t i))

@[simp] theorem modify_same (t : Sockets) (i : ℕ) (g : Socket → Socket) : modify t i g i = g (t i) :=
  Function.update_self ..

theorem modify_other {i j : ℕ} (t : Sockets) (g : Socket → Socket) (h : j ≠ i) :
    modify t i g j = t j :=
  Function.update_of_ne h ..

/-- `m_ref` is a `uint32`. -/
@[irreducible] def inc (r : ℕ) : ℕ := (r+1)%2^32
@[irreducible] def dec (r : ℕ) : ℕ := (r+(2^32-1))%2^32

theorem inc_small {r : ℕ} (h : r < 2^32-1) : inc r = r+1 := by
  unfold inc
  omega

theorem dec_succ {r : ℕ} (h : r < 2^32) : dec (r+1) = r := by
  unfold dec
  omega

/-! ## The table -/

/-- `alloc_local_socket`, for the allocation `serial`. -/
def alloc (t : Sockets) (serial : ℕ) : Option (ℕ × Sockets) :=
  ((List.range maxLocalSocket).find? fun i => (t i).ref = 0).map fun i =>
    (i, modify t i fun x => { x with ref := 1, serial, bound := false, listened := false, mate := none })

/-- `create`: the flags and the family of the address are left as they are. -/
def create (t : Sockets) (i : ℕ) : Sockets :=
  modify t i fun x => { x with
    state := .unconnected
    ref := 1
    addr := x.addr.clear
    connecting := []
    peer := none
    waitAccept := 0 }

/-- `operator ==`. Two paths without a terminator go on behind their arrays;
`beyond` tells whether the bytes found there agree. -/
def sameAddr (a b : Address) (beyond : Bool) : Bool :=
  decide (a = b) && (decide (a.path.length < maxLocalPath) || beyond)

def lookup (t : Sockets) (beyond : ℕ → Bool) (addr : Address) : Option ℕ :=
  (List.range maxLocalSocket).find? fun i => sameAddr (t i).addr addr (beyond i)

/-- `bind_local_socket`; `none` is the result -1. -/
def bindLocal (t : Sockets) (beyond : ℕ → Bool) (i : ℕ) (addr : Address) : Option Sockets :=
  if ∃ k < maxLocalSocket, sameAddr (t k).addr addr (beyond k) ∧ (t k).ref ≠ 0 then none
  else some (modify t i fun x => { x with addr, bound := true })

/-- `sys_socket_t::listen`. -/
def listen (t : Sockets) (i : ℕ) : Sockets :=
  if (t i).state ≠ .unconnected then t
  else modify t i fun x => { x with acceptcon := true, listened := true }

/-- The socket that `connect` queues on; without one it returns an error. -/
def connectTo (t : Sockets) (beyond : ℕ → Bool) (i : ℕ) (addr : Address) : Option ℕ :=
  if (t i).state ≠ .unconnected then none
  else if addr.family ≠ afLocal then none
  else match lookup t beyond addr with
    | none => none
    | some j =>
      if (t j).state ≠ .unconnected then none
      else if (t j).acceptcon then some j else none

/-- The sockets of a list are woken: their `m_wait_accept_sem` gets a unit. -/
def wakeAll (t : Sockets) (l : List ℕ) : Sockets :=
  l.foldl (fun t c => modify t c fun x => { x with waitAccept := x.waitAccept+1 }) t

def disconnect (t : Sockets) (i : ℕ) : Sockets :=
  modify t i fun x => { x with state := .disconnecting }

def drop (t : Sockets) (i : ℕ) : Sockets := modify t i fun x => { x with ref := dec x.ref }

def release (t : Sockets) (i : ℕ) : Sockets :=
  let old := (t i).state
  let t := if old ≠ .unconnected then disconnect t i else t
  let t := wakeAll t (t i).connecting
  match (t i).peer with
  | some j => drop (drop (if old = .connected then disconnect t j else t) i) j
  | none => drop t i

/-- What `accept` does with the client `c` that it took off the list: `n` is the
new socket. -/
def handShake (t : Sockets) (c n : ℕ) : Sockets :=
  let t := modify t c fun x => { x with peer := some n, state := .connected, mate := some (t n).serial }
  let t := modify t n fun x => { x with
    peer := some c, state := .connected, ref := inc x.ref, mate := some (t c).serial }
  modify t c fun x => { x with waitAccept := x.waitAccept+1 }

/-- What `connect` does after its `down`. -/
def connected (t : Sockets) (c : ℕ) : Sockets :=
  modify t c fun x =>
    if x.state = .connected then { x with waitAccept := x.waitAccept-1, ref := inc x.ref }
    else { x with waitAccept := x.waitAccept-1 }

/-! ## What a call changes -/

theorem modify_apply (t : Sockets) (i j : ℕ) (g : Socket → Socket) :
    modify t i g j = if j = i then g (t j) else t j := by
  by_cases h : j = i
  · rw [h, modify_same, if_pos rfl]
  · rw [modify_other t g h, if_neg h]

/-- Every socket gets as many units as it stands in the list. -/
theorem wakeAll_apply (t : Sockets) (l : List ℕ) (j : ℕ) :
    wakeAll t l j = { t j with waitAccept := (t j).waitAccept+l.count j } := by
  induction l generalizing t with
  | nil => rfl
  | cons c l ih =>
    rw [wakeAll, List.foldl_cons, ← wakeAll, ih, modify_apply, List.count_cons]
    by_cases h : j = c
    · rw [if_pos h, if_pos (by simp [h])]
      simp only [Nat.add_comm, Nat.add_left_comm]
    · rw [if_neg h, if_neg (by simpa using fun hc => h hc.symm), Nat.add_zero]

theorem disconnect_apply (t : Sockets) (i j : ℕ) (P : Prop) [Decidable P] :
    (if P then disconnect t i else t) j =
      { t j with state := if j = i ∧ P then .disconnecting else (t j).state } := by
  by_cases hP : P
  · rw [if_pos hP, disconnect, modify_apply]
    by_cases hj : j = i
    · rw [if_pos hj, if_pos ⟨hj, hP⟩]
    · rw [if_neg hj, if_neg (fun h => hj h.1)]
  · rw [if_neg hP, if_neg (fun h => hP h.2)]

theorem drop_apply (t : Sockets) (i j : ℕ) :
    drop t i j = { t j with ref := if j = i then dec (t j).ref else (t j).ref } := by
  rw [drop, modify_apply]
  by_cases hj : j = i
  · rw [if_pos hj, if_pos hj]
  · rw [if_neg hj, if_neg hj]

/-- A socket after its file was closed: `own` and `other` tell whether it is the
closed one and its peer. -/
def left (x closed : Socket) (own other : Prop) [Decidable own] [Decidable other] (units : ℕ) :
    Socket :=
  let ref := if own then dec x.ref else x.ref
  { x with
    state := if (own ∧ closed.state ≠ .unconnected) ∨ (other ∧ closed.state = .connected)
      then .disconnecting else x.state
    waitAccept := x.waitAccept+units
    ref := if other then dec ref else ref }

theorem ite_ite_same {α : Type*} {A B : Prop} [Decidable A] [Decidable B] (x y : α) :
    (if B then x else if A then x else y) = if A ∨ B then x else y := by
  by_cases hA : A <;> by_cases hB : B <;> simp [hA, hB]

/-- The closed socket and its peer lose a reference each. -/
theorem release_apply (t : Sockets) (i j : ℕ) :
    release t i j = left (t j) (t i) (j = i) ((t i).peer = some j) ((t i).connecting.count j) := by
  have hlist : ∀ P [Decidable P],
      ((if P then disconnect t i else t) i).connecting = (t i).connecting := by
    intro P _
    rw [disconnect_apply]
  have hpeer : ∀ P [Decidable P],
      (wakeAll (if P then disconnect t i else t) (t i).connecting i).peer = (t i).peer := by
    intro P _
    rw [wakeAll_apply, disconnect_apply]
  rw [release]
  simp only [hlist, hpeer]
  cases hp : (t i).peer with
  | none =>
    simp only [drop_apply, wakeAll_apply, disconnect_apply, left]
    simp only [reduceCtorEq, false_and, or_false, if_false]
  | some k =>
    have hjk : some k = some j ↔ j = k := ⟨fun h => (Option.some.inj h).symm, fun h => h ▸ rfl⟩
    simp only [drop_apply, wakeAll_apply, disconnect_apply, left, hjk]
    congr 1
    exact ite_ite_same _ _

/-- The socket that `alloc` and `create` make. -/
theorem create_alloc {t t' : Sockets} {i n : ℕ} (h : alloc t n = some (i, t')) :
    i < maxLocalSocket ∧ (t i).ref = 0 ∧ (∀ j, j ≠ i → create t' i j = t j) ∧
      ∃ x : Socket, create t' i i = x ∧ x.ref = 1 ∧ x.state = .unconnected ∧ x.peer = none ∧
        x.connecting = [] ∧ x.bound = false ∧ x.addr.path = [] := by
  have ⟨j, hj, he⟩ := Option.map_eq_some_iff.mp h
  have ⟨hji, ht⟩ := Prod.mk.inj he
  subst hji
  have ⟨hp, hm, _⟩ := List.find?_range_eq_some.mp hj
  refine ⟨List.mem_range.mp hm, by simpa using hp, fun k hk => ?_, _, rfl, ?_⟩
  · rw [create, modify_other _ _ hk, ← ht, modify_other _ _ hk]
  · rw [create, modify_same, ← ht, modify_same]
    exact ⟨rfl, rfl, rfl, rfl, rfl, rfl⟩

/-- Releasing an unconnected socket without peer changes its references only,
and wakes those in its list. -/
theorem release_plain {t : Sockets} {i : ℕ} (hs : (t i).state = .unconnected) (hp : (t i).peer = none) (j : ℕ) :
    release t i j = { t j with
      waitAccept := (t j).waitAccept+(t i).connecting.count j
      ref := if j = i then dec (t j).ref else (t j).ref } := by
  rw [release_apply, left, hs, hp]
  simp only [ne_eq, not_true_eq_false, and_false, reduceCtorEq, or_self, if_false]

/-! ## Processes -/

/-- What a process is asleep in: `connect` on a file, `accept` on a file with
the file of the new socket, `write` to a file with the socket whose buffer gets
the bytes. -/
inductive Call
  | idle
  | connecting (f : ℕ)
  | accepting (f g : ℕ)
  | writing (f : ℕ) (target : Option ℕ)
deriving DecidableEq

/-- A file slot is released when its last descriptor is closed. Slots are
numbered as they are opened, and `fds` holds those of the descriptors of each
process. -/
structure State where
  sockets : Sockets
  serials : ℕ
  file : ℕ → ℕ
  files : ℕ
  fds : ℕ → List ℕ
  call : ℕ → Call
  procs : ℕ

/-- A new file for socket `i` and a descriptor of it. -/
def State.openFile (s : State) (t : Sockets) (p i : ℕ) : State :=
  { s with
    sockets := t
    serials := s.serials+1
    file := Function.update s.file s.files i
    files := s.files+1
    fds := Function.update s.fds p (s.files :: s.fds p) }

/-- A socket is allocated and given up again. -/
def State.giveUp (s : State) (t : Sockets) : State := { s with sockets := t, serials := s.serials+1 }

def State.setCall (s : State) (p : ℕ) (c : Call) : State :=
  { s with call := Function.update s.call p c }

inductive Event
  | socket (p : ℕ)
  | socketNoFile (p : ℕ)
  | socketNoFd (p : ℕ)
  | bind (p f : ℕ) (addr : Address) (beyond : ℕ → Bool)
  | listen (p f : ℕ)
  | connect (p f : ℕ) (addr : Address) (beyond : ℕ → Bool)
  | resume (p : ℕ)
  | accept (p f : ℕ)
  | acceptNoFile (p f : ℕ)
  | acceptNoFd (p f : ℕ)
  | accepted (p : ℕ)
  | write (p f : ℕ)
  | written (p : ℕ)
  | dup (p f : ℕ)
  | fork (p : ℕ)
  | close (p f : ℕ)

/-- The process runs and has a descriptor of the file. -/
def State.Uses (s : State) (p f : ℕ) : Prop := s.call p = .idle ∧ f ∈ s.fds p

/-- The listening socket of an `accept`. -/
def State.Accepts (s : State) (i : ℕ) : Prop :=
  (s.sockets i).state = .unconnected ∧ (s.sockets i).acceptcon = true

inductive Step : State → Event → State → Prop
  | socket {s : State} {p i : ℕ} {t : Sockets} : p < s.procs → s.call p = .idle →
      alloc s.sockets s.serials = some (i, t) → Step s (.socket p) (s.openFile (create t i) p i)
  /-- There is no file: the socket is released. -/
  | socketNoFile {s : State} {p i : ℕ} {t : Sockets} : p < s.procs → s.call p = .idle →
      alloc s.sockets s.serials = some (i, t) →
      Step s (.socketNoFile p) (s.giveUp (release (create t i) i))
  /-- There is no descriptor: closing the file releases the socket, and so does the caller. -/
  | socketNoFd {s : State} {p i : ℕ} {t : Sockets} : p < s.procs → s.call p = .idle →
      alloc s.sockets s.serials = some (i, t) →
      Step s (.socketNoFd p) (s.giveUp (release (release (create t i) i) i))
  | bind {s : State} {p f : ℕ} {addr : Address} {beyond : ℕ → Bool} {t : Sockets} : s.Uses p f →
      bindLocal s.sockets beyond (s.file f) addr = some t →
      Step s (.bind p f addr beyond) { s with sockets := t }
  | listen {s : State} {p f : ℕ} : s.Uses p f →
      Step s (.listen p f) { s with sockets := listen s.sockets (s.file f) }
  /-- The socket is queued, and the process sleeps. -/
  | connect {s : State} {p f j : ℕ} {addr : Address} {beyond : ℕ → Bool} : s.Uses p f →
      connectTo s.sockets beyond (s.file f) addr = some j →
      Step s (.connect p f addr beyond) ({ s with
        sockets := modify s.sockets j fun x => { x with
          connecting := x.connecting ++ [s.file f] } }.setCall p (.connecting f))
  | resume {s : State} {p f : ℕ} : s.call p = .connecting f →
      0 < (s.sockets (s.file f)).waitAccept →
      Step s (.resume p) ({ s with sockets := connected s.sockets (s.file f) }.setCall p .idle)
  | accept {s : State} {p f n : ℕ} {t : Sockets} : s.Uses p f → s.Accepts (s.file f) →
      alloc s.sockets s.serials = some (n, t) →
      Step s (.accept p f) ((s.openFile (create t n) p n).setCall p (.accepting f s.files))
  | acceptNoFile {s : State} {p f n : ℕ} {t : Sockets} : s.Uses p f → s.Accepts (s.file f) →
      alloc s.sockets s.serials = some (n, t) →
      Step s (.acceptNoFile p f) (s.giveUp (release (create t n) n))
  | acceptNoFd {s : State} {p f n : ℕ} {t : Sockets} : s.Uses p f → s.Accepts (s.file f) →
      alloc s.sockets s.serials = some (n, t) →
      Step s (.acceptNoFd p f) (s.giveUp (release (release (create t n) n) n))
  /-- The process may have been woken before. -/
  | accepted {s : State} {p f g c : ℕ} {rest : List ℕ} : s.call p = .accepting f g →
      (s.sockets (s.file f)).connecting = c :: rest →
      Step s (.accepted p) ({ s with
        sockets := handShake (modify s.sockets (s.file f) fun x => { x with connecting := rest })
          c (s.file g) }.setCall p .idle)
  /-- The pointer to the buffer is taken once, whatever it is. -/
  | write {s : State} {p f : ℕ} : s.Uses p f →
      Step s (.write p f) (s.setCall p (.writing f (s.sockets (s.file f)).peer))
  | written {s : State} {p f : ℕ} {target : Option ℕ} : s.call p = .writing f target →
      Step s (.written p) (s.setCall p .idle)
  | dup {s : State} {p f : ℕ} : s.Uses p f →
      Step s (.dup p f) { s with fds := Function.update s.fds p (f :: s.fds p) }
  | fork {s : State} {p : ℕ} : p < s.procs → s.call p = .idle →
      Step s (.fork p) { s with fds := Function.update s.fds s.procs (s.fds p), procs := s.procs+1 }
  /-- Another descriptor of the file is left. -/
  | closeShared {s : State} {p f q : ℕ} : s.Uses p f →
      f ∈ (Function.update s.fds p ((s.fds p).erase f)) q →
      Step s (.close p f) { s with fds := Function.update s.fds p ((s.fds p).erase f) }
  | closeLast {s : State} {p f : ℕ} : s.Uses p f →
      (∀ q, f ∉ (Function.update s.fds p ((s.fds p).erase f)) q) →
      Step s (.close p f) { s with
        sockets := release s.sockets (s.file f)
        fds := Function.update s.fds p ((s.fds p).erase f) }

/-- After `init_local_sockets`: a free table of copies of one object whose other
fields are not set, and processes without descriptors. -/
structure Start (s : State) : Prop where
  ref : ∀ i, (s.sockets i).ref = 0
  fds : ∀ p, s.fds p = []
  call : ∀ p, s.call p = .idle

inductive Run (allowed : State → Event → Prop) : State → Prop
  | start {s : State} : Start s → Run allowed s
  | step {s s' : State} {e : Event} : Run allowed s → allowed s e → Step s e s' → Run allowed s'

/-! ## Files -/

/-- A file slot refers to the socket. -/
def State.Opened (s : State) (i : ℕ) : Prop := ∃ p f, f ∈ s.fds p ∧ s.file f = i

/-- A call of `connect` on the socket has not returned. -/
def State.Connecting (s : State) (i : ℕ) : Prop := ∃ p f, s.call p = .connecting f ∧ s.file f = i

/-- A socket has at most one file, and a process that sleeps keeps its files.
The file of a socket that waits to be connected is known to its process only. -/
structure Files (s : State) : Prop where
  fresh : ∀ p, ∀ f ∈ s.fds p, f < s.files
  later : ∀ p, s.procs ≤ p → s.fds p = [] ∧ s.call p = .idle
  one : ∀ p q f g, f ∈ s.fds p → g ∈ s.fds q → s.file f = s.file g → f = g
  connecting : ∀ p f, s.call p = .connecting f → f ∈ s.fds p
  accepting : ∀ p f g, s.call p = .accepting f g →
    f ∈ s.fds p ∧ g ∈ s.fds p ∧ f ≠ g ∧ ∀ q, g ∈ s.fds q → q = p
  writing : ∀ p f target, s.call p = .writing f target → f ∈ s.fds p

section Files

variable {s s' : State} {e : Event} {p f i : ℕ} {t : Sockets}

theorem setCall_same (s : State) (p : ℕ) (c : Call) : (s.setCall p c).call p = c :=
  Function.update_self ..

theorem setCall_other (s : State) {p q : ℕ} (c : Call) (h : q ≠ p) :
    (s.setCall p c).call q = s.call q :=
  Function.update_of_ne h ..

theorem files_start (h : Start s) : Files s := by
  have hc : ∀ p c, c ≠ Call.idle → s.call p ≠ c := fun p c hne hp => hne (hp.symm.trans (h.call p))
  have hf : ∀ p f, f ∉ s.fds p := fun p f => by rw [h.fds p]; exact List.not_mem_nil
  refine ⟨fun p f hp => absurd hp (hf p f), fun p _ => ⟨h.fds p, h.call p⟩,
    fun p _ f _ hp => absurd hp (hf p f), ?_, ?_, ?_⟩
  · exact fun p f hp => absurd hp (hc p _ Call.noConfusion)
  · exact fun p f g hp => absurd hp (hc p _ Call.noConfusion)
  · exact fun p f target hp => absurd hp (hc p _ Call.noConfusion)

/-- The sockets of the table are not looked at. -/
theorem Files.sockets (h : Files s) (t : Sockets) (n : ℕ) : Files { s with sockets := t, serials := n } :=
  ⟨h.fresh, h.later, h.one, h.connecting, h.accepting, h.writing⟩

/-- The descriptors of the process after a file was opened. -/
theorem mem_openFile {q f : ℕ} : f ∈ (s.openFile t p i).fds q ↔ f ∈ s.fds q ∨ (q = p ∧ f = s.files) := by
  change f ∈ Function.update s.fds p (s.files :: s.fds p) q ↔ _
  by_cases hq : q = p
  · subst hq
    rw [Function.update_self, List.mem_cons]
    tauto
  · rw [Function.update_of_ne hq]
    tauto

theorem file_openFile (hf : f < s.files) : (s.openFile t p i).file f = s.file f :=
  Function.update_of_ne (Nat.ne_of_lt hf) ..

theorem file_opened : (s.openFile t p i).file s.files = i :=
  Function.update_self ..

theorem opened_openFile {j : ℕ} (h : Files s) :
    (s.openFile t p i).Opened j ↔ s.Opened j ∨ j = i := by
  constructor
  · intro ⟨q, f, hf, he⟩
    rcases mem_openFile.mp hf with hf | ⟨_, hf⟩
    · rw [file_openFile (h.fresh q f hf)] at he
      exact .inl ⟨q, f, hf, he⟩
    · rw [hf, file_opened] at he
      exact .inr he.symm
  · rintro (⟨q, f, hf, he⟩ | hj)
    · exact ⟨q, f, mem_openFile.mpr (.inl hf), (file_openFile (h.fresh q f hf)).trans he⟩
    · exact ⟨p, s.files, mem_openFile.mpr (.inr ⟨rfl, rfl⟩), file_opened.trans hj.symm⟩

/-- A descriptor that is left after one was closed. -/
theorem mem_closed {q f g : ℕ}
    (hg : g ∈ Function.update s.fds p ((s.fds p).erase f) q) : g ∈ s.fds q := by
  by_cases hq : q = p
  · rw [hq, Function.update_self] at hg
    rw [hq]
    exact List.mem_of_mem_erase hg
  · rwa [Function.update_of_ne hq] at hg

/-- A new file is that of a socket which no file refers to. -/
theorem files_openFile (h : Files s) (hp : p < s.procs) (hi : ¬ s.Opened i) :
    Files (s.openFile t p i) := by
  have hnew : ∀ q f, f ∈ s.fds q → (s.openFile t p i).file f = s.file f :=
    fun q f hf => file_openFile (h.fresh q f hf)
  have hnot : ∀ q, s.files ∉ s.fds q := fun q hq => absurd (h.fresh q _ hq) (Nat.lt_irrefl _)
  refine ⟨?_, ?_, ?_, ?_, ?_, ?_⟩
  · intro q f hf
    rcases mem_openFile.mp hf with hf | ⟨_, hf⟩
    · exact Nat.lt_succ_of_lt (h.fresh q f hf)
    · rw [hf]
      exact Nat.lt_succ_self _
  · intro q hq
    refine ⟨?_, (h.later q hq).2⟩
    change Function.update s.fds p (s.files :: s.fds p) q = []
    rw [Function.update_of_ne (by change s.procs ≤ q at hq; omega)]
    exact (h.later q hq).1
  · intro q r f g hf hg he
    rcases mem_openFile.mp hf with hf | ⟨_, hf⟩ <;> rcases mem_openFile.mp hg with hg | ⟨_, hg⟩
    · rw [hnew q f hf, hnew r g hg] at he
      exact h.one q r f g hf hg he
    · rw [hnew q f hf, hg, file_opened] at he
      exact absurd ⟨q, f, hf, he⟩ hi
    · rw [hnew r g hg, hf, file_opened] at he
      exact absurd ⟨r, g, hg, he.symm⟩ hi
    · rw [hf, hg]
  · exact fun q f hq => mem_openFile.mpr (.inl (h.connecting q f hq))
  · intro q f g hq
    have ⟨hf, hg, hne, hone⟩ := h.accepting q f g hq
    refine ⟨mem_openFile.mpr (.inl hf), mem_openFile.mpr (.inl hg), hne, fun r hr => ?_⟩
    rcases mem_openFile.mp hr with hr | ⟨_, hr⟩
    · exact hone r hr
    · exact absurd (hr ▸ hg) (hnot q)
  · exact fun q f target hq => mem_openFile.mpr (.inl (h.writing q f target hq))

/-- A call that keeps to the files of its process. -/
theorem files_setCall (h : Files s) (hp : p < s.procs) {c : Call}
    (hconn : ∀ f, c = .connecting f → f ∈ s.fds p)
    (hacc : ∀ f g, c = .accepting f g →
      f ∈ s.fds p ∧ g ∈ s.fds p ∧ f ≠ g ∧ ∀ q, g ∈ s.fds q → q = p)
    (hwri : ∀ f target, c = .writing f target → f ∈ s.fds p) : Files (s.setCall p c) := by
  have hcall : ∀ q d, (s.setCall p c).call q = d → (q = p ∧ c = d) ∨ s.call q = d := by
    intro q d hd
    by_cases hq : q = p
    · rw [hq, setCall_same] at hd
      exact .inl ⟨hq, hd⟩
    · rw [setCall_other s c hq] at hd
      exact .inr hd
  refine ⟨h.fresh, ?_, h.one, ?_, ?_, ?_⟩
  · intro q hq
    rw [setCall_other s c (by change s.procs ≤ q at hq; omega)]
    exact h.later q hq
  · intro q f hq
    rcases hcall q _ hq with ⟨hqp, hc⟩ | hq
    · rw [hqp]
      exact hconn f hc
    · exact h.connecting q f hq
  · intro q f g hq
    rcases hcall q _ hq with ⟨hqp, hc⟩ | hq
    · rw [hqp]
      exact hacc f g hc
    · exact h.accepting q f g hq
  · intro q f target hq
    rcases hcall q _ hq with ⟨hqp, hc⟩ | hq
    · rw [hqp]
      exact hwri f target hc
    · exact h.writing q f target hq

/-- A process that does not sleep gets no file that it did not have. -/
theorem files_descriptors (h : Files s) (hidle : s.call p = .idle) {l : List ℕ}
    (hl : ∀ f ∈ l, f ∈ s.fds p) : Files { s with fds := Function.update s.fds p l } := by
  have hmem : ∀ q f, f ∈ Function.update s.fds p l q → f ∈ s.fds q := by
    intro q f hf
    by_cases hq : q = p
    · rw [hq, Function.update_self] at hf
      rw [hq]
      exact hl f hf
    · rwa [Function.update_of_ne hq] at hf
  have hkeep : ∀ q f, s.call q ≠ .idle → f ∈ s.fds q → f ∈ Function.update s.fds p l q := by
    intro q f hq hf
    have hne : q ≠ p := fun he => hq (by rw [he, hidle])
    rwa [Function.update_of_ne hne]
  refine ⟨fun q f hf => h.fresh q f (hmem q f hf), ?_, ?_, ?_, ?_, ?_⟩
  · intro q hq
    refine ⟨?_, (h.later q hq).2⟩
    rw [List.eq_nil_iff_forall_not_mem]
    intro f hf
    have hold := hmem q f hf
    rw [(h.later q hq).1] at hold
    cases hold
  · exact fun q r f g hf hg => h.one q r f g (hmem q f hf) (hmem r g hg)
  · exact fun q f hq => hkeep q f (by rw [hq]; exact Call.noConfusion) (h.connecting q f hq)
  · intro q f g hq
    have hne : s.call q ≠ .idle := by rw [hq]; exact Call.noConfusion
    have ⟨hf, hg, hfg, hone⟩ := h.accepting q f g hq
    exact ⟨hkeep q f hne hf, hkeep q g hne hg, hfg, fun r hr => hone r (hmem r g hr)⟩
  · exact fun q f target hq =>
      hkeep q f (by rw [hq]; exact Call.noConfusion) (h.writing q f target hq)

theorem files_fork (h : Files s) (hidle : s.call p = .idle) :
    Files { s with fds := Function.update s.fds s.procs (s.fds p), procs := s.procs+1 } := by
  have hmem : ∀ q f, f ∈ Function.update s.fds s.procs (s.fds p) q →
      f ∈ s.fds q ∨ (q = s.procs ∧ f ∈ s.fds p) := by
    intro q f hf
    by_cases hq : q = s.procs
    · rw [hq, Function.update_self] at hf
      exact .inr ⟨hq, hf⟩
    · rw [Function.update_of_ne hq] at hf
      exact .inl hf
  have hold : ∀ q f, f ∈ Function.update s.fds s.procs (s.fds p) q → ∃ r, f ∈ s.fds r := by
    intro q f hf
    rcases hmem q f hf with hf | ⟨_, hf⟩
    · exact ⟨q, hf⟩
    · exact ⟨p, hf⟩
  have hkeep : ∀ q f, f ∈ s.fds q → f ∈ Function.update s.fds s.procs (s.fds p) q := by
    intro q f hf
    have hne : q ≠ s.procs := by
      intro he
      rw [he, (h.later _ (Nat.le_refl _)).1] at hf
      cases hf
    rwa [Function.update_of_ne hne]
  refine ⟨?_, ?_, ?_, fun q f hq => hkeep q f (h.connecting q f hq), ?_,
    fun q f target hq => hkeep q f (h.writing q f target hq)⟩
  · intro q f hf
    have ⟨r, hr⟩ := hold q f hf
    exact h.fresh r f hr
  · intro q hq
    change s.procs+1 ≤ q at hq
    have hlater := h.later q (by omega)
    refine ⟨?_, hlater.2⟩
    change Function.update s.fds s.procs (s.fds p) q = []
    rw [Function.update_of_ne (by omega)]
    exact hlater.1
  · intro q r f g hf hg
    have ⟨q', hq'⟩ := hold q f hf
    have ⟨r', hr'⟩ := hold r g hg
    exact h.one q' r' f g hq' hr'
  · intro q f g hq
    have ⟨hf, hg, hfg, hone⟩ := h.accepting q f g hq
    refine ⟨hkeep q f hf, hkeep q g hg, hfg, fun r hr => ?_⟩
    rcases hmem r g hr with hr | ⟨_, hr⟩
    · exact hone r hr
    · have hqp := hone p hr
      rw [hqp, hq] at hidle
      cases hidle

/-- A process with a descriptor or a call is one of those that were made. -/
theorem Files.running (h : Files s) (hf : f ∈ s.fds p) : p < s.procs := by
  by_contra hp
  rw [(h.later p (by omega)).1] at hf
  cases hf

theorem files_idle (h : Files s) (hp : p < s.procs) : Files (s.setCall p .idle) :=
  files_setCall h hp (fun _ hc => Call.noConfusion hc) (fun _ _ hc => Call.noConfusion hc)
    fun _ _ hc => Call.noConfusion hc

theorem alloc_free {n : ℕ} (h : alloc s.sockets n = some (i, t)) :
    (s.sockets i).ref = 0 ∧ t = modify s.sockets i fun x =>
      { x with ref := 1, serial := n, bound := false, listened := false, mate := none } := by
  have ⟨j, hj, he⟩ := Option.map_eq_some_iff.mp h
  have ⟨hij, ht⟩ := Prod.mk.inj he
  subst hij
  exact ⟨by simpa using List.find?_some hj, ht.symm⟩

/-- The files stay as they should when the sockets they refer to are in use. -/
theorem files_step (h : Files s) (hused : ∀ i, s.Opened i → (s.sockets i).ref ≠ 0)
    (hs : Step s e s') : Files s' := by
  have hnew : ∀ {i t}, alloc s.sockets s.serials = some (i, t) → ¬ s.Opened i :=
    fun ha ho => hused _ ho (alloc_free ha).1
  cases hs with
  | socket hp hidle ha => exact files_openFile h hp (hnew ha)
  | socketNoFile hp hidle ha => exact h.sockets _ _
  | socketNoFd hp hidle ha => exact h.sockets _ _
  | bind hu hb => exact h.sockets _ _
  | listen hu => exact h.sockets _ _
  | @connect p f j addr beyond hu hj =>
    refine (files_setCall h (h.running hu.2) (c := .connecting f) ?_ ?_ ?_).sockets _ s.serials
    · intro g hg
      cases hg
      exact hu.2
    · exact fun _ _ hc => Call.noConfusion hc
    · exact fun _ _ hc => Call.noConfusion hc
  | @resume p f hc hw =>
    have hp := h.running (h.connecting p f hc)
    exact (files_idle h hp).sockets _ s.serials
  | @accept p f n t hu hl ha =>
    have hp := h.running hu.2
    have ho := files_openFile (t := create t n) h hp (hnew ha)
    refine files_setCall ho hp (fun _ hc => Call.noConfusion hc) ?_
      (fun _ _ hc => Call.noConfusion hc)
    intro f' g hc
    cases hc
    refine ⟨mem_openFile.mpr (.inl hu.2), mem_openFile.mpr (.inr ⟨rfl, rfl⟩),
      Nat.ne_of_lt (h.fresh p f hu.2), fun q hq => ?_⟩
    rcases mem_openFile.mp hq with hq | ⟨hq, _⟩
    · exact absurd (h.fresh q _ hq) (Nat.lt_irrefl _)
    · exact hq
  | acceptNoFile hu hl ha => exact h.sockets _ _
  | acceptNoFd hu hl ha => exact h.sockets _ _
  | @accepted p f g c rest hc hq =>
    have hp := h.running (h.accepting p f g hc).1
    exact (files_idle h hp).sockets _ s.serials
  | @write p f hu =>
    refine files_setCall h (h.running hu.2) (fun _ hc => Call.noConfusion hc)
      (fun _ _ hc => Call.noConfusion hc) ?_
    intro g target hc
    cases hc
    exact hu.2
  | @written p f target hc =>
    have hp := h.running (h.writing p f target hc)
    exact files_idle h hp
  | @dup p f hu =>
    refine files_descriptors h hu.1 fun g hg => ?_
    rcases List.mem_cons.mp hg with hg | hg
    · rw [hg]
      exact hu.2
    · exact hg
  | fork hp hidle => exact files_fork h hidle
  | closeShared hu hq => exact files_descriptors h hu.1 fun g hg => List.mem_of_mem_erase hg
  | closeLast hu hq =>
    exact (files_descriptors h hu.1 fun g hg => List.mem_of_mem_erase hg).sockets _ s.serials

end Files

end BabyOS.LocalSockets

import BabyOS.FileTable
import BabyOS.LocalSockets

/-!
# Making a socket

`sys_socket_t::socket` and `sys_socket_t::accept` with everything they take in turn:
a slot of the socket table, a slot of the file table and a descriptor of the caller.
The lists are those of `dlist_t`, with the links that lie in the sockets. `taken` and
`dropped` are no part of the kernel: they count how often `m_ref` of a socket went up
and down.
-/

set_option autoImplicit false

namespace BabyOS.SocketCalls
open BabyOS.FileTable (File maxOpenFile)
open BabyOS.LocalSockets (SocketState Address maxLocalSocket)

/-! ## The sockets -/

/-- `dlist_node_t`; a node is that of a socket. -/
structure Link where
  prev : Option ℕ
  next : Option ℕ
deriving DecidableEq

/-- `dlist_t`. -/
structure DList where
  head : Option ℕ
  tail : Option ℕ
  length : BitVec 64
deriving DecidableEq

def Link.init : Link := ⟨none, none⟩
def DList.init : DList := ⟨none, none, 0⟩

structure LocalSocket where
  ref : BitVec 32
  flags : BitVec 32
  family : BitVec 32
  type : BitVec 32
  protocol : BitVec 32
  state : SocketState
  addr : Address
  list : DList
  node : Link
  peer : Option ℕ
  waitConnect : ℕ
  waitAccept : ℕ

abbrev Sockets := ℕ → LocalSocket

def modify (t : Sockets) (i : ℕ) (g : LocalSocket → LocalSocket) : Sockets :=
  Function.update t i (g (t i))

@[simp] theorem modify_same (t : Sockets) (i : ℕ) (g : LocalSocket → LocalSocket) :
    modify t i g i = g (t i) :=
  Function.update_self ..

theorem modify_other {i j : ℕ} (t : Sockets) (g : LocalSocket → LocalSocket) (h : j ≠ i) :
    modify t i g j = t j :=
  Function.update_of_ne h ..

def afLocal : BitVec 32 := 1
def afMax : BitVec 32 := 3
def sfAcceptcon : BitVec 32 := 1 <<< 16

def eBadf : ℤ := 9
def eInval : ℤ := 22
def eNosr : ℤ := 63
def eConnAborted : ℤ := 103

/-- `create`, and `dup` with the values of another socket. -/
def create (t : Sockets) (i : ℕ) (family type protocol : BitVec 32) : Sockets :=
  modify t i fun x => { x with
    family, type, protocol
    state := .unconnected
    ref := 1
    addr := x.addr.clear
    list := .init
    node := .init
    peer := none
    waitConnect := 0
    waitAccept := 0 }

/-- The walk of `release` along a list; `none` is a list that does not end within the
number of sockets. -/
def wake : ℕ → Option ℕ → Sockets → Option Sockets
  | _, none, t => some t
  | 0, some _, _ => none
  | fuel+1, some i, t =>
    wake fuel (t i).node.next (modify t i fun x => { x with waitAccept := x.waitAccept+1 })

def drop (x : LocalSocket) : LocalSocket := { x with ref := x.ref-1 }
def disconnect (x : LocalSocket) : LocalSocket := { x with state := .disconnecting }

/-- `remove_head` of the list of a socket, with `remove`. -/
def removeHead (t : Sockets) (i : ℕ) : Option (ℕ × Sockets) :=
  match (t i).list.head with
  | none => none
  | some c =>
    let link := (t c).node
    let t := match link.next with
      | none => modify t i fun x => { x with list := { x.list with tail := link.prev } }
      | some j => modify t j fun x => { x with node := { x.node with prev := link.prev } }
    let t := match link.prev with
      | none => modify t i fun x => { x with list := { x.list with head := link.next } }
      | some j => modify t j fun x => { x with node := { x.node with next := link.next } }
    some (c, modify t i fun x => { x with list := { x.list with length := x.list.length-1 } })

/-! ## The kernel -/

/-- The tables, and the process that makes the call. -/
structure Kernel where
  sockets : Sockets
  files : FileTable.Table
  caller : FileTable.Process
  taken : ℕ → ℕ
  dropped : ℕ → ℕ

def count (n : ℕ → ℕ) (i : ℕ) : ℕ → ℕ := Function.update n i (n i+1)

/-- `file_descriptor_t::init` for a socket. -/
def initSocket (i : ℕ) : File := ⟨.socket, 1, true, true, none, none, some i⟩

namespace Kernel

/-- `alloc_local_socket`. -/
def allocLocalSocket (k : Kernel) : Option (ℕ × Kernel) :=
  ((List.range maxLocalSocket).find? fun i => (k.sockets i).ref = 0).map fun i =>
    (i, { k with sockets := modify k.sockets i fun x => { x with ref := 1 }, taken := count k.taken i })

/-- `alloc_socket`; the internet types are not made. -/
def allocSocket (k : Kernel) (family : BitVec 32) : Option (ℕ × Kernel) :=
  if family = afLocal then k.allocLocalSocket else none

/-- `socket_local_t::release`. -/
def release (k : Kernel) (i : ℕ) : Option Kernel :=
  let old := (k.sockets i).state
  let t := if old ≠ .unconnected then modify k.sockets i disconnect else k.sockets
  (wake maxLocalSocket (t i).list.head t).map fun t =>
    match (t i).peer with
    | none => { k with sockets := modify t i drop, dropped := count k.dropped i }
    | some j =>
      let t := if old = .connected then modify t j disconnect else t
      { k with sockets := modify (modify t i drop) j drop, dropped := count (count k.dropped i) j }

/-- `close_file` of a slot that was initialised for a socket; `none` is the panic. -/
def closeFile (k : Kernel) (j : ℕ) : Option Kernel :=
  match k.files.free j with
  | none => none
  | some (none, t) => some { k with files := t }
  | some (some f, t) => match f.type, f.socket with
    | .socket, some i => { k with files := t }.release i
    | _, _ => some { k with files := t }

/-- A file and a descriptor for a new socket, in `socket` and in `accept`. -/
def openFile (k : Kernel) (i : ℕ) : Option (ℤ × Kernel) :=
  match k.files.alloc with
  | none => (k.release i).map fun k => (-eNosr, k)
  | some (j, t) =>
    let k := { k with files := Function.update t j (initSocket i) }
    match k.caller.allocFd j with
    | none => (k.closeFile j).bind fun k => (k.release i).map fun k => (-eNosr, k)
    | some (fd, x) => some (fd, { k with caller := x })

/-- `sys_socket_t::socket`. -/
def socket (k : Kernel) (family type protocol : BitVec 32) : Option (ℤ × Kernel) :=
  if family ≥ afMax then some (-eInval, k)
  else match k.allocSocket family with
    | none => some (-eNosr, k)
    | some (i, k) => { k with sockets := create k.sockets i family type protocol }.openFile i

def lookUpSocket (k : Kernel) (fd : ℤ) : Option ℕ :=
  (k.caller.getFile fd).bind fun j => (k.files j).socket

end Kernel

/-- `accept` returns, or waits for a client with the new socket and its descriptor. -/
inductive Outcome
  | returns (ret : ℤ)
  | waits (server new fd : ℕ)
deriving DecidableEq

namespace Kernel

/-- The checks of `accept` on its socket. -/
def Listens (k : Kernel) (i : ℕ) : Prop :=
  (k.sockets i).state = .unconnected ∧ (k.sockets i).flags &&& sfAcceptcon ≠ 0

instance (k : Kernel) (i : ℕ) : Decidable (k.Listens i) := inferInstanceAs (Decidable (_ ∧ _))

/-- `sys_socket_t::accept` up to its wait. -/
def accept (k : Kernel) (fd : ℤ) : Option (Outcome × Kernel) :=
  match k.lookUpSocket fd with
  | none => some (.returns (-eBadf), k)
  | some i =>
    if ¬ k.Listens i then some (.returns (-eInval), k)
    else match k.allocSocket (k.sockets i).family with
      | none => some (.returns (-eNosr), k)
      | some (n, k) =>
        let x := k.sockets i
        ({ k with sockets := create k.sockets n x.family x.type x.protocol }.openFile n).map
          fun (r : ℤ × Kernel) => (if r.1 < 0 then .returns r.1 else .waits i n r.1.toNat, r.2)

/-- The rest of `socket_local_t::accept`, with a client in the list; `none` while there
is none. Its result is 0, in `ret`. The flag and the semaphore of the wait are not
looked at again. -/
def takeClient (k : Kernel) (server new : ℕ) : Option (BitVec 32 × Kernel) :=
  if (k.sockets server).list.length = 0 then none
  else (removeHead k.sockets server).map fun (c, t) =>
    let t := modify t c fun x => { x with peer := some new, state := .connected }
    let t := modify t new fun x => { x with peer := some c, state := .connected, ref := x.ref+1 }
    (0, { k with
      sockets := modify t c fun x => { x with waitAccept := x.waitAccept+1 }
      taken := count k.taken new })

/-- `get_addr` copies the address and returns 0. -/
def getAddr : ℤ := 0

/-- `sys_socket_t::accept` behind its wait; `wanted` tells whether there is a place for
the address. The result `ret` is a `uint32`. -/
def accepted (k : Kernel) (server new fd : ℕ) (wanted : Bool) : Option (ℤ × Kernel) :=
  (k.takeClient server new).map fun (ret, k) =>
    (if ret < 0 then ret.toNat else if wanted ∧ getAddr < 0 then -eConnAborted else fd, k)

end Kernel

/-! ## Undoing -/

/-- What the claim about a failed call compares of a slot. -/
def Same (x y : LocalSocket) : Prop :=
  x.ref = y.ref ∧ x.state = y.state ∧ x.peer = y.peer ∧ x.list = y.list ∧ x.node = y.node

/-- A call with a negative result has left everything as it was, and dropped no more
references than it took. -/
structure Undone (k k' : Kernel) (ret : ℤ) : Prop where
  sockets : ret < 0 → ∀ i, Same (k'.sockets i) (k.sockets i)
  files : ret < 0 → k'.files = k.files
  caller : ret < 0 → k'.caller = k.caller
  counted : ret < 0 → ∀ i, k'.dropped i+k.taken i ≤ k'.taken i+k.dropped i

/-- The fields of a socket that was made and given up. -/
def Blank (x : LocalSocket) : Prop :=
  x.state = .unconnected ∧ x.peer = none ∧ x.list = .init ∧ x.node = .init

/-- What there is for the new socket in slot `i`: without a file the slot is blank
already, and with a file there is a descriptor. -/
def FileFound (k : Kernel) (i : ℕ) : Prop :=
  match k.files.alloc with
  | none => Blank (k.sockets i)
  | some _ => ∃ fd < maxOpenFile, k.caller.files fd = none

/-- The slot that a call takes, if there is one. -/
def Undoable (k : Kernel) (family : BitVec 32) : Prop :=
  ∀ i k', k.allocSocket family = some (i, k') → FileFound k i

section Calls

variable {k k' : Kernel} {i j : ℕ} {family type protocol : BitVec 32}

/-- Releasing a socket that is neither connected nor waited for. -/
theorem release_new (hstate : (k.sockets i).state = .unconnected) (hlist : (k.sockets i).list = .init)
    (hpeer : (k.sockets i).peer = none) :
    k.release i = some { k with sockets := modify k.sockets i drop, dropped := count k.dropped i } := by
  simp [Kernel.release, hstate, hlist, hpeer, DList.init, wake]

theorem allocSocket_spec (h : k.allocSocket family = some (i, k')) :
    (k.sockets i).ref = 0 ∧ k' = { k with
      sockets := modify k.sockets i fun x => { x with ref := 1 }
      taken := count k.taken i } := by
  rw [Kernel.allocSocket] at h
  split at h
  · obtain ⟨n, hn, heq⟩ := Option.map_eq_some_iff.mp h
    obtain ⟨rfl, rfl⟩ := Prod.mk.inj heq
    exact ⟨by simpa using List.find?_some hn, rfl⟩
  · cases h

theorem allocFd_none {x : FileTable.Process} {file : ℕ} :
    x.allocFd file = none ↔ ¬ ∃ fd < maxOpenFile, x.files fd = none := by
  rw [FileTable.Process.allocFd]
  cases hfd : (List.range maxOpenFile).find? fun i => x.files i = none with
  | none =>
    rw [List.find?_eq_none] at hfd
    simpa using fun fd hlt => hfd fd (List.mem_range.mpr hlt)
  | some fd =>
    have hmem := List.mem_of_find?_eq_some hfd
    have hnone := List.find?_some hfd
    simp only [reduceCtorEq, false_iff, not_not]
    exact ⟨fd, List.mem_range.mp hmem, by simpa using hnone⟩

/-- The file of a new socket is closed again: its slot is empty, and the socket is
released; then the caller releases it. -/
theorem openFile_noFd {t : FileTable.Table} (hstate : (k.sockets i).state = .unconnected)
    (hlist : (k.sockets i).list = .init) (hpeer : (k.sockets i).peer = none)
    (halloc : k.files.alloc = some (j, t)) (hfd : k.caller.allocFd j = none) :
    k.openFile i = some (-eNosr, { k with
      sockets := modify (modify k.sockets i drop) i drop
      files := Function.update t j { initSocket i with ref := 0, type := .none }
      dropped := count (count k.dropped i) i }) := by
  have hclose : Kernel.closeFile { k with files := Function.update t j (initSocket i) } j = some { k with
      sockets := modify k.sockets i drop
      files := Function.update t j { initSocket i with ref := 0, type := .none }
      dropped := count k.dropped i } := by
    simp [Kernel.closeFile, FileTable.Table.free, initSocket, Kernel.release, hstate, hlist, hpeer,
      DList.init, wake]
  have hagain : Kernel.release { k with
      sockets := modify k.sockets i drop
      files := Function.update t j { initSocket i with ref := 0, type := .none }
      dropped := count k.dropped i } i = some { k with
      sockets := modify (modify k.sockets i drop) i drop
      files := Function.update t j { initSocket i with ref := 0, type := .none }
      dropped := count (count k.dropped i) i } := by
    simp [Kernel.release, drop, hstate, hlist, hpeer, DList.init, wake]
  simp only [Kernel.openFile, halloc, hfd]
  rw [hclose, Option.bind_some, hagain]
  rfl

/-- The kernel with a new socket in slot `i`. -/
def made (k : Kernel) (i : ℕ) (family type protocol : BitVec 32) : Kernel :=
  { k with
    sockets := create (modify k.sockets i fun x => { x with ref := 1 }) i family type protocol
    taken := count k.taken i }

theorem made_new (k : Kernel) (i : ℕ) (family type protocol : BitVec 32) :
    ((made k i family type protocol).sockets i).ref = 1 ∧ Blank ((made k i family type protocol).sockets i) := by
  simp [made, create, Blank]

theorem made_other (k : Kernel) {n : ℕ} (family type protocol : BitVec 32) (h : n ≠ i) :
    (made k i family type protocol).sockets n = k.sockets n := by
  change create (modify k.sockets i fun x => { x with ref := 1 }) i family type protocol n = k.sockets n
  rw [create, modify_other _ _ h, modify_other _ _ h]

/-- Giving the new socket up once restores the slot if it was blank before. -/
theorem undone_release (hfree : (k.sockets i).ref = 0) :
    Undone k { made k i family type protocol with
      sockets := modify (made k i family type protocol).sockets i drop, dropped := count k.dropped i } (-eNosr) ↔
      Blank (k.sockets i) := by
  obtain ⟨href, hblank⟩ := made_new k i family type protocol
  constructor
  · intro h
    obtain ⟨-, hstate, hpeer, hlist, hnode⟩ := h.sockets (by decide) i
    simp only [modify_same, drop] at hstate hpeer hlist hnode
    exact ⟨hstate ▸ hblank.1, hpeer ▸ hblank.2.1, hlist ▸ hblank.2.2.1, hnode ▸ hblank.2.2.2⟩
  · intro hold
    refine ⟨fun _ n => ?_, fun _ => rfl, fun _ => rfl, fun _ n => ?_⟩
    · by_cases hn : n = i
      · subst hn
        simp only [modify_same, drop]
        refine ⟨?_, hblank.1.trans hold.1.symm, hblank.2.1.trans hold.2.1.symm,
          hblank.2.2.1.trans hold.2.2.1.symm, hblank.2.2.2.trans hold.2.2.2.symm⟩
        rw [href, hfree]
        rfl
      · simp only [modify_other _ _ hn, made_other k family type protocol hn]
        exact ⟨rfl, rfl, rfl, rfl, rfl⟩
    · by_cases hn : n = i
      · subst hn
        simp [made, count]
        omega
      · simp [made, count, hn, Nat.add_comm]

/-- Giving it up twice does not: `m_ref` goes below zero. -/
theorem undone_twice (hfree : (k.sockets i).ref = 0) {k₁ : Kernel}
    (hsockets : k₁.sockets = modify (modify (made k i family type protocol).sockets i drop) i drop) :
    ¬ Undone k k₁ (-eNosr) := by
  intro h
  obtain ⟨href, -⟩ := h.sockets (by decide) i
  have hwrap : ((made k i family type protocol).sockets i).ref-1-1 = (k.sockets i).ref := by
    rw [hsockets, modify_same, modify_same] at href
    exact href
  rw [(made_new k i family type protocol).1, hfree] at hwrap
  exact absurd hwrap (by decide)

/-- The file and the descriptor of a new socket: the call returns, and undoes what it
did exactly when the condition holds. -/
theorem openFile_undone (hfree : (k.sockets i).ref = 0) (family type protocol : BitVec 32) :
    ∃ ret k', (made k i family type protocol).openFile i = some (ret, k') ∧
      (Undone k k' ret ↔ FileFound k i) := by
  obtain ⟨-, hstate, hpeer, hlist, -⟩ := made_new k i family type protocol
  have honce := @undone_release k i family type protocol hfree
  have htwice := @undone_twice k i family type protocol hfree
  have hfiles : (made k i family type protocol).files = k.files := rfl
  have hcaller : (made k i family type protocol).caller = k.caller := rfl
  have hdropped : (made k i family type protocol).dropped = k.dropped := rfl
  generalize made k i family type protocol = k₁ at *
  rw [FileFound]
  cases halloc : k.files.alloc with
  | none =>
    simp only [Kernel.openFile, hfiles, halloc]
    rw [release_new hstate hlist hpeer, hdropped]
    exact ⟨_, _, rfl, honce⟩
  | some slot =>
    obtain ⟨j, t⟩ := slot
    cases hfd : k.caller.allocFd j with
    | none =>
      rw [openFile_noFd hstate hlist hpeer (hfiles.symm ▸ halloc) (hcaller.symm ▸ hfd)]
      exact ⟨_, _, rfl, iff_of_false (htwice rfl) (allocFd_none.mp hfd)⟩
    | some r =>
      have hsome : ∃ fd < maxOpenFile, k.caller.files fd = none := by
        by_contra hno
        rw [allocFd_none.mpr hno] at hfd
        cases hfd
      have hpos : ¬ ((r.1 : ℕ) : ℤ) < 0 := by omega
      simp only [Kernel.openFile, hfiles, hcaller, halloc, hfd]
      exact ⟨_, _, rfl, iff_of_true ⟨fun h => absurd h hpos, fun h => absurd h hpos,
        fun h => absurd h hpos, fun h => absurd h hpos⟩ hsome⟩

/-- A result that is not negative promises nothing. -/
theorem undone_success {ret : ℤ} (h : 0 ≤ ret) : Undone k k' ret :=
  ⟨fun hn => absurd hn (not_lt.mpr h), fun hn => absurd hn (not_lt.mpr h),
    fun hn => absurd hn (not_lt.mpr h), fun hn => absurd hn (not_lt.mpr h)⟩

theorem undone_refl (k : Kernel) (ret : ℤ) : Undone k k ret :=
  ⟨fun _ _ => ⟨rfl, rfl, rfl, rfl, rfl⟩, fun _ => rfl, fun _ => rfl, fun _ _ => (Nat.add_comm _ _).le⟩

theorem undoable_none (h : k.allocSocket family = none) : Undoable k family := by
  intro i k' hs
  rw [h] at hs
  cases hs

theorem undoable_some (h : k.allocSocket family = some (i, k')) : Undoable k family ↔ FileFound k i := by
  constructor
  · exact fun hall => hall i k' h
  · intro hfound n k₁ hs
    rw [h] at hs
    obtain ⟨rfl, -⟩ := Prod.mk.inj (Option.some.inj hs)
    exact hfound

theorem socket_undone (k : Kernel) (family type protocol : BitVec 32) :
    ∃ ret k', k.socket family type protocol = some (ret, k') ∧ (Undone k k' ret ↔ Undoable k family) := by
  rw [Kernel.socket]
  split
  next hmax =>
    refine ⟨_, _, rfl, iff_of_true (undone_refl k _) (undoable_none ?_)⟩
    rw [Kernel.allocSocket, if_neg]
    rintro rfl
    exact absurd hmax (by decide)
  · cases halloc : k.allocSocket family with
    | none => exact ⟨_, _, rfl, iff_of_true (undone_refl k _) (undoable_none halloc)⟩
    | some r =>
      obtain ⟨i, k₁⟩ := r
      obtain ⟨hfree, rfl⟩ := allocSocket_spec halloc
      rw [undoable_some halloc]
      exact openFile_undone hfree family type protocol

/-- The condition for `accept`, behind its checks. -/
def AcceptUndoable (k : Kernel) (fd : ℤ) : Prop :=
  ∀ i, k.lookUpSocket fd = some i → k.Listens i → Undoable k (k.sockets i).family

theorem accept_undone (k : Kernel) (fd : ℤ) :
    ∃ out k', k.accept fd = some (out, k') ∧
      ((∀ ret, out = .returns ret → Undone k k' ret) ↔ AcceptUndoable k fd) := by
  have hrefused : ∀ e : ℤ, ∀ ret, Outcome.returns e = .returns ret → Undone k k ret :=
    fun e ret _ => undone_refl k ret
  rw [Kernel.accept]
  cases hlook : k.lookUpSocket fd with
  | none =>
    refine ⟨_, _, rfl, iff_of_true (hrefused _) fun i hi => ?_⟩
    rw [hlook] at hi
    cases hi
  | some i =>
    have hcond : ∀ P : Prop, (k.Listens i → (P ↔ Undoable k (k.sockets i).family)) → k.Listens i →
        (P ↔ AcceptUndoable k fd) := by
      intro P hP hl
      rw [hP hl]
      refine ⟨fun hu n hn _ => ?_, fun hall => hall i hlook hl⟩
      rw [hlook] at hn
      obtain rfl := Option.some.inj hn
      exact hu
    simp only
    split
    next hnot =>
      refine ⟨_, _, rfl, iff_of_true (hrefused _) fun n hn hl => ?_⟩
      rw [hlook] at hn
      obtain rfl := Option.some.inj hn
      exact absurd hl hnot
    next hnot =>
      have hl := not_not.mp hnot
      cases halloc : k.allocSocket (k.sockets i).family with
      | none =>
        refine ⟨_, _, rfl, hcond _ (fun _ => ?_) hl⟩
        exact iff_of_true (hrefused _) (undoable_none halloc)
      | some r =>
        obtain ⟨n, k₁⟩ := r
        obtain ⟨hfree, rfl⟩ := allocSocket_spec halloc
        simp only
        obtain ⟨x, hx⟩ : ∃ x, modify k.sockets n (fun x => { x with ref := 1 }) i = x := ⟨_, rfl⟩
        obtain ⟨ret, k', hopen, hiff⟩ := openFile_undone hfree x.family x.type x.protocol
        have hopen' := hopen
        rw [made] at hopen'
        rw [hx, hopen']
        refine ⟨_, _, rfl, hcond _ (fun _ => ?_) hl⟩
        rw [undoable_some halloc, ← hiff]
        constructor
        · intro hall
          by_cases hneg : ret < 0
          · exact hall ret (if_pos hneg)
          · exact undone_success (not_lt.mp hneg)
        · intro h ret' hret
          by_cases hneg : ret < 0
          · simp only [hneg, if_true, Outcome.returns.injEq] at hret
            exact hret ▸ h
          · simp [hneg] at hret

/-- Behind its wait `accept` never fails. -/
theorem accepted_undone {server new fd : ℕ} {ret : ℤ} {wanted : Bool}
    (h : k.accepted server new fd wanted = some (ret, k')) : Undone k k' ret := by
  apply undone_success
  obtain ⟨⟨r, k₁⟩, htake, heq⟩ := Option.map_eq_some_iff.mp h
  obtain ⟨rfl, -⟩ := Prod.mk.inj heq
  have hgot : ¬ (wanted = true ∧ Kernel.getAddr < 0) := fun hw => absurd hw.2 (by decide)
  simp only [if_false, hgot]
  exact Int.natCast_nonneg fd

/-- `socket` and `accept` return, and undo what they did exactly when the slot was blank
before or there is a descriptor; behind its wait `accept` does not fail. -/
theorem calls_undone_iff (k : Kernel) :
    (∀ family type protocol : BitVec 32, ∃ ret k',
      k.socket family type protocol = some (ret, k') ∧ (Undone k k' ret ↔ Undoable k family)) ∧
    (∀ fd : ℤ, ∃ out k', k.accept fd = some (out, k') ∧
      ((∀ ret, out = .returns ret → Undone k k' ret) ↔ AcceptUndoable k fd)) ∧
    ∀ (k' : Kernel) (server new fd : ℕ) (wanted : Bool) (ret : ℤ),
      k.accepted server new fd wanted = some (ret, k') → Undone k k' ret :=
  ⟨socket_undone k, accept_undone k, fun _ _ _ _ _ _ h => accepted_undone h⟩

end Calls

/-- After `init`: no socket, no file, no descriptor. -/
def booted : Kernel where
  sockets := fun _ => ⟨0, 0, 0, 0, 0, .free, ⟨0, [], Nat.zero_le _, nofun⟩, .init, .init, none, 0, 0⟩
  files := fun _ => ⟨.none, 0, false, false, none, none, none⟩
  caller := ⟨fun _ => none, .running⟩
  taken := fun _ => 0
  dropped := fun _ => 0

theorem calls_undone_iff_booted : ∃ ret k', booted.socket afLocal 1 0 = some (ret, k') ∧ Undone booted k' ret := by
  obtain ⟨ret, k', hs, hiff⟩ := (calls_undone_iff booted).1 afLocal 1 0
  refine ⟨ret, k', hs, hiff.mpr fun i _ _ => ?_⟩
  have hfile : booted.files.alloc = some (0, Function.update booted.files 0 { booted.files 0 with ref := 1 }) := by
    have hfind : (List.range FileTable.maxFileNum).find? (fun i => (booted.files i).ref = 0) = some 0 := by
      decide +kernel
    rw [FileTable.Table.alloc, hfind]
  rw [FileFound, hfile]
  exact ⟨0, by decide, rfl⟩

/-- One file, and all descriptors of the caller refer to it. -/
def crowded : Kernel :=
  { booted with
    files := Function.update booted.files 0 ⟨.inode, 64, true, false, some 0, none, none⟩
    caller := ⟨fun _ => some 0, .running⟩ }

/-- Without a descriptor the new socket is released twice. -/
theorem socket_released_twice : ¬ ∀ (k k' : Kernel) (family type protocol : BitVec 32) (ret : ℤ),
    k.socket family type protocol = some (ret, k') → Undone k k' ret := by
  intro hall
  obtain ⟨ret, k', hs, hiff⟩ := socket_undone crowded afLocal 1 0
  have hundoable := hiff.mp (hall crowded k' afLocal 1 0 ret hs)
  have hslot : (crowded.allocSocket afLocal).map Prod.fst = some 0 := by decide +kernel
  obtain ⟨⟨i, k₁⟩, halloc, hi⟩ := Option.map_eq_some_iff.mp hslot
  have hfound := hundoable i k₁ halloc
  have hfile : (crowded.files.alloc).isSome = true := by
    have hfind : (List.range FileTable.maxFileNum).find? (fun i => (crowded.files i).ref = 0) = some 1 := by
      decide +kernel
    rw [FileTable.Table.alloc, hfind]
    rfl
  obtain ⟨slot, hslot⟩ := Option.isSome_iff_exists.mp hfile
  rw [FileFound, hslot] at hfound
  obtain ⟨fd, -, hfd⟩ := hfound
  cases hfd

end BabyOS.SocketCalls

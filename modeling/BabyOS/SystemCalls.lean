import Mathlib.Data.BitVec
import Mathlib.Tactic

/-!
# The system-call interface

A library wrapper leaves the number of its call in `rax` and its arguments in
`rdi`, `rsi`, `rdx` and `rcx`, in the order the inline assembly of its arity
gives. The kernel looks the number up in `s_system_call_table` and the handler
takes its parameters back out of the trap frame by index. The order is written
down on both sides and compared by nobody. Here both sides are stated as the
source has them, and the wrappers whose call arrives as it was meant are
determined.
-/

set_option autoImplicit false

namespace BabyOS.SystemCalls

/-- An `int`, `unsigned` or `pid_t`, and a `long`, `uint64` or pointer. -/
abbrev Word := BitVec 32
abbrev Long := BitVec 64

/-- The ticks of the timer in a second. -/
def hz : Word := 100

/-- The registers of a trap frame that the interface uses. -/
structure Registers where
  rax : Long
  rdi : Long
  rsi : Long
  rdx : Long
  rcx : Long
  r8 : Long
  r9 : Long

/-- The numbers of `syscall_def.h`, in the order of the enumeration. -/
inductive Id where
  | print | fork | exec | mmap | exit | wait | sleep | open | close | read | write | lseek
  | link | unlink | mkdir | mknod | dup | stat | chdir | pipe | ioctl | sendto | recvfrom
  | socket | bind | listen | accept | connect | sbrk | signal | sigret | kill | pid | ps | alarm
  deriving DecidableEq, Repr

def Id.number (i : Id) : ℕ := i.ctorIdx

def maxSyscall : ℕ := 35

theorem Id.number_lt (i : Id) : i.number < maxSyscall := by
  cases i <;> decide

/-! ## The library -/

/-- A C argument as the register that carries it holds it: a 32-bit operand is
moved into its register by an instruction that clears the upper half. -/
def int (x : Word) : Long := x.setWidth 64

def enter0 (i : Id) (r : Registers) : Registers :=
  { r with rax := BitVec.ofNat 64 i.number }

def enter1 (i : Id) (a : Long) (r : Registers) : Registers :=
  { enter0 i r with rdi := a }

def enter2 (i : Id) (a b : Long) (r : Registers) : Registers :=
  { enter1 i a r with rsi := b }

def enter3 (i : Id) (a b c : Long) (r : Registers) : Registers :=
  { enter2 i a b r with rdx := c }

def enter4 (i : Id) (a b c d : Long) (r : Registers) : Registers :=
  { enter3 i a b c r with rcx := d }

/-- The wrappers of `unistd.cc` that trap once, with their C arguments. -/
inductive Call where
  | colorPrint (color : Word) (str : Long)
  | fork
  | exec (path arg : Long)
  | mmap (addr len : Long) (prot flags : Word)
  | exit (val : Word)
  | wait (pid : Word)
  | sleep (sec : Word)
  | open (path : Long) (mode : Word)
  | close (fd : Word)
  | read (fd : Word) (buf size : Long)
  | write (fd : Word) (buf size : Long)
  | lseek (fd : Word) (offset : Long) (whence : Word)
  | mkdir (path : Long)
  | link (pathOld pathNew : Long)
  | unlink (path : Long)
  | mknod (path : Long) (major minor : Word)
  | dup (fd : Word)
  | chdir (path : Long)
  | fstat (fd : Word) (st : Long)
  | pipe (fd : Long)
  | ioctl (fd cmd : Word) (arg : Long)
  | socket (domain type protocol : Word)
  | bind (sockfd : Word) (addr : Long)
  | listen (sockfd backlog : Word)
  | connect (sockfd : Word) (addr : Long)
  | accept (sockfd : Word) (addr : Long)
  | sendTo (fd : Word) (buf : Long) (size : Word) (addr : Long)
  | recvFrom (fd : Word) (buf : Long) (size : Word) (addr : Long)
  | sbrk (increment : Long)
  | signal (signum : Word) (handler : Long)
  | getpid
  | alarm (seconds : Word)
  | listProcess (buffer : Long) (size : Word)
  | kill (pid sig : Word)

/-- The number each wrapper passes. -/
def Call.id : Call → Id
  | .colorPrint _ _ => .print
  | .fork => .fork
  | .exec _ _ => .exec
  | .mmap _ _ _ _ => .mmap
  | .exit _ => .exit
  | .wait _ => .wait
  | .sleep _ => .sleep
  | .open _ _ => .open
  | .close _ => .close
  | .read _ _ _ => .read
  | .write _ _ _ => .write
  | .lseek _ _ _ => .lseek
  | .mkdir _ => .mkdir
  | .link _ _ => .link
  | .unlink _ => .unlink
  | .mknod _ _ _ => .mknod
  | .dup _ => .dup
  | .chdir _ => .chdir
  | .fstat _ _ => .stat
  | .pipe _ => .pipe
  | .ioctl _ _ _ => .ioctl
  | .socket _ _ _ => .socket
  | .bind _ _ => .bind
  | .listen _ _ => .listen
  | .connect _ _ => .connect
  | .accept _ _ => .accept
  | .sendTo _ _ _ _ => .sendto
  | .recvFrom _ _ _ _ => .recvfrom
  | .sbrk _ => .sbrk
  | .signal _ _ => .signal
  | .getpid => .pid
  | .alarm _ => .alarm
  | .listProcess _ _ => .ps
  | .kill _ _ => .kill

/-- The registers at the `int 0x80` of a wrapper that was entered with `r`. -/
def enter : Call → Registers → Registers
  | .colorPrint color str => enter2 .print (int color) str
  | .fork => enter0 .fork
  | .exec path arg => enter2 .exec path arg
  | .mmap addr len prot flags => enter4 .mmap addr len (int prot) (int flags)
  | .exit val => enter1 .exit (int val)
  | .wait pid => enter1 .wait (int pid)
  | .sleep sec => enter1 .sleep (int sec)
  | .open path mode => enter2 .open path (int mode)
  | .close fd => enter1 .close (int fd)
  | .read fd buf size => enter3 .read (int fd) buf size
  | .write fd buf size => enter3 .write (int fd) buf size
  -- The descriptor is not passed on: the offset takes its place.
  | .lseek _ offset whence => enter2 .lseek offset (int whence)
  | .mkdir path => enter1 .mkdir path
  | .link pathOld pathNew => enter2 .link pathOld pathNew
  | .unlink path => enter1 .unlink path
  | .mknod path major minor => enter3 .mknod path (int major) (int minor)
  | .dup fd => enter1 .dup (int fd)
  | .chdir path => enter1 .chdir path
  | .fstat fd st => enter2 .stat (int fd) st
  | .pipe fd => enter1 .pipe fd
  | .ioctl fd cmd arg => enter3 .ioctl (int fd) (int cmd) arg
  | .socket domain type protocol => enter3 .socket (int domain) (int type) (int protocol)
  | .bind sockfd addr => enter2 .bind (int sockfd) addr
  | .listen sockfd backlog => enter2 .listen (int sockfd) (int backlog)
  | .connect sockfd addr => enter2 .connect (int sockfd) addr
  | .accept sockfd addr => enter2 .accept (int sockfd) addr
  | .sendTo fd buf size addr => enter4 .sendto (int fd) buf (int size) addr
  | .recvFrom fd buf size addr => enter4 .recvfrom (int fd) buf (int size) addr
  | .sbrk increment => enter1 .sbrk increment
  | .signal signum handler => enter2 .signal (int signum) handler
  | .getpid => enter0 .pid
  | .alarm seconds => enter1 .alarm (int seconds)
  | .listProcess buffer size => enter2 .ps buffer (int size)
  | .kill pid sig => enter2 .kill (int pid) (int sig)

/-- A function of the library: one trap, or `stat`, which opens the path, asks
for the status of the descriptor it got, and closes it. -/
inductive Wrapper where
  | trap (c : Call)
  | stat (path st : Long)

def modeRdonly : Word := 0

/-- The traps of a wrapper when its first one returns `ret`. -/
def Wrapper.calls : Wrapper → Word → List Call
  | .trap c, _ => [c]
  | .stat path st, fd =>
    if fd.slt 0 then [.open path modeRdonly]
    else [.open path modeRdonly, .fstat fd st, .close fd]

/-! ## The kernel -/

/-- A handler with the values it gives its parameters. A handler of the kernel
that has no parameter for an argument of its wrapper receives none. -/
inductive Request where
  | print (color : Word) (va : Long)
  | fork
  | exec (path arg : Long)
  | mmap (addr len prot flags : Long)
  | exit (status : Option Word)
  | wait (pid : Word)
  | sleep (ticks : Word)
  | open (path : Long) (mode : Word)
  | close (fd : Word)
  | read (fd : Word) (buf size : Long)
  | write (fd : Word) (buf size : Long)
  | lseek (fd : Word) (offset : Long) (whence : Word)
  | link (pathOld pathNew : Long)
  | unlink (path : Long)
  | mkdir (path : Long)
  | mknod (path : Long) (major minor : Word)
  | dup (fd : Word)
  | stat (fd : Word) (st : Long)
  | chdir (path : Long)
  | pipe (fd : Long)
  | ioctl (fd cmd : Word) (arg : Long)
  | sendTo (fd : Word) (buf size addr : Long)
  | recvFrom (fd : Word) (buf size addr : Long)
  | socket (family type protocol : Word)
  | bind (fd : Word) (myaddr : Long)
  | listen (fd backlog : Word)
  | accept (fd : Word) (peerAddr : Long)
  | connect (fd : Word) (userAddr : Long)
  | sbrk (increment : Long)
  | signal (sig : Word) (sigHandler : Long)
  | sigret
  | kill (pid sig : Word)
  | pid
  | ps (buffer : Long) (size : Word)
  /-- `alarm` has no handler: this is what one would be asked. -/
  | alarm (seconds : Word)
  deriving DecidableEq

/-- `get_argument`; an index above 5 halts the machine and is never passed. -/
def getArgument (frame : Registers) : ℕ → Long
  | 0 => frame.rdi
  | 1 => frame.rsi
  | 2 => frame.rdx
  | 3 => frame.rcx
  | 4 => frame.r8
  | 5 => frame.r9
  | _ => 0

/-- An argument cast to a 32-bit type. -/
def getInt (frame : Registers) (index : ℕ) : Word := (getArgument frame index).setWidth 32

abbrev Handler := Registers → Request

def sysPrint : Handler := fun f => .print (getInt f 0) (getArgument f 1)

def sysFork : Handler := fun _ => .fork

/-- `process_t::exec` reads the registers of the frame by name. -/
def sysExec : Handler := fun f => .exec f.rdi f.rsi

def sysMmap : Handler := fun f =>
  .mmap (getArgument f 0) (getArgument f 1) (getArgument f 2) (getArgument f 3)

def sysExit : Handler := fun _ => .exit none

def sysWait : Handler := fun f => .wait (getInt f 0)

def sysSleep : Handler := fun f => .sleep ((getArgument f 0 * int hz).setWidth 32)

def sysOpen : Handler := fun f => .open (getArgument f 0) (getInt f 1)

def sysClose : Handler := fun f => .close (getInt f 0)

def sysRead : Handler := fun f => .read (getInt f 0) (getArgument f 1) (getArgument f 2)

def sysWrite : Handler := fun f => .write (getInt f 0) (getArgument f 1) (getArgument f 2)

def sysLseek : Handler := fun f => .lseek (getInt f 0) (getArgument f 1) (getInt f 2)

def sysLink : Handler := fun f => .link (getArgument f 0) (getArgument f 1)

def sysUnlink : Handler := fun f => .unlink (getArgument f 0)

def sysMkdir : Handler := fun f => .mkdir (getArgument f 0)

def sysMknod : Handler := fun f => .mknod (getArgument f 0) (getInt f 1) (getInt f 2)

def sysDup : Handler := fun f => .dup (getInt f 0)

def sysStat : Handler := fun f => .stat (getInt f 0) (getArgument f 1)

def sysChdir : Handler := fun f => .chdir (getArgument f 0)

def sysPipe : Handler := fun f => .pipe (getArgument f 0)

def sysIoctl : Handler := fun f => .ioctl (getInt f 0) (getInt f 1) (getArgument f 2)

/-- The size and the address both come from argument 2. -/
def sysSendTo : Handler := fun f =>
  .sendTo (getInt f 0) (getArgument f 1) (getArgument f 2) (getArgument f 2)

def sysRecvFrom : Handler := fun f =>
  .recvFrom (getInt f 0) (getArgument f 1) (getArgument f 2) (getArgument f 2)

def sysSocket : Handler := fun f => .socket (getInt f 0) (getInt f 1) (getInt f 2)

def sysBind : Handler := fun f => .bind (getInt f 0) (getArgument f 1)

def sysListen : Handler := fun f => .listen (getInt f 0) (getInt f 1)

def sysAccept : Handler := fun f => .accept (getInt f 0) (getArgument f 1)

def sysConnect : Handler := fun f => .connect (getInt f 0) (getArgument f 1)

def sysSbrk : Handler := fun f => .sbrk (getArgument f 0)

def sysSignal : Handler := fun f => .signal (getInt f 0) (getArgument f 1)

def sysSigret : Handler := fun _ => .sigret

def sysKill : Handler := fun f => .kill (getInt f 0) (getInt f 1)

def sysPid : Handler := fun _ => .pid

def sysPs : Handler := fun f => .ps (getArgument f 0) (getInt f 1)

/-- The stores of `syscall_t::init`, in order. -/
def installed : List (Id × Handler) :=
  [(.print, sysPrint), (.fork, sysFork), (.exec, sysExec), (.mmap, sysMmap), (.exit, sysExit),
    (.wait, sysWait), (.sleep, sysSleep), (.open, sysOpen), (.close, sysClose),
    (.read, sysRead), (.write, sysWrite), (.lseek, sysLseek), (.link, sysLink),
    (.unlink, sysUnlink), (.mkdir, sysMkdir), (.mknod, sysMknod), (.dup, sysDup),
    (.stat, sysStat), (.chdir, sysChdir), (.pipe, sysPipe), (.ioctl, sysIoctl),
    (.sendto, sysSendTo), (.recvfrom, sysRecvFrom), (.socket, sysSocket), (.bind, sysBind),
    (.listen, sysListen), (.accept, sysAccept), (.connect, sysConnect), (.sbrk, sysSbrk),
    (.signal, sysSignal), (.sigret, sysSigret), (.kill, sysKill), (.pid, sysPid), (.ps, sysPs)]

/-- `s_system_call_table` after `init`; the array starts out null. -/
def systemCallTable : ℕ → Option Handler :=
  installed.foldl (fun table e => Function.update table e.1.number (some e.2)) fun _ => none

/-- What a trap comes to. -/
inductive Outcome where
  /-- The number is refused with a message and the call returns -1. -/
  | unknown
  /-- The kernel jumps to the null pointer. -/
  | null
  | handled (q : Request)
  deriving DecidableEq

def doSyscall (frame : Registers) : Outcome :=
  if maxSyscall ≤ frame.rax.toNat then .unknown
  else match systemCallTable frame.rax.toNat with
    | none => .null
    | some handler => .handled (handler frame)

/-! ## What the calls ask for -/

/-- The request a call stands for: the handler of that call, every C argument
in the parameter of the same meaning. -/
def meant : Call → Request
  | .colorPrint color str => .print color str
  | .fork => .fork
  | .exec path arg => .exec path arg
  | .mmap addr len prot flags => .mmap addr len (int prot) (int flags)
  | .exit val => .exit (some val)
  | .wait pid => .wait pid
  | .sleep sec => .sleep (sec * hz)
  | .open path mode => .open path mode
  | .close fd => .close fd
  | .read fd buf size => .read fd buf size
  | .write fd buf size => .write fd buf size
  | .lseek fd offset whence => .lseek fd offset whence
  | .mkdir path => .mkdir path
  | .link pathOld pathNew => .link pathOld pathNew
  | .unlink path => .unlink path
  | .mknod path major minor => .mknod path major minor
  | .dup fd => .dup fd
  | .chdir path => .chdir path
  | .fstat fd st => .stat fd st
  | .pipe fd => .pipe fd
  | .ioctl fd cmd arg => .ioctl fd cmd arg
  | .socket domain type protocol => .socket domain type protocol
  | .bind sockfd addr => .bind sockfd addr
  | .listen sockfd backlog => .listen sockfd backlog
  | .connect sockfd addr => .connect sockfd addr
  | .accept sockfd addr => .accept sockfd addr
  | .sendTo fd buf size addr => .sendTo fd buf (int size) addr
  | .recvFrom fd buf size addr => .recvFrom fd buf (int size) addr
  | .sbrk increment => .sbrk increment
  | .signal signum handler => .signal signum handler
  | .getpid => .pid
  | .alarm seconds => .alarm seconds
  | .listProcess buffer size => .ps buffer size
  | .kill pid sig => .kill pid sig

/-- The call arrives as it was meant, whatever the registers held before the
wrapper set its own. -/
def Call.Arrives (c : Call) : Prop :=
  ∀ r, doSyscall (enter c r) = .handled (meant c)

def Wrapper.Arrives (w : Wrapper) : Prop :=
  ∀ ret, ∀ c ∈ w.calls ret, c.Arrives

/-- The wrappers whose two sides were written in the same order. -/
def Call.Matched : Call → Prop
  | .lseek _ _ _ => False
  | .alarm _ => False
  | .exit _ => False
  | .sendTo _ _ size addr => addr = int size
  | .recvFrom _ _ size addr => addr = int size
  | _ => True

def Wrapper.Matched : Wrapper → Prop
  | .trap c => c.Matched
  | .stat _ _ => True

/-! ## The lookup -/

/-- The number of a call survives the trip through `rax`. -/
theorem toNat_number (i : Id) : (BitVec.ofNat 64 i.number).toNat = i.number := by
  have h := i.number_lt
  rw [BitVec.toNat_ofNat]
  exact Nat.mod_eq_of_lt (by simp only [maxSyscall] at h; omega)

/-- The table holds for every number what `init` stored for it last. -/
theorem systemCallTable_number (i : Id) :
    systemCallTable i.number = installed.lookup i := by
  cases i <;> rfl

theorem enter_rax (c : Call) (r : Registers) :
    (enter c r).rax = BitVec.ofNat 64 c.id.number := by
  cases c <;> rfl

/-- A wrapper's trap runs the handler stored under its number. -/
theorem doSyscall_enter (c : Call) (r : Registers) :
    doSyscall (enter c r) = (installed.lookup c.id).elim .null
      fun handler => .handled (handler (enter c r)) := by
  have hlt : ¬ maxSyscall ≤ c.id.number := Nat.not_le.mpr c.id.number_lt
  rw [doSyscall, enter_rax, toNat_number, if_neg hlt, systemCallTable_number]
  cases installed.lookup c.id <;> rfl

/-! ## Both sides compared -/

@[simp] theorem setWidth_int (x : Word) : (int x).setWidth 32 = x := by
  simp [int]

/-- The timer ticks computed in 64 bits and cut are those computed in 32. -/
theorem ticks_int (x : Word) : (int x * int hz).setWidth 32 = x * hz := by
  rw [BitVec.setWidth_mul _ _ (by omega), setWidth_int, setWidth_int]

theorem arrives_of_matched {c : Call} (h : c.Matched) : c.Arrives := by
  intro r
  rw [doSyscall_enter]
  cases c
  case lseek | alarm | exit => exact h.elim
  case sleep sec => exact congrArg (fun t => Outcome.handled (.sleep t)) (ticks_int sec)
  case sendTo fd buf size addr =>
    have ha : addr = int size := h
    rw [ha]
    exact congrArg (fun fd => Outcome.handled (.sendTo fd _ _ _)) (setWidth_int fd)
  case recvFrom fd buf size addr =>
    have ha : addr = int size := h
    rw [ha]
    exact congrArg (fun fd => Outcome.handled (.recvFrom fd _ _ _)) (setWidth_int fd)
  -- Calls whose parameters are all as wide as a register, or that have none.
  case fork | exec | mmap | mkdir | link | unlink | chdir | pipe | sbrk | getpid => rfl
  all_goals
    change Outcome.handled _ = _
    simp only [sysPrint, sysWait, sysOpen, sysClose, sysRead, sysWrite, sysMknod, sysDup, sysStat,
      sysIoctl, sysSocket, sysBind, sysListen, sysAccept, sysConnect, sysSignal, sysKill, sysPs,
      getInt, getArgument, enter, enter3, enter2, enter1, enter0, setWidth_int, meant]

/-- The registers a program may hold when it enters a wrapper. -/
def zeroed : Registers := ⟨0, 0, 0, 0, 0, 0, 0⟩

theorem matched_of_arrives {c : Call} (h : c.Arrives) : c.Matched := by
  have h0 := h zeroed
  rw [doSyscall_enter] at h0
  cases c
  case lseek fd offset whence =>
    -- The handler's `whence` is `rdx`, which the wrapper leaves as it was.
    have h1 := h { zeroed with rdx := int (whence + 1) }
    rw [doSyscall_enter] at h1
    have hw : (int (whence + 1)).setWidth 32 = whence := by
      injection h1 with h1
      injection h1
    rw [setWidth_int] at hw
    bv_omega
  case alarm seconds => cases h0
  case exit val =>
    injection h0 with h0
    injection h0 with h0
    cases h0
  case sendTo fd buf size addr =>
    injection h0 with h0
    injection h0 with _ _ _ ha
    exact ha.symm
  case recvFrom fd buf size addr =>
    injection h0 with h0
    injection h0 with _ _ _ ha
    exact ha.symm
  all_goals trivial

/-- A wrapper's call arrives as it was meant exactly when its two sides match. -/
theorem arrives_iff (c : Call) : c.Arrives ↔ c.Matched :=
  ⟨matched_of_arrives, arrives_of_matched⟩

/-- The library function and the kernel agree, for every register the function
may find, exactly for the wrappers that match: all of them but `lseek`,
`alarm` and `exit`, and `send_to` and `recv_from` only with an address that
happens to equal the size. -/
theorem wrappers_arrive (w : Wrapper) : w.Arrives ↔ w.Matched := by
  cases w with
  | trap c =>
    constructor
    · intro h
      exact matched_of_arrives (h 0 c (List.mem_singleton_self c))
    · intro h ret c' hc
      rw [List.mem_singleton.mp hc]
      exact arrives_of_matched h
  | stat path st =>
    refine ⟨fun _ => trivial, fun _ fd c hc => arrives_of_matched ?_⟩
    simp only [Wrapper.calls] at hc
    split at hc
    · rw [List.mem_singleton.mp hc]
      trivial
    · simp only [List.mem_cons, List.not_mem_nil, or_false] at hc
      rcases hc with rfl | rfl | rfl <;> trivial

/-- `lseek(3, 0, 2)` with `rdx` zero asks for descriptor 0, offset 2 and whence
0. -/
theorem seek_misread :
    doSyscall (enter (.lseek 3 0 2) zeroed) = .handled (.lseek 0 2 0) ∧
      ¬ (Wrapper.trap (.lseek 3 0 2)).Arrives := by
  refine ⟨rfl, fun h => ?_⟩
  have hc := h 0 _ (List.mem_singleton_self _) zeroed
  exact absurd hc (by decide)

end BabyOS.SystemCalls

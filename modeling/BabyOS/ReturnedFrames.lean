import BabyOS.Signals

/-!
# The frames that the kernel returns with

A process traps with the frame of its user code, the kernel changes the frame or replaces
it, and returns with it. Where its segments, flags and addresses come from.
-/

set_option autoImplicit false

namespace BabyOS.ReturnedFrames
open BabyOS.ByteWords BabyOS.TrapFrames BabyOS.Signals

def kernelBase : BitVec 64 := 0xffff800000000000
def userStackTop : BitVec 64 := 0x0000800000000000

/-- `SEG_UCODE << 3 | 0x3` and `SEG_UDATA << 3 | 0x3`. -/
def userCode : BitVec 64 := 0x1b
def userData : BitVec 64 := 0x23

/-- The bits of `%rflags` for interrupts and for the level of I/O. -/
def flagIf : BitVec 64 := 0x200
def flagIopl : BitVec 64 := 0x3000

/-! ## The kernel -/

/-- The stack pointer after `init_user_stack`; `lens` are the lengths of the arguments, if there are any. -/
def userStack : Option (List ℕ) → BitVec 64
  | none => userStackTop-8
  | some lens =>
    let rsp := lens.foldl (fun rsp n => rsp-BitVec.ofNat 64 (n+1)) (userStackTop-8)
    let rsp := rsp-rsp%8
    rsp-BitVec.ofNat 64 (lens.length*8)-8

/-- `exec` of a file with this entry, where it succeeds; `mem` is the memory of the new program. -/
def exec (entry : BitVec 64) (lens : Option (List ℕ)) (mem : Mem) (c : Point) : Point :=
  let c := ((({ c with mem } : Point).set .rip entry).set .cs userCode).set .ss userData
  let c := (c.set .rflags 0x200).set .rsp (userStack lens)
  match lens with
  | none => (c.set .rdi 0).set .rsi 0
  | some lens => (c.set .rdi (BitVec.ofNat 64 lens.length)).set .rsi (userStack (some lens)+8)

/-- The frame of a new process. -/
def copyContext (c : Point) : Point := c.set .rax 0

/-- What a process does in the kernel, before it returns. -/
inductive Action
  | result (v : BitVec 64)
  | exec (entry : BitVec 64) (lens : Option (List ℕ)) (mem : Mem)
  | sigreturn
  | signal (handler : BitVec 64) (sig : BitVec 32)

def serve : Action → Point → Point
  | .result v, c => c.set .rax v
  | .exec entry lens mem, c => doSyscall (fun c => (0, exec entry lens mem c)) c
  | .sigreturn, c => doSyscall doSigreturn c
  | .signal handler sig, c => deliver handler sig c

/-! ## Processes -/

/-- A process that has not called `exec` yet runs in the kernel. -/
inductive Mode
  | none
  | fresh (c : Point)
  | user (c : Point)
  | kernel (c : Point)

structure State where
  mode : ℕ → Mode
  returned : List TrapFrame

def State.setMode (s : State) (p : ℕ) (m : Mode) : State := { s with mode := Function.update s.mode p m }

/-- The process goes on in user mode. -/
def State.giveBack (s : State) (p : ℕ) (c : Point) : State :=
  ⟨Function.update s.mode p (.user c), c.frame :: s.returned⟩

inductive Event
  | trap (p : ℕ) (c : Point)
  | serve (p : ℕ) (a : Action)
  | first (p : ℕ) (entry : BitVec 64) (mem : Mem)
  | fork (p q : ℕ)
  | ret (p : ℕ)
  | exit (p : ℕ)

/-- User code keeps its segments; it cannot change the level of I/O, nor the flag for interrupts
unless the level lets it. -/
structure UserRuns (c c' : Point) : Prop where
  cs : c'.frame .cs = c.frame .cs
  ss : c'.frame .ss = c.frame .ss
  iopl : c'.frame .rflags &&& flagIopl = c.frame .rflags &&& flagIopl
  enabled : c.frame .rflags &&& flagIopl ≠ flagIopl →
    c'.frame .rflags &&& flagIf = c.frame .rflags &&& flagIf

inductive Step : State → Event → State → Prop
  | trap {s : State} {p : ℕ} {c c' : Point} : s.mode p = .user c → UserRuns c c' →
      Step s (.trap p c') (s.setMode p (.kernel c'))
  | serve {s : State} {p : ℕ} {c : Point} (a : Action) : s.mode p = .kernel c →
      Step s (.serve p a) (s.setMode p (.kernel (serve a c)))
  | first {s : State} {p : ℕ} {c : Point} (entry : BitVec 64) (mem : Mem) : s.mode p = .fresh c →
      Step s (.first p entry mem) (s.setMode p (.kernel (serve (.exec entry none mem) c)))
  | fork {s : State} {p q : ℕ} {c : Point} : s.mode p = .kernel c → s.mode q = .none →
      Step s (.fork p q) (s.setMode q (.kernel (copyContext c)))
  | ret {s : State} {p : ℕ} {c : Point} : s.mode p = .kernel c →
      Step s (.ret p) (s.giveBack p c)
  | exit {s : State} {p : ℕ} : Step s (.exit p) (s.setMode p .none)

/-- The process that is to become `/bin/init`. -/
def boot (c : Point) : State := ⟨fun p => if p = 1 then .fresh c else .none, []⟩

inductive Run (allowed : State → Event → Prop) : State → Prop
  | boot (c : Point) : Run allowed (boot c)
  | step {s s' : State} {e : Event} : Run allowed s → allowed s e → Step s e s' → Run allowed s'

/-! ## Frames of user mode -/

structure UserFrame (f : TrapFrame) : Prop where
  cs : f .cs = userCode
  ss : f .ss = userData
  enabled : f .rflags &&& flagIf = flagIf
  iopl : f .rflags &&& flagIopl = 0
  rip : f .rip < kernelBase
  rsp : f .rsp < kernelBase

/-- The arguments of `exec` take this much of the stack. -/
def argBytes : Option (List ℕ) → ℕ
  | none => 0
  | some lens => (lens.map (· + 1)).sum+8*lens.length+16

/-- What may be done to a frame of user mode. -/
def Allows (c : Point) : Action → Prop
  | .result _ => True
  | .exec entry lens _ => entry < kernelBase ∧ argBytes lens+8 ≤ 2^47
  | .sigreturn => UserFrame (loadFrame c.mem (c.frame .rsp-8+8))
  | .signal handler _ => handler < kernelBase ∧ 192 ≤ c.frame .rsp

/-- User code traps with its own addresses below the kernel, and what the kernel takes from it or
from a file is in order. -/
def Allowed (s : State) : Event → Prop
  | .trap _ c => c.frame .rip < kernelBase ∧ c.frame .rsp < kernelBase
  | .serve p a => ∀ c, s.mode p = .kernel c → Allows c a
  | .first _ entry _ => entry < kernelBase
  | _ => True

/-- The frames in the kernel, in user mode, and returned with. -/
structure Framed (s : State) : Prop where
  kernel : ∀ p c, s.mode p = .kernel c → UserFrame c.frame
  user : ∀ p c, s.mode p = .user c → UserFrame c.frame
  returned : ∀ f ∈ s.returned, UserFrame f

section Frames

variable {c c' : Point} {s s' : State} {e : Event} {a : Action} {p : ℕ} {v : BitVec 64}

theorem user_rax {f : TrapFrame} (h : UserFrame f) (v : BitVec 64) : UserFrame (Function.update f .rax v) := by
  have hother : ∀ r, r ≠ .rax → Function.update f .rax v r = f r := fun r hr => Function.update_of_ne hr _ _
  refine ⟨?_, ?_, ?_, ?_, ?_, ?_⟩
  · rw [hother _ (by decide), h.cs]
  · rw [hother _ (by decide), h.ss]
  · rw [hother _ (by decide), h.enabled]
  · rw [hother _ (by decide), h.iopl]
  · rw [hother _ (by decide)]
    exact h.rip
  · rw [hother _ (by decide)]
    exact h.rsp

theorem toNat_strings {lens : List ℕ} {rsp : BitVec 64} (h : (lens.map (· + 1)).sum ≤ rsp.toNat) :
    (lens.foldl (fun rsp n => rsp-BitVec.ofNat 64 (n+1)) rsp).toNat =
      rsp.toNat-(lens.map (· + 1)).sum := by
  induction lens generalizing rsp with
  | nil => rfl
  | cons n lens ih =>
    rw [List.map_cons, List.sum_cons] at h
    have hlt := rsp.isLt
    have hsub : (rsp-BitVec.ofNat 64 (n+1)).toNat = rsp.toNat-(n+1) := by
      rw [BitVec.toNat_sub, BitVec.toNat_ofNat]
      omega
    rw [List.foldl_cons, ih (by omega), hsub, List.map_cons, List.sum_cons]
    omega

theorem userStack_lt {lens : Option (List ℕ)} (h : argBytes lens+8 ≤ 2^47) : userStack lens < kernelBase := by
  have hbase : kernelBase.toNat = 2^64-2^47 := rfl
  have htop : (userStackTop-8).toNat = 2^47-8 := rfl
  change (userStack lens).toNat < kernelBase.toNat
  cases lens with
  | none =>
    rw [userStack, htop, hbase]
    decide
  | some lens =>
    rw [argBytes] at h
    have hroom : (lens.map (· + 1)).sum ≤ (userStackTop-8).toNat := by omega
    have hstrings := toNat_strings hroom
    rw [userStack]
    generalize lens.foldl (fun rsp n => rsp-BitVec.ofNat 64 (n+1)) (userStackTop-8) = rsp at hstrings ⊢
    have hmod : (rsp%8).toNat = rsp.toNat%8 := rfl
    have hround : (rsp-rsp%8).toNat = rsp.toNat-rsp.toNat%8 := by
      have hlt := rsp.isLt
      have hle := Nat.mod_le rsp.toNat 8
      rw [BitVec.toNat_sub, hmod]
      omega
    have hvec : (BitVec.ofNat 64 (lens.length*8)).toNat = lens.length*8 := by
      rw [BitVec.toNat_ofNat]
      omega
    generalize rsp-rsp%8 = rsp' at hround ⊢
    bv_omega

/-- The frame that `exec` makes. -/
theorem user_exec {entry : BitVec 64} {lens : Option (List ℕ)} {mem : Mem} (hentry : entry < kernelBase)
    (hargs : argBytes lens+8 ≤ 2^47) : UserFrame (exec entry lens mem c).frame := by
  have hrsp := userStack_lt hargs
  have hflags : (exec entry lens mem c).frame .rflags = 0x200 := by cases lens <;> rfl
  refine ⟨?_, ?_, by rw [hflags]; decide, by rw [hflags]; decide, ?_, ?_⟩
  · cases lens <;> rfl
  · cases lens <;> rfl
  · cases lens <;> exact hentry
  · cases lens <;> exact hrsp

theorem user_serve (hc : UserFrame c.frame) (ha : Allows c a) : UserFrame (serve a c).frame := by
  cases a with
  | result v => exact user_rax hc v
  | exec entry lens mem =>
    obtain ⟨hentry, hargs⟩ := ha
    exact user_rax (user_exec hentry hargs) 0
  | sigreturn => exact user_rax ha 0
  | signal handler sig =>
    obtain ⟨hhandler, hrsp⟩ := ha
    have hroom : 192 ≤ (c.frame .rsp).toNat := hrsp
    obtain ⟨hend, -⟩ := sigframe_below hroom
    have hlt : (c.frame .rsp).toNat < kernelBase.toNat := hc.rsp
    refine ⟨hc.cs, hc.ss, hc.enabled, hc.iopl, hhandler, ?_⟩
    change (sigframe (c.frame .rsp)).toNat < kernelBase.toNat
    omega

theorem mode_same (s : State) (p : ℕ) (m : Mode) : (s.setMode p m).mode p = m := Function.update_self ..

theorem mode_other {q : ℕ} (h : q ≠ p) (s : State) (m : Mode) : (s.setMode p m).mode q = s.mode q :=
  Function.update_of_ne h ..

theorem framed_set {m : Mode} (h : Framed s) (hkernel : ∀ c, m = .kernel c → UserFrame c.frame)
    (huser : ∀ c, m = .user c → UserFrame c.frame) : Framed (s.setMode p m) := by
  refine ⟨fun q c hq => ?_, fun q c hq => ?_, h.returned⟩
  · by_cases hqp : q = p
    · subst hqp
      rw [mode_same] at hq
      exact hkernel c hq
    · rw [mode_other hqp] at hq
      exact h.kernel q c hq
  · by_cases hqp : q = p
    · subst hqp
      rw [mode_same] at hq
      exact huser c hq
    · rw [mode_other hqp] at hq
      exact h.user q c hq

theorem framed_kernel (h : Framed s) (hc : UserFrame c.frame) : Framed (s.setMode p (.kernel c)) :=
  framed_set h (fun c' hc' => by cases hc'; exact hc) (fun c' hc' => by cases hc')

theorem framed_step (h : Framed s) (ha : Allowed s e) (hstep : Step s e s') : Framed s' := by
  cases hstep with
  | @trap p c c' hmode hruns =>
    have hc := h.user p c hmode
    obtain ⟨hrip, hrsp⟩ := ha
    have hiopl : c.frame .rflags &&& flagIopl ≠ flagIopl := by
      rw [hc.iopl]
      decide
    exact framed_kernel h ⟨hruns.cs.trans hc.cs, hruns.ss.trans hc.ss,
      (hruns.enabled hiopl).trans hc.enabled, hruns.iopl.trans hc.iopl, hrip, hrsp⟩
  | serve a hmode => exact framed_kernel h (user_serve (h.kernel _ _ hmode) (ha _ hmode))
  | @first p c entry mem hmode =>
    have hexec := @user_exec c entry none mem ha (by decide)
    exact framed_kernel h (user_rax hexec 0)
  | fork hmode hfree => exact framed_kernel h (user_rax (h.kernel _ _ hmode) 0)
  | @ret p c hmode =>
    have hc := h.kernel p c hmode
    have hset := framed_set (p := p) (m := .user c) h (fun c' hc' => by cases hc')
      (fun c' hc' => by cases hc'; exact hc)
    refine ⟨hset.kernel, hset.user, fun f hf => ?_⟩
    obtain rfl | hf := List.mem_cons.mp hf
    · exact hc
    · exact h.returned f hf
  | exit => exact framed_set h (fun c' hc' => by cases hc') (fun c' hc' => by cases hc')

/-- Every frame that the kernel returns with is one of user mode. -/
theorem frames_run (h : Run Allowed s) : ∀ f ∈ s.returned, UserFrame f := by
  suffices hframed : Framed s from hframed.returned
  induction h with
  | boot c =>
    refine ⟨fun p c' hp => ?_, fun p c' hp => ?_, fun f hf => by cases hf⟩
    · rw [boot] at hp
      dsimp only at hp
      split at hp <;> cases hp
    · rw [boot] at hp
      dsimp only at hp
      split at hp <;> cases hp
  | step _ ha hstep ih => exact framed_step ih ha hstep

end Frames

/-! ## A frame of zeros -/

def kernelPoint : Point := ⟨fun _ => 0, fun _ => 0⟩

/-- The init program, about to return to user mode. -/
def started : Point := serve (.exec 0x400000 none fun _ => 0) kernelPoint

theorem started_run {allowed : State → Event → Prop}
    (hfirst : ∀ s mem, allowed s (.first 1 0x400000 mem)) (hret : ∀ s, allowed s (.ret 1)) :
    ∃ s, Run allowed s ∧ s.mode 1 = .user started ∧ s.returned = [started.frame] := by
  have hboot : (boot kernelPoint).mode 1 = .fresh kernelPoint := rfl
  have hexec := (Run.boot kernelPoint).step (hfirst _ _) (Step.first 0x400000 (fun _ => 0) hboot)
  have hdone := hexec.step (hret _) (Step.ret (mode_same _ 1 _))
  exact ⟨_, hdone, rfl, rfl⟩

theorem frames_run_started : ∃ s, Run Allowed s ∧ s.returned ≠ [] ∧ ∀ f ∈ s.returned, UserFrame f := by
  obtain ⟨s, hrun, -, hreturned⟩ := @started_run Allowed
    (fun _ _ => by change (0x400000 : BitVec 64) < kernelBase; decide) (fun _ => trivial)
  exact ⟨s, hrun, by rw [hreturned]; exact List.cons_ne_nil _ _, frames_run hrun⟩

theorem loadFrame_zero (a : BitVec 64) (r : Reg) : loadFrame (fun _ => 0) a r = 0 := rfl

/-- The program calls `SIGRET` by itself, on a stack of zeros. -/
theorem zero_frame : ∃ s, Run (fun _ _ => True) s ∧ ∃ f ∈ s.returned, f .cs &&& 3 ≠ 3 := by
  obtain ⟨s, hrun, hmode, -⟩ := @started_run (fun _ _ => True) (fun _ _ => trivial) (fun _ => trivial)
  have htrap := hrun.step trivial (Step.trap hmode ⟨rfl, rfl, rfl, fun _ => rfl⟩)
  have hserve := htrap.step trivial (Step.serve .sigreturn (mode_same _ 1 _))
  have hret := hserve.step trivial (Step.ret (mode_same _ 1 _))
  refine ⟨_, hret, _, List.mem_cons_self .., ?_⟩
  have hcs : (serve .sigreturn started).frame .cs = 0 := loadFrame_zero _ _
  rw [hcs]
  decide

end BabyOS.ReturnedFrames

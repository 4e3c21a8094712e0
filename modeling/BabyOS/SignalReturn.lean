import BabyOS.Signals

/-!
# The return from a signal

A handler runs below its frame, with other signals in between, returns into the code in
the frame, and comes back by a system call. What the interrupted process has then.
-/

set_option autoImplicit false

namespace BabyOS.SignalReturn
open BabyOS.ByteWords BabyOS.TrapFrames BabyOS.Signals

def userStackTop : BitVec 64 := 0x0000800000000000

/-! ## Instructions -/

/-- The `ret` of the handler. -/
def ret (c : Point) : Point :=
  (c.set .rip (loadWord c.mem (c.frame .rsp))).set .rsp (c.frame .rsp+8)

/-- `movl` of a constant to `%eax`, where there is one. -/
def movl (c : Point) : Option Point :=
  if window c.mem (c.frame .rip) 0 = 0xb8 then
    some ((c.set .rax (BitVec.ofNat 64 (word (window c.mem (c.frame .rip)) 1 4))).set .rip
      (c.frame .rip+5))
  else none

/-- The trap of `int $0x80`. -/
def int80 (c : Point) : Option Point :=
  if window c.mem (c.frame .rip) 0 = 0xcd ∧ window c.mem (c.frame .rip) 1 = 0x80 then
    some (c.set .rip (c.frame .rip+2))
  else none

/-! ## Runs -/

/-- A signal from its delivery to the point where the process goes on, the handler of the
frame at `s`, and the return code after it. -/
inductive Phase
  | caught
  | body (s : BitVec 64)
  | code

/-- The handler changes the registers, and the memory below its frame; it may be interrupted by
other signals, with the stack pointer not above the frame. -/
inductive Runs : Phase → Point → Point → Prop
  | start {ph : Phase} {c : Point} : ph ≠ .caught → Runs ph c c
  | user {s : BitVec 64} {c r r' : Point} : Runs (.body s) c r → (∀ x, s ≤ x → r'.mem x = r.mem x) →
      Runs (.body s) c r'
  | inBody {s : BitVec 64} {c r r' : Point} : Runs (.body s) c r → r.frame .rsp ≤ s → Runs .caught r r' →
      Runs (.body s) c r'
  | movl {c r r' : Point} : Runs .code c r → movl r = some r' → Runs .code c r'
  | inCode {c r r' : Point} : Runs .code c r → Runs .caught r r' → Runs .code c r'
  | caught {c r q q' : Point} {handler : BitVec 64} {sig : BitVec 32} : handler ≠ sigDfl → handler ≠ sigIgn →
      192 ≤ c.frame .rsp → c.frame .rsp ≤ userStackTop →
      Runs (.body (sigframe (c.frame .rsp))) (deliver handler sig c) r →
      r.frame .rsp = sigframe (c.frame .rsp) → Runs .code (ret r) q → int80 q = some q' →
      q'.frame .rax = sigret → Runs .caught c (doSyscall doSigreturn q')

/-- What a phase leaves as it was. -/
def Keeps : Phase → Point → Point → Prop
  | .caught, c, c' => c'.frame = Function.update c.frame .rax 0 ∧ ∀ x, c.frame .rsp ≤ x → c'.mem x = c.mem x
  | .body s, c, c' => ∀ x, s ≤ x → c'.mem x = c.mem x
  | .code, c, c' => c'.frame .rsp = c.frame .rsp ∧ ∀ x, c.frame .rsp ≤ x → c'.mem x = c.mem x

section Steps

variable {c r q q' : Point} {handler : BitVec 64} {sig : BitVec 32}

theorem ret_rsp (c : Point) : (ret c).frame .rsp = c.frame .rsp+8 := set_same ..

theorem ret_rip (c : Point) : (ret c).frame .rip = loadWord c.mem (c.frame .rsp) := by
  rw [ret, set_other (by decide), set_same]

theorem movl_keeps (h : movl r = some q) : q.frame .rsp = r.frame .rsp ∧ q.mem = r.mem := by
  rw [movl] at h
  split at h
  · obtain rfl := Option.some.inj h
    exact ⟨rfl, rfl⟩
  · cases h

theorem int80_keeps (h : int80 q = some q') : q'.frame .rsp = q.frame .rsp ∧ q'.mem = q.mem := by
  rw [int80] at h
  split at h
  · obtain rfl := Option.some.inj h
    exact ⟨rfl, rfl⟩
  · cases h

/-- Nothing is stored above the stack pointer. -/
theorem deliver_above (hlow : 192 ≤ c.frame .rsp) {x : BitVec 64} (hx : c.frame .rsp ≤ x) :
    (deliver handler sig c).mem x = c.mem x := by
  have hroom : 192 ≤ (c.frame .rsp).toNat := hlow
  obtain ⟨hend, -⟩ := sigframe_below hroom
  have hx : (c.frame .rsp).toNat ≤ x.toNat := hx
  apply putSigframe_other
  bv_omega

/-- The frame that is taken back is the one that was put on the stack. -/
theorem sigreturn_keeps (hlow : 192 ≤ c.frame .rsp) (hhigh : c.frame .rsp ≤ userStackTop)
    (hbody : Keeps (.body (sigframe (c.frame .rsp))) (deliver handler sig c) r)
    (hret : r.frame .rsp = sigframe (c.frame .rsp)) (hcode : Keeps .code (ret r) q)
    (hint : int80 q = some q') : Keeps .caught c (doSyscall doSigreturn q') := by
  have hroom : 192 ≤ (c.frame .rsp).toNat := hlow
  obtain ⟨hend, -⟩ := sigframe_below hroom
  obtain ⟨hrsp, hmem⟩ := hcode
  obtain ⟨hrsp', hmem'⟩ := int80_keeps hint
  have hstack : (ret r).frame .rsp = sigframe (c.frame .rsp)+8 := by rw [ret_rsp, hret]
  -- neither the handler nor the return code has written the saved frame
  have hsame : ∀ x, sigframe (c.frame .rsp)+8 ≤ x → q'.mem x = (deliver handler sig c).mem x := by
    intro x hx
    have hs : sigframe (c.frame .rsp) ≤ x := by bv_omega
    rw [hmem', hmem x (by rwa [hstack])]
    exact hbody x hs
  have hframe : loadFrame q'.mem (q'.frame .rsp-8+8) = c.frame := by
    rw [BitVec.sub_add_cancel, hrsp', hrsp, hstack]
    refine (loadFrame_congr (fun j hj => ?_)).trans (putSigframe_frame (sigframe (c.frame .rsp)) c.frame c.mem)
    apply hsame
    rw [frameSize] at hj
    have htop : userStackTop.toNat = 2^47 := rfl
    have hhigh : (c.frame .rsp).toNat ≤ userStackTop.toNat := hhigh
    bv_omega
  refine ⟨?_, fun x hx => ?_⟩
  · rw [doSyscall, doSigreturn, hframe]
    rfl
  · have hx' : sigframe (c.frame .rsp)+8 ≤ x := by
      have hx : (c.frame .rsp).toNat ≤ x.toNat := hx
      bv_omega
    exact (hsame x hx').trans (deliver_above hlow hx)

end Steps

/-- What every run keeps, with the signals in it nested to any depth. -/
theorem runs_keep {ph : Phase} {c c' : Point} (h : Runs ph c c') : Keeps ph c c' := by
  induction h with
  | @start ph c hph =>
    cases ph with
    | caught => exact absurd rfl hph
    | body s => exact fun _ _ => rfl
    | code => exact ⟨rfl, fun _ _ => rfl⟩
  | user _ hstep ih => exact fun x hx => (hstep x hx).trans (ih x hx)
  | inBody _ hrsp _ ih hsig => exact fun x hx => (hsig.2 x (BitVec.le_trans hrsp hx)).trans (ih x hx)
  | movl _ hstep ih =>
    obtain ⟨hrsp, hmem⟩ := movl_keeps hstep
    exact ⟨hrsp.trans ih.1, fun x hx => by rw [hmem, ih.2 x hx]⟩
  | @inCode c r r' _ _ ih hsig =>
    have hrsp : r'.frame .rsp = r.frame .rsp := by
      rw [hsig.1]
      exact Function.update_of_ne (by decide) _ _
    refine ⟨hrsp.trans ih.1, fun x hx => ?_⟩
    rw [hsig.2 x (by rwa [ih.1]), ih.2 x hx]
  | caught _ _ hlow hhigh _ hret _ hint _ hbody hcode => exact sigreturn_keeps hlow hhigh hbody hret hcode hint

/-- A handler that comes to its end gets back to the process through the return code. -/
theorem handler_returns {c r : Point} {handler : BitVec 64} {sig : BitVec 32} (hdfl : handler ≠ sigDfl)
    (hign : handler ≠ sigIgn) (hlow : 192 ≤ c.frame .rsp) (hhigh : c.frame .rsp ≤ userStackTop)
    (hbody : Runs (.body (sigframe (c.frame .rsp))) (deliver handler sig c) r)
    (hret : r.frame .rsp = sigframe (c.frame .rsp)) : ∃ c', Runs .caught c c' := by
  have hroom : 192 ≤ (c.frame .rsp).toNat := hlow
  obtain ⟨hend, -⟩ := sigframe_below hroom
  have hkeep := runs_keep hbody
  obtain ⟨s, hs⟩ : ∃ s, sigframe (c.frame .rsp) = s := ⟨_, rfl⟩
  rw [hs] at hend hkeep hret
  have hwindow : ∀ j < 192, window r.mem s j = window (putSigframe s c.frame c.mem) s j := by
    intro j hj
    have hmem : (deliver handler sig c).mem = putSigframe s c.frame c.mem := by
      rw [deliver, hs]
      rfl
    rw [← hmem]
    apply hkeep
    have htop : userStackTop.toNat = 2^47 := rfl
    have hhigh : (c.frame .rsp).toNat ≤ userStackTop.toNat := hhigh
    bv_omega
  obtain ⟨hmov, himm, hint, hvec⟩ := putSigframe_code s c.frame c.mem
  have hrip : (ret r).frame .rip = s+184 := by
    rw [ret_rip, hret, loadWord_congr (fun j hj => hwindow j (by omega)), putSigframe_return]
  have hcode : ∀ j, window (ret r).mem (s+184) j = window r.mem s (184+j) := fun j => window_add r.mem s 184 j
  -- the code runs with nothing in between
  have hword : word (window (ret r).mem (s+184)) 1 4 = sigret.toNat := by
    rw [word_shift hcode 1 4, ← himm]
    exact word_congr (fun j _ hj => hwindow j (by omega))
  have hmovl : ∃ q, movl (ret r) = some q ∧ q.frame .rip = s+189 ∧ q.frame .rax = sigret ∧ q.mem = r.mem := by
    rw [movl, hrip, if_pos (by rw [hcode, hwindow _ (by decide)]; exact hmov), hword]
    refine ⟨_, rfl, ?_, ?_, rfl⟩
    · rw [set_same, BitVec.add_assoc]
      rfl
    · rw [set_other (by decide), set_same]
      rfl
  obtain ⟨q, hq, hqrip, hqrax, hqmem⟩ := hmovl
  have hnext : ∀ j, window q.mem (s+189) j = window r.mem s (189+j) := by
    rw [hqmem]
    exact fun j => window_add r.mem s 189 j
  have hint80 : ∃ q', int80 q = some q' ∧ q'.frame .rax = sigret := by
    rw [int80, hqrip, if_pos ⟨by rw [hnext, hwindow _ (by decide)]; exact hint,
      by rw [hnext, hwindow _ (by decide)]; exact hvec⟩]
    exact ⟨_, rfl, by rw [set_other (by decide), hqrax]⟩
  obtain ⟨q', hq', hrax⟩ := hint80
  refine ⟨_, Runs.caught hdfl hign hlow hhigh hbody (by rw [hret, hs])
    (Runs.movl (Runs.start (by rintro ⟨⟩)) hq) hq' hrax⟩

/-- A signal that was caught gives the process its context back just when `%rax` was 0: the result of
the system call that takes the frame back is put into it. -/
theorem transparent_iff {c c' : Point} (h : Runs .caught c c') :
    (c'.frame = c.frame ∧ ∀ x, c.frame .rsp ≤ x → c'.mem x = c.mem x) ↔ c.frame .rax = 0 := by
  obtain ⟨hframe, hmem⟩ := runs_keep h
  constructor
  · rintro ⟨hsame, -⟩
    rw [← hsame, hframe, Function.update_self]
  · intro hzero
    refine ⟨?_, hmem⟩
    rw [hframe, ← hzero, Function.update_eq_self]

/-! ## A handler that returns at once -/

/-- A process in the middle of its stack, with a value in `%rax`. -/
def interrupted (rax : BitVec 64) : Point where
  frame := fun r => if r = .rax then rax else if r = .rsp then 0x10000 else 0
  mem := fun _ => 0

theorem interrupted_returns (rax : BitVec 64) : ∃ c', Runs .caught (interrupted rax) c' := by
  have hrsp : (interrupted rax).frame .rsp = 0x10000 := rfl
  refine @handler_returns (interrupted rax) (deliver 0x1000 10 (interrupted rax)) 0x1000 10
    (by decide) (by decide) ?_ ?_ (Runs.start (by rintro ⟨⟩)) ?_
  · rw [hrsp]
    decide
  · rw [hrsp]
    decide
  · rw [deliver, set_same]

theorem transparent_zero : ∃ c', Runs .caught (interrupted 0) c' ∧ c'.frame = (interrupted 0).frame ∧
    ∀ x, (interrupted 0).frame .rsp ≤ x → c'.mem x = (interrupted 0).mem x := by
  obtain ⟨c', h⟩ := interrupted_returns 0
  exact ⟨c', h, (transparent_iff h).mpr rfl⟩

/-- The result of a system call is lost. -/
theorem result_lost : ∃ c', Runs .caught (interrupted 5) c' ∧ c'.frame ≠ (interrupted 5).frame := by
  obtain ⟨c', h⟩ := interrupted_returns 5
  refine ⟨c', h, fun hc => ?_⟩
  have hrax := congrFun (runs_keep h).1 .rax
  rw [Function.update_self, hc] at hrax
  exact absurd hrax (by decide)

end BabyOS.SignalReturn

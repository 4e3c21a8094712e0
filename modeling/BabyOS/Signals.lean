import BabyOS.TrapFrames

/-!
# Signals

The table of the handlers of a process, the frame that `handle_signal` puts on the user
stack, and the system call that takes it back.
-/

set_option autoImplicit false

namespace BabyOS.Signals
open BabyOS.ByteWords BabyOS.TrapFrames

def nsig : ℕ := 32
def sigcont : ℕ := 18
def sigchld : ℕ := 17
def sigwinch : ℕ := 28
def sigstop : ℕ := 19
def sigtstp : ℕ := 20
def sigttin : ℕ := 21
def sigttou : ℕ := 22

def sigDfl : BitVec 64 := 0
def sigIgn : BitVec 64 := 1

/-- The number of the system call. -/
def sigret : BitVec 64 := 30

/-- The frame of a process at a trap, and its memory. -/
structure Point where
  frame : TrapFrame
  mem : Mem

def Point.set (c : Point) (r : Reg) (v : BitVec 64) : Point :=
  { c with frame := Function.update c.frame r v }

@[simp] theorem set_mem (c : Point) (r : Reg) (v : BitVec 64) : (c.set r v).mem = c.mem := rfl

@[simp] theorem set_same (c : Point) (r : Reg) (v : BitVec 64) : (c.set r v).frame r = v :=
  Function.update_self ..

theorem set_other {r r' : Reg} (h : r' ≠ r) (c : Point) (v : BitVec 64) :
    (c.set r v).frame r' = c.frame r' := Function.update_of_ne h ..

/-! ## Delivery -/

/-- `sizeof(sigframe_t)`: the return address, the frame and the return code. -/
def sigframeSize : ℕ := 192

/-- `m_ret_code` in `sigframe_t`. -/
def codeOffset : ℕ := 184

def sigframe (rsp : BitVec 64) : BitVec 64 := (rsp-192#64)&&&(-8#64)

/-- The stores of `handle_signal`, in its order. -/
def putSigframe (s : BitVec 64) (f : TrapFrame) (m : Mem) : Mem :=
  let m := storeFrame (s+8) f m
  let m := storeWord s 8 (s+184).toNat m
  let m := storeWord (s+184) 1 0xb8 m
  let m := storeWord (s+185) 4 sigret.toNat m
  storeWord (s+189) 2 0x80cd m

/-- The rest of `handle_signal` for a signal with a handler. -/
def deliver (handler : BitVec 64) (sig : BitVec 32) (c : Point) : Point :=
  let s := sigframe (c.frame .rsp)
  let c' := { c with mem := putSigframe s c.frame c.mem }
  ((c'.set .rip handler).set .rdi (sig.setWidth 64)).set .rsp s

/-- The result and what is left of the point. -/
def doSigreturn (c : Point) : BitVec 64 × Point :=
  (0, { c with frame := loadFrame c.mem (c.frame .rsp-8+8) })

/-- `do_syscall` puts the result of the call into the frame. -/
def doSyscall (call : Point → BitVec 64 × Point) (c : Point) : Point :=
  (call c).2.set .rax (call c).1

/-! ## The stack -/

section Stack

variable {rsp s x : BitVec 64} {f : TrapFrame} {m : Mem}

theorem and_mask (x : BitVec 64) : x&&&(-8#64) = (x >>> 3) <<< 3 := by
  apply BitVec.eq_of_getLsbD_eq
  intro i hi
  have hmask : ∀ i < 64, (-8#64).getLsbD i = decide (3 ≤ i) := by decide
  rw [BitVec.getLsbD_and, hmask i hi, BitVec.getLsbD_shiftLeft, BitVec.getLsbD_ushiftRight]
  by_cases hlt : i < 3
  · simp [hi, hlt]
  · have hadd : 3+(i-3) = i := by omega
    have hle : 3 ≤ i := by omega
    simp [hi, hlt, hadd, hle]

/-- The frame lies below the stack pointer. -/
theorem toNat_sigframe (h : 192 ≤ rsp.toNat) :
    (sigframe rsp).toNat = (rsp.toNat-192)/8*8 := by
  have hsub : (rsp-192#64).toNat = rsp.toNat-192 := by bv_omega
  have hlt := rsp.isLt
  rw [sigframe, and_mask, BitVec.toNat_shiftLeft, BitVec.toNat_ushiftRight, hsub, Nat.shiftRight_eq_div_pow,
    Nat.shiftLeft_eq, Nat.mod_eq_of_lt (by omega)]

theorem sigframe_below (h : 192 ≤ rsp.toNat) :
    (sigframe rsp).toNat+192 ≤ rsp.toNat ∧ rsp.toNat < (sigframe rsp).toNat+200 := by
  rw [toNat_sigframe h]
  omega

theorem storeWord_other {i w v : ℕ} (hi : i+w ≤ 192) (h : 192 ≤ (x-s).toNat) (m : Mem) :
    storeWord (s+BitVec.ofNat 64 i) w v m x = m x := by
  apply copyTo_other
  have hlt := s.isLt
  have hx := x.isLt
  rw [BitVec.toNat_sub] at h
  rw [BitVec.toNat_sub, BitVec.toNat_add, BitVec.toNat_ofNat]
  omega

/-- Only the frame is written. -/
theorem putSigframe_other (h : 192 ≤ (x-s).toNat) : putSigframe s f m x = m x := by
  have hframe : storeFrame (s+BitVec.ofNat 64 8) f m x = m x := by
    apply copyTo_other
    have hlt := s.isLt
    have hx := x.isLt
    rw [BitVec.toNat_sub] at h
    rw [BitVec.toNat_sub, BitVec.toNat_add, BitVec.toNat_ofNat, frameSize]
    omega
  rw [putSigframe]
  refine (storeWord_other (i := 189) (by decide) h _).trans ?_
  refine (storeWord_other (i := 185) (by decide) h _).trans ?_
  refine (storeWord_other (i := 184) (by decide) h _).trans ?_
  refine Eq.trans ?_ hframe
  have hret := storeWord_other (i := 0) (w := 8) (v := (s+184).toNat) (by decide) h (storeFrame (s+8) f m)
  rwa [BitVec.add_zero] at hret

theorem window_storeWord {i w v j : ℕ} (hi : i+w < 2^32) (hj : j < 2^32) (hout : j < i ∨ i+w ≤ j) (m : Mem) :
    window (storeWord (s+BitVec.ofNat 64 i) w v m) s j = window m s j := by
  rw [storeWord, window_copyTo_at hi hj, if_neg (by omega)]

/-- The bytes of the frame are not written after it. -/
theorem window_putSigframe {j : ℕ} (hj : j < frameSize) :
    window (putSigframe s f m) (s+8) j = window (storeFrame (s+8) f m) (s+8) j := by
  rw [frameSize] at hj
  have hshift : ∀ m : Mem, window m (s+8) j = window m s (8+j) := fun m => window_add m s 8 j
  rw [hshift, hshift, putSigframe]
  refine (window_storeWord (i := 189) (by decide) (by omega) (by omega) _).trans ?_
  refine (window_storeWord (i := 185) (by decide) (by omega) (by omega) _).trans ?_
  refine (window_storeWord (i := 184) (by decide) (by omega) (by omega) _).trans ?_
  have hret := window_storeWord (s := s) (i := 0) (w := 8) (v := (s+184).toNat) (j := 8+j)
    (by decide) (by omega) (by omega) (storeFrame (s+8) f m)
  rwa [BitVec.add_zero] at hret

/-- What the frame holds. -/
theorem putSigframe_frame (s : BitVec 64) (f : TrapFrame) (m : Mem) :
    loadFrame (putSigframe s f m) (s+8) = f := by
  rw [loadFrame_congr (fun j hj => window_putSigframe hj), load_store]

theorem putSigframe_return (s : BitVec 64) (f : TrapFrame) (m : Mem) :
    loadWord (putSigframe s f m) s = s+184 := by
  rw [← loadWord_storeWord s (s+184) (storeFrame (s+8) f m)]
  apply loadWord_congr
  intro j hj
  rw [putSigframe]
  refine (window_storeWord (i := 189) (by decide) (by omega) (by omega) _).trans ?_
  refine (window_storeWord (i := 185) (by decide) (by omega) (by omega) _).trans ?_
  exact window_storeWord (i := 184) (by decide) (by omega) (by omega) _

theorem word_shifted (b : Bytes) (i w : ℕ) : word b 0 w = word (fun k => b (k-i)) i w := by
  have hback : ∀ j, b j = (fun k => b (k-i)) (i+j) := by
    intro j
    dsimp only
    rw [Nat.add_sub_cancel_left]
  exact word_shift hback 0 w

/-- The return code: `movl $SIGRET, %eax` and `int $0x80`. -/
theorem putSigframe_code (s : BitVec 64) (f : TrapFrame) (m : Mem) :
    window (putSigframe s f m) s 184 = 0xb8 ∧ word (window (putSigframe s f m) s) 185 4 = sigret.toNat ∧
      window (putSigframe s f m) s 189 = 0xcd ∧ window (putSigframe s f m) s 190 = 0x80 := by
  rw [putSigframe]
  refine ⟨?_, ?_, ?_, ?_⟩
  · refine (window_storeWord (i := 189) (by decide) (by decide) (by decide) _).trans ?_
    refine (window_storeWord (i := 185) (by decide) (by decide) (by decide) _).trans ?_
    exact window_copyTo_at (i := 184) (by decide) (by decide)
  · refine (word_congr (fun j hj hlt => (window_storeWord (i := 189) (by decide) (by omega) (by omega) _))).trans ?_
    refine (word_congr (fun j hj hlt => (window_copyTo_at (i := 185) (by decide) (by omega)).trans
      (if_pos ⟨hj, hlt⟩))).trans ?_
    have hshift := word_shifted (putWord 0 4 sigret.toNat (fun _ => 0)) 185 4
    rw [word_putWord] at hshift
    exact hshift.symm
  · exact window_copyTo_at (i := 189) (by decide) (by decide)
  · exact window_copyTo_at (i := 189) (by decide) (by decide)

end Stack

end BabyOS.Signals

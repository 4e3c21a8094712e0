import BabyOS.AreaMachine
import BabyOS.ByteWords

/-!
# The arguments of a program

Space for the strings is taken from the top of the stack downwards, then the
return address, the pointers and the strings are stored upwards. The loops of
the string functions take fuel, since nothing ends them but a zero byte.
-/

set_option autoImplicit false

namespace BabyOS.ProgramArguments
open BabyOS.BuddyMachine BabyOS.AreaMachine BabyOS.ByteWords

def maxArgs : ℕ := 16

def maxArgLen : ℕ := 32

def userStackTop : ℕ := userVmSize

/-- The rows of `m_argv` lie one behind the other. -/
structure Argument where
  argc : ℕ
  argv : Bytes

structure Frame where
  rdi : ℕ
  rsi : ℕ
  rsp : ℕ
  deriving DecidableEq

/-- The start of the `i`-th row. -/
def row (i : ℕ) : ℕ := maxArgLen*i

def strlen (b : Bytes) : ℕ → ℕ → Option ℕ
  | 0, _ => none
  | fuel+1, s => if b s = 0 then some 0 else (strlen b fuel (s+1)).map (·+1)

/-- The source is a row of the kernel's copy of the arguments. -/
def strcpy (src : Bytes) : ℕ → ℕ → ℕ → Bytes → Option Bytes
  | 0, _, _, _ => none
  | fuel+1, dst, s, m =>
    if src s = 0 then some (Function.update m dst 0)
    else strcpy src fuel (dst+1) (s+1) (Function.update m dst (src s))

/-- Subtraction of 64-bit words. -/
def sub64 (a b : ℕ) : ℕ := (a+2^64-b%2^64)%2^64

/-- The loop that takes space for the strings. -/
def reserve (fuel : ℕ) (arg : Argument) (rsp : ℕ) : ℕ → Option ℕ
  | 0 => some rsp
  | n+1 => do
    let rsp ← reserve fuel arg rsp n
    let len ← strlen arg.argv fuel (row n)
    return sub64 rsp (len+1)

/-- The first rounds of the loop that stores pointers and strings: the memory and `p`. -/
def store (fuel : ℕ) (arg : Argument) (argv p : ℕ) (m : Bytes) : ℕ → Option (Bytes × ℕ)
  | 0 => some (m, p)
  | n+1 => do
    let (m, p) ← store fuel arg argv p m n
    let m := putWord (argv+8*n) 8 p m
    let m ← strcpy arg.argv fuel p (row n) m
    let len ← strlen m fuel p
    return (m, (p+(len+1))%2^64)

def initArguments (fuel : ℕ) (frame : Frame) (arg : Option Argument) (m : Bytes) :
    Option (Frame × Bytes) :=
  match arg with
  | none => some ({ frame with rdi := 0, rsi := 0 }, m)
  | some arg => do
    let rsp ← reserve fuel arg frame.rsp arg.argc
    let rsp := sub64 rsp (rsp%8)
    let rsp := sub64 rsp (8*arg.argc)
    let rsp := sub64 rsp 8
    let m := putWord rsp 8 0xffffffffffffffff m
    let top := (rsp+8)%2^64
    let (m, _) ← store fuel arg top ((top+8*arg.argc)%2^64) m arg.argc
    return ({ rdi := arg.argc, rsi := top, rsp := rsp }, m)

/-- The result is 0 or -1, with the areas, the registers and the memory after the call. -/
structure Started where
  ret : ℤ
  areas : Areas
  frame : Frame
  memory : Bytes

def initUserStack (fuel : ℕ) (areas : Areas) (frame : Frame) (arg : Option Argument) (m : Bytes) :
    Option Started :=
  match insertVma areas userStack with
  | none => some ⟨-1, areas, frame, m⟩
  | some areas => do
    let (frame, m) ← initArguments fuel { frame with rsp := sub64 userStackTop 8 } arg m
    return ⟨0, areas, frame, m⟩

/-! ## What should arrive -/

/-- A string of length `n` and its terminator. -/
def IsString (b : Bytes) (s n : ℕ) : Prop := b (s+n) = 0 ∧ ∀ k < n, b (s+k) ≠ 0

/-- At most `MAX_ARGS` strings, each ended within its row. -/
structure WellFormed (arg : Argument) : Prop where
  few : arg.argc ≤ maxArgs
  ended : ∀ i < arg.argc, ∃ k < maxArgLen, arg.argv (row i+k) = 0

/-- The new program finds its arguments: `ptr i` and `len i` are the place and the length
of the `i`-th string, and `m₀` is the memory before. -/
structure Arrived (arg : Argument) (m₀ : Bytes) (frame : Frame) (m : Bytes) (ptr len : ℕ → ℕ) : Prop where
  argc : frame.rdi = arg.argc
  argv : frame.rsi%8 = 0
  given : ∀ i < arg.argc, IsString arg.argv (row i) (len i)
  pointer : ∀ i < arg.argc, word m (frame.rsi+8*i) 8 = ptr i
  string : ∀ i < arg.argc, ∀ k ≤ len i, m (ptr i+k) = arg.argv (row i+k)
  retSlot : frame.rsp+8 ≤ frame.rsi ∧ word m frame.rsp 8 = 0xffffffffffffffff
  above : ∀ i < arg.argc, frame.rsi+8*arg.argc ≤ ptr i
  disjoint : ∀ i j, i < j → j < arg.argc → ptr i+len i < ptr j
  below : ∀ i < arg.argc, ptr i+len i < userStackTop
  array : frame.rsi+8*arg.argc ≤ userStackTop
  area : userStackTop-pageSize ≤ frame.rsp
  untouched : ∀ a < frame.rsp, m a = m₀ a

/-! ## Strings -/

section Strings

variable {b src m : Bytes} {s dst n fuel : ℕ}

theorem isString_next (h : IsString b s (n+1)) : IsString b (s+1) n := by
  refine ⟨?_, fun k hk => ?_⟩
  · rw [Nat.add_assoc, Nat.add_comm 1 n]
    exact h.1
  · rw [Nat.add_assoc, Nat.add_comm 1 k]
    exact h.2 (k+1) (Nat.succ_lt_succ hk)

theorem isString_start (h : IsString b s (n+1)) : b s ≠ 0 := h.2 0 (Nat.succ_pos n)

theorem strlen_eq (h : IsString b s n) (hfuel : n < fuel) : strlen b fuel s = some n := by
  induction n generalizing s fuel with
  | zero =>
    obtain ⟨fuel, rfl⟩ := Nat.exists_eq_succ_of_ne_zero (Nat.ne_of_gt hfuel)
    exact if_pos h.1
  | succ n ih =>
    obtain ⟨fuel, rfl⟩ := Nat.exists_eq_succ_of_ne_zero (Nat.ne_zero_of_lt hfuel)
    rw [strlen, if_neg (isString_start h), ih (isString_next h) (Nat.lt_of_succ_lt_succ hfuel)]
    rfl

/-- The memory after a copy of `n` bytes and a terminator. -/
def copied (src : Bytes) (s dst n : ℕ) (m : Bytes) : Bytes :=
  fun a => if dst ≤ a ∧ a ≤ dst+n then src (s+(a-dst)) else m a

theorem strcpy_eq (h : IsString src s n) (hfuel : n < fuel) :
    strcpy src fuel dst s m = some (copied src s dst n m) := by
  induction n generalizing s dst m fuel with
  | zero =>
    obtain ⟨fuel, rfl⟩ := Nat.exists_eq_succ_of_ne_zero (Nat.ne_of_gt hfuel)
    have hzero : src s = 0 := h.1
    rw [strcpy, if_pos hzero]
    congr 1
    funext a
    by_cases ha : a = dst
    · subst ha
      rw [Function.update_self, copied, if_pos ⟨le_rfl, Nat.le_add_right a 0⟩, Nat.sub_self, Nat.add_zero,
        hzero]
    · rw [Function.update_of_ne ha, copied, if_neg (by omega)]
  | succ n ih =>
    obtain ⟨fuel, rfl⟩ := Nat.exists_eq_succ_of_ne_zero (Nat.ne_zero_of_lt hfuel)
    rw [strcpy, if_neg (isString_start h), ih (isString_next h) (Nat.lt_of_succ_lt_succ hfuel)]
    congr 1
    funext a
    simp only [copied]
    by_cases hrest : dst+1 ≤ a ∧ a ≤ dst+1+n
    · have hplace : s+1+(a-(dst+1)) = s+(a-dst) := by omega
      rw [if_pos hrest, if_pos (by omega), hplace]
    · rw [if_neg hrest]
      by_cases ha : a = dst
      · subst ha
        rw [Function.update_self, if_pos (by omega), Nat.sub_self, Nat.add_zero]
      · rw [Function.update_of_ne ha, if_neg (by omega)]

theorem copied_inside {k : ℕ} (hk : k ≤ n) : copied src s dst n m (dst+k) = src (s+k) := by
  rw [copied, if_pos (by omega), Nat.add_sub_cancel_left]

theorem copied_outside {a : ℕ} (ha : a < dst ∨ dst+n < a) : copied src s dst n m a = m a :=
  if_neg (by omega)

theorem isString_copied (h : IsString src s n) : IsString (copied src s dst n m) dst n := by
  refine ⟨?_, fun k hk => ?_⟩
  · rw [copied_inside le_rfl]
    exact h.1
  · rw [copied_inside (Nat.le_of_lt hk)]
    exact h.2 k hk

end Strings

/-! ## The loops -/

/-- The bytes of the first strings with their terminators. -/
def span (len : ℕ → ℕ) : ℕ → ℕ
  | 0 => 0
  | n+1 => span len n+(len n+1)

theorem span_mono (len : ℕ → ℕ) {i j : ℕ} (hij : i ≤ j) : span len i ≤ span len j := by
  induction j with
  | zero =>
    obtain rfl := Nat.le_zero.mp hij
    exact le_rfl
  | succ j ih =>
    rcases Nat.lt_or_eq_of_le hij with hlt | rfl
    · exact (ih (Nat.le_of_lt_succ hlt)).trans (Nat.le_add_right _ _)
    · exact le_rfl

/-- A string ends before the next one starts. -/
theorem span_lt (len : ℕ → ℕ) {i j : ℕ} (hij : i < j) : span len i+len i < span len j :=
  Nat.lt_of_lt_of_le (Nat.lt_succ_self _) (span_mono len hij)

theorem span_bound {len : ℕ → ℕ} {n : ℕ} (hlen : ∀ i < n, len i < maxArgLen) :
    span len n ≤ maxArgLen*n := by
  induction n with
  | zero => exact Nat.zero_le _
  | succ n ih =>
    have hrest := ih fun i hi => hlen i (Nat.lt_succ_of_lt hi)
    have hlast := hlen n (Nat.lt_succ_self n)
    rw [span, Nat.mul_succ]
    omega

theorem sub64_eq {a b : ℕ} (hle : b ≤ a) (ha : a < 2^64) : sub64 a b = a-b := by
  rw [sub64]
  omega

section Loops

variable {arg : Argument} {len : ℕ → ℕ} {fuel : ℕ}

theorem reserve_eq {rsp n : ℕ} (hstring : ∀ i < n, IsString arg.argv (row i) (len i) ∧ len i < fuel)
    (hroom : span len n ≤ rsp) (hrsp : rsp < 2^64) :
    reserve fuel arg rsp n = some (rsp-span len n) := by
  induction n with
  | zero => rfl
  | succ n ih =>
    rw [span] at hroom
    obtain ⟨hlast, hfuel⟩ := hstring n (Nat.lt_succ_self n)
    rw [reserve, ih (fun i hi => hstring i (Nat.lt_succ_of_lt hi)) (by omega)]
    change (strlen arg.argv fuel (row n)).bind _ = _
    rw [strlen_eq hlast hfuel]
    change some (sub64 (rsp-span len n) (len n+1)) = _
    rw [sub64_eq (by omega) (by omega), span, Nat.sub_sub]

/-- The memory after the first rounds of the loop that fills the space. -/
structure Stored (arg : Argument) (len : ℕ → ℕ) (argv p : ℕ) (m₀ m : Bytes) (n : ℕ) : Prop where
  pointer : ∀ i < n, word m (argv+8*i) 8 = p+span len i
  string : ∀ i < n, ∀ k ≤ len i, m (p+span len i+k) = arg.argv (row i+k)
  below : ∀ a < argv, m a = m₀ a

/-- One round: the pointer goes to the array, the string behind the earlier ones. -/
theorem stored_step {argv p n : ℕ} {m₀ m : Bytes} (h : Stored arg len argv p m₀ m n)
    (harray : argv+8*(n+1) ≤ p) (hend : p+span len n < 2^64) :
    Stored arg len argv p m₀ (copied arg.argv (row n) (p+span len n) (len n)
      (putWord (argv+8*n) 8 (p+span len n) m)) (n+1) := by
  refine ⟨fun i hi => ?_, fun i hi k hk => ?_, fun a ha => ?_⟩
  · have harea : word (copied arg.argv (row n) (p+span len n) (len n)
        (putWord (argv+8*n) 8 (p+span len n) m)) (argv+8*i) 8 =
        word (putWord (argv+8*n) 8 (p+span len n) m) (argv+8*i) 8 := by
      apply word_congr
      intro j hj hj'
      exact copied_outside (by omega)
    rw [harea]
    rcases Nat.lt_succ_iff_lt_or_eq.mp hi with hlt | rfl
    · rw [word_putWord_other m (by omega)]
      exact h.pointer i hlt
    · rw [word_putWord]
      exact Nat.mod_eq_of_lt hend
  · rcases Nat.lt_succ_iff_lt_or_eq.mp hi with hlt | rfl
    · have hearlier := span_lt len hlt
      rw [copied_outside (by omega), putWord_other m (by omega)]
      exact h.string i hlt k hk
    · exact copied_inside hk
  · rw [copied_outside (by omega), putWord_other m (by omega)]
    exact h.below a ha

theorem store_eq {argv p n : ℕ} {m₀ : Bytes}
    (hstring : ∀ i < n, IsString arg.argv (row i) (len i) ∧ len i < fuel)
    (harray : argv+8*n ≤ p) (hend : p+span len n < 2^64) :
    ∃ m, store fuel arg argv p m₀ n = some (m, p+span len n) ∧ Stored arg len argv p m₀ m n := by
  induction n with
  | zero => exact ⟨m₀, rfl, nofun, nofun, fun _ _ => rfl⟩
  | succ n ih =>
    rw [span] at hend
    obtain ⟨hlast, hfuel⟩ := hstring n (Nat.lt_succ_self n)
    obtain ⟨m, hrun, hstored⟩ := ih (fun i hi => hstring i (Nat.lt_succ_of_lt hi)) (by omega) (by omega)
    refine ⟨_, ?_, stored_step hstored harray (by omega)⟩
    rw [store, hrun]
    change (strcpy arg.argv fuel (p+span len n) (row n) _).bind _ = _
    rw [strcpy_eq hlast hfuel]
    change (strlen (copied arg.argv (row n) (p+span len n) (len n) _) fuel (p+span len n)).bind _ = _
    rw [strlen_eq (isString_copied hlast) hfuel]
    change some (_, (p+span len n+(len n+1))%2^64) = _
    rw [Nat.mod_eq_of_lt (by omega), span, Nat.add_assoc]

end Loops

/-! ## The new program -/

section Start

variable {arg : Argument} {fuel : ℕ}

/-- Each row holds a string that ends within it. -/
theorem lengths (hwf : WellFormed arg) :
    ∃ len : ℕ → ℕ, ∀ i < arg.argc, IsString arg.argv (row i) (len i) ∧ len i < maxArgLen := by
  classical
  have hrow : ∀ i, ∃ n, i < arg.argc → IsString arg.argv (row i) n ∧ n < maxArgLen := by
    intro i
    by_cases hi : i < arg.argc
    · obtain ⟨k, hk, hzero⟩ := hwf.ended i hi
      have hsome : ∃ n, arg.argv (row i+n) = 0 := ⟨k, hzero⟩
      refine ⟨Nat.find hsome, fun _ => ⟨⟨Nat.find_spec hsome, fun j hj => Nat.find_min hsome hj⟩, ?_⟩⟩
      exact Nat.lt_of_le_of_lt (Nat.find_min' hsome hzero) hk
    · exact ⟨0, fun hc => absurd hc hi⟩
  exact ⟨fun i => (hrow i).choose, fun i hi => (hrow i).choose_spec hi⟩

/-- From the top of the stack, every list of arguments arrives. -/
theorem initArguments_arrived (hwf : WellFormed arg) (hfuel : maxArgLen ≤ fuel) (frame : Frame)
    (hrsp : frame.rsp = userStackTop-8) (m₀ : Bytes) :
    ∃ frame' m ptr len, initArguments fuel frame (some arg) m₀ = some (frame', m) ∧
      Arrived arg m₀ frame' m ptr len := by
  obtain ⟨len, hlen⟩ := lengths hwf
  have hstring : ∀ i < arg.argc, IsString arg.argv (row i) (len i) ∧ len i < fuel := fun i hi =>
    ⟨(hlen i hi).1, (hlen i hi).2.trans_le hfuel⟩
  have hargs : maxArgLen*arg.argc ≤ 512 := Nat.mul_le_mul_left maxArgLen hwf.few
  have hspan := (span_bound fun i hi => (hlen i hi).2).trans hargs
  have hfew : arg.argc ≤ 16 := hwf.few
  have htop : userStackTop = 0x800000000000 := rfl
  have hreserve := @reserve_eq _ _ _ frame.rsp _ hstring (by omega) (by omega)
  obtain ⟨r, hr⟩ : ∃ r, r = frame.rsp-span len arg.argc := ⟨_, rfl⟩
  obtain ⟨q, hq⟩ : ∃ q, q = r-r%8-8*arg.argc-8 := ⟨_, rfl⟩
  have hfirst : sub64 r (r%8) = r-r%8 := sub64_eq (by omega) (by omega)
  have hsecond : sub64 (r-r%8) (8*arg.argc) = r-r%8-8*arg.argc := sub64_eq (by omega) (by omega)
  have hthird : sub64 (r-r%8-8*arg.argc) 8 = q := by
    rw [hq]
    exact sub64_eq (by omega) (by omega)
  have hslot : (q+8)%2^64 = q+8 := Nat.mod_eq_of_lt (by omega)
  have hstart : (q+8+8*arg.argc)%2^64 = q+8+8*arg.argc := Nat.mod_eq_of_lt (by omega)
  obtain ⟨m, hstore, hstored⟩ := @store_eq _ _ _ _ _ _ (putWord q 8 0xffffffffffffffff m₀) hstring
    (le_refl (q+8+8*arg.argc)) (by omega)
  refine ⟨⟨arg.argc, q+8, q⟩, m, fun i => q+8+8*arg.argc+span len i, len, ?_, ?_⟩
  · rw [initArguments, hreserve, ← hr]
    simp only [Option.bind_eq_bind, Option.bind_some, hfirst, hsecond, hthird, hslot, hstart, hstore]
    rfl
  · refine ⟨rfl, ?_, fun i hi => (hlen i hi).1, hstored.pointer, hstored.string, ⟨le_rfl, ?_⟩, fun i _ => ?_,
      fun i j hij hj => ?_, fun i hi => ?_, ?_, ?_, fun a ha => ?_⟩
    · change (q+8)%8 = 0
      omega
    · -- the stores of the loop are all above the return address
      have hsame : word m q 8 = word (putWord q 8 0xffffffffffffffff m₀) q 8 :=
        word_congr fun j _ hj => hstored.below j hj
      change word m q 8 = _
      rw [hsame, word_putWord]
      rfl
    · exact Nat.le_add_right _ _
    · have hnext := span_lt len hij
      change q+8+8*arg.argc+span len i+len i < q+8+8*arg.argc+span len j
      omega
    · have hlast := span_lt len hi
      change q+8+8*arg.argc+span len i+len i < userStackTop
      omega
    · change q+8+8*arg.argc ≤ userStackTop
      omega
    · change userStackTop-pageSize ≤ q
      have hpage : pageSize = 4096 := rfl
      omega
    · have hbelow : a < q := ha
      rw [hstored.below a (by omega)]
      exact putWord_other m₀ (Or.inl hbelow)

/-- Two arguments of one letter each. -/
def letters : Argument := ⟨2, Function.update (Function.update (fun _ => 0) 0 0x61) 32 0x62⟩

end Start

end BabyOS.ProgramArguments

import BabyOS.ByteWords

/-!
# The building blocks of strings

`strncpy`, `strcat`, `strlen` and `strncmp`, which the kernel and the C library have in
the same words. Strings may overlap: a copy reads what it has written. `strncpy` stores
a terminator behind the bytes that it counts, and `strcat` stores none at all.
-/

set_option autoImplicit false

namespace BabyOS.StringPrimitives
open BabyOS.ByteWords

abbrev Memory : Type := ℕ → Byte

/-- `n` bytes and a terminator. Memory is smaller than what an `int` can count. -/
structure StringAt (m : Memory) (a n : ℕ) : Prop where
  bytes : ∀ k < n, m (a+k) ≠ 0
  ends : m (a+n) = 0
  int : n < 2^31

/-! ## Copies -/

/-- `d`, the memory, and the addresses of the stores in their order. -/
structure Copying where
  d : ℕ
  memory : Memory
  stores : List ℕ

/-- `*d++ = v` -/
def Copying.put (c : Copying) (v : Byte) : Copying :=
  ⟨c.d+1, Function.update c.memory c.d v, c.stores ++ [c.d]⟩

/-- `while (--n >= 0 && *src)` -/
def copyCounted (c : Copying) (src : ℕ) (n : ℤ) : Copying :=
  if n-1 ≥ 0 ∧ c.memory src ≠ 0 then copyCounted (c.put (c.memory src)) (src+1) (n-1) else c
termination_by n.toNat
decreasing_by omega

/-- What `strncpy` returns, and the copy. -/
def strncpy (dst src : ℕ) (n : ℤ) (m : Memory) : ℕ × Copying :=
  (dst, (copyCounted ⟨dst, m, []⟩ src n).put 0)

/-- `while (*dst)`, if it ends in so many rounds. -/
def findEnd (m : Memory) : ℕ → ℕ → Option ℕ
  | 0, _ => none
  | fuel+1, dst => if m dst ≠ 0 then findEnd m fuel (dst+1) else some dst

/-- `while (*src)` -/
def copyAll : ℕ → Copying → ℕ → Option Copying
  | 0, _, _ => none
  | fuel+1, c, src => if c.memory src ≠ 0 then copyAll fuel (c.put (c.memory src)) (src+1) else some c

/-- What `strcat` returns, and the copy. -/
def strcat (dst src fuel : ℕ) (m : Memory) : Option (ℕ × Copying) := do
  let d ← findEnd m fuel dst
  let c ← copyAll fuel ⟨d, m, []⟩ src
  return (dst, c)

/-! ## Comparisons -/

/-- A value, and the addresses that were read for it. -/
structure Scan (α : Type) where
  value : α
  reads : List ℕ

def Scan.after {α : Type} (r : Scan α) (l : List ℕ) : Scan α := ⟨r.value, l ++ r.reads⟩

/-- `n == 0 ? 0 : *s1 - *s2`, where a `char` has a sign. -/
def difference (m : Memory) (s₁ s₂ : ℕ) (n : ℤ) : Scan ℤ :=
  if n = 0 then ⟨0, []⟩ else ⟨(m s₁).toInt-(m s₂).toInt, [s₁, s₂]⟩

/-- Both bytes are there and equal. -/
def Same (m : Memory) (s₁ s₂ : ℕ) : Prop := m s₁ ≠ 0 ∧ m s₂ ≠ 0 ∧ m s₁ = m s₂

instance (m : Memory) (s₁ s₂ : ℕ) : Decidable (Same m s₁ s₂) := inferInstanceAs (Decidable (_ ∧ _ ∧ _))

/-- What the test of `strncmp` reads. -/
def looks (m : Memory) (s₁ s₂ : ℕ) : List ℕ := if m s₁ ≠ 0 then [s₁, s₂] else [s₁]

def strncmp (m : Memory) (s₁ s₂ : ℕ) (n : ℤ) : Scan ℤ :=
  if Same m s₁ s₂ then
    if n-1 ≥ 0 then (strncmp m (s₁+1) (s₂+1) (n-1)).after (looks m s₁ s₂)
    else (difference m s₁ s₂ (n-1)).after (looks m s₁ s₂)
  else (difference m s₁ s₂ n).after (looks m s₁ s₂)
termination_by n.toNat
decreasing_by omega

/-- `while (*s++)`, from a length that is an `int`. -/
def countBytes (m : Memory) : ℕ → ℕ → ℕ → Option (Scan ℕ)
  | 0, _, _ => none
  | fuel+1, s, len =>
    if m s ≠ 0 then
      if len+1 < 2^31 then (countBytes m fuel (s+1) (len+1)).map (Scan.after · [s]) else none
    else some ⟨len, [s]⟩

def strlen (m : Memory) (s fuel : ℕ) : Option (Scan ℕ) := countBytes m fuel s 0

/-! ## Strings -/

section Strings

variable {m : Memory} {a b n k : ℕ}

theorem StringAt.first (h : StringAt m a n) : m a = 0 ↔ n = 0 := by
  constructor
  · intro hz
    by_contra hne
    exact h.bytes 0 (Nat.pos_of_ne_zero hne) hz
  · rintro rfl
    exact h.ends

theorem StringAt.rest (h : StringAt m a (n+1)) : StringAt m (a+1) n := by
  refine ⟨fun k hk => ?_, ?_, by have := h.int; omega⟩
  · rw [Nat.add_assoc, Nat.add_comm 1 k]
    exact h.bytes (k+1) (Nat.succ_lt_succ hk)
  · rw [Nat.add_assoc, Nat.add_comm 1 n]
    exact h.ends

/-- A store elsewhere. -/
theorem StringAt.update (h : StringAt m a n) (v : Byte) (hb : b < a ∨ a+n < b) :
    StringAt (Function.update m b v) a n := by
  have hkeep : ∀ k ≤ n, Function.update m b v (a+k) = m (a+k) := by
    intro k hk
    exact Function.update_of_ne (by omega) _ _
  refine ⟨fun k hk => ?_, ?_, h.int⟩
  · rw [hkeep k hk.le]
    exact h.bytes k hk
  · rw [hkeep n le_rfl]
    exact h.ends

theorem findEnd_eq (h : StringAt m a n) (fuel : ℕ) : findEnd m fuel a = if n < fuel then some (a+n) else none := by
  induction fuel generalizing a n with
  | zero => simp [findEnd]
  | succ fuel ih =>
    rw [findEnd]
    cases n with
    | zero => simp [h.first.mpr rfl]
    | succ n =>
      have hne : m a ≠ 0 := fun hz => Nat.succ_ne_zero n (h.first.mp hz)
      have haddress : a+1+n = a+(n+1) := by omega
      rw [if_pos hne, ih h.rest, haddress]
      simp only [Nat.add_lt_add_iff_right]

end Strings

/-! ## What the copies store -/

section Copies

variable {c : Copying} {src n len : ℕ}

@[simp] theorem put_d (c : Copying) (v : Byte) : (c.put v).d = c.d+1 := rfl
@[simp] theorem put_memory (c : Copying) (v : Byte) : (c.put v).memory = Function.update c.memory c.d v := rfl
@[simp] theorem put_stores (c : Copying) (v : Byte) : (c.put v).stores = c.stores ++ [c.d] := rfl

@[simp] theorem copyCounted_zero (c : Copying) (src : ℕ) : copyCounted c src 0 = c := by
  rw [copyCounted, if_neg]
  rintro ⟨hn, -⟩
  exact absurd hn (by decide)

theorem copyCounted_end (n : ℤ) (h : c.memory src = 0) : copyCounted c src n = c := by
  rw [copyCounted, if_neg]
  rintro ⟨-, hne⟩
  exact hne h

theorem copyCounted_step (h : c.memory src ≠ 0) :
    copyCounted c src (n+1 : ℕ) = copyCounted (c.put (c.memory src)) (src+1) n := by
  have hn : ((n+1 : ℕ) : ℤ)-1 = n := by push_cast; ring
  rw [copyCounted, hn, if_pos ⟨Int.natCast_nonneg n, h⟩]

/-- The string is read before anything is stored in it. -/
theorem copyCounted_apart (n : ℕ) (h : StringAt c.memory src len) (hd : c.d ≤ src ∨ src+len < c.d) :
    (copyCounted c src n).stores = c.stores ++ List.range' c.d (min n len) := by
  induction n generalizing c src len with
  | zero => simp
  | succ n ih =>
    cases len with
    | zero => simp [copyCounted_end _ (h.first.mpr rfl)]
    | succ len =>
      have hne : c.memory src ≠ 0 := fun hz => Nat.succ_ne_zero len (h.first.mp hz)
      have hrest : StringAt (c.put (c.memory src)).memory (src+1) len := h.rest.update _ (by omega)
      rw [copyCounted_step hne, ih hrest (by simp only [put_d]; omega), Nat.succ_min_succ, List.range'_succ]
      simp

/-- The terminator is overwritten before it is read. -/
theorem copyCounted_over (n : ℕ) (hlt : src < c.d) (h : ∀ a, src ≤ a → a < c.d → c.memory a ≠ 0) :
    (copyCounted c src n).stores = c.stores ++ List.range' c.d n := by
  induction n generalizing c src with
  | zero => simp
  | succ n ih =>
    have hne := h src le_rfl hlt
    have hrest : ∀ a, src+1 ≤ a → a < (c.put (c.memory src)).d → (c.put (c.memory src)).memory a ≠ 0 := by
      intro a ha had
      rw [put_memory, Function.update_apply]
      split
      · exact hne
      · rw [put_d] at had
        exact h a (by omega) (by omega)
    rw [copyCounted_step hne, ih (by simp only [put_d]; omega) hrest, List.range'_succ]
    simp

/-- `strncpy` stores at most `n` bytes exactly when it gets to the terminator before. -/
theorem strncpy_within (dst n : ℕ) {m : Memory} (h : StringAt m src len) :
    (strncpy dst src n m).2.stores.length ≤ n ↔ len < n ∧ (dst ≤ src ∨ src+len < dst) := by
  by_cases hd : dst ≤ src ∨ src+len < dst
  · have hcopy := copyCounted_apart (c := ⟨dst, m, []⟩) n h hd
    rw [strncpy, put_stores, hcopy]
    simp [hd]
  · have hover : ∀ a, src ≤ a → a < dst → m a ≠ 0 := by
      intro a ha had
      have hbyte := h.bytes (a-src) (by omega)
      rwa [Nat.add_sub_cancel' ha] at hbyte
    have hcopy := copyCounted_over (c := ⟨dst, m, []⟩) n (by omega : src < dst) hover
    rw [strncpy, put_stores, hcopy]
    simp [hd]

/-- `k` bytes from `s` on at `d`. -/
def copied (m : Memory) (d s k : ℕ) : Memory := fun a => if d ≤ a ∧ a < d+k then m (s+(a-d)) else m a

theorem copied_succ (m : Memory) {d s k : ℕ} (h : d ≤ s ∨ s+k < d) :
    copied (Function.update m d (m s)) (d+1) (s+1) k = copied m d s (k+1) := by
  funext a
  simp only [copied]
  rcases Nat.lt_trichotomy a d with hlt | rfl | hgt
  · rw [if_neg (by omega), if_neg (by omega), Function.update_of_ne (by omega)]
  · rw [if_neg (by omega), if_pos (by omega), Function.update_self, Nat.sub_self, Nat.add_zero]
  · by_cases hin : a < d+(k+1)
    · have haddress : s+1+(a-(d+1)) = s+(a-d) := by omega
      rw [if_pos (by omega), if_pos (by omega), haddress, Function.update_of_ne (by omega)]
    · rw [if_neg (by omega), if_neg (by omega), Function.update_of_ne (by omega)]

theorem copyAll_apart (fuel : ℕ) (h : StringAt c.memory src len) (hd : len = 0 ∨ c.d ≤ src ∨ src+len < c.d) :
    (copyAll fuel c src).map Copying.memory = if len < fuel then some (copied c.memory c.d src len) else none := by
  induction fuel generalizing c src len with
  | zero => simp [copyAll]
  | succ fuel ih =>
    cases len with
    | zero =>
      have hnone : copied c.memory c.d src 0 = c.memory := by
        funext a
        exact if_neg (by omega)
      simp [copyAll, h.first.mpr rfl, hnone]
    | succ len =>
      have hne : c.memory src ≠ 0 := fun hz => Nat.succ_ne_zero len (h.first.mp hz)
      have hrest : StringAt (c.put (c.memory src)).memory (src+1) len := h.rest.update _ (by omega)
      rw [copyAll, if_pos hne, ih hrest (by simp only [put_d]; omega), put_memory, put_d, copied_succ _ (by omega)]
      simp only [Nat.add_lt_add_iff_right]

theorem copyAll_over (fuel : ℕ) (hlt : src < c.d) (h : ∀ a, src ≤ a → a < c.d → c.memory a ≠ 0) :
    copyAll fuel c src = none := by
  induction fuel generalizing c src with
  | zero => rfl
  | succ fuel ih =>
    have hne := h src le_rfl hlt
    rw [copyAll, if_pos hne]
    refine ih (Nat.succ_lt_succ hlt) fun a ha had => ?_
    rw [put_memory, Function.update_apply]
    split
    · exact hne
    · rw [put_d] at had
      exact h a (by omega) (by omega)

end Copies

/-! ## Concatenation -/

section Concatenation

variable {m : Memory} {dst src n k : ℕ}

/-- `strcat` ends, and the string at `dst` is then the first and the second one. -/
def Concatenates (m : Memory) (dst n src k : ℕ) : Prop :=
  ∃ fuel c, strcat dst src fuel m = some (dst, c) ∧ (∀ i < n, c.memory (dst+i) = m (dst+i)) ∧
    (∀ i < k, c.memory (dst+n+i) = m (src+i)) ∧ c.memory (dst+n+k) = 0

/-- Where the strings do not share their terminator, the copy ends. -/
theorem strcat_memory (hdst : StringAt m dst n) (hsrc : StringAt m src k) (happart : k = 0 ∨ src+k ≠ dst+n) (fuel : ℕ) :
    (strcat dst src fuel m).map (fun r => r.2.memory) =
      if n < fuel ∧ k < fuel then some (copied m (dst+n) src k) else none := by
  have hsplit : k = 0 ∨ dst+n ≤ src ∨ src+k < dst+n := by
    rcases happart with hz | hne
    · exact .inl hz
    · by_contra hin
      have hbyte := hsrc.bytes (dst+n-src) (by omega)
      rw [Nat.add_sub_cancel' (by omega)] at hbyte
      exact hbyte hdst.ends
  have hcopy := copyAll_apart (c := ⟨dst+n, m, []⟩) fuel hsrc hsplit
  rw [strcat, findEnd_eq hdst]
  by_cases hn : n < fuel
  · rw [if_pos hn, Option.bind_eq_bind, Option.bind_some]
    simp only [hn, true_and]
    rw [← hcopy]
    cases copyAll fuel ⟨dst+n, m, []⟩ src <;> rfl
  · simp [hn]

/-- `strcat` does what it is for exactly when there was a terminator already, and the
second string is not the end of the first. -/
theorem concatenates_iff (hdst : StringAt m dst n) (hsrc : StringAt m src k) :
    Concatenates m dst n src k ↔ m (dst+n+k) = 0 ∧ (k = 0 ∨ src+k ≠ dst+n) := by
  constructor
  · rintro ⟨fuel, c, hrun, -, -, hend⟩
    have happart : k = 0 ∨ src+k ≠ dst+n := by
      by_contra hin
      have hover : ∀ a, src ≤ a → a < dst+n → m a ≠ 0 := by
        intro a ha had
        have hbyte := hsrc.bytes (a-src) (by omega)
        rwa [Nat.add_sub_cancel' ha] at hbyte
      have hnone := copyAll_over (c := ⟨dst+n, m, []⟩) fuel (by omega : src < dst+n) hover
      rw [strcat, findEnd_eq hdst] at hrun
      by_cases hn : n < fuel
      · simp [hn, hnone] at hrun
      · simp [hn] at hrun
    have hmemory := strcat_memory hdst hsrc happart fuel
    rw [hrun, Option.map_some] at hmemory
    refine ⟨?_, happart⟩
    split at hmemory
    · rw [Option.some.inj hmemory, copied, if_neg (by omega)] at hend
      exact hend
    · cases hmemory
  · rintro ⟨hend, happart⟩
    have hmemory := strcat_memory hdst hsrc happart (n+k+1)
    rw [if_pos (by omega)] at hmemory
    obtain ⟨⟨ret, c⟩, hrun, hc⟩ := Option.map_eq_some_iff.mp hmemory
    have hret : ret = dst := by
      rw [strcat, findEnd_eq hdst, if_pos (by omega), Option.bind_eq_bind, Option.bind_some] at hrun
      cases hcopy : copyAll (n+k+1) ⟨dst+n, m, []⟩ src with
      | none =>
        rw [hcopy] at hrun
        cases hrun
      | some c' =>
        rw [hcopy] at hrun
        cases hrun
        rfl
    subst hret
    dsimp only at hc
    refine ⟨n+k+1, c, hrun, fun i hi => ?_, fun i hi => ?_, ?_⟩
    · rw [hc, copied, if_neg (by omega)]
    · rw [hc, copied, if_pos (by omega), Nat.add_sub_cancel_left]
    · rw [hc, copied, if_neg (by omega)]
      exact hend

end Concatenation

/-! ## What the comparison says -/

section Comparison

variable {m : Memory} {s t n a b : ℕ}

/-- The first `n` characters are equal, up to a terminator. -/
def EqualFor (m : Memory) (s t n : ℕ) : Prop := ∀ i < n, (∀ j < i, m (s+j) ≠ 0) → m (s+i) = m (t+i)

/-- The characters before are equal, and none is a terminator. -/
def FirstDifference (m : Memory) (s t i : ℕ) : Prop :=
  (∀ j < i, m (s+j) = m (t+j) ∧ m (s+j) ≠ 0) ∧ m (s+i) ≠ m (t+i)

theorem equalFor_succ (h : Same m s t) : EqualFor m s t (n+1) ↔ EqualFor m (s+1) (t+1) n := by
  constructor
  · intro heq i hi hne
    have hshift := heq (i+1) (Nat.succ_lt_succ hi) fun j hj => by
      cases j with
      | zero => exact h.1
      | succ j =>
        have hj' := hne j (by omega)
        rwa [Nat.add_assoc, Nat.add_comm 1 j] at hj'
    rw [Nat.add_assoc, Nat.add_assoc, Nat.add_comm 1 i]
    exact hshift
  · intro heq i hi hne
    cases i with
    | zero => exact h.2.2
    | succ i =>
      have hshift := heq i (Nat.lt_of_succ_lt_succ hi) fun j hj => by
        rw [Nat.add_assoc, Nat.add_comm 1 j]
        exact hne (j+1) (Nat.succ_lt_succ hj)
      rwa [Nat.add_assoc, Nat.add_assoc, Nat.add_comm 1 i] at hshift

theorem equalFor_stop (h : ¬ Same m s t) : EqualFor m s t (n+1) ↔ m s = m t := by
  constructor
  · intro heq
    exact heq 0 (Nat.succ_pos n) fun j hj => absurd hj (Nat.not_lt_zero j)
  · intro heq i _ hne
    cases i with
    | zero => exact heq
    | succ i =>
      have hs : m s ≠ 0 := hne 0 (Nat.succ_pos i)
      exact absurd ⟨hs, heq ▸ hs, heq⟩ h

theorem difference_zero (hn : n ≠ 0) : (difference m s t n).value = 0 ↔ m s = m t := by
  rw [difference, if_neg (by omega)]
  change (m s).toInt-(m t).toInt = 0 ↔ _
  rw [sub_eq_zero, BitVec.toInt_inj]

/-- The last round of a comparison that has counted to its end. -/
theorem strncmp_counted (m : Memory) (s t : ℕ) : (strncmp m s t 0).value = 0 := by
  rw [strncmp]
  by_cases h : Same m s t
  · rw [if_pos h, if_neg (by decide)]
    change (difference m s t (0-1)).value = 0
    rw [difference, if_neg (by decide)]
    exact sub_eq_zero.mpr (congrArg BitVec.toInt h.2.2)
  · rw [if_neg h]
    rfl

theorem strncmp_step (h : Same m s t) : (strncmp m s t (n+1 : ℕ)).value = (strncmp m (s+1) (t+1) n).value := by
  have hn : ((n+1 : ℕ) : ℤ)-1 = n := by push_cast; ring
  rw [strncmp, if_pos h, hn, if_pos (Int.natCast_nonneg n)]
  rfl

theorem strncmp_stop (h : ¬ Same m s t) : (strncmp m s t (n+1 : ℕ)).value = (difference m s t (n+1 : ℕ)).value := by
  rw [strncmp, if_neg h]
  rfl

theorem strncmp_zero (m : Memory) (s t n : ℕ) : (strncmp m s t n).value = 0 ↔ EqualFor m s t n := by
  induction n generalizing s t with
  | zero =>
    have hzero := strncmp_counted m s t
    simp only [Nat.cast_zero, hzero, true_iff]
    exact fun i hi => absurd hi (Nat.not_lt_zero i)
  | succ n ih =>
    by_cases h : Same m s t
    · rw [strncmp_step h, ih, equalFor_succ h]
    · rw [strncmp_stop h, difference_zero (Nat.succ_ne_zero n), equalFor_stop h]

theorem strncmp_sign (m : Memory) (s t : ℕ) {n i : ℕ} (hi : i < n) (h : FirstDifference m s t i) :
    (strncmp m s t n).value = (m (s+i)).toInt-(m (t+i)).toInt := by
  induction n generalizing s t i with
  | zero => exact absurd hi (Nat.not_lt_zero i)
  | succ n ih =>
    cases i with
    | zero =>
      have hstop : ¬ Same m s t := fun hsame => h.2 hsame.2.2
      rw [strncmp_stop hstop, difference, if_neg (by omega)]
      rfl
    | succ i =>
      have hfirst := h.1 0 (Nat.succ_pos i)
      have hsame : Same m s t := ⟨hfirst.2, hfirst.1 ▸ hfirst.2, hfirst.1⟩
      have hshift : FirstDifference m (s+1) (t+1) i := by
        constructor
        · intro j hj
          rw [Nat.add_assoc, Nat.add_assoc, Nat.add_comm 1 j]
          exact h.1 (j+1) (Nat.succ_lt_succ hj)
        · rw [Nat.add_assoc, Nat.add_assoc, Nat.add_comm 1 i]
          exact h.2
      rw [strncmp_step hsame, ih _ _ (Nat.lt_of_succ_lt_succ hi) hshift, Nat.add_assoc, Nat.add_assoc, Nat.add_comm 1 i]

end Comparison

/-- `strncpy` keeps to `n` bytes when it finds the terminator among them, `strcat` joins
its strings when it finds a terminator where one is needed, and `strncmp` compares. -/
theorem string_blocks {m : Memory} {s t k l : ℕ} (hs : StringAt m s k) (ht : StringAt m t l) (dst n : ℕ) :
    ((strncpy dst s n m).2.stores.length ≤ n ↔ k < n ∧ (dst ≤ s ∨ s+k < dst)) ∧
      (Concatenates m s k t l ↔ m (s+k+l) = 0 ∧ (l = 0 ∨ t+l ≠ s+k)) ∧
      ((strncmp m s t n).value = 0 ↔ EqualFor m s t n) ∧
      ∀ i < n, FirstDifference m s t i → (strncmp m s t n).value = (m (s+i)).toInt-(m (t+i)).toInt :=
  ⟨strncpy_within dst n hs, concatenates_iff hs ht, strncmp_zero m s t n, fun _ => strncmp_sign m s t⟩

/-- `a` in an array of four bytes that was not cleared, and `bc` behind it. -/
def uncleared : Memory := fun a => ([0x61, 0, 0xff, 0xff, 0x62, 0x63, 0] : List Byte).getD a 0

theorem uncleared_strings : StringAt uncleared 0 1 ∧ StringAt uncleared 4 2 :=
  ⟨⟨by decide, by decide, by decide⟩, by decide, by decide, by decide⟩

/-- `strncpy(s, "bc", 2)` stores three bytes, and `strcat` leaves the byte behind its
two as it was. -/
theorem missing_terminators :
    StringAt uncleared 0 1 ∧ StringAt uncleared 4 2 ∧ ¬ (strncpy 0 4 (2 : ℕ) uncleared).2.stores.length ≤ 2 ∧
      ¬ Concatenates uncleared 0 1 4 2 := by
  refine ⟨uncleared_strings.1, uncleared_strings.2, ?_, ?_⟩
  · rw [strncpy_within 0 2 uncleared_strings.2]
    decide
  · rw [concatenates_iff uncleared_strings.1 uncleared_strings.2]
    decide

/-- `strcat(s, "")`, `strncpy(s, "a", 2)` and `strncmp("a", "bc", 2)`. -/
theorem short_strings :
    (strncpy 8 0 (2 : ℕ) uncleared).2.stores.length ≤ 2 ∧ Concatenates uncleared 0 1 6 0 ∧
      (strncmp uncleared 0 4 (2 : ℕ)).value = -1 := by
  have hempty : StringAt uncleared 6 0 := ⟨by decide, by decide, by decide⟩
  have hjoined := string_blocks uncleared_strings.1 hempty 8 2
  have hcompared := string_blocks uncleared_strings.1 uncleared_strings.2 8 2
  refine ⟨hjoined.1.mpr (by decide), hjoined.2.1.mpr (by decide), ?_⟩
  exact hcompared.2.2.2 0 (by decide) ⟨fun j hj => absurd hj (Nat.not_lt_zero j), by decide⟩

end BabyOS.StringPrimitives

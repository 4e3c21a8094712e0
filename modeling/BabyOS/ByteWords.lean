import Mathlib

/-!
# Words and bits in a block of bytes

Little-endian words at any offset, bits counted from the first byte on, and copies
of bytes, with what each store leaves alone.
-/

set_option autoImplicit false

namespace BabyOS.ByteWords

abbrev Byte := BitVec 8
abbrev Bytes := ℕ → Byte

/-! ## Words -/

/-- The word of `w` bytes at an offset. -/
def word (b : Bytes) : ℕ → ℕ → ℕ
  | _, 0 => 0
  | off, w+1 => (b off).toNat+256*word b (off+1) w

def putWord (off w v : ℕ) (b : Bytes) : Bytes :=
  fun j => if off ≤ j ∧ j < off+w then BitVec.ofNat 8 (v/256^(j-off)) else b j

theorem word_congr {b b' : Bytes} {off w : ℕ} (h : ∀ j, off ≤ j → j < off+w → b j = b' j) :
    word b off w = word b' off w := by
  induction w generalizing off with
  | zero => rfl
  | succ w ih =>
    have hrest : word b (off+1) w = word b' (off+1) w :=
      ih (fun j hj hjw => h j (by omega) (by omega))
    rw [word, word, hrest, h off le_rfl (by omega)]

/-- The same bytes, further on. -/
theorem word_shift {b b' : Bytes} {i : ℕ} (h : ∀ j, b j = b' (i+j)) (off w : ℕ) :
    word b off w = word b' (i+off) w := by
  induction w generalizing off with
  | zero => rfl
  | succ w ih => rw [word, word, h, ih, Nat.add_assoc]

theorem word_lt (b : Bytes) (off w : ℕ) : word b off w < 256^w := by
  induction w generalizing off with
  | zero => exact Nat.one_pos
  | succ w ih =>
    have hrest := ih (off+1)
    have hbyte := (b off).isLt
    rw [word, pow_succ]
    omega

theorem word_putWord (off w v : ℕ) (b : Bytes) : word (putWord off w v b) off w = v%256^w := by
  induction w generalizing off v b with
  | zero => rw [word, pow_zero, Nat.mod_one]
  | succ w ih =>
    have hrest : word (putWord off (w+1) v b) (off+1) w = word (putWord (off+1) w (v/256) b) (off+1) w := by
      apply word_congr
      intro j hj hjw
      rw [putWord, putWord, if_pos ⟨by omega, by omega⟩, if_pos ⟨hj, hjw⟩]
      have hpow : 256^(j-off) = 256*256^(j-(off+1)) := by
        rw [← pow_succ']
        congr 1
        omega
      rw [hpow, Nat.div_div_eq_div_mul]
    have hbyte : (putWord off (w+1) v b off).toNat = v%256 := by
      rw [putWord, if_pos ⟨le_rfl, by omega⟩, Nat.sub_self, pow_zero, Nat.div_one, BitVec.toNat_ofNat]
    rw [word, hrest, ih, hbyte, pow_succ', Nat.mod_mul]

theorem word_putWord_other {off w off' w' v : ℕ} (b : Bytes) (h : off'+w' ≤ off ∨ off+w ≤ off') :
    word (putWord off w v b) off' w' = word b off' w' := by
  apply word_congr
  intro j hj hjw
  rw [putWord, if_neg]
  rintro ⟨h₁, h₂⟩
  omega

theorem putWord_other {off w v j : ℕ} (b : Bytes) (h : j < off ∨ off+w ≤ j) :
    putWord off w v b j = b j := by
  rw [putWord, if_neg]
  rintro ⟨h₁, h₂⟩
  omega

/-- `n` words of `w` bytes, one after the other. -/
def putArray (off w : ℕ) (f : ℕ → ℕ) : ℕ → Bytes → Bytes
  | 0, b => b
  | n+1, b => putWord (off+w*n) w (f n) (putArray off w f n b)

theorem word_putArray {off w n k : ℕ} (f : ℕ → ℕ) (b : Bytes) (hk : k < n) :
    word (putArray off w f n b) (off+w*k) w = f k%256^w := by
  induction n with
  | zero => omega
  | succ n ih =>
    rw [putArray]
    by_cases hkn : k = n
    · rw [hkn]
      exact word_putWord _ _ _ _
    · have hle : w*k+w ≤ w*n := by
        rw [← Nat.mul_succ]
        exact Nat.mul_le_mul_left w (by omega)
      rw [word_putWord_other _ (Or.inl (by omega))]
      exact ih (by omega)

theorem putArray_other {off w n j : ℕ} (f : ℕ → ℕ) (b : Bytes) (h : j < off ∨ off+w*n ≤ j) :
    putArray off w f n b j = b j := by
  induction n with
  | zero => rfl
  | succ n ih =>
    rw [Nat.mul_succ] at h
    rw [putArray, putWord_other _ (by omega)]
    exact ih (by omega)

theorem word_putArray_other {off w n off' w' : ℕ} (f : ℕ → ℕ) (b : Bytes)
    (h : off'+w' ≤ off ∨ off+w*n ≤ off') : word (putArray off w f n b) off' w' = word b off' w' := by
  apply word_congr
  intro j hj hjw
  exact putArray_other f b (by omega)

/-! ## Bits -/

def bit (b : Bytes) (i : ℕ) : Bool := (b (i/8)).getLsbD (i%8)

def setBit (i : ℕ) (b : Bytes) : Bytes :=
  Function.update b (i/8) (b (i/8) ||| BitVec.twoPow 8 (i%8))

def clearBit (i : ℕ) (b : Bytes) : Bytes :=
  Function.update b (i/8) (b (i/8) &&& ~~~BitVec.twoPow 8 (i%8))

theorem bit_setBit (i j : ℕ) (b : Bytes) : bit (setBit i b) j = if j = i then true else bit b j := by
  rw [bit, setBit, Function.update_apply]
  by_cases hbyte : j/8 = i/8
  · rw [if_pos hbyte, BitVec.getLsbD_or, BitVec.getLsbD_twoPow]
    by_cases hji : j = i
    · subst hji
      have hlt : j%8 < 8 := Nat.mod_lt _ (by decide)
      simp [hlt]
    · have hne : i%8 ≠ j%8 := by omega
      rw [if_neg hji, bit, hbyte]
      simp [hne]
  · rw [if_neg hbyte, if_neg (fun hji => hbyte (congrArg (·/8) hji)), bit]

theorem bit_clearBit (i j : ℕ) (b : Bytes) :
    bit (clearBit i b) j = if j = i then false else bit b j := by
  rw [bit, clearBit, Function.update_apply]
  by_cases hbyte : j/8 = i/8
  · rw [if_pos hbyte, BitVec.getLsbD_and, BitVec.getLsbD_not, BitVec.getLsbD_twoPow]
    have hlt : j%8 < 8 := Nat.mod_lt _ (by decide)
    by_cases hji : j = i
    · subst hji
      simp [hlt]
    · have hne : i%8 ≠ j%8 := by omega
      rw [if_neg hji, bit, hbyte]
      simp [hne, hlt]
  · rw [if_neg hbyte, if_neg (fun hji => hbyte (congrArg (·/8) hji)), bit]

theorem ext_bits {b b' : Bytes} (h : ∀ k, bit b k = bit b' k) : b = b' := by
  funext j
  apply BitVec.eq_of_getLsbD_eq
  intro i hi
  have hbit := h (8*j+i)
  rwa [bit, bit, Nat.mul_add_div (by decide), Nat.mul_add_mod, Nat.div_eq_of_lt hi, Nat.mod_eq_of_lt hi,
    Nat.add_zero] at hbit

/-- The first clear bit of the `n` bits from `i` on. -/
def firstClear (b : Bytes) : ℕ → ℕ → Option ℕ
  | _, 0 => none
  | i, n+1 => if bit b i then firstClear b (i+1) n else some i

theorem firstClear_some {b : Bytes} {i n k : ℕ} (h : firstClear b i n = some k) :
    i ≤ k ∧ k < i+n ∧ bit b k = false := by
  induction n generalizing i with
  | zero => cases h
  | succ n ih =>
    rw [firstClear] at h
    split at h
    · have := ih h
      exact ⟨by omega, by omega, this.2.2⟩
    next hbit =>
      obtain rfl := Option.some.inj h
      exact ⟨le_rfl, by omega, by simpa using hbit⟩

theorem firstClear_none {b : Bytes} {i n : ℕ} (h : firstClear b i n = none) :
    ∀ k, i ≤ k → k < i+n → bit b k = true := by
  induction n generalizing i with
  | zero => intro k hk hk'; omega
  | succ n ih =>
    intro k hk hk'
    rw [firstClear] at h
    split at h
    next hbit =>
      by_cases hki : k = i
      · rw [hki]
        exact hbit
      · exact ih h k (by omega) (by omega)
    · cases h

/-! ## Copies -/

/-- `n` bytes of `b` from an offset on. -/
def slice (b : Bytes) (off n : ℕ) : List Byte := (List.range n).map fun j => b (off+j)

/-- `n` bytes of `src`, from `k` on, copied to an offset. -/
def paste (off n : ℕ) (src : Bytes) (k : ℕ) (b : Bytes) : Bytes :=
  fun j => if off ≤ j ∧ j < off+n then src (k+(j-off)) else b j

theorem length_slice (b : Bytes) (off n : ℕ) : (slice b off n).length = n := by
  rw [slice, List.length_map, List.length_range]

theorem slice_congr {b b' : Bytes} {off n : ℕ} (h : ∀ j < n, b (off+j) = b' (off+j)) :
    slice b off n = slice b' off n := by
  apply List.map_congr_left
  intro j hj
  exact h j (List.mem_range.mp hj)

/-- Two pieces next to each other. -/
theorem slice_append (b : Bytes) (off m n : ℕ) :
    slice b off m ++ slice b (off+m) n = slice b off (m+n) := by
  rw [slice, slice, slice, List.range_add, List.map_append, List.map_map]
  congr 1
  apply List.map_congr_left
  intro j _
  rw [Function.comp_apply, Nat.add_assoc]

end BabyOS.ByteWords

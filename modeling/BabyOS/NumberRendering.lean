import BabyOS.Numerals
import BabyOS.ByteWords

/-!
# Rendering of numbers

`sprint_long` and `sprint_int` of the kernel and of the C library. The digits go
into an array of 16 characters on the stack first; a store behind it has no
result here. What a call does is the characters it stores from `buffer` on and
the count it returns.
-/

set_option autoImplicit false

namespace BabyOS.NumberRendering
open BabyOS.Numerals BabyOS.ByteWords

def chr (c : Char) : Byte := BitVec.ofNat 8 c.toNat

def digits : List Byte :=
  [chr '0', chr '1', chr '2', chr '3', chr '4', chr '5', chr '6', chr '7', chr '8', chr '9',
    chr 'a', chr 'b', chr 'c', chr 'd', chr 'e', chr 'f', 0]

def bufSize : ℕ := 16

/-- The loop over the digits, with the places that the array has left. -/
def putDigits (base : ℕ) : ℕ → ℕ → Option (List Byte)
  | 0, _ => none
  | room+1, num =>
    match digits[num%base]? with
    | none => none
    | some c => if num/base ≠ 0 then (putDigits base room (num/base)).map (c :: ·) else some [c]

section Machine

variable {w : ℕ}

/-- `num`: what is left of the number when a minus sign stands for its sign. -/
def magnitude (n : BitVec w) (sign : Bool) : ℕ := if sign && n.msb then (-n).toNat else n.toNat

/-- The array when the digits and the sign are in it. -/
def scratch (n : BitVec w) (base : ℕ) (sign : Bool) : Option (List Byte) :=
  match putDigits base bufSize (magnitude n sign) with
  | none => none
  | some buf =>
    if sign && n.msb then
      if buf.length < bufSize then some (buf++[chr '-']) else none
    else some buf

end Machine

/-- The stores to `buffer`, and the result. -/
abbrev Output := List Byte × ℤ

def padFirst (width base : ℤ) (buf : List Byte) : Output :=
  let i : ℤ := buf.length
  let width := if width < i then i else width
  (List.replicate (width-i).toNat (if base = 16 then chr '0' else chr ' ')++buf.reverse, width)

def padLast (width : ℤ) (buf : List Byte) : Output :=
  let i : ℤ := buf.length
  let width := if width < i then i else width
  (buf.reverse++List.replicate (width-i).toNat (chr ' '), width)

namespace Kernel

def sprintLong (n : BitVec 64) (width base : ℤ) (sign : Bool) : Option Output :=
  if base ≤ 0 then some ([], -1) else (scratch n base.toNat sign).map (padFirst width base)

def sprintInt (n : BitVec 32) (width base : ℤ) (sign : Bool) : Option Output :=
  if base ≤ 0 then some ([], -1) else (scratch n base.toNat sign).map (padFirst width base)

end Kernel

namespace Libc

def sprintLong (n : BitVec 64) (width base : ℤ) (sign : Bool) : Option Output :=
  if base ≤ 0 then some ([], -1) else (scratch n base.toNat sign).map (padFirst width base)

/-- The base is not looked at: a division by zero has no result, and it is unsigned. -/
def sprintInt (n : BitVec 32) (width base : ℤ) (sign : Bool) : Option Output :=
  if base = 0 then none else (scratch n (base%2^32).toNat sign).map (padLast width)

end Libc

/-! ## What a rendering is -/

section Specification

variable {w : ℕ}

/-- The number that the bits are. -/
def value (n : BitVec w) (sign : Bool) : ℤ := if sign then n.toInt else n.toNat

def digitChar (d : ℕ) : Byte := digits.getD d 0

/-- The canonical numeral. -/
def numeral (base : ℕ) (z : ℤ) : List Byte :=
  (if z < 0 then [chr '-'] else [])++((lowDigits base z.natAbs).map digitChar).reverse

/-- The text behind as many fill characters as the width asks for. -/
def inFront (fill : Byte) (width : ℕ) (s : List Byte) : List Byte :=
  List.replicate (width-s.length) fill++s

def behind (fill : Byte) (width : ℕ) (s : List Byte) : List Byte :=
  s++List.replicate (width-s.length) fill

/-- The call stores the text, all of it inside of its arrays, and returns its length. -/
def Stores (r : Option Output) (s : List Byte) : Prop := r = some (s, (s.length : ℤ))

end Specification

theorem inFront_length (fill : Byte) (width : ℕ) (s : List Byte) :
    (inFront fill width s).length = max width s.length := by
  rw [inFront, List.length_append, List.length_replicate]
  omega

theorem behind_length (fill : Byte) (width : ℕ) (s : List Byte) :
    (behind fill width s).length = max width s.length := by
  rw [behind, List.length_append, List.length_replicate]
  omega

/-! ## The digits -/

section Digits

variable {base w : ℕ}

theorem digits_get {d : ℕ} (hd : d < 16) : digits[d]? = some (digitChar d) := by
  have hlt : d < digits.length := hd.trans (by decide)
  rw [digitChar, List.getD_eq_getElem?_getD, List.getElem?_eq_getElem hlt, Option.getD_some]

/-- The loop stores all digits if there is room for them. -/
theorem putDigits_eq (hb : 1 < base) (hle : base ≤ 16) (room num : ℕ) :
    putDigits base room num =
      if (lowDigits base num).length ≤ room then some ((lowDigits base num).map digitChar) else none := by
  induction room generalizing num with
  | zero =>
    have hpos := lowDigits_pos hb num
    rw [putDigits, if_neg (by omega)]
  | succ room ih =>
    have hdigit : digits[num%base]? = some (digitChar (num%base)) :=
      digits_get ((Nat.mod_lt _ (by omega)).trans_le hle)
    rw [putDigits, hdigit, lowDigits_step hb num]
    simp only
    by_cases hq : num/base = 0
    · rw [if_neg (by simp [hq]), if_pos hq, if_pos (by simp)]
      rfl
    · rw [if_pos hq, if_neg hq, ih]
      simp only [List.length_cons, Nat.add_le_add_iff_right, List.map_cons]
      split
      · rfl
      · rfl

/-- The number, by its sign and its magnitude. -/
theorem magnitude_eq (n : BitVec w) (sign : Bool) :
    magnitude n sign = (value n sign).natAbs ∧ (value n sign < 0 ↔ (sign && n.msb) = true) := by
  have hlt := n.isLt
  rw [magnitude, value]
  cases sign with
  | false => simp
  | true =>
    rw [if_pos rfl, Bool.true_and, BitVec.toInt_eq_msb_cond, BitVec.toNat_neg]
    by_cases hm : n.msb = true
    · have hge := BitVec.msb_eq_true_iff_two_mul_ge.mp hm
      have hmod : (2^w-n.toNat)%2^w = 2^w-n.toNat := by
        refine Nat.mod_eq_of_lt ?_
        have hpow : 0 < 2^w := Nat.two_pow_pos w
        omega
      rw [if_pos hm, if_pos hm, hmod]
      generalize 2^w = m at *
      exact ⟨by omega, iff_of_true (by omega) hm⟩
    · rw [if_neg hm, if_neg hm]
      simp [hm]

theorem numeral_length (n : BitVec w) (sign : Bool) (base : ℕ) :
    (numeral base (value n sign)).length =
      (if sign && n.msb then 1 else 0)+(lowDigits base (magnitude n sign)).length := by
  have ⟨hmag, hsign⟩ := magnitude_eq n sign
  rw [numeral, hmag, List.length_append, List.length_reverse, List.length_map]
  by_cases hneg : value n sign < 0
  · rw [if_pos hneg, if_pos (hsign.mp hneg)]
    rfl
  · rw [if_neg hneg, if_neg fun h => hneg (hsign.mpr h)]
    rfl

/-- The array holds the numeral from its end, if it has the room. -/
theorem scratch_eq (hb : 1 < base) (hle : base ≤ 16) (n : BitVec w) (sign : Bool) :
    scratch n base sign =
      if (numeral base (value n sign)).length ≤ bufSize then some (numeral base (value n sign)).reverse
      else none := by
  have hlen := numeral_length n sign base
  have ⟨hmag, hsign⟩ := magnitude_eq n sign
  rw [scratch, putDigits_eq hb hle]
  by_cases hneg : value n sign < 0
  · have hminus := hsign.mp hneg
    rw [if_pos hminus] at hlen
    have hnum : (numeral base (value n sign)).reverse =
        (lowDigits base (magnitude n sign)).map digitChar++[chr '-'] := by
      rw [numeral, if_pos hneg, hmag]
      simp
    rw [hlen, hnum]
    by_cases hroom : (lowDigits base (magnitude n sign)).length ≤ bufSize
    · rw [if_pos hroom]
      simp only [hminus, if_true, List.length_map]
      by_cases hlast : (lowDigits base (magnitude n sign)).length < bufSize
      · rw [if_pos hlast, if_pos (by omega)]
      · rw [if_neg hlast, if_neg (by omega)]
    · rw [if_neg hroom, if_neg (by omega)]
  · have hplus : ¬ (sign && n.msb) = true := fun h => hneg (hsign.mpr h)
    rw [if_neg hplus, Nat.zero_add] at hlen
    have hnum : (numeral base (value n sign)).reverse = (lowDigits base (magnitude n sign)).map digitChar := by
      rw [numeral, if_neg hneg, hmag]
      simp
    rw [hlen, hnum]
    by_cases hroom : (lowDigits base (magnitude n sign)).length ≤ bufSize
    · rw [if_pos hroom]
      simp only [if_neg hplus]
    · rw [if_neg hroom]

end Digits

/-! ## Numerals that fit -/

section Fit

variable {base w : ℕ}

/-- At most 16 digits, or a sign and 15. -/
def Fits (base : ℕ) (z : ℤ) : Prop := -(base : ℤ)^15 < z ∧ z < (base : ℤ)^16

instance (base : ℕ) (z : ℤ) : Decidable (Fits base z) := inferInstanceAs (Decidable (_ ∧ _))

theorem fits_iff (hb : 1 < base) (z : ℤ) : (numeral base z).length ≤ bufSize ↔ Fits base z := by
  rw [numeral, Fits, List.length_append, List.length_reverse, List.length_map, bufSize]
  have hlow : (lowDigits base z.natAbs).length ≤ 15 ↔ z.natAbs < base^15 := lowDigits_length_le hb (by decide)
  have hhigh : (lowDigits base z.natAbs).length ≤ 16 ↔ z.natAbs < base^16 := lowDigits_length_le hb (by decide)
  have hmono : base^15 ≤ base^16 := Nat.pow_le_pow_right (by omega) (by decide)
  have hpos : 0 < base^15 := Nat.pow_pos (by omega)
  have hcast : ∀ k : ℕ, (base : ℤ)^k = ((base^k : ℕ) : ℤ) := fun k => by
    push_cast
    rfl
  rw [hcast, hcast]
  generalize base^15 = l at *
  generalize base^16 = u at *
  by_cases hneg : z < 0
  · rw [if_pos hneg, List.length_singleton]
    have hle : 1+(lowDigits base z.natAbs).length ≤ 16 ↔ (lowDigits base z.natAbs).length ≤ 15 := by omega
    rw [hle, hlow]
    omega
  · rw [if_neg hneg, List.length_nil, Nat.zero_add, hhigh]
    omega

/-- The numbers of 32 bits all fit. -/
theorem int_fits (hb : 10 ≤ base) (n : BitVec 32) (sign : Bool) : Fits base (value n sign) := by
  have hlow : (10 : ℤ)^15 ≤ (base : ℤ)^15 := by gcongr; exact_mod_cast hb
  have hhigh : (10 : ℤ)^16 ≤ (base : ℤ)^16 := by gcongr; exact_mod_cast hb
  have hlt := n.isLt
  rw [Fits, value]
  split
  · have h1 := BitVec.le_toInt n
    have h2 := BitVec.toInt_lt (x := n)
    constructor
    · omega
    · omega
  · constructor
    · omega
    · omega

end Fit

/-! ## The four functions -/

section Functions

variable {base w : ℕ}

/-- The value of the base that a call passes, and its fill character. -/
def fill (base : ℕ) : Byte := if base = 16 then chr '0' else chr ' '

theorem padFirst_eq (width base : ℕ) (s : List Byte) :
    padFirst width base s.reverse =
      (inFront (fill base) width s, ((inFront (fill base) width s).length : ℤ)) := by
  have hwidth : (if (width : ℤ) < (s.length : ℤ) then (s.length : ℤ) else width) = ((max width s.length : ℕ) : ℤ) := by
    split <;> omega
  have hfill : (if (base : ℤ) = 16 then chr '0' else chr ' ') = fill base := by
    rw [fill]
    norm_cast
  have hpad : (((max width s.length : ℕ) : ℤ)-(s.length : ℤ)).toNat = width-s.length := by omega
  rw [padFirst, List.length_reverse, List.reverse_reverse, inFront_length]
  rw [hwidth, hfill, hpad]
  rfl

theorem padLast_eq (width : ℕ) (s : List Byte) :
    padLast width s.reverse =
      (behind (chr ' ') width s, ((behind (chr ' ') width s).length : ℤ)) := by
  have hwidth : (if (width : ℤ) < (s.length : ℤ) then (s.length : ℤ) else width) = ((max width s.length : ℕ) : ℤ) := by
    split <;> omega
  have hpad : (((max width s.length : ℕ) : ℤ)-(s.length : ℤ)).toNat = width-s.length := by omega
  rw [padLast, List.length_reverse, List.reverse_reverse, behind_length]
  rw [hwidth, hpad]
  rfl

/-- What comes out of the array, for a padding that puts the numeral into a text. -/
theorem map_scratch_eq (hb : 1 < base) (hle : base ≤ 16) (n : BitVec w) (sign : Bool) {pad : List Byte → Output}
    {text : List Byte → List Byte} (hpad : ∀ s, pad s.reverse = (text s, ((text s).length : ℤ))) :
    (scratch n base sign).map pad = if Fits base (value n sign) then
      some (text (numeral base (value n sign)), ((text (numeral base (value n sign))).length : ℤ)) else none := by
  rw [scratch_eq hb hle]
  by_cases hfits : Fits base (value n sign)
  · rw [if_pos hfits, if_pos ((fits_iff hb _).mpr hfits), Option.map_some, hpad]
  · rw [if_neg hfits, if_neg fun h => hfits ((fits_iff hb _).mp h), Option.map_none]

theorem kernel_long_eq (hb : 1 < base) (hle : base ≤ 16) (n : BitVec 64) (width : ℕ) (sign : Bool) :
    Kernel.sprintLong n width base sign = if Fits base (value n sign) then
      some (inFront (fill base) width (numeral base (value n sign)),
        ((inFront (fill base) width (numeral base (value n sign))).length : ℤ)) else none := by
  rw [Kernel.sprintLong, if_neg (by omega), Int.toNat_natCast]
  exact map_scratch_eq hb hle n sign fun s => padFirst_eq width base s

theorem kernel_int_stores (hb : 10 ≤ base) (hle : base ≤ 16) (n : BitVec 32) (width : ℕ) (sign : Bool) :
    Stores (Kernel.sprintInt n width base sign) (inFront (fill base) width (numeral base (value n sign))) := by
  rw [Kernel.sprintInt, if_neg (by omega), Int.toNat_natCast,
    map_scratch_eq (by omega) hle n sign fun s => padFirst_eq width base s]
  exact if_pos (int_fits hb n sign)

theorem libc_long_eq (n : BitVec 64) (width base : ℤ) (sign : Bool) :
    Libc.sprintLong n width base sign = Kernel.sprintLong n width base sign := rfl

theorem libc_int_stores (hb : 10 ≤ base) (hle : base ≤ 16) (n : BitVec 32) (width : ℕ) (sign : Bool) :
    Stores (Libc.sprintInt n width base sign) (behind (chr ' ') width (numeral base (value n sign))) := by
  have hbase : ((base : ℤ)%2^32).toNat = base := by omega
  rw [Libc.sprintInt, if_neg (by omega), hbase, map_scratch_eq (by omega) hle n sign (padLast_eq width)]
  exact if_pos (int_fits hb n sign)

/-- The four calls store the numeral padded to the width and return how many
characters that is. -/
structure Exact (n : BitVec 64) (k : BitVec 32) (width base : ℕ) (sign : Bool) : Prop where
  kernelLong : Stores (Kernel.sprintLong n width base sign)
    (inFront (fill base) width (numeral base (value n sign)))
  kernelInt : Stores (Kernel.sprintInt k width base sign)
    (inFront (fill base) width (numeral base (value k sign)))
  libcLong : Stores (Libc.sprintLong n width base sign)
    (inFront (fill base) width (numeral base (value n sign)))
  libcInt : Stores (Libc.sprintInt k width base sign)
    (behind (chr ' ') width (numeral base (value k sign)))

/-- The numbers are rendered as they should be if and only if the numeral of the long
one fits into the array. -/
theorem numbers_exact (n : BitVec 64) (k : BitVec 32) (width base : ℕ) (sign : Bool)
    (hbase : base = 10 ∨ base = 16) : Exact n k width base sign ↔ Fits base (value n sign) := by
  have hb : 10 ≤ base := by omega
  have hle : base ≤ 16 := by omega
  have hlong := kernel_long_eq (by omega) hle n width sign
  constructor
  · intro h
    by_contra hn
    have hstores := h.kernelLong
    rw [Stores, hlong, if_neg hn] at hstores
    cases hstores
  · intro h
    rw [if_pos h] at hlong
    exact ⟨hlong, kernel_int_stores hb hle k width sign, hlong, libc_int_stores hb hle k width sign⟩

theorem numbers_exact_minimum : Exact 1000000 (BitVec.intMin 32) 12 10 true :=
  (numbers_exact 1000000 (BitVec.intMin 32) 12 10 true (.inl rfl)).mpr (by decide)

/-- `LONG_MIN` takes 20 characters. -/
theorem minimum_overruns :
    Kernel.sprintLong (BitVec.intMin 64) 0 10 true = none ∧ ¬ Exact (BitVec.intMin 64) 0 0 10 true := by
  have hnone : Kernel.sprintLong (BitVec.intMin 64) 0 10 true = none := by decide +kernel
  refine ⟨hnone, fun h => ?_⟩
  have hstores := h.kernelLong
  rw [Stores, show ((0 : ℕ) : ℤ) = 0 from rfl, show ((10 : ℕ) : ℤ) = 10 from rfl, hnone] at hstores
  cases hstores

end Functions

end BabyOS.NumberRendering

import BabyOS.ByteWords
import BabyOS.PixelGrids

/-!
# Rectangles on the screen

`vbe_t::clip` and `fill_rectangle`. The ends of a rectangle are computed without a
sign, so an end left of the screen or above it looks like one far to the right or
below, and a beginning behind the other edge makes the extent wrap. Offsets are those
from `m_base` on.
-/

set_option autoImplicit false

namespace BabyOS.ScreenRectangles
open BabyOS.ByteWords BabyOS.PixelGrids

/-! ## The code -/

/-- `vbe_t`: the screen lies in its video memory, and a pixel has room for three
colours. -/
structure Vbe where
  width : ℕ
  height : ℕ
  bytesPp : ℕ
  videoMemSize : ℕ
  width_lt : width < 2^16
  height_lt : height < 2^16
  bytesPp_lt : bytesPp < 2^8
  colours : 3 ≤ bytesPp
  videoMemSize_lt : videoMemSize < 2^32
  room : bytesPp*width*height ≤ videoMemSize

/-- `rect_t`. -/
structure RectT where
  left : ℤ
  top : ℤ
  width : ℕ
  height : ℕ
deriving DecidableEq

/-- The values of the fields, and the two ends as exact sums. -/
structure RectT.InRange (r : RectT) : Prop where
  left : -2^31 ≤ r.left ∧ r.left < 2^31
  top : -2^31 ≤ r.top ∧ r.top < 2^31
  right : r.left+r.width < 2^32
  bottom : r.top+r.height < 2^32

/-- The value as a `uint32`. -/
def u32 (z : ℤ) : ℕ := (z%2^32).toNat

def clip (s : Vbe) (rect : RectT) : RectT :=
  let right := u32 (rect.left+rect.width)
  let bottom := u32 (rect.top+rect.height)
  if right ≤ 0 ∨ bottom ≤ 0 then ⟨0, 0, 0, 0⟩
  else
    let rect := if rect.left < 0 then { rect with left := 0, width := u32 (right-0) } else rect
    let rect := if rect.top < 0 then { rect with top := 0, height := u32 (bottom-0) } else rect
    let rect := if right > s.width then { rect with width := u32 (s.width-rect.left) } else rect
    if bottom > s.height then { rect with height := u32 (s.height-rect.top) } else rect

/-- The blue, green and red of a colour. -/
structure Colour where
  b : Byte
  g : Byte
  r : Byte

def Colour.byte (c : Colour) (k : ℕ) : Byte := if k = 0 then c.b else if k = 1 then c.g else c.r

/-- The memory behind `m_base`, and the offsets and lengths of what was read or
written. -/
structure Video where
  mem : Bytes
  touched : List (ℕ × ℕ)

/-- `v[0]`, `v[1]` and `v[2]`. -/
def putColour (c : Colour) (v : ℕ) (m : Video) : Video :=
  ⟨Function.update (Function.update (Function.update m.mem v c.b) (v+1) c.g) (v+2) c.r, (v, 3) :: m.touched⟩

def memcpy (dst src n : ℕ) (m : Video) : Video :=
  ⟨paste dst n m.mem src m.mem, (dst, n) :: (src, n) :: m.touched⟩

/-- The loop over the first row: `n` pixels from `v` on. -/
def fillRow (s : Vbe) (c : Colour) : ℕ → ℕ → Video → Video
  | 0, _, m => m
  | n+1, v, m => fillRow s c n (v+s.bytesPp) (putColour c v m)

/-- The loop over the other rows: `n` of them from `y` on. -/
def copyRows (s : Vbe) (x width pvram : ℕ) : ℕ → ℕ → Video → Video
  | 0, _, m => m
  | n+1, y, m => copyRows s x width pvram n (y+1)
      (memcpy (u32 (u32 (s.bytesPp*y)*s.width)+u32 (s.bytesPp*x)) pvram (u32 (s.bytesPp*width)) m)

/-- `none` is an overflow of the `int` product that gives the first row. -/
def fillRectangle (s : Vbe) (rect : RectT) (c : Colour) (m : Video) : Option Video :=
  let rect := clip s rect
  if rect.width = 0 ∨ rect.height = 0 then some m
  else if 2^31 ≤ s.bytesPp*rect.top ∨ 2^31 ≤ s.bytesPp*rect.top*s.width then none
  else
    let x := u32 rect.left
    let pvram := s.bytesPp*rect.top.toNat*s.width+u32 (s.bytesPp*x)
    let m := fillRow s c rect.width pvram m
    let start := u32 (rect.top+1)
    some (copyRows s x rect.width pvram (u32 (rect.top+rect.height)-start) start m)

/-! ## What it is for -/

def RectT.Has (r : RectT) (x y : ℤ) : Prop := Rect.Has ⟨r.left, r.top, r.width, r.height⟩ x y

/-- A point of the screen. -/
def Shows (s : Vbe) (x y : ℤ) : Prop := Rect.Has ⟨0, 0, s.width, s.height⟩ x y

def grid (s : Vbe) : Grid := ⟨s.width, s.height, s.bytesPp, s.bytesPp*s.width, le_rfl⟩

/-- `clip` gives the intersection with the screen; what is drawn are the colours of
the pixels in it, in the memory of the screen, and no byte of any other pixel. -/
structure Exactly (s : Vbe) (rect : RectT) (c : Colour) : Prop where
  clipped : ∀ x y : ℤ, (clip s rect).Has x y ↔ rect.Has x y ∧ Shows s x y
  drawn : ∀ m, ∃ v, fillRectangle s rect c ⟨m, []⟩ = some v ∧
    (∀ t ∈ v.touched, t.1+t.2 ≤ s.bytesPp*s.width*s.height) ∧
    (∀ x y k, x < s.width → y < s.height → k < 3 → rect.Has x y → v.mem ((grid s).place x y+k) = c.byte k) ∧
    ∀ o, v.mem o ≠ m o → ∃ x y, x < s.width ∧ y < s.height ∧ rect.Has x y ∧ (grid s).Holds x y o

/-! ## One axis -/

/-- What `clip` makes of a beginning and an extent, when neither end is 0. -/
def axis (start : ℤ) (extent size : ℕ) : ℤ × ℕ :=
  let stop := u32 (start+extent)
  let r := if start < 0 then (0, u32 (stop-0)) else (start, extent)
  if stop > size then (r.1, u32 (size-r.1)) else r

/-- Neither the end is before the screen nor the beginning behind it. -/
def Reaches (start : ℤ) (extent size : ℕ) : Prop := start ≤ size ∧ (0 ≤ start ∨ 0 ≤ start+extent)

/-- Nothing is left, as the code sees it. -/
def Flat (start : ℤ) (extent size : ℕ) : Prop :=
  start < 0 ∧ size = 0 ∨ (0 ≤ start ∧ start ≤ size) ∧ (extent = 0 ∨ start = size)

section Axis

variable {start : ℤ} {extent size : ℕ}

theorem u32_eq {z : ℤ} (h : 0 ≤ z) (hlt : z < 2^32) : u32 z = z.toNat := by
  rw [u32, Int.emod_eq_of_lt h hlt]

theorem u32_nat {n : ℕ} (h : n < 2^32) : u32 n = n := by
  rw [u32_eq (by omega) (by omega), Int.toNat_natCast]

/-- Where the code is right about an axis. -/
theorem axis_reaches (hstart : -2^31 ≤ start ∧ start < 2^31) (hsum : start+extent < 2^32) (hsize : size < 2^16)
    (hr : Reaches start extent size) :
    0 ≤ (axis start extent size).1 ∧ (axis start extent size).1+(axis start extent size).2 ≤ size ∧
      ∀ z, (axis start extent size).1 ≤ z ∧ z < (axis start extent size).1+(axis start extent size).2 ↔
        (start ≤ z ∧ z < start+extent) ∧ (0 ≤ z ∧ z < 0+size) := by
  obtain ⟨hle, hpos⟩ := hr
  have hstop : (u32 (start+extent) : ℤ) = start+extent := by
    rw [u32_eq (by omega) hsum]
    omega
  rw [axis]
  by_cases hneg : start < 0
  · rw [if_pos hneg]
    have hagain : (u32 (u32 (start+extent)-0 : ℤ) : ℤ) = start+extent := by
      rw [Int.sub_zero, hstop, hstop]
    by_cases hgt : u32 (start+extent) > size
    · rw [if_pos hgt]
      have hrest : (u32 (size-0 : ℤ) : ℤ) = size := by
        rw [Int.sub_zero, u32_nat (by omega)]
      dsimp only
      rw [hrest]
      refine ⟨le_rfl, by omega, fun z => ?_⟩
      omega
    · rw [if_neg hgt]
      dsimp only
      rw [hagain]
      refine ⟨le_rfl, by omega, fun z => ?_⟩
      omega
  · rw [if_neg hneg]
    by_cases hgt : u32 (start+extent) > size
    · rw [if_pos hgt]
      have hrest : (u32 (size-start) : ℤ) = size-start := by
        rw [u32_eq (by omega) (by omega)]
        omega
      dsimp only
      rw [hrest]
      refine ⟨by omega, by omega, fun z => ?_⟩
      omega
    · rw [if_neg hgt]
      dsimp only
      refine ⟨by omega, by omega, fun z => ?_⟩
      omega

/-- The extent that is left. -/
theorem axis_flat (hstart : -2^31 ≤ start ∧ start < 2^31) (hsum : start+extent < 2^32) (hsize : size < 2^16)
    (hne : start+extent ≠ 0) : (axis start extent size).2 = 0 ↔ Flat start extent size := by
  rw [axis, Flat]
  by_cases hneg : start < 0
  · rw [if_pos hneg]
    have hpos : u32 (start+extent) ≠ 0 := by
      rw [u32]
      omega
    by_cases hgt : u32 (start+extent) > size
    · rw [if_pos hgt]
      dsimp only
      rw [Int.sub_zero, u32_nat (by omega)]
      omega
    · rw [if_neg hgt]
      dsimp only
      rw [Int.sub_zero, u32_nat (by omega)]
      omega
  · rw [if_neg hneg]
    have hstop : (u32 (start+extent) : ℤ) = start+extent := by
      rw [u32_eq (by omega) hsum]
      omega
    by_cases hgt : u32 (start+extent) > size
    · rw [if_pos hgt]
      dsimp only
      rw [u32]
      omega
    · rw [if_neg hgt]
      dsimp only
      omega

theorem axis_first : (axis start extent size).1 = max start 0 := by
  rw [axis]
  by_cases hneg : start < 0
  · have hmax : max start 0 = 0 := max_eq_right hneg.le
    rw [if_pos hneg, hmax]
    by_cases hgt : u32 (start+extent) > size
    · rw [if_pos hgt]
    · rw [if_neg hgt]
  · have hmax : max start 0 = start := max_eq_left (not_lt.mp hneg)
    rw [if_neg hneg, hmax]
    by_cases hgt : u32 (start+extent) > size
    · rw [if_pos hgt]
    · rw [if_neg hgt]

/-- Where the code is wrong, it begins at the edge of the screen or behind it. -/
theorem axis_misses (hr : ¬ Reaches start extent size) :
    ¬ ((start ≤ (axis start extent size).1 ∧ (axis start extent size).1 < start+extent) ∧
      (0 ≤ (axis start extent size).1 ∧ (axis start extent size).1 < 0+size)) := by
  rw [axis_first]
  rw [Reaches] at hr
  omega

end Axis

/-! ## Clipping -/

section Clipping

variable {s : Vbe} {rect : RectT}

theorem u32_zero {z : ℤ} (hlow : -2^31 ≤ z) (hlt : z < 2^32) : u32 z ≤ 0 ↔ z = 0 := by
  rw [u32]
  omega

theorem clip_ended (hr : rect.InRange) (hend : rect.left+rect.width = 0 ∨ rect.top+rect.height = 0) :
    clip s rect = ⟨0, 0, 0, 0⟩ := by
  have hzero : u32 (rect.left+rect.width) ≤ 0 ∨ u32 (rect.top+rect.height) ≤ 0 := by
    have hleft := hr.left
    have htop := hr.top
    rw [u32_zero (by omega) hr.right, u32_zero (by omega) hr.bottom]
    exact hend
  rw [clip]
  dsimp only
  rw [if_pos hzero]

/-- The two axes are clipped alike. -/
theorem clip_axes (hr : rect.InRange) (hright : rect.left+rect.width ≠ 0) (hbottom : rect.top+rect.height ≠ 0) :
    clip s rect = ⟨(axis rect.left rect.width s.width).1, (axis rect.top rect.height s.height).1,
      (axis rect.left rect.width s.width).2, (axis rect.top rect.height s.height).2⟩ := by
  have hnot : ¬ (u32 (rect.left+rect.width) ≤ 0 ∨ u32 (rect.top+rect.height) ≤ 0) := by
    have hleft := hr.left
    have htop := hr.top
    rw [u32_zero (by omega) hr.right, u32_zero (by omega) hr.bottom]
    exact not_or.mpr ⟨hright, hbottom⟩
  rw [clip, axis, axis]
  dsimp only
  rw [if_neg hnot]
  by_cases hl : rect.left < 0 <;> by_cases ht : rect.top < 0 <;>
    by_cases hw : u32 (rect.left+rect.width) > s.width <;>
    by_cases hh : u32 (rect.top+rect.height) > s.height <;>
    simp only [hl, ht, hw, hh, if_true, if_false]

end Clipping

/-! ## Drawing -/

section Drawing

variable {s : Vbe} {c : Colour} {m : Video} {x y y₀ n v width : ℕ}

theorem put_colour (k : ℕ) (hk : k < 3) : (putColour c v m).mem (v+k) = c.byte k := by
  have hcases : k = 0 ∨ k = 1 ∨ k = 2 := by omega
  change Function.update (Function.update (Function.update m.mem v c.b) (v+1) c.g) (v+2) c.r (v+k) = _
  rcases hcases with rfl | rfl | rfl
  · rw [Function.update_of_ne (by omega), Function.update_of_ne (by omega)]
    exact Function.update_self _ _ _
  · rw [Function.update_of_ne (by omega)]
    exact Function.update_self _ _ _
  · exact Function.update_self _ _ _

theorem put_other {o : ℕ} (ho : o < v ∨ v+3 ≤ o) : (putColour c v m).mem o = m.mem o := by
  rw [putColour]
  dsimp only
  rw [Function.update_of_ne (by omega), Function.update_of_ne (by omega), Function.update_of_ne (by omega)]

/-- The first row: the colours of its pixels, and nothing before or behind them. -/
theorem fill_row (s : Vbe) (c : Colour) (n v : ℕ) (m : Video) :
    (∀ i < n, ∀ k < 3, (fillRow s c n v m).mem (v+s.bytesPp*i+k) = c.byte k) ∧
      (∀ o, o < v ∨ v+s.bytesPp*n ≤ o → (fillRow s c n v m).mem o = m.mem o) ∧
      ∀ t ∈ (fillRow s c n v m).touched, t ∈ m.touched ∨ t.1+t.2 ≤ v+s.bytesPp*n := by
  have hdeep := s.colours
  induction n generalizing v m with
  | zero => exact ⟨fun i hi => absurd hi (Nat.not_lt_zero i), fun o _ => rfl, fun t ht => .inl ht⟩
  | succ n ih =>
    obtain ⟨hin, hout, htouch⟩ := ih (v+s.bytesPp) (putColour c v m)
    rw [fillRow]
    refine ⟨fun i hi k hk => ?_, fun o ho => ?_, fun t ht => ?_⟩
    · cases i with
      | zero =>
        rw [Nat.mul_zero, Nat.add_zero, hout (v+k) (.inl (by omega))]
        exact put_colour k hk
      | succ i =>
        have hstep : v+s.bytesPp*(i+1)+k = v+s.bytesPp+s.bytesPp*i+k := by
          rw [Nat.mul_succ]
          omega
        rw [hstep]
        exact hin i (by omega) k hk
    · rw [Nat.mul_succ] at ho
      rw [hout o (by omega)]
      refine put_other ?_
      omega
    · rw [Nat.mul_succ]
      rcases htouch t ht with ht | ht
      · rcases List.mem_cons.mp ht with rfl | ht
        · exact .inr (by dsimp only; omega)
        · exact .inl ht
      · exact .inr (by omega)

/-- Where row `y` begins; the products stay in 32 bits. -/
theorem row_offset (hx : x ≤ s.width) (hy : y < s.height) :
    u32 (u32 (s.bytesPp*y)*s.width)+u32 (s.bytesPp*x) = (grid s).place x y ∧
      s.bytesPp*y*s.width+u32 (s.bytesPp*x) = (grid s).place x y := by
  have hw := s.width_lt
  have hh := s.height_lt
  have hdepth := s.bytesPp_lt
  have hroom := s.room
  have hmem := s.videoMemSize_lt
  have hxlt : s.bytesPp*x < 2^32 := lt_of_le_of_lt (Nat.mul_le_mul hdepth.le (hx.trans hw.le)) (by decide)
  have hylt : s.bytesPp*y < 2^32 := lt_of_le_of_lt (Nat.mul_le_mul hdepth.le (hy.le.trans hh.le)) (by decide)
  have hcomm : s.bytesPp*y*s.width = s.bytesPp*s.width*y := by ring
  have hrow : s.bytesPp*y*s.width < 2^32 := by
    have hle : s.bytesPp*s.width*y ≤ s.bytesPp*s.width*s.height := Nat.mul_le_mul_left _ hy.le
    omega
  have hxu : u32 ((s.bytesPp : ℤ)*x) = s.bytesPp*x := by
    rw [← Nat.cast_mul]
    exact u32_nat hxlt
  have hyu : u32 ((s.bytesPp : ℤ)*y) = s.bytesPp*y := by
    rw [← Nat.cast_mul]
    exact u32_nat hylt
  have hru : u32 ((s.bytesPp*y : ℕ)*s.width : ℤ) = s.bytesPp*y*s.width := by
    rw [← Nat.cast_mul]
    exact u32_nat hrow
  rw [hxu, hyu, hru, hcomm]
  exact ⟨rfl, rfl⟩

theorem place_shift (i y' : ℕ) : (grid s).place (x+i) y' = (grid s).place x y'+s.bytesPp*i := by
  rw [Grid.place, Grid.place, Nat.mul_add]
  exact (Nat.add_assoc _ _ _).symm

/-- The other rows are copies of row `y₀`. -/
theorem copy_rows (hx : x+width ≤ s.width) (hy : y+n ≤ s.height) (hy₀ : y₀ < y) (m : Video) :
    (∀ j < n, ∀ i < width, ∀ k < s.bytesPp,
      (copyRows s x width ((grid s).place x y₀) n y m).mem ((grid s).place (x+i) (y+j)+k) =
        m.mem ((grid s).place (x+i) y₀+k)) ∧
      (∀ o, (∀ j < n, ¬ ((grid s).place x (y+j) ≤ o ∧ o < (grid s).place x (y+j)+s.bytesPp*width)) →
        (copyRows s x width ((grid s).place x y₀) n y m).mem o = m.mem o) ∧
      ∀ t ∈ (copyRows s x width ((grid s).place x y₀) n y m).touched,
        t ∈ m.touched ∨ t.1+t.2 ≤ s.bytesPp*s.width*s.height := by
  induction n generalizing y m with
  | zero => exact ⟨fun j hj => absurd hj (Nat.not_lt_zero j), fun o _ => rfl, fun t ht => .inl ht⟩
  | succ n ih =>
    have hwidth : u32 ((s.bytesPp : ℤ)*width) = s.bytesPp*width := by
      rw [← Nat.cast_mul]
      refine u32_nat (lt_of_le_of_lt (Nat.mul_le_mul s.bytesPp_lt.le ?_) (by decide : 2^8*2^16 < 2^32))
      have hw := s.width_lt
      omega
    have hplace := (@row_offset s x y (by omega) (by omega)).1
    rw [copyRows, hplace, hwidth]
    obtain ⟨hin, hout, htouch⟩ := @ih (y+1) (by omega) (by omega)
      (memcpy ((grid s).place x y) ((grid s).place x y₀) (s.bytesPp*width) m)
    have hspan : ∀ i < width, ∀ k < s.bytesPp, ∀ y' y'',
        ((grid s).place x y' ≤ (grid s).place (x+i) y''+k ∧
          (grid s).place (x+i) y''+k < (grid s).place x y'+s.bytesPp*width) ↔ y'' = y' := by
      intro i hi k hk y' y''
      have hiff := @Grid.in_span (grid s) (x+i) x y'' y' width k (by change x+i < s.width; omega) hx hk
      exact hiff.trans ⟨fun h => h.1, fun h => ⟨h, by omega, by omega⟩⟩
    refine ⟨fun j hj i hi k hk => ?_, fun o ho => ?_, fun t ht => ?_⟩
    · cases j with
      | zero =>
        have hlater : ∀ j < n, ¬ ((grid s).place x (y+1+j) ≤ (grid s).place (x+i) y+k ∧
            (grid s).place (x+i) y+k < (grid s).place x (y+1+j)+s.bytesPp*width) := by
          intro j hj hsp
          have hrow := (hspan i hi k hk _ _).mp hsp
          omega
        have hzero : y+0 = y := rfl
        rw [hzero, hout _ hlater]
        change paste _ _ _ _ _ _ = _
        rw [paste, if_pos ((hspan i hi k hk y y).mpr rfl)]
        refine congrArg m.mem ?_
        rw [place_shift, place_shift]
        omega
      | succ j =>
        have hnext : y+(j+1) = y+1+j := by omega
        rw [hnext, hin j (by omega) i hi k hk]
        change paste _ _ _ _ _ _ = _
        refine if_neg fun hsp => ?_
        have hrow := (hspan i hi k hk _ _).mp hsp
        omega
    · have hlater : ∀ j < n, ¬ ((grid s).place x (y+1+j) ≤ o ∧ o < (grid s).place x (y+1+j)+s.bytesPp*width) := by
        intro j hj
        have hnext : y+(j+1) = y+1+j := by omega
        have hrow := ho (j+1) (by omega)
        rw [hnext] at hrow
        exact hrow
      rw [hout o hlater]
      exact if_neg (ho 0 (by omega))
    · have hend : ∀ y' < s.height, (grid s).place x y'+s.bytesPp*width ≤ s.bytesPp*s.width*s.height :=
        fun y' hy' => @Grid.span_end (grid s) x y' width hx hy'
      rcases htouch t ht with ht | ht
      · rcases List.mem_cons.mp ht with rfl | ht
        · exact .inr (hend y (by omega))
        · rcases List.mem_cons.mp ht with rfl | ht
          · exact .inr (hend y₀ (by omega))
          · exact .inl ht
      · exact .inr ht

end Drawing

/-! ## The whole of it -/

section Whole

variable {s : Vbe} {rect : RectT} {c : Colour} {x y width height : ℕ}

/-- A rectangle on the screen is drawn as it is. -/
theorem fill_drawn (hclip : clip s rect = ⟨x, y, width, height⟩) (hx : x+width ≤ s.width)
    (hy : y+height ≤ s.height) (hpos : 0 < width ∧ 0 < height) (hrow : s.bytesPp*y*s.width < 2^31) (m : Bytes) :
    ∃ v, fillRectangle s rect c ⟨m, []⟩ = some v ∧
      (∀ t ∈ v.touched, t.1+t.2 ≤ s.bytesPp*s.width*s.height) ∧
      (∀ x' y' k, k < 3 → x ≤ x' → x' < x+width → y ≤ y' → y' < y+height →
        v.mem ((grid s).place x' y'+k) = c.byte k) ∧
      ∀ o, v.mem o ≠ m o → ∃ x' y', (x ≤ x' ∧ x' < x+width) ∧ (y ≤ y' ∧ y' < y+height) ∧
        (grid s).Holds x' y' o := by
  have hdeep := s.colours
  have hw := s.width_lt
  have hh := s.height_lt
  have hcol : s.bytesPp*y ≤ 2^8*2^16 := Nat.mul_le_mul s.bytesPp_lt.le (by omega)
  have hno : ¬ ((2^31 : ℤ) ≤ s.bytesPp*(y : ℤ) ∨ (2^31 : ℤ) ≤ s.bytesPp*(y : ℤ)*s.width) := by
    rw [← Nat.cast_mul, ← Nat.cast_mul]
    omega
  have hstart : u32 ((y : ℤ)+1) = y+1 := u32_nat (by omega : y+1 < 2^32)
  have hstop : u32 ((y : ℤ)+height) = y+height := u32_nat (by omega : y+height < 2^32)
  have hleft : u32 (x : ℤ) = x := u32_nat (by omega)
  have hplace := (@row_offset s x y (by omega) (by omega)).2
  have hcount : y+height-(y+1) = height-1 := by omega
  have heq : fillRectangle s rect c ⟨m, []⟩ = some (copyRows s x width ((grid s).place x y) (height-1) (y+1)
      (fillRow s c width ((grid s).place x y) ⟨m, []⟩)) := by
    rw [fillRectangle, hclip]
    dsimp only
    rw [if_neg (by omega), if_neg hno, hstart, hstop, hleft, Int.toNat_natCast, hplace, hcount]
  obtain ⟨hin, hout, htouch⟩ := fill_row s c width ((grid s).place x y) ⟨m, []⟩
  obtain ⟨hin', hout', htouch'⟩ := @copy_rows s x (y+1) y (height-1) width hx (by omega) (by omega)
    (fillRow s c width ((grid s).place x y) ⟨m, []⟩)
  refine ⟨_, heq, fun t ht => ?_, fun x' y' k hk hx₁ hx₂ hy₁ hy₂ => ?_, fun o ho => ?_⟩
  · rcases htouch' t ht with ht | ht
    · rcases htouch t ht with ht | ht
      · cases ht
      · exact ht.trans (@Grid.span_end (grid s) x y width hx (by change y < s.height; omega))
    · exact ht
  · obtain ⟨i, rfl⟩ := Nat.exists_eq_add_of_le hx₁
    obtain ⟨j, rfl⟩ := Nat.exists_eq_add_of_le hy₁
    cases j with
    | zero =>
      have hzero : y+0 = y := rfl
      have hbefore : ∀ j < height-1, ¬ ((grid s).place x (y+1+j) ≤ (grid s).place (x+i) y+k ∧
          (grid s).place (x+i) y+k < (grid s).place x (y+1+j)+s.bytesPp*width) := by
        intro j hj hsp
        have hspan := (@Grid.in_span (grid s) (x+i) x y (y+1+j) width k (by change x+i < s.width; omega) hx
          (by change k < s.bytesPp; omega)).mp hsp
        omega
      rw [hzero, hout' _ hbefore, place_shift]
      exact hin i (by omega) k hk
    | succ j =>
      have hnext : y+(j+1) = y+1+j := by omega
      rw [hnext, hin' j (by omega) i (by omega) k (by omega), place_shift]
      exact hin i (by omega) k hk
  · by_cases hrows : ∃ j < height-1, (grid s).place x (y+1+j) ≤ o ∧ o < (grid s).place x (y+1+j)+s.bytesPp*width
    · obtain ⟨j, hj, hlow, hhigh⟩ := hrows
      obtain ⟨i, hi, hbyte⟩ := @Grid.span_pixel (grid s) x (y+1+j) width o hlow hhigh
      exact ⟨x+i, y+1+j, by omega, by omega, hbyte⟩
    · have hsame := hout' o fun j hj hsp => hrows ⟨j, hj, hsp⟩
      rw [hsame] at ho
      have hlow : (grid s).place x y ≤ o := by
        by_contra hlt
        exact ho (hout o (.inl (not_le.mp hlt)))
      have hhigh : o < (grid s).place x y+s.bytesPp*width := by
        by_contra hge
        exact ho (hout o (.inr (not_lt.mp hge)))
      obtain ⟨i, hi, hbyte⟩ := @Grid.span_pixel (grid s) x y width o hlow hhigh
      exact ⟨x+i, y, by omega, by omega, hbyte⟩

/-- When the code is right: an end is exactly 0, an axis is flat, or both axes reach
the screen and the place of the first row is an `int`. -/
def Clear (s : Vbe) (rect : RectT) : Prop :=
  rect.left+rect.width = 0 ∨ rect.top+rect.height = 0 ∨ Flat rect.left rect.width s.width ∨
    Flat rect.top rect.height s.height ∨
    Reaches rect.left rect.width s.width ∧ Reaches rect.top rect.height s.height ∧
      s.bytesPp*max rect.top 0*s.width < 2^31

/-- Nothing is to be drawn, and nothing is. -/
theorem empty_exactly (hempty : (clip s rect).width = 0 ∨ (clip s rect).height = 0)
    (hno : ∀ x y, ¬ (rect.Has x y ∧ Shows s x y)) : Exactly s rect c := by
  refine ⟨fun x y => ?_, fun m => ⟨⟨m, []⟩, ?_, fun t ht => absurd ht List.not_mem_nil, ?_, fun o ho => absurd rfl ho⟩⟩
  · refine ⟨fun h => ?_, fun h => absurd h (hno x y)⟩
    obtain ⟨⟨hl, hr⟩, ht, hb⟩ := h
    dsimp only at hl hr ht hb
    rcases hempty with hz | hz
    · rw [hz] at hr
      omega
    · rw [hz] at hb
      omega
  · rw [fillRectangle]
    dsimp only
    rw [if_pos hempty]
  · intro x y k hx hy _ hin
    refine absurd ⟨hin, ?_⟩ (hno x y)
    exact ⟨⟨by dsimp only; omega, by dsimp only; omega⟩, ⟨by dsimp only; omega, by dsimp only; omega⟩⟩

theorem flat_misses {start : ℤ} {extent size : ℕ} (hf : Flat start extent size) (z : ℤ) :
    ¬ ((start ≤ z ∧ z < start+extent) ∧ (0 ≤ z ∧ z < 0+(size : ℤ))) := by
  rw [Flat] at hf
  omega

theorem clip_flat (hr : rect.InRange) (hne : rect.left+rect.width ≠ 0 ∧ rect.top+rect.height ≠ 0) :
    ((clip s rect).width = 0 ∨ (clip s rect).height = 0) ↔
      (Flat rect.left rect.width s.width ∨ Flat rect.top rect.height s.height) := by
  rw [clip_axes hr hne.1 hne.2]
  exact or_congr (axis_flat hr.left hr.right s.width_lt hne.1) (axis_flat hr.top hr.bottom s.height_lt hne.2)

/-- A rectangle that ends at an edge or is flat has no point on the screen. -/
theorem misses (h : rect.left+rect.width = 0 ∨ rect.top+rect.height = 0 ∨ Flat rect.left rect.width s.width ∨
    Flat rect.top rect.height s.height) : ∀ x y, ¬ (rect.Has x y ∧ Shows s x y) := by
  rintro x y ⟨⟨hx, hy⟩, hsx, hsy⟩
  dsimp only at hx hy hsx hsy
  rcases h with hz | hz | hf | hf
  · omega
  · omega
  · exact flat_misses hf x ⟨hx, hsx⟩
  · exact flat_misses hf y ⟨hy, hsy⟩

/-- What is drawn exactly reaches the screen on both axes: the corner of the clipped
rectangle is in both. -/
theorem reaches_of (hr : rect.InRange) (hne : rect.left+rect.width ≠ 0 ∧ rect.top+rect.height ≠ 0)
    (hflat : ¬(Flat rect.left rect.width s.width ∨ Flat rect.top rect.height s.height)) (he : Exactly s rect c) :
    Reaches rect.left rect.width s.width ∧ Reaches rect.top rect.height s.height ∧
      s.bytesPp*max rect.top 0*s.width < 2^31 := by
  have hpos := (not_congr (clip_flat hr hne)).mpr hflat
  have hclip := clip_axes (s := s) hr hne.1 hne.2
  rw [hclip, not_or] at hpos
  dsimp only at hpos
  have hcorner := (he.clipped (axis rect.left rect.width s.width).1 (axis rect.top rect.height s.height).1).mp (by
    rw [hclip]
    exact ⟨⟨le_rfl, by dsimp only; omega⟩, ⟨le_rfl, by dsimp only; omega⟩⟩)
  obtain ⟨⟨hx, hy⟩, hsx, hsy⟩ := hcorner
  refine ⟨?_, ?_, ?_⟩
  · by_contra hno
    exact axis_misses hno ⟨hx, hsx⟩
  · by_contra hno
    exact axis_misses hno ⟨hy, hsy⟩
  · by_contra hge
    obtain ⟨v, hv, -⟩ := he.drawn fun _ => 0
    have htop : (axis rect.top rect.height s.height).1 = max rect.top 0 := axis_first
    rw [fillRectangle, hclip] at hv
    dsimp only at hv
    rw [htop, if_neg (by omega), if_pos (.inr (not_lt.mp hge))] at hv
    cases hv

/-- A rectangle that reaches the screen on both axes is drawn exactly, if the offset of its
first row fits. -/
theorem reached_exactly (hr : rect.InRange) (hne : rect.left+rect.width ≠ 0 ∧ rect.top+rect.height ≠ 0)
    (hflat : ¬(Flat rect.left rect.width s.width ∨ Flat rect.top rect.height s.height))
    (hreach : Reaches rect.left rect.width s.width) (hreach' : Reaches rect.top rect.height s.height)
    (hrow : s.bytesPp*max rect.top 0*s.width < 2^31) : Exactly s rect c := by
  have hw := s.width_lt
  have hh := s.height_lt
  have hpos := (not_congr (clip_flat hr hne)).mpr hflat
  have hclip := clip_axes (s := s) hr hne.1 hne.2
  rw [hclip, not_or] at hpos
  dsimp only at hpos
  obtain ⟨hx, hxw, hxin⟩ := axis_reaches hr.left hr.right hw hreach
  obtain ⟨hy, hyh, hyin⟩ := axis_reaches hr.top hr.bottom hh hreach'
  have htop : (axis rect.top rect.height s.height).1 = max rect.top 0 := axis_first
  rw [← htop] at hrow
  generalize (axis rect.left rect.width s.width).2 = width at *
  generalize (axis rect.top rect.height s.height).2 = height at *
  obtain ⟨x, hxe⟩ := Int.eq_ofNat_of_zero_le hx
  obtain ⟨y, hye⟩ := Int.eq_ofNat_of_zero_le hy
  rw [hxe] at hclip hxw hxin
  rw [hye] at hclip hyh hyin hrow
  have hall : ∀ p q, (clip s rect).Has p q ↔ rect.Has p q ∧ Shows s p q := by
    intro p q
    rw [hclip]
    exact (and_congr (hxin p) (hyin q)).trans and_and_and_comm
  refine ⟨hall, fun m => ?_⟩
  have hrow' : s.bytesPp*y*s.width < 2^31 := by exact_mod_cast hrow
  obtain ⟨v, hv, htouch, hcolour, hother⟩ := @fill_drawn s rect c x y width height hclip (by omega)
    (by omega) (by omega) hrow' m
  refine ⟨v, hv, htouch, fun x' y' k hx' hy' hk hin => ?_, fun o ho => ?_⟩
  · have hboth := (hall x' y').mpr ⟨hin, ⟨⟨by dsimp only; omega, by dsimp only; omega⟩,
      ⟨by dsimp only; omega, by dsimp only; omega⟩⟩⟩
    rw [hclip] at hboth
    obtain ⟨⟨h1, h2⟩, h3, h4⟩ := hboth
    dsimp only at h1 h2 h3 h4
    exact hcolour x' y' k hk (by omega) (by omega) (by omega) (by omega)
  · obtain ⟨x', y', hx', hy', hbyte⟩ := hother o ho
    have hboth := (hall x' y').mp (by
      rw [hclip]
      exact ⟨⟨by dsimp only; omega, by dsimp only; omega⟩, ⟨by dsimp only; omega, by dsimp only; omega⟩⟩)
    exact ⟨x', y', by omega, by omega, hboth.1, hbyte⟩

/-- For every rectangle whose ends have their values in 32 bits, the clipped rectangle
is the intersection with the screen and exactly its pixels are drawn, in the memory of
the screen, if and only if the condition holds. -/
theorem rectangles_exact (s : Vbe) (rect : RectT) (c : Colour) (hr : rect.InRange) :
    Exactly s rect c ↔ Clear s rect := by
  by_cases hend : rect.left+rect.width = 0 ∨ rect.top+rect.height = 0
  · refine ⟨fun _ => ?_, fun _ => empty_exactly ?_ (misses ?_)⟩
    · rcases hend with hz | hz
      · exact .inl hz
      · exact .inr (.inl hz)
    · rw [clip_ended hr hend]
      exact .inl rfl
    · rcases hend with hz | hz
      · exact .inl hz
      · exact .inr (.inl hz)
  · have hne := not_or.mp hend
    by_cases hflats : Flat rect.left rect.width s.width ∨ Flat rect.top rect.height s.height
    · refine ⟨fun _ => ?_, fun _ => empty_exactly ((clip_flat hr hne).mpr hflats) (misses (.inr (.inr hflats)))⟩
      rcases hflats with hf | hf
      · exact .inr (.inr (.inl hf))
      · exact .inr (.inr (.inr (.inl hf)))
    · refine ⟨fun he => .inr (.inr (.inr (.inr (reaches_of hr hne hflats he)))), fun hclear => ?_⟩
      rcases hclear with hz | hz | hf | hf | ⟨hreach, hreach', hrow⟩
      · exact absurd hz hne.1
      · exact absurd hz hne.2
      · exact absurd (.inl hf) hflats
      · exact absurd (.inr hf) hflats
      · exact reached_exactly hr hne hflats hreach hreach' hrow

end Whole

/-- The mode that the loader sets, with 16 MiB of video memory. -/
def vesa : Vbe :=
  ⟨1024, 768, 3, 2^24, by decide, by decide, by decide, by decide, by decide, by decide⟩

theorem rectangles_exact_corner : Exactly vesa ⟨-5, -3, 20, 10⟩ ⟨1, 2, 3⟩ ↔ Clear vesa ⟨-5, -3, 20, 10⟩ :=
  rectangles_exact vesa ⟨-5, -3, 20, 10⟩ ⟨1, 2, 3⟩ ⟨by decide, by decide, by decide, by decide⟩

/-- A rectangle left of the screen is drawn over its whole width. -/
theorem offscreen_drawn : RectT.InRange ⟨-20, 0, 10, 10⟩ ∧ ¬ Exactly vesa ⟨-20, 0, 10, 10⟩ ⟨1, 2, 3⟩ := by
  refine ⟨⟨by decide, by decide, by decide, by decide⟩, fun he => ?_⟩
  have hclip : clip vesa ⟨-20, 0, 10, 10⟩ = ⟨0, 0, 1024, 10⟩ := by decide
  have hiff := he.clipped 0 0
  rw [hclip] at hiff
  have hin := (hiff.mp ⟨by decide, by decide⟩).1
  exact absurd hin.1.2 (by decide)

end BabyOS.ScreenRectangles

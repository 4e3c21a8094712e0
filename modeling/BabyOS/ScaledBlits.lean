import BabyOS.FixedPoint
import BabyOS.RectIntersections

/-!
# Blits that scale

`copy_row` and `lower_blit_scaled`, one loop inside the other, both with a 16.16
fixed-point position in the source. The source is not written while it is read. A result
that is no `int` ends a run.
-/

set_option autoImplicit false

namespace BabyOS.ScaledBlits
open BabyOS.ByteWords BabyOS.PixelGrids BabyOS.Surfaces BabyOS.RectIntersections BabyOS.FixedPoint

/-- The four bytes of a `uint32_t`. -/
abbrev Pixel : Type := Fin 4 → Byte

/-- What is at an address of the source. -/
def load (src : Memory) (a : ℤ) : Pixel := fun k => src (a+k)

/-- The pixels that were read and the ones that were written, in their order. -/
structure Trace where
  reads : List ℤ
  writes : List (ℤ × Pixel)

/-- The variables of `copy_row`. -/
structure Row where
  pixel : Pixel
  src : ℤ
  dst : ℤ
  trace : Trace

/-- `pixel = *src++` -/
def takePixel (mem : Memory) (r : Row) : Option Row :=
  some { r with
    pixel := load mem r.src
    src := r.src+4
    trace := { r.trace with reads := r.trace.reads ++ [r.src] } }

/-- `*dst++ = pixel` -/
def putPixel (r : Row) : Option Row :=
  some { r with
    dst := r.dst+4
    trace := { r.trace with writes := r.trace.writes ++ [(r.dst, r.pixel)] } }

/-- `(src << 16) / dst` -/
def increment (src dst : ℤ) : Option ℤ := do
  let shifted ← int (src*2^16)
  if dst = 0 then none else int (shifted.tdiv dst)

def copyRow (mem : Memory) (src : ℤ) (srcW : ℤ) (dst : ℤ) (dstW : ℤ) (t : Trace) : Option Trace := do
  let inc ← increment srcW dstW
  let (_, r) ← scale int (takePixel mem) putPixel inc dstW.toNat one ⟨0, src, dst, t⟩
  return r.trace

/-- The variables of `lower_blit_scaled`. -/
structure Rows where
  srcRow : ℤ
  dstRow : ℤ
  srcp : ℤ
  trace : Trace

/-- A surface's pixels and the length of its rows. -/
structure Picture where
  pixels : ℤ
  pitch : ℤ

/-- `m_pixels + (row * m_pitch) + (x * m_bpp)` -/
def pointer (p : Picture) (row x : ℤ) : Option ℤ := do
  return p.pixels+(← int (row*p.pitch))+(← int (x*bpp))

def takeRow (src : Picture) (srcrect : Rect) (r : Rows) : Option Rows := do
  let srcp ← pointer src r.srcRow srcrect.x
  let srcRow ← int (r.srcRow+1)
  return { r with srcRow, srcp }

/-- The copy of a row, and `++dst_row`. -/
def putRow (mem : Memory) (dst : Picture) (srcrect dstrect : Rect) (r : Rows) : Option Rows := do
  let dstp ← pointer dst r.dstRow dstrect.x
  let trace ← copyRow mem r.srcp srcrect.w dstp dstrect.w r.trace
  return { r with dstRow := r.dstRow+1, trace }

def lowerBlitScaled (mem : Memory) (src dst : Picture) (srcrect dstrect : Rect) (t : Trace) :
    Option (ℤ × Trace) := do
  let inc ← increment srcrect.h dstrect.h
  let dstMaxrow ← int (dstrect.y+dstrect.h)
  let (_, r) ← scale int (takeRow src srcrect) (putRow mem dst srcrect dstrect) inc
    (dstMaxrow-dstrect.y).toNat one ⟨srcrect.y, dstrect.y, 0, t⟩
  return (0, r.trace)

/-! ## The increment -/

/-- Which of `m` things is found at the `i`-th of `n` places. -/
def sourceIndex (m n i : ℕ) : ℕ := i*(m*65536/n)/65536

theorem sourceIndex_eq (m n i : ℕ) : sourceIndex m n i = index (m*one/n) i := rfl

section Sizes

variable {m n : ℕ}

theorem increment_eq (hm : m < 2^15) (hn : 0 < n) : increment m n = some ((m*one/n : ℕ) : ℤ) := by
  have hshift : int ((m : ℤ)*2^16) = some ((m*one : ℕ) : ℤ) := by
    rw [int_some (by rw [IsInt]; omega), one]
    push_cast
    rfl
  have hle : m*one/n ≤ m*one := Nat.div_le_self _ _
  have hint : IsInt ((m*one/n : ℕ) : ℤ) := by
    generalize m*one/n = inc at hle
    rw [one] at hle
    rw [IsInt]
    omega
  rw [increment, hshift, Option.bind_eq_bind, Option.bind_some, if_neg (by omega), Int.ofNat_tdiv]
  exact int_some hint

/-- The counter does not get beyond what an `int` holds. -/
theorem counter_int (hm : m < 2^15) {z : ℤ} (hz : 0 ≤ z) (hlt : z < one+(m*one/n : ℕ)) : int z = some z := by
  have hle : m*one/n ≤ m*one := Nat.div_le_self _ _
  refine int_some ?_
  generalize m*one/n = inc at hle hlt
  rw [one] at hle hlt
  rw [IsInt]
  omega

end Sizes

/-! ## Rows of pixels -/

/-- The address of the `k`-th pixel of a row. -/
def pixelAt (a : ℤ) (k : ℕ) : ℤ := a+k*bpp

/-- The address of a pixel of a picture. -/
def place (p : Picture) (row x : ℤ) : ℤ := p.pixels+row*p.pitch+x*bpp

theorem pixelAt_zero (a : ℤ) : pixelAt a 0 = a := by
  simp [pixelAt]

theorem pixelAt_succ (a : ℤ) (k : ℕ) : pixelAt a k+4 = pixelAt a (k+1) := by
  rw [pixelAt, pixelAt, bpp]
  push_cast
  ring

theorem pixelAt_place (p : Picture) (row x : ℤ) (k : ℕ) : pixelAt (place p row x) k = place p row (x+k) := by
  rw [pixelAt, place, place]
  ring

/-- The offsets of the rows of a rectangle are `int`s, and so are the rows. -/
structure Addressable (p : Picture) (r : Rect) : Prop where
  top : IsInt r.y
  bottom : IsInt (r.y+r.h)
  rows : ∀ y, r.y ≤ y → y < r.y+r.h → IsInt (y*p.pitch)
  column : IsInt (r.x*bpp)

theorem Addressable.pointer_eq {p : Picture} {r : Rect} (h : Addressable p r) {y : ℤ} (hy : r.y ≤ y) (hlt : y < r.y+r.h) :
    pointer p y r.x = some (place p y r.x) := by
  rw [pointer, int_some (h.rows y hy hlt), int_some h.column]
  rfl

/-- The first `n` pixels of a row are read. -/
def rowReads (src : ℤ) (n : ℕ) : List ℤ := (List.range n).map (pixelAt src)

/-- `n` pixels of a row are written, the `i`-th with pixel `f i` of the source. -/
def rowWrites (mem : Memory) (src dst : ℤ) (f : ℕ → ℕ) (n : ℕ) : List (ℤ × Pixel) :=
  (List.range n).map fun i => (pixelAt dst i, load mem (pixelAt src (f i)))

section Pixels

variable {mem : Memory} {src dst : ℤ} {t : Trace} {m n : ℕ}

/-- After `r` pixels were read and `i` written. -/
structure RowInv (mem : Memory) (src dst : ℤ) (t : Trace) (inc r i : ℕ) (q : Row) : Prop where
  source : q.src = pixelAt src r
  target : q.dst = pixelAt dst i
  pixel : ∀ k, r = k+1 → q.pixel = load mem (pixelAt src k)
  trace : q.trace = ⟨t.reads ++ rowReads src r, t.writes ++ rowWrites mem src dst (index inc) i⟩

theorem row_keeps (mem : Memory) (src dst : ℤ) (t : Trace) (inc n : ℕ) :
    Keeps (takePixel mem) putPixel inc n (RowInv mem src dst t inc) := by
  constructor
  · intro i r q _ _ h
    refine ⟨_, rfl, ?_, h.target, ?_, ?_⟩
    · change q.src+4 = _
      rw [h.source, pixelAt_succ]
    · intro k hk
      obtain rfl : r = k := Nat.succ.inj hk
      change load mem q.src = _
      rw [h.source]
    · simp only [h.trace, h.source, rowReads, List.range_succ, List.map_append, List.append_assoc, List.map_cons, List.map_nil]
  · intro i q _ h
    refine ⟨_, rfl, h.source, ?_, h.pixel, ?_⟩
    · change q.dst+4 = _
      rw [h.target, pixelAt_succ]
    · simp only [h.trace, h.target, h.pixel _ rfl, rowWrites, List.range_succ, List.map_append, List.append_assoc,
        List.map_cons, List.map_nil]

theorem copyRow_trace (mem : Memory) (src dst : ℤ) (t : Trace) (hm : m < 2^15) (hn : 0 < n) :
    copyRow mem src m dst n t = some ⟨t.reads ++ rowReads src (taken (m*one/n) n),
      t.writes ++ rowWrites mem src dst (sourceIndex m n) n⟩ := by
  have hstart : RowInv mem src dst t (m*one/n) 0 0 ⟨0, src, dst, t⟩ := by
    refine ⟨(pixelAt_zero src).symm, (pixelAt_zero dst).symm, fun k hk => absurd hk (by omega), ?_⟩
    simp [rowReads, rowWrites]
  obtain ⟨pos, q, hrun, hend⟩ := scale_run (row_keeps mem src dst t (m*one/n) n)
    (fun z hz hlt => counter_int hm hz hlt) hstart
  rw [copyRow, increment_eq hm hn, Option.bind_eq_bind, Option.bind_some, Int.toNat_natCast, hrun,
    Option.bind_eq_bind, Option.bind_some]
  exact congrArg some hend.trace

/-- What is read of a row lies in it. -/
theorem taken_le_size (hm : 0 < m) (n : ℕ) : taken (m*one/n) n ≤ m := by
  cases n with
  | zero => exact Nat.zero_le _
  | succ n => exact index_lt hm (Nat.lt_succ_self n)

theorem sourceIndex_lt {i : ℕ} (hm : 0 < m) (hi : i < n) : sourceIndex m n i < m := by
  rw [sourceIndex_eq]
  exact index_lt hm hi

end Pixels

/-! ## The rows of a rectangle -/

section Rectangles

variable {mem : Memory} {src dst : Picture} {t : Trace} {sx sy dx dy : ℤ} {m n p q : ℕ}

/-- The reads of the row that was found for the `j`-th one. -/
def reads (src : Picture) (sx sy : ℤ) (m n p q : ℕ) (j : ℕ) : List ℤ :=
  rowReads (place src (sy+sourceIndex p q j) sx) (taken (m*one/n) n)

def writes (mem : Memory) (src dst : Picture) (sx sy dx dy : ℤ) (m n p q : ℕ) (j : ℕ) : List (ℤ × Pixel) :=
  rowWrites mem (place src (sy+sourceIndex p q j) sx) (place dst (dy+j) dx)
    (sourceIndex m n) n

/-- After `r` rows were found and `j` copied. -/
structure RowsInv (mem : Memory) (src dst : Picture) (t : Trace) (sx sy dx dy : ℤ) (m n p q : ℕ)
    (r j : ℕ) (s : Rows) : Prop where
  srcRow : s.srcRow = sy+r
  dstRow : s.dstRow = dy+j
  srcp : ∀ k, r = k+1 → s.srcp = place src (sy+k) sx
  trace : s.trace = ⟨t.reads ++ (List.range j).flatMap (reads src sx sy m n p q),
    t.writes ++ (List.range j).flatMap (writes mem src dst sx sy dx dy m n p q)⟩

theorem rows_keep (mem : Memory) (t : Trace) (hm : m < 2^15) (hn : 0 < n) (hp : 0 < p)
    (hsrc : Addressable src ⟨sx, sy, m, p⟩) (hdst : Addressable dst ⟨dx, dy, n, q⟩) :
    Keeps (takeRow src ⟨sx, sy, m, p⟩) (putRow mem dst ⟨sx, sy, m, p⟩ ⟨dx, dy, n, q⟩) (p*one/q) q
      (RowsInv mem src dst t sx sy dx dy m n p q) := by
  constructor
  · intro j r s hj hr h
    have hlt : r < p := hr.trans_lt (index_lt hp hj)
    have hint : int (s.srcRow+1) = some (s.srcRow+1) := by
      have htop := hsrc.top
      have hbottom := hsrc.bottom
      refine int_some ?_
      rw [h.srcRow]
      simp only [IsInt] at htop hbottom ⊢
      omega
    have hpointer : pointer src s.srcRow sx = some (place src (sy+r) sx) := by
      rw [h.srcRow]
      exact hsrc.pointer_eq (y := sy+r) (by simp) (by simpa using hlt)
    rw [takeRow, hpointer, Option.bind_eq_bind, Option.bind_some, hint, Option.bind_some]
    refine ⟨_, rfl, ?_, h.dstRow, ?_, h.trace⟩
    · change s.srcRow+1 = _
      rw [h.srcRow]
      push_cast
      ring
    · intro k hk
      obtain rfl : r = k := Nat.succ.inj hk
      rfl
  · intro j s hj h
    have hpointer : pointer dst s.dstRow dx = some (place dst (dy+j) dx) := by
      rw [h.dstRow]
      exact hdst.pointer_eq (y := dy+j) (by simp) (by simpa using hj)
    have hrow := copyRow_trace mem s.srcp (place dst (dy+j) dx) s.trace hm hn
    rw [putRow, hpointer, Option.bind_eq_bind, Option.bind_some, hrow, Option.bind_eq_bind, Option.bind_some]
    refine ⟨_, rfl, h.srcRow, ?_, h.srcp, ?_⟩
    · change s.dstRow+1 = _
      rw [h.dstRow]
      push_cast
      ring
    · simp only [h.trace, h.srcp _ rfl, List.range_succ, List.flatMap_append, List.flatMap_cons,
        List.flatMap_nil, List.append_nil, List.append_assoc]
      rfl

theorem lowerBlitScaled_trace (mem : Memory) (t : Trace) (hm : m < 2^15) (hn : 0 < n) (hp : 0 < p) (hpl : p < 2^15)
    (hq : 0 < q) (hsrc : Addressable src ⟨sx, sy, m, p⟩) (hdst : Addressable dst ⟨dx, dy, n, q⟩) :
    lowerBlitScaled mem src dst ⟨sx, sy, m, p⟩ ⟨dx, dy, n, q⟩ t = some (0,
      ⟨t.reads ++ (List.range q).flatMap (reads src sx sy m n p q),
        t.writes ++ (List.range q).flatMap (writes mem src dst sx sy dx dy m n p q)⟩) := by
  have hstart : RowsInv mem src dst t sx sy dx dy m n p q 0 0 ⟨sy, dy, 0, t⟩ := by
    refine ⟨?_, ?_, fun k hk => absurd hk (by omega), ?_⟩ <;> simp
  obtain ⟨pos, s, hrun, hinv⟩ := scale_run (rows_keep mem t hm hn hp hsrc hdst)
    (fun z hz hlt => counter_int hpl hz hlt) hstart
  have hend : IsInt (dy+q) := hdst.bottom
  have hcount : (dy+q-dy).toNat = q := by omega
  rw [lowerBlitScaled, increment_eq hpl hq, Option.bind_eq_bind, Option.bind_some, int_some hend,
    Option.bind_eq_bind, Option.bind_some, hcount, hrun, Option.bind_some]
  exact congrArg (fun t => some ((0 : ℤ), t)) hinv.trace

end Rectangles

/-- `copy_row` writes `n` pixels, each with the pixel at its index in the source row, of
which it reads the first `c`, and `lower_blit_scaled` does the same with the rows. -/
theorem scaled_copies (mem : Memory) (m n : ℕ) (hm : 0 < m) (hml : m < 2^15) (hn : 0 < n) :
    ∃ c ≤ m,
      (∀ (src dst : ℤ) (t : Trace), copyRow mem src m dst n t =
        some ⟨t.reads ++ (List.range c).map (pixelAt src),
          t.writes ++ (List.range n).map fun i => (pixelAt dst i, load mem (pixelAt src (sourceIndex m n i)))⟩) ∧
      (∀ i < n, sourceIndex m n i < c) ∧
      ∀ (src dst : Picture) (t : Trace) (sx sy dx dy : ℤ) (p q : ℕ), 0 < p → p < 2^15 → 0 < q →
        Addressable src ⟨sx, sy, m, p⟩ → Addressable dst ⟨dx, dy, n, q⟩ →
        lowerBlitScaled mem src dst ⟨sx, sy, m, p⟩ ⟨dx, dy, n, q⟩ t = some (0,
          ⟨t.reads ++ (List.range q).flatMap fun j : ℕ => (List.range c).map fun k : ℕ =>
              place src (sy+sourceIndex p q j) (sx+k),
            t.writes ++ (List.range q).flatMap fun j : ℕ => (List.range n).map fun i : ℕ =>
              (place dst (dy+j) (dx+i), load mem (place src (sy+sourceIndex p q j) (sx+sourceIndex m n i)))⟩) ∧
        ∀ j < q, (∀ k < c, (⟨sx, sy, m, p⟩ : Rect).Has (sx+k) (sy+sourceIndex p q j)) ∧
          ∀ i < n, (⟨dx, dy, n, q⟩ : Rect).Has (dx+i) (dy+j) := by
  have hc : taken (m*one/n) n ≤ m := taken_le_size hm n
  refine ⟨taken (m*one/n) n, hc, fun s d t => copyRow_trace mem s d t hml hn, ?_, ?_⟩
  · intro i hi
    cases n with
    | zero => exact absurd hi (Nat.not_lt_zero i)
    | succ n => exact Nat.lt_succ_of_le (index_mono _ (Nat.le_of_lt_succ hi))
  intro src dst t sx sy dx dy p q hp hpl hq hsrc hdst
  constructor
  · have hreads : reads src sx sy m n p q = fun j : ℕ => (List.range (taken (m*one/n) n)).map fun k : ℕ =>
        place src (sy+sourceIndex p q j) (sx+k) := by
      funext j
      exact List.map_congr_left fun k _ => pixelAt_place _ _ _ k
    have hwrites : writes mem src dst sx sy dx dy m n p q = fun j : ℕ => (List.range n).map fun i : ℕ =>
        (place dst (dy+j) (dx+i), load mem (place src (sy+sourceIndex p q j) (sx+sourceIndex m n i))) := by
      funext j
      refine List.map_congr_left fun i _ => ?_
      rw [pixelAt_place, pixelAt_place]
    rw [lowerBlitScaled_trace mem t hml hn hp hpl hq hsrc hdst, hreads, hwrites]
  · intro j hj
    have hrow : sourceIndex p q j < p := sourceIndex_lt hp hj
    constructor
    · intro k hk
      simp only [Rect.Has]
      omega
    · intro i hi
      simp only [Rect.Has]
      omega

/-- In a small picture everything from the first pixel on can be addressed. -/
theorem small_addressable {p : Picture} {h : ℕ} (w : ℕ) (hpitch : 0 ≤ p.pitch) (hlt : p.pitch < 2^15) (hh : h < 2^15) :
    Addressable p ⟨0, 0, w, h⟩ := by
  refine ⟨?_, ?_, fun y hy hyh => ?_, ?_⟩
  · change IsInt 0
    decide
  · simp only [IsInt]
    omega
  · simp only [IsInt, zero_add] at hy hyh ⊢
    constructor
    · nlinarith
    · nlinarith
  · change IsInt (0*bpp)
    decide

/-- The byte at an address is the address. -/
def counting : Memory := BitVec.ofInt 8

/-- Rows of three pixels out of rows of two, and two rows out of one. -/
theorem enlarged_picture :
    (∃ t, copyRow counting 0x1000 2 0x2000 3 ⟨[], []⟩ = some t ∧ t.writes =
      [(0x2000, load counting 0x1000), (0x2004, load counting 0x1000), (0x2008, load counting 0x1004)]) ∧
    ∃ t, lowerBlitScaled counting ⟨0x1000, 8⟩ ⟨0x2000, 12⟩ ⟨0, 0, 2, 1⟩ ⟨0, 0, 3, 2⟩ ⟨[], []⟩ = some (0, t) := by
  obtain ⟨c, -, hrow, -, hblit⟩ := scaled_copies counting 2 3 (by decide) (by decide) (by decide)
  have hend := hblit ⟨0x1000, 8⟩ ⟨0x2000, 12⟩ ⟨[], []⟩ 0 0 0 0 1 2 (by decide) (by decide) (by decide)
    (small_addressable 2 (by decide) (by decide) (by decide)) (small_addressable 3 (by decide) (by decide) (by decide))
  exact ⟨⟨_, hrow 0x1000 0x2000 ⟨[], []⟩, rfl⟩, _, hend.1⟩

end BabyOS.ScaledBlits

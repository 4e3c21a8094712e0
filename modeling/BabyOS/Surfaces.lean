import BabyOS.ByteWords
import BabyOS.PixelGrids

/-!
# Surfaces

`surface_t` and its two blits without scaling. The source and the destination have
their own pixels, at offsets from `m_pixels` that may be wrong ones, before the first
pixel or behind the last. Coordinates are integers: calls in which a sum of them
overflows are left out.
-/

set_option autoImplicit false

namespace BabyOS.Surfaces
open BabyOS.ByteWords BabyOS.PixelGrids

abbrev Memory : Type := ℤ → Byte

def bpp : ℤ := 4

/-- `surface_t`: a row has room for its pixels, and the clip rectangle does not reach
out of the surface. -/
structure Surface where
  width : ℕ
  height : ℕ
  pitch : ℕ
  clipRect : Rect
  row : 4*width ≤ pitch
  int : pitch < 2^31
  left : 0 ≤ clipRect.x
  right : clipRect.x+clipRect.w ≤ width
  top : 0 ≤ clipRect.y
  bottom : clipRect.y+clipRect.h ≤ height

/-- The pixels of the destination, and the offsets and lengths of what was read of the
source and written. -/
structure Drawing where
  pixels : Memory
  reads : List (ℤ × ℤ)
  writes : List (ℤ × ℤ)

/-! ## Rows -/

def memcpy (src : Memory) (dst s n : ℤ) (d : Drawing) : Drawing :=
  ⟨fun o => if dst ≤ o ∧ o < dst+n then src (s+(o-dst)) else d.pixels o, (s, n) :: d.reads, (dst, n) :: d.writes⟩

/-- One row of `lower_blit`, from the pointers to the two rows. -/
def copyLine (src : Memory) (srcX dstX w : ℤ) (srcPixels dstPixels : ℤ) (d : Drawing) : Option Drawing :=
  some (memcpy src (dstPixels+bpp*dstX) (srcPixels+bpp*srcX) (bpp*w) d)

/-- A byte of a pixel that is blended: the fourth one is the source's alpha, the others
are mixed by it. -/
def blended (mix : Byte → Byte → Byte → Byte) (s d : ℕ → Byte) (k : ℕ) : Byte :=
  if k = 3 then s 3
  else if s 3 = 0 then d k
  else if s 3 = 0xff then s k
  else mix (s k) (s 3) (d k)

/-- The body of the loop in `lower_blit_alpha`, at the two pixels. -/
def blendPixel (mix : Byte → Byte → Byte → Byte) (src : Memory) (s o : ℤ) (d : Drawing) : Drawing :=
  let sp := fun k : ℕ => src (s+k)
  let dp := fun k : ℕ => d.pixels (o+k)
  ⟨Function.update (Function.update (Function.update (Function.update d.pixels (o+3) (blended mix sp dp 3))
    o (blended mix sp dp 0)) (o+1) (blended mix sp dp 1)) (o+2) (blended mix sp dp 2),
    (s, 4) :: d.reads, (o, 4) :: d.writes⟩

/-- The value as a `uint32_t`. -/
def u32 (z : ℤ) : ℤ := z%2^32

/-- The value is an `int`. -/
def IsInt (z : ℤ) : Prop := -2^31 ≤ z ∧ z < 2^31

instance (z : ℤ) : Decidable (IsInt z) := inferInstanceAs (Decidable (_ ∧ _))

/-- One row of `lower_blit_alpha`: `n` pixels from `x` on. `none` is an overflow of an
`int` product. -/
def blendFrom (mix : Byte → Byte → Byte → Byte) (src : Memory) (srcX dstX srcPixels dstPixels : ℤ) :
    ℕ → ℤ → Drawing → Option Drawing
  | 0, _, d => some d
  | n+1, x, d =>
    if IsInt (bpp*(srcX+x)) ∧ IsInt (bpp*(dstX+x)) then
      let offsetSrc := u32 (bpp*(srcX+x))
      let offsetDst := u32 (bpp*(dstX+x))
      blendFrom mix src srcX dstX srcPixels dstPixels n (x+1)
        (blendPixel mix src (srcPixels+offsetSrc) (dstPixels+offsetDst) d)
    else none

def blendLine (mix : Byte → Byte → Byte → Byte) (src : Memory) (srcX dstX w : ℤ) (srcPixels dstPixels : ℤ)
    (d : Drawing) : Option Drawing :=
  blendFrom mix src srcX dstX srcPixels dstPixels w.toNat 0 d

/-- What a row does: of the columns, the width, and the pointers to the rows. -/
abbrev Line : Type := Memory → ℤ → ℤ → ℤ → ℤ → ℤ → Drawing → Option Drawing

/-- The loop over the rows. -/
def rows (line : ℤ → ℤ → Drawing → Option Drawing) (srcPitch dstPitch : ℤ) :
    ℕ → ℤ → ℤ → Drawing → Option Drawing
  | 0, _, _, d => some d
  | n+1, srcPixels, dstPixels, d =>
    (line srcPixels dstPixels d).bind (rows line srcPitch dstPitch n (srcPixels+srcPitch) (dstPixels+dstPitch))

/-- What `lower_blit` and `lower_blit_alpha` have in common: the status and the pixels.
They are called with a positive height. -/
def lower (line : Line) (src dst : Surface) (pixels : Memory) (srcrect dstrect : Rect) (d : Drawing) :
    Option (ℤ × Drawing) :=
  if srcrect.w ≠ dstrect.w ∨ srcrect.h ≠ dstrect.h then some (-1, d)
  else
    let srcPixels := src.pitch*srcrect.y
    let dstPixels := dst.pitch*dstrect.y
    (rows (line pixels srcrect.x dstrect.x srcrect.w) src.pitch dst.pitch dstrect.h.toNat
      srcPixels dstPixels d).map fun d => (0, d)

def lowerBlit : Surface → Surface → Memory → Rect → Rect → Drawing → Option (ℤ × Drawing) := lower copyLine

def lowerBlitAlpha (mix : Byte → Byte → Byte → Byte) :
    Surface → Surface → Memory → Rect → Rect → Drawing → Option (ℤ × Drawing) :=
  lower (blendLine mix)

/-! ## Clipping -/

/-- The variables `srcx`, `srcy`, `w` and `h`, and the destination's corner. -/
structure Fit where
  srcx : ℤ
  srcy : ℤ
  w : ℤ
  h : ℤ
  x : ℤ
  y : ℤ

/-- Against the source. A negative `srcx` stays, a negative `srcy` becomes 0. -/
def fitSource (src : Surface) (srcrect : Option Rect) (dstrect : Rect) : Fit :=
  match srcrect with
  | none => ⟨0, 0, src.width, src.height, dstrect.x, dstrect.y⟩
  | some r =>
    let f : Fit := ⟨r.x, r.y, r.w, r.h, dstrect.x, dstrect.y⟩
    let f := if f.srcx < 0 then { f with w := f.w+f.srcx, x := f.x-f.srcx } else f
    let maxw := src.width-f.srcx
    let f := if maxw < f.w then { f with w := maxw } else f
    let f := if f.srcy < 0 then { f with h := f.h+f.srcy, y := f.y-f.srcy, srcy := 0 } else f
    let maxh := src.height-f.srcy
    if maxh < f.h then { f with h := maxh } else f

/-- Against the clip rectangle. -/
def fitClip (clip : Rect) (f : Fit) : Fit :=
  let dx := clip.x-f.x
  let f := if dx > 0 then { f with w := f.w-dx, x := f.x+dx, srcx := f.srcx+dx } else f
  let dx := f.x+f.w-clip.x-clip.w
  let f := if dx > 0 then { f with w := f.w-dx } else f
  let dy := clip.y-f.y
  let f := if dy > 0 then { f with h := f.h-dy, y := f.y+dy, srcy := f.srcy+dy } else f
  let dy := f.y+f.h-clip.y-clip.h
  if dy > 0 then { f with h := f.h-dy } else f

/-- What `blit` and `blit_alpha` have in common: the status, the destination's rectangle
and the pixels. -/
def blitWith (lower : Surface → Surface → Memory → Rect → Rect → Drawing → Option (ℤ × Drawing))
    (src dst : Surface) (pixels : Memory) (srcrect dstrect : Option Rect) (d : Drawing) :
    Option (ℤ × Rect × Drawing) :=
  let dstrect := dstrect.getD ⟨0, 0, dst.width, dst.height⟩
  let f := fitClip dst.clipRect (fitSource src srcrect dstrect)
  if f.w > 0 ∧ f.h > 0 then
    let dstrect : Rect := ⟨f.x, f.y, f.w, f.h⟩
    (lower src dst pixels ⟨f.srcx, f.srcy, f.w, f.h⟩ dstrect d).map fun r => (r.1, dstrect, r.2)
  else some (0, ⟨f.x, f.y, 0, 0⟩, d)

def blit : Surface → Surface → Memory → Option Rect → Option Rect → Drawing → Option (ℤ × Rect × Drawing) :=
  blitWith lowerBlit

def blitAlpha (mix : Byte → Byte → Byte → Byte) :
    Surface → Surface → Memory → Option Rect → Option Rect → Drawing → Option (ℤ × Rect × Drawing) :=
  blitWith (lowerBlitAlpha mix)

/-! ## What a row does -/

/-- A row that has been drawn: pixel `i` is made of the source's bytes at `off i` in its
row and of what it was. `off` is the place of the pixel where that is an offset. -/
structure LineRun (op : (ℕ → Byte) → (ℕ → Byte) → ℕ → Byte) (off : ℕ → ℤ) (src : Memory)
    (srcX dstX w sp dp : ℤ) (d d' : Drawing) : Prop where
  pixels : ∀ i k : ℕ, (i : ℤ) < w → k < 4 → d'.pixels (dp+bpp*(dstX+i)+k) =
    op (fun j => src (sp+off i+j)) (fun j => d.pixels (dp+bpp*(dstX+i)+j)) k
  others : ∀ o, o < dp+bpp*dstX ∨ dp+bpp*(dstX+w) ≤ o → d'.pixels o = d.pixels o
  writes : ∀ t ∈ d'.writes, t ∈ d.writes ∨ dp+bpp*dstX ≤ t.1 ∧ t.1+t.2 ≤ dp+bpp*(dstX+w)
  reads : 0 ≤ srcX → bpp*(srcX+w) < 2^31 →
    ∀ t ∈ d'.reads, t ∈ d.reads ∨ sp+bpp*srcX ≤ t.1 ∧ t.1+t.2 ≤ sp+bpp*(srcX+w)
  place : ∀ i : ℕ, (i : ℤ) < w → 0 ≤ srcX+i → bpp*(srcX+i) < 2^31 → off i = bpp*(srcX+i)
  column : ∀ i : ℕ, (i : ℤ) < w → ∀ p, 0 ≤ p → bpp*p < 2^31 → off i = bpp*p → srcX+i = p

/-- A row of a blit whose pixels are made by `op`. -/
structure Lines (line : Line) (op : (ℕ → Byte) → (ℕ → Byte) → ℕ → Byte) : Prop where
  last : ∀ s d, op s d 3 = s 3
  runs : ∀ {src srcX dstX w sp dp d d'}, 0 ≤ dstX → bpp*(dstX+w) < 2^31 →
    line src srcX dstX w sp dp d = some d' → ∃ off, LineRun op off src srcX dstX w sp dp d d'
  ends : ∀ {src srcX dstX w sp dp d}, 0 ≤ dstX → bpp*(dstX+w) < 2^31 → 0 ≤ srcX → bpp*(srcX+w) < 2^31 →
    ∃ d', line src srcX dstX w sp dp d = some d'

section Rows

variable {src : Memory} {srcX dstX w sp dp : ℤ} {d d' : Drawing} {mix : Byte → Byte → Byte → Byte}

theorem copy_lines : Lines copyLine fun s _ k => s k := by
  refine ⟨fun s d => rfl, fun {src srcX dstX w sp dp d d'} hdst hfit hrun => ?_, fun _ _ _ _ => ⟨_, rfl⟩⟩
  cases hrun
  refine ⟨fun i => bpp*(srcX+i), ?_, ?_, ?_, ?_, fun i _ _ _ => rfl, fun i _ p _ _ heq => ?_⟩
  · intro i k hi hk
    have hin : dp+bpp*dstX ≤ dp+bpp*(dstX+i)+k ∧ dp+bpp*(dstX+i)+k < dp+bpp*dstX+bpp*w := by
      rw [bpp]
      omega
    change (if _ then _ else _) = _
    rw [if_pos hin]
    refine congrArg src ?_
    rw [bpp]
    omega
  · intro o ho
    refine if_neg ?_
    rw [bpp] at ho ⊢
    omega
  · intro t ht
    rcases List.mem_cons.mp ht with rfl | ht
    · refine .inr ⟨le_rfl, ?_⟩
      dsimp only
      rw [bpp]
      omega
    · exact .inl ht
  · intro _ _ t ht
    rcases List.mem_cons.mp ht with rfl | ht
    · refine .inr ⟨le_rfl, ?_⟩
      dsimp only
      rw [bpp]
      omega
    · exact .inl ht
  · rw [bpp] at heq
    omega

/-- The four bytes of a pixel. -/
theorem blendPixel_in (mix : Byte → Byte → Byte → Byte) (src : Memory) (s o : ℤ) (d : Drawing) {k : ℕ} (hk : k < 4) :
    (blendPixel mix src s o d).pixels (o+k) =
      blended mix (fun j => src (s+j)) (fun j => d.pixels (o+j)) k := by
  have hcases : k = 0 ∨ k = 1 ∨ k = 2 ∨ k = 3 := by omega
  change Function.update (Function.update (Function.update (Function.update _ _ _) _ _) _ _) _ _ _ = _
  rcases hcases with rfl | rfl | rfl | rfl
  · rw [Function.update_of_ne (by omega), Function.update_of_ne (by omega)]
    have hzero : o+(0 : ℕ) = o := add_zero o
    rw [hzero, Function.update_self]
  · rw [Function.update_of_ne (by omega)]
    exact Function.update_self _ _ _
  · exact Function.update_self _ _ _
  · rw [Function.update_of_ne (by omega), Function.update_of_ne (by omega), Function.update_of_ne (by omega)]
    exact Function.update_self _ _ _

theorem blendPixel_out (mix : Byte → Byte → Byte → Byte) (src : Memory) (s o : ℤ) (d : Drawing) {q : ℤ}
    (hq : q < o ∨ o+4 ≤ q) : (blendPixel mix src s o d).pixels q = d.pixels q := by
  change Function.update (Function.update (Function.update (Function.update _ _ _) _ _) _ _) _ _ _ = _
  rw [Function.update_of_ne (by omega), Function.update_of_ne (by omega), Function.update_of_ne (by omega),
    Function.update_of_ne (by omega)]

theorem u32_eq {z : ℤ} (h : 0 ≤ z) (hlt : z < 2^31) : u32 z = z := by
  rw [u32]
  omega

/-- The pixels from `x` on. -/
structure BlendRun (mix : Byte → Byte → Byte → Byte) (src : Memory) (srcX dstX sp dp : ℤ) (n : ℕ) (x : ℤ)
    (d d' : Drawing) : Prop where
  pixels : ∀ i k : ℕ, x ≤ i → (i : ℤ) < x+n → k < 4 → d'.pixels (dp+bpp*(dstX+i)+k) =
    blended mix (fun j => src (sp+u32 (bpp*(srcX+i))+j)) (fun j => d.pixels (dp+bpp*(dstX+i)+j)) k
  others : ∀ o, o < dp+bpp*(dstX+x) ∨ dp+bpp*(dstX+x+n) ≤ o → d'.pixels o = d.pixels o
  writes : ∀ t ∈ d'.writes, t ∈ d.writes ∨ dp+bpp*dstX ≤ t.1 ∧ t.1+t.2 ≤ dp+bpp*(dstX+x+n)
  reads : 0 ≤ srcX → bpp*(srcX+x+n) < 2^31 →
    ∀ t ∈ d'.reads, t ∈ d.reads ∨ sp+bpp*srcX ≤ t.1 ∧ t.1+t.2 ≤ sp+bpp*(srcX+x+n)
  ints : ∀ i : ℕ, x ≤ i → (i : ℤ) < x+n → IsInt (bpp*(srcX+i))

theorem blend_run {n : ℕ} {x : ℤ} (hx : 0 ≤ x) (hdst : 0 ≤ dstX) (hfit : bpp*(dstX+x+n) < 2^31)
    (h : blendFrom mix src srcX dstX sp dp n x d = some d') : BlendRun mix src srcX dstX sp dp n x d d' := by
  induction n generalizing x d with
  | zero =>
    cases h
    exact ⟨fun i k _ _ _ => by omega, fun o _ => rfl, fun t ht => .inl ht, fun _ _ t ht => .inl ht,
      fun i _ _ => by omega⟩
  | succ n ih =>
    rw [blendFrom] at h
    by_cases hint : IsInt (bpp*(srcX+x)) ∧ IsInt (bpp*(dstX+x))
    · rw [if_pos hint] at h
      rw [bpp] at hfit
      have hod : u32 (bpp*(dstX+x)) = bpp*(dstX+x) := u32_eq (by rw [bpp]; omega) hint.2.2
      have hr := ih (by omega) (by rw [bpp]; omega) h
      rw [hod] at hr
      refine ⟨fun i k hi hlt hk => ?_, fun o ho => ?_, fun t ht => ?_, fun hs hsfit t ht => ?_, fun i hi hlt => ?_⟩
      · by_cases hix : (i : ℤ) = x
        · rw [hix]
          rw [hr.others _ (.inl (by rw [bpp]; omega)), blendPixel_in mix src _ _ d hk]
        · rw [hr.pixels i k (by omega) (by omega) hk]
          refine congrArg (fun f => blended mix _ f k) (funext fun j => ?_)
          exact blendPixel_out mix src _ _ d (.inr (by rw [bpp]; omega))
      · rw [bpp] at ho
        rw [hr.others o (by rw [bpp]; omega)]
        exact blendPixel_out mix src _ _ d (by rw [bpp]; omega)
      · rcases hr.writes t ht with ht | ht
        · rcases List.mem_cons.mp ht with rfl | ht
          · refine .inr ?_
            dsimp only
            rw [bpp]
            omega
          · exact .inl ht
        · refine .inr ?_
          rw [bpp] at ht ⊢
          omega
      · rw [bpp] at hsfit
        rcases hr.reads hs (by rw [bpp]; omega) t ht with ht | ht
        · rcases List.mem_cons.mp ht with rfl | ht
          · refine .inr ?_
            dsimp only
            rw [u32_eq (by rw [bpp]; omega) (by rw [bpp]; omega), bpp]
            omega
          · exact .inl ht
        · refine .inr ?_
          rw [bpp] at ht ⊢
          omega
      · by_cases hix : (i : ℤ) = x
        · rw [hix]
          exact hint.1
        · exact hr.ints i (by omega) (by omega)
    · rw [if_neg hint] at h
      cases h

theorem blend_ends {n : ℕ} {x : ℤ} (hx : 0 ≤ x) (hdst : 0 ≤ dstX) (hfit : bpp*(dstX+x+n) < 2^31) (hsrc : 0 ≤ srcX)
    (hsfit : bpp*(srcX+x+n) < 2^31) : ∃ d', blendFrom mix src srcX dstX sp dp n x d = some d' := by
  induction n generalizing x d with
  | zero => exact ⟨d, rfl⟩
  | succ n ih =>
    rw [bpp] at hfit hsfit
    have hint : IsInt (bpp*(srcX+x)) ∧ IsInt (bpp*(dstX+x)) := by
      rw [bpp, IsInt, IsInt]
      omega
    rw [blendFrom, if_pos hint]
    exact ih (by omega) (by rw [bpp]; omega) (by rw [bpp]; omega)

theorem blend_lines (mix : Byte → Byte → Byte → Byte) : Lines (blendLine mix) (blended mix) := by
  refine ⟨fun s d => if_pos rfl, fun {src srcX dstX w sp dp d d'} hdst hfit hrun => ?_,
    fun {src srcX dstX w sp dp d} hdst hfit hsrc hsfit => ?_⟩
  · rw [bpp] at hfit
    by_cases hw : 0 ≤ w
    · have hn : ((w.toNat : ℕ) : ℤ) = w := Int.toNat_of_nonneg hw
      have hr := blend_run le_rfl hdst (by rw [hn, bpp]; omega) hrun
      obtain ⟨hpixels, hothers, hwrites, hreads, hints⟩ := hr
      rw [hn, add_zero] at hothers hwrites hreads
      rw [hn] at hpixels hints
      refine ⟨fun i => u32 (bpp*(srcX+i)), fun i k hi hk => hpixels i k (by omega) (by omega) hk, hothers,
        hwrites, hreads, fun i _ hlow hlt => u32_eq (by rw [bpp]; omega) hlt, fun i hi p hp hlt heq => ?_⟩
      have hint := hints i (by omega) (by omega)
      rw [IsInt] at hint
      rw [u32] at heq
      rw [bpp] at hint heq hlt
      omega
    · have hn : w.toNat = 0 := by omega
      rw [blendLine, hn] at hrun
      cases hrun
      exact ⟨fun i => bpp*(srcX+i), fun i k hi _ => by omega, fun o _ => rfl, fun t ht => .inl ht,
        fun _ _ t ht => .inl ht, fun i _ _ _ => rfl, fun i hi => by omega⟩
  · by_cases hw : 0 ≤ w
    · have hn : ((w.toNat : ℕ) : ℤ) = w := Int.toNat_of_nonneg hw
      rw [bpp] at hfit hsfit
      exact blend_ends le_rfl hdst (by rw [hn, bpp]; omega) hsrc (by rw [hn, bpp]; omega)
    · have hn : w.toNat = 0 := by omega
      rw [blendLine, hn]
      exact ⟨d, rfl⟩

end Rows

end BabyOS.Surfaces

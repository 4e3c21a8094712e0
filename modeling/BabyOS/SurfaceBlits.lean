import BabyOS.Surfaces

/-!
# What the blits copy

The clipped rectangle by its columns and its rows. `blit` and `blit_alpha` set a
negative `srcy` to 0 but leave a negative `srcx`, so they read the wrong pixels
whenever something is drawn of a source rectangle that begins left of its surface.
-/

set_option autoImplicit false

namespace BabyOS.SurfaceBlits
open BabyOS.ByteWords BabyOS.PixelGrids BabyOS.Surfaces

/-! ## Rows -/

/-- All rows from `sp` and `dp` on. -/
structure RowsRun (op : (ℕ → Byte) → (ℕ → Byte) → ℕ → Byte) (src : Memory)
    (srcX dstX w srcPitch dstPitch : ℤ) (n : ℕ) (sp dp : ℤ) (d d' : Drawing) : Prop where
  pixels : ∀ j : ℕ, j < n → ∃ off : ℕ → ℤ,
    (∀ i k : ℕ, (i : ℤ) < w → k < 4 → d'.pixels (dp+dstPitch*j+bpp*(dstX+i)+k) =
      op (fun q => src (sp+srcPitch*j+off i+q)) (fun q => d.pixels (dp+dstPitch*j+bpp*(dstX+i)+q)) k) ∧
    (∀ i : ℕ, (i : ℤ) < w → 0 ≤ srcX+i → bpp*(srcX+i) < 2^31 → off i = bpp*(srcX+i)) ∧
    ∀ i : ℕ, (i : ℤ) < w → ∀ p, 0 ≤ p → bpp*p < 2^31 → off i = bpp*p → srcX+i = p
  others : ∀ o, (∀ j : ℕ, j < n → o < dp+dstPitch*j+bpp*dstX ∨ dp+dstPitch*j+bpp*(dstX+w) ≤ o) →
    d'.pixels o = d.pixels o
  writes : ∀ t ∈ d'.writes, t ∈ d.writes ∨
    ∃ j : ℕ, j < n ∧ dp+dstPitch*j+bpp*dstX ≤ t.1 ∧ t.1+t.2 ≤ dp+dstPitch*j+bpp*(dstX+w)
  reads : 0 ≤ srcX → bpp*(srcX+w) < 2^31 → ∀ t ∈ d'.reads, t ∈ d.reads ∨
    ∃ j : ℕ, j < n ∧ sp+srcPitch*j+bpp*srcX ≤ t.1 ∧ t.1+t.2 ≤ sp+srcPitch*j+bpp*(srcX+w)

section Rows

variable {line : Line} {op : (ℕ → Byte) → (ℕ → Byte) → ℕ → Byte} {src : Memory}
variable {srcX dstX w srcPitch dstPitch sp dp : ℤ} {n : ℕ} {d d' : Drawing}

theorem rows_run (hline : Lines line op) (hdst : 0 ≤ dstX) (hfit : bpp*(dstX+w) ≤ dstPitch)
    (hint : dstPitch < 2^31) (hp : 0 ≤ dstPitch)
    (h : rows (line src srcX dstX w) srcPitch dstPitch n sp dp d = some d') :
    RowsRun op src srcX dstX w srcPitch dstPitch n sp dp d d' := by
  induction n generalizing sp dp d with
  | zero =>
    cases h
    exact ⟨fun j hj => absurd hj (Nat.not_lt_zero j), fun o _ => rfl, fun t ht => .inl ht, fun _ _ t ht => .inl ht⟩
  | succ n ih =>
    rw [rows] at h
    obtain ⟨d₁, hfirst, hrest⟩ := Option.bind_eq_some_iff.mp h
    obtain ⟨off, hrow⟩ := hline.runs hdst (by omega) hfirst
    have hr := ih hrest
    have hbase : ∀ b p : ℤ, ∀ j : ℕ, b+p+p*j = b+p*((j+1 : ℕ) : ℤ) := by
      intro b p j
      push_cast
      ring
    have hzero : ∀ b p : ℤ, b+p*((0 : ℕ) : ℤ) = b := by
      intro b p
      rw [Nat.cast_zero, mul_zero, add_zero]
    have hlater : ∀ j : ℕ, dp+dstPitch ≤ dp+dstPitch*((j+1 : ℕ) : ℤ) := by
      intro j
      rw [← hbase]
      have hnonneg : 0 ≤ dstPitch*(j : ℤ) := mul_nonneg hp (Int.natCast_nonneg j)
      omega
    refine ⟨fun j hj => ?_, fun o ho => ?_, fun t ht => ?_, fun hs hsfit t ht => ?_⟩
    · cases j with
      | zero =>
        refine ⟨off, fun i k hi hk => ?_, hrow.place, hrow.column⟩
        rw [hzero, hzero, hr.others _ fun j _ => ?_, hrow.pixels i k hi hk]
        rw [hbase]
        have hle := hlater j
        rw [bpp] at hfit ⊢
        omega
      | succ j =>
        obtain ⟨off', hpixels, hplace, hcolumn⟩ := hr.pixels j (Nat.lt_of_succ_lt_succ hj)
        refine ⟨off', fun i k hi hk => ?_, hplace, hcolumn⟩
        have hpix := hpixels i k hi hk
        rw [hbase, hbase] at hpix
        rw [hpix]
        refine congrArg (fun f => op _ f k) (funext fun q => hrow.others _ (.inr ?_))
        have hle := hlater j
        rw [bpp] at hfit ⊢
        omega
    · rw [hr.others o fun j hj => ?_]
      · have hfirst := ho 0 (Nat.succ_pos n)
        rw [hzero] at hfirst
        exact hrow.others o hfirst
      · have hnext := ho (j+1) (Nat.succ_lt_succ hj)
        rw [hbase]
        exact hnext
    · rcases hr.writes t ht with ht | ⟨j, hj, hspan⟩
      · rcases hrow.writes t ht with ht | hspan
        · exact .inl ht
        · refine .inr ⟨0, Nat.succ_pos n, ?_⟩
          rw [hzero]
          exact hspan
      · refine .inr ⟨j+1, Nat.succ_lt_succ hj, ?_⟩
        rw [hbase] at hspan
        exact hspan
    · rcases hr.reads hs hsfit t ht with ht | ⟨j, hj, hspan⟩
      · rcases hrow.reads hs hsfit t ht with ht | hspan
        · exact .inl ht
        · refine .inr ⟨0, Nat.succ_pos n, ?_⟩
          rw [hzero]
          exact hspan
      · refine .inr ⟨j+1, Nat.succ_lt_succ hj, ?_⟩
        rw [hbase] at hspan
        exact hspan

theorem rows_end (hline : Lines line op) (hdst : 0 ≤ dstX) (hfit : bpp*(dstX+w) < 2^31) (hsrc : 0 ≤ srcX)
    (hsfit : bpp*(srcX+w) < 2^31) : ∃ d', rows (line src srcX dstX w) srcPitch dstPitch n sp dp d = some d' := by
  induction n generalizing sp dp d with
  | zero => exact ⟨d, rfl⟩
  | succ n ih =>
    obtain ⟨d₁, hfirst⟩ := @Lines.ends _ _ hline src srcX dstX w sp dp d hdst hfit hsrc hsfit
    rw [rows, hfirst, Option.bind_some]
    exact ih

end Rows

/-! ## Clipping -/

section Clipping

variable {src : Surface} {srcrect : Option Rect}

/-- The source rectangle, or the whole surface. -/
def sourceRect (src : Surface) (srcrect : Option Rect) : Rect := srcrect.getD ⟨0, 0, src.width, src.height⟩

/-- What is left of a negative `srcx`. -/
def slip (r : Rect) : ℤ := if r.x < 0 then r.x else 0

theorem clip_x (clip : Rect) (f : Fit) : (fitClip clip f).srcx-(fitClip clip f).x = f.srcx-f.x ∧
    ∀ x, ((fitClip clip f).x ≤ x ∧ x < (fitClip clip f).x+(fitClip clip f).w) ↔
      (f.x ≤ x ∧ x < f.x+f.w) ∧ (clip.x ≤ x ∧ x < clip.x+clip.w) := by
  simp only [fitClip, apply_ite Fit.x, apply_ite Fit.w, apply_ite Fit.srcx, ite_self]
  constructor
  · split_ifs <;> omega
  · intro x
    split_ifs <;> omega

theorem clip_y (clip : Rect) (f : Fit) : (fitClip clip f).srcy-(fitClip clip f).y = f.srcy-f.y ∧
    ∀ y, ((fitClip clip f).y ≤ y ∧ y < (fitClip clip f).y+(fitClip clip f).h) ↔
      (f.y ≤ y ∧ y < f.y+f.h) ∧ (clip.y ≤ y ∧ y < clip.y+clip.h) := by
  simp only [fitClip, apply_ite Fit.y, apply_ite Fit.h, apply_ite Fit.srcy, ite_self]
  constructor
  · split_ifs <;> omega
  · intro y
    split_ifs <;> omega

theorem source_x (dstrect r : Rect) (hr : r = sourceRect src srcrect) :
    (fitSource src srcrect dstrect).srcx-(fitSource src srcrect dstrect).x = r.x-dstrect.x+slip r ∧
      ∀ x, ((fitSource src srcrect dstrect).x ≤ x ∧
        x < (fitSource src srcrect dstrect).x+(fitSource src srcrect dstrect).w) ↔
        dstrect.x-slip r ≤ x ∧ x < dstrect.x+r.w ∧ x < dstrect.x+src.width-r.x-slip r := by
  cases srcrect with
  | none =>
    subst hr
    have hslip : slip (sourceRect src none) = 0 := rfl
    rw [hslip]
    dsimp only [fitSource, sourceRect, Option.getD_none]
    refine ⟨by omega, fun x => ?_⟩
    omega
  | some q =>
    have hq : r = q := hr
    rw [hq, slip]
    simp only [fitSource, apply_ite Fit.x, apply_ite Fit.w, apply_ite Fit.srcx, ite_self]
    constructor
    · split_ifs <;> omega
    · intro x
      split_ifs <;> omega

theorem source_y (dstrect r : Rect) (hr : r = sourceRect src srcrect) :
    (fitSource src srcrect dstrect).srcy-(fitSource src srcrect dstrect).y = r.y-dstrect.y ∧
      ∀ y, ((fitSource src srcrect dstrect).y ≤ y ∧
        y < (fitSource src srcrect dstrect).y+(fitSource src srcrect dstrect).h) ↔
        (dstrect.y ≤ y ∧ y < dstrect.y+r.h) ∧ (dstrect.y-r.y ≤ y ∧ y < dstrect.y+src.height-r.y) := by
  cases srcrect with
  | none =>
    subst hr
    dsimp only [fitSource, sourceRect, Option.getD_none]
    refine ⟨by omega, fun y => ?_⟩
    omega
  | some q =>
    have hq : r = q := hr
    rw [hq]
    simp only [fitSource, apply_ite Fit.y, apply_ite Fit.h, apply_ite Fit.srcy, ite_self]
    constructor
    · split_ifs <;> omega
    · intro y
      split_ifs <;> omega

/-- The destination rectangle, or the whole surface. -/
def destRect (dst : Surface) (dstrect : Option Rect) : Rect := dstrect.getD ⟨0, 0, dst.width, dst.height⟩

/-- The rectangle that is drawn. -/
def fit (src dst : Surface) (srcrect dstrect : Option Rect) : Fit :=
  fitClip dst.clipRect (fitSource src srcrect (destRect dst dstrect))

/-- The columns that are drawn when `r` is drawn at `d`. -/
def InCols (src dst : Surface) (r d : Rect) (x : ℤ) : Prop :=
  (d.x-slip r ≤ x ∧ x < d.x+r.w ∧ x < d.x+src.width-r.x-slip r) ∧
    (dst.clipRect.x ≤ x ∧ x < dst.clipRect.x+dst.clipRect.w)

/-- The rows that are drawn. -/
def InRows (src dst : Surface) (r d : Rect) (y : ℤ) : Prop :=
  ((d.y ≤ y ∧ y < d.y+r.h) ∧ (d.y-r.y ≤ y ∧ y < d.y+src.height-r.y)) ∧
    (dst.clipRect.y ≤ y ∧ y < dst.clipRect.y+dst.clipRect.h)

/-- The pixel of the destination is in the clip rectangle, and the pixel of `r` that
belongs on it is in the source. -/
def Target (src dst : Surface) (r d : Rect) (x y : ℤ) : Prop :=
  dst.clipRect.Has x y ∧ r.Has (x-d.x+r.x) (y-d.y+r.y) ∧
    Rect.Has ⟨0, 0, src.width, src.height⟩ (x-d.x+r.x) (y-d.y+r.y)

variable {dst : Surface} {srcrect dstrect : Option Rect} {r d : Rect} {x y : ℤ}

theorem fit_x (hr : r = sourceRect src srcrect) (hd : d = destRect dst dstrect) :
    (fit src dst srcrect dstrect).srcx-(fit src dst srcrect dstrect).x = r.x-d.x+slip r ∧
      ∀ x, ((fit src dst srcrect dstrect).x ≤ x ∧
        x < (fit src dst srcrect dstrect).x+(fit src dst srcrect dstrect).w) ↔ InCols src dst r d x := by
  subst hd
  obtain ⟨hshift, hcols⟩ := source_x (destRect dst dstrect) r hr
  obtain ⟨hshift', hcols'⟩ := clip_x dst.clipRect (fitSource src srcrect (destRect dst dstrect))
  exact ⟨hshift'.trans hshift, fun x => (hcols' x).trans (and_congr (hcols x) Iff.rfl)⟩

theorem fit_y (hr : r = sourceRect src srcrect) (hd : d = destRect dst dstrect) :
    (fit src dst srcrect dstrect).srcy-(fit src dst srcrect dstrect).y = r.y-d.y ∧
      ∀ y, ((fit src dst srcrect dstrect).y ≤ y ∧
        y < (fit src dst srcrect dstrect).y+(fit src dst srcrect dstrect).h) ↔ InRows src dst r d y := by
  subst hd
  obtain ⟨hshift, hrows⟩ := source_y (destRect dst dstrect) r hr
  obtain ⟨hshift', hrows'⟩ := clip_y dst.clipRect (fitSource src srcrect (destRect dst dstrect))
  exact ⟨hshift'.trans hshift, fun y => (hrows' y).trans (and_congr (hrows y) Iff.rfl)⟩

theorem target_drawn (h : Target src dst r d x y) : InCols src dst r d x ∧ InRows src dst r d y := by
  obtain ⟨⟨hcx, hcy⟩, ⟨hrx, hry⟩, hsx, hsy⟩ := h
  dsimp only at hsx hsy
  refine ⟨⟨?_, hcx⟩, ⟨?_, hcy⟩⟩
  · rw [slip]
    split_ifs <;> omega
  · omega

theorem drawn_target (hr : 0 ≤ r.x) (hx : InCols src dst r d x) (hy : InRows src dst r d y) :
    Target src dst r d x y := by
  obtain ⟨hxs, hcx⟩ := hx
  obtain ⟨hys, hcy⟩ := hy
  rw [slip, if_neg (not_lt.mpr hr)] at hxs
  rw [Target, Rect.Has, Rect.Has, Rect.Has]
  dsimp only
  omega

end Clipping

/-! ## A blit -/

/-- Where the pixel begins in a surface's memory. -/
def place (s : Surface) (x y : ℤ) : ℤ := s.pitch*y+bpp*x

/-- The byte at `o` belongs to one of the pixels. -/
def Of (s : Surface) (pixels : ℤ → ℤ → Prop) (o : ℤ) : Prop :=
  ∃ x y, ∃ k : ℕ, pixels x y ∧ k < 4 ∧ o = place s x y+k

/-- A blit of `r` to `d` does what it is for: a target's bytes are made by `op` of the
pixels that meet there, nothing else changes, and it stays on both surfaces. -/
def Meets (b : Memory → Drawing → Option (ℤ × Rect × Drawing)) (op : (ℕ → Byte) → (ℕ → Byte) → ℕ → Byte)
    (src dst : Surface) (r d : Rect) : Prop :=
  ∀ pixels before, ∃ rect t, b pixels ⟨before, [], []⟩ = some (0, rect, t) ∧
    (∀ x y, ∀ k : ℕ, Target src dst r d x y → k < 4 → t.pixels (place dst x y+k) =
      op (fun q => pixels (place src (x-d.x+r.x) (y-d.y+r.y)+q)) (fun q => before (place dst x y+q)) k) ∧
    (∀ o, t.pixels o ≠ before o → Of dst (Target src dst r d) o) ∧
    (∀ p ∈ t.writes, ∀ o, p.1 ≤ o → o < p.1+p.2 → Of dst (Target src dst r d) o) ∧
    ∀ p ∈ t.reads, ∀ o, p.1 ≤ o → o < p.1+p.2 → Of src (Rect.Has ⟨0, 0, src.width, src.height⟩) o

section Blits

variable {line : Line} {op : (ℕ → Byte) → (ℕ → Byte) → ℕ → Byte} {pixels : Memory}
variable {src dst : Surface} {srcrect dstrect : Option Rect} {r d : Rect}
variable {t t' : Drawing} {x y : ℤ} {f : Fit}

theorem blit_none (hf : f = fit src dst srcrect dstrect) (h : ¬(f.w > 0 ∧ f.h > 0)) :
    blitWith (lower line) src dst pixels srcrect dstrect t = some (0, ⟨f.x, f.y, 0, 0⟩, t) := by
  subst hf
  exact if_neg h

theorem blit_drawn (hf : f = fit src dst srcrect dstrect) (h : f.w > 0 ∧ f.h > 0) :
    blitWith (lower line) src dst pixels srcrect dstrect t =
      (rows (line pixels f.srcx f.x f.w) src.pitch dst.pitch f.h.toNat (src.pitch*f.srcy) (dst.pitch*f.y) t).map
        fun t' => (0, ⟨f.x, f.y, f.w, f.h⟩, t') := by
  subst hf
  have hsame : ¬((fit src dst srcrect dstrect).w ≠ (fit src dst srcrect dstrect).w ∨
      (fit src dst srcrect dstrect).h ≠ (fit src dst srcrect dstrect).h) := by
    rintro (hw | hh)
    · exact hw rfl
    · exact hh rfl
  refine (if_pos h).trans ?_
  refine (congrArg (Option.map _) (if_neg hsame)).trans ?_
  rw [Option.map_map]
  rfl

theorem place_row (s : Surface) (x y j i : ℤ) : s.pitch*y+s.pitch*j+bpp*(x+i) = place s (x+i) (y+j) := by
  rw [place]
  ring

/-- A byte of `w` pixels of row `j` from `y`. -/
theorem row_span (s : Surface) {j w o : ℤ} (hlow : s.pitch*y+s.pitch*j+bpp*x ≤ o)
    (hhigh : o < s.pitch*y+s.pitch*j+bpp*(x+w)) :
    ∃ i k : ℕ, (i : ℤ) < w ∧ k < 4 ∧ o = place s (x+i) (y+j)+k := by
  have hbase := place_row s x y j
  rw [bpp] at hlow hhigh
  obtain ⟨q, hq⟩ : ∃ q, q = o-(s.pitch*y+s.pitch*j+4*x) := ⟨_, rfl⟩
  refine ⟨(q/4).toNat, (q%4).toNat, by omega, by omega, ?_⟩
  rw [← hbase, bpp]
  omega

/-- A drawn rectangle lies on the destination. -/
theorem fit_inside (hx : ∀ x, (f.x ≤ x ∧ x < f.x+f.w) ↔ InCols src dst r d x) (hw : f.w > 0) :
    0 ≤ f.x ∧ f.x+f.w ≤ dst.width ∧ bpp*(f.x+f.w) ≤ dst.pitch := by
  have hfirst := ((hx f.x).mp ⟨le_rfl, by omega⟩).2
  have hlast := ((hx (f.x+f.w-1)).mp ⟨by omega, by omega⟩).2
  have hleft := dst.left
  have hright := dst.right
  have hrow : (4*dst.width : ℤ) ≤ dst.pitch := by exact_mod_cast dst.row
  rw [bpp]
  omega

/-- So does its part of the source, when no column of `r` is left of it. -/
theorem fit_source (hr : 0 ≤ r.x) (hshift : f.srcx-f.x = r.x-d.x+slip r)
    (hx : ∀ x, (f.x ≤ x ∧ x < f.x+f.w) ↔ InCols src dst r d x) (hw : f.w > 0) :
    f.srcx-f.x = r.x-d.x ∧ 0 ≤ f.srcx ∧ f.srcx+f.w ≤ src.width ∧ bpp*(f.srcx+f.w) < 2^31 := by
  have hslip : slip r = 0 := if_neg (not_lt.mpr hr)
  have hfirst := ((hx f.x).mp ⟨le_rfl, by omega⟩).1
  have hlast := ((hx (f.x+f.w-1)).mp ⟨by omega, by omega⟩).1
  have hrow : (4*src.width : ℤ) ≤ src.pitch := by exact_mod_cast src.row
  have hint : (src.pitch : ℤ) < 2^31 := by exact_mod_cast src.int
  rw [hslip] at hshift hfirst hlast
  rw [bpp]
  omega

theorem fit_sourceRows (hshift : f.srcy-f.y = r.y-d.y)
    (hy : ∀ y, (f.y ≤ y ∧ y < f.y+f.h) ↔ InRows src dst r d y) (hh : f.h > 0) :
    0 ≤ f.srcy ∧ f.srcy+f.h ≤ src.height := by
  have hfirst := ((hy f.y).mp ⟨le_rfl, by omega⟩).1
  have hlast := ((hy (f.y+f.h-1)).mp ⟨by omega, by omega⟩).1
  omega

/-- What a blit draws, from the rows' run. -/
theorem run_meets (hr : 0 ≤ r.x) (hxs : f.srcx-f.x = r.x-d.x+slip r)
    (hx : ∀ x, (f.x ≤ x ∧ x < f.x+f.w) ↔ InCols src dst r d x) (hys : f.srcy-f.y = r.y-d.y)
    (hy : ∀ y, (f.y ≤ y ∧ y < f.y+f.h) ↔ InRows src dst r d y) (hw : f.w > 0) (hh : f.h > 0)
    (h : RowsRun op pixels f.srcx f.x f.w src.pitch dst.pitch f.h.toNat (src.pitch*f.srcy) (dst.pitch*f.y) t t') :
    (∀ x y, ∀ k : ℕ, Target src dst r d x y → k < 4 → t'.pixels (place dst x y+k) =
      op (fun q => pixels (place src (x-d.x+r.x) (y-d.y+r.y)+q)) (fun q => t.pixels (place dst x y+q)) k) ∧
    (∀ o, t'.pixels o ≠ t.pixels o → Of dst (Target src dst r d) o) ∧
    (∀ p ∈ t'.writes, p ∈ t.writes ∨ ∀ o, p.1 ≤ o → o < p.1+p.2 → Of dst (Target src dst r d) o) ∧
    ∀ p ∈ t'.reads, p ∈ t.reads ∨
      ∀ o, p.1 ≤ o → o < p.1+p.2 → Of src (Rect.Has ⟨0, 0, src.width, src.height⟩) o := by
  obtain ⟨hshift, hleft, hright, hint⟩ := fit_source hr hxs hx hw
  obtain ⟨htop, hbottom⟩ := fit_sourceRows hys hy hh
  -- a byte of a row's span is one of a target
  have hspan : ∀ j : ℕ, j < f.h.toNat → ∀ o, dst.pitch*f.y+dst.pitch*j+bpp*f.x ≤ o →
      o < dst.pitch*f.y+dst.pitch*j+bpp*(f.x+f.w) → Of dst (Target src dst r d) o := by
    intro j hj o hlow hhigh
    obtain ⟨i, k, hi, hk, rfl⟩ := row_span dst hlow hhigh
    refine ⟨_, _, k, drawn_target hr ((hx _).mp ?_) ((hy _).mp ?_), hk, rfl⟩
    · omega
    · omega
  refine ⟨fun x y k htarget hk => ?_, fun o ho => ?_, fun p hp => ?_, fun p hp => ?_⟩
  · have hdrawn := target_drawn htarget
    have hxin := (hx x).mpr hdrawn.1
    have hyin := (hy y).mpr hdrawn.2
    obtain ⟨i, hi⟩ : ∃ i : ℕ, x = f.x+i := ⟨(x-f.x).toNat, by omega⟩
    obtain ⟨j, hj⟩ : ∃ j : ℕ, y = f.y+j := ⟨(y-f.y).toNat, by omega⟩
    obtain ⟨off, hpixels, hplace, -⟩ := h.pixels j (by omega)
    have hpix := hpixels i k (by omega) hk
    rw [bpp] at hint
    rw [hplace i (by omega) (by omega) (by rw [bpp]; omega), place_row, place_row, ← hi, ← hj] at hpix
    have hcol : f.srcx+(i : ℤ) = x-d.x+r.x := by omega
    have hrow : f.srcy+(j : ℤ) = y-d.y+r.y := by omega
    rw [hcol, hrow] at hpix
    exact hpix
  · by_contra hnot
    refine ho (h.others o fun j hj => ?_)
    by_contra hin
    rw [not_or, not_lt, not_le] at hin
    exact hnot (hspan j hj o hin.1 hin.2)
  · rcases h.writes p hp with hold | ⟨j, hj, hlow, hhigh⟩
    · exact .inl hold
    · exact .inr fun o ho ho' => hspan j hj o (by omega) (by omega)
  · rcases h.reads hleft hint p hp with hold | ⟨j, hj, hlow, hhigh⟩
    · exact .inl hold
    · refine .inr fun o ho ho' => ?_
      obtain ⟨i, k, hi, hk, rfl⟩ := row_span src (hlow.trans ho) (ho'.trans_le hhigh)
      refine ⟨_, _, k, ⟨⟨?_, ?_⟩, ⟨?_, ?_⟩⟩, hk, rfl⟩ <;> dsimp only <;> omega

/-- Two pixels of a surface have no byte in common. -/
theorem place_pixel {s : Surface} {x' y' : ℤ} {k k' : ℕ} (hx : 0 ≤ x ∧ x < s.width) (hy : 0 ≤ y)
    (hx' : 0 ≤ x' ∧ x' < s.width) (hy' : 0 ≤ y') (hk : k < 4) (hk' : k' < 4)
    (heq : place s x y+k = place s x' y'+k') : x = x' ∧ y = y' := by
  lift x to ℕ using hx.1
  lift y to ℕ using hy
  lift x' to ℕ using hx'.1
  lift y' to ℕ using hy'
  let g : Grid := ⟨s.width, s.height, 4, s.pitch, s.row⟩
  have hplace : ∀ a b : ℕ, place s a b = (g.place a b : ℕ) := by
    intro a b
    change _ = ((s.pitch*b+4*a : ℕ) : ℤ)
    push_cast
    rfl
  rw [hplace, hplace] at heq
  have hsame : g.place x y+k = g.place x' y'+k' := by exact_mod_cast heq
  have hin : y = y' ∧ x' ≤ x ∧ x < x'+1 := (Grid.in_span (g := g) (by exact_mod_cast hx.2)
    (by exact_mod_cast hx'.2) hk).mp ⟨by omega, by change _ < g.place x' y'+4*1; omega⟩
  omega

/-- The first byte 3 that is drawn. -/
theorem first_byte (hline : Lines line op) (hf : f = fit src dst srcrect dstrect) (hw : f.w > 0) (hh : f.h > 0)
    (hleft : 0 ≤ f.x) (hfit : bpp*(f.x+f.w) ≤ dst.pitch) {rect : Rect}
    (hblit : blitWith (lower line) src dst pixels srcrect dstrect ⟨fun _ => 0, [], []⟩ = some (0, rect, t)) :
    ∃ off, t.pixels (place dst f.x f.y+(3 : ℕ)) = pixels (src.pitch*f.srcy+off+(3 : ℕ)) ∧
      ∀ p, 0 ≤ p → bpp*p < 2^31 → off = bpp*p → f.srcx = p := by
  have hpitch : (0 : ℤ) ≤ dst.pitch := Int.natCast_nonneg _
  have hint : (dst.pitch : ℤ) < 2^31 := by exact_mod_cast dst.int
  rw [blit_drawn hf ⟨hw, hh⟩] at hblit
  obtain ⟨t', hrun, ht⟩ := Option.map_eq_some_iff.mp hblit
  cases ht
  obtain ⟨off, hpix, -, hcol⟩ := (rows_run hline hleft hfit hint hpitch hrun).pixels 0 (by omega)
  have hbyte := hpix 0 3 hw (by omega)
  rw [place_row, Nat.cast_zero, add_zero, add_zero, mul_zero, add_zero, hline.last] at hbyte
  refine ⟨off 0, hbyte, fun p hp hlt heq => ?_⟩
  have hsrc := hcol 0 hw p hp hlt heq
  rw [Nat.cast_zero, add_zero] at hsrc
  exact hsrc

/-- With a negative `x` left in `srcx` the first pixel drawn comes from the wrong
column. -/
theorem slipped_fails (hline : Lines line op) (hr : r = sourceRect src srcrect) (hd : d = destRect dst dstrect)
    (hneg : r.x < 0) (hx : ∃ x, InCols src dst r d x) (hy : ∃ y, InRows src dst r d y) :
    ¬Meets (fun pixels t => blitWith (lower line) src dst pixels srcrect dstrect t) op src dst r d := by
  intro hmeets
  obtain ⟨f, hf⟩ : ∃ f, f = fit src dst srcrect dstrect := ⟨_, rfl⟩
  obtain ⟨hxs, hcols⟩ := fit_x hr hd
  obtain ⟨hys, hrows⟩ := fit_y hr hd
  rw [← hf] at hxs hcols hys hrows
  have hw : f.w > 0 := by
    obtain ⟨x, hx⟩ := hx
    have hin := (hcols x).mpr hx
    omega
  have hh : f.h > 0 := by
    obtain ⟨y, hy⟩ := hy
    have hin := (hrows y).mpr hy
    omega
  have hslip : slip r = r.x := if_pos hneg
  obtain ⟨hleft, hright, hfit⟩ := fit_inside hcols hw
  by_cases htarget : Target src dst r d f.x f.y
  · -- only the right byte of the source is 1
    obtain ⟨o, ho⟩ : ∃ o, o = place src (f.x-d.x+r.x) (f.y-d.y+r.y)+(3 : ℕ) := ⟨_, rfl⟩
    obtain ⟨rect, t, hblit, hpix, -⟩ := hmeets (Function.update (fun _ => 0) o 1) fun _ => 0
    obtain ⟨off, hbyte, hcol⟩ := first_byte hline hf hw hh hleft hfit hblit
    have hright := hpix f.x f.y 3 htarget (by omega)
    rw [hline.last, ← ho, Function.update_self, hbyte] at hright
    obtain ⟨-, -, hsx, -⟩ := htarget
    dsimp only at hsx
    have hrow : (4*src.width : ℤ) ≤ src.pitch := by exact_mod_cast src.row
    have hsint : (src.pitch : ℤ) < 2^31 := by exact_mod_cast src.int
    have hne : off ≠ bpp*(f.x-d.x+r.x) := by
      intro heq
      have hsrc := hcol _ hsx.1 (by rw [bpp]; omega) heq
      omega
    have hwrong : src.pitch*f.srcy+off+(3 : ℕ) ≠ o := by
      have hsrcy : f.y-d.y+r.y = f.srcy := by omega
      rw [ho, hsrcy, place]
      omega
    rw [Function.update_of_ne hwrong] at hright
    exact absurd hright (by decide)
  · -- the whole source is 1, and the pixel was 0
    obtain ⟨rect, t, hblit, -, hchanged, -⟩ := hmeets (fun _ => 1) fun _ => 0
    obtain ⟨off, hbyte, -⟩ := first_byte hline hf hw hh hleft hfit hblit
    obtain ⟨x, y, k, hpixel, hk, hsame⟩ := hchanged _ (by rw [hbyte]; exact (by decide : (1 : Byte) ≠ 0))
    have hrow := ((hrows f.y).mp ⟨le_rfl, by omega⟩).2
    have hin := hpixel.1
    rw [Rect.Has] at hin
    have htop := dst.top
    have hleft' := dst.left
    have hright' := dst.right
    have heq := place_pixel (by omega) (by omega) (by omega) (by omega) (by omega) hk hsame
    rw [heq.1, heq.2] at htarget
    exact htarget hpixel

/-- A blit whose source rectangle is not left of its surface does what it is for, and
so does one that draws nothing. -/
theorem blit_meets (hline : Lines line op) (hr : r = sourceRect src srcrect) (hd : d = destRect dst dstrect)
    (hright : 0 ≤ r.x ∨ (∀ x, ¬InCols src dst r d x) ∨ ∀ y, ¬InRows src dst r d y) :
    Meets (fun pixels t => blitWith (lower line) src dst pixels srcrect dstrect t) op src dst r d := by
  intro pixels before
  obtain ⟨f, hf⟩ : ∃ f, f = fit src dst srcrect dstrect := ⟨_, rfl⟩
  obtain ⟨hxs, hcols⟩ := fit_x hr hd
  obtain ⟨hys, hrows⟩ := fit_y hr hd
  rw [← hf] at hxs hcols hys hrows
  dsimp only
  by_cases hdrawn : f.w > 0 ∧ f.h > 0
  · obtain ⟨hw, hh⟩ := hdrawn
    have hx : 0 ≤ r.x := by
      rcases hright with hx | hnone | hnone
      · exact hx
      · exact absurd ((hcols f.x).mp ⟨le_rfl, by omega⟩) (hnone f.x)
      · exact absurd ((hrows f.y).mp ⟨le_rfl, by omega⟩) (hnone f.y)
    obtain ⟨hleft, hright, hfit⟩ := fit_inside hcols hw
    obtain ⟨-, hsrc, -, hsint⟩ := fit_source hx hxs hcols hw
    have hint : (dst.pitch : ℤ) < 2^31 := by exact_mod_cast dst.int
    obtain ⟨t, hrun⟩ : ∃ t, rows (line pixels f.srcx f.x f.w) src.pitch dst.pitch f.h.toNat (src.pitch*f.srcy)
        (dst.pitch*f.y) ⟨before, [], []⟩ = some t := rows_end hline hleft (by omega) hsrc hsint
    obtain ⟨hpixels, hothers, hwrites, hreads⟩ := run_meets hx hxs hcols hys hrows hw hh
      (rows_run hline hleft hfit hint (Int.natCast_nonneg _) hrun)
    refine ⟨⟨f.x, f.y, f.w, f.h⟩, t, ?_, hpixels, hothers, fun p hp => ?_, fun p hp => ?_⟩
    · rw [blit_drawn hf ⟨hw, hh⟩, hrun, Option.map_some]
    · exact (hwrites p hp).resolve_left List.not_mem_nil
    · exact (hreads p hp).resolve_left List.not_mem_nil
  · have hnone : ∀ x y, ¬Target src dst r d x y := by
      intro x y htarget
      have hin := target_drawn htarget
      have hxin := (hcols x).mpr hin.1
      have hyin := (hrows y).mpr hin.2
      exact hdrawn ⟨by omega, by omega⟩
    refine ⟨_, _, blit_none hf hdrawn, fun x y k htarget => absurd htarget (hnone x y), fun o ho => absurd rfl ho,
      fun p hp => absurd hp List.not_mem_nil, fun p hp => absurd hp List.not_mem_nil⟩

end Blits

end BabyOS.SurfaceBlits

import BabyOS.ConsoleInput
import BabyOS.FormattedOutput
import BabyOS.ScreenRectangles

/-!
# Console output

The cursor of the console and what it draws, with the cursor at each drawing call. The
screen has room for at least one character. Offsets into the font are those from
`m_asc16_addr` on; products of the screen's sizes are exact.
-/

set_option autoImplicit false

namespace BabyOS.ConsoleOutput
open BabyOS.ByteWords BabyOS.FormattedOutput BabyOS.PixelGrids
open BabyOS.ScreenRectangles (Vbe RectT Shows Colour)

def asc16Size : ℤ := 16

def asc16Width : ℕ := 8

def asc16Height : ℕ := 16

/-- What `load_asc16` reads. -/
def asc16Bytes : ℤ := 4096

def hz : ℕ := 100

def bufferSize : ℕ := 1024

def backgroundColour : Colour := ⟨0x30, 0, 0x40⟩

def cursorColour : Colour := ⟨0, 0xff, 0xff⟩

def white : Colour := ⟨0xff, 0xff, 0xff⟩

/-! ## The font -/

/-- The offsets of the font that are read, and the pixels that are set. -/
structure Glyph where
  reads : List ℤ
  pixels : List (ℕ × ℕ)

/-- The inner loop of `draw_asc16`, with `n` columns left. -/
def asc16Row (font : ℤ → Byte) (p : ℤ) (left top : ℕ) : ℕ → ℕ → Byte → Glyph → Glyph
  | 0, _, _, g => g
  | n+1, x, testBit, g =>
    asc16Row font p left top n (x+1) (testBit >>> 1)
      ⟨p :: g.reads, if font p &&& testBit ≠ 0 then (left+x, top) :: g.pixels else g.pixels⟩

/-- The outer loop, with `n` rows left. -/
def asc16Rows (font : ℤ → Byte) (left : ℕ) : ℕ → ℕ → ℤ → Glyph → Glyph
  | 0, _, _, g => g
  | n+1, top, p, g => asc16Rows font left n (top+1) (p+1) (asc16Row font p left top asc16Width 0 (1 <<< 7) g)

/-- `ch` is a `char`, which has a sign. -/
def drawAsc16 (font : ℤ → Byte) (ch : ℤ) (left top : ℕ) : Glyph :=
  asc16Rows font left asc16Height top (ch*asc16Size) ⟨[], []⟩

/-! ## The console -/

/-- A call of `fill_rectangle`, of `memmove` in `vbe_t::scroll`, or of `draw_asc16`. -/
inductive Draw
  | fill (rect : RectT) (colour : Colour)
  | move (dst src n : ℕ)
  | asc16 (ch : ℤ) (left top : ℕ) (colour : Colour)

/-- The call, and the cursor at it. -/
structure Call where
  row : ℕ
  col : ℕ
  draw : Draw

structure Console where
  rowNum : ℕ
  colNum : ℕ
  row : ℕ
  col : ℕ
  tickToUpdate : ℕ
  showCursor : Bool
  calls : List Call

namespace Console

def call (d : Draw) (s : Console) : Console := { s with calls := ⟨s.row, s.col, d⟩ :: s.calls }

/-- The rectangle of the cursor. -/
def rect (s : Console) : RectT := ⟨s.col*asc16Width, s.row*asc16Height, asc16Width, asc16Height⟩

def drawCursor (s : Console) : Console :=
  s.call (.fill s.rect (if s.showCursor then cursorColour else backgroundColour))

def drawBackground (v : Vbe) (s : Console) : Console :=
  s.call (.fill ⟨0, 0, v.width, v.height⟩ backgroundColour)

def init (v : Vbe) : Console :=
  (drawBackground v ⟨v.height/asc16Height, v.width/asc16Width, 0, 0, hz, true, []⟩).drawCursor

end Console

/-- `vbe_t::scroll`. -/
def vbeScroll (v : Vbe) : Draw :=
  .move 0 (v.width*v.bytesPp*asc16Height) (v.width*v.bytesPp*(v.height-asc16Height))

namespace Console

def scroll (v : Vbe) (s : Console) : Console :=
  if s.row < s.rowNum then s
  else
    let s := s.call (vbeScroll v)
    let s := s.call (.fill ⟨0, (s.row-1 : ℕ)*asc16Height, asc16Width*s.colNum, asc16Height⟩ backgroundColour)
    { s with row := s.row-1, col := 0 }.drawCursor

def putChar (v : Vbe) (c : ℤ) (colour : Colour) (s : Console) : Console :=
  let s := s.call (.fill s.rect backgroundColour)
  let s := s.call (.asc16 c (s.col*asc16Width) (s.row*asc16Height) colour)
  let s := { s with col := s.col+1 }
  let s := if s.col = s.colNum then scroll v { s with row := s.row+1, col := 0 } else s
  s.drawCursor

def unputChar (s : Console) : Console := s.call (.fill s.rect backgroundColour)

def backspace (s : Console) : Console :=
  let s := s.unputChar
  if s.col = 0 then
    if s.row = 0 then s else { s with row := s.row-1, col := s.colNum-1 }.unputChar
  else { s with col := s.col-1 }.unputChar

def newline (v : Vbe) (s : Console) : Console :=
  let s := s.call (.fill s.rect backgroundColour)
  scroll v { s with row := s.row+1, col := 0 }

def putc (v : Vbe) (c : ℤ) (colour : Colour) (s : Console) : Console :=
  (if c = 10 then newline v s
    else if c = 9 then (putChar v 32 colour)^[4-s.col%4] s
    else if c = 8 then s.backspace
    else putChar v c colour s).drawCursor

/-- Bytes as they are in an array of `char`. -/
def puts (v : Vbe) (colour : Colour) : List Byte → Console → Console
  | [], s => s
  | b :: bytes, s => puts v colour bytes (putc v b.toInt colour s)

def write (v : Vbe) (bytes : List Byte) (s : Console) : Console := puts v white bytes s

/-- `none` where `vsprintf` has no result. -/
def kprintf (v : Vbe) (colour : Colour) (fmt : Option (List Byte)) (args : Arguments) (s : Console) :
    Option Console :=
  match fmt with
  | none => some s
  | some fmt => (vsprintf .kernel (some fmt) args (List.replicate bufferSize 0)).map fun r =>
    puts v colour (r.2.take r.1) s

def update (s : Console) : Console :=
  let s := { s with tickToUpdate := (s.tickToUpdate+2^32-1)%2^32 }
  if s.tickToUpdate ≠ 0 then s
  else { s with tickToUpdate := hz, showCursor := !s.showCursor }.drawCursor

end Console

/-! ## Runs -/

inductive Output
  | write (bytes : List Byte)
  | kprintf (colour : Colour) (fmt : Option (List Byte)) (args : Arguments)
  | update

def step (v : Vbe) : Output → Console → Option Console
  | .write bytes, s => some (s.write v bytes)
  | .kprintf colour fmt args, s => s.kprintf v colour fmt args
  | .update, s => some s.update

def run (v : Vbe) : List Output → Console → Option Console
  | [], s => some s
  | o :: outs, s => (step v o s).bind (run v outs)

/-! ## What the console is for -/

def Draw.OnScreen (v : Vbe) (font : ℤ → Byte) : Draw → Prop
  | .fill rect _ => ∀ x y, rect.Has x y → Shows v x y
  | .move dst src n => dst+n ≤ v.bytesPp*v.width*v.height ∧ src+n ≤ v.bytesPp*v.width*v.height
  | .asc16 ch left top _ => ∀ p ∈ (drawAsc16 font ch left top).pixels, Shows v p.1 p.2

/-- The bytes that are read are in the font table. -/
def Draw.InFont (font : ℤ → Byte) : Draw → Prop
  | .asc16 ch left top _ => ∀ o ∈ (drawAsc16 font ch left top).reads, 0 ≤ o ∧ o < asc16Bytes
  | _ => True

/-- The cursor is on the screen. -/
def Call.Inside (v : Vbe) (c : Call) : Prop := c.row < v.height/asc16Height ∧ c.col < v.width/asc16Width

/-- The two calls of `scroll` before it moves the cursor up. -/
def Call.Scrolls (v : Vbe) (c : Call) : Prop :=
  c.row = v.height/asc16Height ∧ c.col = 0 ∧
    (c.draw = vbeScroll v ∨
      c.draw = .fill ⟨0, (c.row-1 : ℕ)*asc16Height, asc16Width*(v.width/asc16Width), asc16Height⟩ backgroundColour)

/-- The character of a call, if it has one, is an ASCII one. -/
def Draw.Ascii : Draw → Prop
  | .asc16 ch _ _ _ => 0 ≤ ch
  | _ => True

/-- What holds at each drawing call. -/
structure Call.Sound (v : Vbe) (font : ℤ → Byte) (c : Call) : Prop where
  cursor : c.Inside v ∨ c.Scrolls v
  screen : c.draw.OnScreen v font
  font : c.draw.Ascii → c.draw.InFont font

/-! ## Glyphs -/

section Glyphs

variable {font : ℤ → Byte} {p ch : ℤ} {left top n x : ℕ} {bit : Byte} {g : Glyph}

theorem asc16Row_reads : ∀ o ∈ (asc16Row font p left top n x bit g).reads, o = p ∨ o ∈ g.reads := by
  induction n generalizing x bit g with
  | zero => exact fun o ho => .inr ho
  | succ n ih =>
    intro o ho
    rcases ih o ho with heq | hrest
    · exact .inl heq
    · exact List.mem_cons.mp hrest

theorem asc16Row_pixels : ∀ q ∈ (asc16Row font p left top n x bit g).pixels,
    (left+x ≤ q.1 ∧ q.1 < left+x+n) ∧ q.2 = top ∨ q ∈ g.pixels := by
  induction n generalizing x bit g with
  | zero => exact fun q hq => .inr hq
  | succ n ih =>
    intro q hq
    rcases ih q hq with hin | hrest
    · exact .inl (by omega)
    · dsimp only at hrest
      split_ifs at hrest with hset
      · rcases List.mem_cons.mp hrest with rfl | hold
        · exact .inl ⟨⟨le_rfl, by dsimp only; omega⟩, rfl⟩
        · exact .inr hold
      · exact .inr hrest

theorem asc16Rows_reads : ∀ o ∈ (asc16Rows font left n top p g).reads, (p ≤ o ∧ o < p+n) ∨ o ∈ g.reads := by
  induction n generalizing top p g with
  | zero => exact fun o ho => .inr ho
  | succ n ih =>
    intro o ho
    rcases ih o ho with hin | hrest
    · exact .inl (by push_cast; omega)
    · rcases asc16Row_reads o hrest with rfl | hold
      · exact .inl (by push_cast; omega)
      · exact .inr hold

theorem asc16Rows_pixels : ∀ q ∈ (asc16Rows font left n top p g).pixels,
    (left ≤ q.1 ∧ q.1 < left+asc16Width) ∧ (top ≤ q.2 ∧ q.2 < top+n) ∨ q ∈ g.pixels := by
  induction n generalizing top p g with
  | zero => exact fun q hq => .inr hq
  | succ n ih =>
    intro q hq
    rcases ih q hq with hin | hrest
    · exact .inl (by omega)
    · rcases asc16Row_pixels q hrest with hrow | hold
      · exact .inl (by omega)
      · exact .inr hold

/-- A character draws in its cell. -/
theorem drawAsc16_pixels : ∀ q ∈ (drawAsc16 font ch left top).pixels,
    (left ≤ q.1 ∧ q.1 < left+asc16Width) ∧ (top ≤ q.2 ∧ q.2 < top+asc16Height) :=
  fun q hq => (asc16Rows_pixels q hq).resolve_right List.not_mem_nil

/-- A character from 0 to 255 has its bytes in the table. -/
theorem drawAsc16_reads (hch : 0 ≤ ch) (hlt : ch < 256) :
    ∀ o ∈ (drawAsc16 font ch left top).reads, 0 ≤ o ∧ o < asc16Bytes := by
  intro o ho
  have hin := (asc16Rows_reads o ho).resolve_right List.not_mem_nil
  rw [asc16Size, asc16Height] at hin
  rw [asc16Bytes]
  push_cast at hin
  omega

end Glyphs

/-! ## The cursor -/

/-- The screen has the console's size, and all calls so far were sound. -/
structure Kept (v : Vbe) (font : ℤ → Byte) (s : Console) : Prop where
  rowNum : s.rowNum = v.height/asc16Height
  colNum : s.colNum = v.width/asc16Width
  calls : ∀ c ∈ s.calls, c.Sound v font

/-- The cursor is on the screen. -/
structure Placed (v : Vbe) (font : ℤ → Byte) (s : Console) : Prop where
  kept : Kept v font s
  row : s.row < s.rowNum
  col : s.col < s.colNum

section Cursor

variable {v : Vbe} {font : ℤ → Byte} {s s' : Console} {d : Draw} {c : ℤ} {colour : Colour}

theorem Kept.call (h : Kept v font s) (hd : (Call.mk s.row s.col d).Sound v font) : Kept v font (s.call d) := by
  refine ⟨h.rowNum, h.colNum, fun c hc => ?_⟩
  rcases List.mem_cons.mp hc with rfl | hc
  · exact hd
  · exact h.calls c hc

/-- The cursor goes elsewhere. -/
theorem Kept.goes (h : Kept v font s) (row col : ℕ) : Kept v font { s with row := row, col := col } :=
  ⟨h.rowNum, h.colNum, h.calls⟩

theorem Placed.inside (h : Placed v font s) : (Call.mk s.row s.col d).Inside v := by
  have hrow := h.row
  have hcol := h.col
  rw [h.kept.rowNum] at hrow
  rw [h.kept.colNum] at hcol
  exact ⟨hrow, hcol⟩

theorem Placed.call (h : Placed v font s) (hscreen : d.OnScreen v font) (hfont : d.Ascii → d.InFont font) :
    Placed v font (s.call d) :=
  ⟨h.kept.call ⟨.inl h.inside, hscreen, hfont⟩, h.row, h.col⟩

/-- The cell of the cursor is on the screen. -/
theorem Placed.cell (h : Placed v font s) :
    s.col*asc16Width+asc16Width ≤ v.width ∧ s.row*asc16Height+asc16Height ≤ v.height := by
  have hin : (Call.mk s.row s.col (vbeScroll v)).Inside v := h.inside
  obtain ⟨hrow, hcol⟩ := hin
  dsimp only at hrow hcol
  rw [asc16Height] at hrow
  rw [asc16Width] at hcol
  rw [asc16Height, asc16Width]
  omega

theorem fill_screen {left top : ℤ} {width height : ℕ} (hleft : 0 ≤ left) (hright : left+width ≤ v.width)
    (htop : 0 ≤ top) (hbottom : top+height ≤ v.height) : (Draw.fill ⟨left, top, width, height⟩ colour).OnScreen v font := by
  rintro x y ⟨hx, hy⟩
  dsimp only at hx hy
  refine ⟨?_, ?_⟩ <;> dsimp only <;> omega

theorem Placed.fill (h : Placed v font s) (colour : Colour) : Placed v font (s.call (.fill s.rect colour)) := by
  obtain ⟨hright, hbottom⟩ := h.cell
  refine h.call (fill_screen ?_ ?_ ?_ ?_) fun _ => trivial
  · positivity
  · exact_mod_cast hright
  · positivity
  · exact_mod_cast hbottom

theorem Placed.drawCursor (h : Placed v font s) : Placed v font s.drawCursor := h.fill _

theorem Placed.unputChar (h : Placed v font s) : Placed v font s.unputChar := h.fill _

theorem Placed.asc16 (h : Placed v font s) (hc : c < 256) (colour : Colour) :
    Placed v font (s.call (.asc16 c (s.col*asc16Width) (s.row*asc16Height) colour)) := by
  obtain ⟨hright, hbottom⟩ := h.cell
  refine h.call (fun q hq => ?_) fun hascii => drawAsc16_reads hascii hc
  have hin := drawAsc16_pixels q hq
  refine ⟨?_, ?_⟩ <;> dsimp only <;> omega

/-- The two calls of `scroll` with the cursor below the screen, and the cursor then. -/
theorem scroll_placed (h : Kept v font s) (hheight : asc16Height ≤ v.height) (hwidth : asc16Width ≤ v.width)
    (hrow : s.row ≤ s.rowNum) (hcol : s.col = 0) : Placed v font (s.scroll v) := by
  have hrows : 0 < s.rowNum := h.rowNum ▸ Nat.div_pos hheight (by decide)
  have hcols : 0 < s.colNum := h.colNum ▸ Nat.div_pos hwidth (by decide)
  rw [Console.scroll]
  by_cases hlt : s.row < s.rowNum
  · rw [if_pos hlt]
    exact ⟨h, hlt, hcol ▸ hcols⟩
  · rw [if_neg hlt]
    have heq : s.row = v.height/asc16Height := by
      rw [← h.rowNum]
      omega
    have hmove : (vbeScroll v).OnScreen v font := by
      have hsplit : v.width*v.bytesPp*asc16Height+v.width*v.bytesPp*(v.height-asc16Height) =
          v.bytesPp*v.width*v.height := by
        rw [← Nat.mul_add, Nat.add_sub_cancel' hheight, Nat.mul_comm v.width]
      refine ⟨?_, hsplit.le⟩
      rw [Nat.zero_add]
      exact (Nat.le_add_left _ _).trans hsplit.le
    have hmoved := h.call (d := vbeScroll v) ⟨.inr ⟨heq, hcol, .inl rfl⟩, hmove, fun _ => trivial⟩
    have hline : (Draw.fill ⟨0, (s.row-1 : ℕ)*asc16Height, asc16Width*s.colNum, asc16Height⟩
        backgroundColour).OnScreen v font := by
      have hlast : (s.row-1)*asc16Height+asc16Height ≤ v.height := by
        rw [asc16Height] at heq ⊢
        omega
      have hwide : asc16Width*s.colNum ≤ v.width := by
        rw [h.colNum]
        exact Nat.mul_div_le _ _
      refine fill_screen le_rfl ?_ ?_ ?_
      · rw [zero_add]
        exact_mod_cast hwide
      · positivity
      · exact_mod_cast hlast
    have hcleared := hmoved.call (d := .fill ⟨0, (s.row-1 : ℕ)*asc16Height, asc16Width*s.colNum, asc16Height⟩
      backgroundColour) ⟨.inr ⟨heq, hcol, .inr (by rw [h.colNum]; rfl)⟩, hline, fun _ => trivial⟩
    refine Placed.drawCursor ⟨hcleared.goes _ _, ?_, hcols⟩
    change s.row-1 < s.rowNum
    omega

/-! ## Output -/

section Output

variable (hwidth : asc16Width ≤ v.width) (hheight : asc16Height ≤ v.height)

include hwidth hheight

theorem init_placed : Placed v font (Console.init v) := by
  have hblank : Placed v font ⟨v.height/asc16Height, v.width/asc16Width, 0, 0, hz, true, []⟩ :=
    ⟨⟨rfl, rfl, fun c hc => absurd hc List.not_mem_nil⟩, Nat.div_pos hheight (by decide),
      Nat.div_pos hwidth (by decide)⟩
  refine Placed.drawCursor (hblank.call (fill_screen le_rfl ?_ le_rfl ?_) fun _ => trivial)
  · rw [zero_add]
  · rw [zero_add]

theorem putChar_placed (h : Placed v font s) (hc : c < 256) : Placed v font (s.putChar v c colour) := by
  have hdrawn := (h.fill backgroundColour).asc16 hc colour
  rw [Console.putChar]
  refine Placed.drawCursor ?_
  dsimp only
  split_ifs with hend
  · exact scroll_placed (hdrawn.kept.goes _ _) hheight hwidth hdrawn.row rfl
  · exact ⟨hdrawn.kept.goes _ _, hdrawn.row, lt_of_le_of_ne hdrawn.col hend⟩

theorem putChars_placed (h : Placed v font s) (hc : c < 256) (n : ℕ) :
    Placed v font ((Console.putChar v c colour)^[n] s) := by
  induction n generalizing s with
  | zero => exact h
  | succ n ih => exact ih (putChar_placed hwidth hheight h hc)

theorem newline_placed (h : Placed v font s) : Placed v font (s.newline v) := by
  have hdrawn := h.fill backgroundColour
  exact scroll_placed (hdrawn.kept.goes _ _) hheight hwidth hdrawn.row rfl

omit hwidth hheight in
theorem backspace_placed (h : Placed v font s) : Placed v font s.backspace := by
  have hdrawn := h.unputChar
  rw [Console.backspace]
  split_ifs with hcol hrow
  · exact hdrawn
  · refine Placed.unputChar ⟨hdrawn.kept.goes _ _, ?_, ?_⟩
    · exact (Nat.sub_le _ _).trans_lt hdrawn.row
    · exact Nat.sub_lt (Nat.zero_lt_of_lt hdrawn.col) Nat.one_pos
  · refine Placed.unputChar ⟨hdrawn.kept.goes _ _, hdrawn.row, ?_⟩
    exact (Nat.sub_le _ _).trans_lt hdrawn.col

theorem putc_placed (h : Placed v font s) (hc : c < 256) : Placed v font (s.putc v c colour) := by
  rw [Console.putc]
  refine Placed.drawCursor ?_
  split_ifs
  · exact newline_placed hwidth hheight h
  · exact putChars_placed hwidth hheight h (by decide) _
  · exact backspace_placed h
  · exact putChar_placed hwidth hheight h hc

theorem puts_placed (h : Placed v font s) (bytes : List Byte) : Placed v font (Console.puts v colour bytes s) := by
  induction bytes generalizing s with
  | nil => exact h
  | cons b bytes ih =>
    have hlt : b.toInt < 256 := by
      have hbound := BitVec.toInt_lt (x := b)
      omega
    exact ih (putc_placed hwidth hheight h hlt)

omit hwidth hheight in
theorem update_placed (h : Placed v font s) : Placed v font s.update := by
  rw [Console.update]
  generalize (s.tickToUpdate+2^32-1)%2^32 = tick
  split_ifs
  · exact ⟨⟨h.kept.rowNum, h.kept.colNum, h.kept.calls⟩, h.row, h.col⟩
  · exact Placed.drawCursor ⟨⟨h.kept.rowNum, h.kept.colNum, h.kept.calls⟩, h.row, h.col⟩

theorem step_placed {o : Output} (h : Placed v font s) (hs : step v o s = some s') : Placed v font s' := by
  cases o with
  | write bytes =>
    cases hs
    exact puts_placed hwidth hheight h bytes
  | kprintf colour fmt args =>
    cases fmt with
    | none =>
      cases hs
      exact h
    | some fmt =>
      rw [step, Console.kprintf] at hs
      obtain ⟨r, -, hr⟩ := Option.map_eq_some_iff.mp hs
      rw [← hr]
      exact puts_placed hwidth hheight h _
  | update =>
    rw [step, Option.some_inj] at hs
    rw [← hs]
    exact update_placed h

theorem run_placed {outs : List Output} (h : Placed v font s) (hs : run v outs s = some s') : Placed v font s' := by
  induction outs generalizing s with
  | nil =>
    cases hs
    exact h
  | cons o outs ih =>
    obtain ⟨s₁, hfirst, hrest⟩ := Option.bind_eq_some_iff.mp hs
    exact ih (step_placed hwidth hheight h hfirst) hrest

end Output

end Cursor

/-! ## The echo -/

/-- The console of the line editor has its cursor at the same place. -/
structure Follows (t : ConsoleInput.Console) (s : Console) : Prop where
  rowNum : t.rowNum = s.rowNum
  colNum : t.colNum = s.colNum
  row : t.row = s.row
  col : t.col = s.col

section Echo

variable {v : Vbe} {s : Console} {t : ConsoleInput.Console} {c : ℤ} {colour : Colour}

theorem Follows.call {d : Draw} (h : Follows t s) : Follows t (s.call d) := ⟨h.rowNum, h.colNum, h.row, h.col⟩

theorem follows_scroll (h : Follows t s) : Follows t.scroll (s.scroll v) := by
  have hrow := h.row
  have hrowNum := h.rowNum
  rw [ConsoleInput.Console.scroll, Console.scroll]
  split_ifs with hin hin' hin'
  · exact h
  · omega
  · omega
  · exact Follows.call ⟨h.rowNum, h.colNum, congrArg (·-1) h.row, rfl⟩

theorem follows_putChar (h : Follows t s) : Follows t.putChar (s.putChar v c colour) := by
  have hdrawn := (h.call (d := .fill s.rect backgroundColour)).call
    (d := .asc16 c (s.col*asc16Width) (s.row*asc16Height) colour)
  have hcol := hdrawn.col
  have hcolNum := hdrawn.colNum
  rw [ConsoleInput.Console.putChar, Console.putChar]
  refine Follows.call ?_
  dsimp only
  split_ifs with hend hend' hend'
  · exact follows_scroll ⟨hdrawn.rowNum, hcolNum, congrArg (·+1) hdrawn.row, rfl⟩
  · exact absurd ((congrArg (·+1) hcol).symm.trans (hend.trans hcolNum)) hend'
  · exact absurd ((congrArg (·+1) hcol).trans (hend'.trans hcolNum.symm)) hend
  · exact ⟨hdrawn.rowNum, hcolNum, hdrawn.row, congrArg (·+1) hcol⟩

theorem follows_putChars (h : Follows t s) (n : ℕ) :
    Follows (ConsoleInput.Console.putChar^[n] t) ((Console.putChar v c colour)^[n] s) := by
  induction n generalizing t s with
  | zero => exact h
  | succ n ih => exact ih (follows_putChar h)

theorem follows_backspace (h : Follows t s) : Follows t.unput s.backspace := by
  have hdrawn : Follows t s.unputChar := h.call
  obtain ⟨hrowNum, hcolNum, hrow, hcol⟩ := hdrawn
  rw [ConsoleInput.Console.unput, Console.backspace, hrow, hcol]
  change Follows _ (if s.unputChar.col = 0 then _ else _)
  by_cases hfirst : s.unputChar.col = 0
  · by_cases htop : s.unputChar.row = 0
    · rw [if_pos hfirst, if_pos htop, if_pos hfirst, if_pos htop]
      exact ⟨hrowNum, hcolNum, hrow, hcol⟩
    · rw [if_pos hfirst, if_neg htop, if_pos hfirst, if_neg htop]
      exact Follows.call ⟨hrowNum, hcolNum, rfl, congrArg (·-1) hcolNum⟩
  · rw [if_neg hfirst, if_neg hfirst]
    exact Follows.call ⟨hrowNum, hcolNum, rfl, rfl⟩

/-- The echo moves the line editor's cursor as the console's. -/
theorem putc_follows (h : Follows t s) (b : Byte) : Follows (t.putc b.toNat) (s.putc v b.toInt colour) := by
  have hcase : ∀ n : ℕ, n < 128 → (b.toInt = n ↔ b.toNat = n) := by
    intro n hn
    rw [BitVec.toInt_eq_toNat_cond]
    have hlt := b.isLt
    split_ifs <;> omega
  have hnewline : b.toInt = 10 ↔ b.toNat = ConsoleInput.newline := hcase 10 (by decide)
  have htab : b.toInt = 9 ↔ b.toNat = ConsoleInput.tab := hcase 9 (by decide)
  have hback : b.toInt = 8 ↔ b.toNat = ConsoleInput.backspace := hcase 8 (by decide)
  rw [ConsoleInput.Console.putc, Console.putc]
  simp only [← hnewline, ← htab, ← hback]
  refine Follows.call ?_
  split_ifs
  · have hdrawn := h.call (d := .fill s.rect backgroundColour)
    exact follows_scroll ⟨hdrawn.rowNum, hdrawn.colNum, congrArg (·+1) hdrawn.row, rfl⟩
  · rw [h.col]
    exact follows_putChars h _
  · exact follows_backspace h
  · exact follows_putChar h

end Echo

/-- Whatever is printed, the cursor is on the screen at each drawing call but the two
of `scroll`, all that is drawn is on the screen, and the font is read in its table for ASCII
characters. -/
theorem output_sound {v : Vbe} (hwidth : asc16Width ≤ v.width) (hheight : asc16Height ≤ v.height)
    (font : ℤ → Byte) {outs : List Output} {s : Console} (h : run v outs (Console.init v) = some s) :
    ∀ c ∈ s.calls, c.Sound v font :=
  (run_placed hwidth hheight (init_placed hwidth hheight) h).kept.calls

/-- A screen of one character. -/
def tiny : Vbe := ⟨8, 16, 4, 512, by decide, by decide, by decide, by decide, by decide, by decide⟩

theorem output_sound_letter : ∃ s, run tiny [.write [65]] (Console.init tiny) = some s ∧
    ∀ c ∈ s.calls, c.Sound tiny fun _ => 0 := by
  obtain ⟨s, hs⟩ : ∃ s, run tiny [.write [65]] (Console.init tiny) = some s := ⟨_, rfl⟩
  exact ⟨s, hs, output_sound (by decide) (by decide) _ hs⟩

/-- A newline on the last row: `vbe_t::scroll` is called with the cursor below it. For a
byte from 0x80 on the font is read before its table. -/
theorem cursor_below : (¬∀ (v : Vbe) (font : ℤ → Byte) (outs : List Output) (s : Console),
      asc16Width ≤ v.width → asc16Height ≤ v.height → run v outs (Console.init v) = some s →
      ∀ c ∈ s.calls, c.Inside v ∧ c.draw.OnScreen v font) ∧
    ¬∀ (v : Vbe) (font : ℤ → Byte) (outs : List Output) (s : Console),
      asc16Width ≤ v.width → asc16Height ≤ v.height → run v outs (Console.init v) = some s →
      ∀ c ∈ s.calls, c.draw.InFont font := by
  constructor
  · intro hall
    obtain ⟨s, hs⟩ : ∃ s, run tiny [.write [10]] (Console.init tiny) = some s := ⟨_, rfl⟩
    have hcall : Call.mk 1 0 (vbeScroll tiny) ∈ s.calls := by
      cases hs
      exact List.mem_of_getElem? (i := 3) rfl
    exact absurd (hall tiny (fun _ => 0) _ s (by decide) (by decide) hs _ hcall).1.1 (by decide)
  · intro hall
    obtain ⟨s, hs⟩ : ∃ s, run tiny [.write [0x80]] (Console.init tiny) = some s := ⟨_, rfl⟩
    have hcall : Call.mk 0 0 (.asc16 (-128) 0 0 white) ∈ s.calls := by
      cases hs
      exact List.mem_of_getElem? (i := 5) rfl
    have hread : (-2033 : ℤ) ∈ (drawAsc16 (fun _ => 0) (-128) 0 0).reads := by decide
    exact absurd (hall tiny (fun _ => 0) _ s (by decide) (by decide) hs _ hcall _ hread).1 (by decide)

end BabyOS.ConsoleOutput

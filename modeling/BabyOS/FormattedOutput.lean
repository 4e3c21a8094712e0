import BabyOS.NumberRendering

/-!
# Formatted output

`vsprintf` of the kernel and of the C library. Characters and numbers are stored
by their index in the buffer, but `%s` goes through `strcat`, which looks for a
NUL behind what was stored so far. A buffer is the list of its bytes; a store or a
load behind it and an `int` that overflows have no result.
-/

set_option autoImplicit false

namespace BabyOS.FormattedOutput
open BabyOS.ByteWords BabyOS.NumberRendering

inductive Library
  | kernel
  | libc
deriving DecidableEq, Repr

/-! ## The format -/

/-- A conversion: its width, its prefix and its character. -/
structure Conversion where
  width : ℕ
  prefixL : Bool
  c : Byte

inductive Item
  | literal (c : Byte)
  | conversion (d : Conversion)

/-- Where the loop is: between conversions, in the digits of a width, or behind an `l`. -/
inductive Mode
  | text
  | width (w : ℕ)
  | prefixL (w : ℕ) (again : Bool)

def isDigit (c : Byte) : Bool := chr '0' ≤ c && c ≤ chr '9'

/-- The format from some character on. A format that ends in a conversion is left
there; only the C library takes a second `l`. -/
def items (lib : Library) : Mode → List Byte → List Item
  | _, [] => []
  | .text, c :: l => if c ≠ chr '%' then .literal c :: items lib .text l else items lib (.width 0) l
  | .width w, c :: l =>
    if isDigit c then items lib (.width (w*10+c.toNat-(chr '0').toNat)) l
    else if c = chr 'l' then items lib (.prefixL w false) l
    else .conversion ⟨w, false, c⟩ :: items lib .text l
  | .prefixL w again, c :: l =>
    if lib = .libc ∧ again = false ∧ c = chr 'l' then items lib (.prefixL w true) l
    else .conversion ⟨w, true, c⟩ :: items lib .text l

/-! ## The stores -/

/-- The slots that `va_arg` goes through, and the strings at the addresses in them. -/
structure Arguments where
  slot : ℕ → BitVec 64
  string : BitVec 64 → List Byte
  nonzero : ∀ p, ∀ c ∈ string p, c ≠ 0

structure State where
  buffer : List Byte
  total : ℕ
  arg : ℕ

def int (n : ℕ) : Option ℕ := if n < 2^31 then some n else none

def put (i : ℕ) (c : Byte) (buf : List Byte) : Option (List Byte) :=
  if i < buf.length then some (buf.set i c) else none

def putAll (i : ℕ) : List Byte → List Byte → Option (List Byte)
  | [], buf => some buf
  | c :: l, buf => (put i c buf).bind (putAll (i+1) l)

/-- The string goes where the first NUL from `dst` on is; no other is stored behind it. -/
def strcat (dst : ℕ) (src buf : List Byte) : Option (List Byte) :=
  ((buf.drop dst).findIdx? (· = 0)).bind fun k => putAll (dst+k) src buf

/-- `buffer[total++]` for the characters of a list. -/
def emit (l : List Byte) (s : State) : Option State :=
  (putAll s.total l s.buffer).bind fun buffer => (int (s.total+l.length)).map fun total =>
    { s with buffer, total }

def sprintNumber (lib : Library) (long : Bool) (slot : BitVec 64) (width base : ℤ) (sign : Bool) :
    Option Output :=
  match lib, long with
  | .kernel, true => Kernel.sprintLong slot width base sign
  | .kernel, false => Kernel.sprintInt (slot.setWidth 32) width base sign
  | .libc, true => Libc.sprintLong slot width base sign
  | .libc, false => Libc.sprintInt (slot.setWidth 32) width base sign

/-- The result of `sprint_long` or `sprint_int` at the end of the output. -/
def number (out : Option Output) (s : State) : Option State :=
  out.bind fun r => (putAll s.total r.1 s.buffer).bind fun buffer =>
    (int ((s.total : ℤ)+r.2).toNat).map fun total => { s with buffer, total }

/-- `sprint_str` on the argument `p`. -/
def sprintStr (args : Arguments) (p : BitVec 64) (width : ℕ) (s : State) : Option State :=
  if p = 0 then some s
  else
    let str := args.string p
    let len := str.length
    let width := if width < len then len else width
    (strcat s.total str s.buffer).bind fun buffer =>
      (putAll (s.total+len) (List.replicate (width-len) (chr ' ')) buffer).bind fun buffer =>
        (int (s.total+width)).map fun total => { s with buffer, total }

def next (s : State) : State := { s with arg := s.arg+1 }

/-- The switch on the character of a conversion. -/
def convert (lib : Library) (args : Arguments) (d : Conversion) (width : ℕ) (s : State) : Option State :=
  let slot := args.slot s.arg
  if d.c = chr 'd' ∨ d.c = chr 'u' then
    number (sprintNumber lib d.prefixL slot width 10 (d.c = chr 'd')) (next s)
  else if d.c = chr 'x' then number (sprintNumber lib d.prefixL slot width 16 false) (next s)
  else if d.c = chr 'p' then
    (emit [chr '0', chr 'x'] s).bind fun s => number (sprintNumber lib true slot width 16 false) (next s)
  else if d.c = chr 'c' then emit [slot.setWidth 8] (next s)
  else if d.c = chr 's' then sprintStr args slot width (next s)
  else if d.c = chr '%' then emit [chr '%'] s
  else emit [chr '%', d.c] s

def step (lib : Library) (args : Arguments) : Item → State → Option State
  | .literal c, s => emit [c] s
  | .conversion d, s => (int d.width).bind fun width => convert lib args d width s

def run (lib : Library) (args : Arguments) : List Item → State → Option State
  | [], s => some s
  | x :: xs, s => (step lib args x s).bind (run lib args xs)

/-- The count and the buffer; a null pointer stands for no format. -/
def vsprintf (lib : Library) (fmt : Option (List Byte)) (args : Arguments) (buf : List Byte) :
    Option (ℕ × List Byte) :=
  (put 0 0 buf).bind fun buf =>
    match fmt with
    | none => some (0, buf)
    | some fmt => (run lib args (items lib .text fmt) ⟨buf, 0, 0⟩).map fun s => (s.total, s.buffer)

/-! ## The rendering -/

/-- The parts of the output: a width that is read, characters, the text of a number,
and a string with its width. -/
inductive Piece
  | width (w : ℕ)
  | chars (l : List Byte)
  | number (base : ℕ) (z : ℤ) (text : List Byte)
  | string (s : List Byte) (w : ℕ)

def Piece.text : Piece → List Byte
  | .width _ => []
  | .chars l => l
  | .number _ _ text => text
  | .string s w => behind (chr ' ') w s

/-- The number with its padding: the C library puts it behind a number of 32 bits. -/
def numberPiece (lib : Library) (long : Bool) (slot : BitVec 64) (width base : ℕ) (sign : Bool) : Piece :=
  let z := if long then value slot sign else value (slot.setWidth 32) sign
  .number base z (if lib = .libc ∧ long = false then behind (chr ' ') width (numeral base z)
    else inFront (fill base) width (numeral base z))

/-- What a conversion stands for, and whether it takes an argument. -/
def conversionPieces (lib : Library) (args : Arguments) (d : Conversion) (slot : BitVec 64) :
    List Piece × Bool :=
  if d.c = chr 'd' ∨ d.c = chr 'u' then
    ([numberPiece lib d.prefixL slot d.width 10 (d.c = chr 'd')], true)
  else if d.c = chr 'x' then ([numberPiece lib d.prefixL slot d.width 16 false], true)
  else if d.c = chr 'p' then
    ([.chars [chr '0', chr 'x'], numberPiece lib true slot d.width 16 false], true)
  else if d.c = chr 'c' then ([.chars [slot.setWidth 8]], true)
  else if d.c = chr 's' then
    (if slot = 0 then [] else [.string (args.string slot) d.width], true)
  else if d.c = chr '%' then ([.chars [chr '%']], false)
  else ([.chars [chr '%', d.c]], false)

def piecesFrom (lib : Library) (args : Arguments) : ℕ → List Item → List Piece
  | _, [] => []
  | k, .literal c :: xs => .chars [c] :: piecesFrom lib args k xs
  | k, .conversion d :: xs =>
    let r := conversionPieces lib args d (args.slot k)
    .width d.width :: r.1++piecesFrom lib args (if r.2 then k+1 else k) xs

def pieces (lib : Library) (fmt : Option (List Byte)) (args : Arguments) : List Piece :=
  match fmt with
  | none => []
  | some fmt => piecesFrom lib args 0 (items lib .text fmt)

def textOf (ps : List Piece) : List Byte := ps.flatMap Piece.text

/-- The rendering of a format with its arguments. -/
def rendering (lib : Library) (fmt : Option (List Byte)) (args : Arguments) : List Byte :=
  textOf (pieces lib fmt args)

/-- The rendering and a NUL behind it are all that changes in the buffer, and its
length is the result. -/
def Formats (lib : Library) (fmt : Option (List Byte)) (args : Arguments) (buf : List Byte) : Prop :=
  (rendering lib fmt args).length < buf.length ∧
  vsprintf lib fmt args buf = some ((rendering lib fmt args).length,
    rendering lib fmt args++0 :: buf.drop ((rendering lib fmt args).length+1))

/-! ## Stores -/

section Stores

variable {i t : ℕ} {c : Byte} {l s buf buf' : List Byte}

theorem put_some (h : put i c buf = some buf') : i < buf.length ∧ buf' = buf.set i c := by
  rw [put] at h
  split at h
  next hlt => exact ⟨hlt, (Option.some.inj h).symm⟩
  next => cases h

/-- Stores in a row change nothing in front of them and nothing behind. -/
theorem putAll_frame (h : putAll i l buf = some buf') :
    buf'.length = buf.length ∧ ∀ j, j < i ∨ i+l.length ≤ j → buf'[j]? = buf[j]? := by
  induction l generalizing i buf with
  | nil =>
    rw [← Option.some.inj h]
    exact ⟨rfl, fun _ _ => rfl⟩
  | cons c l ih =>
    obtain ⟨b, hb, hrest⟩ := Option.bind_eq_some_iff.mp h
    obtain ⟨_, rfl⟩ := put_some hb
    have ⟨hlen, hsame⟩ := ih hrest
    rw [List.length_set] at hlen
    refine ⟨hlen, fun j hj => ?_⟩
    rw [List.length_cons] at hj
    rw [hsame j (by omega), List.getElem?_set_ne (by omega)]

/-- With room for them, stores in a row put the list in place. -/
theorem putAll_eq (h : i+l.length ≤ buf.length) :
    putAll i l buf = some (buf.take i++l++buf.drop (i+l.length)) := by
  induction l generalizing i buf with
  | nil => simp [putAll]
  | cons c l ih =>
    rw [List.length_cons] at h
    have hput : put i c buf = some (buf.set i c) := if_pos (by omega)
    have hlen : (buf.take i).length = i := List.length_take_of_le (by omega)
    have hset : buf.set i c = buf.take i++c :: buf.drop (i+1) := by
      rw [List.set_eq_take_append_cons_drop, if_pos (by omega)]
    have htake : (buf.set i c).take (i+1) = buf.take i++[c] := by
      rw [hset, List.take_append, hlen, List.take_of_length_le (by omega)]
      simp
    have hdrop : (buf.set i c).drop (i+1+l.length) = buf.drop (i+(l.length+1)) := by
      rw [List.drop_set_of_lt (by omega)]
      congr 1
      omega
    rw [putAll, hput, Option.bind_some, ih (by rw [List.length_set]; omega), htake, hdrop]
    simp

/-- What stores in a row make of a byte that is not NUL. -/
theorem putAll_nonzero (hl : ∀ c ∈ l, c ≠ 0) (h : putAll i l buf = some buf') {j : ℕ}
    (hj : buf[j]? ≠ some 0) : buf'[j]? ≠ some 0 := by
  induction l generalizing i buf with
  | nil =>
    rw [← Option.some.inj h]
    exact hj
  | cons c l ih =>
    obtain ⟨b, hb, hrest⟩ := Option.bind_eq_some_iff.mp h
    obtain ⟨hlt, rfl⟩ := put_some hb
    refine ih (fun d hd => hl d (List.mem_cons_of_mem _ hd)) hrest ?_
    by_cases hij : i = j
    · subst hij
      rw [List.getElem?_set_self hlt]
      exact fun he => hl c List.mem_cons_self (Option.some.inj he)
    · rw [List.getElem?_set_ne hij]
      exact hj

/-- A string goes somewhere from `t` on, and behind `t` if that byte is not NUL. -/
theorem strcat_some (h : strcat t s buf = some buf') :
    ∃ k, putAll (t+k) s buf = some buf' ∧ (buf[t]? ≠ some 0 → 0 < k) := by
  obtain ⟨k, hk, hput⟩ := Option.bind_eq_some_iff.mp h
  refine ⟨k, hput, fun hne => ?_⟩
  by_contra hz
  have hzero : k = 0 := by omega
  subst hzero
  have ⟨hlt, hfound, _⟩ := List.findIdx?_eq_some_iff_getElem.mp hk
  rw [decide_eq_true_eq, List.getElem_drop] at hfound
  rw [List.length_drop] at hlt
  exact hne (by rw [List.getElem?_eq_getElem (by omega)]; exact congrArg some hfound)

end Stores

/-! ## Pieces -/

/-- What the code does for a piece: the buffer and the count. -/
def stepPiece : Piece → List Byte × ℕ → Option (List Byte × ℕ)
  | .width w, x => (int w).map fun _ => x
  | .chars l, x => (putAll x.2 l x.1).bind fun buf => (int (x.2+l.length)).map fun t => (buf, t)
  | .number base z text, x =>
    if Fits base z then (putAll x.2 text x.1).bind fun buf => (int (x.2+text.length)).map fun t => (buf, t)
    else none
  | .string s w, x =>
    (strcat x.2 s x.1).bind fun buf =>
      (putAll (x.2+s.length) (List.replicate (w-s.length) (chr ' ')) buf).bind fun buf =>
        (int (x.2+max w s.length)).map fun t => (buf, t)

def runPieces : List Piece → List Byte × ℕ → Option (List Byte × ℕ)
  | [], x => some x
  | p :: ps, x => (stepPiece p x).bind (runPieces ps)

theorem runPieces_append (ps qs : List Piece) (x : List Byte × ℕ) :
    runPieces (ps++qs) x = (runPieces ps x).bind (runPieces qs) := by
  induction ps generalizing x with
  | nil => rfl
  | cons p ps ih =>
    rw [List.cons_append, runPieces, runPieces, Option.bind_assoc]
    congr 1
    funext y
    exact ih y

/-- A state from its buffer and count and the number of its next argument. -/
def toState (k : ℕ) (x : List Byte × ℕ) : State := ⟨x.1, x.2, k⟩

section Code

variable {lib : Library} {args : Arguments} {x : List Byte × ℕ} {k : ℕ}

theorem emit_eq (l : List Byte) : emit l (toState k x) = (stepPiece (.chars l) x).map (toState k) := by
  rw [emit, stepPiece, Option.map_bind]
  congr 1
  funext buf
  rw [Function.comp_apply, Option.map_map]
  rfl

theorem sprintNumber_eq (lib : Library) (long : Bool) (slot : BitVec 64) (width : ℕ) {base : ℕ} (sign : Bool)
    (hb : 10 ≤ base) (hle : base ≤ 16) {z : ℤ} {text : List Byte}
    (hp : numberPiece lib long slot width base sign = .number base z text) :
    sprintNumber lib long slot width base sign = if Fits base z then some (text, (text.length : ℤ)) else none := by
  rw [numberPiece] at hp
  obtain ⟨_, rfl, rfl⟩ := Piece.number.inj hp
  cases lib <;> cases long
  · exact (kernel_int_stores hb hle (slot.setWidth 32) width sign).trans (if_pos (int_fits hb _ sign)).symm
  · rw [sprintNumber, kernel_long_eq (by omega) hle]
    rfl
  · exact (libc_int_stores hb hle (slot.setWidth 32) width sign).trans (if_pos (int_fits hb _ sign)).symm
  · rw [sprintNumber, libc_long_eq, kernel_long_eq (by omega) hle]
    rfl

theorem number_eq (lib : Library) (long : Bool) (slot : BitVec 64) (width base : ℕ) (sign : Bool)
    (hb : 10 ≤ base) (hle : base ≤ 16) :
    number (sprintNumber lib long slot width base sign) (toState k x) =
      (stepPiece (numberPiece lib long slot width base sign) x).map (toState k) := by
  obtain ⟨z, text, hp⟩ : ∃ z text, numberPiece lib long slot width base sign = .number base z text := ⟨_, _, rfl⟩
  rw [sprintNumber_eq lib long slot width sign hb hle hp, hp, stepPiece]
  by_cases hfits : Fits base z
  · have hcount : ((x.2 : ℤ)+(text.length : ℤ)).toNat = x.2+text.length := by omega
    rw [if_pos hfits, if_pos hfits, number, Option.bind_some, Option.map_bind]
    congr 1
    funext buf
    rw [Function.comp_apply, Option.map_map]
    exact congrArg (fun n => (int n).map _) hcount
  · rw [if_neg hfits, if_neg hfits]
    rfl

theorem sprintStr_eq {p : BitVec 64} (hp : p ≠ 0) (width : ℕ) :
    sprintStr args p width (toState k x) = (stepPiece (.string (args.string p) width) x).map (toState k) := by
  have hwidth : (if width < (args.string p).length then (args.string p).length else width) =
      max width (args.string p).length := by
    split <;> omega
  have hpad : max width (args.string p).length-(args.string p).length = width-(args.string p).length := by omega
  rw [sprintStr, if_neg hp]
  simp only [hwidth, hpad]
  rw [stepPiece, Option.map_bind]
  congr 1
  funext buf
  rw [Function.comp_apply, Option.map_bind]
  congr 1
  funext buf
  rw [Function.comp_apply, Option.map_map]
  rfl

/-- A conversion does what its pieces say. -/
theorem convert_eq (d : Conversion) :
    convert lib args d d.width (toState k x) =
      (runPieces (conversionPieces lib args d (args.slot k)).1 x).map
        (toState (if (conversionPieces lib args d (args.slot k)).2 then k+1 else k)) := by
  have hone : ∀ p : Piece, runPieces [p] x = stepPiece p x := fun p => by
    rw [runPieces]
    cases stepPiece p x <;> rfl
  have hslot : args.slot (toState k x).arg = args.slot k := rfl
  have hnext : next (toState k x) = toState (k+1) x := rfl
  rw [convert, hslot, conversionPieces]
  simp only [hnext]
  by_cases hd : d.c = chr 'd' ∨ d.c = chr 'u'
  · rw [if_pos hd, if_pos hd, hone]
    exact number_eq lib d.prefixL (args.slot k) d.width 10 (d.c = chr 'd') (by decide) (by decide)
  rw [if_neg hd, if_neg hd]
  by_cases hx : d.c = chr 'x'
  · rw [if_pos hx, if_pos hx, hone]
    exact number_eq lib d.prefixL (args.slot k) d.width 16 false (by decide) (by decide)
  rw [if_neg hx, if_neg hx]
  by_cases hp : d.c = chr 'p'
  · rw [if_pos hp, if_pos hp, emit_eq, runPieces, Option.bind_map, Option.map_bind]
    refine congrArg (Option.bind (stepPiece (.chars [chr '0', chr 'x']) x)) (funext fun y => ?_)
    have hone' : runPieces [numberPiece lib true (args.slot k) d.width 16 false] y =
        stepPiece (numberPiece lib true (args.slot k) d.width 16 false) y := by
      rw [runPieces]
      cases stepPiece (numberPiece lib true (args.slot k) d.width 16 false) y <;> rfl
    rw [Function.comp_apply, Function.comp_apply, hone']
    exact number_eq lib true (args.slot k) d.width 16 false (by decide) (by decide)
  rw [if_neg hp, if_neg hp]
  by_cases hc : d.c = chr 'c'
  · rw [if_pos hc, if_pos hc, hone]
    exact emit_eq _
  rw [if_neg hc, if_neg hc]
  by_cases hs : d.c = chr 's'
  · rw [if_pos hs, if_pos hs]
    by_cases hz : args.slot k = 0
    · rw [sprintStr, if_pos hz]
      simp only [if_pos hz]
      rfl
    · simp only [if_neg hz]
      rw [hone]
      exact sprintStr_eq hz d.width
  rw [if_neg hs, if_neg hs]
  by_cases hpc : d.c = chr '%'
  · rw [if_pos hpc, if_pos hpc, hone]
    exact emit_eq _
  · rw [if_neg hpc, if_neg hpc, hone]
    exact emit_eq _

theorem run_eq (xs : List Item) :
    (run lib args xs (toState k x)).map (fun s => (s.buffer, s.total)) = runPieces (piecesFrom lib args k xs) x := by
  induction xs generalizing x k with
  | nil => rfl
  | cons y xs ih =>
    cases y with
    | literal c =>
      rw [run, step, emit_eq, piecesFrom, runPieces, Option.bind_map, Option.map_bind]
      exact congrArg (Option.bind (stepPiece (.chars [c]) x)) (funext fun y => ih)
    | conversion d =>
      change ((step lib args (.conversion d) (toState k x)).bind (run lib args xs)).map _ =
        runPieces (.width d.width :: ((conversionPieces lib args d (args.slot k)).1++
          piecesFrom lib args (if (conversionPieces lib args d (args.slot k)).2 then k+1 else k) xs)) x
      rw [step, runPieces, stepPiece]
      by_cases hw : d.width < 2^31
      · rw [int, if_pos hw, Option.bind_some, Option.map_some, Option.bind_some, convert_eq, runPieces_append,
          Option.bind_map, Option.map_bind]
        exact congrArg (Option.bind _) (funext fun y => ih)
      · rw [int, if_neg hw]
        rfl

end Code

theorem vsprintf_eq (lib : Library) (fmt : Option (List Byte)) (args : Arguments) {buf : List Byte}
    (hbuf : 0 < buf.length) :
    vsprintf lib fmt args buf =
      (runPieces (pieces lib fmt args) (buf.set 0 0, 0)).map fun x => (x.2, x.1) := by
  rw [vsprintf, put, if_pos hbuf, Option.bind_some]
  cases fmt with
  | none => rfl
  | some fmt =>
    have hrun := @run_eq lib args (buf.set 0 0, 0) 0 (items lib .text fmt)
    rw [pieces]
    simp only
    rw [← hrun, Option.map_map]
    rfl

/-! ## Runs -/

section Runs

variable {ps : List Piece} {buf buf' : List Byte} {t t' : ℕ}

/-- The strings in the pieces have no NUL. -/
def Piece.Plain : Piece → Prop
  | .string s _ => ∀ c ∈ s, c ≠ 0
  | _ => True

/-- What a piece leaves of the buffer from `t` to `t'`. -/
structure Frame (buf buf' : List Byte) (t t' : ℕ) : Prop where
  length : buf'.length = buf.length
  before : ∀ j < t, buf'[j]? = buf[j]?
  after : ∀ j, t' ≤ j → buf[j]? ≠ some 0 → buf'[j]? ≠ some 0

theorem Frame.trans {b : List Byte} {u : ℕ} (h : Frame buf b t u) (h' : Frame b buf' u t') (htu : t ≤ u)
    (hut : u ≤ t') : Frame buf buf' t t' :=
  ⟨h'.length.trans h.length, fun j hj => (h'.before j (hj.trans_le htu)).trans (h.before j hj),
    fun j hj hne => h'.after j hj (h.after j (hut.trans hj) hne)⟩

theorem int_some {n : ℕ} (h : int n = some t) : n < 2^31 ∧ t = n := by
  rw [int] at h
  split at h
  next hlt => exact ⟨hlt, (Option.some.inj h).symm⟩
  next => cases h

theorem stored_frame {l : List Byte} (h : putAll t l buf = some buf') : Frame buf buf' t (t+l.length) := by
  have ⟨hlen, hsame⟩ := putAll_frame h
  exact ⟨hlen, fun j hj => hsame j (.inl hj), fun j hj hne => by rw [hsame j (.inr hj)]; exact hne⟩

theorem piece_frame {p : Piece} (hp : p.Plain) (h : stepPiece p (buf, t) = some (buf', t')) :
    t' = t+p.text.length ∧ Frame buf buf' t t' ∧ (t < 2^31 → t' < 2^31) := by
  have hstored : ∀ l : List Byte, ((putAll t l buf).bind fun b => (int (t+l.length)).map fun u => (b, u)) =
      some (buf', t') → t' = t+l.length ∧ Frame buf buf' t t' ∧ (t < 2^31 → t' < 2^31) := by
    intro l h
    obtain ⟨b, hput, hint⟩ := Option.bind_eq_some_iff.mp h
    obtain ⟨u, hu, heq⟩ := Option.map_eq_some_iff.mp hint
    obtain ⟨rfl, rfl⟩ := Prod.mk.inj heq
    have ⟨hlt, hcount⟩ := int_some hu
    subst hcount
    exact ⟨rfl, stored_frame hput, fun _ => hlt⟩
  cases p with
  | width w =>
    obtain ⟨_, _, heq⟩ := Option.map_eq_some_iff.mp h
    obtain ⟨rfl, rfl⟩ := Prod.mk.inj heq
    exact ⟨rfl, ⟨rfl, fun _ _ => rfl, fun _ _ hne => hne⟩, id⟩
  | chars l => exact hstored l h
  | number base z text =>
    rw [stepPiece] at h
    split at h
    · exact hstored text h
    · cases h
  | string s w =>
    obtain ⟨b, hcat, h⟩ := Option.bind_eq_some_iff.mp h
    obtain ⟨b', hput, h⟩ := Option.bind_eq_some_iff.mp h
    obtain ⟨u, hu, heq⟩ := Option.map_eq_some_iff.mp h
    obtain ⟨rfl, rfl⟩ := Prod.mk.inj heq
    have ⟨hlt, hcount⟩ := int_some hu
    subst hcount
    obtain ⟨k, hstr, _⟩ := strcat_some hcat
    have ⟨hlen, hsame⟩ := putAll_frame hstr
    have ⟨hlen', hsame'⟩ := putAll_frame hput
    rw [List.length_replicate] at hsame'
    refine ⟨?_, ⟨hlen'.trans hlen, fun j hj => ?_, fun j hj hne => ?_⟩, fun _ => hlt⟩
    · rw [Piece.text, behind_length]
    · rw [hsame' j (.inl (by simp only at hj ⊢; omega)), hsame j (.inl (by simp only at hj ⊢; omega))]
    · rw [hsame' j (.inr (by simp only at hj ⊢; omega))]
      exact putAll_nonzero hp hstr hne

theorem pieces_frame (hps : ∀ p ∈ ps, p.Plain) (h : runPieces ps (buf, t) = some (buf', t')) :
    t' = t+(textOf ps).length ∧ Frame buf buf' t t' ∧ (t < 2^31 → t' < 2^31) := by
  induction ps generalizing buf t with
  | nil =>
    obtain ⟨rfl, rfl⟩ := Prod.mk.inj (Option.some.inj h)
    exact ⟨rfl, ⟨rfl, fun _ _ => rfl, fun _ _ hne => hne⟩, id⟩
  | cons p ps ih =>
    obtain ⟨⟨b, u⟩, hstep, hrest⟩ := Option.bind_eq_some_iff.mp h
    have ⟨hu, hframe, hlt⟩ := piece_frame (hps p List.mem_cons_self) hstep
    have ⟨ht', hframe', hlt'⟩ := ih (fun q hq => hps q (List.mem_cons_of_mem _ hq)) hrest
    refine ⟨?_, hframe.trans hframe' (by omega) (by omega), fun ht => hlt' (hlt ht)⟩
    rw [ht', hu, textOf, textOf, List.flatMap_cons, List.length_append, Nat.add_assoc]

end Runs

/-! ## Buffers that are ready -/

section Ready

variable {lib : Library} {fmt : Option (List Byte)} {args : Arguments} {ps : List Piece} {p : Piece}
  {buf b d : List Byte} {t : ℕ}

/-- What a piece needs at the place `t` of the buffer. -/
def Piece.Ready (buf : List Byte) (t : ℕ) : Piece → Prop
  | .width w => w < 2^31
  | .chars _ => True
  | .number base z _ => Fits base z
  | .string s _ => s ≠ [] → t = 0 ∨ buf[t]? = some 0

def Clean (buf : List Byte) : ℕ → List Piece → Prop
  | _, [] => True
  | t, p :: ps => p.Ready buf t ∧ Clean buf (t+p.text.length) ps

/-- There is room for the rendering, every number fits into its array, and before the
call a NUL is where the rendering ends and wherever a string that is not empty goes,
but for the first byte. -/
structure Prepared (lib : Library) (fmt : Option (List Byte)) (args : Arguments) (buf : List Byte) : Prop where
  room : (rendering lib fmt args).length < buf.length
  small : (rendering lib fmt args).length < 2^31
  closed : rendering lib fmt args ≠ [] → buf[(rendering lib fmt args).length]? = some 0
  clean : Clean buf 0 (pieces lib fmt args)

/-- The same bytes are NUL. -/
def SameZeros (buf b : List Byte) : Prop := b.length = buf.length ∧ ∀ j : ℕ, b[j]? = some 0 ↔ buf[j]? = some 0

theorem Piece.Ready.mono (h : ∀ j : ℕ, buf[j]? = some 0 → b[j]? = some 0) (hp : p.Ready buf t) : p.Ready b t := by
  cases p with
  | width w => exact hp
  | chars l => exact hp
  | number base z text => exact hp
  | string s w => exact fun hs => (hp hs).imp_right (h t)

theorem Clean.mono (h : ∀ j : ℕ, buf[j]? = some 0 → b[j]? = some 0) (hc : Clean buf t ps) : Clean b t ps := by
  induction ps generalizing t with
  | nil => exact trivial
  | cons p ps ih => exact ⟨hc.1.mono h, ih hc.2⟩

/-- `vsprintf` makes the first byte a NUL. -/
theorem set_zeros (hlen : 0 < b.length) (h : SameZeros buf b) :
    (b.set 0 0)[0]? = some 0 ∧ ∀ j : ℕ, buf[j]? = some 0 → (b.set 0 0)[j]? = some 0 := by
  have hfirst : (b.set 0 0)[0]? = some 0 := List.getElem?_set_self hlen
  refine ⟨hfirst, fun j hj => ?_⟩
  by_cases h0 : j = 0
  · rw [h0]
    exact hfirst
  · rw [List.getElem?_set_ne (Ne.symm h0)]
    exact (h.2 j).mpr hj

/-- A buffer with the text `d` at its front. -/
def holding (b d : List Byte) : List Byte := d++b.drop d.length

theorem holding_nil : holding b [] = b := rfl

theorem holding_length (h : d.length ≤ b.length) : (holding b d).length = b.length := by
  rw [holding, List.length_append, List.length_drop]
  omega

theorem holding_behind (h : d.length ≤ t) : (holding b d)[t]? = b[t]? := by
  rw [holding, List.getElem?_append_right h, List.getElem?_drop]
  congr 1
  omega

theorem putAll_holding {l : List Byte} (h : d.length+l.length ≤ b.length) :
    putAll d.length l (holding b d) = some (holding b (d++l)) := by
  have hdrop : (d++b.drop d.length).drop (d.length+l.length) = b.drop (d.length+l.length) := by
    rw [List.drop_append, List.drop_of_length_le (by omega), List.drop_drop, List.nil_append]
    congr 1
    omega
  rw [putAll_eq (by rw [holding_length (by omega)]; exact h), holding, holding, List.take_left, List.length_append,
    hdrop]

/-- A piece that is ready is stored behind the text before it. -/
theorem piece_stored (hp : p.Ready b d.length) (hfirst : b[0]? = some 0)
    (hroom : d.length+p.text.length < b.length) (hsmall : d.length+p.text.length < 2^31)
    (hend : ∃ e, d.length ≤ e ∧ b[e]? = some 0) :
    stepPiece p (holding b d, d.length) = some (holding b (d++p.text), d.length+p.text.length) := by
  have hstored : ∀ l : List Byte, d.length+l.length < b.length → d.length+l.length < 2^31 →
      ((putAll d.length l (holding b d)).bind fun b => (int (d.length+l.length)).map fun u => (b, u)) =
        some (holding b (d++l), d.length+l.length) := by
    intro l hl hlt
    rw [putAll_holding hl.le, int, if_pos hlt]
    rfl
  cases p with
  | width w =>
    have hint : int w = some w := if_pos hp
    rw [stepPiece, hint, Piece.text, List.append_nil]
    rfl
  | chars l => exact hstored l hroom hsmall
  | number base z text =>
    have hfits : Fits base z := hp
    rw [stepPiece, if_pos hfits]
    exact hstored text hroom hsmall
  | string s w =>
    have hlen : (behind (chr ' ') w s).length = max w s.length := behind_length _ _ _
    have htext : d++s++List.replicate (w-s.length) (chr ' ') = d++behind (chr ' ') w s := by
      rw [behind, List.append_assoc]
    rw [Piece.text, hlen] at hroom hsmall
    have hcat : strcat d.length s (holding b d) = some (holding b (d++s)) := by
      have hdrop : (holding b d).drop d.length = b.drop d.length := by
        rw [holding, List.drop_left]
      rw [strcat, hdrop]
      by_cases hs : s = []
      · subst hs
        obtain ⟨e, he, hz⟩ := hend
        have hfound : ((b.drop d.length).findIdx? (· = 0)).isSome = true := by
          rw [List.findIdx?_isSome, List.any_eq_true]
          refine ⟨0, List.mem_iff_getElem?.mpr ⟨e-d.length, ?_⟩, decide_eq_true rfl⟩
          rw [List.getElem?_drop, ← hz]
          congr 1
          omega
        obtain ⟨k, hk⟩ := Option.isSome_iff_exists.mp hfound
        rw [hk, Option.bind_some, putAll, List.append_nil]
      · have hz : b[d.length]? = some 0 := by
          rcases hp hs with h0 | hz
          · rw [h0]
            exact hfirst
          · exact hz
        have hfound : (b.drop d.length).findIdx? (· = 0) = some 0 := by
          obtain ⟨hlt, hget⟩ := List.getElem?_eq_some_iff.mp hz
          rw [List.drop_eq_getElem_cons hlt, hget]
          rfl
        rw [hfound, Option.bind_some, Nat.add_zero]
        exact putAll_holding (by omega)
    have hpad : putAll (d.length+s.length) (List.replicate (w-s.length) (chr ' ')) (holding b (d++s)) =
        some (holding b (d++behind (chr ' ') w s)) := by
      rw [← List.length_append, putAll_holding (by rw [List.length_append, List.length_replicate]; omega), htext]
    rw [stepPiece, hcat, Option.bind_some, hpad, Option.bind_some, int, if_pos hsmall, Piece.text, hlen]
    rfl

theorem pieces_stored (hclean : Clean b d.length ps) (hfirst : b[0]? = some 0)
    (hroom : d.length+(textOf ps).length < b.length) (hsmall : d.length+(textOf ps).length < 2^31)
    (hend : b[d.length+(textOf ps).length]? = some 0) :
    runPieces ps (holding b d, d.length) = some (holding b (d++textOf ps), d.length+(textOf ps).length) := by
  induction ps generalizing d with
  | nil => rw [runPieces, textOf, List.flatMap_nil, List.append_nil, List.length_nil, Nat.add_zero]
  | cons p ps ih =>
    have hlen : (textOf (p :: ps)).length = p.text.length+(textOf ps).length := by
      rw [textOf, List.flatMap_cons, List.length_append]
      rfl
    have htext : d++textOf (p :: ps) = d++p.text++textOf ps := by
      rw [textOf, List.flatMap_cons, List.append_assoc]
      rfl
    rw [hlen] at hroom hsmall hend
    have hp := piece_stored hclean.1 hfirst (by omega) (by omega) ⟨_, by omega, hend⟩
    have hrest := @ih (d++p.text) (by rw [List.length_append]; exact hclean.2)
      (by rw [List.length_append]; omega) (by rw [List.length_append]; omega)
      (by rw [List.length_append, Nat.add_assoc]; exact hend)
    rw [List.length_append] at hrest
    rw [runPieces, hp, Option.bind_some, hrest, htext, hlen, Nat.add_assoc]

/-- The strings come from the arguments. -/
theorem pieces_plain (lib : Library) (args : Arguments) (k : ℕ) (xs : List Item) :
    ∀ p ∈ piecesFrom lib args k xs, p.Plain := by
  have hconv : ∀ (d : Conversion) (slot : BitVec 64), ∀ p ∈ (conversionPieces lib args d slot).1, p.Plain := by
    intro d slot p hp
    rw [conversionPieces] at hp
    split at hp
    · rw [List.mem_singleton.mp hp]
      exact trivial
    split at hp
    · rw [List.mem_singleton.mp hp]
      exact trivial
    split at hp
    · rcases List.mem_cons.mp hp with rfl | hp
      · exact trivial
      · rw [List.mem_singleton.mp hp]
        exact trivial
    split at hp
    · rw [List.mem_singleton.mp hp]
      exact trivial
    split at hp
    · simp only at hp
      split at hp
      · cases hp
      · rw [List.mem_singleton.mp hp]
        exact args.nonzero slot
    split at hp
    · rw [List.mem_singleton.mp hp]
      exact trivial
    · rw [List.mem_singleton.mp hp]
      exact trivial
  induction xs generalizing k with
  | nil => exact fun p hp => absurd hp List.not_mem_nil
  | cons x xs ih =>
    intro p hp
    cases x with
    | literal c =>
      rcases List.mem_cons.mp hp with rfl | hp
      · exact trivial
      · exact ih k p hp
    | conversion d =>
      rcases List.mem_cons.mp hp with rfl | hp
      · exact trivial
      rcases List.mem_append.mp hp with hp | hp
      · exact hconv d _ p hp
      · exact ih _ p hp

theorem plain (lib : Library) (fmt : Option (List Byte)) (args : Arguments) : ∀ p ∈ pieces lib fmt args, p.Plain := by
  cases fmt with
  | none => exact fun p hp => absurd hp List.not_mem_nil
  | some fmt => exact pieces_plain lib args 0 _

/-- Another byte than NUL and the one given. -/
theorem other_byte (c : Byte) : ∃ x : Byte, x ≠ 0 ∧ x ≠ c := by
  by_cases hc : c = 1
  · exact ⟨2, by decide, by rw [hc]; decide⟩
  · exact ⟨1, by decide, fun h => hc h.symm⟩

/-- Changing a byte that is not NUL leaves the others. -/
theorem same_set {x : Byte} (hx : x ≠ 0) (ht : buf[t]? ≠ some 0) : SameZeros buf (buf.set t x) := by
  refine ⟨List.length_set, fun j => ?_⟩
  by_cases hj : t = j
  · subst hj
    rw [List.getElem?_set_self']
    refine iff_of_false (fun h => ?_) ht
    obtain ⟨_, _, hx'⟩ := Option.map_eq_some_iff.mp h
    exact hx hx'
  · rw [List.getElem?_set_ne hj]

/-- If the text comes out whatever the other bytes are, a piece is ready. -/
theorem ready_of_stored (hps : ∀ q ∈ p :: ps, q.Plain) (hroom : d.length+(textOf (p :: ps)).length < buf.length)
    (h : ∀ b, SameZeros buf b → ∃ r, runPieces (p :: ps) (holding (b.set 0 0) d, d.length) = some r ∧
      ∀ j < (d++textOf (p :: ps)).length, r.1[j]? = (d++textOf (p :: ps))[j]?) : p.Ready buf d.length := by
  cases p with
  | width w =>
    obtain ⟨r, hr, _⟩ := h buf ⟨rfl, fun _ => Iff.rfl⟩
    obtain ⟨x, hx, _⟩ := Option.bind_eq_some_iff.mp hr
    obtain ⟨_, hw, _⟩ := Option.map_eq_some_iff.mp hx
    exact (int_some hw).1
  | chars l => exact trivial
  | number base z text =>
    obtain ⟨r, hr, _⟩ := h buf ⟨rfl, fun _ => Iff.rfl⟩
    obtain ⟨x, hx, _⟩ := Option.bind_eq_some_iff.mp hr
    rw [stepPiece] at hx
    split at hx
    next hfits => exact hfits
    next => cases hx
  | string s w =>
    intro hs
    by_contra hn
    push Not at hn
    obtain ⟨h0, hne⟩ := hn
    obtain ⟨c, s', rfl⟩ := List.exists_cons_of_ne_nil hs
    obtain ⟨x, hx0, hxc⟩ := other_byte c
    have htext : textOf (.string (c :: s') w :: ps) = c :: (s'++List.replicate (w-(c :: s').length) (chr ' ')++
        textOf ps) := by
      rw [textOf, List.flatMap_cons, Piece.text, behind, textOf, List.append_assoc, List.cons_append,
        List.append_assoc]
    rw [htext, List.length_cons] at hroom
    obtain ⟨⟨f, n⟩, hr, hout⟩ := h _ (same_set hx0 hne)
    obtain ⟨⟨b', u⟩, hstep, hrest⟩ := Option.bind_eq_some_iff.mp hr
    -- the byte at the end of the text so far stays what it was
    have hat : (holding ((buf.set d.length x).set 0 0) d)[d.length]? = some x := by
      rw [holding_behind le_rfl, List.getElem?_set_ne (Ne.symm h0), List.getElem?_set_self (by omega)]
    obtain ⟨b₁, hcat, hpad⟩ := Option.bind_eq_some_iff.mp hstep
    obtain ⟨b₂, hput, hint⟩ := Option.bind_eq_some_iff.mp hpad
    obtain ⟨v, hv, heq⟩ := Option.map_eq_some_iff.mp hint
    obtain ⟨rfl, rfl⟩ := Prod.mk.inj heq
    obtain ⟨_, hcount⟩ := int_some hv
    simp only [List.length_cons] at hcount
    obtain ⟨k, hstr, hk⟩ := strcat_some hcat
    have hpos : 0 < k := hk (by
      simp only [hat]
      exact fun he => hx0 (Option.some.inj he))
    have h₁ : b₁[d.length]? = some x := by
      rw [(putAll_frame hstr).2 _ (.inl (by simp only; omega))]
      exact hat
    have h₂ : b₂[d.length]? = some x := by
      rw [(putAll_frame hput).2 _ (.inl (by simp only [List.length_cons]; omega))]
      exact h₁
    obtain ⟨_, hframe, _⟩ := pieces_frame (fun q hq => hps q (List.mem_cons_of_mem _ hq)) hrest
    have hfinal := hout d.length (by rw [htext, List.length_append, List.length_cons]; omega)
    rw [hframe.before _ (by omega), h₂, htext, List.getElem?_append_right le_rfl,
      Nat.sub_self, List.getElem?_cons_zero] at hfinal
    exact hxc (Option.some.inj hfinal)

/-- If the rendering comes out for all buffers with these NULs, the pieces are clean. -/
theorem clean_of_stored (hps : ∀ q ∈ ps, q.Plain) (hroom : d.length+(textOf ps).length < buf.length)
    (hsmall : d.length+(textOf ps).length < 2^31)
    (hend : d.length+(textOf ps).length = 0 ∨ buf[d.length+(textOf ps).length]? = some 0)
    (h : ∀ b, SameZeros buf b → ∃ r, runPieces ps (holding (b.set 0 0) d, d.length) = some r ∧
      ∀ j < (d++textOf ps).length, r.1[j]? = (d++textOf ps)[j]?) : Clean buf d.length ps := by
  induction ps generalizing d with
  | nil => exact trivial
  | cons p ps ih =>
    have hlen : (textOf (p :: ps)).length = p.text.length+(textOf ps).length := by
      rw [textOf, List.flatMap_cons, List.length_append]
      rfl
    have htext : d++textOf (p :: ps) = d++p.text++textOf ps := by
      rw [textOf, List.flatMap_cons, List.append_assoc]
      rfl
    have hready := ready_of_stored hps hroom h
    rw [hlen] at hroom hsmall hend
    refine ⟨hready, ?_⟩
    rw [← List.length_append]
    refine ih (fun q hq => hps q (List.mem_cons_of_mem _ hq)) (by rw [List.length_append]; omega)
      (by rw [List.length_append]; omega) (by rw [List.length_append, Nat.add_assoc]; exact hend) fun b hb => ?_
    obtain ⟨r, hr, hout⟩ := h b hb
    have ⟨hfirst, hzero⟩ := set_zeros (by rw [hb.1]; omega) hb
    have hstep := piece_stored (hready.mono hzero) hfirst (by rw [List.length_set, hb.1]; omega) (by omega) (by
      rcases hend with h0 | hz
      · exact ⟨0, by omega, hfirst⟩
      · exact ⟨_, by omega, hzero _ hz⟩)
    rw [runPieces, hstep, Option.bind_some] at hr
    rw [htext] at hout
    rw [List.length_append]
    exact ⟨r, hr, hout⟩

/-- The output is the rendering, whatever the bytes of the buffer are that are not NUL, if and
only if the buffer is prepared. -/
theorem output_exact (lib : Library) (fmt : Option (List Byte)) (args : Arguments) (buf : List Byte) :
    (∀ b, SameZeros buf b → Formats lib fmt args b) ↔ Prepared lib fmt args buf := by
  constructor
  · intro h
    have hself : SameZeros buf buf := ⟨rfl, fun _ => Iff.rfl⟩
    have hplain := plain lib fmt args
    have hrun : ∀ b, SameZeros buf b → (rendering lib fmt args).length < b.length ∧
        runPieces (pieces lib fmt args) (b.set 0 0, 0) = some (rendering lib fmt args++
          0 :: b.drop ((rendering lib fmt args).length+1), (rendering lib fmt args).length) := by
      intro b hb
      have ⟨hroom, hformat⟩ := h b hb
      rw [vsprintf_eq lib fmt args (by omega)] at hformat
      obtain ⟨⟨f, n⟩, hr, heq⟩ := Option.map_eq_some_iff.mp hformat
      obtain ⟨rfl, rfl⟩ := Prod.mk.inj heq
      exact ⟨hroom, hr⟩
    have ⟨hroom, hr⟩ := hrun buf hself
    have ⟨_, hframe, hlt⟩ := pieces_frame hplain hr
    have hsmall : (rendering lib fmt args).length < 2^31 := hlt (by decide)
    have hclosed : rendering lib fmt args ≠ [] → buf[(rendering lib fmt args).length]? = some 0 := by
      intro hne
      by_contra hn
      have hpos := List.length_pos_iff.mpr hne
      have hstale := hframe.after _ le_rfl (by
        rw [List.getElem?_set_ne (by omega)]
        exact hn)
      rw [List.getElem?_append_right le_rfl, Nat.sub_self] at hstale
      exact hstale rfl
    refine ⟨hroom, hsmall, hclosed, ?_⟩
    refine @clean_of_stored (pieces lib fmt args) buf [] hplain ?_ ?_ ?_ fun b hb => ?_
    · rw [List.length_nil, Nat.zero_add]
      exact hroom
    · rw [List.length_nil, Nat.zero_add]
      exact hsmall
    · rw [List.length_nil, Nat.zero_add]
      by_cases he : rendering lib fmt args = []
      · exact .inl (List.length_eq_zero_iff.mpr he)
      · exact .inr (hclosed he)
    · refine ⟨_, (hrun b hb).2, fun j hj => ?_⟩
      exact List.getElem?_append_left hj
  · intro h b hb
    have hroom : (rendering lib fmt args).length < b.length := by
      rw [hb.1]
      exact h.room
    have ⟨hfirst, hzero⟩ := set_zeros (by omega) hb
    have hend : (b.set 0 0)[(rendering lib fmt args).length]? = some 0 := by
      by_cases he : rendering lib fmt args = []
      · rw [he]
        exact hfirst
      · exact hzero _ (h.closed he)
    have hrun := @pieces_stored (pieces lib fmt args) (b.set 0 0) [] (h.clean.mono hzero) hfirst
      (by rw [List.length_nil, Nat.zero_add, List.length_set]; exact hroom)
      (by rw [List.length_nil, Nat.zero_add]; exact h.small)
      (by rw [List.length_nil, Nat.zero_add]; exact hend)
    rw [List.nil_append, List.length_nil, Nat.zero_add, holding_nil] at hrun
    have hnul : holding (b.set 0 0) (rendering lib fmt args) =
        rendering lib fmt args++0 :: b.drop ((rendering lib fmt args).length+1) := by
      have ⟨hlt, hget⟩ := List.getElem?_eq_some_iff.mp hend
      rw [holding, List.drop_eq_getElem_cons hlt, hget, List.drop_set_of_lt (Nat.succ_pos _)]
    refine ⟨hroom, ?_⟩
    rw [vsprintf_eq lib fmt args (by omega), hrun, Option.map_some]
    exact congrArg (fun l => some (_, l)) hnul

end Ready

/-- One argument, the address of the string "b". -/
def oneString : Arguments :=
  ⟨fun _ => 1, fun _ => [chr 'b'], fun _ c hc => by
    rw [List.mem_singleton.mp hc]
    decide⟩

/-- "a%s" into a buffer that begins with "xx": the string goes behind the old bytes. -/
theorem stale_byte :
    vsprintf .kernel (some [chr 'a', chr '%', chr 's']) oneString [chr 'x', chr 'x', 0, 0, 0] =
      some (2, [chr 'a', chr 'x', chr 'b', 0, 0]) ∧
    ¬ Formats .kernel (some [chr 'a', chr '%', chr 's']) oneString [chr 'x', chr 'x', 0, 0, 0] := by
  have hrun : vsprintf .kernel (some [chr 'a', chr '%', chr 's']) oneString [chr 'x', chr 'x', 0, 0, 0] =
      some (2, [chr 'a', chr 'x', chr 'b', 0, 0]) := by decide
  refine ⟨hrun, fun h => ?_⟩
  have hout := h.2
  rw [hrun] at hout
  revert hout
  decide

end BabyOS.FormattedOutput

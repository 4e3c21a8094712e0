import BabyOS.NumberRendering

/-!
# Words of a command line

The cursor of the shell's `cmd_parser_t` on a segment of the line. What is added to
a command is kept as the range of the line that is copied, all redirections in
order (the last one of a side is the one that stays), with a mark that the line was
read behind the segment. `Split` and `build` are the grammar.
-/

set_option autoImplicit false

namespace BabyOS.ShellWords
open BabyOS.ByteWords BabyOS.NumberRendering

/-! ## The parser of a segment -/

def whitespace : List Byte := [chr ' ', chr '\t', chr '\r', chr '\n', 0x0b]

def tokenDelimeter : List Byte := whitespace++[chr '<', chr '>', chr '&']

def cmdDelimeter : List Byte := [chr '|', chr ';']

/-- `strchr` does not find the NUL at the end of a string. -/
def isDelimeter (c : Byte) (delim : List Byte) : Bool := delim.contains c

def isSpace (c : Byte) : Bool := isDelimeter c whitespace

/-- A line is the list of its bytes before the NUL. -/
def byteAt (line : List Byte) (i : ℕ) : Byte := line.getD i 0

/-- `n` rounds at most over the bytes that pass a test. -/
def pass (test : Byte → Bool) (line : List Byte) : ℕ → ℕ → ℕ
  | 0, i => i
  | n+1, i => if test (byteAt line i) then pass test line n (i+1) else i

def skipSpace (line : List Byte) (first last : ℕ) : ℕ := pass isSpace line (last-first) first

def nextDelimeter (line : List Byte) (first last : ℕ) (delim : List Byte) : ℕ :=
  pass (fun c => !isDelimeter c delim) line (last-first) first

structure Range where
  first : ℕ
  last : ℕ
deriving DecidableEq, Repr

inductive Side
  | input
  | output
deriving DecidableEq, Repr

def Side.char : Side → Byte
  | .input => chr '<'
  | .output => chr '>'

/-- What is built: the arguments, the files, whether the command is for the background, and
whether the line was read behind the segment on the way. -/
structure Built where
  argv : List Range
  files : List (Side × Range)
  background : Bool
  outside : Bool
deriving DecidableEq, Repr

structure CmdParser where
  line : List Byte
  first : ℕ
  last : ℕ

/-- The token, the cursor behind it, and whether its first byte lies outside. -/
def getNextToken (s : CmdParser) : Range × CmdParser × Bool :=
  let first := skipSpace s.line s.first s.last
  let last :=
    if isDelimeter (byteAt s.line first) tokenDelimeter then first+1
    else nextDelimeter s.line first s.last tokenDelimeter
  (⟨first, last⟩, { s with first := last }, decide (s.last ≤ first))

/-- `parse_file`, for the side that the file is for. -/
def parseFile (side : Side) (s : CmdParser) (cmd : Built) : CmdParser × Built :=
  let r := getNextToken s
  (r.2.1, { cmd with files := cmd.files++[(side, r.1)], outside := cmd.outside || r.2.2 })

/-- The switch on the first byte of a token. -/
def switch (token : Range) (s : CmdParser) (cmd : Built) : CmdParser × Built :=
  let c := byteAt s.line token.first
  if c = chr '<' then parseFile .input s cmd
  else if c = chr '>' then parseFile .output s cmd
  else if c = chr '&' then ({ s with first := s.first+1 }, { cmd with background := true })
  else (s, { cmd with argv := cmd.argv++[token] })

/-- A round of the loop of `parse`. -/
def round (s : CmdParser) (cmd : Built) : CmdParser × Built :=
  let r := getNextToken s
  let cmd := { cmd with outside := cmd.outside || r.2.2 }
  let r := switch r.1 r.2.1 cmd
  ({ r.1 with first := skipSpace r.1.line r.1.first r.1.last }, r.2)

/-- The loop; `none` when the rounds are used up. -/
def parseFrom : ℕ → CmdParser → Built → Option Built
  | 0, s, cmd => if s.first < s.last then none else some cmd
  | n+1, s, cmd => if s.first < s.last then (fun r => parseFrom n r.1 r.2) (round s cmd) else some cmd

def parse (s : CmdParser) : Option Built := parseFrom (s.last-s.first) s ⟨[], [], false, false⟩

/-- `get_next_command` with the cursor at `first`: the segment, and the cursor behind it. -/
def getNextCommand (line : List Byte) (first : ℕ) : CmdParser × ℕ :=
  let first := skipSpace line first line.length
  let last := nextDelimeter line first line.length cmdDelimeter
  (⟨line, first, last⟩, last+1)

/-! ## The grammar -/

inductive Token
  | run (first last : ℕ)
  | redirect (side : Side) (first : ℕ)
  | background (first : ℕ)
deriving DecidableEq, Repr

def Token.first : Token → ℕ
  | .run first _ => first
  | .redirect _ first => first
  | .background first => first

def Token.last : Token → ℕ
  | .run _ last => last
  | .redirect _ first => first+1
  | .background first => first+1

def Token.range (t : Token) : Range := ⟨t.first, t.last⟩

def Ordinary (c : Byte) : Prop := isDelimeter c tokenDelimeter = false

instance (c : Byte) : Decidable (Ordinary c) := inferInstanceAs (Decidable (_ = _))

/-- The tokens of a line from some place to `last`: its maximal runs of ordinary
characters, and the other characters but for the blanks. -/
inductive Split (line : List Byte) (last : ℕ) : ℕ → List Token → Prop
  | done : Split line last last []
  | blank {i : ℕ} {ts : List Token} (hi : i < last) (hc : isSpace (byteAt line i) = true)
      (hs : Split line last (i+1) ts) : Split line last i ts
  | redirect {i : ℕ} {ts : List Token} (side : Side) (hi : i < last) (hc : byteAt line i = side.char)
      (hs : Split line last (i+1) ts) : Split line last i (.redirect side i :: ts)
  | background {i : ℕ} {ts : List Token} (hi : i < last) (hc : byteAt line i = chr '&')
      (hs : Split line last (i+1) ts) : Split line last i (.background i :: ts)
  | run {i k : ℕ} {ts : List Token} (hi : i < k) (hk : k ≤ last)
      (hin : ∀ j, i ≤ j → j < k → Ordinary (byteAt line j)) (hout : k = last ∨ ¬ Ordinary (byteAt line k))
      (hs : Split line last k ts) : Split line last i (.run i k :: ts)

def Built.addArg (r : Range) (b : Built) : Built := { b with argv := r :: b.argv }

def Built.addFile (side : Side) (r : Range) (b : Built) : Built := { b with files := (side, r) :: b.files }

def Built.inBackground (b : Built) : Built := { b with background := true }

/-- The command of the grammar: a run behind `<` or `>` is a file, any other an argument. -/
def build : List Token → Built
  | [] => ⟨[], [], false, false⟩
  | .run i k :: ts => (build ts).addArg ⟨i, k⟩
  | .redirect side _ :: .run i k :: ts => (build ts).addFile side ⟨i, k⟩
  | .redirect _ _ :: ts => build ts
  | .background _ :: ts => (build ts).inBackground

/-- The parser builds what the grammar says and stays inside of the segment. -/
def Exact (s : CmdParser) : Prop := ∃ ts, Split s.line s.last s.first ts ∧ parse s = some (build ts)

/-! ## What the parser takes -/

/-- What the parser makes of the tokens: whatever follows `<` or `>` is the file, and
the character right behind `&` is lost. -/
def taken (last : ℕ) : List Token → Built
  | [] => ⟨[], [], false, false⟩
  | .run i k :: ts => (taken last ts).addArg ⟨i, k⟩
  | [.redirect side _] => ⟨[], [(side, ⟨last, last⟩)], false, true⟩
  | .redirect side _ :: t :: ts => (taken last ts).addFile side t.range
  | [.background _] => ⟨[], [], true, false⟩
  | .background p :: .run i k :: ts =>
    if i = p+1 then
      if i+1 = k then (taken last ts).inBackground else ((taken last ts).addArg ⟨i+1, k⟩).inBackground
    else ((taken last ts).addArg ⟨i, k⟩).inBackground
  | .background p :: t :: ts =>
    if t.first = p+1 then (taken last ts).inBackground else (taken last (t :: ts)).inBackground

/-- No run, or none to begin with. -/
def NoRun : List Token → Prop
  | .run _ _ :: _ => False
  | _ => True

/-- Every `<` and `>` that is not lost has a file, and no `&` takes a part of a run
or of a redirection with it. -/
def Regular : List Token → Prop
  | [] => True
  | .run _ _ :: ts => Regular ts
  | .redirect _ _ :: .run _ _ :: ts => Regular ts
  | .redirect _ _ :: _ => False
  | [.background _] => True
  | .background p :: .run i _ :: ts => i ≠ p+1 ∧ Regular ts
  | .background p :: .redirect side i :: ts =>
    if i = p+1 then NoRun ts ∧ Regular ts else Regular (.redirect side i :: ts)
  | .background p :: .background i :: ts =>
    if i = p+1 then Regular ts else Regular (.background i :: ts)

/-! ## Tokens -/

section Tokens

variable {line : List Byte} {last i k : ℕ} {ts : List Token}

theorem ordinary_special {c : Byte} (h : Ordinary c) :
    isSpace c = false ∧ c ≠ chr '<' ∧ c ≠ chr '>' ∧ c ≠ chr '&' := by
  rw [Ordinary, isDelimeter, tokenDelimeter, List.contains_eq_mem, decide_eq_false_iff_not, List.mem_append] at h
  push Not at h
  obtain ⟨hspace, hrest⟩ := h
  refine ⟨?_, ?_, ?_, ?_⟩
  · rw [isSpace, isDelimeter, List.contains_eq_mem, decide_eq_false_iff_not]
    exact hspace
  · intro he
    exact hrest (he ▸ List.mem_cons_self)
  · intro he
    exact hrest (he ▸ List.mem_cons_of_mem _ List.mem_cons_self)
  · intro he
    exact hrest (he ▸ List.mem_cons_of_mem _ (List.mem_cons_of_mem _ List.mem_cons_self))

theorem Split.end_nil (h : Split line last i ts) (hi : ¬ i < last) : ts = [] := by
  cases h with
  | done => rfl
  | blank => omega
  | redirect => omega
  | background => omega
  | run => omega

theorem Split.le (h : Split line last i ts) : i ≤ last := by
  cases h <;> omega

/-- `pass` stops at the first byte that fails the test. -/
theorem pass_spec (test : Byte → Bool) (line : List Byte) (n i : ℕ) :
    i ≤ pass test line n i ∧ pass test line n i ≤ i+n ∧
    (∀ j, i ≤ j → j < pass test line n i → test (byteAt line j) = true) ∧
    (pass test line n i < i+n → test (byteAt line (pass test line n i)) = false) := by
  induction n generalizing i with
  | zero => exact ⟨le_rfl, le_rfl, fun j h1 h2 => absurd h2 (by rw [pass]; omega), fun h => absurd h (by rw [pass]; omega)⟩
  | succ n ih =>
    rw [pass]
    by_cases ht : test (byteAt line i) = true
    · have ⟨h1, h2, h3, h4⟩ := ih (i+1)
      rw [if_pos ht]
      refine ⟨by omega, by omega, fun j hj hlt => ?_, fun h => h4 (by omega)⟩
      by_cases hij : j = i
      · rw [hij]
        exact ht
      · exact h3 j (by omega) hlt
    · rw [if_neg ht]
      exact ⟨le_rfl, by omega, fun j h1 h2 => absurd h2 (by omega), fun _ => Bool.eq_false_iff.mpr ht⟩

/-- Blanks do not matter to the tokens. -/
theorem split_skip (h : Split line last i ts) :
    Split line last (skipSpace line i last) ts ∧ i ≤ skipSpace line i last ∧
      (skipSpace line i last < last → isSpace (byteAt line (skipSpace line i last)) = false) := by
  rw [skipSpace]
  have hle := h.le
  induction hn : last-i generalizing i with
  | zero =>
    rw [pass]
    exact ⟨h, le_rfl, fun hlt => by omega⟩
  | succ n ih =>
    rw [pass]
    by_cases hs : isSpace (byteAt line i) = true
    · rw [if_pos hs]
      have hrest : Split line last (i+1) ts := by
        cases h with
        | done => omega
        | blank _ _ hrest => exact hrest
        | redirect side _ hc _ =>
          rw [hc] at hs
          exact absurd hs (by cases side <;> decide)
        | background _ hc _ =>
          rw [hc] at hs
          exact absurd hs (by decide)
        | run hik _ hin _ _ =>
          have hfalse := (ordinary_special (hin i le_rfl hik)).1
          rw [hs] at hfalse
          cases hfalse
      have ⟨h1, h2, h3⟩ := ih hrest hrest.le (by omega)
      exact ⟨h1, by omega, h3⟩
    · rw [if_neg hs]
      exact ⟨h, le_rfl, fun _ => Bool.eq_false_iff.mpr hs⟩

/-- The next token, behind the blanks. -/
theorem token_first (h : Split line last i ts) (hi : skipSpace line i last < last) :
    ∃ t rest, ts = t :: rest ∧ t.first = skipSpace line i last ∧ t.first < t.last ∧ Split line last t.last rest ∧
      getNextToken ⟨line, i, last⟩ = (t.range, ⟨line, t.last, last⟩, false) := by
  have ⟨hs, _, hblank⟩ := split_skip h
  have hc := hblank hi
  generalize hskip : skipSpace line i last = j at *
  clear h
  have hin : decide (last ≤ j) = false := decide_eq_false (by omega)
  have hsingle : isDelimeter (byteAt line j) tokenDelimeter = true →
      getNextToken ⟨line, i, last⟩ = (⟨j, j+1⟩, ⟨line, j+1, last⟩, false) := by
    intro hd
    rw [getNextToken]
    simp only [hskip, hin]
    rw [if_pos hd]
  cases hs with
  | done => omega
  | blank _ hs _ =>
    rw [hc] at hs
    cases hs
  | redirect side _ hside hs =>
    refine ⟨_, _, rfl, rfl, Nat.lt_succ_self _, hs, hsingle ?_⟩
    rw [hside]
    cases side <;> decide
  | background _ hamp hs =>
    refine ⟨_, _, rfl, rfl, Nat.lt_succ_self _, hs, hsingle ?_⟩
    rw [hamp]
    decide
  | @run _ k _ hik hk hord hout hs =>
    refine ⟨_, _, rfl, rfl, hik, hs, ?_⟩
    have hnext : nextDelimeter line j last tokenDelimeter = k := by
      have ⟨h1, h2, h3, h4⟩ := pass_spec (fun c => !isDelimeter c tokenDelimeter) line (last-j) j
      rw [← nextDelimeter] at h1 h2 h3 h4
      have hnot : ∀ x, j ≤ x → x < k → nextDelimeter line j last tokenDelimeter ≠ x := by
        intro x hx hxk he
        have hfail := h4 (by omega)
        rw [he, hord x hx hxk] at hfail
        cases hfail
      have hge : k ≤ nextDelimeter line j last tokenDelimeter := by
        by_contra hlt
        exact hnot _ h1 (by omega) rfl
      rcases hout with hend | hdel
      · omega
      · by_contra hne
        have hpass := h3 k hik.le (by omega)
        rw [Bool.not_eq_true'] at hpass
        exact hdel hpass
    have hfirst : isDelimeter (byteAt line j) tokenDelimeter = false := hord j le_rfl hik
    rw [getNextToken]
    simp only [hskip, hin]
    rw [if_neg (by rw [hfirst]; exact Bool.false_ne_true), hnext]
    rfl

/-- Behind the last token there is an empty one, found by a look behind the segment. -/
theorem token_end (hi : skipSpace line i last = last) (hend : isDelimeter (byteAt line last) tokenDelimeter = false) :
    getNextToken ⟨line, i, last⟩ = (⟨last, last⟩, ⟨line, last, last⟩, true) := by
  rw [getNextToken]
  simp only [hi, hend]
  rw [nextDelimeter, Nat.sub_self, decide_eq_true le_rfl]
  rfl

theorem Split.ge (h : Split line last i ts) : ∀ t ∈ ts.head?, i ≤ t.first := by
  induction h with
  | done => exact fun t ht => nomatch ht
  | blank _ _ _ ih => exact fun t ht => (Nat.le_succ _).trans (ih t ht)
  | redirect side _ _ _ _ =>
    intro t ht
    rw [← Option.some.inj ht]
    exact le_rfl
  | background _ _ _ _ =>
    intro t ht
    rw [← Option.some.inj ht]
    exact le_rfl
  | run _ _ _ _ _ _ =>
    intro t ht
    rw [← Option.some.inj ht]
    exact le_rfl

end Tokens

/-! ## The loop -/

section Loop

variable {line : List Byte} {last i : ℕ} {ts : List Token} {cmd : Built}

/-- One command built behind another. -/
def Built.append (a b : Built) : Built :=
  ⟨a.argv++b.argv, a.files++b.files, a.background || b.background, a.outside || b.outside⟩

theorem append_empty (a : Built) : a.append ⟨[], [], false, false⟩ = a := by
  cases a
  simp [Built.append]

theorem parseFrom_end (n : ℕ) (h : last ≤ i) : parseFrom n ⟨line, i, last⟩ cmd = some cmd := by
  cases n with
  | zero => exact if_neg (Nat.not_lt.mpr h)
  | succ n => exact if_neg (Nat.not_lt.mpr h)

theorem round_run {k : ℕ} (htoken : getNextToken ⟨line, i, last⟩ = (⟨i, k⟩, ⟨line, k, last⟩, false))
    (hc : Ordinary (byteAt line i)) :
    round ⟨line, i, last⟩ cmd =
      (⟨line, skipSpace line k last, last⟩, cmd.append ((⟨[], [], false, false⟩ : Built).addArg ⟨i, k⟩)) := by
  have ⟨_, hl, hg, ha⟩ := ordinary_special hc
  have hswitch : ∀ cmd : Built, switch ⟨i, k⟩ ⟨line, k, last⟩ cmd =
      (⟨line, k, last⟩, cmd.append ((⟨[], [], false, false⟩ : Built).addArg ⟨i, k⟩)) := by
    intro cmd
    rw [switch]
    simp only [if_neg hl, if_neg hg, if_neg ha]
    simp [Built.append, Built.addArg]
  rw [round, htoken]
  simp only [hswitch]
  simp [Built.append]

theorem round_file {k : ℕ} {r : Range} {out : Bool} (side : Side)
    (htoken : getNextToken ⟨line, i, last⟩ = (⟨i, i+1⟩, ⟨line, i+1, last⟩, false))
    (hc : byteAt line i = side.char)
    (hfile : getNextToken ⟨line, i+1, last⟩ = (r, ⟨line, k, last⟩, out)) :
    round ⟨line, i, last⟩ cmd =
      (⟨line, skipSpace line k last, last⟩, cmd.append ⟨[], [(side, r)], false, out⟩) := by
  have hparse : ∀ cmd : Built, parseFile side ⟨line, i+1, last⟩ cmd =
      (⟨line, k, last⟩, cmd.append ⟨[], [(side, r)], false, out⟩) := by
    intro cmd
    rw [parseFile, hfile]
    simp [Built.append]
  have hswitch : ∀ cmd : Built, switch ⟨i, i+1⟩ ⟨line, i+1, last⟩ cmd =
      (⟨line, k, last⟩, cmd.append ⟨[], [(side, r)], false, out⟩) := by
    intro cmd
    rw [switch]
    simp only [hc]
    cases side with
    | input =>
      rw [if_pos (by decide)]
      exact hparse cmd
    | output =>
      rw [if_neg (by decide), if_pos (by decide)]
      exact hparse cmd
  rw [round, htoken]
  simp only [hswitch]
  simp [Built.append]

theorem round_background (htoken : getNextToken ⟨line, i, last⟩ = (⟨i, i+1⟩, ⟨line, i+1, last⟩, false))
    (hc : byteAt line i = chr '&') :
    round ⟨line, i, last⟩ cmd =
      (⟨line, skipSpace line (i+1+1) last, last⟩, cmd.append ⟨[], [], true, false⟩) := by
  have hswitch : ∀ cmd : Built, switch ⟨i, i+1⟩ ⟨line, i+1, last⟩ cmd =
      (⟨line, i+1+1, last⟩, cmd.append ⟨[], [], true, false⟩) := by
    intro cmd
    rw [switch]
    simp only [hc]
    rw [if_neg (by decide), if_neg (by decide), if_pos trivial]
    simp [Built.append]
  rw [round, htoken]
  simp only [hswitch]
  simp [Built.append]

theorem append_addArg (r : Range) (a b : Built) :
    (a.append ((⟨[], [], false, false⟩ : Built).addArg r)).append b = a.append (b.addArg r) := by
  simp [Built.append, Built.addArg]

theorem append_addFile (side : Side) (r : Range) (a b : Built) :
    (a.append ⟨[], [(side, r)], false, false⟩).append b = a.append (b.addFile side r) := by
  simp [Built.append, Built.addFile]

theorem append_background (a b : Built) : (a.append ⟨[], [], true, false⟩).append b = a.append b.inBackground := by
  simp [Built.append, Built.inBackground]

/-- The tokens from the place on where the loop goes on. -/
theorem skipped (hs : Split line last i ts) :
    Split line last (skipSpace line i last) ts ∧
      (skipSpace line i last < last → isSpace (byteAt line (skipSpace line i last)) = false) ∧
      last-skipSpace line i last ≤ last-i := by
  have ⟨h1, h2, h3⟩ := split_skip hs
  exact ⟨h1, h3, by omega⟩

theorem skipSpace_stay (hi : i < last → isSpace (byteAt line i) = false) : skipSpace line i last = i := by
  rw [skipSpace]
  cases hn : last-i with
  | zero => rfl
  | succ n => rw [pass, if_neg (by rw [hi (by omega)]; exact Bool.false_ne_true)]

/-- What is lost behind `&`, and what the parser goes on with. -/
theorem behind_background (hs : Split line last (i+1) ts) :
    (ts = [] ∧ i+1 = last) ∨ ∃ ts', Split line last (i+1+1) ts' ∧
      taken last (.background i :: ts) = (taken last ts').inBackground := by
  cases hs with
  | done => exact .inl ⟨rfl, rfl⟩
  | blank hi hc hs =>
    refine .inr ⟨ts, hs, ?_⟩
    have hge := hs.ge
    cases ts with
    | nil => rfl
    | cons t ts =>
      have hne : ¬ t.first = i+1 := by
        have := hge t rfl
        omega
      cases t with
      | run j k => exact if_neg hne
      | redirect side j => exact if_neg hne
      | background j => exact if_neg hne
  | redirect side hi hc hs => exact .inr ⟨_, hs, if_pos rfl⟩
  | background hi hc hs => exact .inr ⟨_, hs, if_pos rfl⟩
  | @run _ k ts hik hk hin hout hs =>
    refine .inr ?_
    by_cases hone : i+1+1 = k
    · subst hone
      exact ⟨ts, hs, (if_pos rfl).trans (if_pos rfl)⟩
    · exact ⟨.run (i+1+1) k :: ts, .run (by omega) hk (fun j h1 h2 => hin j (by omega) h2) hout hs,
        (if_pos rfl).trans (if_neg hone)⟩

/-- From a place where no blank stands the loop builds what is taken of the tokens. -/
theorem parseFrom_eq (hend : isDelimeter (byteAt line last) tokenDelimeter = false) (n : ℕ)
    (hs : Split line last i ts) (hi : i < last → isSpace (byteAt line i) = false) (hn : last-i ≤ n) :
    parseFrom n ⟨line, i, last⟩ cmd = some (cmd.append (taken last ts)) := by
  have hfinish : ∀ (n : ℕ) {i : ℕ} {ts : List Token} {cmd : Built}, Split line last i ts → ¬ i < last →
      parseFrom n ⟨line, i, last⟩ cmd = some (cmd.append (taken last ts)) := by
    intro n i ts cmd hs hlt
    rw [parseFrom_end n (by omega), hs.end_nil hlt, taken, append_empty]
  induction n generalizing i ts cmd with
  | zero => exact hfinish 0 hs (by omega)
  | succ n ih =>
    by_cases hlt : i < last
    · have hstay := skipSpace_stay hi
      obtain ⟨t, rest, rfl, hfirst, _, hrest, htoken⟩ := token_first hs (by rw [hstay]; exact hlt)
      rw [hstay] at hfirst
      rw [parseFrom, if_pos hlt]
      simp only
      -- the three kinds of tokens at the cursor
      cases hs with
      | blank _ hc _ =>
        rw [hi hlt] at hc
        cases hc
      | @run _ k _ hik hk hin hout _ =>
        have hbehind : Split line last k rest := hrest
        have ⟨h1, h2, h3⟩ := skipped hbehind
        have hround : round ⟨line, i, last⟩ cmd = (⟨line, skipSpace line k last, last⟩,
            cmd.append ((⟨[], [], false, false⟩ : Built).addArg ⟨i, k⟩)) := round_run htoken (hin i le_rfl hik)
        rw [hround, ih h1 h2 (by omega), append_addArg, taken]
      | background _ hc _ =>
        rw [round_background htoken hc]
        rcases behind_background hrest with ⟨rfl, hfin⟩ | ⟨ts', hs', htaken⟩
        · have hskip : skipSpace line (i+1+1) last = i+1+1 := skipSpace_stay fun h => by omega
          rw [hskip, parseFrom_end n (by omega)]
          rfl
        · have ⟨h1, h2, h3⟩ := skipped hs'
          rw [ih h1 h2 (by omega), append_background, htaken]
      | redirect side _ hc _ =>
        have hbehind : Split line last (i+1) rest := hrest
        have ⟨g1, g2, g3⟩ := split_skip hbehind
        by_cases hmore : skipSpace line (i+1) last < last
        · obtain ⟨t, rest', rfl, hfirst', hgrow, hrest', hfile⟩ := token_first hbehind hmore
          have ⟨h1, h2, h3⟩ := skipped hrest'
          rw [round_file side htoken hc hfile, ih h1 h2 (by omega), append_addFile]
          rfl
        · have hlast : skipSpace line (i+1) last = last := by
            have hle := g1.le
            omega
          have hnil : rest = [] := g1.end_nil hmore
          rw [round_file side htoken hc (token_end hlast hend), skipSpace_stay (fun h => absurd h (lt_irrefl _)),
            parseFrom_end n le_rfl, hnil]
          rfl
    · exact hfinish (n+1) hs hlt

end Loop

/-! ## Places of the tokens -/

section Places

variable {line : List Byte} {last i j p : ℕ} {ts : List Token} {t : Token}

def Ordered (last : ℕ) : ℕ → List Token → Prop
  | i, [] => i ≤ last
  | i, t :: ts => i ≤ t.first ∧ t.first < t.last ∧ Ordered last t.last ts

theorem Ordered.mono (h : Ordered last j ts) (hij : i ≤ j) : Ordered last i ts := by
  cases ts with
  | nil => exact hij.trans h
  | cons t ts => exact ⟨hij.trans h.1, h.2⟩

theorem Split.ordered (h : Split line last i ts) : Ordered last i ts := by
  induction h with
  | done => exact le_rfl
  | blank _ _ _ ih => exact ih.mono (Nat.le_succ _)
  | redirect _ _ _ _ ih => exact ⟨le_rfl, Nat.lt_succ_self _, ih⟩
  | background _ _ _ ih => exact ⟨le_rfl, Nat.lt_succ_self _, ih⟩
  | run hi _ _ _ _ ih => exact ⟨le_rfl, hi, ih⟩

/-- Nothing is added from in front of a place. -/
def Above (i : ℕ) (b : Built) : Prop := (∀ r ∈ b.argv, i ≤ r.first) ∧ ∀ x ∈ b.files, i ≤ x.2.first

theorem Above.addArg {r : Range} {b : Built} (h : Above j b) (hr : i ≤ r.first) (hij : i ≤ j) :
    Above i (b.addArg r) := by
  refine ⟨fun x hx => ?_, fun x hx => hij.trans (h.2 x hx)⟩
  rcases List.mem_cons.mp hx with rfl | hx
  · exact hr
  · exact hij.trans (h.1 x hx)

theorem Above.addFile {side : Side} {r : Range} {b : Built} (h : Above j b) (hr : i ≤ r.first) (hij : i ≤ j) :
    Above i (b.addFile side r) := by
  refine ⟨fun x hx => hij.trans (h.1 x hx), fun x hx => ?_⟩
  rcases List.mem_cons.mp hx with rfl | hx
  · exact hr
  · exact hij.trans (h.2 x hx)

theorem Above.mono {b : Built} (h : Above j b) (hij : i ≤ j) : Above i b :=
  ⟨fun r hr => hij.trans (h.1 r hr), fun x hx => hij.trans (h.2 x hx)⟩

theorem build_above (h : Ordered last i ts) : Above i (build ts) := by
  fun_induction build ts generalizing i with
  | case1 => exact ⟨fun r hr => (nomatch hr), fun x hx => nomatch hx⟩
  | case2 a k ts ih => exact (ih h.2.2).addArg h.1 (h.1.trans h.2.1.le)
  | case3 ts side a b k ih =>
    have h2 := h.2.2
    exact (ih h2.2.2).addFile (h.1.trans (h.2.1.le.trans h2.1)) (h.1.trans (h.2.1.le.trans (h2.1.trans h2.2.1.le)))
  | case4 ts side a _ ih => exact (ih h.2.2).mono (h.1.trans h.2.1.le)
  | case5 a ts ih => exact (ih h.2.2).mono (h.1.trans h.2.1.le)

theorem taken_above (h : Ordered last i ts) : Above i (taken last ts) := by
  fun_induction taken last ts generalizing i with
  | case1 => exact ⟨fun r hr => (nomatch hr), fun x hx => nomatch hx⟩
  | case2 a k ts ih => exact (ih h.2.2).addArg h.1 (h.1.trans h.2.1.le)
  | case3 side a =>
    refine ⟨fun r hr => (nomatch hr), fun x hx => ?_⟩
    rw [List.mem_singleton.mp hx]
    exact (h.1.trans h.2.1.le).trans h.2.2
  | case4 side a t ts ih =>
    have h2 := h.2.2
    exact (ih h2.2.2).addFile (h.1.trans (h.2.1.le.trans h2.1)) (h.1.trans (h.2.1.le.trans (h2.1.trans h2.2.1.le)))
  | case5 a => exact ⟨fun r hr => (nomatch hr), fun x hx => nomatch hx⟩
  | case6 a ts ih =>
    have h2 := h.2.2
    exact (ih h2.2.2).mono (h.1.trans (h.2.1.le.trans (h2.1.trans h2.2.1.le)))
  | case7 a k ts hk ih =>
    have h2 := h.2.2
    have hle := h.1.trans (h.2.1.le.trans (h2.1.trans h2.2.1.le))
    exact (ih h2.2.2).addArg (h.1.trans (by simp only [Token.first]; omega)) hle
  | case8 a b k ts hb ih =>
    have h2 := h.2.2
    have hle := h.1.trans (h.2.1.le.trans (h2.1.trans h2.2.1.le))
    exact (ih h2.2.2).addArg (h.1.trans (h.2.1.le.trans h2.1)) hle
  | case9 a t ts _ ht ih =>
    have h2 := h.2.2
    exact (ih h2.2.2).mono (h.1.trans (h.2.1.le.trans (h2.1.trans h2.2.1.le)))
  | case10 a t ts _ ht ih => exact (ih h.2.2).mono (h.1.trans h.2.1.le)

/-! ## Regular lines -/

/-- Without a run behind it a redirection builds nothing. -/
theorem build_redirect {side : Side} {a : ℕ} (h : NoRun ts) : build (.redirect side a :: ts) = build ts := by
  cases ts with
  | nil => rfl
  | cons t ts =>
    cases t with
    | run i k => exact h.elim
    | redirect side' b => rfl
    | background b => rfl

/-- A command but for the background flag. -/
def Built.core (b : Built) : List Range × List (Side × Range) × Bool := (b.argv, b.files, b.outside)

theorem core_addArg {r : Range} {a b : Built} : (a.addArg r).core = (b.addArg r).core ↔ a.core = b.core := by
  simp [Built.addArg, Built.core]

theorem core_addFile {side : Side} {r : Range} {a b : Built} :
    (a.addFile side r).core = (b.addFile side r).core ↔ a.core = b.core := by
  simp [Built.addFile, Built.core]

theorem taken_regular (h : Regular ts) : taken last ts = build ts := by
  fun_induction Regular ts with
  | case1 => rfl
  | case2 a k ts ih => rw [taken, build, ih h]
  | case3 side a b k ts ih => exact congrArg (Built.addFile side ⟨b, k⟩) (ih h)
  | case4 => exact h.elim
  | case5 => rfl
  | case6 a b k ts ih =>
    have he : taken last (.background a :: .run b k :: ts) = ((taken last ts).addArg ⟨b, k⟩).inBackground := if_neg h.1
    rw [he, ih h.2]
    rfl
  | case7 a side ts ih =>
    have he : taken last (.background a :: .redirect side (a+1) :: ts) = (taken last ts).inBackground := if_pos rfl
    rw [he, build, build_redirect h.1, ih h.2]
  | case8 a side b ts hb ih =>
    have he : taken last (.background a :: .redirect side b :: ts) =
      (taken last (.redirect side b :: ts)).inBackground := if_neg hb
    rw [he, ih h]
    rfl
  | case9 a ts ih =>
    have he : taken last (.background a :: .background (a+1) :: ts) = (taken last ts).inBackground := if_pos rfl
    rw [he, ih h]
    rfl
  | case10 a b ts hb ih =>
    have he : taken last (.background a :: .background b :: ts) =
      (taken last (.background b :: ts)).inBackground := if_neg hb
    rw [he, ih h]
    rfl

/-- What is built of a token that is no run lies behind it. -/
theorem build_behind (h : Ordered last i (t :: ts)) (ht : NoRun (t :: ts)) : Above t.last (build (t :: ts)) := by
  cases t with
  | run a k => exact ht.elim
  | background a =>
    have habove : Above (a+1) (build ts) := build_above h.2.2
    exact habove
  | redirect side a =>
    cases ts with
    | nil => exact ⟨fun r hr => (nomatch hr), fun x hx => (nomatch hx)⟩
    | cons u us =>
      by_cases hu : NoRun (u :: us)
      · rw [build_redirect hu]
        exact build_above h.2.2
      · cases u with
        | run b k =>
          have h2 := h.2.2
          exact (build_above h2.2.2).addFile h2.1 (h2.1.trans h2.2.1.le)
        | redirect side' b => exact absurd trivial hu
        | background b => exact absurd trivial hu

theorem core_eq {a b : Built} (h : a.core = b.core) : a.argv = b.argv ∧ a.files = b.files ∧ a.outside = b.outside := by
  obtain ⟨h1, h2⟩ := Prod.mk.inj h
  exact ⟨h1, Prod.mk.inj h2⟩

/-- A line that is not regular gives other arguments or other files. -/
theorem regular_of_core (h : Ordered last i ts) (he : (taken last ts).core = (build ts).core) : Regular ts := by
  fun_induction Regular ts generalizing i with
  | case1 => exact trivial
  | case2 a k ts ih => exact ih h.2.2 (core_addArg.mp he)
  | case3 side a b k ts ih => exact ih h.2.2.2.2 (core_addFile.mp he)
  | case4 side a ts hrun =>
    have ⟨_, hfiles, hout⟩ := core_eq he
    cases ts with
    | nil => cases hout
    | cons t us =>
      have hno : NoRun (t :: us) := by
        cases t with
        | run b k => exact (hrun b k us rfl).elim
        | redirect side' b => exact trivial
        | background b => exact trivial
      rw [build_redirect hno] at hfiles
      have hmem : (side, t.range) ∈ (build (t :: us)).files := by
        rw [← hfiles]
        exact List.mem_cons_self
      have hle := (build_behind h.2.2 hno).2 _ hmem
      have hlt := h.2.2.2.1
      change t.last ≤ t.first at hle
      omega
  | case5 => exact trivial
  | case6 a b k ts ih =>
    by_cases hb : b = a+1
    · subst hb
      have habove : Above (a+1+1) (taken last (.background a :: .run (a+1) k :: ts)) := by
        have h2 := h.2.2
        have hlast : a+1+1 ≤ k := h2.2.1
        have hrest := taken_above h2.2.2
        have hform : taken last (.background a :: .run (a+1) k :: ts) =
          if a+1+1 = k then (taken last ts).inBackground else ((taken last ts).addArg ⟨a+1+1, k⟩).inBackground :=
          if_pos rfl
        rw [hform]
        split
        · exact hrest.mono hlast
        · exact hrest.addArg le_rfl hlast
      have hmem : (⟨a+1, k⟩ : Range) ∈ (taken last (.background a :: .run (a+1) k :: ts)).argv := by
        rw [(core_eq he).1]
        exact List.mem_cons_self
      have hle := habove.1 _ hmem
      simp only at hle
      omega
    · have hform : taken last (.background a :: .run b k :: ts) = ((taken last ts).addArg ⟨b, k⟩).inBackground :=
        if_neg hb
      rw [hform] at he
      exact ⟨hb, ih h.2.2.2.2 (core_addArg.mp he)⟩
  | case7 a side ts ih =>
    have hform : taken last (.background a :: .redirect side (a+1) :: ts) = (taken last ts).inBackground := if_pos rfl
    rw [hform] at he
    have hno : NoRun ts := by
      cases ts with
      | nil => exact trivial
      | cons t us =>
        cases t with
        | redirect side' b => exact trivial
        | background b => exact trivial
        | run b k =>
          have h4 := h.2.2.2.2
          have hfiles := (core_eq he).2.1
          have hmem : (side, (⟨b, k⟩ : Range)) ∈ (taken last us).files := by
            change (taken last us).files = (side, ⟨b, k⟩) :: (build us).files at hfiles
            rw [hfiles]
            exact List.mem_cons_self
          have hle := (taken_above h4.2.2).2 _ hmem
          have hlt := h4.2.1
          simp only [Token.first, Token.last] at hle hlt
          omega
    refine ⟨hno, ih h.2.2.2.2 ?_⟩
    rw [build, build_redirect hno] at he
    exact he
  | case8 a side b ts hb ih =>
    have hform : taken last (.background a :: .redirect side b :: ts) =
      (taken last (.redirect side b :: ts)).inBackground := if_neg hb
    rw [hform] at he
    exact ih h.2.2 he
  | case9 a ts ih =>
    have hform : taken last (.background a :: .background (a+1) :: ts) = (taken last ts).inBackground := if_pos rfl
    rw [hform] at he
    exact ih h.2.2.2.2 he
  | case10 a b ts hb ih =>
    have hform : taken last (.background a :: .background b :: ts) =
      (taken last (.background b :: ts)).inBackground := if_neg hb
    rw [hform] at he
    exact ih h.2.2 he

end Places

/-! ## Segments -/

section Segments

variable {line : List Byte} {last i : ℕ}

theorem delimeter_cases {c : Byte} (h : ¬ Ordinary c) : isSpace c = true ∨ (∃ side : Side, c = side.char) ∨ c = chr '&' := by
  rw [Ordinary, Bool.not_eq_false, isDelimeter, tokenDelimeter, List.contains_eq_mem, decide_eq_true_eq,
    List.mem_append] at h
  rcases h with hspace | hrest
  · refine .inl ?_
    rw [isSpace, isDelimeter, List.contains_eq_mem, decide_eq_true_eq]
    exact hspace
  · rcases List.mem_cons.mp hrest with h1 | hrest
    · exact .inr (.inl ⟨.input, h1⟩)
    · rcases List.mem_cons.mp hrest with h2 | hrest
      · exact .inr (.inl ⟨.output, h2⟩)
      · exact .inr (.inr (List.mem_singleton.mp hrest))

/-- Every stretch of a line has its tokens. -/
theorem split_exists (line : List Byte) (h : i ≤ last) : ∃ ts, Split line last i ts := by
  induction hn : last-i using Nat.strong_induction_on generalizing i with
  | _ n ih =>
    rcases Nat.eq_or_lt_of_le h with rfl | hlt
    · exact ⟨[], .done⟩
    · by_cases hc : Ordinary (byteAt line i)
      · have ⟨h1, h2, h3, h4⟩ := pass_spec (fun c => !isDelimeter c tokenDelimeter) line (last-i) i
        generalize pass (fun c => !isDelimeter c tokenDelimeter) line (last-i) i = k at *
        have hik : i < k := by
          by_contra hn'
          have hki : k = i := by omega
          have hfail := h4 (by omega)
          rw [hki, hc] at hfail
          cases hfail
        obtain ⟨ts, hs⟩ := ih (last-k) (by omega) (by omega) rfl
        refine ⟨_, .run hik (by omega) (fun j hj hjk => ?_) ?_ hs⟩
        · have hpass := h3 j hj hjk
          rw [Bool.not_eq_true'] at hpass
          exact hpass
        · by_cases hk : k = last
          · exact .inl hk
          · have hfail := h4 (by omega)
            rw [Bool.not_eq_false'] at hfail
            refine .inr ?_
            rw [Ordinary, hfail]
            exact Bool.noConfusion
      · obtain ⟨ts, hs⟩ := ih (last-(i+1)) (by omega) (by omega) rfl
        rcases delimeter_cases hc with hspace | ⟨side, hside⟩ | hamp
        · exact ⟨ts, .blank hlt hspace hs⟩
        · exact ⟨_, .redirect side hlt hside hs⟩
        · exact ⟨_, .background hlt hamp hs⟩

/-- A segment begins where no blank stands and ends before `|`, `;` or the NUL. -/
theorem segment_spec (line : List Byte) (m : ℕ) :
    (getNextCommand line m).1.line = line ∧
    (getNextCommand line m).1.first ≤ (getNextCommand line m).1.last ∧
    ((getNextCommand line m).1.first < (getNextCommand line m).1.last →
      isSpace (byteAt line (getNextCommand line m).1.first) = false) ∧
    isDelimeter (byteAt line (getNextCommand line m).1.last) tokenDelimeter = false := by
  have ⟨h1, h2, _, h4⟩ := pass_spec isSpace line (line.length-m) m
  have ⟨g1, g2, _, g4⟩ := pass_spec (fun c => !isDelimeter c cmdDelimeter) line
    (line.length-skipSpace line m line.length) (skipSpace line m line.length)
  rw [← skipSpace] at h1 h2 h4
  rw [← nextDelimeter] at g1 g2 g4
  refine ⟨rfl, g1, fun hlt => h4 ?_, ?_⟩
  · change skipSpace line m line.length < nextDelimeter line (skipSpace line m line.length) line.length cmdDelimeter
      at hlt
    omega
  · change isDelimeter (byteAt line (nextDelimeter line (skipSpace line m line.length) line.length cmdDelimeter))
      tokenDelimeter = false
    generalize nextDelimeter line (skipSpace line m line.length) line.length cmdDelimeter = e at *
    by_cases hend : line.length ≤ e
    · rw [byteAt, List.getD_eq_default _ _ hend]
      decide
    · have hfail := g4 (by omega)
      rw [Bool.not_eq_false', isDelimeter, List.contains_eq_mem, decide_eq_true_eq] at hfail
      rcases List.mem_cons.mp hfail with hbar | hrest
      · rw [hbar]
        decide
      · rw [List.mem_singleton.mp hrest]
        decide

/-- The parser ends with what is taken of the tokens. -/
theorem parse_tokens (line : List Byte) (m : ℕ) {ts : List Token}
    (hs : Split line (getNextCommand line m).1.last (getNextCommand line m).1.first ts) :
    parse (getNextCommand line m).1 = some (taken (getNextCommand line m).1.last ts) := by
  have ⟨_, _, hblank, hend⟩ := segment_spec line m
  have heq := @parseFrom_eq line _ _ ts ⟨[], [], false, false⟩ hend _ hs hblank le_rfl
  exact heq.trans (congrArg some (by cases taken (getNextCommand line m).1.last ts; rfl))

end Segments

end BabyOS.ShellWords

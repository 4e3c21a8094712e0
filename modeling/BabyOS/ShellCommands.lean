import BabyOS.ShellWords

/-!
# Commands of the shell

The tree that `parser_t` makes of a command line. The words of a command go into an
array of 16 rows of 32 bytes one after the other, whatever their number and
length; a file name gets an array of its own size. The arrays are known by the
stores to them, with any bytes before.
-/

set_option autoImplicit false

namespace BabyOS.ShellCommands
open BabyOS.ByteWords BabyOS.NumberRendering BabyOS.ShellWords

/-- The bytes of a line before its NUL. -/
structure CommandLine where
  bytes : List Byte
  nonzero : ∀ c ∈ bytes, c ≠ 0

/-! ## Objects -/

abbrev Store := ℕ × Byte

def maxArgs : ℕ := 16
def maxArgLen : ℕ := 32

/-- The stores of `strncpy`, from the bytes that it may read. -/
def strncpy (dst : ℕ) : List Byte → List Store
  | [] => [(dst, 0)]
  | c :: l => if c = 0 then [(dst, 0)] else (dst, c) :: strncpy (dst+1) l

/-- An array after some stores. -/
def write (old : ℕ → Byte) (l : List Store) : ℕ → Byte := l.foldl (fun m st => Function.update m st.1 st.2) old

/-- A name, with the size of its array. -/
structure RedirectFile where
  size : ℕ
  name : List Store

/-- `m_argv` is one array of `maxArgs*maxArgLen` bytes. -/
structure ExecCommand where
  argc : ℕ
  argv : List Store
  input : Option RedirectFile
  output : Option RedirectFile
  background : Bool

/-- A null pointer is a command too. -/
inductive Command
  | null
  | exec (cmd : ExecCommand)
  | pipe (left right : Command)
  | list (left right : Command)

def text (line : List Byte) (r : Range) : List Byte := (line.drop r.first).take (r.last-r.first)

def RedirectFile.of (line : List Byte) (r : Range) : RedirectFile :=
  ⟨r.last-r.first+1, strncpy 0 (text line r)⟩

def ExecCommand.addArg (cmd : ExecCommand) (s : List Byte) : ExecCommand :=
  { cmd with argc := cmd.argc+1, argv := cmd.argv++strncpy (maxArgLen*cmd.argc) s }

/-- The file of a side that was given last. -/
def fileOf (line : List Byte) (side : Side) (b : Built) : Option RedirectFile :=
  ((b.files.filter fun x => x.1 = side).getLast?).map fun x => RedirectFile.of line x.2

/-- The command of a segment, from the ranges that are copied. -/
def execOf (line : List Byte) (b : Built) : ExecCommand :=
  b.argv.foldl (fun cmd r => cmd.addArg (text line r))
    ⟨0, [], fileOf line .input b, fileOf line .output b, b.background⟩

/-- The command from the cursor on; `none` when the rounds are used up. -/
def parseFrom (line : List Byte) : ℕ → ℕ → Option Command
  | 0, m => if line.length ≤ m then some .null else none
  | n+1, m =>
    if line.length ≤ m then some .null
    else
      let r := getNextCommand line m
      match ShellWords.parse r.1 with
      | none => none
      | some b =>
        let cmd := Command.exec (execOf line b)
        let c := byteAt line r.1.last
        if c = chr '|' then (parseFrom line n r.2).map (.pipe cmd)
        else if c = chr ';' then (parseFrom line n r.2).map (.list cmd)
        else if c = 0 then some cmd
        else some .null

def parse (line : CommandLine) : Option Command := parseFrom line.bytes line.bytes.length 0

/-! ## Safe commands -/

/-- The name ends in its array and is stored there. -/
structure RedirectFile.Good (f : RedirectFile) : Prop where
  inside : ∀ st ∈ f.name, st.1 < f.size
  ended : ∀ old : ℕ → Byte, ∃ k < f.size, write old f.name k = 0

/-- There are arguments, but no more than rows, each ends in its row, and no store
leaves the array. -/
structure ExecCommand.Good (cmd : ExecCommand) : Prop where
  argc : 1 ≤ cmd.argc ∧ cmd.argc ≤ maxArgs
  inside : ∀ st ∈ cmd.argv, st.1 < maxArgs*maxArgLen
  ended : ∀ old : ℕ → Byte, ∀ j < cmd.argc, ∃ k < maxArgLen, write old cmd.argv (maxArgLen*j+k) = 0
  input : ∀ f ∈ cmd.input, f.Good
  output : ∀ f ∈ cmd.output, f.Good

/-- A list may lack its second command, a pipe may not. -/
def Command.Good : Command → Prop
  | .null => False
  | .exec cmd => cmd.Good
  | .pipe left right => left.Good ∧ right.Good
  | .list left right => left.Good ∧ (right = .null ∨ right.Good)

/-- The parser returns a command that can be executed. -/
def Safe (line : CommandLine) : Prop := ∃ cmd, parse line = some cmd ∧ cmd.Good

/-! ## Lines that are fit -/

/-- The segments between the characters `|` and `;`. -/
def segmentsFrom (line : List Byte) : ℕ → ℕ → List CmdParser
  | 0, _ => []
  | n+1, m =>
    if line.length ≤ m then []
    else (getNextCommand line m).1 :: segmentsFrom line n (getNextCommand line m).2

def segments (line : List Byte) : List CmdParser := segmentsFrom line line.length 0

/-- The words that are taken as arguments are one at least and no more than there are
rows, and shorter than a row. -/
def Takes (s : CmdParser) : Prop :=
  ∃ ts, Split s.line s.last s.first ts ∧ 1 ≤ (taken s.last ts).argv.length ∧
    (taken s.last ts).argv.length ≤ maxArgs ∧ ∀ r ∈ (taken s.last ts).argv, (text s.line r).length < maxArgLen

structure Fit (line : List Byte) : Prop where
  nonempty : line ≠ []
  closed : line.getLast? ≠ some (chr '|')
  words : ∀ s ∈ segments line, Takes s

/-! ## Stores -/

section Stores

variable {dst j : ℕ} {s : List Byte} {l l' : List Store} {old : ℕ → Byte}

theorem write_append (old : ℕ → Byte) (l l' : List Store) : write old (l++l') = write (write old l) l' :=
  List.foldl_append

theorem write_other {x : ℕ} (h : ∀ st ∈ l, st.1 ≠ x) : write old l x = old x := by
  induction l generalizing old with
  | nil => rfl
  | cons st l ih =>
    have hrest : write (Function.update old st.1 st.2) l x = Function.update old st.1 st.2 x :=
      ih fun st' hst' => h st' (List.mem_cons_of_mem _ hst')
    change write (Function.update old st.1 st.2) l x = old x
    rw [hrest, Function.update_of_ne (Ne.symm (h st List.mem_cons_self))]

/-- `strncpy` stores the bytes and a NUL behind them. -/
theorem strncpy_stores (hs : ∀ c ∈ s, c ≠ 0) : ∀ st ∈ strncpy dst s, dst ≤ st.1 ∧ st.1 ≤ dst+s.length := by
  induction s generalizing dst with
  | nil =>
    intro st hst
    rw [List.mem_singleton.mp hst]
    exact ⟨le_rfl, le_rfl⟩
  | cons c s ih =>
    intro st hst
    rw [strncpy, if_neg (hs c List.mem_cons_self)] at hst
    rw [List.length_cons]
    rcases List.mem_cons.mp hst with rfl | hst
    · exact ⟨le_rfl, Nat.le_add_right _ _⟩
    · have := ih (fun d hd => hs d (List.mem_cons_of_mem _ hd)) st hst
      omega

theorem strncpy_write (hs : ∀ c ∈ s, c ≠ 0) (old : ℕ → Byte) {k : ℕ} (hk : k ≤ s.length) :
    write old (strncpy dst s) (dst+k) = s.getD k 0 := by
  induction s generalizing dst old k with
  | nil =>
    have h0 : k = 0 := Nat.le_zero.mp hk
    subst h0
    exact Function.update_self _ _ _
  | cons c s ih =>
    have hs' : ∀ d ∈ s, d ≠ 0 := fun d hd => hs d (List.mem_cons_of_mem _ hd)
    rw [strncpy, if_neg (hs c List.mem_cons_self)]
    change write (Function.update old dst c) (strncpy (dst+1) s) (dst+k) = _
    cases k with
    | zero =>
      rw [write_other fun st hst => by have := (strncpy_stores hs' st hst).1; omega]
      exact Function.update_self _ _ _
    | succ k =>
      rw [← Nat.add_assoc, Nat.add_right_comm]
      exact ih hs' _ (Nat.succ_le_succ_iff.mp hk)

/-- The stores for some words, from a row on. -/
def rows : ℕ → List (List Byte) → List Store
  | _, [] => []
  | n, s :: ss => strncpy (maxArgLen*n) s++rows (n+1) ss

variable {ss : List (List Byte)} {n : ℕ}

theorem rows_ge (hss : ∀ s ∈ ss, ∀ c ∈ s, c ≠ 0) : ∀ st ∈ rows n ss, maxArgLen*n ≤ st.1 := by
  induction ss generalizing n with
  | nil => exact fun st hst => nomatch hst
  | cons s ss ih =>
    intro st hst
    rcases List.mem_append.mp hst with hst | hst
    · exact (strncpy_stores (hss s List.mem_cons_self) st hst).1
    · have hge := ih (fun s hs => hss s (List.mem_cons_of_mem _ hs)) st hst
      rw [Nat.mul_add] at hge
      omega

theorem rows_lt (hss : ∀ s ∈ ss, ∀ c ∈ s, c ≠ 0) (hlen : ∀ s ∈ ss, s.length < maxArgLen) :
    ∀ st ∈ rows n ss, st.1 < maxArgLen*(n+ss.length) := by
  induction ss generalizing n with
  | nil => exact fun st hst => nomatch hst
  | cons s ss ih =>
    intro st hst
    rw [List.length_cons]
    rcases List.mem_append.mp hst with hst | hst
    · have hle := (strncpy_stores (hss s List.mem_cons_self) st hst).2
      have hlt := hlen s List.mem_cons_self
      rw [maxArgLen] at hle hlt ⊢
      omega
    · have hlt := ih (fun s hs => hss s (List.mem_cons_of_mem _ hs))
        (fun s hs => hlen s (List.mem_cons_of_mem _ hs)) st hst
      rw [Nat.add_right_comm, Nat.add_assoc] at hlt
      rw [Nat.add_comm ss.length 1, ← Nat.add_assoc n 1] at *
      exact hlt

/-- What a row holds: the words behind it do not reach back into it. -/
theorem rows_write (hss : ∀ s ∈ ss, ∀ c ∈ s, c ≠ 0) (old : ℕ → Byte) {s : List Byte} {k : ℕ} (hj : ss[j]? = some s)
    (hk : k ≤ s.length) (hlt : k < maxArgLen) :
    write old (rows n ss) (maxArgLen*(n+j)+k) = s.getD k 0 := by
  induction ss generalizing n j old with
  | nil => cases hj
  | cons t ss ih =>
    have hss' : ∀ s ∈ ss, ∀ c ∈ s, c ≠ 0 := fun s hs => hss s (List.mem_cons_of_mem _ hs)
    rw [rows, write_append]
    cases j with
    | zero =>
      obtain rfl := Option.some.inj hj
      have hbehind : ∀ st ∈ rows (n+1) ss, st.1 ≠ maxArgLen*n+k := by
        intro st hst
        have hge := rows_ge hss' st hst
        rw [Nat.mul_add] at hge
        omega
      change write (write old (strncpy (maxArgLen*n) t)) (rows (n+1) ss) (maxArgLen*n+k) = _
      rw [write_other hbehind]
      exact strncpy_write (hss t List.mem_cons_self) old hk
    | succ j =>
      have hrow : n+(j+1) = n+1+j := by omega
      rw [hrow]
      exact ih hss' _ hj

end Stores

/-! ## Commands of a segment -/

section Objects

variable {line : List Byte} {b : Built} {r : Range}

theorem text_nonzero (hline : ∀ c ∈ line, c ≠ 0) (r : Range) : ∀ c ∈ text line r, c ≠ 0 :=
  fun c hc => hline c (List.mem_of_mem_drop (List.mem_of_mem_take hc))

theorem text_length (line : List Byte) (r : Range) : (text line r).length ≤ r.last-r.first :=
  List.length_take_le _ _

/-- Every file name fits. -/
theorem file_good (hline : ∀ c ∈ line, c ≠ 0) (r : Range) : (RedirectFile.of line r).Good := by
  have hnonzero := text_nonzero hline r
  have hlen := text_length line r
  refine ⟨fun st hst => ?_, fun old => ⟨(text line r).length, ?_, ?_⟩⟩
  · have hle := (strncpy_stores hnonzero st hst).2
    rw [RedirectFile.of]
    simp only
    omega
  · rw [RedirectFile.of]
    simp only
    omega
  · have hend := @strncpy_write 0 _ hnonzero old (text line r).length le_rfl
    rw [Nat.zero_add] at hend
    rw [RedirectFile.of]
    simp only
    rw [hend, List.getD_eq_default _ _ le_rfl]

theorem fileOf_good (hline : ∀ c ∈ line, c ≠ 0) (side : Side) (b : Built) : ∀ f ∈ fileOf line side b, f.Good := by
  intro f hf
  obtain ⟨x, _, rfl⟩ := Option.map_eq_some_iff.mp hf
  exact file_good hline x.2

theorem addArgs_eq (line : List Byte) (rs : List Range) (cmd : ExecCommand) :
    rs.foldl (fun cmd r => cmd.addArg (text line r)) cmd =
      { cmd with argc := cmd.argc+rs.length, argv := cmd.argv++rows cmd.argc (rs.map (text line)) } := by
  induction rs generalizing cmd with
  | nil => rw [List.foldl_nil, List.map_nil, rows, List.append_nil, List.length_nil, Nat.add_zero]
  | cons r rs ih =>
    rw [List.foldl_cons, ih, ExecCommand.addArg]
    simp only [List.length_cons, List.map_cons, rows, List.append_assoc, ExecCommand.mk.injEq, and_true]
    omega

theorem exec_good (hline : ∀ c ∈ line, c ≠ 0) (b : Built) : (execOf line b).Good ↔
    1 ≤ b.argv.length ∧ b.argv.length ≤ maxArgs ∧ ∀ r ∈ b.argv, (text line r).length < maxArgLen := by
  have hform := addArgs_eq line b.argv ⟨0, [], fileOf line .input b, fileOf line .output b, b.background⟩
  simp only [Nat.zero_add, List.nil_append] at hform
  have hwords : ∀ s ∈ b.argv.map (text line), ∀ c ∈ s, c ≠ 0 := by
    intro s hs
    obtain ⟨r, _, rfl⟩ := List.mem_map.mp hs
    exact text_nonzero hline r
  rw [execOf, hform]
  constructor
  · rintro ⟨⟨hone, hmax⟩, _, hended, _, _⟩
    refine ⟨hone, hmax, fun r hr => ?_⟩
    by_contra hlong
    obtain ⟨j, hj, hget⟩ := List.mem_iff_getElem.mp hr
    obtain ⟨k, hk, hzero⟩ := hended (fun _ => 0) j hj
    have hword : (b.argv.map (text line))[j]? = some (text line r) := by
      rw [List.getElem?_map, List.getElem?_eq_getElem hj, hget]
      rfl
    have hwrite := @rows_write j _ 0 hwords (fun _ => 0) _ k hword (by omega) hk
    rw [Nat.zero_add] at hwrite
    rw [hwrite, List.getD_eq_getElem _ _ (by omega)] at hzero
    exact text_nonzero hline r _ (List.getElem_mem _) hzero
  · rintro ⟨hone, hmax, hshort⟩
    have hlen : ∀ s ∈ b.argv.map (text line), s.length < maxArgLen := by
      intro s hs
      obtain ⟨r, hr, rfl⟩ := List.mem_map.mp hs
      exact hshort r hr
    refine ⟨⟨hone, hmax⟩, fun st hst => ?_, fun old j hj => ?_, fileOf_good hline .input b,
      fileOf_good hline .output b⟩
    · have hlt := rows_lt hwords hlen st hst
      rw [List.length_map, Nat.zero_add] at hlt
      have hmul := Nat.mul_le_mul_left maxArgLen hmax
      rw [Nat.mul_comm maxArgs]
      omega
    · have hlt : j < b.argv.length := hj
      have hr := hshort b.argv[j] (List.getElem_mem hlt)
      have hword : (b.argv.map (text line))[j]? = some (text line b.argv[j]) := by
        rw [List.getElem?_map, List.getElem?_eq_getElem hlt]
        rfl
      have hwrite := @rows_write j _ 0 hwords old _ _ hword le_rfl hr
      rw [Nat.zero_add] at hwrite
      exact ⟨_, hr, by rw [hwrite, List.getD_eq_default _ _ le_rfl]⟩

end Objects

/-! ## Trees -/

section Trees

variable {line : List Byte} {m n : ℕ}

/-- A segment is fit if and only if its command is good. -/
theorem takes_iff (hline : ∀ c ∈ line, c ≠ 0) {b : Built} (hb : ShellWords.parse (getNextCommand line m).1 = some b) :
    Takes (getNextCommand line m).1 ↔ (execOf line b).Good := by
  have ⟨_, hle, _, _⟩ := segment_spec line m
  rw [exec_good hline]
  constructor
  · rintro ⟨ts, hs, hfit⟩
    have heq := Option.some.inj ((parse_tokens line m hs).symm.trans hb)
    rw [heq] at hfit
    exact hfit
  · intro hfit
    obtain ⟨ts, hs⟩ := split_exists line hle
    have heq := Option.some.inj ((parse_tokens line m hs).symm.trans hb)
    refine ⟨ts, hs, ?_⟩
    rw [heq]
    exact hfit

theorem parse_some (line : List Byte) (m : ℕ) : ∃ b, ShellWords.parse (getNextCommand line m).1 = some b := by
  have ⟨_, hle, _, _⟩ := segment_spec line m
  obtain ⟨ts, hs⟩ := split_exists line hle
  exact ⟨_, parse_tokens line m hs⟩

/-- Where a segment ends: at a character between commands, or with the line, whose last
character is then no such character. -/
theorem segment_end (line : List Byte) (hm : m < line.length) :
    m ≤ (getNextCommand line m).1.last ∧
    (((getNextCommand line m).1.last < line.length ∧
        (byteAt line (getNextCommand line m).1.last = chr '|' ∨ byteAt line (getNextCommand line m).1.last = chr ';')) ∨
      ((getNextCommand line m).1.last = line.length ∧ line.getLast? ≠ some (chr '|'))) := by
  have ⟨h1, h2, h3, _⟩ := pass_spec isSpace line (line.length-m) m
  have ⟨g1, g2, g3, g4⟩ := pass_spec (fun c => !isDelimeter c cmdDelimeter) line
    (line.length-skipSpace line m line.length) (skipSpace line m line.length)
  rw [← skipSpace] at h1 h2 h3
  rw [← nextDelimeter] at g1 g2 g3 g4
  change m ≤ nextDelimeter line (skipSpace line m line.length) line.length cmdDelimeter ∧
    ((nextDelimeter line (skipSpace line m line.length) line.length cmdDelimeter < line.length ∧ _) ∨
      (nextDelimeter line (skipSpace line m line.length) line.length cmdDelimeter = line.length ∧ _))
  change m ≤ _ ∧ ((_ ∧ (byteAt line (nextDelimeter line (skipSpace line m line.length) line.length cmdDelimeter) =
    chr '|' ∨ byteAt line (nextDelimeter line (skipSpace line m line.length) line.length cmdDelimeter) = chr ';')) ∨ _)
  generalize nextDelimeter line (skipSpace line m line.length) line.length cmdDelimeter = e at *
  generalize skipSpace line m line.length = f at *
  refine ⟨by omega, ?_⟩
  by_cases he : e < line.length
  · have hfail := g4 (by omega)
    rw [Bool.not_eq_false', isDelimeter, List.contains_eq_mem, decide_eq_true_eq] at hfail
    refine .inl ⟨he, ?_⟩
    rcases List.mem_cons.mp hfail with hbar | hrest
    · exact .inl hbar
    · exact .inr (List.mem_singleton.mp hrest)
  · refine .inr ⟨by omega, fun hlast => ?_⟩
    have hbyte : byteAt line (line.length-1) = chr '|' := by
      rw [List.getLast?_eq_getElem?] at hlast
      rw [byteAt, List.getD_eq_getElem?_getD, hlast]
      rfl
    by_cases hf : line.length-1 < f
    · have hspace := h3 (line.length-1) (by omega) hf
      rw [hbyte] at hspace
      revert hspace
      decide
    · have hpass := g3 (line.length-1) (by omega) (by omega)
      rw [hbyte] at hpass
      revert hpass
      decide

theorem parseFrom_end (h : line.length ≤ m) (n : ℕ) :
    parseFrom line n m = some .null ∧ segmentsFrom line n m = [] := by
  cases n with
  | zero => exact ⟨if_pos h, rfl⟩
  | succ n => exact ⟨if_pos h, if_pos h⟩

/-- The three ways a round can end, by the character behind the segment. -/
theorem parseFrom_round (n : ℕ) (hm : m < line.length) {b : Built}
    (hb : ShellWords.parse (getNextCommand line m).1 = some b) :
    (byteAt line (getNextCommand line m).1.last = chr '|' → parseFrom line (n+1) m =
      (parseFrom line n ((getNextCommand line m).1.last+1)).map (.pipe (.exec (execOf line b)))) ∧
    (byteAt line (getNextCommand line m).1.last = chr ';' → parseFrom line (n+1) m =
      (parseFrom line n ((getNextCommand line m).1.last+1)).map (.list (.exec (execOf line b)))) ∧
    (byteAt line (getNextCommand line m).1.last = 0 → parseFrom line (n+1) m = some (.exec (execOf line b))) := by
  rw [parseFrom, if_neg (by omega)]
  simp only [hb]
  refine ⟨fun hc => ?_, fun hc => ?_, fun hc => ?_⟩
  · rw [if_pos hc]
    rfl
  · rw [hc, if_neg (by decide), if_pos rfl]
    rfl
  · rw [hc, if_neg (by decide), if_neg (by decide), if_pos rfl]

/-- A cursor inside of the line leads to a command. -/
theorem parseFrom_ne_null (hm : m < line.length) {cmd : Command} (h : parseFrom line n m = some cmd) :
    cmd ≠ .null := by
  rintro rfl
  cases n with
  | zero =>
    rw [parseFrom, if_neg (by omega)] at h
    cases h
  | succ n =>
    obtain ⟨b, hb⟩ := parse_some line m
    have ⟨hbar, hsemi, hnul⟩ := parseFrom_round n hm hb
    have ⟨_, hend⟩ := segment_end line hm
    rcases hend with ⟨_, hc | hc⟩ | ⟨hlast, _⟩
    · rw [hbar hc] at h
      obtain ⟨_, _, he⟩ := Option.map_eq_some_iff.mp h
      cases he
    · rw [hsemi hc] at h
      obtain ⟨_, _, he⟩ := Option.map_eq_some_iff.mp h
      cases he
    · rw [hnul (by rw [hlast, byteAt, List.getD_eq_default _ _ le_rfl])] at h
      cases h

/-- The commands from a cursor inside of the line on. -/
theorem parseFrom_good (hline : ∀ c ∈ line, c ≠ 0) (hm : m < line.length) (hn : line.length-m ≤ n) :
    (∃ cmd, parseFrom line n m = some cmd ∧ cmd.Good) ↔
      line.getLast? ≠ some (chr '|') ∧ ∀ s ∈ segmentsFrom line n m, Takes s := by
  induction n generalizing m with
  | zero => omega
  | succ n ih =>
    obtain ⟨b, hb⟩ := parse_some line m
    have htakes := takes_iff hline hb
    obtain ⟨hbar, hsemi, hnul⟩ := parseFrom_round n hm hb
    obtain ⟨hge, hend⟩ := segment_end line hm
    have hsegments : segmentsFrom line (n+1) m =
        (getNextCommand line m).1 :: segmentsFrom line n ((getNextCommand line m).1.last+1) := if_neg (by omega)
    rw [hsegments, List.forall_mem_cons, htakes]
    generalize (getNextCommand line m).1.last = e at *
    have hlastByte : e+1 = line.length → line.getLast? = some (byteAt line e) := by
      intro he
      rw [List.getLast?_eq_getElem?, byteAt, List.getD_eq_getElem?_getD, ← he, Nat.add_sub_cancel,
        List.getElem?_eq_getElem (by omega)]
      rfl
    rcases hend with ⟨he, hc | hc⟩ | ⟨he, hlast⟩
    · rw [hbar hc]
      by_cases hmore : e+1 < line.length
      · rw [and_left_comm, ← ih hmore (by omega)]
        constructor
        · rintro ⟨cmd, hcmd, hgood⟩
          obtain ⟨right, hright, rfl⟩ := Option.map_eq_some_iff.mp hcmd
          exact ⟨hgood.1, right, hright, hgood.2⟩
        · rintro ⟨hgood, right, hright, hgoodRight⟩
          exact ⟨.pipe (.exec (execOf line b)) right, by rw [hright, Option.map_some], ⟨hgood, hgoodRight⟩⟩
      · rw [(parseFrom_end (by omega) n).1]
        refine iff_of_false ?_ fun h => h.1 (by rw [hlastByte (by omega), hc])
        rintro ⟨cmd, hcmd, hgood⟩
        rw [← Option.some.inj hcmd] at hgood
        exact hgood.2
    · rw [hsemi hc]
      by_cases hmore : e+1 < line.length
      · rw [and_left_comm, ← ih hmore (by omega)]
        constructor
        · rintro ⟨cmd, hcmd, hgood⟩
          obtain ⟨right, hright, rfl⟩ := Option.map_eq_some_iff.mp hcmd
          exact ⟨hgood.1, right, hright, hgood.2.resolve_left (parseFrom_ne_null hmore hright)⟩
        · rintro ⟨hgood, right, hright, hgoodRight⟩
          exact ⟨.list (.exec (execOf line b)) right, by rw [hright, Option.map_some], ⟨hgood, .inr hgoodRight⟩⟩
      · rw [(parseFrom_end (by omega) n).1, (parseFrom_end (by omega) n).2]
        have hne : line.getLast? ≠ some (chr '|') := by
          rw [hlastByte (by omega), hc]
          decide
        constructor
        · rintro ⟨cmd, hcmd, hgood⟩
          rw [← Option.some.inj hcmd] at hgood
          exact ⟨hne, hgood.1, fun s hs => absurd hs List.not_mem_nil⟩
        · rintro ⟨_, hgood, _⟩
          exact ⟨_, rfl, hgood, .inl rfl⟩
    · have hc : byteAt line e = 0 := by
        rw [he, byteAt, List.getD_eq_default _ _ le_rfl]
      rw [hnul hc, (parseFrom_end (by omega) n).2]
      constructor
      · rintro ⟨cmd, hcmd, hgood⟩
        rw [← Option.some.inj hcmd] at hgood
        exact ⟨hlast, hgood, fun s hs => absurd hs List.not_mem_nil⟩
      · rintro ⟨_, hgood, _⟩
        exact ⟨_, rfl, hgood⟩

end Trees

/-- The parser returns a command that is safe to execute if and only if the line is fit. -/
theorem commands_safe (line : CommandLine) : Safe line ↔ Fit line.bytes := by
  by_cases hne : line.bytes = []
  · refine iff_of_false ?_ fun h => h.nonempty hne
    rintro ⟨cmd, hcmd, hgood⟩
    rw [parse, (parseFrom_end (by rw [hne]; exact le_rfl) _).1] at hcmd
    rw [← Option.some.inj hcmd] at hgood
    exact hgood
  · have hpos := List.length_pos_iff.mpr hne
    have hgood := parseFrom_good line.nonzero hpos (Nat.sub_le line.bytes.length 0)
    rw [Safe, parse, hgood]
    exact ⟨fun h => ⟨hne, h.1, h.2⟩, fun h => ⟨h.closed, h.words⟩⟩

/-- The line "a|". -/
def openPipe : CommandLine := ⟨[chr 'a', chr '|'], by decide⟩

/-- It gives a pipe without a second command. -/
theorem pipe_open : (∃ cmd, parse openPipe = some (.pipe (.exec cmd) .null)) ∧ ¬ Safe openPipe := by
  have hrun : ∃ cmd, parse openPipe = some (.pipe (.exec cmd) .null) := ⟨_, rfl⟩
  refine ⟨hrun, ?_⟩
  obtain ⟨cmd, hcmd⟩ := hrun
  rintro ⟨tree, htree, hgood⟩
  rw [hcmd] at htree
  rw [← Option.some.inj htree] at hgood
  exact hgood.2

end BabyOS.ShellCommands

import Mathlib

/-!
# Console input

The line editor of the console and its readers. One processor; kernel code is not preempted,
so another process runs only while the current one is asleep or outside of `read`. A
key can be pressed between any two steps.
-/

set_option autoImplicit false

namespace BabyOS.ConsoleInput

def bufferSize : ℕ := 1024

def backspace : ℕ := 8

def tab : ℕ := 9

def newline : ℕ := 10

def space : ℕ := 32

/-- Where a process is: not in `read`, at its test, in `sleep_on` before and after `add`, with
its state set, or about to take a byte; with the bytes that are left to read. -/
inductive Place
  | out
  | test (left : ℕ)
  | add (left : ℕ)
  | joined (left : ℕ)
  | asleep (left : ℕ)
  | take (left : ℕ)
deriving DecidableEq, Repr

/-- The indices are `uint32`. -/
structure InputBuffer where
  readIndex : ℕ
  writeIndex : ℕ
  editIndex : ℕ
  buffer : ℕ → ℕ

/-- The place of the cursor, the buffer, its readers, and `m_state == RUNNING` as far as `read`
sets it. -/
structure Console where
  rowNum : ℕ
  colNum : ℕ
  row : ℕ
  col : ℕ
  inputBuffer : InputBuffer
  waitQueue : List ℕ
  running : ℕ → Bool
  place : ℕ → Place
  current : ℕ

namespace Console

/-! ## The display -/

def scroll (s : Console) : Console := if s.row < s.rowNum then s else { s with row := s.row-1, col := 0 }

def putChar (s : Console) : Console :=
  if s.col+1 = s.colNum then { s with row := s.row+1, col := 0 }.scroll else { s with col := s.col+1 }

def unput (s : Console) : Console :=
  if s.col = 0 then
    if s.row = 0 then s else { s with row := s.row-1, col := s.colNum-1 }
  else { s with col := s.col-1 }

def putc (s : Console) (c : ℕ) : Console :=
  if c = newline then { s with row := s.row+1, col := 0 }.scroll
  else if c = tab then putChar^[4-s.col%4] s
  else if c = backspace then s.unput
  else s.putChar

/-! ## Input -/

/-- `m_wait_queue.wake_up()`: the head is woken, and stays on the queue. -/
def wakeupReader (s : Console) : Console :=
  match s.waitQueue with
  | [] => s
  | p :: _ => { s with running := Function.update s.running p true }

def store (b : InputBuffer) (ch : ℕ) : InputBuffer :=
  { b with
    buffer := Function.update b.buffer (b.editIndex%bufferSize) ch
    editIndex := (b.editIndex+1)%2^32 }

/-- `input_buffer_t::input`, which echoes the character. -/
def input (s : Console) (ch : ℕ) : Console :=
  let b := s.inputBuffer
  if ch = backspace then
    if b.editIndex = b.writeIndex then s
    else { s with inputBuffer := { b with editIndex := (b.editIndex+2^32-1)%2^32 } }.putc ch
  else if ch = newline then
    { s with inputBuffer := { store b ch with writeIndex := (store b ch).editIndex } }.wakeupReader.putc ch
  else { s with inputBuffer := store b ch }.putc ch

/-- The loop of `do_input` for a tab, with so many of its four rounds left; the echo moves the
column that the bound is computed from. -/
def tabRounds : ℕ → Console → Console
  | 0, s => s
  | k+1, s => if 3-k < 4-s.col%4 then tabRounds k (s.input space) else s

def doInput (s : Console) (ch : ℕ) : Console :=
  if ch = 0 then s else if ch = tab then tabRounds 4 s else s.input ch

/-- The spaces that a tab shows. -/
def tabSpaces : ℕ → Console → ℕ
  | 0, _ => 0
  | k+1, s => if 3-k < 4-s.col%4 then tabSpaces k (s.input space)+1 else 0

/-- What a key types, as it is shown. -/
def keys (s : Console) (ch : ℕ) : List ℕ :=
  if ch = 0 then [] else if ch = tab then List.replicate (tabSpaces 4 s) space else [ch]

/-! ## Reading -/

def setPlace (s : Console) (x : Place) : Console := { s with place := Function.update s.place s.current x }

/-- The next byte of the buffer. -/
def byte (s : Console) : ℕ := s.inputBuffer.buffer (s.inputBuffer.readIndex%bufferSize)

def empty (s : Console) : Prop := s.inputBuffer.readIndex = s.inputBuffer.writeIndex

instance (s : Console) : Decidable s.empty := inferInstanceAs (Decidable (_ = _))

/-- The byte is the last one of the call. -/
def ends (s : Console) (left : ℕ) : Prop := s.byte = newline ∨ left = 1

instance (s : Console) (left : ℕ) : Decidable (s.ends left) := inferInstanceAs (Decidable (_ ∨ _))

def take (s : Console) (left : ℕ) : Console :=
  { s with inputBuffer := { s.inputBuffer with readIndex := (s.inputBuffer.readIndex+1)%2^32 } }.setPlace
    (if s.ends left then .out else .test (left-1))

end Console

/-! ## Steps -/

inductive Event
  | key (ch : ℕ)
  | output (row col : ℕ)
  | switch (p : ℕ)
  | read (size : ℤ)
  | test
  | add
  | doze
  | resume
  | take

/-- A step, with what it types and the bytes that it gives to a reader. The first two can
happen at any moment. -/
inductive Step : Console → Event → List ℕ → List ℕ → Console → Prop
  | key {s : Console} {ch : ℕ} : Step s (.key ch) (s.keys ch) [] (s.doInput ch)
  | output {s : Console} {row col : ℕ} : Step s (.output row col) [] [] { s with row := row, col := col }
  | switch {s : Console} {p : ℕ} : (s.place s.current = .out ∨ ∃ left, s.place s.current = .asleep left) →
      s.running p = true → Step s (.switch p) [] [] { s with current := p }
  | read {s : Console} {size : ℤ} : s.place s.current = .out → s.running s.current = true →
      Step s (.read size) [] [] (s.setPlace (if 0 < size then .test size.toNat else .out))
  | test {s : Console} {left : ℕ} : s.place s.current = .test left →
      Step s .test [] [] (s.setPlace (if s.empty then .add left else .take left))
  | add {s : Console} {left : ℕ} : s.place s.current = .add left →
      Step s .add [] [] ({ s with waitQueue := s.waitQueue++[s.current] }.setPlace (.joined left))
  | doze {s : Console} {left : ℕ} : s.place s.current = .joined left →
      Step s .doze [] [] ({ s with running := Function.update s.running s.current false }.setPlace (.asleep left))
  | resume {s : Console} {left : ℕ} : s.place s.current = .asleep left → s.running s.current = true →
      Step s .resume [] [] ({ s with waitQueue := s.waitQueue.erase s.current }.setPlace (.take left))
  | take {s : Console} {left : ℕ} : s.place s.current = .take left → Step s .take [] [s.byte] (s.take left)

/-- After `init`. -/
structure Start (s : Console) : Prop where
  indices : s.inputBuffer.readIndex = 0 ∧ s.inputBuffer.writeIndex = 0 ∧ s.inputBuffer.editIndex = 0
  queue : s.waitQueue = []
  running : ∀ p, s.running p = true
  out : ∀ p, s.place p = .out

/-- Runs with what has been typed and the bytes that readers have got, in their order. -/
inductive Run (allowed : Console → Event → Prop) : Console → List ℕ → List ℕ → Prop
  | start {s : Console} : Start s → Run allowed s [] []
  | step {s s' : Console} {e : Event} {typed delivered ins outs : List ℕ} : Run allowed s typed delivered →
      allowed s e → Step s e ins outs s' → Run allowed s' (typed++ins) (delivered++outs)

/-! ## What the console is for -/

/-- The committed lines, and the line that is being edited. -/
structure Text where
  committed : List ℕ
  line : List ℕ

def Text.type (x : Text) (ch : ℕ) : Text :=
  if ch = backspace then { x with line := x.line.dropLast }
  else if ch = newline then ⟨x.committed++x.line++[newline], []⟩
  else { x with line := x.line++[ch] }

def edited (typed : List ℕ) : Text := typed.foldl Text.type ⟨[], []⟩

/-- A reader that only a wake-up brings back. -/
def Sleeps (s : Console) (p : ℕ) : Prop := s.running p = false ∧ ∃ left, s.place p = .asleep left

/-- A reader that runs, or has been woken. -/
def Awake (s : Console) (p : ℕ) : Prop := s.running p = true ∧ s.place p ≠ .out

/-- The readers have got a prefix of the committed lines, each byte once; the rest is in the buffer,
and a reader sleeps then only while another one is awake. -/
structure Faithful (s : Console) (typed delivered : List ℕ) : Prop where
  order : delivered <+: (edited typed).committed
  read : s.inputBuffer.readIndex = delivered.length%2^32
  write : s.inputBuffer.writeIndex = (edited typed).committed.length%2^32
  unread : ∀ k byte, delivered.length ≤ k → (edited typed).committed[k]? = some byte →
    s.inputBuffer.buffer (k%bufferSize) = byte
  tended : delivered.length < (edited typed).committed.length → (∃ p, Sleeps s p) → ∃ p, Awake s p

/-- The bytes between the reader and the end of the line. -/
def Console.used (s : Console) : ℕ := (s.inputBuffer.editIndex+2^32-s.inputBuffer.readIndex)%2^32

/-- Another reader is awake. -/
def Relieved (s : Console) : Prop := ∃ p, p ≠ s.current ∧ Awake s p

/-- The buffer has room for what is typed; nothing is there, or another reader is awake, when a reader
goes to sleep; a byte is there when one is taken, and if it is the last one of its call then nothing is
left, or nobody sleeps, or another reader is awake. -/
def Unhurried (s : Console) : Event → Prop
  | .key ch => ch = backspace ∨ s.used+(s.keys ch).length ≤ bufferSize
  | .doze => s.empty ∨ Relieved s
  | .take => ¬ s.empty ∧ ∀ left, s.place s.current = .take left → s.ends left →
      (s.inputBuffer.readIndex+1)%2^32 = s.inputBuffer.writeIndex ∨ (∀ p, ¬ Sleeps s p) ∨ Relieved s
  | _ => True

/-! ## The buffer -/

/-- The buffer after `n` bytes have been read. -/
structure Held (b : InputBuffer) (x : Text) (n : ℕ) : Prop where
  le : n ≤ x.committed.length
  room : x.committed.length+x.line.length ≤ n+bufferSize
  read : b.readIndex = n%2^32
  write : b.writeIndex = x.committed.length%2^32
  edit : b.editIndex = (x.committed.length+x.line.length)%2^32
  bytes : ∀ k byte, n ≤ k → (x.committed++x.line)[k]? = some byte → b.buffer (k%bufferSize) = byte

section Buffer

variable {b : InputBuffer} {x : Text} {n ch : ℕ}

theorem mod_size (k : ℕ) : k%2^32%bufferSize = k%bufferSize := Nat.mod_mod_of_dvd k (by decide)

theorem Held.empty_iff (h : Held b x n) : b.readIndex = b.writeIndex ↔ n = x.committed.length := by
  have hle := h.le
  have hroom := h.room
  rw [h.read, h.write]
  simp only [bufferSize] at hroom
  omega

theorem Held.line_iff (h : Held b x n) : b.editIndex = b.writeIndex ↔ x.line = [] := by
  have hle := h.le
  have hroom := h.room
  rw [h.edit, h.write, ← List.length_eq_zero_iff]
  simp only [bufferSize] at hroom
  omega

theorem Held.used (h : Held b x n) :
    (b.editIndex+2^32-b.readIndex)%2^32 = x.committed.length+x.line.length-n := by
  have hle := h.le
  have hroom := h.room
  rw [h.edit, h.read]
  simp only [bufferSize] at hroom
  omega

theorem held_store (h : Held b x n) (hroom : x.committed.length+x.line.length < n+bufferSize) :
    Held (Console.store b ch) { x with line := x.line++[ch] } n := by
  have hle := h.le
  have hslot : b.editIndex%bufferSize = (x.committed.length+x.line.length)%bufferSize := by
    rw [h.edit, mod_size]
  refine ⟨hle, ?_, h.read, h.write, ?_, fun k byte hk hbyte => ?_⟩
  · simp only [List.length_append, List.length_singleton]
    omega
  · simp only [Console.store, h.edit, List.length_append, List.length_singleton]
    omega
  · rw [Console.store, hslot]
    rw [← List.append_assoc, List.getElem?_append] at hbyte
    split at hbyte
    next hold =>
      -- the slot of an older byte is another one
      have hother : k%bufferSize ≠ (x.committed.length+x.line.length)%bufferSize := by
        simp only [List.length_append] at hold
        simp only [bufferSize] at hroom ⊢
        omega
      exact (Function.update_of_ne hother _ _).trans (h.bytes k byte hk hbyte)
    next hnew =>
      have hlength : k < (x.committed++x.line).length+1 := by
        have hsome := (List.getElem?_eq_some_iff.mp hbyte).1
        simp only [List.length_singleton] at hsome
        omega
      have hlast : k = x.committed.length+x.line.length := by
        simp only [List.length_append] at hnew hlength
        omega
      simp only [hlast, List.length_append, Nat.sub_self] at hbyte
      rw [hlast]
      exact (Function.update_self ..).trans (Option.some.inj hbyte)

/-- The line is committed. -/
theorem held_commit (h : Held b x n) :
    Held { b with writeIndex := b.editIndex } ⟨x.committed++x.line, []⟩ n := by
  refine ⟨?_, ?_, h.read, ?_, ?_, fun k byte hk hbyte => ?_⟩
  · simpa using h.le.trans (Nat.le_add_right _ x.line.length)
  · simpa using h.room
  · simpa using h.edit
  · simpa using h.edit
  · rw [List.append_nil] at hbyte
    exact h.bytes k byte hk hbyte

theorem held_backspace (h : Held b x n) (hline : x.line ≠ []) :
    Held { b with editIndex := (b.editIndex+2^32-1)%2^32 } { x with line := x.line.dropLast } n := by
  have hpos := List.length_pos_iff.mpr hline
  have hroom := h.room
  refine ⟨h.le, ?_, h.read, h.write, ?_, fun k byte hk hbyte => ?_⟩
  · simp only [List.length_dropLast]
    omega
  · have hedit := h.edit
    simp only [List.length_dropLast]
    omega
  · refine h.bytes k byte hk ?_
    rw [← List.dropLast_append_of_ne_nil hline, List.getElem?_dropLast] at hbyte
    split at hbyte
    · exact hbyte
    · cases hbyte

theorem held_take (h : Held b x n) (hsome : n < x.committed.length) :
    Held { b with readIndex := (b.readIndex+1)%2^32 } x (n+1) ∧
      x.committed[n]? = some (b.buffer (b.readIndex%bufferSize)) := by
  have hroom := h.room
  refine ⟨⟨hsome, by omega, ?_, h.write, h.edit, fun k byte hk => h.bytes k byte (by omega)⟩, ?_⟩
  · rw [h.read]
    exact Nat.mod_add_mod n (2^32) 1
  · obtain ⟨byte, hbyte⟩ : ∃ byte, x.committed[n]? = some byte := ⟨_, List.getElem?_eq_getElem hsome⟩
    rw [hbyte, h.read, mod_size, h.bytes n byte le_rfl]
    rw [List.getElem?_append_left hsome]
    exact hbyte

end Buffer

/-! ## Typing -/

section Typing

variable {s : Console} {x : Text} {n ch : ℕ}

theorem scroll_frame (s : Console) : ∃ row col, s.scroll = { s with row := row, col := col } := by
  rw [Console.scroll]
  split
  · exact ⟨s.row, s.col, rfl⟩
  · exact ⟨s.row-1, 0, rfl⟩

theorem putChar_frame (s : Console) : ∃ row col, s.putChar = { s with row := row, col := col } := by
  rw [Console.putChar]
  split
  · obtain ⟨row, col, heq⟩ := scroll_frame { s with row := s.row+1, col := 0 }
    exact ⟨row, col, heq⟩
  · exact ⟨s.row, s.col+1, rfl⟩

theorem putChars_frame (k : ℕ) (s : Console) : ∃ row col, Console.putChar^[k] s = { s with row := row, col := col } := by
  induction k generalizing s with
  | zero => exact ⟨s.row, s.col, rfl⟩
  | succ k ih =>
    obtain ⟨row, col, hfirst⟩ := putChar_frame s
    obtain ⟨row', col', hrest⟩ := ih s.putChar
    refine ⟨row', col', ?_⟩
    rw [Function.iterate_succ_apply, hrest, hfirst]

/-- The echo moves the cursor and nothing else. -/
theorem putc_frame (s : Console) (c : ℕ) : ∃ row col, s.putc c = { s with row := row, col := col } := by
  rw [Console.putc]
  split
  · obtain ⟨row, col, heq⟩ := scroll_frame { s with row := s.row+1, col := 0 }
    exact ⟨row, col, heq⟩
  split
  · exact putChars_frame _ s
  split
  · rw [Console.unput]
    split
    · split
      · exact ⟨s.row, s.col, rfl⟩
      · exact ⟨s.row-1, s.colNum-1, rfl⟩
    · exact ⟨s.row, s.col-1, rfl⟩
  · exact putChar_frame s

/-- What a character does to the buffer. -/
def edit (b : InputBuffer) (ch : ℕ) : InputBuffer :=
  if ch = backspace then
    if b.editIndex = b.writeIndex then b else { b with editIndex := (b.editIndex+2^32-1)%2^32 }
  else if ch = newline then { Console.store b ch with writeIndex := (Console.store b ch).editIndex }
  else Console.store b ch

theorem wakeupReader_frame (s : Console) : s.wakeupReader = { s with running := s.wakeupReader.running } := by
  rw [Console.wakeupReader]
  split
  · rfl
  · rfl

theorem input_frame (s : Console) (ch : ℕ) : ∃ row col, s.input ch = { s with
    inputBuffer := edit s.inputBuffer ch
    running := if ch = newline then s.wakeupReader.running else s.running
    row := row
    col := col } := by
  rw [Console.input, edit]
  dsimp only
  by_cases hback : ch = backspace
  · have hline : ch ≠ newline := by
      rw [hback]
      decide
    rw [if_pos hback, if_pos hback, if_neg hline]
    split
    · exact ⟨s.row, s.col, rfl⟩
    · exact putc_frame _ ch
  · rw [if_neg hback, if_neg hback]
    by_cases hline : ch = newline
    · rw [if_pos hline, if_pos hline, if_pos hline]
      obtain ⟨row, col, heq⟩ := putc_frame (Console.wakeupReader { s with
        inputBuffer := { Console.store s.inputBuffer ch with writeIndex := (Console.store s.inputBuffer ch).editIndex } }) ch
      refine ⟨row, col, ?_⟩
      rw [heq, wakeupReader_frame]
      simp only [Console.wakeupReader]
      cases s.waitQueue with
      | nil => rfl
      | cons p l => rfl
    · rw [if_neg hline, if_neg hline, if_neg hline]
      exact putc_frame _ ch

theorem held_edit {b : InputBuffer} (h : Held b x n)
    (hroom : ch = backspace ∨ x.committed.length+x.line.length < n+bufferSize) : Held (edit b ch) (x.type ch) n := by
  rw [edit, Text.type]
  by_cases hback : ch = backspace
  · rw [if_pos hback, if_pos hback]
    by_cases hline : x.line = []
    · rw [if_pos (h.line_iff.mpr hline)]
      have hsame : { x with line := x.line.dropLast } = x := by
        rw [hline, List.dropLast_nil, ← hline]
      rw [hsame]
      exact h
    · rw [if_neg (fun hc => hline (h.line_iff.mp hc))]
      exact held_backspace h hline
  · have hstore : Held (Console.store b ch) { x with line := x.line++[ch] } n :=
      held_store h (hroom.resolve_left hback)
    rw [if_neg hback, if_neg hback]
    by_cases hline : ch = newline
    · rw [if_pos hline, if_pos hline]
      have hcommit := held_commit hstore
      rw [← List.append_assoc] at hcommit
      rw [hline] at hcommit ⊢
      exact hcommit
    · rw [if_neg hline, if_neg hline]
      exact hstore

theorem edited_snoc (typed : List ℕ) (ch : ℕ) : edited (typed++[ch]) = (edited typed).type ch := by
  rw [edited, edited, List.foldl_append]
  rfl

/-- Committed text stays. -/
theorem type_committed (x : Text) (ch : ℕ) : x.committed <+: (x.type ch).committed := by
  rw [Text.type]
  split
  · exact List.prefix_rfl
  split
  · exact ⟨x.line++[newline], (List.append_assoc ..).symm⟩
  · exact List.prefix_rfl

theorem type_same (x : Text) (hline : ch ≠ newline) : (x.type ch).committed = x.committed := by
  rw [Text.type, if_neg hline]
  split
  · rfl
  · rfl

end Typing

/-! ## Runs -/

/-- In `sleep_on`, between `add` and `remove`. -/
def Place.queued : Place → Bool
  | .joined _ => true
  | .asleep _ => true
  | _ => false

/-- What carries the run. -/
structure Kept (s : Console) (typed delivered : List ℕ) : Prop where
  held : Held s.inputBuffer (edited typed) delivered.length
  order : delivered <+: (edited typed).committed
  waiting : ∀ p, p ∈ s.waitQueue ↔ (s.place p).queued = true
  once : s.waitQueue.Nodup
  sleeps : ∀ p, s.running p = false → ∃ left, s.place p = .asleep left
  tended : delivered.length < (edited typed).committed.length → (∃ p, Sleeps s p) → ∃ p, Awake s p

section Runs

variable {s s' : Console} {typed delivered ins outs : List ℕ} {p ch left : ℕ}

theorem faithful_of (h : Kept s typed delivered) : Faithful s typed delivered where
  order := h.order
  read := h.held.read
  write := h.held.write
  unread := by
    intro k byte hk hbyte
    refine h.held.bytes k byte hk ?_
    rw [List.getElem?_append_left (List.getElem?_eq_some_iff.mp hbyte).1]
    exact hbyte
  tended := h.tended

theorem Kept.used (h : Kept s typed delivered) :
    s.used = (edited typed).committed.length+(edited typed).line.length-delivered.length := h.held.used

theorem Kept.empty_iff (h : Kept s typed delivered) :
    s.empty ↔ delivered.length = (edited typed).committed.length := h.held.empty_iff

/-- A wake-up takes the head of the queue out of its sleep. -/
theorem wakeupReader_spec (h : Kept s typed delivered) :
    (∀ p, s.running p = true → s.wakeupReader.running p = true) ∧
      ∀ p, p ∈ s.waitQueue → ∃ q, s.wakeupReader.running q = true ∧ s.place q ≠ .out := by
  rw [Console.wakeupReader]
  cases hqueue : s.waitQueue with
  | nil => exact ⟨fun p hp => hp, fun p hp => nomatch hp⟩
  | cons q l =>
    refine ⟨fun p hp => ?_, fun p _ => ⟨q, Function.update_self .., ?_⟩⟩
    · by_cases hpq : p = q
      · rw [hpq]
        exact Function.update_self ..
      · exact (Function.update_of_ne hpq _ _).trans hp
    · have hplace := (h.waiting q).mp (hqueue ▸ List.mem_cons_self)
      rintro hc
      rw [hc] at hplace
      cases hplace

theorem kept_input (h : Kept s typed delivered) (hroom : ch = backspace ∨ s.used < bufferSize) :
    Kept (s.input ch) (typed++[ch]) delivered := by
  have hle := h.held.le
  have hused := h.used
  have hgrown := type_committed (edited typed) ch
  obtain ⟨hkept, hwoken⟩ := wakeupReader_spec h
  obtain ⟨row, col, heq⟩ := input_frame s ch
  have hrunning : ∀ p, s.running p = true → (s.input ch).running p = true := by
    intro p hp
    rw [heq]
    dsimp only
    split
    · exact hkept p hp
    · exact hp
  have hplace : (s.input ch).place = s.place := by rw [heq]
  have hqueue : (s.input ch).waitQueue = s.waitQueue := by rw [heq]
  have hbuffer : (s.input ch).inputBuffer = edit s.inputBuffer ch := by rw [heq]
  have hbefore : ∀ p, (s.input ch).running p = false → s.running p = false := by
    intro p hp
    rw [← Bool.not_eq_true] at hp ⊢
    exact fun hc => hp (hrunning p hc)
  refine ⟨?_, ?_, ?_, ?_, fun p hp => ?_, fun hunread hsleeps => ?_⟩
  · rw [hbuffer, edited_snoc]
    exact held_edit h.held (hroom.imp_right fun hc => by omega)
  · rw [edited_snoc]
    exact h.order.trans hgrown
  · rw [hqueue, hplace]
    exact h.waiting
  · rw [hqueue]
    exact h.once
  · rw [hplace]
    exact h.sleeps p (hbefore p hp)
  · obtain ⟨p, hoff, left, hasleep⟩ := hsleeps
    rw [hplace] at hasleep
    have hold : Sleeps s p := ⟨hbefore p hoff, left, hasleep⟩
    by_cases hline : ch = newline
    · -- the line is there and the head of the queue is awake
      have hin : p ∈ s.waitQueue := by
        rw [h.waiting, hasleep]
        rfl
      obtain ⟨q, hq, hout⟩ := hwoken p hin
      refine ⟨q, ?_, ?_⟩
      · rw [heq]
        dsimp only
        rw [if_pos hline]
        exact hq
      · rw [hplace]
        exact hout
    · rw [edited_snoc, type_same _ hline] at hunread
      obtain ⟨q, hq, hout⟩ := h.tended hunread ⟨p, hold⟩
      exact ⟨q, hrunning q hq, by rw [hplace]; exact hout⟩

theorem kept_rounds (k : ℕ) (h : Kept s typed delivered) (hroom : s.used+s.tabSpaces k ≤ bufferSize) :
    Kept (s.tabRounds k) (typed++List.replicate (s.tabSpaces k) space) delivered := by
  induction k generalizing s typed with
  | zero =>
    rw [Console.tabRounds, Console.tabSpaces, List.replicate_zero, List.append_nil]
    exact h
  | succ k ih =>
    rw [Console.tabRounds, Console.tabSpaces]
    rw [Console.tabSpaces] at hroom
    by_cases hmore : 3-k < 4-s.col%4
    · rw [if_pos hmore] at hroom
      rw [if_pos hmore, if_pos hmore]
      have hle := h.held.le
      have hinput : Kept (s.input space) (typed++[space]) delivered := kept_input h (Or.inr (by omega))
      have hused := h.used
      have hused' := hinput.used
      rw [edited_snoc, Text.type, if_neg (by decide), if_neg (by decide)] at hused'
      simp only [List.length_append, List.length_singleton] at hused'
      have hrest := ih hinput (by omega)
      rw [List.append_assoc, List.singleton_append, ← List.replicate_succ] at hrest
      exact hrest
    · rw [if_neg hmore, if_neg hmore, List.replicate_zero, List.append_nil]
      exact h

theorem kept_doInput (h : Kept s typed delivered)
    (hroom : ch = backspace ∨ s.used+(s.keys ch).length ≤ bufferSize) :
    Kept (s.doInput ch) (typed++s.keys ch) delivered := by
  rw [Console.keys] at hroom ⊢
  rw [Console.doInput]
  by_cases hzero : ch = 0
  · rw [if_pos hzero, if_pos hzero, List.append_nil]
    exact h
  · rw [if_neg hzero] at hroom
    rw [if_neg hzero, if_neg hzero]
    by_cases htab : ch = tab
    · have hback : ch ≠ backspace := by
        rw [htab]
        decide
      rw [if_pos htab, List.length_replicate] at hroom
      rw [if_pos htab, if_pos htab]
      exact kept_rounds 4 h (hroom.resolve_left hback)
    · rw [if_neg htab] at hroom
      rw [if_neg htab, if_neg htab]
      refine kept_input h (hroom.imp_right fun hc => ?_)
      exact hc

/-- A process that is not in `sleep_on` runs and is in no queue. -/
theorem current_free (h : Kept s typed delivered) (hplace : (s.place p).queued = false) :
    p ∉ s.waitQueue ∧ s.running p = true := by
  constructor
  · rw [h.waiting, hplace]
    decide
  · by_contra hoff
    obtain ⟨left, hc⟩ := h.sleeps p (Bool.eq_false_iff.mpr hoff)
    rw [hc] at hplace
    cases hplace

/-- The current process moves on outside of `sleep_on`. -/
theorem kept_place {x : Place} (h : Kept s typed delivered) (hbefore : (s.place s.current).queued = false)
    (hafter : x.queued = false) (hx : x = .out → s.place s.current = .out) :
    Kept (s.setPlace x) typed delivered := by
  obtain ⟨hqueue, hrun⟩ := current_free h hbefore
  have hother : ∀ p, p ≠ s.current → (s.setPlace x).place p = s.place p := fun p hp => Function.update_of_ne hp _ _
  have hself : (s.setPlace x).place s.current = x := Function.update_self ..
  have hne : ∀ p, s.running p = false → p ≠ s.current := by
    rintro p hp rfl
    rw [hp] at hrun
    cases hrun
  refine ⟨h.held, h.order, fun p => ?_, h.once, fun p hp => ?_, ?_⟩
  · by_cases hpc : p = s.current
    · rw [hpc, hself, hafter]
      exact iff_of_false hqueue (by decide)
    · rw [hother p hpc]
      exact h.waiting p
  · rw [hother p (hne p hp)]
    exact h.sleeps p hp
  · rintro hunread ⟨p, hoff, left, hplace⟩
    rw [hother p (hne p hoff)] at hplace
    obtain ⟨q, hq, hout⟩ := h.tended hunread ⟨p, hoff, left, hplace⟩
    refine ⟨q, hq, ?_⟩
    by_cases hqc : q = s.current
    · rw [hqc, hself]
      intro hc
      exact hout (hqc ▸ hx hc)
    · rw [hother q hqc]
      exact hout

theorem kept_add (h : Kept s typed delivered) (hplace : s.place s.current = .add left) :
    Kept ({ s with waitQueue := s.waitQueue++[s.current] }.setPlace (.joined left)) typed delivered := by
  obtain ⟨hqueue, hrun⟩ := current_free (p := s.current) h (by rw [hplace]; rfl)
  have hother : ∀ p, p ≠ s.current → Function.update s.place s.current (.joined left) p = s.place p :=
    fun p hp => Function.update_of_ne hp _ _
  have hself : Function.update s.place s.current (.joined left) s.current = .joined left := Function.update_self ..
  have hne : ∀ p, s.running p = false → p ≠ s.current := by
    rintro p hp rfl
    rw [hp] at hrun
    cases hrun
  refine ⟨h.held, h.order, fun p => ?_, ?_, fun p hp => ?_, fun _ _ => ⟨s.current, hrun, ?_⟩⟩
  · change p ∈ s.waitQueue++[s.current] ↔ (Function.update s.place s.current (.joined left) p).queued = true
    rw [List.mem_append, List.mem_singleton]
    by_cases hpc : p = s.current
    · rw [hpc, hself]
      exact iff_of_true (Or.inr rfl) rfl
    · rw [hother p hpc, ← h.waiting p]
      exact or_iff_left hpc
  · exact List.nodup_append.mpr ⟨h.once, List.nodup_singleton _,
      fun a ha b hb hab => hqueue (List.mem_singleton.mp hb ▸ hab ▸ ha)⟩
  · obtain ⟨left', hasleep⟩ := h.sleeps p hp
    exact ⟨left', (hother p (hne p hp)).trans hasleep⟩
  · intro hc
    have hout := hself.symm.trans hc
    cases hout

theorem kept_doze (h : Kept s typed delivered) (hplace : s.place s.current = .joined left)
    (hallowed : s.empty ∨ Relieved s) :
    Kept ({ s with running := Function.update s.running s.current false }.setPlace (.asleep left))
      typed delivered := by
  have hother : ∀ p, p ≠ s.current → Function.update s.place s.current (.asleep left) p = s.place p :=
    fun p hp => Function.update_of_ne hp _ _
  have hself : Function.update s.place s.current (.asleep left) s.current = .asleep left := Function.update_self ..
  refine ⟨h.held, h.order, fun p => ?_, h.once, fun p hp => ?_, fun hunread _ => ?_⟩
  · change p ∈ s.waitQueue ↔ (Function.update s.place s.current (.asleep left) p).queued = true
    rw [h.waiting]
    by_cases hpc : p = s.current
    · rw [hpc, hself, hplace]
      exact Iff.rfl
    · rw [hother p hpc]
  · by_cases hpc : p = s.current
    · rw [hpc]
      exact ⟨left, hself⟩
    · obtain ⟨left', hasleep⟩ := h.sleeps p ((Function.update_of_ne hpc _ _).symm.trans hp)
      exact ⟨left', (hother p hpc).trans hasleep⟩
  · rcases hallowed with hempty | ⟨q, hqc, hq, hout⟩
    · have hall := h.empty_iff.mp hempty
      omega
    · exact ⟨q, (Function.update_of_ne hqc _ _).trans hq, fun hc => hout ((hother q hqc).symm.trans hc)⟩

theorem kept_resume (h : Kept s typed delivered) (hrun : s.running s.current = true) :
    Kept ({ s with waitQueue := s.waitQueue.erase s.current }.setPlace (.take left)) typed delivered := by
  have hother : ∀ p, p ≠ s.current → Function.update s.place s.current (.take left) p = s.place p :=
    fun p hp => Function.update_of_ne hp _ _
  have hself : Function.update s.place s.current (.take left) s.current = .take left := Function.update_self ..
  have hne : ∀ p, s.running p = false → p ≠ s.current := by
    rintro p hp rfl
    rw [hp] at hrun
    cases hrun
  refine ⟨h.held, h.order, fun p => ?_, h.once.erase _, fun p hp => ?_, fun _ _ => ⟨s.current, hrun, ?_⟩⟩
  · change p ∈ s.waitQueue.erase s.current ↔ (Function.update s.place s.current (.take left) p).queued = true
    rw [h.once.mem_erase_iff]
    by_cases hpc : p = s.current
    · rw [hpc, hself]
      exact iff_of_false (fun hc => hc.1 rfl) (by simp [Place.queued])
    · rw [hother p hpc, ← h.waiting p]
      exact and_iff_right hpc
  · obtain ⟨left', hasleep⟩ := h.sleeps p hp
    exact ⟨left', (hother p (hne p hp)).trans hasleep⟩
  · intro hc
    have hout := hself.symm.trans hc
    cases hout

/-- A reader takes the next committed byte. -/
theorem kept_take (h : Kept s typed delivered) (hplace : s.place s.current = .take left)
    (hallowed : Unhurried s .take) : Kept (s.take left) typed (delivered++[s.byte]) := by
  obtain ⟨hsome, hlast⟩ := hallowed
  have hle := h.held.le
  have hlt : delivered.length < (edited typed).committed.length := by
    have hempty := h.empty_iff.not.mp hsome
    omega
  obtain ⟨hheld, hbyte⟩ := held_take h.held hlt
  obtain ⟨hqueue, hrun⟩ := current_free (p := s.current) h (by rw [hplace]; rfl)
  have hother : ∀ p, p ≠ s.current → (s.take left).place p = s.place p := fun p hp => Function.update_of_ne hp _ _
  have hself : (s.take left).place s.current = if s.ends left then .out else .test (left-1) := Function.update_self ..
  have hne : ∀ p, s.running p = false → p ≠ s.current := by
    rintro p hp rfl
    rw [hp] at hrun
    cases hrun
  refine ⟨?_, ?_, fun p => ?_, h.once, fun p hp => ?_, ?_⟩
  · rw [List.length_append, List.length_singleton]
    exact hheld
  · obtain ⟨rest, hrest⟩ := h.order
    rw [← hrest, List.getElem?_append_right le_rfl, Nat.sub_self] at hbyte
    cases rest with
    | nil => cases hbyte
    | cons byte rest =>
      obtain rfl := Option.some.inj hbyte
      refine ⟨rest, ?_⟩
      rw [List.append_assoc, List.singleton_append]
      exact hrest
  · by_cases hpc : p = s.current
    · rw [hpc, hself]
      refine iff_of_false hqueue ?_
      split
      · decide
      · simp [Place.queued]
    · rw [hother p hpc]
      exact h.waiting p
  · rw [hother p (hne p hp)]
    exact h.sleeps p hp
  · rintro hunread ⟨p, hoff, left', hasleep⟩
    rw [List.length_append, List.length_singleton] at hunread
    rw [hother p (hne p hoff)] at hasleep
    by_cases hends : s.ends left
    · rcases hlast left hplace hends with hall | hnobody | ⟨q, hqc, hq, hout⟩
      · -- nothing is left in the buffer
        have hread := hheld.empty_iff.mp hall
        omega
      · exact absurd ⟨hoff, left', hasleep⟩ (hnobody p)
      · exact ⟨q, hq, by rw [hother q hqc]; exact hout⟩
    · refine ⟨s.current, hrun, ?_⟩
      rw [hself, if_neg hends]
      exact fun hc => nomatch hc

theorem kept_step {e : Event} (h : Kept s typed delivered) (hallowed : Unhurried s e) (hs : Step s e ins outs s') :
    Kept s' (typed++ins) (delivered++outs) := by
  cases hs with
  | key =>
    rw [List.append_nil]
    exact kept_doInput h hallowed
  | output =>
    rw [List.append_nil, List.append_nil]
    exact ⟨h.held, h.order, h.waiting, h.once, h.sleeps, h.tended⟩
  | switch =>
    rw [List.append_nil, List.append_nil]
    exact ⟨h.held, h.order, h.waiting, h.once, h.sleeps, h.tended⟩
  | read hplace =>
    rw [List.append_nil, List.append_nil]
    refine kept_place h (by rw [hplace]; rfl) ?_ fun _ => hplace
    split
    · rfl
    · rfl
  | test hplace =>
    rw [List.append_nil, List.append_nil]
    refine kept_place h (by rw [hplace]; rfl) ?_ fun hc => ?_
    · split
      · rfl
      · rfl
    · split at hc
      · cases hc
      · cases hc
  | add hplace =>
    rw [List.append_nil, List.append_nil]
    exact kept_add h hplace
  | doze hplace =>
    rw [List.append_nil, List.append_nil]
    exact kept_doze h hplace hallowed
  | resume _ hrun =>
    rw [List.append_nil, List.append_nil]
    exact kept_resume h hrun
  | take hplace =>
    rw [List.append_nil]
    exact kept_take h hplace hallowed

theorem kept_start (h : Start s) : Kept s [] [] := by
  obtain ⟨hread, hwrite, hedit⟩ := h.indices
  refine ⟨⟨Nat.le_refl 0, Nat.zero_le _, hread, hwrite, hedit, fun k byte _ hbyte => nomatch hbyte⟩,
    List.prefix_rfl, fun p => ?_, ?_, fun p hp => ?_, fun hunread => absurd hunread (Nat.lt_irrefl 0)⟩
  · rw [h.queue, h.out]
    exact iff_of_false List.not_mem_nil (by decide)
  · rw [h.queue]
    exact List.nodup_nil
  · rw [h.running] at hp
    cases hp

theorem kept_run (h : Run Unhurried s typed delivered) : Kept s typed delivered := by
  induction h with
  | start h => exact kept_start h
  | step _ hallowed hs ih => exact kept_step ih hallowed hs

theorem unfaithful_doze (h : Kept s typed delivered) (hnot : ¬ (s.empty ∨ Relieved s)) :
    ¬ Faithful ({ s with running := Function.update s.running s.current false }.setPlace (.asleep left))
      typed delivered := by
  intro hall
  obtain ⟨hsome, hnobody⟩ := not_or.mp hnot
  have hlt : delivered.length < (edited typed).committed.length := by
    have hempty := h.empty_iff.not.mp hsome
    have hle := h.held.le
    omega
  obtain ⟨q, hq, hout⟩ := hall.tended hlt
    ⟨s.current, Function.update_self .., left, Function.update_self ..⟩
  have hqc : q ≠ s.current := by
    rintro rfl
    exact absurd ((Function.update_self ..).symm.trans hq) (by decide)
  exact hnobody ⟨q, hqc, (Function.update_of_ne hqc _ _).symm.trans hq,
    fun hc => hout ((Function.update_of_ne hqc _ _).trans hc)⟩

theorem unfaithful_take (h : Kept s typed delivered) (hplace : s.place s.current = .take left)
    (hnot : ¬ Unhurried s .take) : ¬ Faithful (s.take left) typed (delivered++[s.byte]) := by
  intro hall
  have hlong := hall.order.length_le
  rw [List.length_append, List.length_singleton] at hlong
  by_cases hempty : s.empty
  · have hend := h.empty_iff.mp hempty
    omega
  · obtain ⟨left', hleft⟩ := not_forall.mp fun hc => hnot ⟨hempty, hc⟩
    obtain ⟨hleft, hends⟩ := Classical.not_imp.mp hleft
    obtain ⟨hends, hthree⟩ := Classical.not_imp.mp hends
    obtain ⟨hmore, hthree⟩ := not_or.mp hthree
    obtain ⟨hsleeper, hnobody⟩ := not_or.mp hthree
    obtain rfl := Place.take.inj (hplace.symm.trans hleft)
    obtain ⟨hheld, -⟩ := held_take h.held (by omega : delivered.length < (edited typed).committed.length)
    have hother : ∀ p, p ≠ s.current → (s.take left).place p = s.place p := fun p hp => Function.update_of_ne hp _ _
    have hlt : (delivered++[s.byte]).length < (edited typed).committed.length := by
      have hne := hheld.empty_iff.not.mp hmore
      rw [List.length_append, List.length_singleton]
      omega
    obtain ⟨p, hp⟩ := not_forall.mp hsleeper
    obtain ⟨hoff, left', hasleep⟩ := not_not.mp hp
    have hpc : p ≠ s.current := by
      rintro rfl
      rw [hplace] at hasleep
      cases hasleep
    obtain ⟨q, hq, hout⟩ := hall.tended hlt ⟨p, hoff, left', (hother p hpc).trans hasleep⟩
    have hqc : q ≠ s.current := by
      rintro rfl
      refine hout ((Function.update_self ..).trans ?_)
      exact if_pos hends
    exact hnobody ⟨q, hqc, hq, fun hc => hout ((hother q hqc).trans hc)⟩

/-- What is typed arrives as it was edited, line by line, once, and no reader is left asleep behind
it, in every run without overrun, lost wake-up and idle wake-up; and a step of a reader
that is one of these does harm at once. -/
theorem console_faithful (h : Run Unhurried s typed delivered) : Faithful s typed delivered ∧
    ∀ e ins outs s', (∀ ch, e ≠ .key ch) → Step s e ins outs s' → ¬ Unhurried s e →
      ¬ Faithful s' (typed++ins) (delivered++outs) := by
  have hkept := kept_run h
  refine ⟨faithful_of hkept, fun e ins outs s' hkey hs hnot => ?_⟩
  cases hs with
  | key => exact absurd rfl (hkey _)
  | doze =>
    rw [List.append_nil, List.append_nil]
    exact unfaithful_doze hkept hnot
  | take hplace =>
    rw [List.append_nil]
    exact unfaithful_take hkept hplace hnot
  | _ => exact absurd trivial hnot

end Runs

/-- A console of 25 lines after `init`. -/
def blank : Console where
  rowNum := 25
  colNum := 80
  row := 0
  col := 0
  inputBuffer := ⟨0, 0, 0, fun _ => 0⟩
  waitQueue := []
  running := fun _ => true
  place := fun _ => .out
  current := 1

theorem blank_start : Start blank := ⟨⟨rfl, rfl, rfl⟩, rfl, fun _ => rfl, fun _ => rfl⟩

/-- A letter and the end of the line are typed, and read by one call. -/
theorem console_faithful_line : ∃ s, Run Unhurried s [97, newline] [97, newline] ∧ Faithful s [97, newline] [97, newline] := by
  have h₀ : Run Unhurried blank [] [] := .start blank_start
  have h₁ := h₀.step (e := .key 97) (Or.inr (by decide)) .key
  have h₂ := h₁.step (e := .key newline) (Or.inr (by decide)) .key
  have h₃ := h₂.step (e := .read 5) trivial (.read rfl rfl)
  have h₄ := h₃.step (e := .test) trivial (.test rfl)
  have h₅ := h₄.step (e := .take) ⟨by decide, fun left hleft hends => by
    obtain rfl := Place.take.inj hleft
    exact absurd hends (by decide)⟩ (.take rfl)
  have h₆ := h₅.step (e := .test) trivial (.test rfl)
  have h₇ := h₆.step (e := .take) ⟨by decide, fun left _ _ => Or.inl rfl⟩ (.take rfl)
  exact ⟨_, h₇, (console_faithful h₇).1⟩

/-- A line that comes between the test of a reader and its sleep does not wake it. -/
theorem reader_left_asleep : ∃ s typed delivered, Run (fun _ _ => True) s typed delivered ∧
    ¬ Faithful s typed delivered := by
  have h₀ : Run (fun _ _ => True) blank [] [] := .start blank_start
  have h₁ := h₀.step (e := .read 5) trivial (.read rfl rfl)
  have h₂ := h₁.step trivial (@Step.test _ 5 rfl)
  have h₃ := h₂.step (e := .key newline) trivial .key
  have h₄ := h₃.step trivial (@Step.add _ 5 rfl)
  have h₅ := h₄.step trivial (@Step.doze _ 5 rfl)
  refine ⟨_, _, _, h₅, fun hall => ?_⟩
  obtain ⟨p, hrun, hout⟩ := hall.tended (by decide) ⟨1, rfl, 5, rfl⟩
  -- the only process in `read` is the one that sleeps
  by_cases hp : p = 1
  · rw [hp] at hrun
    cases hrun
  · refine hout ((Function.update_of_ne hp _ _).trans ((Function.update_of_ne hp _ _).trans ?_))
    exact (Function.update_of_ne hp _ _).trans (Function.update_of_ne hp _ _)

end BabyOS.ConsoleInput

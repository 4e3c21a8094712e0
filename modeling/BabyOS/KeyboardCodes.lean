import Mathlib.Data.List.Basic
import Mathlib.Data.Fintype.Basic

/-!
# Scan codes of the keyboard

The driver keeps three flags between interrupts: one for each shift key and one
for a pending 0xe0 prefix. What a key press should give is stated without them,
from the keys that came before it.
-/

set_option autoImplicit false

namespace BabyOS.KeyboardCodes

def keyOf (type value : ℕ) : ℕ := type <<< 8 ||| value

def keyType (key : ℕ) : ℕ := key >>> 8

def ktAscii : ℕ := 0
def ktSpecial : ℕ := 1
def ktFunction : ℕ := 2
def ktShift : ℕ := 3
def ktLock : ℕ := 4
def ktControl : ℕ := 5
def ktPad : ℕ := 6

def kF1 : ℕ := keyOf ktFunction 1
def kF2 : ℕ := keyOf ktFunction 2
def kF3 : ℕ := keyOf ktFunction 3
def kF4 : ℕ := keyOf ktFunction 4
def kF5 : ℕ := keyOf ktFunction 5
def kF6 : ℕ := keyOf ktFunction 6
def kF7 : ℕ := keyOf ktFunction 7
def kF8 : ℕ := keyOf ktFunction 8
def kF9 : ℕ := keyOf ktFunction 9
def kF10 : ℕ := keyOf ktFunction 10
def kF11 : ℕ := keyOf ktFunction 11
def kF12 : ℕ := keyOf ktFunction 12
def kEsc : ℕ := keyOf ktSpecial 0
def kBackspace : ℕ := keyOf ktSpecial 1
def kTab : ℕ := keyOf ktSpecial 2
def kEnter : ℕ := keyOf ktSpecial 3
def kGuiL : ℕ := keyOf ktSpecial 4
def kGuiR : ℕ := keyOf ktSpecial 5
def kApps : ℕ := keyOf ktSpecial 6
def kShiftL : ℕ := keyOf ktShift 0
def kShiftR : ℕ := keyOf ktShift 1
def kCtrlL : ℕ := keyOf ktShift 2
def kCtrlR : ℕ := keyOf ktShift 3
def kAltL : ℕ := keyOf ktShift 4
def kAltR : ℕ := keyOf ktShift 5
def kCapsLock : ℕ := keyOf ktLock 0
def kNumLock : ℕ := keyOf ktLock 1
def kScrollLock : ℕ := keyOf ktLock 2
def kInsert : ℕ := keyOf ktControl 2
def kDelete : ℕ := keyOf ktControl 3
def kHome : ℕ := keyOf ktControl 4
def kEnd : ℕ := keyOf ktControl 5
def kPageup : ℕ := keyOf ktControl 6
def kPagedown : ℕ := keyOf ktControl 7
def kUp : ℕ := keyOf ktControl 8
def kDown : ℕ := keyOf ktControl 9
def kLeft : ℕ := keyOf ktControl 10
def kRight : ℕ := keyOf ktControl 11
def kPad0 : ℕ := keyOf ktPad 0
def kPad1 : ℕ := keyOf ktPad 1
def kPad2 : ℕ := keyOf ktPad 2
def kPad3 : ℕ := keyOf ktPad 3
def kPad4 : ℕ := keyOf ktPad 4
def kPad5 : ℕ := keyOf ktPad 5
def kPad6 : ℕ := keyOf ktPad 6
def kPad7 : ℕ := keyOf ktPad 7
def kPad8 : ℕ := keyOf ktPad 8
def kPad9 : ℕ := keyOf ktPad 9
def kPadSlash : ℕ := keyOf ktPad 10
def kPadMinus : ℕ := keyOf ktPad 12
def kPadPlus : ℕ := keyOf ktPad 13
def kPadEnter : ℕ := keyOf ktPad 14
def kPadDot : ℕ := keyOf ktPad 15
def kPadUp : ℕ := kPad8
def kPadDown : ℕ := kPad2
def kPadLeft : ℕ := kPad4
def kPadRight : ℕ := kPad6
def kPadHome : ℕ := kPad7
def kPadEnd : ℕ := kPad1
def kPadPageup : ℕ := kPad9
def kPadPagedown : ℕ := kPad3
def kPadIns : ℕ := kPad0
def kPadMid : ℕ := kPad5

def ch (c : Char) : ℕ := c.toNat

/-- A row for each scan code: the key alone, with shift, and after 0xe0. -/
def keymapRows : List (List ℕ) :=
  [[0, 0, 0], [kEsc, kEsc, 0], [ch '1', ch '!', 0], [ch '2', ch '@', 0], [ch '3', ch '#', 0],
   [ch '4', ch '$', 0], [ch '5', ch '%', 0], [ch '6', ch '^', 0], [ch '7', ch '&', 0],
   [ch '8', ch '*', 0], [ch '9', ch '(', 0], [ch '0', ch ')', 0], [ch '-', ch '_', 0],
   [ch '=', ch '+', 0], [kBackspace, kBackspace, 0], [kTab, kTab, 0], [ch 'q', ch 'Q', 0],
   [ch 'w', ch 'W', 0], [ch 'e', ch 'E', 0], [ch 'r', ch 'R', 0], [ch 't', ch 'T', 0],
   [ch 'y', ch 'Y', 0], [ch 'u', ch 'U', 0], [ch 'i', ch 'I', 0], [ch 'o', ch 'O', 0],
   [ch 'p', ch 'P', 0], [ch '[', 0x7b, 0], [ch ']', 0x7d, 0], [kEnter, kEnter, kPadEnter],
   [kCtrlL, kCtrlL, kCtrlR], [ch 'a', ch 'A', 0], [ch 's', ch 'S', 0], [ch 'd', ch 'D', 0],
   [ch 'f', ch 'F', 0], [ch 'g', ch 'G', 0], [ch 'h', ch 'H', 0], [ch 'j', ch 'J', 0],
   [ch 'k', ch 'K', 0], [ch 'l', ch 'L', 0], [ch ';', ch ':', 0], [0x27, 0x22, 0],
   [0x60, ch '~', 0], [kShiftL, kShiftL, 0], [0x5c, ch '|', 0], [ch 'z', ch 'Z', 0],
   [ch 'x', ch 'X', 0], [ch 'c', ch 'C', 0], [ch 'v', ch 'V', 0], [ch 'b', ch 'B', 0],
   [ch 'n', ch 'N', 0], [ch 'm', ch 'M', 0], [ch ',', ch '<', 0], [ch '.', ch '>', 0],
   [ch '/', ch '?', kPadSlash], [kShiftR, kShiftR, 0], [ch '*', ch '*', 0], [kAltL, kAltL, kAltR],
   [ch ' ', ch ' ', 0], [kCapsLock, kCapsLock, 0], [kF1, kF1, 0], [kF2, kF2, 0], [kF3, kF3, 0],
   [kF4, kF4, 0], [kF5, kF5, 0], [kF6, kF6, 0], [kF7, kF7, 0], [kF8, kF8, 0], [kF9, kF9, 0],
   [kF10, kF10, 0], [kNumLock, kNumLock, 0], [kScrollLock, kScrollLock, 0],
   [kPadHome, ch '7', kHome], [kPadUp, ch '8', kUp], [kPadPageup, ch '9', kPageup],
   [kPadMinus, ch '-', 0], [kPadLeft, ch '4', kLeft], [kPadMid, ch '5', 0],
   [kPadRight, ch '6', kRight], [kPadPlus, ch '+', 0], [kPadEnd, ch '1', kEnd],
   [kPadDown, ch '2', kDown], [kPadPagedown, ch '3', kPagedown], [kPadIns, ch '0', kInsert],
   [kPadDot, ch '.', kDelete], [0, 0, 0], [0, 0, 0], [0, 0, 0], [kF11, kF11, 0], [kF12, kF12, 0],
   [0, 0, 0], [0, 0, 0], [0, 0, kGuiL], [0, 0, kGuiR], [0, 0, kApps]]
    ++ List.replicate 34 [0, 0, 0]

def keymap (code col : ℕ) : ℕ := (keymapRows.getD code []).getD col 0

structure Keyboard where
  shiftL : Bool
  shiftR : Bool
  leadingE0 : Bool
  deriving DecidableEq

def init : Keyboard := ⟨false, false, false⟩

/-- What the driver makes of a key: a character, or nothing. -/
def keyChar (key : ℕ) : ℕ :=
  if key = kEnter then 0x0a
  else if key = kTab then 0x09
  else if key = kBackspace then 0x08
  else if keyType key ≠ ktAscii then 0
  else key

/-- The column is chosen before the flags change, so a shift key does not shift itself. -/
def parseScanCode (kb : Keyboard) (scanCode : ℕ) : ℕ × Keyboard :=
  if scanCode = 0xe0 then (0, { kb with leadingE0 := true })
  else if scanCode &&& 0x80 ≠ 0 then
    let key := keymap (scanCode &&& 0x7f) 0
    (0, { kb with
      shiftL := if key = kShiftL then false else kb.shiftL
      shiftR := if key = kShiftR then false else kb.shiftR })
  else
    let shift := kb.shiftL || kb.shiftR
    let col := if kb.leadingE0 then 2 else if shift then 1 else 0
    let key := keymap (scanCode &&& 0x7f) col
    (keyChar key,
      { shiftL := if key = kShiftL then true else kb.shiftL
        shiftR := if key = kShiftR then true else kb.shiftR
        leadingE0 := false })

/-- The codes of a stream, with the results in order. -/
def parse : Keyboard → List ℕ → List ℕ × Keyboard
  | kb, [] => ([], kb)
  | kb, code :: codes =>
    let step := parseScanCode kb code
    let rest := parse step.2 codes
    (step.1 :: rest.1, rest.2)

theorem parse_append (kb : Keyboard) (xs ys : List ℕ) :
    parse kb (xs++ys) = ((parse kb xs).1++(parse (parse kb xs).2 ys).1, (parse (parse kb xs).2 ys).2) := by
  induction xs generalizing kb with
  | nil => rfl
  | cons x xs ih =>
    simp only [List.cons_append, parse]
    rw [ih]

/-- A key going down or up. The code of key 0x60 going up is the prefix. -/
structure Event where
  lead : Bool
  up : Bool
  key : ℕ
  code : key < 0x80
  plain : ¬(up = true ∧ key = 0x60)

namespace Event

variable (e : Event)

def last : ℕ := if e.up then e.key+0x80 else e.key

def codes : List ℕ := if e.lead then [0xe0, e.last] else [e.last]

end Event

def stream (es : List Event) : List ℕ := es.flatMap Event.codes

/-- Shift keys are the keys 0x2a and 0x36. -/
def shiftKeyL : ℕ := 0x2a

def shiftKeyR : ℕ := 0x36

theorem keys_differ : shiftKeyL ≠ shiftKeyR := by
  decide

/-- The last event of the key itself was a press. -/
def held (k : ℕ) (es : List Event) : Bool :=
  ((es.filter fun e => !e.lead && e.key == k).getLast?.map fun e => !e.up).getD false

def column (es : List Event) (e : Event) : ℕ :=
  if e.lead then 2 else if held shiftKeyL es || held shiftKeyR es then 1 else 0

/-- What event `e` should give after the events `es`. -/
def expected (es : List Event) (e : Event) : ℕ :=
  if e.up then 0 else keyChar (keymap e.key (column es e))

def answers (es : List Event) (e : Event) : List ℕ :=
  if e.lead then [0, expected es e] else [expected es e]

/-- The code decodes `e` after `es` by the keys alone. -/
def Decoded (es : List Event) (e : Event) : Prop :=
  (parse (parse init (stream es)).2 e.codes).1 = answers es e

/-- Prefixed events of the past make no difference to `e`. -/
def Independent (es : List Event) (e : Event) : Prop :=
  e.lead = false → (parse (parse init (stream es)).2 e.codes).1 =
    (parse (parse init (stream (es.filter fun x => !x.lead))).2 e.codes).1

/-- The last prefixed event was a release. -/
def released (es : List Event) : Bool :=
  ((es.filter fun e => e.lead).getLast?.map fun e => e.up).getD false

/-- A press without a prefix does not come when the last prefixed event was a
release, and a prefixed release does not carry the code of a shift key that is down. -/
structure Harmless (es : List Event) (e : Event) : Prop where
  press : e.lead = false → e.up = false → released es = false
  fake : e.lead = true → e.up = true →
    (e.key = shiftKeyL → held shiftKeyL es = false) ∧ (e.key = shiftKeyR → held shiftKeyR es = false)

theorem up_code : ∀ k < 0x80, k+0x80 &&& 0x80 ≠ 0 ∧ k+0x80 &&& 0x7f = k := by
  decide

theorem down_code : ∀ k < 0x80, k ≠ 0xe0 ∧ k &&& 0x80 = 0 ∧ k &&& 0x7f = k := by
  decide

theorem keymap_shiftL : ∀ k < 0x80, ∀ col < 3,
    keymap k col = kShiftL ↔ k = shiftKeyL ∧ col ≠ 2 := by
  decide +kernel

theorem keymap_shiftR : ∀ k < 0x80, ∀ col < 3,
    keymap k col = kShiftR ↔ k = shiftKeyR ∧ col ≠ 2 := by
  decide +kernel

theorem parseScanCode_up {k : ℕ} (hk : k < 0x80) (hplain : k ≠ 0x60) (kb : Keyboard) :
    parseScanCode kb (k+0x80) = (0, { kb with
      shiftL := if k = shiftKeyL then false else kb.shiftL
      shiftR := if k = shiftKeyR then false else kb.shiftR }) := by
  have hL := keymap_shiftL k hk 0 (by decide)
  have hR := keymap_shiftR k hk 0 (by decide)
  rw [parseScanCode, if_neg (by omega), if_pos (up_code k hk).1]
  simp only [(up_code k hk).2, hL, hR]
  simp

theorem parseScanCode_down {k : ℕ} (hk : k < 0x80) (kb : Keyboard) :
    parseScanCode kb k =
      (keyChar (keymap k (if kb.leadingE0 then 2 else if kb.shiftL || kb.shiftR then 1 else 0)),
        { shiftL := if k = shiftKeyL ∧ kb.leadingE0 = false then true else kb.shiftL
          shiftR := if k = shiftKeyR ∧ kb.leadingE0 = false then true else kb.shiftR
          leadingE0 := false }) := by
  have hcol : (if kb.leadingE0 then 2 else if kb.shiftL || kb.shiftR then 1 else 0) < 3 := by
    split_ifs <;> omega
  have hL := keymap_shiftL k hk _ hcol
  have hR := keymap_shiftR k hk _ hcol
  rw [parseScanCode, if_neg (down_code k hk).1, if_neg (not_not.mpr (down_code k hk).2.1)]
  simp only [(down_code k hk).2.2, hL, hR]
  cases kb.leadingE0 <;> cases kb.shiftL <;> cases kb.shiftR <;> simp

variable {es : List Event} {e : Event}

theorem held_append (k : ℕ) (es : List Event) (e : Event) :
    held k (es++[e]) = if e.lead = false ∧ e.key = k then !e.up else held k es := by
  by_cases hk : e.lead = false ∧ e.key = k
  · simp [held, List.filter_append, hk]
  · have hnone : [e].filter (fun e => !e.lead && e.key == k) = [] := by simpa using hk
    rw [if_neg hk, held, List.filter_append, hnone, List.append_nil, held]

theorem released_append (es : List Event) (e : Event) :
    released (es++[e]) = if e.lead then e.up else released es := by
  cases hl : e.lead with
  | true => simp [released, List.filter_append, hl]
  | false => simp [released, List.filter_append, hl]

/-- The flags that the keys alone call for. -/
def flags (es : List Event) : Keyboard := ⟨held shiftKeyL es, held shiftKeyR es, released es⟩

theorem parse_single (kb : Keyboard) (code : ℕ) :
    parse kb [code] = ([(parseScanCode kb code).1], (parseScanCode kb code).2) := rfl

theorem parse_lead (kb : Keyboard) (code : ℕ) : parse kb [0xe0, code] =
    ([0, (parseScanCode { kb with leadingE0 := true } code).1],
      (parseScanCode { kb with leadingE0 := true } code).2) := rfl

theorem codes_lead (hlead : e.lead = true) : e.codes = [0xe0, e.last] := if_pos hlead

theorem codes_plain (hlead : e.lead = false) : e.codes = [e.last] := by
  simp [Event.codes, hlead]

theorem last_up (hup : e.up = true) : e.last = e.key+0x80 := if_pos hup

theorem last_down (hup : e.up = false) : e.last = e.key := by
  simp [Event.last, hup]

/-- One event, in each of its four forms. -/
theorem parse_codes (hsafe : Harmless es e) :
    parse (flags es) e.codes = (answers es e, flags (es++[e])) := by
  have hk := e.code
  cases hlead : e.lead with
  | true =>
    rw [codes_lead hlead, parse_lead]
    cases hup : e.up with
    | true =>
      have hplain : e.key ≠ 0x60 := fun hc => e.plain ⟨hup, hc⟩
      obtain ⟨hL, hR⟩ := hsafe.fake hlead hup
      rw [last_up hup, parseScanCode_up hk hplain]
      simp only [answers, hlead, expected, hup, flags, held_append, released_append]
      by_cases hkL : e.key = shiftKeyL
      · simp [hkL, hL hkL, keys_differ]
      · by_cases hkR : e.key = shiftKeyR
        · simp [hkR, hR hkR, keys_differ.symm]
        · simp [hkL, hkR]
    | false =>
      rw [last_down hup, parseScanCode_down hk]
      simp [answers, hlead, expected, hup, flags, held_append, released_append, column]
  | false =>
    rw [codes_plain hlead, parse_single]
    cases hup : e.up with
    | true =>
      have hplain : e.key ≠ 0x60 := fun hc => e.plain ⟨hup, hc⟩
      rw [last_up hup, parseScanCode_up hk hplain]
      simp [answers, hlead, expected, hup, flags, held_append, released_append]
    | false =>
      have hclear := hsafe.press hlead hup
      rw [last_down hup, parseScanCode_down hk]
      simp [answers, hlead, expected, hup, flags, held_append, released_append, hclear, column]

theorem stream_append (es : List Event) (e : Event) : stream (es++[e]) = stream es++e.codes := by
  simp [stream]

/-- Along a stream of harmless events the flags are those of the keys. -/
theorem parse_stream (hsafe : ∀ pre e post, es = pre++e :: post → Harmless pre e) :
    (parse init (stream es)).2 = flags es := by
  induction es using List.reverseRecOn with
  | nil => rfl
  | append_singleton es e ih =>
    have hpast : (parse init (stream es)).2 = flags es := by
      apply ih
      intro pre x post heq
      exact hsafe pre x (post++[e]) (by rw [heq, List.append_assoc, List.cons_append])
    rw [stream_append, parse_append, hpast, parse_codes (hsafe es e [] rfl)]

/-- Without prefixed releases every event is harmless. -/
theorem harmless_of_presses (hpress : ∀ x ∈ es, x.lead = true → x.up = false)
    (he : e.lead = true → e.up = false) : Harmless es e := by
  refine ⟨fun _ _ => ?_, fun hlead hup => ?_⟩
  · rw [released]
    cases hlast : (es.filter fun x => x.lead).getLast? with
    | none => rfl
    | some x =>
      have hx := List.mem_filter.mp (List.mem_of_getLast? hlast)
      exact hpress x hx.1 hx.2
  · rw [he hlead] at hup
    cases hup

theorem held_filter (k : ℕ) (es : List Event) : held k (es.filter fun x => !x.lead) = held k es := by
  rw [held, List.filter_filter, held]
  congr 4
  funext x
  cases x.lead <;> simp

theorem expected_filter (hlead : e.lead = false) :
    expected (es.filter fun x => !x.lead) e = expected es e := by
  simp [expected, column, hlead, held_filter]

/-- In a stream whose events are all harmless every event is decoded by the keys alone. -/
theorem stream_decoded (es : List Event) (hsafe : ∀ pre e post, es = pre++e :: post → Harmless pre e) :
    ∀ pre e post, es = pre++e :: post → Decoded pre e ∧ Independent pre e := by
  intro pre e post heq
  have hpast : ∀ p x q, pre = p++x :: q → Harmless p x := by
    intro p x q hp
    exact hsafe p x (q++e :: post) (by rw [heq, hp, List.append_assoc, List.cons_append])
  have hdecoded : Decoded pre e := by
    rw [Decoded, parse_stream hpast, parse_codes (hsafe pre e post heq)]
  refine ⟨hdecoded, fun hlead => ?_⟩
  have hplain : ∀ x ∈ pre.filter fun x => !x.lead, x.lead = false := by
    intro x hx
    simpa using (List.mem_filter.mp hx).2
  have hpress : ∀ x : Event, x.lead = false → x.lead = true → x.up = false := by
    intro x hx hc
    rw [hx] at hc
    cases hc
  have hother : ∀ p x q, (pre.filter fun x => !x.lead) = p++x :: q → Harmless p x := by
    intro p x q hp
    have hmem : ∀ y ∈ p++x :: q, y.lead = false := by
      rw [← hp]
      exact hplain
    exact harmless_of_presses (fun y hy => hpress y (hmem y (List.mem_append_left _ hy)))
      (hpress x (hmem x (by simp)))
  have hsame := parse_codes (harmless_of_presses (fun y hy => hpress y (hplain y hy)) (hpress e hlead))
  rw [hdecoded, parse_stream hother, hsame]
  simp only [answers, hlead, expected_filter hlead]

def press (lead : Bool) (key : ℕ) (code : key < 0x80) : Event := ⟨lead, false, key, code, by simp⟩

/-- The up arrow, then shift and `a`. -/
def typed : List Event := [press true 0x48 (by decide), press false shiftKeyL (by decide)]

theorem stream_decoded_typed : Decoded typed (press false 0x1e (by decide)) ∧
    answers typed (press false 0x1e (by decide)) = [ch 'A'] := by
  refine ⟨(stream_decoded (typed++[press false 0x1e (by decide)]) ?_ typed _ [] rfl).1, by decide +kernel⟩
  intro pre e post hsplit
  have hdown : ∀ x ∈ typed++[press false 0x1e (by decide)], x.up = false := by decide
  rw [hsplit] at hdown
  exact harmless_of_presses (fun x hx _ => hdown x (List.mem_append_left _ hx)) (fun _ => hdown e (by simp))

/-- The up arrow pressed and released. -/
def arrow : List Event := [press true 0x48 (by decide), ⟨true, true, 0x48, by decide, by decide⟩]

/-- The release leaves the flag of its prefix, and `a` is looked up as a prefixed key. -/
theorem arrow_spoils : ¬ ∀ es pre e post, es = pre++e :: post → Decoded pre e ∧ Independent pre e := by
  intro hall
  have hright := (hall _ arrow (press false 0x1e (by decide)) [] rfl).1
  revert hright
  rw [Decoded]
  decide +kernel

end BabyOS.KeyboardCodes

import BabyOS.NumberRendering

/-!
# Input from a stream

`fgetc` and `fgets` on a file, of which the stream knows what is still to come. A
byte goes through a signed `char` on its way to the `int` that is returned.
-/

set_option autoImplicit false

namespace BabyOS.StreamInput
open BabyOS.ByteWords BabyOS.NumberRendering

structure Stream where
  rest : List Byte
  eof : Bool

def EOF : ℤ := -1

def newline : Byte := 0x0a

/-- The bytes that `read` stores, the count and the stream. -/
def fread (size nmemb : ℕ) (fp : Stream) : List Byte × ℕ × Stream :=
  if size = 0 then ([], 0, fp)
  else
    let got := fp.rest.take (nmemb*size)
    let fp := { fp with rest := fp.rest.drop (nmemb*size) }
    let fp := if got.length = 0 then { fp with eof := true } else fp
    (got, got.length/size, fp)

def fgetc (fp : Stream) : ℤ × Stream :=
  let r := fread 1 1 fp
  (if r.2.1 = 1 then (r.1.headD 0).toInt else EOF, r.2.2)

/-- The loop of `fgets` at index `i` of `s`, when `n+1` characters have room; whether `ret`
or a null pointer is returned. -/
def fgetsFrom : ℕ → ℕ → Bytes → Stream → Bool × Bytes × Stream
  | 0, i, s, fp =>
    let r := fgetc fp
    if 0 < r.1 then (true, Function.update s i (BitVec.ofInt 8 r.1), r.2)
    else if r.1 = EOF then (i ≠ 0, s, { r.2 with eof := true })
    else (false, s, r.2)
  | n+1, i, s, fp =>
    let r := fgetc fp
    if 0 < r.1 then
      let s := Function.update (Function.update s i (BitVec.ofInt 8 r.1)) (i+1) 0
      if r.1 = newline.toInt then (true, s, r.2) else fgetsFrom n (i+1) s r.2
    else if r.1 = EOF then (i ≠ 0, s, { r.2 with eof := true })
    else (false, s, r.2)

/-- `fgets` with the size `n+1`. -/
def fgets (n : ℕ) (s : Bytes) (fp : Stream) : Bool × Bytes × Stream := fgetsFrom n 0 s fp

/-! ## Nothing is lost -/

/-- The results of so many calls. -/
def fgetcs : ℕ → Stream → List ℤ
  | 0, _ => []
  | n+1, fp => (fgetc fp).1 :: fgetcs n (fgetc fp).2

/-- The bytes come one by one as numbers from 0 to 255, and then the end of the file. -/
def Bytewise (contents : List Byte) : Prop := ∀ n, fgetcs (contents.length+n) ⟨contents, false⟩ =
  contents.map (fun b => (b.toNat : ℤ))++List.replicate n EOF

/-- The array holds a string within its `n+1` bytes. -/
structure Holds (n : ℕ) (s : Bytes) (piece : List Byte) : Prop where
  room : piece.length ≤ n
  nonzero : ∀ b ∈ piece, b ≠ 0
  stored : ∀ k (hk : k < piece.length), s k = piece.get ⟨k, hk⟩
  ended : s piece.length = 0

/-- A piece goes to the end of a line or of the file, or has `n` characters. -/
structure Piece (n : ℕ) (piece rest : List Byte) : Prop where
  inner : ∀ b ∈ piece.dropLast, b ≠ newline
  last : piece.getLast? = some newline ∨ rest = [] ∨ piece.length = n

/-- The pieces that the calls return up to a null pointer, whatever the array had before. -/
inductive Fetches (n : ℕ) : Stream → List (List Byte) → Prop
  | done {fp : Stream} (hnull : ∀ s, (fgets n s fp).1 = false) : Fetches n fp []
  | more {fp fp' : Stream} {piece : List Byte} {pieces : List (List Byte)}
      (hcall : ∀ s, (fgets n s fp).1 = true ∧ (fgets n s fp).2.2 = fp' ∧ Holds n (fgets n s fp).2.1 piece)
      (hpiece : Piece n piece fp'.rest) (hrest : Fetches n fp' pieces) : Fetches n fp (piece :: pieces)

/-- The pieces make up the text. -/
def Splits (n : ℕ) (text : List Byte) : Prop := ∃ pieces, Fetches n ⟨text, false⟩ pieces ∧ pieces.flatten = text

/-- The lines have at most `n` characters each, with the newline; `c` of them are before the
text. -/
def LinesFit (n : ℕ) : ℕ → List Byte → Prop
  | _, [] => True
  | c, b :: l => c < n ∧ LinesFit n (if b = newline then 0 else c+1) l

/-- Bytes without a NUL. -/
structure Text where
  bytes : List Byte
  nonzero : ∀ b ∈ bytes, b ≠ 0

/-! ## One byte -/

section Bytes

variable {b : Byte} {l : List Byte} {e : Bool}

theorem fgetc_nil (e : Bool) : fgetc ⟨[], e⟩ = (EOF, ⟨[], true⟩) := by
  simp [fgetc, fread]

theorem fgetc_cons (b : Byte) (l : List Byte) (e : Bool) : fgetc ⟨b :: l, e⟩ = (b.toInt, ⟨l, e⟩) := by
  simp [fgetc, fread]

theorem toInt_eq : b.toInt = (b.toNat : ℤ) ↔ b.toNat < 128 := by
  rw [BitVec.toInt_eq_toNat_cond]
  have := b.isLt
  split <;> omega

/-- The bytes that are positive as a `char`. -/
theorem positive_iff : 0 < b.toInt ↔ b ≠ 0 ∧ b.toNat < 128 := by
  have hzero : b ≠ 0 ↔ b.toNat ≠ 0 := by
    rw [ne_eq, ne_eq, ← BitVec.toNat_inj]
    rfl
  rw [hzero, BitVec.toInt_eq_toNat_cond]
  have := b.isLt
  split <;> omega

theorem ofInt_toInt : BitVec.ofInt 8 b.toInt = b := BitVec.ofInt_toInt

/-- Every byte that is read stands for itself if and only if it is below 0x80. -/
theorem bytewise_iff (contents : List Byte) : Bytewise contents ↔ ∀ b ∈ contents, b.toNat < 128 := by
  have hend : ∀ n e, fgetcs n ⟨[], e⟩ = List.replicate n EOF := by
    intro n
    induction n with
    | zero => exact fun _ => rfl
    | succ n ih =>
      intro e
      rw [fgetcs, fgetc_nil, ih, List.replicate_succ]
  have hall : ∀ n e, fgetcs (contents.length+n) ⟨contents, e⟩ =
      contents.map (fun b => b.toInt)++List.replicate n EOF := by
    intro n e
    induction contents with
    | nil =>
      rw [List.length_nil, Nat.zero_add]
      exact hend n e
    | cons b l ih =>
      rw [List.length_cons, Nat.add_right_comm, fgetcs, fgetc_cons, ih]
      rfl
  have heq : Bytewise contents ↔
      contents.map (fun b => b.toInt) = contents.map (fun b => (b.toNat : ℤ)) := by
    constructor
    · intro h
      exact List.append_cancel_right ((hall 0 false).symm.trans (h 0))
    · intro h n
      rw [hall, h]
  rw [heq, List.map_inj_left]
  exact forall₂_congr fun b _ => toInt_eq

end Bytes

/-! ## One call -/

section Call

variable {n i c : ℕ} {s s' : Bytes} {text taken rest : List Byte} {e : Bool}

/-- The characters that a call has taken and stored from index `i` on. -/
structure Took (i : ℕ) (s s' : Bytes) (text taken rest : List Byte) : Prop where
  split : text = taken++rest
  positive : ∀ b ∈ taken, 0 < b.toInt
  inner : ∀ b ∈ taken.dropLast, b ≠ newline
  stored : ∀ k (hk : k < taken.length), s' (i+k) = taken.get ⟨k, hk⟩
  before : ∀ x < i, s' x = s x

/-- The characters that a call takes. -/
def line : ℕ → List Byte → List Byte
  | _, [] => []
  | 0, b :: _ => if 0 < b.toInt then [b] else []
  | n+1, b :: l => if 0 < b.toInt then (if b = newline then [b] else b :: line n l) else []

/-- How a call ends: with no room for the NUL, behind a newline, at the end of the file, or
at a byte that is not positive. -/
def Stops (n i : ℕ) (taken rest : List Byte) (e : Bool) (r : Bool × Bytes × Stream) : Prop :=
  taken.length = n+1 ∨
  (taken.length ≤ n ∧ (i+taken.length ≠ 0 → r.2.1 (i+taken.length) = 0) ∧
    ((taken.getLast? = some newline ∧ r.1 = true ∧ r.2.2 = ⟨rest, e⟩) ∨
      (rest = [] ∧ r.1 = decide (i+taken.length ≠ 0) ∧ r.2.2 = ⟨[], true⟩) ∨
      ∃ b l, rest = b :: l ∧ ¬ 0 < b.toInt ∧ (i+taken.length = 0 → r.1 = false) ∧ r.2.2.rest = l))

theorem took_nil (i : ℕ) (s : Bytes) (text : List Byte) : Took i s s text [] text :=
  ⟨rfl, fun _ hb => absurd hb List.not_mem_nil, fun _ hb => absurd hb List.not_mem_nil,
    fun _ hk => absurd hk (Nat.not_lt_zero _), fun _ _ => rfl⟩

theorem took_one {b : Byte} (hb : 0 < b.toInt) (hfirst : s' i = b) (hbefore : ∀ x < i, s' x = s x)
    (rest : List Byte) : Took i s s' (b :: rest) [b] rest := by
  refine ⟨rfl, fun d hd => ?_, fun d hd => absurd hd List.not_mem_nil, fun k hk => ?_, hbefore⟩
  · rw [List.mem_singleton.mp hd]
    exact hb
  · have h0 : k = 0 := Nat.lt_one_iff.mp hk
    subst h0
    exact hfirst

theorem took_cons {b : Byte} (hb : 0 < b.toInt) (hne : b ≠ newline) {x : Byte}
    (h : Took (i+1) (Function.update (Function.update s i b) (i+1) x) s' text taken rest) :
    Took i s s' (b :: text) (b :: taken) rest := by
  refine ⟨by rw [h.split]; rfl, ?_, ?_, ?_, fun y hy => ?_⟩
  · intro d hd
    rcases List.mem_cons.mp hd with rfl | hd
    · exact hb
    · exact h.positive d hd
  · intro d hd
    cases taken with
    | nil => cases hd
    | cons t ts =>
      rcases List.mem_cons.mp hd with rfl | hd
      · exact hne
      · exact h.inner d hd
  · intro k hk
    cases k with
    | zero =>
      have hne : i ≠ i+1 := by omega
      rw [Nat.add_zero, h.before i (Nat.lt_succ_self i), Function.update_of_ne hne, Function.update_self]
      rfl
    | succ k =>
      have hk' : k < taken.length := Nat.lt_of_succ_lt_succ hk
      rw [show i+(k+1) = i+1+k by omega, h.stored k hk']
      rfl
  · rw [h.before y (by omega), Function.update_of_ne (by omega), Function.update_of_ne (by omega)]

/-- At a byte that is not positive. -/
theorem stops_here (n : ℕ) {b : Byte} (hb : ¬ 0 < b.toInt) (l : List Byte) (hz : i ≠ 0 → s i = 0) {r : Bool × Bytes × Stream}
    (hr : r = if b.toInt = EOF then (decide (i ≠ 0), s, ⟨l, true⟩) else (false, s, ⟨l, e⟩)) :
    Stops n i [] (b :: l) e r := by
  refine .inr ⟨Nat.zero_le n, fun hi => ?_, .inr (.inr ⟨b, l, rfl, hb, fun hi => ?_, ?_⟩)⟩
  · rw [hr]
    split <;> exact hz hi
  · have h0 : i = 0 := hi
    rw [hr, h0]
    split <;> rfl
  · rw [hr]
    split <;> rfl

/-- One character before the others. -/
theorem stops_cons {b : Byte} {r : Bool × Bytes × Stream} (h : Stops n (i+1) taken rest e r) :
    Stops (n+1) i (b :: taken) rest e r := by
  have hsum : i+(b :: taken).length = i+1+taken.length := by
    rw [List.length_cons]
    omega
  rw [Stops, hsum]
  rcases h with hfull | ⟨hle, hnul, hcase⟩
  · exact .inl (congrArg Nat.succ hfull)
  · refine .inr ⟨Nat.succ_le_succ hle, hnul, hcase.imp (fun ⟨hlast, hr⟩ => ⟨?_, hr⟩) id⟩
    rw [List.getLast?_cons, hlast]
    rfl

theorem loop_spec (n i : ℕ) (s : Bytes) (text : List Byte) (e : Bool) (hz : i ≠ 0 → s i = 0) :
    Took i s (fgetsFrom n i s ⟨text, e⟩).2.1 text (line n text) (text.drop (line n text).length) ∧
      Stops n i (line n text) (text.drop (line n text).length) e (fgetsFrom n i s ⟨text, e⟩) := by
  induction n generalizing i s text with
  | zero =>
    rw [fgetsFrom]
    cases text with
    | nil =>
      rw [fgetc_nil]
      exact ⟨took_nil i s [], .inr ⟨le_rfl, hz, .inr (.inl ⟨rfl, rfl, rfl⟩)⟩⟩
    | cons b l =>
      rw [fgetc_cons]
      simp only [line]
      by_cases hb : 0 < b.toInt
      · rw [if_pos hb, if_pos hb, ofInt_toInt]
        refine ⟨took_one hb (Function.update_self _ _ _) (fun x hx => Function.update_of_ne (by omega) _ _) l, .inl rfl⟩
      · rw [if_neg hb, if_neg hb]
        have htook : Took i s s (b :: l) [] (b :: l) := took_nil i s (b :: l)
        refine ⟨?_, stops_here 0 hb l hz rfl⟩
        split <;> exact htook
  | succ n ih =>
    rw [fgetsFrom]
    cases text with
    | nil =>
      rw [fgetc_nil]
      exact ⟨took_nil i s [], .inr ⟨Nat.zero_le _, hz, .inr (.inl ⟨rfl, rfl, rfl⟩)⟩⟩
    | cons b l =>
      rw [fgetc_cons]
      simp only [line]
      by_cases hb : 0 < b.toInt
      · rw [if_pos hb, if_pos hb, ofInt_toInt]
        by_cases hn : b = newline
        · have hlast : Function.update (Function.update s i b) (i+1) 0 (i+1) = 0 := Function.update_self _ _ _
          rw [if_pos (congrArg BitVec.toInt hn), if_pos hn]
          refine ⟨took_one hb ?_ (fun x hx => ?_) l, .inr ⟨Nat.succ_le_succ (Nat.zero_le n), fun _ => hlast,
            .inl ⟨congrArg some hn, rfl, rfl⟩⟩⟩
          · have hne : i ≠ i+1 := by omega
            dsimp only
            rw [Function.update_of_ne hne, Function.update_self]
          · dsimp only
            rw [Function.update_of_ne (by omega), Function.update_of_ne (by omega)]
        · rw [if_neg (fun he => hn (BitVec.eq_of_toInt_eq he)), if_neg hn]
          have ⟨htook, hstops⟩ := ih (i+1) (Function.update (Function.update s i b) (i+1) 0) l
            (fun _ => Function.update_self _ _ _)
          exact ⟨took_cons hb hn htook, stops_cons hstops⟩
      · rw [if_neg hb, if_neg hb]
        have htook : Took i s s (b :: l) [] (b :: l) := took_nil i s (b :: l)
        refine ⟨?_, stops_here (n+1) hb l hz rfl⟩
        split <;> exact htook

end Call

/-! ## Lines -/

section Lines

variable {n c : ℕ} {text taken rest : List Byte} {e : Bool}

/-- Characters of one line. -/
theorem linesFit_append (hinner : ∀ b ∈ taken.dropLast, b ≠ newline) : LinesFit n c (taken++rest) ↔
    (taken ≠ [] → c+taken.length ≤ n) ∧
      LinesFit n (if taken.getLast? = some newline then 0 else c+taken.length) rest := by
  induction taken generalizing c with
  | nil => simp
  | cons b l ih =>
    cases l with
    | nil =>
      rw [List.singleton_append, LinesFit]
      simp
    | cons d l =>
      have hb : b ≠ newline := hinner b List.mem_cons_self
      have hlast : (b :: d :: l).getLast? = (d :: l).getLast? := List.getLast?_cons_cons
      rw [List.cons_append, LinesFit, if_neg hb, ih fun x hx => hinner x (List.mem_cons_of_mem _ hx), hlast,
        List.length_cons, List.length_cons, show c+1+(l.length+1) = c+(l.length+1+1) by omega]
      constructor
      · rintro ⟨_, hlen, hrest⟩
        exact ⟨fun _ => hlen (List.cons_ne_nil d l), hrest⟩
      · rintro ⟨hlen, hrest⟩
        have := hlen (List.cons_ne_nil b (d :: l))
        exact ⟨by omega, fun _ => this, hrest⟩

/-- The bytes of the array do not matter. -/
theorem fgets_same (n i : ℕ) (s s' : Bytes) (fp : Stream) : (fgetsFrom n i s fp).1 = (fgetsFrom n i s' fp).1 ∧
    (fgetsFrom n i s fp).2.2 = (fgetsFrom n i s' fp).2.2 := by
  induction n generalizing i s s' fp with
  | zero =>
    rw [fgetsFrom, fgetsFrom]
    dsimp only
    split
    · exact ⟨rfl, rfl⟩
    · split <;> exact ⟨rfl, rfl⟩
  | succ n ih =>
    rw [fgetsFrom, fgetsFrom]
    dsimp only
    split
    · split
      · exact ⟨rfl, rfl⟩
      · exact ih _ _ _ _
    · split <;> exact ⟨rfl, rfl⟩

/-- The end of the file gives a null pointer. -/
theorem fgets_end (n : ℕ) (s : Bytes) (e : Bool) : (fgets n s ⟨[], e⟩).1 = false := by
  cases n with
  | zero => rw [fgets, fgetsFrom, fgetc_nil]; rfl
  | succ n => rw [fgets, fgetsFrom, fgetc_nil]; rfl

/-- A call that takes some characters and stores a NUL behind them. -/
theorem holds_took {s s' : Bytes} (h : Took 0 s s' text taken rest) (hle : taken.length ≤ n)
    (hnul : s' taken.length = 0) : Holds n s' taken := by
  refine ⟨hle, fun b hb => (positive_iff.mp (h.positive b hb)).1, fun k hk => ?_, hnul⟩
  rw [← h.stored k hk, Nat.zero_add]

/-- Lines that fit come back piece by piece. -/
theorem splits_of_fits (hpos : ∀ b ∈ text, 0 < b.toInt) (hfit : LinesFit n 0 text) :
    ∃ pieces, Fetches n ⟨text, e⟩ pieces ∧ pieces.flatten = text := by
  induction hlen : text.length using Nat.strong_induction_on generalizing text e with
  | _ len ih =>
    have hspec := fun s => loop_spec n 0 s text e fun h => absurd rfl h
    have htook₀ := (hspec fun _ => 0).1
    generalize line n text = taken at hspec htook₀
    generalize text.drop taken.length = rest at hspec htook₀
    have hsplit := htook₀.split
    have ⟨hroom, hrest⟩ := (linesFit_append htook₀.inner).mp (hsplit ▸ hfit)
    by_cases hnil : taken = []
    · -- nothing is left
      have hempty : rest = [] := by
        rcases (hspec fun _ => 0).2 with hfull | ⟨-, -, ⟨hlast, -⟩ | ⟨hrest, -⟩ | ⟨b, l, hrest, hb, -⟩⟩
        · rw [hnil] at hfull
          cases hfull
        · rw [hnil] at hlast
          cases hlast
        · exact hrest
        · refine absurd (hpos b ?_) hb
          rw [hsplit, hrest]
          exact List.mem_append_right _ List.mem_cons_self
      rw [hnil, hempty] at hsplit
      subst hsplit
      exact ⟨[], .done fun s => fgets_end n s e, rfl⟩
    · have hpositive := List.length_pos_iff.mpr hnil
      have hle := hroom hnil
      have hcall : ∀ s, (fgets n s ⟨text, e⟩).1 = true ∧ Holds n (fgets n s ⟨text, e⟩).2.1 taken ∧
          (fgets n s ⟨text, e⟩).2.2.rest = rest ∧ (taken.getLast? = some newline ∨ rest = []) := by
        intro s
        have ⟨htook, hstops⟩ := hspec s
        rcases hstops with hfull | ⟨-, hnul, hcase⟩
        · omega
        · rw [Nat.zero_add] at hnul hcase
          have hholds : Holds n (fgets n s ⟨text, e⟩).2.1 taken := holds_took htook (by omega) (hnul (by omega))
          rcases hcase with ⟨hlast, hret, hfp⟩ | ⟨hend, hret, hfp⟩ | ⟨b, l, hbad, hb, -⟩
          · exact ⟨hret, hholds, congrArg Stream.rest hfp, .inl hlast⟩
          · exact ⟨hret.trans (decide_eq_true hpositive.ne'), hholds, (congrArg Stream.rest hfp).trans hend.symm, .inr hend⟩
          · refine absurd (hpos b ?_) hb
            rw [hsplit, hbad]
            exact List.mem_append_right _ List.mem_cons_self
      have ⟨_, _, hfirst, hlast⟩ := hcall fun _ => 0
      have hfp : (fgets n (fun _ => 0) ⟨text, e⟩).2.2 = ⟨rest, (fgets n (fun _ => 0) ⟨text, e⟩).2.2.eof⟩ := by
        rw [← hfirst]
      have hfit' : LinesFit n 0 rest := by
        rcases hlast with hlast | hend
        · rwa [if_pos hlast] at hrest
        · rw [hend]
          trivial
      have hshort : rest.length < len := by
        rw [← hlen, hsplit, List.length_append]
        omega
      have ⟨pieces, hfetches, hflat⟩ := @ih rest.length hshort rest (fgets n (fun _ => 0) ⟨text, e⟩).2.2.eof
        (fun b hb => hpos b (by rw [hsplit]; exact List.mem_append_right _ hb)) hfit' rfl
      refine ⟨taken :: pieces, .more (fun s => ⟨(hcall s).1, ?_, (hcall s).2.1⟩) ⟨htook₀.inner, ?_⟩ hfetches, ?_⟩
      · rw [← hfp]
        exact (fgets_same n 0 s (fun _ => 0) _).2
      · exact hlast.imp_right .inl
      · rw [List.flatten_cons, hflat, ← hsplit]

/-- A string in an array has one length. -/
theorem holds_unique {s s' : Bytes} {piece : List Byte} (h : Took 0 s s' text taken rest) (hp : Holds n s' piece)
    (hnul : taken.length = n+1 ∨ s' taken.length = 0) : piece = taken := by
  have hge : taken.length ≤ piece.length := by
    by_contra hlt
    have hat := h.stored piece.length (not_le.mp hlt)
    rw [Nat.zero_add, hp.ended] at hat
    have hpos := h.positive _ (List.get_mem taken ⟨piece.length, not_le.mp hlt⟩)
    rw [← hat] at hpos
    exact absurd hpos (by decide)
  have hle : piece.length ≤ taken.length := by
    by_contra hlt
    rcases hnul with hfull | hnul
    · have := hp.room
      omega
    · have hat := hp.stored taken.length (not_le.mp hlt)
      rw [hnul] at hat
      exact hp.nonzero _ (List.get_mem piece ⟨taken.length, not_le.mp hlt⟩) hat.symm
  refine List.ext_getElem (Nat.le_antisymm hle hge) fun k hk hk' => ?_
  have hpiece := hp.stored k hk
  have htaken := h.stored k hk'
  rw [Nat.zero_add, hpiece] at htaken
  exact htaken

/-- Pieces are never longer than what was there, and where they are all of it, the bytes and
the lines are such as fit. -/
theorem fetches_fit {fp : Stream} {pieces : List (List Byte)} (h : Fetches n fp pieces) :
    pieces.flatten.length ≤ fp.rest.length ∧
      (pieces.flatten = fp.rest → (∀ b ∈ fp.rest, 0 < b.toInt) ∧ LinesFit n 0 fp.rest) := by
  induction h with
  | @done fp _ =>
    refine ⟨Nat.zero_le _, fun hflat => ?_⟩
    rw [← hflat]
    exact ⟨fun b hb => absurd hb List.not_mem_nil, trivial⟩
  | @more fp fp' piece pieces hcall _ _ ih =>
    obtain ⟨text, e⟩ := fp
    obtain ⟨hlength, hflat⟩ := ih
    have ⟨hret, hfp, hholds⟩ := hcall fun _ => 0
    have ⟨htook, hstops⟩ := loop_spec n 0 (fun _ => 0) text e fun h => absurd rfl h
    generalize line n text = taken at htook hstops
    generalize text.drop taken.length = rest at htook hstops
    have hsplit := htook.split
    rcases hstops with hfull | ⟨hle, hnul, hcase⟩
    · have hpiece := holds_unique htook hholds (.inl hfull)
      have hroom := hholds.room
      rw [hpiece, hfull] at hroom
      omega
    · rw [Nat.zero_add] at hnul hcase
      have hne : taken.length ≠ 0 := by
        intro h0
        rcases hcase with ⟨hlast, _⟩ | ⟨_, hret', _⟩ | ⟨b, l, _, _, hret', _⟩
        · rw [List.length_eq_zero_iff.mp h0] at hlast
          cases hlast
        · rw [← fgets, hret, h0] at hret'
          cases hret'
        · have hfalse := hret' h0
          rw [← fgets, hret] at hfalse
          cases hfalse
      have hpiece := holds_unique htook hholds (.inr (hnul hne))
      rw [List.flatten_cons, hpiece, List.length_append]
      change taken.length+pieces.flatten.length ≤ text.length ∧ (taken++pieces.flatten = text → _)
      rw [hsplit, List.length_append]
      rcases hcase with ⟨hlast, _, hfp'⟩ | ⟨hend, _, hfp'⟩ | ⟨b, l, hbad, _, _, hfp'⟩
      · rw [← hfp, fgets, hfp'] at hlength hflat
        refine ⟨Nat.add_le_add_left hlength _, fun heq => ?_⟩
        have ⟨hpos, hfit⟩ := hflat (List.append_cancel_left heq)
        refine ⟨fun b hb => (List.mem_append.mp hb).elim (htook.positive b) (hpos b), ?_⟩
        rw [linesFit_append htook.inner, if_pos hlast]
        exact ⟨fun _ => by omega, hfit⟩
      · rw [← hfp, fgets, hfp'] at hlength
        rw [hend, List.append_nil]
        refine ⟨Nat.add_le_add_left hlength _, fun _ => ⟨htook.positive, ?_⟩⟩
        rw [← List.append_nil taken, linesFit_append htook.inner]
        exact ⟨fun _ => by omega, trivial⟩
      · rw [← hfp, fgets, hfp'] at hlength
        rw [hbad, List.length_cons]
        refine ⟨by omega, fun heq => ?_⟩
        have hlong := congrArg List.length (List.append_cancel_left heq)
        rw [List.length_cons] at hlong
        omega

end Lines

/-- `fgetc` loses nothing if and only if every byte is below 0x80, and `fgets` with the size
`n+1` if and only if moreover every line has at most `n` characters with its newline. -/
theorem input_exact (contents : List Byte) (n : ℕ) (text : Text) :
    (Bytewise contents ↔ ∀ b ∈ contents, b.toNat < 128) ∧
    (Splits n text.bytes ↔ (∀ b ∈ text.bytes, b.toNat < 128) ∧ LinesFit n 0 text.bytes) := by
  refine ⟨bytewise_iff contents, ?_, ?_⟩
  · rintro ⟨pieces, hfetches, hflat⟩
    have ⟨hpos, hfit⟩ := (fetches_fit hfetches).2 hflat
    exact ⟨fun b hb => (positive_iff.mp (hpos b hb)).2, hfit⟩
  · rintro ⟨hlow, hfit⟩
    exact splits_of_fits (fun b hb => positive_iff.mpr ⟨text.nonzero b hb, hlow b hb⟩) hfit

/-- Of the byte 0xff the file seems to end, and with room for one character there is none for
the NUL. -/
theorem byte_lost : ¬ Bytewise [0xff] ∧ ¬ Splits 1 [chr 'a', newline] := by
  constructor
  · intro h
    have hone := h 0
    exact absurd hone (by decide +kernel)
  · rintro ⟨pieces, hfetches, hflat⟩
    have ⟨_, hfit⟩ := (fetches_fit hfetches).2 hflat
    have hsecond := hfit.2.1
    rw [if_neg (by decide)] at hsecond
    exact absurd hsecond (by decide)

end BabyOS.StreamInput

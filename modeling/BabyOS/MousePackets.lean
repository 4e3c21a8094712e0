import BabyOS.RingQueues
import Mathlib.Data.Fintype.Basic
import Mathlib.Tactic.Ring

/-!
# Mouse packets

The byte machine of the interrupt handler, the queue of decoded packets and the
read call. What a stream should give is stated from its packets of three bytes,
with a list of pending packets that drops its oldest when it is full.
-/

set_option autoImplicit false

namespace BabyOS.MousePackets
open BabyOS.RingQueues BabyOS.RingQueues.Queue

structure Packet where
  dx : BitVec 32
  dy : BitVec 32
  button : ℕ
  deriving DecidableEq

structure Mouse where
  phase : ℕ
  data : ℕ → ℕ
  queue : Queue Packet

def queueCapacity : ℕ := 1024

/-- `m_data` and the buffer of the queue are as the allocator left them. -/
def init (data : ℕ → ℕ) (buffer : ℕ → Packet) : Mouse := ⟨0, data, Queue.init queueCapacity buffer⟩

def packetOf (d0 d1 d2 : ℕ) : Packet :=
  let dx := BitVec.ofNat 32 d1
  let dy := BitVec.ofNat 32 d2
  let dx := if d0 &&& 0x10 ≠ 0 then dx ||| 0xffffff00#32 else dx
  let dy := if d0 &&& 0x20 ≠ 0 then dy ||| 0xffffff00#32 else dy
  ⟨dx, -dy, d0 &&& 0x07⟩

def processData (m : Mouse) (data : ℕ) : Mouse :=
  match m.phase with
  | 0 => if data = 0xfa then { m with phase := 1 } else m
  | 1 => if data &&& 0xc8 ≠ 0x08 then m
    else { m with data := Function.update m.data 0 data, phase := 2 }
  | 2 => { m with data := Function.update m.data 1 data, phase := 3 }
  | 3 =>
    let data := Function.update m.data 2 data
    { phase := 1, data := data, queue := pushLast m.queue (packetOf (data 0) (data 1) (data 2)) }
  | _ => m

/-- `sizeof(mouse_packet_t)`. -/
def packetSize : ℕ := 12

/-- What a call of `read` gives: its result, and the caller's buffer as an array of packets. -/
structure Reply where
  ret : ℕ
  buffer : ℕ → Packet
  mouse : Mouse

/-- The loop: `ret` counts bytes and indexes packets. -/
def readLoop : ℕ → ℕ → ℕ → (ℕ → Packet) → Mouse → Reply
  | 0, ret, _, buffer, m => ⟨ret, buffer, m⟩
  | fuel+1, ret, size, buffer, m =>
    if m.queue.empty = false ∧ packetSize ≤ size then
      readLoop fuel (ret+packetSize) (size-packetSize) (Function.update buffer ret m.queue.head)
        { m with queue := m.queue.pop.2 }
    else ⟨ret, buffer, m⟩

/-- Each round takes `packetSize` from `size`, so this many rounds are enough. -/
def read (m : Mouse) (buffer : ℕ → Packet) (size : ℕ) : Reply := readLoop (size/packetSize+1) 0 size buffer m

inductive Input
  | byte (data : ℕ)
  | read (size : ℕ)

/-- The state of the driver does not depend on the buffer that a read fills. -/
def step (m : Mouse) : Input → Mouse
  | .byte data => processData m data
  | .read size => (read m m.queue.buffer size).mouse

def run (m : Mouse) (inputs : List Input) : Mouse := inputs.foldl step m

def bytesOf : List Input → List ℕ
  | [] => []
  | .byte data :: rest => data :: bytesOf rest
  | .read _ :: rest => bytesOf rest

/-- A packet as the mouse sends it. -/
structure Raw where
  header : ℕ
  dx : ℕ
  dy : ℕ
  header_lt : header < 0x100
  dx_lt : dx < 0x100
  dy_lt : dy < 0x100
  mark : header &&& 0x08 ≠ 0

/-- A two's-complement number of nine bits. -/
def nine (sign : Bool) (low : ℕ) : ℤ := (BitVec.ofNat 9 (if sign then 0x100+low else low)).toInt

/-- The packet that three bytes stand for. -/
def meaning (header dx dy : ℕ) : Packet :=
  ⟨BitVec.ofInt 32 (nine (header.testBit 4) dx), BitVec.ofInt 32 (-nine (header.testBit 5) dy), header%8⟩

def overflow (header : ℕ) : Prop := header &&& 0xc0 ≠ 0

instance (header : ℕ) : Decidable (overflow header) := inferInstanceAs (Decidable (_ ≠ _))

def stream (ps : List Raw) : List ℕ := ps.flatMap fun r => [r.header, r.dx, r.dy]

/-- What the stream calls for: the bytes of the packet that is not complete, the packets
that no read has had, and the records of those sent and of those returned. -/
structure Line where
  acked : Bool
  part : List ℕ
  pending : List Packet
  sent : List Packet
  returned : List Packet

def Line.start : Line := ⟨false, [], [], [], []⟩

/-- A packet without overflow joins the pending ones, and the oldest makes room for it. -/
def Line.complete (x : Line) (header dx dy : ℕ) : Line :=
  if overflow header then { x with part := [] }
  else { x with
    part := []
    pending := keepLast x.pending queueCapacity (meaning header dx dy)
    sent := x.sent++[meaning header dx dy] }

def Line.taken (x : Line) (size : ℕ) : List Packet := x.pending.take (size/packetSize)

def Line.step (x : Line) : Input → Line
  | .byte data =>
    if x.acked = false then { x with acked := true }
    else match x.part with
      | header :: dx :: _ => x.complete header dx data
      | part => { x with part := part++[data] }
  | .read size => { x with
      pending := x.pending.drop (size/packetSize)
      returned := x.returned++x.taken size }

def Line.run (x : Line) (inputs : List Input) : Line := inputs.foldl Line.step x

/-- A read gives packets from the start of the buffer on, counts their bytes and
leaves the rest of the buffer as it was. -/
def Reads (m : Mouse) (size : ℕ) (taken : List Packet) : Prop :=
  ∀ buffer, (read m buffer size).ret = packetSize*taken.length ∧
    ∀ k, (read m buffer size).buffer k = taken.getD k (buffer k)

/-- The bytes behind a header with overflow bits do not look like a header. -/
def Unmistaken (r : Raw) : Prop :=
  overflow r.header → r.dx &&& 0xc8 ≠ 0x08 ∧ r.dy &&& 0xc8 ≠ 0x08

/-! ## Decoding -/

theorem nine_plain : ∀ d < 0x100, BitVec.ofNat 32 d = BitVec.ofInt 32 (nine false d) := by
  decide +kernel

theorem nine_sign : ∀ d < 0x100, BitVec.ofNat 32 d ||| 0xffffff00#32 = BitVec.ofInt 32 (nine true d) := by
  decide +kernel

theorem sign_bits : ∀ h < 0x100, (h &&& 0x10 ≠ 0 ↔ h.testBit 4 = true) ∧
    (h &&& 0x20 ≠ 0 ↔ h.testBit 5 = true) ∧ h &&& 0x07 = h%8 := by
  decide +kernel

/-- Merging the sign bit by hand gives the number of nine bits. -/
theorem merge_sign {d : ℕ} (hd : d < 0x100) (sign : Bool) :
    (if sign = true then BitVec.ofNat 32 d ||| 0xffffff00#32 else BitVec.ofNat 32 d) =
      BitVec.ofInt 32 (nine sign d) := by
  cases sign with
  | true => exact nine_sign d hd
  | false => exact nine_plain d hd

theorem packetOf_eq {h dx dy : ℕ} (hh : h < 0x100) (hx : dx < 0x100) (hy : dy < 0x100) :
    packetOf h dx dy = meaning h dx dy := by
  obtain ⟨h4, h5, h7⟩ := sign_bits h hh
  simp only [packetOf, meaning, h4, h5, h7, merge_sign hx, merge_sign hy, BitVec.ofInt_neg]

theorem header_fits : ∀ h < 0x100, h &&& 0x08 ≠ 0 → (h &&& 0xc8 = 0x08 ↔ ¬ overflow h) := by
  decide +kernel

/-! ## Reading -/

/-- Packets at every twelfth place of an array, from a place on. -/
def placed : ℕ → List Packet → (ℕ → Packet) → ℕ → Packet
  | _, [], buffer => buffer
  | ret, x :: rest, buffer => placed (ret+packetSize) rest (Function.update buffer ret x)

theorem placed_below {ret k : ℕ} (xs : List Packet) (buffer : ℕ → Packet) (hk : k < ret) :
    placed ret xs buffer k = buffer k := by
  induction xs generalizing ret buffer with
  | nil => rfl
  | cons x xs ih =>
    rw [placed, ih _ (Nat.lt_add_right packetSize hk), Function.update_of_ne (Nat.ne_of_lt hk)]

theorem readLoop_eq {fuel ret size : ℕ} {buffer : ℕ → Packet} {m : Mouse} {l : List Packet}
    (h : m.queue.Holds l) (hfuel : size/packetSize < fuel) :
    ∃ q : Queue Packet, q.Holds (l.drop (size/packetSize)) ∧ q.capacity = m.queue.capacity ∧
      readLoop fuel ret size buffer m =
        ⟨ret+packetSize*(l.take (size/packetSize)).length, placed ret (l.take (size/packetSize)) buffer,
          { m with queue := q }⟩ := by
  induction fuel generalizing ret size buffer m l with
  | zero => exact absurd hfuel (Nat.not_lt_zero _)
  | succ fuel ih =>
    by_cases hsize : packetSize ≤ size
    · have hstep : size/packetSize = (size-packetSize)/packetSize+1 := by
        rw [packetSize] at hsize ⊢
        omega
      cases l with
      | nil =>
        have hempty : m.queue.empty = true := (empty_iff h).mpr rfl
        refine ⟨m.queue, by rwa [List.drop_nil], rfl, ?_⟩
        rw [readLoop, if_neg (by simp [hempty]), List.take_nil]
        rfl
      | cons x rest =>
        have hsome : m.queue.empty = false := by
          rw [Bool.eq_false_iff]
          exact fun hc => nomatch (empty_iff h).mp hc
        obtain ⟨q, hq, hcap, heq⟩ := @ih (ret+packetSize) (size-packetSize) (Function.update buffer ret x)
          { m with queue := m.queue.pop.2 } _ (holds_pop h) (by omega)
        refine ⟨q, ?_, hcap.trans (pop_capacity m.queue), ?_⟩
        · rw [hstep]
          exact hq
        · rw [readLoop, if_pos ⟨hsome, hsize⟩, head_eq h rfl, heq, hstep, List.take_succ_cons]
          simp only [List.tail_cons, List.length_cons, placed]
          congr 1
          ring
    · have hzero : size/packetSize = 0 := Nat.div_eq_of_lt (Nat.lt_of_not_le hsize)
      refine ⟨m.queue, by rwa [hzero], rfl, ?_⟩
      rw [readLoop, if_neg fun hc => hsize hc.2, hzero]
      rfl

theorem take_short {size : ℕ} {l : List Packet} :
    (l.take (size/packetSize)).length ≤ 1 ↔ size < 2*packetSize ∨ l.length ≤ 1 := by
  rw [List.length_take, packetSize]
  omega

/-- A read places its packets one behind the other exactly when there is at most one:
the second one goes to the twelfth place behind the first. -/
theorem reads_iff {size : ℕ} {m : Mouse} {l : List Packet} (h : m.queue.Holds l) :
    Reads m size (l.take (size/packetSize)) ↔ size < 2*packetSize ∨ l.length ≤ 1 := by
  rw [← take_short]
  have hread : ∀ buffer, (read m buffer size).ret = packetSize*(l.take (size/packetSize)).length ∧
      (read m buffer size).buffer = placed 0 (l.take (size/packetSize)) buffer := by
    intro buffer
    obtain ⟨q, -, -, heq⟩ := @readLoop_eq _ 0 size buffer m l h (Nat.lt_succ_self (size/packetSize))
    rw [read, heq]
    exact ⟨Nat.zero_add _, rfl⟩
  generalize l.take (size/packetSize) = taken at hread
  match taken with
  | [] =>
    refine iff_of_true (fun buffer => ⟨(hread buffer).1, fun k => ?_⟩) (Nat.zero_le 1)
    rw [(hread buffer).2]
    rfl
  | [x] =>
    refine iff_of_true (fun buffer => ⟨(hread buffer).1, fun k => ?_⟩) (le_refl 1)
    rw [(hread buffer).2]
    cases k with
    | zero => exact Function.update_self 0 x buffer
    | succ k => exact Function.update_of_ne (Nat.succ_ne_zero k) x buffer
  | x :: y :: rest =>
    refine iff_of_false (fun hall => ?_) (by simp)
    -- a packet that differs from the second one, in every place of the caller's buffer
    have hslot := (hall fun _ => ⟨y.dx, y.dy, y.button+1⟩).2 1
    rw [(hread _).2, placed, placed_below _ _ (by decide : 1 < 0+packetSize),
      Function.update_of_ne (by decide)] at hslot
    have hbutton : y.button+1 = y.button := congrArg Packet.button hslot
    omega

/-! ## Framing -/

/-- Where the driver stands in the stream, with the bytes still to come. Within a packet
that has overflow bits it still waits for a header. -/
inductive Place (phase : ℕ) (data : ℕ → ℕ) (acked : Bool) (part rest : List ℕ) : Prop
  | silent (ps : List Raw) (hrest : rest = 0xfa :: stream ps) (hclear : ∀ r ∈ ps, Unmistaken r)
      (hacked : acked = false) (hpart : part = []) (hphase : phase = 0)
  | ready (ps : List Raw) (hrest : rest = stream ps) (hclear : ∀ r ∈ ps, Unmistaken r)
      (hacked : acked = true) (hpart : part = []) (hphase : phase = 1)
  | header (r : Raw) (ps : List Raw) (hrest : rest = r.dx :: r.dy :: stream ps)
      (hclear : ∀ r' ∈ r :: ps, Unmistaken r') (hacked : acked = true) (hpart : part = [r.header])
      (hphase : if overflow r.header then phase = 1 else phase = 2 ∧ data 0 = r.header)
  | half (r : Raw) (ps : List Raw) (hrest : rest = r.dy :: stream ps)
      (hclear : ∀ r' ∈ r :: ps, Unmistaken r') (hacked : acked = true) (hpart : part = [r.header, r.dx])
      (hphase : if overflow r.header then phase = 1
        else phase = 3 ∧ data 0 = r.header ∧ data 1 = r.dx)

/-- The driver agrees with what the stream calls for. -/
structure Agrees (m : Mouse) (x : Line) (rest : List ℕ) : Prop where
  holds : m.queue.Holds x.pending
  capacity : m.queue.capacity = queueCapacity
  place : Place m.phase m.data x.acked x.part rest

variable {m : Mouse} {x : Line} {b size : ℕ} {rest : List ℕ}

theorem agrees_read (h : Agrees m x rest) (size : ℕ) :
    Agrees (step m (.read size)) (x.step (.read size)) rest := by
  obtain ⟨q, hq, hcap, heq⟩ := @readLoop_eq _ 0 size m.queue.buffer m _ h.holds
    (Nat.lt_succ_self (size/packetSize))
  rw [step, read, heq]
  exact ⟨hq, hcap.trans h.capacity, h.place⟩

theorem wait_header (hphase : m.phase = 1) (hb : b &&& 0xc8 ≠ 0x08) : processData m b = m := by
  simp only [processData, hphase]
  rw [if_pos hb]

/-- Each byte, by its place in the packet and whether the packet has overflow bits. -/
theorem agrees_byte (h : Agrees m x (b :: rest)) : Agrees (step m (.byte b)) (x.step (.byte b)) rest := by
  obtain ⟨hholds, hcap, hplace⟩ := h
  rw [step]
  cases hplace with
  | silent ps hrest hclear hacked hpart hphase =>
    obtain ⟨rfl, rfl⟩ := List.cons.inj hrest
    simp only [processData, hphase, Line.step, hacked, if_true]
    exact ⟨hholds, hcap, .ready ps rfl hclear rfl hpart rfl⟩
  | ready ps hrest hclear hacked hpart hphase =>
    cases ps with
    | nil => cases hrest
    | cons r ps =>
      obtain ⟨rfl, rfl⟩ := List.cons.inj hrest
      have hfits := header_fits r.header r.header_lt r.mark
      have hline : x.step (.byte r.header) = { x with part := [r.header] } := by
        simp [Line.step, hacked, hpart]
      rw [hline]
      by_cases hover : overflow r.header
      · rw [wait_header hphase fun hc => hfits.mp hc hover]
        refine ⟨hholds, hcap, .header r ps rfl hclear hacked rfl ?_⟩
        rw [if_pos hover]
        exact hphase
      · simp only [processData, hphase]
        rw [if_neg (not_not.mpr (hfits.mpr hover))]
        refine ⟨hholds, hcap, .header r ps rfl hclear hacked rfl ?_⟩
        rw [if_neg hover]
        exact ⟨rfl, Function.update_self 0 r.header m.data⟩
  | header r ps hrest hclear hacked hpart hphase =>
    obtain ⟨rfl, rfl⟩ := List.cons.inj hrest
    have hline : x.step (.byte r.dx) = { x with part := [r.header, r.dx] } := by
      simp [Line.step, hacked, hpart]
    rw [hline]
    by_cases hover : overflow r.header
    · rw [if_pos hover] at hphase
      rw [wait_header hphase (hclear r List.mem_cons_self hover).1]
      refine ⟨hholds, hcap, .half r ps rfl hclear hacked rfl ?_⟩
      rw [if_pos hover]
      exact hphase
    · rw [if_neg hover] at hphase
      simp only [processData, hphase.1]
      refine ⟨hholds, hcap, .half r ps rfl hclear hacked rfl ?_⟩
      rw [if_neg hover]
      refine ⟨rfl, ?_, Function.update_self 1 r.dx m.data⟩
      exact (Function.update_of_ne (show 0 ≠ 1 by decide) r.dx m.data).trans hphase.2
  | half r ps hrest hclear hacked hpart hphase =>
    obtain ⟨rfl, rfl⟩ := List.cons.inj hrest
    have hline : x.step (.byte r.dy) = x.complete r.header r.dx r.dy := by
      simp [Line.step, hacked, hpart]
    have hlater : ∀ r' ∈ ps, Unmistaken r' := fun r' hr' => hclear r' (List.mem_cons_of_mem r hr')
    rw [hline]
    by_cases hover : overflow r.header
    · rw [if_pos hover] at hphase
      rw [wait_header hphase (hclear r List.mem_cons_self hover).2, Line.complete, if_pos hover]
      exact ⟨hholds, hcap, .ready ps rfl hlater hacked rfl hphase⟩
    · rw [if_neg hover] at hphase
      obtain ⟨hthree, h0, h1⟩ := hphase
      have hd0 : Function.update m.data 2 r.dy 0 = r.header :=
        (Function.update_of_ne (show 0 ≠ 2 by decide) r.dy m.data).trans h0
      have hd1 : Function.update m.data 2 r.dy 1 = r.dx :=
        (Function.update_of_ne (show 1 ≠ 2 by decide) r.dy m.data).trans h1
      have hd2 : Function.update m.data 2 r.dy 2 = r.dy := Function.update_self 2 r.dy m.data
      have hpush := holds_pushLast hholds (by rw [hcap]; decide) (meaning r.header r.dx r.dy)
      simp only [processData, hthree, hd0, hd1, hd2, packetOf_eq r.header_lt r.dx_lt r.dy_lt]
      rw [Line.complete, if_neg hover]
      rw [hcap] at hpush
      exact ⟨hpush.1, hpush.2, .ready ps rfl hlater hacked rfl rfl⟩

/-- A run over a part of the stream, reads in between. -/
theorem agrees_run {inputs : List Input} {bytes : List ℕ} (h : Agrees m x bytes)
    (hbytes : bytesOf inputs <+: bytes) : ∃ rest, Agrees (run m inputs) (x.run inputs) rest := by
  induction inputs generalizing m x bytes with
  | nil => exact ⟨bytes, h⟩
  | cons input inputs ih =>
    cases input with
    | byte b =>
      obtain ⟨more, hmore⟩ := hbytes
      subst hmore
      exact ih (agrees_byte h) (List.prefix_append _ _)
    | read size => exact ih (agrees_read h size) hbytes

/-! ## Streams -/

theorem keepLast_sublist (l : List Packet) (capacity : ℕ) (p : Packet) :
    (keepLast l capacity p).Sublist (l++[p]) := by
  rw [keepLast]
  split_ifs
  · exact List.Sublist.append (List.tail_sublist l) (List.Sublist.refl [p])
  · exact List.Sublist.refl (l++[p])

/-- What was returned and what is pending are packets that were sent, in their order and each once. -/
theorem line_step (h : (x.returned++x.pending).Sublist x.sent) (input : Input) :
    ((x.step input).returned++(x.step input).pending).Sublist (x.step input).sent := by
  cases input with
  | read size =>
    change ((x.returned++x.pending.take (size/packetSize))++x.pending.drop (size/packetSize)).Sublist x.sent
    rw [List.append_assoc, List.take_append_drop]
    exact h
  | byte b =>
    simp only [Line.step]
    split_ifs with hacked
    · exact h
    · split
      · rename_i header dx tail hpart
        rw [Line.complete]
        split_ifs
        · exact h
        · have hkeep := keepLast_sublist x.pending queueCapacity (meaning header dx b)
          have hgrow := (List.Sublist.refl x.returned).append hkeep
          rw [← List.append_assoc] at hgrow
          exact hgrow.trans (h.append (List.Sublist.refl _))
      · exact h

theorem line_run (h : (x.returned++x.pending).Sublist x.sent) (inputs : List Input) :
    ((x.run inputs).returned++(x.run inputs).pending).Sublist (x.run inputs).sent := by
  induction inputs generalizing x with
  | nil => exact h
  | cons input inputs ih => exact ih (line_step h input)

/-- After any part of a stream, reads in between, a read gives the oldest pending packets
exactly when it gives at most one. -/
theorem stream_packets (data : ℕ → ℕ) (buffer : ℕ → Packet) (ps : List Raw) (inputs : List Input)
    (hbytes : bytesOf inputs <+: 0xfa :: stream ps) (hclear : ∀ r ∈ ps, Unmistaken r) (size : ℕ) :
    (Reads (run (init data buffer) inputs) size ((Line.start.run inputs).taken size) ↔
      size < 2*packetSize ∨ (Line.start.run inputs).pending.length ≤ 1) ∧
    ((Line.start.run inputs).returned++(Line.start.run inputs).pending).Sublist
      (Line.start.run inputs).sent := by
  have hstart : Agrees (init data buffer) Line.start (0xfa :: stream ps) :=
    ⟨holds_init (by decide) buffer, rfl, .silent ps rfl hclear rfl rfl rfl⟩
  obtain ⟨rest, hagrees⟩ := agrees_run hstart hbytes
  exact ⟨reads_iff hagrees.holds, line_run (x := Line.start) (List.Sublist.refl []) inputs⟩

def still : Raw := ⟨0x08, 1, 2, by decide, by decide, by decide, by decide⟩

theorem zero_byte : 0 < 0x100 := by decide

/-- A packet with an overflow bit, whose second byte looks like a header. -/
def jump : Raw := ⟨0x48, 0x08, 0, by decide, by decide, zero_byte, by decide⟩

def sendAll (ps : List Raw) : List Input := (0xfa :: stream ps).map .byte

def blank : ℕ → Packet := fun _ => ⟨0, 0, 0⟩

theorem stream_packets_still :
    Reads (run (init (fun _ => 0) blank) (sendAll [still])) 12 [meaning 0x08 1 2] := by
  have hclear : ∀ r ∈ [still], Unmistaken r := by
    intro r hr
    obtain rfl := List.mem_singleton.mp hr
    exact fun hc => absurd hc (by decide)
  exact (stream_packets (fun _ => 0) blank [still] (sendAll [still]) (by decide) hclear 12).1.mpr
    (Or.inl (by decide))

/-- The bytes of the skipped packet are read as a new one; and of two packets the second
is written past the end of the caller's 24 bytes. -/
theorem packets_misread : (bytesOf (sendAll [jump, still]) <+: 0xfa :: stream [jump, still]) ∧
    ¬ Reads (run (init (fun _ => 0) blank) (sendAll [jump, still])) 12
      ((Line.start.run (sendAll [jump, still])).taken 12) ∧
    ¬ Reads (run (init (fun _ => 0) blank) (sendAll [still, still])) 24
      ((Line.start.run (sendAll [still, still])).taken 24) ∧
    ((read (run (init (fun _ => 0) blank) (sendAll [still, still])) blank 24).buffer 12).dx = 1 := by
  refine ⟨by decide, fun hall => ?_, fun hall => ?_, by decide +kernel⟩
  · have hslot := congrArg Packet.dx ((hall blank).2 0)
    revert hslot
    decide +kernel
  · have hslot := congrArg Packet.dx ((hall blank).2 1)
    revert hslot
    decide +kernel

end BabyOS.MousePackets

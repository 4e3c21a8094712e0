import BabyOS.PipeMachine

/-!
# What goes in comes out

The unread bytes are the ones that the ring buffer holds from the read index on.
The buffer size divides `2^32`, so the places stay the same when an index wraps.
-/

set_option autoImplicit false

namespace BabyOS.PipeDelivery
open BabyOS.PipeMachine

/-- The buffer holds `pending`, in order, from the read index on. -/
structure Holds (s : Pipe) (pending : List ℕ) : Prop where
  fits : pending.length ≤ bufferSize
  small : s.readIndex < 2 ^ 32
  writeIndex : s.writeIndex = (s.readIndex+pending.length) % 2 ^ 32
  bytes : ∀ i byte, pending[i]? = some byte → s.buffer ((s.readIndex+i) % bufferSize) = byte

/-- What a state of a run has to satisfy. -/
structure Delivered (s : Pipe) (returned stored : List ℕ) : Prop where
  order : returned <+: stored
  count : (s.writeIndex+2 ^ 32-s.readIndex) % 2 ^ 32 = stored.length-returned.length
  bound : (s.writeIndex+2 ^ 32-s.readIndex) % 2 ^ 32 ≤ bufferSize
  unread : ∀ i byte, stored[returned.length+i]? = some byte →
    s.buffer ((s.readIndex+i) % 2 ^ 32 % bufferSize) = byte

/-- The bytes of a list, stored one after the other. -/
def puts (s : Pipe) (data : List ℕ) : Pipe := data.foldl Pipe.put s

section Lists

variable {s : Pipe} {pending : List ℕ}

theorem mod_size (x : ℕ) : x % 2 ^ 32 % bufferSize = x % bufferSize :=
  Nat.mod_mod_of_dvd x (by decide)

theorem wakeUp_frame (s : Pipe) (l : List ℕ) : s.wakeUp l = { s with running := (s.wakeUp l).running } := by
  cases l <;> rfl

theorem Holds.empty_iff (h : Holds s pending) : s.readIndex = s.writeIndex ↔ pending = [] := by
  have hfits := h.fits
  have hsmall := h.small
  rw [h.writeIndex, ← List.length_eq_zero_iff]
  simp only [bufferSize] at hfits
  omega

theorem Holds.full_iff (h : Holds s pending) :
    s.writeIndex = (s.readIndex+bufferSize) % 2 ^ 32 ↔ pending.length = bufferSize := by
  have hfits := h.fits
  have hsmall := h.small
  rw [h.writeIndex]
  simp only [bufferSize] at hfits ⊢
  omega

theorem Holds.available (h : Holds s pending) :
    (s.writeIndex+2 ^ 32-s.readIndex) % 2 ^ 32 = pending.length := by
  have hfits := h.fits
  have hsmall := h.small
  rw [h.writeIndex]
  simp only [bufferSize] at hfits
  omega

/-- Only the buffer and the indices matter. -/
theorem Holds.congr {s' : Pipe} (h : Holds s pending) (hb : s'.buffer = s.buffer)
    (hr : s'.readIndex = s.readIndex) (hw : s'.writeIndex = s.writeIndex) : Holds s' pending := by
  refine ⟨h.fits, ?_, ?_, ?_⟩
  · rw [hr]
    exact h.small
  · rw [hw, hr]
    exact h.writeIndex
  · rw [hb, hr]
    exact h.bytes

theorem Holds.put (h : Holds s pending) (hroom : pending.length < bufferSize) (byte : ℕ) :
    Holds (s.put byte) (pending++[byte]) := by
  have hslot : s.writeIndex % bufferSize = (s.readIndex+pending.length) % bufferSize := by
    rw [h.writeIndex, mod_size]
  refine ⟨?_, h.small, ?_, fun i b hb => ?_⟩
  · rw [List.length_append, List.length_singleton]
    exact hroom
  · change (s.writeIndex+1) % 2 ^ 32 = (s.readIndex+(pending++[byte]).length) % 2 ^ 32
    rw [h.writeIndex, List.length_append, List.length_singleton, Nat.mod_add_mod, Nat.add_assoc]
  · change Function.update s.buffer (s.writeIndex % bufferSize) byte ((s.readIndex+i) % bufferSize) = b
    rw [hslot, Function.update_apply]
    have hlt : i < (pending++[byte]).length := by
      by_contra hge
      rw [List.getElem?_eq_none (by omega)] at hb
      cases hb
    rw [List.length_append, List.length_singleton] at hlt
    by_cases hlast : i = pending.length
    · rw [if_pos (by rw [hlast])]
      rw [hlast, List.getElem?_concat_length] at hb
      exact Option.some.inj hb
    · have hother : (s.readIndex+i) % bufferSize ≠ (s.readIndex+pending.length) % bufferSize := by
        simp only [bufferSize] at hroom ⊢
        omega
      rw [if_neg hother]
      rw [List.getElem?_append_left (by omega)] at hb
      exact h.bytes i b hb

theorem Holds.puts (h : Holds s pending) {data : List ℕ}
    (hroom : pending.length+data.length ≤ bufferSize) : Holds (puts s data) (pending++data) := by
  induction data generalizing s pending with
  | nil =>
    rw [List.append_nil]
    exact h
  | cons byte rest ih =>
    rw [List.length_cons] at hroom
    have hone := h.put (by omega) byte
    have hrest := ih hone (by rw [List.length_append, List.length_singleton]; omega)
    rw [List.append_assoc, List.singleton_append] at hrest
    exact hrest

theorem puts_frame (s : Pipe) (data : List ℕ) :
    puts s data = { s with buffer := (puts s data).buffer, writeIndex := (puts s data).writeIndex } := by
  induction data generalizing s with
  | nil => rfl
  | cons byte rest ih =>
    rw [puts, List.foldl_cons]
    exact ih (s.put byte)

/-! ## The loops -/

/-- The copying loop takes bytes from the front. -/
theorem take_spec {size : ℕ} (h : Holds s pending) :
    (Pipe.take size s).1 = pending.take size ∧ Holds (Pipe.take size s).2 (pending.drop size) ∧
      (Pipe.take size s).2 = { s with readIndex := (Pipe.take size s).2.readIndex } := by
  induction size generalizing s pending with
  | zero => exact ⟨rfl, h, rfl⟩
  | succ size ih =>
    rw [Pipe.take]
    by_cases hempty : s.readIndex = s.writeIndex
    · rw [if_pos hempty]
      rw [h.empty_iff.mp hempty, List.take_nil, List.drop_nil]
      rw [h.empty_iff.mp hempty] at h
      exact ⟨rfl, h, rfl⟩
    · rw [if_neg hempty]
      cases pending with
      | nil => exact absurd (h.empty_iff.mpr rfl) hempty
      | cons byte rest =>
        have hfits := h.fits
        rw [List.length_cons] at hfits
        have hnext : Holds { s with readIndex := (s.readIndex+1) % 2 ^ 32 } rest := by
          refine ⟨by omega, Nat.mod_lt _ (by decide), ?_, fun i b hb => ?_⟩
          · change s.writeIndex = ((s.readIndex+1) % 2 ^ 32+rest.length) % 2 ^ 32
            rw [h.writeIndex, List.length_cons, Nat.mod_add_mod, Nat.add_assoc, Nat.add_comm 1]
          · have hold := h.bytes (i+1) b (by rw [List.getElem?_cons_succ]; exact hb)
            change s.buffer (((s.readIndex+1) % 2 ^ 32+i) % bufferSize) = b
            rw [Nat.add_mod, mod_size, ← Nat.add_mod, Nat.add_right_comm, Nat.add_assoc]
            exact hold
        obtain ⟨hbytes, hholds, hframe⟩ := ih hnext
        have hfirst := h.bytes 0 byte List.getElem?_cons_zero
        rw [Nat.add_zero] at hfirst
        refine ⟨?_, hholds, hframe⟩
        rw [List.take_succ_cons, ← hbytes, ← hfirst]

/-- The ways a `write` ends: everything is stored; the buffer is full with the read
end closed; or it is full and the process sleeps. -/
theorem write_cases (h : Holds s pending) (p : ℕ) (data : List ℕ) :
    ∃ ins rest, data = ins++rest ∧ (s.write p data).1 = ins ∧ pending.length+ins.length ≤ bufferSize ∧
      (rest = [] ∧ (s.write p data).2 = (puts s ins).wakeReader.done p ∨
        (rest ≠ [] ∧ pending.length+ins.length = bufferSize) ∧
          (s.readable = false ∧ (s.write p data).2 = (puts s ins).done p ∨
            s.readable = true ∧ (s.write p data).2 = (puts s ins).wakeReader.sleepWriter p rest)) := by
  induction data generalizing s pending with
  | nil => exact ⟨[], [], rfl, rfl, h.fits, Or.inl ⟨rfl, rfl⟩⟩
  | cons byte rest ih =>
    rw [Pipe.write]
    by_cases hfull : s.writeIndex = (s.readIndex+bufferSize) % 2 ^ 32
    · rw [if_pos hfull]
      have hlen := h.full_iff.mp hfull
      cases hr : s.readable with
      | false =>
        rw [if_pos rfl]
        exact ⟨[], byte :: rest, rfl, rfl, h.fits, Or.inr ⟨⟨List.cons_ne_nil _ _, hlen⟩, Or.inl ⟨rfl, rfl⟩⟩⟩
      | true =>
        rw [if_neg (by decide)]
        exact ⟨[], byte :: rest, rfl, rfl, h.fits, Or.inr ⟨⟨List.cons_ne_nil _ _, hlen⟩, Or.inr ⟨rfl, rfl⟩⟩⟩
    · rw [if_neg hfull]
      have hroom : pending.length < bufferSize :=
        lt_of_le_of_ne h.fits (fun hc => hfull (h.full_iff.mpr hc))
      obtain ⟨ins, tail, rfl, hins, hfits, hcase⟩ := ih (h.put hroom byte)
      rw [List.length_append, List.length_singleton] at hfits hcase
      refine ⟨byte :: ins, tail, rfl, congrArg (byte :: ·) hins, ?_, ?_⟩
      · rw [List.length_cons]
        omega
      · rw [List.length_cons]
        rcases hcase with hall | ⟨⟨hne, hlen⟩, hcase⟩
        · exact Or.inl hall
        · exact Or.inr ⟨⟨hne, by omega⟩, hcase⟩

/-- The ways a `read` ends: the process sleeps, or takes what there is. -/
theorem read_cases (s : Pipe) (p size : ℕ) :
    (s.writeIndex = s.readIndex ∧ s.writable = true) ∧ s.read p size = ([], s.sleepReader p size) ∨
    ¬ (s.writeIndex = s.readIndex ∧ s.writable = true) ∧
      s.read p size = ((Pipe.take size s).1, (Pipe.take size s).2.wakeWriter.done p) := by
  rw [Pipe.read]
  by_cases hempty : s.writeIndex = s.readIndex ∧ s.writable = true
  · rw [if_pos hempty]
    exact Or.inl ⟨hempty, rfl⟩
  · rw [if_neg hempty]
    exact Or.inr ⟨hempty, rfl⟩

end Lists

section Steps

variable {s s' : Pipe} {pending out ins : List ℕ} {e : Event}

theorem read_holds (h : Holds s pending) (p size : ℕ) :
    ∃ pending', pending = (s.read p size).1++pending' ∧ Holds (s.read p size).2 pending' := by
  rcases read_cases s p size with ⟨-, heq⟩ | ⟨-, heq⟩
  · rw [heq]
    exact ⟨pending, rfl, h.congr rfl rfl rfl⟩
  · obtain ⟨hbytes, hholds, -⟩ := @take_spec _ _ size h
    rw [heq]
    refine ⟨pending.drop size, ?_, ?_⟩
    · rw [hbytes, List.take_append_drop]
    · rw [Pipe.wakeWriter, wakeUp_frame]
      exact hholds.congr rfl rfl rfl

theorem write_holds (h : Holds s pending) (p : ℕ) (data : List ℕ) :
    Holds (s.write p data).2 (pending++(s.write p data).1) := by
  obtain ⟨ins, rest, rfl, hins, hfits, hcase⟩ := write_cases h p data
  have hputs := h.puts hfits
  rw [hins]
  rcases hcase with ⟨-, heq⟩ | ⟨-, ⟨-, heq⟩ | ⟨-, heq⟩⟩
  · rw [heq, Pipe.wakeReader, wakeUp_frame]
    exact hputs.congr rfl rfl rfl
  · rw [heq]
    exact hputs.congr rfl rfl rfl
  · rw [heq, Pipe.wakeReader, wakeUp_frame]
    exact hputs.congr rfl rfl rfl

theorem holds_leaveReaders (h : Holds s pending) (p : ℕ) : Holds (s.leaveReaders p) pending :=
  h.congr rfl rfl rfl

theorem holds_leaveWriters (h : Holds s pending) (p : ℕ) : Holds (s.leaveWriters p) pending :=
  h.congr rfl rfl rfl

/-- A step takes bytes from the front and adds bytes at the end. -/
theorem step_holds (h : Holds s pending) (hs : Step s e out ins s') :
    ∃ pending', pending++ins = out++pending' ∧ Holds s' pending' := by
  cases hs with
  | read =>
    rw [List.append_nil]
    exact read_holds h _ _
  | resumeRead =>
    rw [List.append_nil]
    exact read_holds (holds_leaveReaders h _) _ _
  | write => exact ⟨_, rfl, write_holds h _ _⟩
  | resumeWrite => exact ⟨_, rfl, write_holds (holds_leaveWriters h _) _ _⟩
  | close =>
    refine ⟨pending, List.append_nil _, ?_⟩
    rw [Pipe.close]
    split
    · rw [Pipe.wakeReader, wakeUp_frame]
      exact h.congr rfl rfl rfl
    · rw [Pipe.wakeWriter, wakeUp_frame]
      exact h.congr rfl rfl rfl

end Steps

section Runs

variable {allowed : Pipe → Event → Prop} {s : Pipe} {returned stored : List ℕ}

theorem run_holds (h : Run allowed s returned stored) :
    ∃ pending, stored = returned++pending ∧ Holds s pending := by
  induction h with
  | start hs =>
    refine ⟨[], rfl, Nat.zero_le _, ?_, ?_, fun i b hb => ?_⟩
    · rw [hs.readIndex]
      decide
    · rw [hs.readIndex, hs.writeIndex]
      rfl
    · rw [List.getElem?_nil] at hb
      cases hb
  | step _ _ hs ih =>
    obtain ⟨pending, rfl, hholds⟩ := ih
    obtain ⟨pending', heq, hholds'⟩ := step_holds hholds hs
    refine ⟨pending', ?_, hholds'⟩
    rw [List.append_assoc, heq, List.append_assoc]

/-- In every state of every run, the bytes read so far are the first of the bytes
written, and the buffer holds the others. -/
theorem pipe_run (h : Run allowed s returned stored) : Delivered s returned stored := by
  obtain ⟨pending, rfl, hholds⟩ := run_holds h
  refine ⟨List.prefix_append _ _, ?_, ?_, fun i byte hb => ?_⟩
  · rw [hholds.available, List.length_append, Nat.add_sub_cancel_left]
  · rw [hholds.available]
    exact hholds.fits
  · rw [mod_size]
    apply hholds.bytes i byte
    rwa [List.getElem?_append_right (Nat.le_add_right _ _), Nat.add_sub_cancel_left] at hb

end Runs

/-- A pipe as `init` leaves it. -/
def fresh : Pipe where
  buffer := fun _ => 0
  readIndex := 0
  writeIndex := 0
  readable := true
  writable := true
  readerWq := []
  writerWq := []
  running := fun _ => true
  place := fun _ => .out

theorem fresh_start : Start fresh := ⟨rfl, rfl, rfl, rfl, rfl, rfl, fun _ => rfl⟩

/-- A reader sleeps, a writer wakes it, and it gets the first byte. -/
theorem pipe_run_handover : ∃ s, Run (fun _ _ => True) s [5] [5, 6] ∧ Delivered s [5] [5, 6] := by
  have h₀ : Run (fun _ _ => True) fresh [] [] := Run.start fresh_start
  have h₁ := h₀.step (e := .read 1 1) trivial (.read rfl)
  have h₂ := h₁.step (e := .write 2 [5, 6]) trivial (.write rfl)
  have h₃ := h₂.step (e := .resumeRead 1 1) trivial (.resumeRead rfl rfl)
  exact ⟨_, h₃, pipe_run h₃⟩

end BabyOS.PipeDelivery

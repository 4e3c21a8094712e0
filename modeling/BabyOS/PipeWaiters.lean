import BabyOS.PipeDelivery

/-!
# Who is woken

`wake_up` wakes only the head of a queue. Nobody is stuck as long as the head is
awake whenever its condition holds; the process that is woken does not pass the
wake-up on, so this is lost when it leaves something for the next one.
-/

set_option autoImplicit false

namespace BabyOS.PipeWaiters
open BabyOS.PipeMachine BabyOS.PipeDelivery

/-- What a reader waits for. -/
def ReaderReady (s : Pipe) : Prop := s.writeIndex ≠ s.readIndex ∨ s.writable = false

/-- What a writer waits for. -/
def WriterReady (s : Pipe) : Prop :=
  s.writeIndex ≠ (s.readIndex+bufferSize) % 2 ^ 32 ∨ s.readable = false

/-- Bytes stored and not yet read. -/
def available (s : Pipe) : ℕ := (s.writeIndex+2 ^ 32-s.readIndex) % 2 ^ 32

/-- No process is runnable inside an operation. -/
def Quiet (s : Pipe) : Prop := ∀ p, s.place p ≠ .out → s.running p = false

/-- What a state of a run has to satisfy. -/
structure NoneStuck (s : Pipe) : Prop where
  readers : Quiet s → ∀ p ∈ s.readerWq, s.running p = false → ¬ ReaderReady s
  writers : Quiet s → ∀ p ∈ s.writerWq, s.running p = false → ¬ WriterReady s

/-- The steps after which no wake-up is missing: a reader that was woken leaves
nobody on the queue, or no bytes and an open write end; a writer that was woken leaves
nobody on the queue, or no room and an open read end; a write that fills the empty
buffer of a pipe whose read end is closed finds no reader asleep. -/
def PassedOn (s : Pipe) : Event → Prop
  | .resumeRead p size => s.readerWq.erase p = [] ∨ (available s ≤ size ∧ s.writable = true)
  | .resumeWrite p data =>
    (s.writerWq.erase p = [] ∨ (bufferSize ≤ available s+data.length ∧ s.readable = true)) ∧
      (s.readable = false → available s = 0 → bufferSize < data.length → s.readerWq = [])
  | .write _ data => s.readable = false → available s = 0 → bufferSize < data.length → s.readerWq = []
  | _ => True

def AwakeHead (s : Pipe) (l : List ℕ) : Prop := ∀ p, l.head? = some p → s.running p = true

/-- The queues hold the processes that sleep, or slept and have not run yet. -/
structure Queues (s : Pipe) : Prop where
  readers : ∀ p, p ∈ s.readerWq ↔ ∃ size, s.place p = .reading size
  writers : ∀ p, p ∈ s.writerWq ↔ ∃ data, s.place p = .writing data
  readersOnce : s.readerWq.Nodup
  writersOnce : s.writerWq.Nodup

/-- The queues while process `p` runs inside an operation. -/
structure Free (s : Pipe) (p : ℕ) : Prop where
  readers : ∀ q, q ∈ s.readerWq ↔ q ≠ p ∧ ∃ size, s.place q = .reading size
  writers : ∀ q, q ∈ s.writerWq ↔ q ≠ p ∧ ∃ data, s.place q = .writing data
  readersOnce : s.readerWq.Nodup
  writersOnce : s.writerWq.Nodup

/-- What carries the run. -/
structure Waiting (s : Pipe) : Prop where
  queues : Queues s
  readers : ReaderReady s → AwakeHead s s.readerWq
  writers : WriterReady s → AwakeHead s s.writerWq

section Queue

variable {s : Pipe} {p : ℕ}

theorem free_out (h : Queues s) (hp : s.place p = .out) : Free s p := by
  refine ⟨fun q => ?_, fun q => ?_, h.readersOnce, h.writersOnce⟩
  · rw [h.readers q]
    refine ⟨fun hq => ⟨?_, hq⟩, fun hq => hq.2⟩
    rintro rfl
    obtain ⟨size, hsize⟩ := hq
    rw [hp] at hsize
    cases hsize
  · rw [h.writers q]
    refine ⟨fun hq => ⟨?_, hq⟩, fun hq => hq.2⟩
    rintro rfl
    obtain ⟨data, hdata⟩ := hq
    rw [hp] at hdata
    cases hdata

theorem free_leaveReaders (h : Queues s) {size : ℕ} (hp : s.place p = .reading size) :
    Free (s.leaveReaders p) p := by
  refine ⟨fun q => ?_, fun q => ?_, h.readersOnce.erase p, h.writersOnce⟩
  · change q ∈ s.readerWq.erase p ↔ q ≠ p ∧ ∃ size, s.place q = .reading size
    rw [h.readersOnce.mem_erase_iff, h.readers q]
  · change q ∈ s.writerWq ↔ q ≠ p ∧ ∃ data, s.place q = .writing data
    rw [h.writers q]
    refine ⟨fun hq => ⟨?_, hq⟩, fun hq => hq.2⟩
    rintro rfl
    obtain ⟨data, hdata⟩ := hq
    rw [hp] at hdata
    cases hdata

theorem free_leaveWriters (h : Queues s) {data : List ℕ} (hp : s.place p = .writing data) :
    Free (s.leaveWriters p) p := by
  refine ⟨fun q => ?_, fun q => ?_, h.readersOnce, h.writersOnce.erase p⟩
  · change q ∈ s.readerWq ↔ q ≠ p ∧ ∃ size, s.place q = .reading size
    rw [h.readers q]
    refine ⟨fun hq => ⟨?_, hq⟩, fun hq => hq.2⟩
    rintro rfl
    obtain ⟨size, hsize⟩ := hq
    rw [hp] at hsize
    cases hsize
  · change q ∈ s.writerWq.erase p ↔ q ≠ p ∧ ∃ data, s.place q = .writing data
    rw [h.writersOnce.mem_erase_iff, h.writers q]

theorem Free.done (h : Free s p) : Queues (s.done p) := by
  refine ⟨fun q => ?_, fun q => ?_, h.readersOnce, h.writersOnce⟩
  · change q ∈ s.readerWq ↔ ∃ size, Function.update s.place p .out q = .reading size
    rw [h.readers q, Function.update_apply]
    by_cases hq : q = p
    · simp [hq]
    · simp [hq]
  · change q ∈ s.writerWq ↔ ∃ data, Function.update s.place p .out q = .writing data
    rw [h.writers q, Function.update_apply]
    by_cases hq : q = p
    · simp [hq]
    · simp [hq]

theorem Free.sleepReader (h : Free s p) (size : ℕ) : Queues (s.sleepReader p size) := by
  have hnot : p ∉ s.readerWq := fun hin => ((h.readers p).mp hin).1 rfl
  refine ⟨fun q => ?_, fun q => ?_, ?_, h.writersOnce⟩
  · change q ∈ s.readerWq++[p] ↔ ∃ size', Function.update s.place p (.reading size) q = .reading size'
    rw [List.mem_append, List.mem_singleton, h.readers q, Function.update_apply]
    by_cases hq : q = p
    · simp [hq]
    · simp [hq]
  · change q ∈ s.writerWq ↔ ∃ data, Function.update s.place p (.reading size) q = .writing data
    rw [h.writers q, Function.update_apply]
    by_cases hq : q = p
    · simp [hq]
    · simp [hq]
  · change (s.readerWq++[p]).Nodup
    rw [← List.concat_eq_append]
    exact h.readersOnce.concat hnot

theorem Free.sleepWriter (h : Free s p) (data : List ℕ) : Queues (s.sleepWriter p data) := by
  have hnot : p ∉ s.writerWq := fun hin => ((h.writers p).mp hin).1 rfl
  refine ⟨fun q => ?_, fun q => ?_, h.readersOnce, ?_⟩
  · change q ∈ s.readerWq ↔ ∃ size, Function.update s.place p (.writing data) q = .reading size
    rw [h.readers q, Function.update_apply]
    by_cases hq : q = p
    · simp [hq]
    · simp [hq]
  · change q ∈ s.writerWq++[p] ↔ ∃ data', Function.update s.place p (.writing data) q = .writing data'
    rw [List.mem_append, List.mem_singleton, h.writers q, Function.update_apply]
    by_cases hq : q = p
    · simp [hq]
    · simp [hq]
  · change (s.writerWq++[p]).Nodup
    rw [← List.concat_eq_append]
    exact h.writersOnce.concat hnot

/-- Only the queues and the places matter. -/
theorem Free.congr {s' : Pipe} (h : Free s p) (hr : s'.readerWq = s.readerWq)
    (hw : s'.writerWq = s.writerWq) (hp : s'.place = s.place) : Free s' p := by
  refine ⟨?_, ?_, ?_, ?_⟩
  · rw [hr, hp]
    exact h.readers
  · rw [hw, hp]
    exact h.writers
  · rw [hr]
    exact h.readersOnce
  · rw [hw]
    exact h.writersOnce

theorem Free.wakeUp (h : Free s p) (l : List ℕ) : Free (s.wakeUp l) p := by
  rw [wakeUp_frame]
  exact h.congr rfl rfl rfl

/-! ## Heads -/

theorem wakeUp_running (s : Pipe) (l : List ℕ) {q : ℕ} (hq : s.running q = true) :
    (s.wakeUp l).running q = true := by
  cases l with
  | nil => exact hq
  | cons p rest =>
    change Function.update s.running p true q = true
    rw [Function.update_apply]
    split
    · rfl
    · exact hq

theorem wakeUp_head (s : Pipe) (l : List ℕ) : AwakeHead (s.wakeUp l) l := by
  intro p hp
  cases l with
  | nil => cases hp
  | cons q rest =>
    obtain rfl := Option.some.inj hp
    exact Function.update_self _ _ _

theorem AwakeHead.wakeUp {l : List ℕ} (h : AwakeHead s l) (l' : List ℕ) : AwakeHead (s.wakeUp l') l :=
  fun p hp => wakeUp_running s l' (h p hp)

/-- The process that goes to sleep is not the head of this queue. -/
theorem awakeHead_sleep {l : List ℕ} (h : AwakeHead s l) (hp : p ∉ l) (q : ℕ) (hq : l.head? = some q) :
    Function.update s.running p false q = true := by
  have hne : q ≠ p := by
    rintro rfl
    exact hp (List.mem_of_mem_head? hq)
  rw [Function.update_of_ne hne]
  exact h q hq

end Queue

section Steps

variable {s s' : Pipe} {pending : List ℕ} {p : ℕ}

/-! ## The operations -/

theorem read_waiting (hh : Holds s pending) (hf : Free s p) {size : ℕ}
    (hr : (ReaderReady s → AwakeHead s s.readerWq) ∨ (available s ≤ size ∧ s.writable = true))
    (hw : WriterReady s → AwakeHead s s.writerWq) : Waiting (s.read p size).2 := by
  rcases read_cases s p size with ⟨hempty, heq⟩ | ⟨hready, heq⟩
  · rw [heq]
    refine ⟨hf.sleepReader size, fun hc => ?_, fun hc => ?_⟩
    · rcases hc with hc | hc
      · exact absurd hempty.1 hc
      · change s.writable = false at hc
        rw [hempty.2] at hc
        cases hc
    · exact awakeHead_sleep (hw hc) (fun hin => ((hf.writers p).mp hin).1 rfl)
  · obtain ⟨-, hholds, hframe⟩ := @take_spec _ _ size hh
    have hrun : (Pipe.take size s).2.running = s.running := by rw [hframe]
    have hreaders : (Pipe.take size s).2.readerWq = s.readerWq := by rw [hframe]
    have hwriters : (Pipe.take size s).2.writerWq = s.writerWq := by rw [hframe]
    have hwritable : (Pipe.take size s).2.writable = s.writable := by rw [hframe]
    have hfree : Free (Pipe.take size s).2 p := hf.congr hreaders hwriters (by rw [hframe])
    have hqueues := (hfree.wakeUp (Pipe.take size s).2.writerWq).done
    rw [heq]
    simp only [Pipe.wakeWriter]
    rw [wakeUp_frame] at hqueues ⊢
    refine ⟨hqueues, fun hc => ?_, fun hc => ?_⟩
    · change AwakeHead ((Pipe.take size s).2.wakeUp _) (Pipe.take size s).2.readerWq
      rw [hreaders]
      apply AwakeHead.wakeUp
      have hbefore : ReaderReady s := by
        by_contra hnot
        simp only [ReaderReady, not_or, not_not, Bool.not_eq_false] at hnot
        exact hready hnot
      rcases hr with hr | ⟨hall, hopen⟩
      · intro q hq
        rw [hrun]
        exact hr hbefore q hq
      · -- nothing is left, and the write end is open
        exfalso
        rcases hc with hc | hc
        · have hnone : pending.drop size = [] := by
            rw [available, hh.available] at hall
            exact List.drop_eq_nil_of_le hall
          exact hc (hholds.empty_iff.mpr hnone).symm
        · change (Pipe.take size s).2.writable = false at hc
          rw [hwritable, hopen] at hc
          cases hc
    · exact wakeUp_head _ _

theorem write_waiting (hh : Holds s pending) (hf : Free s p) {data : List ℕ}
    (hr : ReaderReady s → AwakeHead s s.readerWq)
    (hw : (WriterReady s → AwakeHead s s.writerWq) ∨
      (bufferSize ≤ available s+data.length ∧ s.readable = true))
    (hearly : s.readable = false → available s = 0 → bufferSize < data.length → s.readerWq = []) :
    Waiting (s.write p data).2 := by
  rw [available, hh.available] at hw hearly
  obtain ⟨ins, rest, rfl, -, hfits, hcase⟩ := write_cases hh p data
  have hholds := hh.puts hfits
  have hframe := puts_frame s ins
  have hrun : (puts s ins).running = s.running := by rw [hframe]
  have hreaders : (puts s ins).readerWq = s.readerWq := by rw [hframe]
  have hwriters : (puts s ins).writerWq = s.writerWq := by rw [hframe]
  have hreadable : (puts s ins).readable = s.readable := by rw [hframe]
  have hwritable : (puts s ins).writable = s.writable := by rw [hframe]
  have hfree : Free (puts s ins) p := hf.congr hreaders hwriters (by rw [hframe])
  rw [List.length_append] at hw hearly
  -- a writer that leaves room found room
  have hroom : ∀ t : Pipe, t.running = s.running → (pending.length+ins.length < bufferSize ∨ s.readable = false) →
      rest = [] ∨ s.readable = false → AwakeHead t s.writerWq := by
    intro t ht hleft hend q hq
    rw [ht]
    rcases hw with hw | ⟨hfill, hopen⟩
    · refine hw ?_ q hq
      rcases hleft with hlt | hclosed
      · left
        intro hfull
        have := hh.full_iff.mp hfull
        omega
      · exact Or.inr hclosed
    · rcases hend with rfl | hclosed
      · rcases hleft with hlt | hclosed
        · rw [List.length_nil] at hfill
          omega
        · rw [hopen] at hclosed
          cases hclosed
      · rw [hopen] at hclosed
        cases hclosed
  rcases hcase with ⟨rfl, heq⟩ | ⟨⟨hne, hlen⟩, ⟨hclosed, heq⟩ | ⟨hopen, heq⟩⟩
  · have hqueues := (hfree.wakeUp (puts s ins).readerWq).done
    rw [heq]
    simp only [Pipe.wakeReader]
    rw [wakeUp_frame] at hqueues ⊢
    refine ⟨hqueues, fun _ => wakeUp_head _ _, fun hc => ?_⟩
    change AwakeHead ((puts s ins).wakeUp _) (puts s ins).writerWq
    rw [hwriters]
    refine AwakeHead.wakeUp (hroom _ hrun ?_ (Or.inl rfl)) _
    rcases hc with hc | hc
    · left
      refine lt_of_le_of_ne hfits (fun hfull => hc ?_)
      exact hholds.full_iff.mpr (by rw [List.length_append]; exact hfull)
    · change (puts s ins).readable = false at hc
      rw [hreadable] at hc
      exact Or.inr hc
  · rw [heq]
    refine ⟨hfree.done, fun _ => ?_, fun _ => ?_⟩
    · change AwakeHead (puts s ins) (puts s ins).readerWq
      rw [hreaders]
      by_cases hnone : pending.length = 0
      · have hrest : 0 < rest.length := List.length_pos_of_ne_nil hne
        rw [hearly hclosed hnone (by omega)]
        intro q hq
        cases hq
      · intro q hq
        rw [hrun]
        refine hr (Or.inl (fun hempty => hnone ?_)) q hq
        rw [hh.empty_iff.mp hempty.symm]
        rfl
    · change AwakeHead (puts s ins) (puts s ins).writerWq
      rw [hwriters]
      exact hroom _ hrun (Or.inr hclosed) (Or.inr hclosed)
  · have hqueues := (hfree.wakeUp (puts s ins).readerWq).sleepWriter rest
    rw [heq]
    simp only [Pipe.wakeReader]
    rw [wakeUp_frame] at hqueues ⊢
    refine ⟨hqueues, fun _ => ?_, fun hc => ?_⟩
    · exact awakeHead_sleep (s := (puts s ins).wakeUp (puts s ins).readerWq) (wakeUp_head _ _)
        (fun hin => ((hfree.readers p).mp hin).1 rfl)
    · exfalso
      rcases hc with hc | hc
      · exact hc (hholds.full_iff.mpr (by rw [List.length_append]; exact hlen))
      · change (puts s ins).readable = false at hc
        rw [hreadable, hopen] at hc
        cases hc

theorem close_waiting (h : Waiting s) (writeEnd : Bool) : Waiting (s.close writeEnd) := by
  rw [Pipe.close]
  split
  · rw [Pipe.wakeReader, wakeUp_frame]
    refine ⟨⟨h.queues.readers, h.queues.writers, h.queues.readersOnce, h.queues.writersOnce⟩,
      fun _ => wakeUp_head _ _, fun hc => ?_⟩
    exact AwakeHead.wakeUp (s := { s with writable := false }) (h.writers hc) _
  · rw [Pipe.wakeWriter, wakeUp_frame]
    refine ⟨⟨h.queues.readers, h.queues.writers, h.queues.readersOnce, h.queues.writersOnce⟩,
      fun hc => ?_, fun _ => wakeUp_head _ _⟩
    exact AwakeHead.wakeUp (s := { s with readable := false }) (h.readers hc) _

theorem awakeHead_nil (s : Pipe) : AwakeHead s [] := by
  intro q hq
  cases hq

theorem step_waiting (hh : Holds s pending) (h : Waiting s) {e : Event} {out ins : List ℕ}
    (ha : PassedOn s e) (hs : Step s e out ins s') : Waiting s' := by
  cases hs with
  | read hp => exact read_waiting hh (free_out h.queues hp) (Or.inl h.readers) h.writers
  | resumeRead hp _ =>
    refine read_waiting (holds_leaveReaders hh _) (free_leaveReaders h.queues hp) ?_ h.writers
    rcases ha with hnone | hall
    · left
      intro _
      change AwakeHead _ (s.readerWq.erase _)
      rw [hnone]
      exact awakeHead_nil _
    · exact Or.inr hall
  | write hp => exact write_waiting hh (free_out h.queues hp) h.readers (Or.inl h.writers) ha
  | resumeWrite hp _ =>
    refine write_waiting (holds_leaveWriters hh _) (free_leaveWriters h.queues hp) h.readers ?_ ha.2
    rcases ha.1 with hnone | hall
    · left
      intro _
      change AwakeHead _ (s.writerWq.erase _)
      rw [hnone]
      exact awakeHead_nil _
    · exact Or.inr hall
  | close => exact close_waiting h _

theorem run_waiting {returned stored : List ℕ} (h : Run PassedOn s returned stored) : Waiting s := by
  induction h with
  | start hs =>
    refine ⟨⟨fun p => ?_, fun p => ?_, ?_, ?_⟩, fun _ => ?_, fun _ => ?_⟩
    · rw [hs.readers, hs.out p]
      simp
    · rw [hs.writers, hs.out p]
      simp
    · rw [hs.readers]
      exact List.nodup_nil
    · rw [hs.writers]
      exact List.nodup_nil
    · rw [hs.readers]
      exact awakeHead_nil _
    · rw [hs.writers]
      exact awakeHead_nil _
  | step hrun ha hs ih =>
    obtain ⟨pending, -, hholds⟩ := run_holds hrun
    exact step_waiting hholds ih ha hs

/-- A queue with a process on it has a head, and in a quiet state the head sleeps. -/
theorem head_asleep {l : List ℕ} (hawake : AwakeHead s l) (hq : ∀ q ∈ l, s.running q = false)
    (hp : p ∈ l) : False := by
  cases l with
  | nil => cases hp
  | cons q rest =>
    have hon := hawake q rfl
    have hoff := hq q List.mem_cons_self
    rw [hon] at hoff
    cases hoff

/-- In a run in which every wake-up is passed on, no process is stuck. -/
theorem waiters_run {returned stored : List ℕ} (h : Run PassedOn s returned stored) : NoneStuck s := by
  have hw := run_waiting h
  refine ⟨fun hquiet p hp _ hready => ?_, fun hquiet p hp _ hready => ?_⟩
  · refine head_asleep (hw.readers hready) (fun q hq => hquiet q ?_) hp
    obtain ⟨size, hsize⟩ := (hw.queues.readers q).mp hq
    rw [hsize]
    exact fun hc => nomatch hc
  · refine head_asleep (hw.writers hready) (fun q hq => hquiet q ?_) hp
    obtain ⟨data, hdata⟩ := (hw.queues.writers q).mp hq
    rw [hdata]
    exact fun hc => nomatch hc

end Steps

/-- One reader sleeps and is woken by a writer. -/
theorem waiters_run_handover : ∃ s, Run PassedOn s [5] [5] ∧ NoneStuck s := by
  have h₀ : Run PassedOn fresh [] [] := Run.start fresh_start
  have h₁ := h₀.step (e := .read 1 1) trivial (.read rfl)
  have h₂ := h₁.step (e := .write 2 [5]) (fun hc => absurd hc (by decide)) (.write rfl)
  have h₃ := h₂.step (e := .resumeRead 1 1) (Or.inl rfl) (.resumeRead rfl rfl)
  exact ⟨_, h₃, waiters_run h₃⟩

/-- Two readers sleep, two bytes are written, and the first reader takes one of
them. -/
theorem reader_stuck : ∃ s, Run (fun _ _ => True) s [5] [5, 6] ∧ ¬ NoneStuck s := by
  have h₀ : Run (fun _ _ => True) fresh [] [] := Run.start fresh_start
  have h₁ := h₀.step (e := .read 1 1) trivial (.read rfl)
  have h₂ := h₁.step (e := .read 2 1) trivial (.read rfl)
  have h₃ := h₂.step (e := .write 3 [5, 6]) trivial (.write rfl)
  have h₄ := h₃.step (e := .resumeRead 1 1) trivial (.resumeRead rfl rfl)
  refine ⟨_, h₄, fun h => ?_⟩
  refine h.readers (fun p hp => ?_) 2 (by decide) (by decide) (Or.inl (by decide))
  by_cases hsecond : p = 2
  · rw [hsecond]
    rfl
  by_cases hfirst : p = 1
  · refine absurd ?_ hp
    rw [hfirst]
    rfl
  · refine absurd ?_ hp
    simp [Pipe.read, Pipe.write, Pipe.take, Pipe.done, Pipe.sleepReader, Pipe.leaveReaders, Pipe.put,
      Pipe.wakeReader, Pipe.wakeWriter, Pipe.wakeUp, fresh, bufferSize, Function.update_apply, hfirst,
      hsecond]

end BabyOS.PipeWaiters

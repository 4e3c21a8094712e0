import BabyOS.Signals

/-!
# The numbers of signals

A number is taken by `kill` in one process and used as an index when the signal is handled
in another. The places of `m_action` and `signal_names` that are read and written.
-/

set_option autoImplicit false

namespace BabyOS.SignalNumbers
open BabyOS.Signals

/-- A process in the list of all processes; behind its `nsig` actions lies something else. -/
structure Proc where
  pid : BitVec 32
  action : ℕ → BitVec 64
  queue : List (BitVec 32)

inductive Access
  | action (i : ℕ)
  | name (i : ℕ)
deriving DecidableEq

def Access.InRange : Access → Prop
  | .action i => i < nsig
  | .name i => i < nsig

instance (a : Access) : Decidable a.InRange := by
  cases a <;> exact Nat.decLt ..

/-- The processes, and the places of the tables that were used. -/
structure State where
  procs : List Proc
  log : List Access

/-- The position of a signal in `m_action`. -/
def slot (sig : BitVec 32) : ℕ := (sig-1).toNat

/-- `find_process` and `add_tail`; `none` if there is no such process. -/
def enqueue (pid sig : BitVec 32) : List Proc → Option (List Proc)
  | [] => none
  | p :: ps =>
    if p.pid = pid then some ({ p with queue := p.queue ++ [sig] } :: ps)
    else (enqueue pid sig ps).map fun ps => p :: ps

/-- `send_signal_to`; `false` is the result -1. -/
def sendSignalTo (s : State) (pid sig : BitVec 32) : Bool × State :=
  match enqueue pid sig s.procs with
  | some procs => (true, { s with procs })
  | none => (false, s)

/-- `do_sigaction`. -/
def doSigaction (s : State) (k : ℕ) (p : Proc) (sig : BitVec 32) (handler : BitVec 64) : State :=
  if sig.toNat < 1 ∨ sig.toNat ≥ nsig then s
  else { procs := s.procs.set k { p with action := Function.update p.action (slot sig) handler }
         log := s.log ++ [.action (slot sig)] }

/-- What `handle_signal_default` reads. -/
def defaultAccesses (p : Proc) (sig : BitVec 32) : List Access :=
  if p.pid = 1 then []
  else if sig.toNat ∈ [sigcont, sigchld, sigwinch] then []
  else if sig.toNat ∈ [sigtstp, sigttin, sigttou, sigstop] then []
  else [.name sig.toNat]

/-- What `handle_signal` reads. -/
def accesses (p : Proc) (sig : BitVec 32) : List Access :=
  .action (slot sig) ::
    if p.action (slot sig) = sigIgn then []
    else if p.action (slot sig) = sigDfl then defaultAccesses p sig
    else []

/-- `do_signal`. -/
def doSignal (s : State) (k : ℕ) (p : Proc) : State :=
  match p.queue with
  | [] => s
  | sig :: queue => { procs := s.procs.set k { p with queue }, log := s.log ++ accesses p sig }

/-- `copy_signal` copies the actions. -/
def copySignal (p : Proc) (pid : BitVec 32) (behind : ℕ → BitVec 64) : Proc where
  pid := pid
  action := fun i => if i < nsig then p.action i else behind i
  queue := []

inductive Event
  | kill (pid sig : BitVec 32)
  | signal (k : ℕ) (sig : BitVec 32) (handler : BitVec 64)
  | deliver (k : ℕ)
  | fork (k : ℕ) (pid : BitVec 32) (behind : ℕ → BitVec 64)
  | release (k : ℕ)

inductive Step : State → Event → State → Prop
  | kill {s : State} (pid sig : BitVec 32) : Step s (.kill pid sig) (sendSignalTo s pid sig).2
  | signal {s : State} {k : ℕ} {p : Proc} (sig : BitVec 32) (handler : BitVec 64) :
      s.procs[k]? = some p → Step s (.signal k sig handler) (doSigaction s k p sig handler)
  | deliver {s : State} {k : ℕ} {p : Proc} : s.procs[k]? = some p → Step s (.deliver k) (doSignal s k p)
  | fork {s : State} {k : ℕ} {p : Proc} (pid : BitVec 32) (behind : ℕ → BitVec 64) :
      s.procs[k]? = some p →
      Step s (.fork k pid behind) { s with procs := s.procs ++ [copySignal p pid behind] }
  | release {s : State} (k : ℕ) : Step s (.release k) { s with procs := s.procs.eraseIdx k }

/-- A process with no signals, before any was handled. -/
def start (p : Proc) : State := ⟨[p], []⟩

inductive Run (allowed : State → Event → Prop) : State → Prop
  | start (p : Proc) : p.queue = [] → Run allowed (start p)
  | step {s s' : State} {e : Event} : Run allowed s → allowed s e → Step s e s' → Run allowed s'

/-! ## Numbers in range -/

def Valid (sig : BitVec 32) : Prop := 1 ≤ sig.toNat ∧ sig.toNat < nsig

instance (sig : BitVec 32) : Decidable (Valid sig) := inferInstanceAs (Decidable (_ ∧ _))

/-- The signals in the queues and the places used are in range. -/
structure Ranged (s : State) : Prop where
  queued : ∀ p ∈ s.procs, ∀ sig ∈ p.queue, Valid sig
  used : ∀ a ∈ s.log, a.InRange

/-- A signal that finds its process has a number in range. -/
def Allowed (s : State) : Event → Prop
  | .kill pid sig => (∃ p ∈ s.procs, p.pid = pid) → Valid sig
  | _ => True

section Steps

variable {s s' : State} {e : Event} {p : Proc} {pid sig : BitVec 32}

theorem slot_lt (h : Valid sig) : slot sig < nsig := by
  obtain ⟨hlo, hhi⟩ := h
  have hn : nsig = 32 := rfl
  rw [slot]
  bv_omega

theorem accesses_ranged (h : Valid sig) : ∀ a ∈ accesses p sig, a.InRange := by
  intro a ha
  rw [accesses, List.mem_cons] at ha
  obtain rfl | ha := ha
  · exact slot_lt h
  · split at ha
    · cases ha
    · split at ha
      · rw [defaultAccesses] at ha
        split at ha
        · cases ha
        · split at ha
          · cases ha
          · split at ha
            · cases ha
            · obtain rfl := List.mem_singleton.mp ha
              exact h.2
      · cases ha

/-- Who gets the signal. -/
theorem enqueue_mem {ps ps' : List Proc} (h : enqueue pid sig ps = some ps') :
    (∃ p ∈ ps, p.pid = pid) ∧ ∀ q ∈ ps', q ∈ ps ∨ ∃ p ∈ ps, q = { p with queue := p.queue ++ [sig] } := by
  induction ps generalizing ps' with
  | nil => cases h
  | cons p ps ih =>
    rw [enqueue] at h
    split at h
    next hpid =>
      obtain rfl := Option.some.inj h
      refine ⟨⟨p, List.mem_cons_self .., hpid⟩, fun q hq => ?_⟩
      obtain rfl | hq := List.mem_cons.mp hq
      · exact Or.inr ⟨p, List.mem_cons_self .., rfl⟩
      · exact Or.inl (List.mem_cons_of_mem p hq)
    next =>
      obtain ⟨ps₁, hps₁, rfl⟩ := Option.map_eq_some_iff.mp h
      obtain ⟨⟨p', hp', hpid⟩, hall⟩ := ih hps₁
      refine ⟨⟨p', List.mem_cons_of_mem p hp', hpid⟩, fun q hq => ?_⟩
      obtain rfl | hq := List.mem_cons.mp hq
      · exact Or.inl (List.mem_cons_self ..)
      · obtain hq | ⟨p₁, hp₁, rfl⟩ := hall q hq
        · exact Or.inl (List.mem_cons_of_mem p hq)
        · exact Or.inr ⟨p₁, List.mem_cons_of_mem p hp₁, rfl⟩

theorem enqueue_none {ps : List Proc} (h : enqueue pid sig ps = none) : ¬ ∃ p ∈ ps, p.pid = pid := by
  induction ps with
  | nil =>
    rintro ⟨p, hp, -⟩
    cases hp
  | cons p ps ih =>
    rw [enqueue] at h
    split at h
    · cases h
    next hpid =>
      rintro ⟨q, hq, heq⟩
      obtain rfl | hq := List.mem_cons.mp hq
      · exact hpid heq
      · exact ih (Option.map_eq_none_iff.mp h) ⟨q, hq, heq⟩

theorem ranged_set {k : ℕ} {q : Proc} {log : List Access} (h : Ranged s)
    (hq : ∀ sig ∈ q.queue, Valid sig) (hlog : ∀ a ∈ log, a.InRange) :
    Ranged ⟨s.procs.set k q, s.log ++ log⟩ := by
  refine ⟨fun r hr => ?_, fun a ha => ?_⟩
  · obtain hr | rfl := List.mem_or_eq_of_mem_set hr
    · exact h.queued r hr
    · exact hq
  · obtain ha | ha := List.mem_append.mp ha
    · exact h.used a ha
    · exact hlog a ha

theorem ranged_step (h : Ranged s) (ha : Allowed s e) (hstep : Step s e s') : Ranged s' := by
  cases hstep with
  | kill pid sig =>
    rw [sendSignalTo]
    split
    next ps' hps =>
      obtain ⟨hfound, hall⟩ := enqueue_mem hps
      refine ⟨fun q hq sig' hsig => ?_, h.used⟩
      obtain hq | ⟨p, hp, rfl⟩ := hall q hq
      · exact h.queued q hq sig' hsig
      · obtain hsig | hsig := List.mem_append.mp hsig
        · exact h.queued p hp sig' hsig
        · rw [List.mem_singleton.mp hsig]
          exact ha hfound
    next => exact h
  | @signal k p sig handler hp =>
    rw [doSigaction]
    split
    · exact h
    next hvalid =>
      refine ranged_set h (h.queued p (List.mem_of_getElem? hp)) (fun a ha => ?_)
      obtain rfl := List.mem_singleton.mp ha
      exact slot_lt ⟨by omega, by omega⟩
  | @deliver k p hp =>
    have hqueue := h.queued p (List.mem_of_getElem? hp)
    rw [doSignal]
    split
    · exact h
    next sig queue heq =>
      rw [heq] at hqueue
      exact ranged_set h (fun sig' hsig => hqueue sig' (List.mem_cons_of_mem sig hsig))
        (accesses_ranged (hqueue sig (List.mem_cons_self ..)))
  | fork pid behind _ =>
    refine ⟨fun q hq sig hsig => ?_, h.used⟩
    obtain hq | hq := List.mem_append.mp hq
    · exact h.queued q hq sig hsig
    · rw [List.mem_singleton.mp hq] at hsig
      cases hsig
  | release k => exact ⟨fun q hq => h.queued q (List.mem_of_mem_eraseIdx hq), h.used⟩

/-- A number out of range is refused just when nobody is there to get it. -/
theorem refused_iff (s : State) (pid sig : BitVec 32) :
    ((sendSignalTo s pid sig).1 = false ∧ (sendSignalTo s pid sig).2 = s) ↔ ¬ ∃ p ∈ s.procs, p.pid = pid := by
  rw [sendSignalTo]
  split
  next ps hps => exact iff_of_false (fun hc => absurd hc.1.symm Bool.false_ne_true) (fun hc => hc (enqueue_mem hps).1)
  next hps => exact iff_of_true ⟨rfl, rfl⟩ (enqueue_none hps)

end Steps

/-- In a run whose signals have numbers in range every place used is in range; a signal with another
number is refused just when there is no process of that number. -/
theorem numbers_run (s : State) :
    (Run Allowed s → ∀ a ∈ s.log, a.InRange) ∧
    ∀ pid sig, ¬ Valid sig →
      (((sendSignalTo s pid sig).1 = false ∧ (sendSignalTo s pid sig).2 = s) ↔
        ¬ ∃ p ∈ s.procs, p.pid = pid) := by
  refine ⟨fun hrun => ?_, fun pid sig _ => refused_iff s pid sig⟩
  suffices hranged : Ranged s from hranged.used
  induction hrun with
  | start p hp =>
    refine ⟨fun q hq sig hsig => ?_, fun a ha => by cases ha⟩
    rw [List.mem_singleton.mp hq, hp] at hsig
    cases hsig
  | step _ ha hstep ih => exact ranged_step ih ha hstep

/-- Process 1, with no handlers. -/
def init : Proc := ⟨1, fun _ => sigDfl, []⟩

/-- It gets a signal and handles it. -/
def handled (sig : BitVec 32) : State :=
  ⟨[init], accesses { init with queue := [sig] } sig⟩

theorem handled_run {allowed : State → Event → Prop} {sig : BitVec 32}
    (hkill : allowed (start init) (.kill 1 sig)) (hdeliver : ∀ s, allowed s (.deliver 0)) :
    Run allowed (handled sig) := by
  have hsent := (Run.start init rfl).step hkill (Step.kill 1 sig)
  have hqueued : (sendSignalTo (start init) 1 sig).2 = ⟨[{ init with queue := [sig] }], []⟩ := rfl
  rw [hqueued] at hsent
  exact hsent.step (hdeliver _) (Step.deliver (k := 0) (p := { init with queue := [sig] }) rfl)

theorem numbers_run_usr1 : ∀ a ∈ (handled 10).log, a.InRange :=
  (numbers_run (handled 10)).1 (handled_run (fun _ => by decide) (fun _ => trivial))

/-- Signal 0 reads far behind the table. -/
theorem signal_zero : ∃ s, Run (fun _ _ => True) s ∧ ∃ a ∈ s.log, ¬ a.InRange :=
  ⟨handled 0, handled_run trivial (fun _ => trivial), .action (2^32-1), by decide, by decide⟩

end BabyOS.SignalNumbers

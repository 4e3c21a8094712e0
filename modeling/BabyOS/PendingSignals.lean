import Mathlib.Data.Finset.Card
import Mathlib.Tactic

/-!
# Pending signals

A sender takes a `siginfo_t` from the slab cache and queues it on another
process, which takes it off again on its way back to user mode. No path gives an
object back to the cache. The queues are in order all the same: what is proved
is where every object of the cache has gone.
-/

set_option autoImplicit false

namespace BabyOS.PendingSignals

structure Siginfo where
  sig : BitVec 32
  pid : BitVec 32

/-- A process in the list of all processes. Its memory may be used again for
another process, so `key` tells them apart. -/
structure Proc where
  key : ℕ
  pid : BitVec 32
  zombie : Bool
  sigPending : BitVec 32
  sigQueue : List ℕ

/-- The processes, the contents of the `siginfo_t` objects and those the cache
has given out. `sent` and `handled` record what was queued on which process and
what it took off, in order. -/
structure State where
  procs : List Proc
  info : ℕ → Siginfo
  allocated : Finset ℕ
  next : ℕ
  sent : List (ℕ × ℕ)
  handled : List (ℕ × ℕ)

def calcSigPending (queue : List ℕ) : BitVec 32 := if queue = [] then 0 else 1

/-- A process with another queue. -/
def Proc.setQueue (p : Proc) (queue : List ℕ) : Proc :=
  { p with sigQueue := queue, sigPending := calcSigPending queue }

@[simp] theorem setQueue_zombie (p : Proc) (queue : List ℕ) :
    (p.setQueue queue).zombie = p.zombie := rfl

@[simp] theorem setQueue_sigQueue (p : Proc) (queue : List ℕ) :
    (p.setQueue queue).sigQueue = queue := rfl

/-- `find_process` and `add_tail`: the process found, and the list. -/
def enqueue (pid : BitVec 32) (x : ℕ) : List Proc → Option (ℕ × List Proc)
  | [] => none
  | p :: ps =>
    if p.pid = pid then some (p.key, p.setQueue (p.sigQueue ++ [x]) :: ps)
    else (enqueue pid x ps).map fun r => (r.1, p :: r.2)

/-- `send_signal_to` by the process `sender`; `x` is the object that the cache
gives out, and `false` the result -1. -/
def sendSignalTo (s : State) (sender pid sig : BitVec 32) (x : ℕ) : Bool × State :=
  let s := { s with info := Function.update s.info x ⟨sig, sender⟩, allocated := insert x s.allocated }
  match enqueue pid x s.procs with
  | some (key, procs) => (true, { s with procs, sent := s.sent ++ [(key, x)] })
  | none => (false, s)

/-- `do_signal` of the `k`-th process. -/
def doSignal (s : State) (k : ℕ) (p : Proc) : State :=
  match p.sigQueue with
  | [] => s
  | x :: queue =>
    { s with procs := s.procs.set k (p.setQueue queue), handled := s.handled ++ [(p.key, x)] }

/-- `init` and `copy_signal` for the new process. `m_sig_pending` is not set: it
is what the memory held. -/
def fork (s : State) (pid sigPending : BitVec 32) : State :=
  { s with procs := s.procs ++ [⟨s.next, pid, false, sigPending, []⟩], next := s.next+1 }

/-- The process becomes a zombie; its queue stays as it is. -/
def exit (s : State) (k : ℕ) (p : Proc) : State :=
  { s with procs := s.procs.set k { p with zombie := true } }

inductive Event
  | kill (k : ℕ) (pid sig : BitVec 32) (x : ℕ)
  | deliver (k : ℕ)
  | fork (k : ℕ) (pid sigPending : BitVec 32)
  | exit (k : ℕ)
  | release (k : ℕ)

/-- Zombies do not run; only they are released. -/
inductive Step : State → Event → State → Prop
  | kill {s : State} {k x : ℕ} {p : Proc} (pid sig : BitVec 32) :
      s.procs[k]? = some p → p.zombie = false → x ∉ s.allocated →
      Step s (.kill k pid sig x) (sendSignalTo s p.pid pid sig x).2
  | deliver {s : State} {k : ℕ} {p : Proc} :
      s.procs[k]? = some p → p.zombie = false → Step s (.deliver k) (doSignal s k p)
  | fork {s : State} {k : ℕ} {p : Proc} (pid sigPending : BitVec 32) :
      s.procs[k]? = some p → p.zombie = false → Step s (.fork k pid sigPending) (fork s pid sigPending)
  | exit {s : State} {k : ℕ} {p : Proc} :
      s.procs[k]? = some p → p.zombie = false → Step s (.exit k) (exit s k p)
  | release {s : State} {k : ℕ} {p : Proc} :
      s.procs[k]? = some p → p.zombie = true →
      Step s (.release k) { s with procs := s.procs.eraseIdx k }

/-- How many objects a step takes out of the queues of live processes for good:
a signal to nobody or to a zombie, one that is delivered, and those that an
exiting process leaves in its queue. -/
def leak (s : State) : Event → ℕ
  | .kill _ pid _ _ => match s.procs.find? fun p => p.pid = pid with
    | some p => if p.zombie then 1 else 0
    | none => 1
  | .deliver k => match s.procs[k]? with
    | some p => min 1 p.sigQueue.length
    | none => 0
  | .exit k => match s.procs[k]? with
    | some p => p.sigQueue.length
    | none => 0
  | _ => 0

/-- The kernel after its boot, with the processes it made. -/
def start (procs : List Proc) (info : ℕ → Siginfo) : State :=
  ⟨procs, info, ∅, procs.length, [], []⟩

/-- A run, and how many objects its steps took away. -/
inductive Run : State → ℕ → Prop
  | start (procs : List Proc) (info : ℕ → Siginfo) : procs.map Proc.key = List.range procs.length →
      (∀ p ∈ procs, p.sigQueue = [] ∧ p.zombie = false) → Run (start procs info) 0
  | step {s s' : State} {e : Event} {n : ℕ} : Run s n → Step s e s' → Run s' (n+leak s e)

/-! ## What is claimed of a state -/

def liveQueued (procs : List Proc) : ℕ :=
  (procs.map fun p => if p.zombie then 0 else p.sigQueue.length).sum

/-- Every object of the cache is in the queue of a live process. -/
def Accounted (s : State) : Prop := s.allocated.card = liveQueued s.procs

instance (s : State) : Decidable (Accounted s) := inferInstanceAs (Decidable (_ = _))

/-- The objects of one process in a record. -/
def ofKey (key : ℕ) (l : List (ℕ × ℕ)) : List ℕ := (l.filter fun e => e.1 = key).map Prod.snd

/-- No object is delivered twice, and every process gets its objects in the
order in which they were queued. -/
structure Fifo (s : State) : Prop where
  once : (s.handled.map Prod.snd).Nodup
  inOrder : ∀ key, ofKey key s.handled <+: ofKey key s.sent
  rest : ∀ p ∈ s.procs, ofKey p.key s.handled ++ p.sigQueue = ofKey p.key s.sent

def Flagged (s : State) : Prop := ∀ p ∈ s.procs, p.sigQueue ≠ [] → p.sigPending ≠ 0

/-! ## The invariant -/

/-- The processes have different keys and the objects in the record are
different ones of the cache. -/
structure Settled (s : State) : Prop where
  fifo : Fifo s
  flagged : Flagged s
  keys : (s.procs.map Proc.key).Nodup
  fresh : ∀ p ∈ s.procs, p.key < s.next
  senders : ∀ e ∈ s.sent, e.1 < s.next
  objects : (s.sent.map Prod.snd).Nodup
  taken : ∀ e ∈ s.sent, e.2 ∈ s.allocated

/-- One process of a list is replaced. -/
def Replaces (ps : List Proc) (p q : Proc) (ps' : List Proc) : Prop :=
  ∃ l r, ps = l ++ p :: r ∧ ps' = l ++ q :: r

section Lists

variable {ps ps' : List Proc} {p q : Proc} {k x key : ℕ} {pid : BitVec 32}

theorem replaces_set (h : ps[k]? = some p) (q : Proc) : Replaces ps p q (ps.set k q) := by
  have ⟨hk, hp⟩ := List.getElem?_eq_some_iff.mp h
  refine ⟨ps.take k, ps.drop (k+1), ?_, List.set_eq_take_append_cons_drop.trans (if_pos hk)⟩
  rw [← hp, List.getElem_cons_drop, List.take_append_drop]

/-- Who gets the signal: the first process with the number. -/
theorem replaces_enqueue (h : enqueue pid x ps = some (key, ps')) :
    ∃ p, ps.find? (fun p => p.pid = pid) = some p ∧ key = p.key ∧
      Replaces ps p (p.setQueue (p.sigQueue ++ [x])) ps' := by
  induction ps generalizing ps' with
  | nil => cases h
  | cons p ps ih =>
    rw [enqueue] at h
    split at h
    · rename_i hpid
      have ⟨hkey, hps⟩ := Prod.mk.inj (Option.some.inj h)
      exact ⟨p, List.find?_cons_of_pos (by simpa using hpid), hkey.symm, [], ps, rfl, hps.symm⟩
    · rename_i hpid
      have ⟨⟨key', ps₁⟩, h₁, heq⟩ := Option.map_eq_some_iff.mp h
      have ⟨hkey, hps⟩ := Prod.mk.inj heq
      subst hkey
      have ⟨p', hfind, hkey, l, r, hl, hr⟩ := ih h₁
      refine ⟨p', ?_, hkey, p :: l, r, by rw [hl]; rfl, by rw [← hps, hr]; rfl⟩
      rw [List.find?_cons_of_neg (by simpa using hpid), hfind]

theorem enqueue_none (h : enqueue pid x ps = none) : ps.find? (fun p => p.pid = pid) = none := by
  induction ps with
  | nil => rfl
  | cons p ps ih =>
    rw [enqueue] at h
    split at h
    · cases h
    · rename_i hpid
      rw [List.find?_cons_of_neg (by simpa using hpid)]
      exact ih (Option.map_eq_none_iff.mp h)

theorem Replaces.mem (h : Replaces ps p q ps') : p ∈ ps := by
  have ⟨l, r, hl, _⟩ := h
  simp [hl]

theorem Replaces.liveQueued (h : Replaces ps p q ps') :
    liveQueued ps' + (if p.zombie then 0 else p.sigQueue.length) =
      liveQueued ps + (if q.zombie then 0 else q.sigQueue.length) := by
  have ⟨l, r, hl, hr⟩ := h
  rw [hl, hr, PendingSignals.liveQueued, PendingSignals.liveQueued]
  simp only [List.map_append, List.map_cons, List.sum_append, List.sum_cons]
  omega

theorem Replaces.keys (h : Replaces ps p q ps') (hk : q.key = p.key) :
    ps'.map Proc.key = ps.map Proc.key := by
  have ⟨l, r, hl, hr⟩ := h
  simp [hl, hr, hk]

/-- The others keep their keys apart from that of the replaced one. -/
theorem Replaces.others (h : Replaces ps p q ps') (hn : (ps.map Proc.key).Nodup) :
    ∀ p' ∈ ps', p' = q ∨ p' ∈ ps ∧ p'.key ≠ p.key := by
  have ⟨l, r, hl, hr⟩ := h
  rw [hl, List.map_append, List.map_cons] at hn
  have hnl := List.nodup_append.mp hn
  intro p' hp'
  rw [hr] at hp'
  rcases List.mem_append.mp hp' with hp' | hp'
  · have hne := hnl.2.2 p'.key (List.mem_map_of_mem hp') p.key List.mem_cons_self
    exact .inr ⟨by simp [hl, hp'], hne⟩
  · rcases List.mem_cons.mp hp' with hp' | hp'
    · exact .inl hp'
    · have hne : p'.key ≠ p.key := by
        intro he
        have hnot := (List.nodup_cons.mp hnl.2.1).1
        rw [← he] at hnot
        exact hnot (List.mem_map_of_mem hp')
      exact .inr ⟨by simp [hl, hp'], hne⟩

@[simp] theorem ofKey_append (key : ℕ) (l l' : List (ℕ × ℕ)) :
    ofKey key (l ++ l') = ofKey key l ++ ofKey key l' := by
  simp [ofKey]

@[simp] theorem ofKey_self (key x : ℕ) : ofKey key [(key, x)] = [x] := by
  simp [ofKey]

theorem ofKey_other {key key' : ℕ} (x : ℕ) (h : key' ≠ key) : ofKey key [(key', x)] = [] := by
  simp [ofKey, h]

theorem mem_ofKey {key x : ℕ} {l : List (ℕ × ℕ)} : x ∈ ofKey key l ↔ (key, x) ∈ l := by
  simp [ofKey]

theorem ofKey_nodup {l : List (ℕ × ℕ)} (h : (l.map Prod.snd).Nodup) (key : ℕ) :
    (ofKey key l).Nodup :=
  h.sublist (List.filter_sublist.map _)

end Lists

/-! ## The steps -/

section Steps

variable {s s' : State} {e : Event} {p : Proc} {k x : ℕ} {pid sig : BitVec 32}

theorem flagged_setQueue (p : Proc) (queue : List ℕ) (h : queue ≠ []) :
    (p.setQueue queue).sigPending ≠ 0 := by
  rw [Proc.setQueue, calcSigPending, if_neg h]
  have h1 : (1 : BitVec 32) ≠ 0 := by decide
  exact h1

theorem settled_kill (h : Settled s) (hx : x ∉ s.allocated) (sender : BitVec 32) :
    Settled (sendSignalTo s sender pid sig x).2 := by
  have htaken : ∀ e ∈ s.sent, e.2 ∈ insert x s.allocated :=
    fun e he => Finset.mem_insert_of_mem (h.taken e he)
  rw [sendSignalTo]
  split
  · rename_i key ps hps
    have ⟨p, _, hkey, hrep⟩ := replaces_enqueue hps
    have hp := hrep.mem
    have hothers := hrep.others h.keys
    subst hkey
    refine ⟨⟨h.fifo.once, ?_, ?_⟩, ?_, ?_, ?_, ?_, ?_, ?_⟩
    · intro key
      simp only [ofKey_append]
      exact (h.fifo.inOrder key).trans (List.prefix_append _ _)
    · intro q hq
      simp only [ofKey_append]
      rcases hothers q hq with hq | ⟨hq, hne⟩
      · simp only [hq, Proc.setQueue, ofKey_self]
        rw [← List.append_assoc, h.fifo.rest p hp]
      · rw [ofKey_other x hne.symm, List.append_nil]
        exact h.fifo.rest q hq
    · intro q hq hne
      rcases hothers q hq with hq | ⟨hq, _⟩
      · rw [hq]
        exact flagged_setQueue p _ (by simp)
      · exact h.flagged q hq hne
    · rw [hrep.keys rfl]
      exact h.keys
    · intro q hq
      rcases hothers q hq with hq | ⟨hq, _⟩
      · rw [hq]
        exact h.fresh p hp
      · exact h.fresh q hq
    · intro e he
      rcases List.mem_append.mp he with he | he
      · exact h.senders e he
      · rw [List.mem_singleton.mp he]
        exact h.fresh p hp
    · simp only [List.map_append, List.map_cons, List.map_nil]
      refine List.nodup_append.mpr ⟨h.objects, List.nodup_singleton x, ?_⟩
      intro y hy z hz heq
      have ⟨e, he, hey⟩ := List.mem_map.mp hy
      have hmem := h.taken e he
      rw [hey, heq, List.mem_singleton.mp hz] at hmem
      exact hx hmem
    · intro e he
      rcases List.mem_append.mp he with he | he
      · exact htaken e he
      · rw [List.mem_singleton.mp he]
        exact Finset.mem_insert_self x _
  · exact ⟨⟨h.fifo.once, h.fifo.inOrder, h.fifo.rest⟩, h.flagged, h.keys, h.fresh, h.senders,
      h.objects, htaken⟩

/-- What is still queued was not handled yet. -/
theorem unhandled (h : Settled s) (hp : p ∈ s.procs) (hx : x ∈ p.sigQueue) :
    x ∉ s.handled.map Prod.snd := by
  intro hmem
  have ⟨⟨key, y⟩, he, hy⟩ := List.mem_map.mp hmem
  subst hy
  have hrest := h.fifo.rest p hp
  have hsent : (key, y) ∈ s.sent := mem_ofKey.mp ((h.fifo.inOrder key).subset (mem_ofKey.mpr he))
  have hown : (p.key, y) ∈ s.sent := by
    apply mem_ofKey.mp
    rw [← hrest]
    exact List.mem_append_right _ hx
  have hkey : (key, y) = (p.key, y) := List.inj_on_of_nodup_map h.objects hsent hown rfl
  have hnd := ofKey_nodup h.objects p.key
  rw [← hrest] at hnd
  rw [hkey] at he
  exact (List.nodup_append.mp hnd).2.2 y (mem_ofKey.mpr he) y hx rfl

theorem settled_deliver (h : Settled s) (hk : s.procs[k]? = some p) : Settled (doSignal s k p) := by
  rw [doSignal]
  split
  · exact h
  · rename_i x queue hq
    have hrep := replaces_set hk (p.setQueue queue)
    have hp := hrep.mem
    have hothers := hrep.others h.keys
    have hrest := h.fifo.rest p hp
    rw [hq] at hrest
    refine ⟨⟨?_, ?_, ?_⟩, ?_, ?_, ?_, h.senders, h.objects, h.taken⟩
    · simp only [List.map_append, List.map_cons, List.map_nil]
      refine List.nodup_append.mpr ⟨h.fifo.once, List.nodup_singleton x, ?_⟩
      intro y hy z hz heq
      have hnot := unhandled (x := x) h hp (by rw [hq]; exact List.mem_cons_self)
      rw [heq, List.mem_singleton.mp hz] at hy
      exact hnot hy
    · intro key
      simp only [ofKey_append]
      by_cases hkey : p.key = key
      · rw [← hkey, ofKey_self, ← hrest]
        exact (List.prefix_append_right_inj _).mpr ⟨queue, rfl⟩
      · rw [ofKey_other x hkey, List.append_nil]
        exact h.fifo.inOrder key
    · intro q hq'
      simp only [ofKey_append]
      rcases hothers q hq' with hq' | ⟨hq', hne⟩
      · simp only [hq', Proc.setQueue, ofKey_self]
        rw [List.append_assoc]
        exact hrest
      · rw [ofKey_other x hne.symm, List.append_nil]
        exact h.fifo.rest q hq'
    · intro q hq' hne
      rcases hothers q hq' with hq' | ⟨hq', _⟩
      · rw [hq'] at hne ⊢
        exact flagged_setQueue p _ hne
      · exact h.flagged q hq' hne
    · rw [hrep.keys rfl]
      exact h.keys
    · intro q hq'
      rcases hothers q hq' with hq' | ⟨hq', _⟩
      · rw [hq']
        exact h.fresh p hp
      · exact h.fresh q hq'

theorem settled_fork (h : Settled s) (sigPending : BitVec 32) : Settled (fork s pid sigPending) := by
  have hnone : ofKey s.next s.sent = [] := by
    rw [List.eq_nil_iff_forall_not_mem]
    intro x hx
    exact absurd (h.senders _ (mem_ofKey.mp hx)) (Nat.lt_irrefl _)
  refine ⟨⟨h.fifo.once, h.fifo.inOrder, ?_⟩, ?_, ?_, ?_, ?_, h.objects, h.taken⟩
  · intro q hq
    rcases List.mem_append.mp hq with hq | hq
    · exact h.fifo.rest q hq
    · have hpre := h.fifo.inOrder s.next
      rw [hnone] at hpre
      rw [List.mem_singleton.mp hq]
      change ofKey s.next s.handled ++ [] = ofKey s.next s.sent
      rw [hnone, List.prefix_nil.mp hpre]
      rfl
  · intro q hq hne
    rcases List.mem_append.mp hq with hq | hq
    · exact h.flagged q hq hne
    · rw [List.mem_singleton.mp hq] at hne
      exact absurd rfl hne
  · rw [fork, List.map_append]
    refine List.nodup_append.mpr ⟨h.keys, List.nodup_singleton _, ?_⟩
    intro key hkey key' hkey' heq
    have ⟨q, hq, hqk⟩ := List.mem_map.mp hkey
    have hlt := h.fresh q hq
    rw [hqk, heq, List.mem_singleton.mp hkey'] at hlt
    exact absurd hlt (Nat.lt_irrefl _)
  · intro q hq
    rcases List.mem_append.mp hq with hq | hq
    · exact Nat.lt_succ_of_lt (h.fresh q hq)
    · rw [List.mem_singleton.mp hq]
      exact Nat.lt_succ_self _
  · exact fun e he => Nat.lt_succ_of_lt (h.senders e he)

theorem settled_exit (h : Settled s) (hk : s.procs[k]? = some p) : Settled (exit s k p) := by
  have hrep := replaces_set hk { p with zombie := true }
  have hp := hrep.mem
  have hothers := hrep.others h.keys
  refine ⟨⟨h.fifo.once, h.fifo.inOrder, ?_⟩, ?_, ?_, ?_, h.senders, h.objects, h.taken⟩
  · intro q hq
    rcases hothers q hq with hq | ⟨hq, _⟩
    · rw [hq]
      exact h.fifo.rest p hp
    · exact h.fifo.rest q hq
  · intro q hq hne
    rcases hothers q hq with hq | ⟨hq, _⟩
    · rw [hq] at hne ⊢
      exact h.flagged p hp hne
    · exact h.flagged q hq hne
  · rw [exit, hrep.keys rfl]
    exact h.keys
  · intro q hq
    rcases hothers q hq with hq | ⟨hq, _⟩
    · rw [hq]
      exact h.fresh p hp
    · exact h.fresh q hq

theorem settled_release (h : Settled s) : Settled { s with procs := s.procs.eraseIdx k } := by
  have hsub : ∀ q ∈ s.procs.eraseIdx k, q ∈ s.procs := fun q hq => List.mem_of_mem_eraseIdx hq
  exact ⟨⟨h.fifo.once, h.fifo.inOrder, fun q hq => h.fifo.rest q (hsub q hq)⟩,
    fun q hq => h.flagged q (hsub q hq),
    h.keys.sublist ((List.eraseIdx_sublist _ _).map _), fun q hq => h.fresh q (hsub q hq),
    h.senders, h.objects, h.taken⟩

theorem settled_step (h : Settled s) (hs : Step s e s') : Settled s' := by
  cases hs with
  | kill pid sig hk hz hx => exact settled_kill h hx _
  | deliver hk hz => exact settled_deliver h hk
  | fork pid sigPending hk hz => exact settled_fork h sigPending
  | exit hk hz => exact settled_exit h hk
  | release hk hz => exact settled_release h

/-- A step takes as many objects away as `leak` says. -/
theorem accounted_step (hs : Step s e s') (n : ℕ)
    (h : s.allocated.card = liveQueued s.procs+n) :
    s'.allocated.card = liveQueued s'.procs+(n+leak s e) := by
  cases hs with
  | kill pid sig hk hz hx =>
    have hcard := Finset.card_insert_of_notMem hx
    rw [sendSignalTo, leak]
    split
    · rename_i key ps hps
      have ⟨p, hfind, _, hrep⟩ := replaces_enqueue hps
      have hlive := hrep.liveQueued
      rw [hfind]
      cases hzp : p.zombie <;> simp [hzp] at hlive ⊢ <;> omega
    · rename_i hps
      rw [enqueue_none hps]
      simp only
      omega
  | @deliver k p hk hz =>
    rw [doSignal, leak, hk]
    split
    · rename_i hq
      simpa [hq] using h
    · rename_i x queue hq
      have hlive := (replaces_set hk (p.setQueue queue)).liveQueued
      simp [hz, hq] at hlive ⊢
      omega
  | fork pid sigPending hk hz =>
    simpa [PendingSignals.fork, leak, liveQueued] using h
  | @exit k p hk hz =>
    have hlive := (replaces_set hk { p with zombie := true }).liveQueued
    rw [PendingSignals.exit, leak, hk]
    simp [hz] at hlive ⊢
    omega
  | @release k p hk hz =>
    have ⟨hlt, hp⟩ := List.getElem?_eq_some_iff.mp hk
    have hlive : liveQueued (s.procs.eraseIdx k) = liveQueued s.procs := by
      conv_rhs => rw [← List.take_append_drop k s.procs, ← List.getElem_cons_drop hlt, hp]
      rw [List.eraseIdx_eq_take_drop_succ, liveQueued, liveQueued]
      simp [hz]
    simp only [leak, hlive]
    omega

end Steps

/-! ## Runs -/

theorem settled_start {procs : List Proc} {info : ℕ → Siginfo}
    (hk : procs.map Proc.key = List.range procs.length)
    (hq : ∀ p ∈ procs, p.sigQueue = [] ∧ p.zombie = false) : Settled (start procs info) := by
  refine ⟨⟨List.nodup_nil, fun _ => List.prefix_rfl, fun p hp => (hq p hp).1⟩,
    fun p hp hne => absurd (hq p hp).1 hne, ?_, fun p hp => ?_, fun e he => absurd he List.not_mem_nil,
    List.nodup_nil, fun e he => absurd he List.not_mem_nil⟩
  · exact hk ▸ List.nodup_range
  · have hmem : p.key ∈ procs.map Proc.key := List.mem_map_of_mem hp
    rw [hk] at hmem
    exact List.mem_range.mp hmem

theorem settled_run {s : State} {n : ℕ} (h : Run s n) : Settled s := by
  induction h with
  | start procs info hk hq => exact settled_start hk hq
  | step _ hs ih => exact settled_step ih hs

/-- Every object of the cache is queued on a live process or was taken away. -/
theorem accounted_run {s : State} {n : ℕ} (h : Run s n) :
    s.allocated.card = liveQueued s.procs+n := by
  induction h with
  | start procs info hk hq =>
    have hzero : ∀ l ∈ procs.map fun p => if p.zombie then 0 else p.sigQueue.length, l = 0 := by
      intro l hl
      have ⟨p, hp, hpl⟩ := List.mem_map.mp hl
      rw [← hpl, (hq p hp).1]
      simp
    exact (List.sum_eq_zero hzero).symm
  | step _ hs ih => exact accounted_step hs _ ih

/-- In every run signals are handled at most once and in order and are always
flagged; the objects in use are those queued on live processes exactly as long
as no step has taken one away. -/
theorem signals_run {s : State} {n : ℕ} (h : Run s n) :
    Fifo s ∧ Flagged s ∧ (Accounted s ↔ n = 0) := by
  have hs := settled_run h
  have hn := accounted_run h
  refine ⟨hs.fifo, hs.flagged, ?_⟩
  rw [Accounted]
  omega

/-- Two processes; the first one sends signal 10 to the second. -/
def pair : List Proc := [⟨0, 1, false, 0, []⟩, ⟨1, 2, false, 0, []⟩]

def sent : State := (sendSignalTo (start pair fun _ => ⟨0, 0⟩) 1 2 10 7).2

theorem sent_run : Run sent 0 :=
  (Run.start pair (fun _ => ⟨0, 0⟩) rfl (by decide)).step
    (Step.kill (k := 0) (p := ⟨0, 1, false, 0, []⟩) 2 10 rfl rfl (Finset.notMem_empty 7))

theorem signals_run_sent : Fifo sent ∧ Flagged sent ∧ (Accounted sent ↔ 0 = 0) :=
  signals_run sent_run

/-- The second process handles the signal, and its object stays allocated. -/
theorem object_kept : ∃ s n, Run s n ∧ ¬ Accounted s :=
  ⟨_, _, sent_run.step (Step.deliver (k := 1) (p := ⟨1, 2, false, 1, [7]⟩) rfl rfl), by decide⟩

end BabyOS.PendingSignals

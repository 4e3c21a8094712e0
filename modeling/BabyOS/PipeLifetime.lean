import BabyOS.FileReferences

/-!
# Lifetime of pipes

The slots of the two ends share one pipe, and `free` gives the pipe back to the
cache with the first of them. A run in which no end is closed for the last time
keeps every pipe; the first such step loses one.
-/

set_option autoImplicit false

namespace BabyOS.PipeLifetime
open BabyOS.FileTable BabyOS.FileReferences

/-- The pipe of a slot that is open. -/
def pipeOf (f : File) : Option (Option ℕ) :=
  if 0 < f.ref ∧ f.type = .pipe then some f.pipe else none

def Refers (s : System) (q i : ℕ) : Prop := pipeOf (s.table i) = some (some q)

/-- What every pipe is owed: it goes back once, and so does its buffer, after the last
slot that refers to it is closed and not before. -/
structure Lifetime (s : System) (q : ℕ) : Prop where
  once : (s.pipes q).returned ≤ 1 ∧ (s.pipes q).kfreed ≤ 1
  last : 0 < (s.pipes q).returned ∨ 0 < (s.pipes q).kfreed → ∀ i, ¬ Refers s q i
  given : (∀ i, ¬ Refers s q i) → (s.pipes q).returned = 1 ∧ (s.pipes q).kfreed = 1

def Lifetimes (s : System) : Prop := ∀ q < s.pipeCount, Lifetime s q

/-- The slot is an end of a pipe and has one reference. -/
def LastEnd (f : File) : Prop := f.type = .pipe ∧ f.ref = 1

instance (f : File) : Decidable (LastEnd f) := inferInstanceAs (Decidable (_ ∧ _))

/-- No last reference to an end is given up, and a `pipe` that finds two free slots finds
two free descriptors. -/
def Keeps (s : System) : Event → Prop
  | .doClose p fd => ∀ i, (s.procs p).getFile fd = some i → ¬ LastEnd (s.table i)
  | .exitClose p k => ∀ i, (s.procs p).files k = some i → ¬ LastEnd (s.table i)
  | .doPipe p =>
    (∃ i < maxFileNum, ∃ j < maxFileNum, i ≠ j ∧ (s.table i).ref = 0 ∧ (s.table j).ref = 0) →
    ∃ k < maxOpenFile, ∃ l < maxOpenFile, k ≠ l ∧
      (s.procs p).files k = none ∧ (s.procs p).files l = none
  | _ => True

/-- Every pipe is as it was made, with two open slots. -/
structure Alive (s : System) : Prop where
  known : ∀ i q, pipeOf (s.table i) = some q → ∃ p < s.pipeCount, q = some p
  ends : ∀ q < s.pipeCount, ∃ i j, i ≠ j ∧ Refers s q i ∧ Refers s q j
  whole : ∀ q < s.pipeCount, s.pipes q = .init

section Slots

variable {f : File}

theorem pipeOf_zero (h : f.ref = 0) : pipeOf f = none := by
  rw [pipeOf, if_neg]
  intro hc
  omega

theorem pipeOf_other (h : f.type ≠ .pipe) : pipeOf f = none := by
  rw [pipeOf, if_neg]
  exact fun hc => h hc.2

theorem pipeOf_ref (h : 0 < f.ref) {n : ℕ} (hn : 0 < n) : pipeOf { f with ref := n } = pipeOf f := by
  rw [pipeOf, pipeOf]
  exact if_congr ⟨fun hc => ⟨h, hc.2⟩, fun hc => ⟨hn, hc.2⟩⟩ rfl rfl

theorem pipeOf_some {q : Option ℕ} (h : pipeOf f = some q) : 0 < f.ref ∧ f.type = .pipe ∧ f.pipe = q := by
  rw [pipeOf] at h
  split at h
  next hc => exact ⟨hc.1, hc.2, Option.some.inj h⟩
  · cases h

theorem pipeOf_update {t : Table} {i : ℕ} (h : pipeOf f = pipeOf (t i)) (j : ℕ) :
    pipeOf (Function.update t i f j) = pipeOf (t j) := by
  by_cases hj : j = i
  · subst hj
    rw [Function.update_self]
    exact h
  · rw [Function.update_of_ne hj]

end Slots

section Steps

variable {s s' : System} {g : History} {p : ℕ}

theorem Alive.lifetimes (h : Alive s) : Lifetimes s := by
  intro q hq
  obtain ⟨i, -, -, hi, -⟩ := h.ends q hq
  have hwhole := h.whole q hq
  refine ⟨?_, ?_, ?_⟩
  · rw [hwhole]
    exact ⟨Nat.zero_le _, Nat.zero_le _⟩
  · rw [hwhole]
    rintro (hc | hc)
    · cases hc
    · cases hc
  · intro hnone
    exact absurd hi (hnone i)

/-- The slots of pipes and the pipes stay. -/
theorem Alive.frame (h : Alive s) (hpipes : s'.pipes = s.pipes) (hcount : s'.pipeCount = s.pipeCount)
    (hslots : ∀ i, pipeOf (s'.table i) = pipeOf (s.table i)) : Alive s' := by
  refine ⟨fun i q hq => ?_, fun q hq => ?_, fun q hq => ?_⟩
  · rw [hslots] at hq
    rw [hcount]
    exact h.known i q hq
  · rw [hcount] at hq
    obtain ⟨i, j, hij, hi, hj⟩ := h.ends q hq
    exact ⟨i, j, hij, (hslots i).trans hi, (hslots j).trans hj⟩
  · rw [hcount] at hq
    rw [hpipes]
    exact h.whole q hq

/-- What a step does: it keeps the condition and every pipe, or breaks both. -/
def Settled (s : System) (e : Event) (r : System.Result) : Prop :=
  (Keeps s e ∧ Alive r.state) ∨ (¬ Keeps s e ∧ ¬ Lifetimes r.state)

/-- Closing a slot that is no last end. -/
theorem closeFile_kept {i : ℕ} {b : Bool} (hs : s.closeFile i = some (b, s'))
    (hlast : ¬ LastEnd (s.table i)) :
    s'.pipes = s.pipes ∧ s'.pipeCount = s.pipeCount ∧
      ∀ j, pipeOf (s'.table j) = pipeOf (s.table j) := by
  by_cases hpos : 0 < (s.table i).ref
  · rw [System.closeFile, free_spec hpos] at hs
    by_cases hone : (s.table i).ref = 1
    · rw [if_pos hone] at hs
      have htype : (s.table i).type ≠ .pipe := fun hc => hlast ⟨hc, hone⟩
      obtain ⟨-, rfl⟩ := Prod.mk.inj (Option.some.inj hs)
      have hsame : ∀ u : System, u.releaseObject { s.table i with ref := 0 } = u := by
        intro u
        rw [System.releaseObject]
        split
        next hc _ => exact absurd hc htype
        · rfl
      rw [hsame]
      refine ⟨rfl, rfl, pipeOf_update ?_⟩
      rw [pipeOf_zero rfl, pipeOf_other htype]
    · rw [if_neg hone] at hs
      obtain ⟨-, rfl⟩ := Prod.mk.inj (Option.some.inj hs)
      exact ⟨rfl, rfl, pipeOf_update (pipeOf_ref hpos (by omega))⟩
  · rw [System.closeFile, Table.free, if_pos (by omega)] at hs
    cases hs

/-- Closing a last end: the pipe goes back. -/
theorem closeFile_last {i q : ℕ} {b : Bool} (hs : s.closeFile i = some (b, s'))
    (hq : Refers s q i) (hone : (s.table i).ref = 1) :
    s'.pipeCount = s.pipeCount ∧ (∀ j, j ≠ i → s'.table j = s.table j) ∧
      s'.pipes = Function.update s.pipes q ((s.pipes q).close (s.table i).writeable).giveBack := by
  obtain ⟨hpos, htype, hpipe⟩ := pipeOf_some hq
  rw [System.closeFile, free_spec hpos, if_pos hone] at hs
  obtain ⟨-, rfl⟩ := Prod.mk.inj (Option.some.inj hs)
  simp only [System.releaseObject, htype, hpipe]
  exact ⟨trivial, fun j hj => Function.update_of_ne hj _ _, trivial⟩

theorem giveBack_returned (x : PipeObject) : x.giveBack.returned = x.returned+1 := rfl

theorem close_returned (x : PipeObject) (writeEnd : Bool) : (x.close writeEnd).returned = x.returned := by
  rw [PipeObject.close, PipeObject.destroy]
  repeat' split
  all_goals rfl

/-- A pipe that went back while a slot refers to it. -/
theorem lost_early {q i : ℕ} (hq : q < s.pipeCount) (hback : 0 < (s.pipes q).returned)
    (hi : Refers s q i) : ¬ Lifetimes s :=
  fun h => (h q hq).last (Or.inl hback) i hi

/-- A pipe that went back twice. -/
theorem lost_twice {q : ℕ} (hq : q < s.pipeCount) (hback : 1 < (s.pipes q).returned) :
    ¬ Lifetimes s := by
  intro h
  have := (h q hq).once.1
  omega

/-- A process gives up slot `i`. -/
theorem close_settled {s₀ : System} {i : ℕ} {r : System.Result} (h : Alive s)
    (htable : s₀.table = s.table) (hpipes : s₀.pipes = s.pipes) (hcount : s₀.pipeCount = s.pipeCount)
    (hs : s₀.close i = some r) :
    (¬ LastEnd (s.table i) ∧ Alive r.state) ∨ (LastEnd (s.table i) ∧ ¬ Lifetimes r.state) := by
  rw [System.close, Option.map_eq_some_iff] at hs
  obtain ⟨⟨b, s'⟩, hs, rfl⟩ := hs
  by_cases hlast : LastEnd (s.table i)
  · right
    refine ⟨hlast, ?_⟩
    have hpipe : pipeOf (s.table i) = some (s.table i).pipe := by
      rw [pipeOf, if_pos ⟨by rw [hlast.2]; exact Nat.one_pos, hlast.1⟩]
    obtain ⟨q, hq, heq⟩ := h.known i _ hpipe
    rw [heq] at hpipe
    obtain ⟨hcount', htable', hpipes'⟩ := closeFile_last hs
      (by rw [Refers, htable]; exact hpipe) (by rw [htable]; exact hlast.2)
    rw [hcount] at hcount'
    -- one of the two slots is another one, and is still open
    obtain ⟨k, hk, hrefers⟩ : ∃ k, k ≠ i ∧ Refers s q k := by
      obtain ⟨a, b, hab, ha, hb⟩ := h.ends q hq
      by_cases hai : a = i
      · exact ⟨b, fun hbi => hab (hai.trans hbi.symm), hb⟩
      · exact ⟨a, hai, ha⟩
    refine @lost_early s' q k (by rw [hcount']; exact hq) ?_ ?_
    · rw [hpipes', Function.update_self, giveBack_returned]
      exact Nat.succ_pos _
    · rw [Refers, htable' k hk, htable]
      exact hrefers
  · left
    obtain ⟨h₁, h₂, h₃⟩ := closeFile_kept hs (by rw [htable]; exact hlast)
    refine ⟨hlast, h.frame (h₁.trans hpipes) (h₂.trans hcount) (fun j => ?_)⟩
    rw [h₃, htable]

theorem doClose_settled (h : Alive s) {fd : ℤ} {r : System.Result} (hs : s.doClose p fd = some r) :
    Settled s (.doClose p fd) r := by
  rw [System.doClose] at hs
  cases hget : (s.procs p).getFile fd with
  | none =>
    rw [hget] at hs
    obtain rfl := Option.some.inj hs
    left
    refine ⟨fun i hi => ?_, h⟩
    rw [hget] at hi
    cases hi
  | some i =>
    rw [hget] at hs
    have hkeeps : Keeps s (.doClose p fd) ↔ ¬ LastEnd (s.table i) := by
      simp only [Keeps, hget, Option.some.injEq, forall_eq']
    rcases close_settled h (by rfl) (by rfl) (by rfl) hs with ⟨hlast, halive⟩ | ⟨hlast, hlost⟩
    · exact Or.inl ⟨hkeeps.mpr hlast, halive⟩
    · exact Or.inr ⟨fun hk => hkeeps.mp hk hlast, hlost⟩

theorem exitClose_settled (h : Alive s) (hc : Counted s g) {k : ℕ} (hp : p < s.count)
    (hphase : (s.procs p).phase = .exiting k) (hk : k < maxOpenFile) {r : System.Result}
    (hs : s.exitClose p k = some r) : Settled s (.exitClose p k) r := by
  rw [System.exitClose] at hs
  cases hfile : (s.procs p).files k with
  | none =>
    rw [hfile] at hs
    obtain rfl := Option.some.inj hs
    left
    refine ⟨fun i hi => ?_, h.frame rfl rfl (fun _ => rfl)⟩
    rw [hfile] at hi
    cases hi
  | some i =>
    have hpos : 0 < (s.table i).ref := ref_pos hc hp hk ⟨by rw [hphase]; exact le_rfl, hfile⟩
    rw [hfile] at hs
    simp only at hs
    rw [if_neg (hc.used i hpos)] at hs
    have hkeeps : Keeps s (.exitClose p k) ↔ ¬ LastEnd (s.table i) := by
      simp only [Keeps, hfile, Option.some.injEq, forall_eq']
    rcases close_settled h (by rfl) (by rfl) (by rfl) hs with ⟨hlast, halive⟩ | ⟨hlast, hlost⟩
    · exact Or.inl ⟨hkeeps.mpr hlast, halive⟩
    · exact Or.inr ⟨fun hk => hkeeps.mp hk hlast, hlost⟩

theorem doOpen_kept (h : Alive s) (hc : Counted s g) {inode : ℕ} {refused readable writeable : Bool}
    {r : System.Result} (hs : s.doOpen p inode refused readable writeable = some r) :
    Alive r.state := by
  rw [System.doOpen] at hs
  split at hs
  · obtain rfl := Option.some.inj hs
    exact h
  cases hal : s.table.alloc with
  | none =>
    rw [hal] at hs
    obtain rfl := Option.some.inj hs
    exact h
  | some a =>
    obtain ⟨i, t⟩ := a
    obtain ⟨-, hzero, rfl⟩ := alloc_spec hal
    have htype := hc.free i hzero
    rw [hal] at hs
    cases hfd : (s.procs p).allocFd i with
    | none =>
      simp only [hfd] at hs
      rw [System.close, System.closeFile, free_blank hzero htype] at hs
      simp only [System.releaseObject, htype] at hs
      obtain rfl := Option.some.inj hs
      exact h
    | some x =>
      simp only [hfd] at hs
      obtain rfl := Option.some.inj hs
      refine h.frame rfl rfl (fun j => ?_)
      by_cases hji : j = i
      · subst hji
        simp only [Function.update_self]
        rw [pipeOf_zero hzero, pipeOf_other]
        exact FileType.noConfusion
      · simp only [Function.update_of_ne hji]

theorem dupFile_pipeOf {t t' : Table} {i : ℕ} (hs : t.dupFile i = some t') (j : ℕ) :
    pipeOf (t' j) = pipeOf (t j) := by
  rw [Table.dupFile] at hs
  split at hs
  · cases hs
  next hpos =>
    obtain rfl := Option.some.inj hs
    exact pipeOf_update (pipeOf_ref (by omega) (by omega)) j

theorem doDup_kept (h : Alive s) {fd : ℤ} {r : System.Result} (hs : s.doDup p fd = some r) :
    Alive r.state := by
  rw [System.doDup] at hs
  split at hs
  · obtain rfl := Option.some.inj hs
    exact h
  split at hs
  · obtain rfl := Option.some.inj hs
    exact h
  · obtain ⟨t, ht, rfl⟩ := Option.map_eq_some_iff.mp hs
    exact h.frame rfl rfl (dupFile_pipeOf ht)

theorem copyFiles_pipeOf {files : ℕ → Option ℕ} {k : ℕ} {t : Table} {r : (ℕ → Option ℕ) × Table}
    (hs : System.copyFiles files k t = some r) (j : ℕ) : pipeOf (r.2 j) = pipeOf (t j) := by
  induction k generalizing r with
  | zero =>
    obtain rfl := Option.some.inj hs
    rfl
  | succ k ih =>
    rw [System.copyFiles] at hs
    cases hrest : System.copyFiles files k t with
    | none =>
      rw [hrest] at hs
      cases hs
    | some a =>
      obtain ⟨copied, t'⟩ := a
      rw [hrest] at hs
      have hsame := ih hrest
      simp only at hs
      split at hs
      · obtain rfl := Option.some.inj hs
        exact hsame
      split at hs
      · obtain rfl := Option.some.inj hs
        exact hsame
      · obtain ⟨t'', ht, rfl⟩ := Option.map_eq_some_iff.mp hs
        exact (dupFile_pipeOf ht j).trans hsame

/-! ## A new pipe -/

theorem alloc_none {t : Table} (h : t.alloc = none) {i : ℕ} (hi : i < maxFileNum) : (t i).ref ≠ 0 := by
  rw [Table.alloc] at h
  split at h
  next hnone =>
    have := List.find?_eq_none.mp hnone i (List.mem_range.mpr hi)
    simpa using this
  · cases h

theorem allocFd_none {x : Process} {file : ℕ} (h : x.allocFd file = none) {k : ℕ}
    (hk : k < maxOpenFile) : x.files k ≠ none := by
  rw [Process.allocFd] at h
  split at h
  next hnone =>
    have := List.find?_eq_none.mp hnone k (List.mem_range.mpr hk)
    simpa using this
  · cases h

theorem allocPipe_full {r : System.Result} (hs : s.allocPipe = some (.inr r)) {i j : ℕ}
    (hi : i < maxFileNum) (hj : j < maxFileNum) (hij : i ≠ j) (hzero : (s.table i).ref = 0) :
    (s.table j).ref ≠ 0 := by
  rw [System.allocPipe] at hs
  cases hal : s.table.alloc with
  | none => exact fun _ => alloc_none hal hi hzero
  | some a =>
    obtain ⟨k, t⟩ := a
    obtain ⟨-, -, rfl⟩ := alloc_spec hal
    rw [hal] at hs
    simp only at hs
    cases hal' : Table.alloc (Function.update s.table k { s.table k with ref := 1 }) with
    | some b =>
      rw [hal'] at hs
      cases hs
    | none =>
      intro hzero'
      have hi' := alloc_none hal' hi
      have hj' := alloc_none hal' hj
      by_cases hik : i = k
      · rw [Function.update_of_ne (fun hjk => hij (hik.trans hjk.symm))] at hj'
        exact hj' hzero'
      · rw [Function.update_of_ne hik] at hi'
        exact hi' hzero

/-- The first free descriptors of a new pipe. -/
theorem allocPipe_slots {e : System.Ends} (hs : s.allocPipe = some (.inl e)) :
    e.fileRead < maxFileNum ∧ e.fileWrite < maxFileNum := by
  rw [System.allocPipe] at hs
  cases hal : s.table.alloc with
  | none =>
    rw [hal] at hs
    cases hs
  | some a =>
    obtain ⟨i, t⟩ := a
    rw [hal] at hs
    simp only at hs
    cases hal' : Table.alloc t with
    | none =>
      rw [hal'] at hs
      obtain ⟨r, -, hr⟩ := Option.map_eq_some_iff.mp hs
      cases hr
    | some b =>
      obtain ⟨j, t'⟩ := b
      rw [hal'] at hs
      obtain rfl := Sum.inl.inj (Option.some.inj hs)
      exact ⟨(alloc_spec hal).1, (alloc_spec hal').1⟩

theorem allocated_refers {e : System.Ends} (ha : Allocated s e) :
    Refers e.state s.pipeCount e.fileRead ∧ Refers e.state s.pipeCount e.fileWrite := by
  rw [Refers, Refers, ha.reader, ha.writer]
  exact ⟨rfl, rfl⟩

/-- The system with its new pipe. -/
theorem allocated_alive {e : System.Ends} (ha : Allocated s e) (h : Alive s) : Alive e.state := by
  have hold : ∀ i q, q < s.pipeCount → Refers s q i → Refers e.state q i := by
    intro i q hq hi
    have hpos := (pipeOf_some hi).1
    rw [Refers, ha.other i]
    · exact hi
    · rintro rfl
      have := ha.zero.1
      omega
    · rintro rfl
      have := ha.zero.2
      omega
  refine ⟨fun i q hq => ?_, fun q hq => ?_, fun q hq => ?_⟩
  · rw [ha.pipeCount]
    by_cases hr : i = e.fileRead
    · rw [hr, (allocated_refers ha).1] at hq
      exact ⟨s.pipeCount, Nat.lt_succ_self _, (Option.some.inj hq).symm⟩
    by_cases hw : i = e.fileWrite
    · rw [hw, (allocated_refers ha).2] at hq
      exact ⟨s.pipeCount, Nat.lt_succ_self _, (Option.some.inj hq).symm⟩
    · rw [ha.other i hr hw] at hq
      obtain ⟨n, hn, hqn⟩ := h.known i q hq
      exact ⟨n, Nat.lt_succ_of_lt hn, hqn⟩
  · rw [ha.pipeCount] at hq
    rcases Nat.lt_succ_iff_lt_or_eq.mp hq with hlt | rfl
    · obtain ⟨i, j, hij, hi, hj⟩ := h.ends q hlt
      exact ⟨i, j, hij, hold i q hlt hi, hold j q hlt hj⟩
    · exact ⟨_, _, ha.different, (allocated_refers ha).1, (allocated_refers ha).2⟩
  · rw [ha.pipeCount] at hq
    rw [ha.pipes]
    rcases Nat.lt_succ_iff_lt_or_eq.mp hq with hlt | rfl
    · rw [Function.update_of_ne (Nat.ne_of_lt hlt)]
      exact h.whole q hlt
    · rw [Function.update_self]

/-- The failure path gives the new pipe back twice. -/
theorem failed_lost {e : System.Ends} (ha : Allocated s e) {r : System.Result}
    (hs : System.failed e = some r) : ¬ Lifetimes r.state := by
  rw [System.failed] at hs
  cases hfirst : e.state.closeFile e.fileRead with
  | none =>
    rw [hfirst] at hs
    cases hs
  | some a =>
    obtain ⟨b, s₁⟩ := a
    rw [hfirst] at hs
    simp only at hs
    obtain ⟨hcount₁, htable₁, hpipes₁⟩ := closeFile_last hfirst (allocated_refers ha).1 (by rw [ha.reader]; rfl)
    have hwriter : s₁.table e.fileWrite = File.init .pipe none (some s.pipeCount) false true := by
      rw [htable₁ _ ha.different.symm, ha.writer]
    cases hsecond : s₁.closeFile e.fileWrite with
    | none =>
      rw [hsecond] at hs
      cases hs
    | some a =>
      obtain ⟨b', s₂⟩ := a
      rw [hsecond] at hs
      obtain rfl := Option.some.inj hs
      obtain ⟨hcount₂, -, hpipes₂⟩ := @closeFile_last _ _ _ s.pipeCount _ hsecond
        (by rw [Refers, hwriter]; rfl) (by rw [hwriter]; rfl)
      apply @lost_twice s₂ s.pipeCount
      · rw [hcount₂, hcount₁, ha.pipeCount]
        exact Nat.lt_succ_self _
      · rw [hpipes₂, Function.update_self, giveBack_returned, close_returned, hpipes₁,
          Function.update_self, giveBack_returned, close_returned]
        omega

theorem doPipe_settled (h : Alive s) (hc : Counted s g) (hrun : (s.procs p).phase = .running)
    {r : System.Result} (hs : s.doPipe p = some r) : Settled s (.doPipe p) r := by
  rw [System.doPipe] at hs
  rcases allocPipe_spec hc with hnone | ⟨e, hsome, ha⟩
  · rw [hnone] at hs
    obtain rfl := Option.some.inj hs
    left
    refine ⟨?_, h⟩
    rintro ⟨i, hi, j, hj, hij, hzero, hzero'⟩
    exact absurd hzero' (allocPipe_full hnone hi hj hij hzero)
  have hslots := allocPipe_slots hsome
  have hfree : ∃ i < maxFileNum, ∃ j < maxFileNum, i ≠ j ∧ (s.table i).ref = 0 ∧ (s.table j).ref = 0 :=
    ⟨_, hslots.1, _, hslots.2, ha.different, ha.zero.1, ha.zero.2⟩
  have hrun' : (e.state.procs p).phase = .running := by
    rw [ha.procs]
    exact hrun
  rw [hsome] at hs
  simp only at hs
  cases hfd : (e.state.procs p).allocFd e.fileRead with
  | none =>
    rw [hfd] at hs
    right
    refine ⟨fun hkeeps => ?_, failed_lost ha hs⟩
    obtain ⟨k, hk, -, -, -, hnone, -⟩ := hkeeps hfree
    rw [ha.procs] at hfd
    exact allocFd_none hfd hk hnone
  | some y =>
    obtain ⟨fd, x⟩ := y
    obtain ⟨-, hfdlt, hfdnone, rfl, -⟩ := held_allocFd hrun' hfd
    rw [ha.procs] at hfdnone
    rw [hfd] at hs
    simp only at hs
    split at hs
    next hfd' =>
      right
      have hback := freeFd_allocFd (by rw [ha.procs]; exact hrun) hfd
      rw [hback, System.setProc, Function.update_eq_self] at hs
      refine ⟨fun hkeeps => ?_, failed_lost ha hs⟩
      obtain ⟨k, hk, l, hl, hkl, hknone, hlnone⟩ := hkeeps hfree
      have hk' := allocFd_none hfd' hk
      have hl' := allocFd_none hfd' hl
      simp only [ha.procs] at hk' hl'
      by_cases hkfd : k = fd
      · rw [Function.update_of_ne (fun hlfd => hkl (hkfd.trans hlfd.symm))] at hl'
        exact hl' hlnone
      · rw [Function.update_of_ne hkfd] at hk'
        exact hk' hknone
    next fd' x hfd' =>
      obtain rfl := Option.some.inj hs
      obtain ⟨-, hlt', hnone', -, -⟩ := @held_allocFd
        ⟨Function.update (e.state.procs p).files fd (some e.fileRead), (e.state.procs p).phase⟩
        x fd' e.fileWrite hrun' hfd'
      have hne : fd' ≠ fd := by
        rintro rfl
        simp only [Function.update_self] at hnone'
        cases hnone'
      simp only [Function.update_of_ne hne, ha.procs] at hnone'
      left
      exact ⟨fun _ => ⟨fd, hfdlt, fd', hlt', hne.symm, hfdnone, hnone'⟩,
        (allocated_alive ha h).frame rfl rfl (fun _ => rfl)⟩

/-- One step. -/
theorem step_settled (h : Alive s) (hc : Counted s g) {e : Event} (he : Enabled s e)
    {r : System.Result} (hs : perform s e = some r) : Settled s e r := by
  cases e with
  | doOpen p inode refused readable writeable => exact Or.inl ⟨trivial, doOpen_kept h hc hs⟩
  | doPipe p => exact doPipe_settled h hc he.2 hs
  | doDup p fd => exact Or.inl ⟨trivial, doDup_kept h hs⟩
  | doClose p fd => exact doClose_settled h hs
  | doRead p fd =>
    obtain rfl := Option.some.inj hs
    exact Or.inl ⟨trivial, h⟩
  | doWrite p fd =>
    obtain rfl := Option.some.inj hs
    exact Or.inl ⟨trivial, h⟩
  | fork p =>
    obtain ⟨a, ha, rfl⟩ := Option.map_eq_some_iff.mp hs
    exact Or.inl ⟨trivial, h.frame rfl rfl (copyFiles_pipeOf ha)⟩
  | exit p =>
    obtain rfl := Option.some.inj hs
    exact Or.inl ⟨trivial, h.frame rfl rfl (fun _ => rfl)⟩
  | exitClose p k => exact exitClose_settled h hc he.1 he.2.1 he.2.2 hs
  | exited p =>
    obtain rfl := Option.some.inj hs
    exact Or.inl ⟨trivial, h.frame rfl rfl (fun _ => rfl)⟩

theorem run_alive (h : Run Keeps s g) : Alive s := by
  induction h with
  | start hs =>
    refine ⟨fun i q hq => ?_, fun q hq => ?_, fun q hq => ?_⟩
    · rw [pipeOf_zero (hs.table i).1] at hq
      cases hq
    · rw [hs.pipes] at hq
      cases hq
    · rw [hs.pipes] at hq
      cases hq
  | step hrun he hkeeps hs ih =>
    rcases step_settled ih (run_counted hrun) he hs with ⟨-, halive⟩ | ⟨hbroken, -⟩
    · exact halive
    · exact absurd hkeeps hbroken

/-- Every pipe has its lifetime as long as the steps meet the condition, and loses it with
the first step that does not. -/
theorem pipes_run (h : Run Keeps s g) : Lifetimes s ∧
    ∀ e r, Enabled s e → perform s e = some r → (Lifetimes r.state ↔ Keeps s e) := by
  have halive := run_alive h
  refine ⟨halive.lifetimes, fun e r he hs => ?_⟩
  rcases step_settled halive (run_counted h) he hs with ⟨hkeeps, hafter⟩ | ⟨hbroken, hlost⟩
  · exact ⟨fun _ => hkeeps, fun _ => hafter.lifetimes⟩
  · exact ⟨fun hc => absurd hc hlost, fun hc => absurd hc hbroken⟩

end Steps

theorem blank_keeps : Keeps blank (.doPipe 0) :=
  fun _ => ⟨0, by decide, 1, by decide, by decide, rfl, rfl⟩

/-- A process makes a pipe and forks. -/
theorem pipes_run_shared : ∃ s g, Run Keeps s g ∧ s.pipeCount = 1 ∧ Lifetimes s := by
  have hpipe : (perform blank (.doPipe 0)).map
      (fun r => (r.state.count, (r.state.procs 0).phase,
        (perform r.state (.fork 0)).map fun r => r.state.pipeCount)) = some (1, .running, some 1) := by
    decide +kernel
  obtain ⟨r₁, hr₁, hsee⟩ := Option.map_eq_some_iff.mp hpipe
  obtain ⟨hcount, hsee⟩ := Prod.mk.inj hsee
  obtain ⟨hphase, hfork⟩ := Prod.mk.inj hsee
  obtain ⟨r₂, hr₂, hone⟩ := Option.map_eq_some_iff.mp hfork
  have h₀ : Run Keeps blank ⟨fun _ => 0, fun _ => 0⟩ := Run.start blank_start
  have h₁ := h₀.step (e := .doPipe 0) ⟨by decide, rfl⟩ blank_keeps hr₁
  have h₂ := h₁.step (e := .fork 0) ⟨by rw [hcount]; exact Nat.one_pos, hphase⟩ trivial hr₂
  exact ⟨_, _, h₂, hone, (pipes_run h₂).1⟩

/-- `pipe()` and `close(fd[0])`: the pipe is in the cache while its write end is open. -/
theorem pipe_given_early : ∃ s g, Run (fun _ _ => True) s g ∧
    ∃ q < s.pipeCount, (s.pipes q).returned = 1 ∧ (∃ i, Refers s q i) ∧ ¬ Lifetime s q := by
  have hpipe : (perform blank (.doPipe 0)).map
      (fun r => (r.state.count, (r.state.procs 0).phase,
        (perform r.state (.doClose 0 0)).map fun r =>
          (r.state.pipeCount, (r.state.pipes 0).returned, decide (pipeOf (r.state.table 1) = some (some 0))))) =
      some (1, .running, some (1, 1, true)) := by
    decide +kernel
  obtain ⟨r₁, hr₁, hsee⟩ := Option.map_eq_some_iff.mp hpipe
  obtain ⟨hcount, hsee⟩ := Prod.mk.inj hsee
  obtain ⟨hphase, hclose⟩ := Prod.mk.inj hsee
  obtain ⟨r₂, hr₂, hsee⟩ := Option.map_eq_some_iff.mp hclose
  obtain ⟨hone, hsee⟩ := Prod.mk.inj hsee
  obtain ⟨hback, hopen⟩ := Prod.mk.inj hsee
  have h₀ : Run (fun _ _ => True) blank ⟨fun _ => 0, fun _ => 0⟩ := Run.start blank_start
  have h₁ := h₀.step (e := .doPipe 0) ⟨by decide, rfl⟩ trivial hr₁
  have h₂ := h₁.step (e := .doClose 0 0) ⟨by rw [hcount]; exact Nat.one_pos, hphase⟩ trivial hr₂
  have hopen := of_decide_eq_true hopen
  refine ⟨_, _, h₂, 0, by rw [hone]; exact Nat.one_pos, hback, ⟨1, hopen⟩, fun hlife => ?_⟩
  exact hlife.last (Or.inl (by rw [hback]; exact Nat.one_pos)) 1 hopen

end BabyOS.PipeLifetime

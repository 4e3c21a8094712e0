import BabyOS.FileTable
import BabyOS.RangeSums

/-!
# References to open files

The count of a slot is the number of descriptors that point to it. A process that
is exiting holds the descriptors that it has not come to yet.
-/

set_option autoImplicit false

namespace BabyOS.FileReferences
open BabyOS.FileTable BabyOS.RangeSums

/-- The first descriptor that the process still holds. -/
def firstHeld : Phase → ℕ
  | .running => 0
  | .exiting done => done
  | .zombie => maxOpenFile

def Holds (x : Process) (i fd : ℕ) : Prop := firstHeld x.phase ≤ fd ∧ x.files fd = some i

instance (x : Process) (i fd : ℕ) : Decidable (Holds x i fd) := inferInstanceAs (Decidable (_ ∧ _))

/-- The descriptors of a process that point to slot `i`. -/
def held (x : Process) (i : ℕ) : ℕ := ∑ fd ∈ Finset.range maxOpenFile, if Holds x i fd then 1 else 0

/-- The descriptors of all processes that point to slot `i`. -/
def entries (s : System) (i : ℕ) : ℕ := ∑ p ∈ Finset.range s.count, held (s.procs p) i

theorem count_one (i j : ℕ) : [i].count j = if j = i then 1 else 0 := by
  rw [List.count_singleton]
  by_cases hji : j = i
  · rw [if_pos hji, hji, if_pos (beq_self_eq_true i)]
  · rw [if_neg hji, if_neg (by rw [beq_iff_eq]; exact Ne.symm hji)]

theorem count_two (i k j : ℕ) :
    [i, k].count j = (if j = i then 1 else 0)+if j = k then 1 else 0 := by
  rw [← List.singleton_append, List.count_append, count_one, count_one]

/-- What a state of a run has to satisfy. A slot is initialised as often as its object
is released, and once more while it is in use. -/
structure Counted (s : System) (g : History) : Prop where
  ref : ∀ i, (s.table i).ref = entries s i
  free : ∀ i, (s.table i).ref = 0 → (s.table i).type = .none
  used : ∀ i, 0 < (s.table i).ref → (s.table i).type ≠ .none
  once : ∀ i, g.opened i = g.released i+if 0 < (s.table i).ref then 1 else 0

section Sums

variable {s s' : System} {p i : ℕ} {x : Process}

/-- One process is replaced. -/
theorem entries_setProc (hp : p < s.count) (hprocs : s'.procs = Function.update s.procs p x)
    (hcount : s'.count = s.count) (i : ℕ) :
    entries s' i+held (s.procs p) i = entries s i+held x i := by
  have hsum := @sum_change _ _ hp (fun q => held (s.procs q) i)
    (fun q => held (Function.update s.procs p x q) i) (fun q _ hq => by rw [Function.update_of_ne hq])
  rw [Function.update_self] at hsum
  rw [entries, entries, hprocs, hcount]
  exact hsum

theorem entries_gain (hp : p < s.count) (hprocs : s'.procs = Function.update s.procs p x)
    (hcount : s'.count = s.count) {n : ℕ} (hheld : held x i = held (s.procs p) i+n) :
    entries s' i = entries s i+n := by
  have hsum := entries_setProc hp hprocs hcount i
  omega

theorem held_le_entries (hp : p < s.count) (i : ℕ) : held (s.procs p) i ≤ entries s i :=
  Finset.single_le_sum (f := fun q => held (s.procs q) i) (fun _ _ => Nat.zero_le _)
    (Finset.mem_range.mpr hp)

theorem one_le_held {fd : ℕ} (hfd : fd < maxOpenFile) (h : Holds x i fd) : 1 ≤ held x i := by
  have hle := Finset.single_le_sum (f := fun fd => if Holds x i fd then 1 else 0)
    (fun _ _ => Nat.zero_le _) (Finset.mem_range.mpr hfd)
  rw [if_pos h] at hle
  rw [held]
  exact hle

/-- One descriptor changes. -/
theorem held_change {x' : Process} {fd : ℕ} (hfd : fd < maxOpenFile)
    (h : ∀ k, k ≠ fd → (Holds x' i k ↔ Holds x i k)) :
    held x' i+(if Holds x i fd then 1 else 0) = held x i+if Holds x' i fd then 1 else 0 := by
  rw [held, held]
  exact @sum_change _ _ hfd (fun fd => if Holds x i fd then 1 else 0)
    (fun fd => if Holds x' i fd then 1 else 0) (fun k _ hk => if_congr (h k hk) rfl rfl)

/-- A free descriptor of a running process gets slot `j`. -/
theorem held_allocFd {x' : Process} {fd j : ℕ} (hx : x.phase = .running)
    (hs : x.allocFd j = some (fd, x')) :
    x'.phase = .running ∧ fd < maxOpenFile ∧ x.files fd = none ∧ x' = { x with
      files := Function.update x.files fd (some j) } ∧
    ∀ i, held x' i = held x i+if i = j then 1 else 0 := by
  rw [Process.allocFd] at hs
  split at hs
  · cases hs
  next k hk =>
  obtain ⟨rfl, rfl⟩ := Prod.mk.inj (Option.some.inj hs)
  have hlt := List.mem_range.mp (List.mem_of_find?_eq_some hk)
  have hnone : x.files k = none := by simpa using List.find?_some hk
  refine ⟨hx, hlt, hnone, rfl, fun i => ?_⟩
  have hold : ¬ Holds x i k := by
    intro hc
    rw [hc.2] at hnone
    cases hnone
  have hnew : Holds { x with files := Function.update x.files k (some j) } i k ↔ i = j := by
    simp only [Holds, Function.update_self, hx, firstHeld, Nat.zero_le, true_and, Option.some.injEq]
    exact eq_comm
  have hsum := @held_change i x { x with files := Function.update x.files k (some j) } k hlt
    (fun q hq => by simp only [Holds, Function.update_of_ne hq])
  rw [if_neg hold, Nat.add_zero] at hsum
  rw [hsum]
  exact congrArg (held x i + ·) (if_congr hnew rfl rfl)

/-- A descriptor of a running process is given up. -/
theorem held_freeFd {fd : ℕ} {j : ℕ} (hx : x.phase = .running) (hfd : fd < maxOpenFile)
    (hj : x.files fd = some j) (i : ℕ) :
    held (x.freeFd fd) i+(if i = j then 1 else 0) = held x i := by
  have hrange : (0 : ℤ) ≤ fd ∧ (fd : ℤ) < maxOpenFile := ⟨by omega, by omega⟩
  have hold : Holds x i fd ↔ i = j := by
    simp only [Holds, hj, hx, firstHeld, Nat.zero_le, true_and, Option.some.injEq]
    exact eq_comm
  have hnew : ¬ Holds (x.freeFd fd) i fd := by
    intro hc
    rw [Process.freeFd, if_pos hrange] at hc
    simp [Holds] at hc
  have hsum := @held_change i x (x.freeFd fd) fd hfd (fun q hq => by
    rw [Process.freeFd, if_pos hrange]
    simp only [Holds, Int.toNat_natCast, Function.update_of_ne hq])
  rw [if_neg hnew, Nat.add_zero] at hsum
  rw [← hsum]
  exact congrArg (held (x.freeFd fd) i + ·) (if_congr hold.symm rfl rfl)

end Sums

attribute [irreducible] held entries

/-! ## The table -/

section Tables

variable {t t' : Table} {i : ℕ}

theorem alloc_spec (h : t.alloc = some (i, t')) :
    i < maxFileNum ∧ (t i).ref = 0 ∧ t' = Function.update t i { t i with ref := 1 } := by
  rw [Table.alloc] at h
  split at h
  · cases h
  next k hk =>
  obtain ⟨rfl, rfl⟩ := Prod.mk.inj (Option.some.inj h)
  exact ⟨List.mem_range.mp (List.mem_of_find?_eq_some hk), by simpa using List.find?_some hk, rfl⟩

/-- Freeing a slot that is in use: the last reference clears the type. -/
theorem free_spec (h : 0 < (t i).ref) :
    t.free i = if (t i).ref = 1 then
        some (some { t i with ref := 0 }, Function.update t i { t i with ref := 0, type := .none })
      else some (none, Function.update t i { t i with ref := (t i).ref-1 }) := by
  rw [Table.free, if_neg (by omega)]
  by_cases hone : (t i).ref = 1
  · rw [if_neg (by omega), if_pos hone, hone]
  · rw [if_pos (by omega), if_neg hone]

/-- A slot that was taken and not initialised goes back as it was. -/
theorem free_blank (href : (t i).ref = 0) (htype : (t i).type = .none) :
    Table.free (Function.update t i { t i with ref := 1 }) i = some (some { t i with ref := 0 }, t) := by
  have hback : Function.update (Function.update t i { t i with ref := 1 }) i
      { t i with ref := 0, type := .none } = t := by
    rw [Function.update_idem, ← href, ← htype]
    exact Function.update_eq_self i t
  rw [free_spec (by simp)]
  simp only [Function.update_self, if_true, hback]

end Tables

section Close

variable {s : System} {i : ℕ}

/-- What closing a slot does to the table. -/
structure Closed (s : System) (i : ℕ) (released : Bool) (s' : System) : Prop where
  procs : s'.procs = s.procs
  count : s'.count = s.count
  ref : ∀ j, (s'.table j).ref+(if j = i then 1 else 0) = (s.table j).ref
  type : ∀ j, (s'.table j).type = if j = i ∧ (s.table i).ref = 1 then .none else (s.table j).type
  released : released = true ↔ (s.table i).ref = 1 ∧ (s.table i).type ≠ .none

theorem releaseObject_frame (s : System) (f : File) :
    s.releaseObject f = { s with pipes := (s.releaseObject f).pipes } := by
  rw [System.releaseObject]
  split <;> rfl

theorem closeFile_spec (h : 0 < (s.table i).ref) :
    ∃ b s', s.closeFile i = some (b, s') ∧ Closed s i b s' := by
  rw [System.closeFile, free_spec h]
  by_cases hone : (s.table i).ref = 1
  · rw [if_pos hone]
    refine ⟨_, _, rfl, ?_⟩
    rw [releaseObject_frame]
    refine ⟨rfl, rfl, fun j => ?_, fun j => ?_, ?_⟩
    · by_cases hj : j = i
      · subst hj
        simp [hone]
      · simp [hj]
    · by_cases hj : j = i
      · subst hj
        simp [hone]
      · simp [hj]
    · simp [hone]
  · rw [if_neg hone]
    refine ⟨false, _, rfl, rfl, rfl, fun j => ?_, fun j => ?_, ?_⟩
    · by_cases hj : j = i
      · subst hj
        simp only [Function.update_self, if_true]
        omega
      · simp [hj]
    · by_cases hj : j = i
      · subst hj
        simp [hone]
      · simp [hj]
    · simp [hone]

end Close

/-! ## The calls -/

section Steps

variable {s : System} {g : History} {p : ℕ}

/-- The invariant after a step that neither opens nor releases anything. -/
theorem counted_quiet {s' : System} (h : Counted s g) (href : ∀ i, (s'.table i).ref = entries s' i)
    (hpos : ∀ i, 0 < (s'.table i).ref ↔ 0 < (s.table i).ref)
    (htype : ∀ i, (s'.table i).type = (s.table i).type) : Counted s' (g.next ⟨[], [], s'⟩) := by
  refine ⟨href, fun i hi => ?_, fun i hi => ?_, fun i => ?_⟩
  · rw [htype]
    apply h.free
    by_contra hne
    have := (hpos i).mpr (Nat.pos_of_ne_zero hne)
    omega
  · rw [htype]
    exact h.used i ((hpos i).mp hi)
  · have honce := h.once i
    simp only [History.next, List.count_nil, Nat.add_zero, hpos i]
    exact honce

theorem counted_same (h : Counted s g) : Counted s (g.next ⟨[], [], s⟩) :=
  counted_quiet h h.ref (fun _ => Iff.rfl) (fun _ => rfl)

/-- A descriptor less and a reference less. -/
theorem counted_closed {s' : System} {i : ℕ} {b : Bool} {s₀ : System} (h : Counted s g)
    (htable : s₀.table = s.table) (hentries : ∀ j, entries s₀ j+(if j = i then 1 else 0) = entries s j)
    (hc : Closed s₀ i b s') : Counted s' (g.next ⟨[], if b then [i] else [], s'⟩) := by
  have hclosed := hc.ref
  have htypes := hc.type
  have hflag := hc.released
  rw [htable] at hclosed htypes hflag
  have hsame : ∀ j, entries s' j = entries s₀ j := by
    intro j
    rw [entries, entries, hc.procs, hc.count]
  refine ⟨fun j => ?_, fun j hj => ?_, fun j hj => ?_, fun j => ?_⟩
  · have h₁ := hclosed j
    have h₂ := hentries j
    have h₃ := h.ref j
    rw [hsame]
    omega
  · have h₁ := hclosed j
    rw [htypes]
    by_cases hji : j = i
    · subst hji
      rw [if_pos rfl, hj] at h₁
      rw [if_pos ⟨rfl, h₁.symm⟩]
    · rw [if_neg hji, hj] at h₁
      rw [if_neg (fun hcond => hji hcond.1)]
      exact h.free j h₁.symm
  · have h₁ := hclosed j
    rw [htypes]
    by_cases hji : j = i
    · subst hji
      rw [if_pos rfl] at h₁
      rw [if_neg (fun hcond => by omega)]
      exact h.used j (by omega)
    · rw [if_neg hji] at h₁
      rw [if_neg (fun hcond => hji hcond.1)]
      exact h.used j (by omega)
  · have h₁ := hclosed j
    have honce := h.once j
    change g.opened j+List.count j [] = g.released j+List.count j (if b then [i] else [])+_
    rw [List.count_nil]
    by_cases hji : j = i
    · subst hji
      rw [if_pos rfl] at h₁
      cases b with
      | true =>
        obtain ⟨hone, -⟩ := hflag.mp rfl
        rw [if_pos rfl, List.count_singleton_self]
        rw [hone] at honce h₁
        rw [if_pos (by omega)] at honce
        rw [if_neg (by omega)]
        omega
      | false =>
        have hmany : (s.table j).ref ≠ 1 := by
          intro hone
          have := hflag.mpr ⟨hone, h.used j (by omega)⟩
          cases this
        rw [if_neg (by decide), List.count_nil]
        rw [if_pos (by omega)] at honce
        rw [if_pos (by omega)]
        omega
    · rw [if_neg hji] at h₁
      have hnone : List.count j (if b then [i] else []) = 0 := by
        rw [List.count_eq_zero]
        split
        · exact fun hin => hji (List.mem_singleton.mp hin)
        · exact List.not_mem_nil
      rw [hnone]
      simp only [Nat.add_zero] at h₁
      rw [h₁]
      omega

/-- Slots that were free are initialised, and a descriptor points to each. -/
theorem counted_opened {s' : System} {new : List ℕ} (h : Counted s g) (hnew : new.Nodup)
    (hzero : ∀ i ∈ new, (s.table i).ref = 0)
    (href : ∀ i, (s'.table i).ref = (s.table i).ref+new.count i)
    (htype : ∀ i ∈ new, (s'.table i).type ≠ .none)
    (hother : ∀ i, i ∉ new → (s'.table i).type = (s.table i).type)
    (hentries : ∀ i, entries s' i = entries s i+new.count i) : Counted s' (g.next ⟨new, [], s'⟩) := by
  refine ⟨fun i => ?_, fun i hi => ?_, fun i hi => ?_, fun i => ?_⟩
  · rw [href, hentries, h.ref]
  · have hnot : i ∉ new := by
      intro hin
      have := List.count_pos_iff.mpr hin
      rw [href] at hi
      omega
    rw [hother i hnot]
    apply h.free
    rw [href] at hi
    omega
  · by_cases hin : i ∈ new
    · exact htype i hin
    · rw [hother i hin]
      apply h.used
      rw [href, List.count_eq_zero.mpr hin] at hi
      exact hi
  · change g.opened i+new.count i = g.released i+List.count i []+if 0 < (s'.table i).ref then 1 else 0
    have honce := h.once i
    rw [href, List.count_nil]
    by_cases hin : i ∈ new
    · rw [hzero i hin] at honce ⊢
      rw [if_neg (by decide)] at honce
      rw [List.count_eq_one_of_mem hnew hin, if_pos (by decide)]
      omega
    · rw [List.count_eq_zero.mpr hin]
      simp only [Nat.add_zero]
      exact honce

/-- Slots that were free are initialised and closed again. -/
theorem counted_failed {s' : System} {new old : List ℕ} (h : Counted s g)
    (hcount : ∀ i, new.count i = old.count i) (hzero : ∀ i ∈ new, (s.table i).ref = 0)
    (href : ∀ i, (s'.table i).ref = (s.table i).ref) (htype : ∀ i ∈ new, (s'.table i).type = .none)
    (hother : ∀ i, i ∉ new → (s'.table i).type = (s.table i).type)
    (hentries : ∀ i, entries s' i = entries s i) : Counted s' (g.next ⟨new, old, s'⟩) := by
  refine ⟨fun i => ?_, fun i hi => ?_, fun i hi => ?_, fun i => ?_⟩
  · rw [href, hentries, h.ref]
  · by_cases hin : i ∈ new
    · exact htype i hin
    · rw [hother i hin]
      exact h.free i (by rw [← href]; exact hi)
  · by_cases hin : i ∈ new
    · rw [href, hzero i hin] at hi
      cases hi
    · rw [hother i hin]
      exact h.used i (by rw [← href]; exact hi)
  · change g.opened i+new.count i = g.released i+old.count i+if 0 < (s'.table i).ref then 1 else 0
    have honce := h.once i
    rw [href, hcount]
    omega

theorem doOpen_counted (h : Counted s g) (hp : p < s.count) (hrun : (s.procs p).phase = .running)
    (inode : ℕ) (refused readable writeable : Bool) :
    ∃ r, s.doOpen p inode refused readable writeable = some r ∧ Counted r.state (g.next r) := by
  rw [System.doOpen]
  split
  · exact ⟨_, rfl, counted_same h⟩
  cases hal : s.table.alloc with
  | none => exact ⟨_, rfl, counted_same h⟩
  | some r =>
    obtain ⟨i, t⟩ := r
    obtain ⟨-, hzero, rfl⟩ := alloc_spec hal
    have htype := h.free i hzero
    cases hfd : (s.procs p).allocFd i with
    | none =>
      simp only [hfd]
      refine ⟨⟨[], [], s⟩, ?_, counted_same h⟩
      rw [System.close, System.closeFile, free_blank hzero htype]
      simp only [System.releaseObject, htype]
      rfl
    | some r =>
      obtain ⟨fd, x⟩ := r
      simp only [hfd]
      obtain ⟨-, -, -, -, hheld⟩ := held_allocFd hrun hfd
      refine ⟨_, rfl, counted_opened h (List.nodup_singleton i) ?_ ?_ ?_ ?_ ?_⟩
      · intro j hj
        rw [List.mem_singleton.mp hj]
        exact hzero
      · intro j
        rw [count_one]
        simp only [Function.update_apply]
        by_cases hji : j = i
        · rw [if_pos hji, if_pos hji, hji, hzero]
          rfl
        · rw [if_neg hji, if_neg hji, if_neg hji, Nat.add_zero]
      · intro j hj
        rw [List.mem_singleton.mp hj]
        simp only [Function.update_self]
        exact fun hc => nomatch hc
      · intro j hj
        have hji : j ≠ i := fun hc => hj (List.mem_singleton.mpr hc)
        simp only [Function.update_of_ne hji]
      · intro j
        refine entries_gain hp (by rfl) (by rfl) ?_
        rw [hheld j, count_one]

/-- The slots of a new pipe. -/
structure Allocated (s : System) (e : System.Ends) : Prop where
  different : e.fileRead ≠ e.fileWrite
  zero : (s.table e.fileRead).ref = 0 ∧ (s.table e.fileWrite).ref = 0
  procs : e.state.procs = s.procs
  count : e.state.count = s.count
  reader : e.state.table e.fileRead = File.init .pipe none (some s.pipeCount) true false
  writer : e.state.table e.fileWrite = File.init .pipe none (some s.pipeCount) false true
  other : ∀ i, i ≠ e.fileRead → i ≠ e.fileWrite → e.state.table i = s.table i
  pipes : e.state.pipes = Function.update s.pipes s.pipeCount .init
  pipeCount : e.state.pipeCount = s.pipeCount+1

theorem allocPipe_spec (h : Counted s g) :
    s.allocPipe = some (.inr ⟨[], [], s⟩) ∨ ∃ e, s.allocPipe = some (.inl e) ∧ Allocated s e := by
  rw [System.allocPipe]
  cases hal : s.table.alloc with
  | none => exact Or.inl rfl
  | some r =>
    obtain ⟨i, t⟩ := r
    obtain ⟨-, hzero, rfl⟩ := alloc_spec hal
    have htype := h.free i hzero
    simp only
    cases hal' : Table.alloc (Function.update s.table i { s.table i with ref := 1 }) with
    | none =>
      left
      simp only
      rw [System.close, System.closeFile, free_blank hzero htype]
      simp only [System.releaseObject, htype]
      rfl
    | some r =>
      obtain ⟨j, t⟩ := r
      obtain ⟨-, hzero', rfl⟩ := alloc_spec hal'
      right
      have hji : j ≠ i := by
        rintro rfl
        rw [Function.update_self] at hzero'
        cases hzero'
      rw [Function.update_of_ne hji] at hzero'
      refine ⟨_, rfl, hji.symm, ⟨hzero, hzero'⟩, rfl, rfl, ?_, ?_, fun k hk hk' => ?_, rfl, rfl⟩
      · simp only [Function.update_of_ne hji.symm, Function.update_self]
      · simp only [Function.update_self]
      · simp only [Function.update_of_ne hk, Function.update_of_ne hk']

theorem Allocated.refs {e : System.Ends} (ha : Allocated s e) (i : ℕ) :
    (e.state.table i).ref = (s.table i).ref+[e.fileRead, e.fileWrite].count i := by
  rw [count_two]
  by_cases hr : i = e.fileRead
  · subst hr
    rw [ha.reader, ha.zero.1, if_pos rfl, if_neg ha.different]
    rfl
  by_cases hw : i = e.fileWrite
  · subst hw
    rw [ha.writer, ha.zero.2, if_pos rfl, if_neg (Ne.symm ha.different)]
    rfl
  · rw [ha.other i hr hw, if_neg hr, if_neg hw]
    rfl

/-- Both slots are closed again, and both times the pipe goes back to the cache. -/
theorem failed_counted (h : Counted s g) {e : System.Ends} (ha : Allocated s e) :
    ∃ r, System.failed e = some r ∧ Counted r.state (g.next r) ∧
      r.released = [e.fileRead, e.fileWrite] := by
  have hread : 0 < (e.state.table e.fileRead).ref := by rw [ha.reader]; exact Nat.one_pos
  obtain ⟨b, s₁, hs₁, hc₁⟩ := closeFile_spec hread
  have hwrite : 0 < (s₁.table e.fileWrite).ref := by
    have := hc₁.ref e.fileWrite
    rw [if_neg ha.different.symm, ha.writer] at this
    rw [Nat.add_zero] at this
    rw [this]
    exact Nat.one_pos
  obtain ⟨b', s₂, hs₂, hc₂⟩ := closeFile_spec hwrite
  have hfirst : b = true := hc₁.released.mpr ⟨by rw [ha.reader]; rfl, by rw [ha.reader]; exact fun hc => nomatch hc⟩
  have hwtype : (s₁.table e.fileWrite).type = .pipe ∧ (s₁.table e.fileWrite).ref = 1 := by
    have hr := hc₁.ref e.fileWrite
    have ht := hc₁.type e.fileWrite
    rw [if_neg (fun hcond => ha.different hcond.1.symm), ha.writer] at ht
    rw [if_neg ha.different.symm, ha.writer] at hr
    exact ⟨ht, hr⟩
  have hsecond : b' = true := hc₂.released.mpr ⟨hwtype.2, by rw [hwtype.1]; exact fun hc => nomatch hc⟩
  subst hfirst hsecond
  refine ⟨_, by rw [System.failed, hs₁]; simp only [hs₂]; rfl, ?_, rfl⟩
  refine counted_failed h (fun _ => rfl) ?_ (fun i => ?_) ?_ (fun i hi => ?_) (fun i => ?_)
  · intro i hi
    rcases List.mem_cons.mp hi with rfl | hi
    · exact ha.zero.1
    · rw [List.mem_singleton.mp hi]
      exact ha.zero.2
  · have h₁ := hc₁.ref i
    have h₂ := hc₂.ref i
    have h₀ := ha.refs i
    rw [count_two] at h₀
    change (s₂.table i).ref = (s.table i).ref
    omega
  · intro i hi
    change (s₂.table i).type = .none
    rw [hc₂.type, hc₁.type]
    rcases List.mem_cons.mp hi with rfl | hi
    · rw [if_neg (fun hcond => ha.different hcond.1), if_pos ⟨rfl, by rw [ha.reader]; rfl⟩]
    · rw [List.mem_singleton.mp hi, if_pos ⟨rfl, hwtype.2⟩]
  · rw [List.mem_cons, List.mem_singleton, not_or] at hi
    change (s₂.table i).type = (s.table i).type
    rw [hc₂.type, hc₁.type, if_neg (fun hcond => hi.2 hcond.1), if_neg (fun hcond => hi.1 hcond.1),
      ha.other i hi.1 hi.2]
  · change entries s₂ i = entries s i
    rw [entries, entries, hc₂.procs, hc₂.count, hc₁.procs, hc₁.count, ha.procs, ha.count]

/-- A descriptor that was taken and given back. -/
theorem freeFd_allocFd {x x' : Process} {fd file : ℕ} (hx : x.phase = .running)
    (hs : x.allocFd file = some (fd, x')) : x'.freeFd fd = x := by
  obtain ⟨-, hfd, hnone, rfl, -⟩ := held_allocFd hx hs
  have hrange : (0 : ℤ) ≤ fd ∧ (fd : ℤ) < maxOpenFile := ⟨by omega, by omega⟩
  have hback : Function.update x.files fd none = x.files := by
    rw [← hnone]
    exact Function.update_eq_self fd x.files
  rw [Process.freeFd, if_pos hrange]
  simp only [Int.toNat_natCast, Function.update_idem, hback]

theorem doPipe_counted (h : Counted s g) (hp : p < s.count) (hrun : (s.procs p).phase = .running) :
    ∃ r, s.doPipe p = some r ∧ Counted r.state (g.next r) := by
  rw [System.doPipe]
  rcases allocPipe_spec h with hnone | ⟨e, hsome, ha⟩
  · rw [hnone]
    exact ⟨_, rfl, counted_same h⟩
  · rw [hsome]
    have hrun' : (e.state.procs p).phase = .running := by
      rw [ha.procs]
      exact hrun
    obtain ⟨r, hr, hcounted, -⟩ := failed_counted h ha
    simp only
    cases hfd : (e.state.procs p).allocFd e.fileRead with
    | none => exact ⟨r, hr, hcounted⟩
    | some y =>
      obtain ⟨fd, x⟩ := y
      obtain ⟨hx, -, -, -, hheld⟩ := held_allocFd hrun' hfd
      simp only
      cases hfd' : x.allocFd e.fileWrite with
      | none =>
        simp only
        have hsame : e.state.setProc p (x.freeFd fd) = e.state := by
          rw [freeFd_allocFd hrun' hfd, System.setProc, Function.update_eq_self]
        rw [hsame]
        exact ⟨r, hr, hcounted⟩
      | some y =>
        obtain ⟨fd', x'⟩ := y
        obtain ⟨-, -, -, -, hheld'⟩ := held_allocFd hx hfd'
        have hnodup : [e.fileRead, e.fileWrite].Nodup := by
          rw [List.nodup_cons]
          exact ⟨fun hin => ha.different (List.mem_singleton.mp hin), List.nodup_singleton _⟩
        refine ⟨_, rfl, counted_opened h hnodup ?_ ha.refs ?_ (fun i hi => ?_) (fun i => ?_)⟩
        · intro i hi
          rcases List.mem_cons.mp hi with rfl | hi
          · exact ha.zero.1
          · rw [List.mem_singleton.mp hi]
            exact ha.zero.2
        · intro i hi
          change (e.state.table i).type ≠ .none
          rcases List.mem_cons.mp hi with rfl | hi
          · rw [ha.reader]
            exact fun hc => nomatch hc
          · rw [List.mem_singleton.mp hi, ha.writer]
            exact fun hc => nomatch hc
        · rw [List.mem_cons, List.mem_singleton, not_or] at hi
          change (e.state.table i).type = (s.table i).type
          rw [ha.other i hi.1 hi.2]
        · have hprocs : (e.state.setProc p x').procs = Function.update s.procs p x' := by
            rw [System.setProc, ha.procs]
          refine entries_gain hp hprocs ha.count ?_
          have h₁ := hheld i
          rw [ha.procs] at h₁
          rw [hheld' i, h₁, count_two, Nat.add_assoc]

theorem getFile_spec {x : Process} {fd : ℤ} {file : ℕ} (h : x.getFile fd = some file) :
    ∃ k : ℕ, fd = k ∧ k < maxOpenFile ∧ x.files k = some file := by
  rw [Process.getFile] at h
  split at h
  · cases h
  next hrange =>
    refine ⟨fd.toNat, by omega, by omega, h⟩

/-- A descriptor that a process holds points to a slot in use. -/
theorem ref_pos (h : Counted s g) (hp : p < s.count) {fd file : ℕ} (hfd : fd < maxOpenFile)
    (hh : Holds (s.procs p) file fd) : 0 < (s.table file).ref := by
  have h₁ := one_le_held hfd hh
  have h₂ := held_le_entries hp file
  have h₃ := h.ref file
  omega

theorem doDup_counted (h : Counted s g) (hp : p < s.count) (hrun : (s.procs p).phase = .running)
    (fd : ℤ) : ∃ r, s.doDup p fd = some r ∧ Counted r.state (g.next r) := by
  rw [System.doDup]
  cases hget : (s.procs p).getFile fd with
  | none => exact ⟨_, rfl, counted_same h⟩
  | some file =>
    obtain ⟨k, rfl, hk, hfile⟩ := getFile_spec hget
    simp only
    cases hal : (s.procs p).allocFd file with
    | none => exact ⟨_, rfl, counted_same h⟩
    | some y =>
      obtain ⟨fd', x⟩ := y
      obtain ⟨-, -, -, -, hheld⟩ := held_allocFd hrun hal
      have hpos : 0 < (s.table file).ref := ref_pos h hp hk ⟨by rw [hrun]; exact Nat.zero_le _, hfile⟩
      simp only
      rw [Table.dupFile, if_neg (by omega)]
      refine ⟨_, rfl, counted_quiet h (fun i => ?_) (fun i => ?_) (fun i => ?_)⟩
      · rw [entries_gain hp (by rfl) (by rfl) (hheld i)]
        have hr := h.ref i
        by_cases hi : i = file
        · subst hi
          simp only [Function.update_self, if_true]
          omega
        · simp only [Function.update_of_ne hi, if_neg hi]
          omega
      · by_cases hi : i = file
        · subst hi
          simp only [Function.update_self]
          omega
        · simp only [Function.update_of_ne hi]
      · by_cases hi : i = file
        · subst hi
          simp only [Function.update_self]
        · simp only [Function.update_of_ne hi]

theorem doClose_counted (h : Counted s g) (hp : p < s.count) (hrun : (s.procs p).phase = .running)
    (fd : ℤ) : ∃ r, s.doClose p fd = some r ∧ Counted r.state (g.next r) := by
  rw [System.doClose]
  cases hget : (s.procs p).getFile fd with
  | none => exact ⟨_, rfl, counted_same h⟩
  | some file =>
    obtain ⟨k, rfl, hk, hfile⟩ := getFile_spec hget
    have hpos : 0 < (s.table file).ref := ref_pos h hp hk ⟨by rw [hrun]; exact Nat.zero_le _, hfile⟩
    obtain ⟨b, s', hs', hc⟩ := @closeFile_spec (s.setProc p ((s.procs p).freeFd k)) file hpos
    simp only
    rw [System.close, hs']
    refine ⟨_, rfl, counted_closed h (by rfl) (fun j => ?_) hc⟩
    have hsum : entries (s.setProc p ((s.procs p).freeFd k)) j+held (s.procs p) j =
        entries s j+held ((s.procs p).freeFd k) j := entries_setProc hp (by rfl) (by rfl) j
    have hheld := held_freeFd hrun hk hfile j
    omega

/-! ## Fork -/

/-- The loop copies the descriptors, and counts each of them. -/
theorem copyFiles_spec {files : ℕ → Option ℕ} {t : Table}
    (huse : ∀ fd < maxOpenFile, ∀ file, files fd = some file → 0 < (t file).ref ∧ (t file).type ≠ .none)
    {k : ℕ} (hk : k ≤ maxOpenFile) :
    ∃ copied t', System.copyFiles files k t = some (copied, t') ∧
      (∀ fd, copied fd = if fd < k then files fd else none) ∧
      (∀ i, (t' i).ref = (t i).ref+∑ fd ∈ Finset.range k, if files fd = some i then 1 else 0) ∧
      ∀ i, (t' i).type = (t i).type := by
  induction k with
  | zero => exact ⟨fun _ => none, t, rfl, fun _ => rfl, fun _ => rfl, fun _ => rfl⟩
  | succ k ih =>
    obtain ⟨copied, t', hs, hcopied, href, htype⟩ := ih (by omega)
    rw [System.copyFiles, hs]
    simp only
    cases hfile : files k with
    | none =>
      refine ⟨copied, t', rfl, fun fd => ?_, fun i => ?_, htype⟩
      · rw [hcopied]
        by_cases hfd : fd = k
        · rw [hfd, if_neg (by omega), if_pos (by omega), hfile]
        · by_cases hlt : fd < k
          · rw [if_pos hlt, if_pos (by omega)]
          · rw [if_neg hlt, if_neg (by omega)]
      · rw [href, Finset.sum_range_succ, hfile, if_neg (fun hc => nomatch hc), Nat.add_zero]
    | some file =>
      obtain ⟨hpos, hsome⟩ := huse k (by omega) file hfile
      have hpos' : ¬ (t' file).ref < 1 := by
        rw [href]
        omega
      simp only
      rw [if_neg (by rw [htype]; exact hsome), Table.dupFile, if_neg hpos']
      refine ⟨_, _, rfl, fun fd => ?_, fun i => ?_, fun i => ?_⟩
      · rw [Function.update_apply, hcopied]
        by_cases hfd : fd = k
        · rw [if_pos hfd, hfd, if_pos (by omega), hfile]
        · rw [if_neg hfd]
          by_cases hlt : fd < k
          · rw [if_pos hlt, if_pos (by omega)]
          · rw [if_neg hlt, if_neg (by omega)]
      · rw [Finset.sum_range_succ, hfile, ← Nat.add_assoc, ← href]
        by_cases hi : i = file
        · subst hi
          rw [Function.update_self, if_pos rfl]
        · rw [Function.update_of_ne hi, if_neg (fun hc => hi (Option.some.inj hc).symm), Nat.add_zero]
      · rw [← htype]
        by_cases hi : i = file
        · subst hi
          rw [Function.update_self]
        · rw [Function.update_of_ne hi]

theorem fork_counted (h : Counted s g) (hp : p < s.count) (hrun : (s.procs p).phase = .running) :
    ∃ r, s.fork p = some r ∧ Counted r.state (g.next r) := by
  have huse : ∀ fd < maxOpenFile, ∀ file, (s.procs p).files fd = some file →
      0 < (s.table file).ref ∧ (s.table file).type ≠ .none := by
    intro fd hfd file hfile
    have hpos : 0 < (s.table file).ref := ref_pos h hp hfd ⟨by rw [hrun]; exact Nat.zero_le _, hfile⟩
    exact ⟨hpos, h.used file hpos⟩
  obtain ⟨copied, t', hs, hcopied, href, htype⟩ := copyFiles_spec huse le_rfl
  rw [System.fork, hs]
  have hentries : ∀ i, entries { s with
      table := t'
      procs := Function.update s.procs s.count ⟨copied, .running⟩
      count := s.count+1 } i = entries s i+
        ∑ fd ∈ Finset.range maxOpenFile, if (s.procs p).files fd = some i then 1 else 0 := by
    intro i
    rw [entries, entries, Finset.sum_range_succ]
    simp only [Function.update_self]
    have hold : ∑ q ∈ Finset.range s.count, held (Function.update s.procs s.count ⟨copied, .running⟩ q) i =
        ∑ q ∈ Finset.range s.count, held (s.procs q) i := by
      apply Finset.sum_congr rfl
      intro q hq
      rw [Function.update_of_ne (by have := Finset.mem_range.mp hq; omega)]
    have hnew : held ⟨copied, .running⟩ i =
        ∑ fd ∈ Finset.range maxOpenFile, if (s.procs p).files fd = some i then 1 else 0 := by
      rw [held]
      apply Finset.sum_congr rfl
      intro fd hfd
      simp only [Holds, firstHeld, Nat.zero_le, true_and, hcopied, Finset.mem_range.mp hfd, if_true]
    rw [hold, hnew]
  refine ⟨_, rfl, counted_quiet h (fun i => ?_) (fun i => ?_) htype⟩
  · change (t' i).ref = _
    rw [href, hentries, h.ref]
  · change 0 < (t' i).ref ↔ 0 < (s.table i).ref
    rw [href]
    constructor
    · intro hpos
      by_contra hzero
      have hnone : ∑ fd ∈ Finset.range maxOpenFile, (if (s.procs p).files fd = some i then 1 else 0) = 0 := by
        apply Finset.sum_eq_zero
        intro fd hfd
        rw [if_neg (fun hc => hzero (huse fd (Finset.mem_range.mp hfd) i hc).1)]
      omega
    · intro hpos
      omega

/-! ## Exit -/

/-- The phase changes, and what the process holds does not. -/
theorem phase_counted (h : Counted s g) (hp : p < s.count) {phase : Phase}
    (hsame : ∀ i, held { s.procs p with phase := phase } i = held (s.procs p) i) :
    Counted (s.setProc p { s.procs p with phase := phase })
      (g.next ⟨[], [], s.setProc p { s.procs p with phase := phase }⟩) := by
  refine counted_quiet h (fun i => ?_) (fun _ => Iff.rfl) (fun _ => rfl)
  have hsum : entries (s.setProc p { s.procs p with phase := phase }) i+held (s.procs p) i =
      entries s i+held { s.procs p with phase := phase } i := entries_setProc hp (by rfl) (by rfl) i
  have hr := h.ref i
  rw [hsame] at hsum
  change (s.table i).ref = _
  omega

theorem held_zombie (x : Process) (hx : firstHeld x.phase = maxOpenFile) (i : ℕ) : held x i = 0 := by
  rw [held]
  apply Finset.sum_eq_zero
  intro fd hfd
  have hlt := Finset.mem_range.mp hfd
  rw [if_neg]
  rintro ⟨hge, -⟩
  omega

/-- One descriptor more is behind. -/
theorem held_next {x : Process} {k : ℕ} (hx : x.phase = .exiting k) (hk : k < maxOpenFile) (i : ℕ) :
    held { x with phase := .exiting (k+1) } i+(if x.files k = some i then 1 else 0) = held x i := by
  have hnew : ¬ Holds { x with phase := .exiting (k+1) } i k := by
    rintro ⟨hge, -⟩
    change k+1 ≤ k at hge
    omega
  have hold : Holds x i k ↔ x.files k = some i := by
    simp only [Holds, hx, firstHeld, le_refl, true_and]
  have hsum := @held_change i x { x with phase := .exiting (k+1) } k hk (fun q hq => by
    simp only [Holds, hx, firstHeld]
    constructor
    · exact fun hc => ⟨by omega, hc.2⟩
    · exact fun hc => ⟨by omega, hc.2⟩)
  rw [if_neg hnew] at hsum
  by_cases hfile : x.files k = some i
  · rw [if_pos (hold.mpr hfile)] at hsum
    rw [if_pos hfile]
    exact hsum
  · rw [if_neg (fun hc => hfile (hold.mp hc))] at hsum
    rw [if_neg hfile]
    exact hsum

theorem exitClose_counted (h : Counted s g) (hp : p < s.count) {k : ℕ}
    (hphase : (s.procs p).phase = .exiting k) (hk : k < maxOpenFile) :
    ∃ r, s.exitClose p k = some r ∧ Counted r.state (g.next r) := by
  have hheld := held_next hphase hk
  rw [System.exitClose]
  cases hfile : (s.procs p).files k with
  | none =>
    refine ⟨_, rfl, phase_counted h hp (fun i => ?_)⟩
    have hi := hheld i
    rw [hfile, if_neg (fun hc => nomatch hc)] at hi
    exact hi
  | some file =>
    have hpos : 0 < (s.table file).ref :=
      ref_pos h hp hk ⟨by rw [hphase]; exact le_rfl, hfile⟩
    simp only
    rw [if_neg (h.used file hpos)]
    obtain ⟨b, s', hs', hc⟩ :=
      @closeFile_spec (s.setProc p { s.procs p with phase := .exiting (k+1) }) file hpos
    rw [System.close, hs']
    refine ⟨_, rfl, counted_closed h (by rfl) (fun j => ?_) hc⟩
    change entries (s.setProc p { s.procs p with phase := .exiting (k+1) }) j+_ = _
    have hsum : entries (s.setProc p { s.procs p with phase := .exiting (k+1) }) j+held (s.procs p) j =
        entries s j+held ⟨(s.procs p).files, .exiting (k+1)⟩ j :=
      entries_setProc hp (by rfl) (by rfl) j
    have hj := hheld j
    rw [hfile] at hj
    have hif : (if some file = some j then 1 else 0) = if j = file then 1 else 0 :=
      if_congr ⟨fun hc => (Option.some.inj hc).symm, fun hc => congrArg some hc.symm⟩ rfl rfl
    rw [hif] at hj
    omega

/-- Every call goes through, and the counts stay right. -/
theorem step_counted (h : Counted s g) {e : Event} (he : Enabled s e) :
    ∃ r, perform s e = some r ∧ Counted r.state (g.next r) := by
  cases e with
  | doOpen p inode refused readable writeable => exact doOpen_counted h he.1 he.2 _ _ _ _
  | doPipe p => exact doPipe_counted h he.1 he.2
  | doDup p fd => exact doDup_counted h he.1 he.2 fd
  | doClose p fd => exact doClose_counted h he.1 he.2 fd
  | doRead p fd => exact ⟨_, rfl, counted_same h⟩
  | doWrite p fd => exact ⟨_, rfl, counted_same h⟩
  | fork p => exact fork_counted h he.1 he.2
  | exit p =>
    refine ⟨_, rfl, phase_counted h he.1 (fun i => ?_)⟩
    rw [held, held]
    apply Finset.sum_congr rfl
    intro fd _
    exact if_congr (by simp only [Holds, he.2, firstHeld]) rfl rfl
  | exitClose p k => exact exitClose_counted h he.1 he.2.1 he.2.2
  | exited p =>
    refine ⟨_, rfl, phase_counted h he.1 (fun i => ?_)⟩
    rw [held_zombie _ (by rfl), held_zombie _ (by rw [he.2]; rfl)]

theorem start_counted (hs : Start s) : Counted s ⟨fun _ => 0, fun _ => 0⟩ := by
  refine ⟨fun i => ?_, fun i _ => (hs.table i).2, fun i hi => ?_, fun i => ?_⟩
  · rw [(hs.table i).1, entries]
    symm
    apply Finset.sum_eq_zero
    intro p _
    rw [held]
    apply Finset.sum_eq_zero
    intro fd _
    rw [if_neg]
    rintro ⟨-, hc⟩
    rw [hs.files p fd] at hc
    cases hc
  · rw [(hs.table i).1] at hi
    cases hi
  · rw [(hs.table i).1]
    rfl

theorem run_counted {allowed : System → Event → Prop} (h : Run allowed s g) : Counted s g := by
  induction h with
  | start hs => exact start_counted hs
  | step _ he _ hs ih =>
    obtain ⟨r, hr, hc⟩ := step_counted ih he
    rw [hs] at hr
    obtain rfl := Option.some.inj hr
    exact hc

/-- In every state of every run the counts are right, and no call panics. -/
theorem files_run {allowed : System → Event → Prop} (h : Run allowed s g) :
    Counted s g ∧ ∀ e, Enabled s e → perform s e ≠ none := by
  have hcounted := run_counted h
  refine ⟨hcounted, fun e he hnone => ?_⟩
  obtain ⟨r, hr, -⟩ := step_counted hcounted he
  rw [hnone] at hr
  cases hr

end Steps

/-- One process, and no open file. -/
def blank : System where
  table := fun _ => ⟨.none, 0, false, false, none, none, none⟩
  procs := fun _ => ⟨fun _ => none, .running⟩
  count := 1
  pipes := fun _ => .init
  pipeCount := 0

theorem blank_start : Start blank :=
  ⟨fun _ => ⟨rfl, rfl⟩, fun _ _ => rfl, fun _ _ => rfl, rfl⟩

/-- A file is opened and duplicated. -/
theorem files_run_dup : ∃ s g, Run (fun _ _ => True) s g ∧ (s.table 0).ref = 2 ∧ Counted s g := by
  have hopen : (perform blank (.doOpen 0 5 false true false)).map
      (fun r => (r.state.count, (r.state.procs 0).phase,
        (perform r.state (.doDup 0 0)).map fun r => (r.state.table 0).ref)) =
      some (1, .running, some 2) := by
    decide +kernel
  obtain ⟨r₁, hr₁, hsee⟩ := Option.map_eq_some_iff.mp hopen
  obtain ⟨hcount, hsee⟩ := Prod.mk.inj hsee
  obtain ⟨hphase, hdup⟩ := Prod.mk.inj hsee
  obtain ⟨r₂, hr₂, href⟩ := Option.map_eq_some_iff.mp hdup
  have h₀ : Run (fun _ _ => True) blank ⟨fun _ => 0, fun _ => 0⟩ := Run.start blank_start
  have h₁ := h₀.step (e := .doOpen 0 5 false true false) ⟨by decide, rfl⟩ trivial hr₁
  have h₂ := h₁.step (e := .doDup 0 0) ⟨by rw [hcount]; exact Nat.one_pos, hphase⟩ trivial hr₂
  exact ⟨_, _, h₂, href, (files_run h₂).1⟩

end BabyOS.FileReferences

import BabyOS.FileReferences
import BabyOS.FileSystem

/-!
# File slots of an inode

How many open slots refer to an inode, and what each step of the file table does to
that number: it falls where the step hands the inode to `put_inode`, and rises where
a file is opened.
-/

set_option autoImplicit false

namespace BabyOS.FileSlots
open BabyOS.FileTable BabyOS.FileReferences BabyOS.RangeSums
open BabyOS.FileSystem (releasedInode)

def Opens (s : System) (i f : ℕ) : Prop :=
  0 < (s.table f).ref ∧ (s.table f).type = .inode ∧ (s.table f).inode = some i

instance (s : System) (i f : ℕ) : Decidable (Opens s i f) := inferInstanceAs (Decidable (_ ∧ _))

/-- The open slots that refer to inode `i`. -/
def slots (s : System) (i : ℕ) : ℕ := ∑ f ∈ Finset.range maxFileNum, if Opens s i f then 1 else 0

/-- Nothing is open behind the table. -/
def Bounded (s : System) : Prop := ∀ f, maxFileNum ≤ f → (s.table f).ref = 0

section Slots

variable {s s' : System} {i f : ℕ}

theorem slots_congr (h : ∀ f, Opens s' i f ↔ Opens s i f) : slots s' i = slots s i := by
  apply Finset.sum_congr rfl
  exact fun f _ => if_congr (h f) rfl rfl

/-- One slot changes. -/
theorem slots_change (hf : f < maxFileNum) (h : ∀ k, k ≠ f → s'.table k = s.table k) :
    slots s' i+(if Opens s i f then 1 else 0) = slots s i+if Opens s' i f then 1 else 0 := by
  apply @sum_change _ _ hf (fun f => if Opens s i f then 1 else 0) (fun f => if Opens s' i f then 1 else 0)
  intro k _ hk
  exact if_congr (by rw [Opens, Opens, h k hk]) rfl rfl

theorem Bounded.lt (h : Bounded s) (hf : 0 < (s.table f).ref) : f < maxFileNum := by
  by_contra hc
  have := h f (Nat.le_of_not_lt hc)
  omega

end Slots

attribute [irreducible] slots

section Close

variable {s : System} {r : System.Result} {i f : ℕ}

/-- The last reference clears the slot, any other is counted down. -/
theorem close_cases (h : 0 < (s.table f).ref) (hr : s.close f = some r) :
    r.opened = [] ∧ r.state.procs = s.procs ∧ r.state.count = s.count ∧
      (((s.table f).ref = 1 ∧ r.released = (if (s.table f).type = .none then [] else [f]) ∧
          r.state.table = Function.update s.table f { s.table f with ref := 0, type := .none }) ∨
        (1 < (s.table f).ref ∧ r.released = [] ∧
          r.state.table = Function.update s.table f { s.table f with ref := (s.table f).ref-1 })) := by
  rw [System.close, System.closeFile, free_spec h] at hr
  by_cases hone : (s.table f).ref = 1
  · rw [if_pos hone] at hr
    obtain rfl := Option.some.inj hr
    dsimp only
    rw [releaseObject_frame]
    refine ⟨rfl, rfl, rfl, Or.inl ⟨hone, ?_, rfl⟩⟩
    by_cases htype : (s.table f).type = .none
    · simp [htype]
    · simp [htype]
  · rw [if_neg hone] at hr
    obtain rfl := Option.some.inj hr
    exact ⟨rfl, rfl, rfl, Or.inr ⟨by omega, rfl, rfl⟩⟩

theorem released_nil (h : r.released = []) : releasedInode s r = none := by
  obtain ⟨opened, released, state⟩ := r
  obtain rfl : released = [] := h
  rfl

theorem released_one (h : r.released = [f]) :
    releasedInode s r = if (s.table f).type = .inode then (s.table f).inode else none := by
  obtain ⟨opened, released, state⟩ := r
  obtain rfl : released = [f] := h
  rfl

theorem close_slots (hb : Bounded s) (h : 0 < (s.table f).ref) (hr : s.close f = some r) :
    Bounded r.state ∧
      ∀ i, slots r.state i+(if releasedInode s r = some i then 1 else 0) = slots s i := by
  obtain ⟨hopened, -, -, hcases⟩ := close_cases h hr
  have hf := hb.lt h
  have htable : ∃ x, r.state.table = Function.update s.table f x := by
    obtain ⟨-, -, ht⟩ | ⟨-, -, ht⟩ := hcases
    · exact ⟨_, ht⟩
    · exact ⟨_, ht⟩
  obtain ⟨x, hx⟩ := htable
  have hother : ∀ k, k ≠ f → r.state.table k = s.table k := by
    intro k hk
    rw [hx, Function.update_of_ne hk]
  refine ⟨fun k hk => ?_, fun i => ?_⟩
  · rw [hother k (by omega)]
    exact hb k hk
  · have hsum := slots_change (i := i) hf hother
    obtain ⟨hone, hreleased, ht⟩ | ⟨hmore, hreleased, ht⟩ := hcases
    · have hnew : ¬ Opens r.state i f := by
        rw [Opens, ht, Function.update_self]
        exact fun hc => absurd hc.1 (lt_irrefl 0)
      rw [if_neg hnew, Nat.add_zero] at hsum
      have hiff : releasedInode s r = some i ↔ Opens s i f := by
        by_cases htype : (s.table f).type = .none
        · rw [if_pos htype] at hreleased
          rw [released_nil hreleased, Opens, htype]
          simp
        · rw [if_neg htype] at hreleased
          rw [released_one hreleased, Opens]
          split
          next hinode => simp [h, hinode]
          next hinode => simp [hinode]
      rw [if_congr hiff rfl rfl]
      exact hsum
    · have hsame : Opens r.state i f ↔ Opens s i f := by
        rw [Opens, Opens, ht, Function.update_self]
        exact and_congr_left' ⟨fun _ => h, fun _ => Nat.sub_pos_of_lt hmore⟩
      rw [if_congr hsame rfl rfl] at hsum
      rw [released_nil hreleased, if_neg (by exact fun hc => nomatch hc), Nat.add_zero]
      exact Nat.add_right_cancel hsum

end Close

/-! ## The steps -/

section Steps

variable {s : System} {r : System.Result} {g : History} {p i f : ℕ}

/-- A step that opens and releases nothing, and counts no slot down. -/
theorem quiet_slots {s' : System} (hb : Bounded s)
    (h : ∀ f, ∃ n, s'.table f = { s.table f with ref := n } ∧ (0 < n ↔ 0 < (s.table f).ref)) :
    Bounded s' ∧ ∀ i, slots s' i = slots s i := by
  refine ⟨fun f hf => ?_, fun i => slots_congr (fun f => ?_)⟩
  · obtain ⟨n, htable, hpos⟩ := h f
    rw [htable]
    have := hb f hf
    dsimp only
    omega
  · obtain ⟨n, htable, hpos⟩ := h f
    rw [Opens, Opens, htable]
    exact and_congr_left' hpos

/-- The step releases an inode, or none. -/
def Released (s : System) (r : System.Result) : Prop :=
  Bounded r.state ∧ ∀ i, slots r.state i+(if releasedInode s r = some i then 1 else 0) = slots s i

theorem released_quiet (hr : r.released = []) (hb : Bounded s)
    (h : ∀ f, ∃ n, r.state.table f = { s.table f with ref := n } ∧ (0 < n ↔ 0 < (s.table f).ref)) :
    Released s r := by
  obtain ⟨hb', hslots⟩ := quiet_slots hb h
  refine ⟨hb', fun i => ?_⟩
  rw [released_nil hr, if_neg (by exact fun hc => nomatch hc), Nat.add_zero]
  exact hslots i

theorem released_same (hr : r.released = []) (hb : Bounded s) (h : r.state.table = s.table) :
    Released s r := by
  apply released_quiet hr hb
  intro f
  rw [h]
  exact ⟨_, rfl, Iff.rfl⟩

theorem released_setProc {x : FileTable.Process} (h : Released (s.setProc p x) r) : Released s r := by
  have hslots : ∀ i, slots (s.setProc p x) i = slots s i := fun i => slots_congr (fun _ => Iff.rfl)
  refine ⟨h.1, fun i => ?_⟩
  rw [← hslots]
  exact h.2 i

theorem doClose_released (hc : Counted s g) (hb : Bounded s) (hp : p < s.count)
    (hrun : (s.procs p).phase = .running) {fd : ℤ} (h : s.doClose p fd = some r) : Released s r := by
  rw [System.doClose] at h
  cases hget : (s.procs p).getFile fd with
  | none =>
    rw [hget] at h
    obtain rfl := Option.some.inj h
    exact released_same rfl hb rfl
  | some file =>
    rw [hget] at h
    obtain ⟨k, rfl, hk, hfile⟩ := getFile_spec hget
    have hpos : 0 < (s.table file).ref :=
      ref_pos hc hp hk ⟨by rw [hrun]; exact Nat.zero_le _, hfile⟩
    exact released_setProc (close_slots (s := s.setProc p ((s.procs p).freeFd k)) hb hpos h)

theorem doDup_released (hb : Bounded s) {fd : ℤ} (h : s.doDup p fd = some r) : Released s r := by
  rw [System.doDup] at h
  split at h
  · obtain rfl := Option.some.inj h
    exact released_same rfl hb rfl
  split at h
  · obtain rfl := Option.some.inj h
    exact released_same rfl hb rfl
  next file _ _ _ _ _ =>
    rw [Table.dupFile] at h
    split at h
    · cases h
    next hpos =>
      obtain rfl := Option.some.inj h
      apply released_quiet rfl hb
      intro f
      by_cases hf : f = file
      · subst hf
        exact ⟨_, Function.update_self .., by omega⟩
      · exact ⟨_, Function.update_of_ne hf .., Iff.rfl⟩

theorem exitClose_released (hc : Counted s g) (hb : Bounded s) (hp : p < s.count) {k : ℕ}
    (hphase : (s.procs p).phase = .exiting k) (hk : k < maxOpenFile) (h : s.exitClose p k = some r) :
    Released s r := by
  rw [System.exitClose] at h
  cases hfile : (s.procs p).files k with
  | none =>
    rw [hfile] at h
    obtain rfl := Option.some.inj h
    exact released_same rfl hb rfl
  | some file =>
    rw [hfile] at h
    have hpos : 0 < (s.table file).ref := ref_pos hc hp hk ⟨by rw [hphase]; exact le_rfl, hfile⟩
    dsimp only at h
    rw [if_neg (hc.used file hpos)] at h
    exact released_setProc
      (close_slots (s := s.setProc p { s.procs p with phase := .exiting (k+1) }) hb hpos h)

/-- `copy_files` counts slots up. -/
theorem copyFiles_table {files : ℕ → Option ℕ} {k : ℕ} {t t' : Table} {copied : ℕ → Option ℕ}
    (h : System.copyFiles files k t = some (copied, t')) (f : ℕ) :
    ∃ n, t' f = { t f with ref := n } ∧ (0 < n ↔ 0 < (t f).ref) := by
  induction k generalizing copied t' with
  | zero =>
    obtain ⟨-, rfl⟩ := Prod.mk.inj (Option.some.inj h)
    exact ⟨_, rfl, Iff.rfl⟩
  | succ k ih =>
    rw [System.copyFiles] at h
    split at h
    · cases h
    next copied₁ t₁ hcopy =>
      obtain ⟨n, htable, hpos⟩ := ih hcopy
      split at h
      · obtain ⟨-, rfl⟩ := Prod.mk.inj (Option.some.inj h)
        exact ⟨n, htable, hpos⟩
      next file _ =>
        split at h
        · obtain ⟨-, rfl⟩ := Prod.mk.inj (Option.some.inj h)
          exact ⟨n, htable, hpos⟩
        rw [Table.dupFile] at h
        split at h
        · cases h
        next href =>
          obtain ⟨-, rfl⟩ := Prod.mk.inj (Option.some.inj h)
          by_cases hf : f = file
          · subst hf
            rw [Function.update_self, htable]
            rw [htable] at href
            dsimp only at href
            exact ⟨n+1, rfl, by omega⟩
          · rw [Function.update_of_ne hf]
            exact ⟨n, htable, hpos⟩

theorem fork_slots (hb : Bounded s) (h : s.fork p = some r) :
    Bounded r.state ∧ ∀ i, slots r.state i = slots s i := by
  rw [System.fork] at h
  obtain ⟨⟨copied, t⟩, hcopy, rfl⟩ := Option.map_eq_some_iff.mp h
  exact quiet_slots hb (copyFiles_table hcopy)

/-- A slot for inode `i`, or the table as it was. -/
theorem doOpen_slots (hc : Counted s g) (hb : Bounded s) {refused readable writeable : Bool}
    (h : s.doOpen p i refused readable writeable = some r) :
    Bounded r.state ∧ ∀ j, slots r.state j =
      slots s j+if r.opened ≠ [] ∧ j = i then 1 else 0 := by
  have hsame : ∀ {s' : System}, s'.table = s.table → Bounded s' ∧
      ∀ j, slots s' j = slots s j+if ([] : List ℕ) ≠ [] ∧ j = i then 1 else 0 := by
    intro s' htable
    refine ⟨fun f hf => by rw [htable]; exact hb f hf, fun j => ?_⟩
    rw [if_neg (by exact fun hc => hc.1 rfl), Nat.add_zero]
    exact slots_congr (fun f => by rw [Opens, Opens, htable])
  rw [System.doOpen] at h
  split at h
  · obtain rfl := Option.some.inj h
    exact hsame rfl
  cases halloc : s.table.alloc with
  | none =>
    rw [halloc] at h
    obtain rfl := Option.some.inj h
    exact hsame rfl
  | some y =>
    obtain ⟨f, t⟩ := y
    obtain ⟨hf, hfree, rfl⟩ := alloc_spec halloc
    rw [halloc] at h
    dsimp only at h
    cases hfd : (s.procs p).allocFd f with
    | none =>
      rw [hfd] at h
      dsimp only at h
      rw [System.close, System.closeFile, free_blank hfree (hc.free f hfree)] at h
      obtain rfl := Option.some.inj h
      dsimp only
      rw [releaseObject_frame]
      exact hsame rfl
    | some y =>
      rw [hfd] at h
      obtain rfl := Option.some.inj h
      refine ⟨fun k hk => ?_, fun j => ?_⟩
      · dsimp only
        rw [Function.update_of_ne (by omega), Function.update_of_ne (by omega)]
        exact hb k hk
      · rw [if_congr (and_iff_right (List.cons_ne_nil f [])) rfl rfl]
        have hother : ∀ k, k ≠ f → Function.update (Function.update s.table f { s.table f with ref := 1 })
            f (File.init .inode (some i) none readable writeable) k = s.table k := by
          intro k hk
          rw [Function.update_of_ne hk, Function.update_of_ne hk]
        have hsum := @slots_change s { s with
          table := Function.update (Function.update s.table f { s.table f with ref := 1 })
            f (File.init .inode (some i) none readable writeable)
          procs := Function.update s.procs p y.2 } j f hf hother
        have hold : ¬ Opens s j f := fun hc => absurd hc.1 (by omega)
        have hnew : Opens { s with
            table := Function.update (Function.update s.table f { s.table f with ref := 1 })
              f (File.init .inode (some i) none readable writeable)
            procs := Function.update s.procs p y.2 } j f ↔ j = i := by
          simp [Opens, File.init, eq_comm]
        rw [if_neg hold, if_congr hnew rfl rfl, Nat.add_zero] at hsum
        exact hsum

/-! ## Phases -/

/-- The processes are the same, in the same phases. -/
def SamePhases (s s' : System) : Prop :=
  s'.count = s.count ∧ ∀ q, (s'.procs q).phase = (s.procs q).phase

theorem close_phases (h : s.close f = some r) : SamePhases s r.state := by
  rw [System.close, System.closeFile] at h
  obtain ⟨y, hy, rfl⟩ := Option.map_eq_some_iff.mp h
  split at hy
  · cases hy
  · obtain rfl := Option.some.inj hy
    exact ⟨rfl, fun _ => rfl⟩
  · obtain rfl := Option.some.inj hy
    rw [releaseObject_frame]
    exact ⟨rfl, fun _ => rfl⟩

theorem setProc_phases {x : FileTable.Process} (hx : x.phase = (s.procs p).phase) (t : Table) :
    SamePhases s { s.setProc p x with table := t } := by
  refine ⟨rfl, fun q => ?_⟩
  by_cases hq : q = p
  · subst hq
    exact (congrArg Process.phase (Function.update_self ..)).trans hx
  · exact congrArg Process.phase (Function.update_of_ne hq ..)

theorem allocFd_phase {x x' : FileTable.Process} {fd : ℕ} (h : x.allocFd f = some (fd, x')) :
    x'.phase = x.phase := by
  rw [Process.allocFd] at h
  split at h
  · cases h
  · obtain ⟨-, rfl⟩ := Prod.mk.inj (Option.some.inj h)
    rfl

theorem doOpen_phases {refused readable writeable : Bool}
    (h : s.doOpen p i refused readable writeable = some r) : SamePhases s r.state := by
  rw [System.doOpen] at h
  split at h
  · obtain rfl := Option.some.inj h
    exact ⟨rfl, fun _ => rfl⟩
  split at h
  · obtain rfl := Option.some.inj h
    exact ⟨rfl, fun _ => rfl⟩
  next k t _ =>
    split at h
    · exact close_phases (s := { s with table := t }) h
    next fd x hfd =>
      obtain rfl := Option.some.inj h
      exact setProc_phases (allocFd_phase hfd) _

theorem doDup_phases {fd : ℤ} (h : s.doDup p fd = some r) : SamePhases s r.state := by
  rw [System.doDup] at h
  split at h
  · obtain rfl := Option.some.inj h
    exact ⟨rfl, fun _ => rfl⟩
  split at h
  · obtain rfl := Option.some.inj h
    exact ⟨rfl, fun _ => rfl⟩
  next x hfd =>
    obtain ⟨t, -, rfl⟩ := Option.map_eq_some_iff.mp h
    exact setProc_phases (allocFd_phase hfd) t

theorem doClose_phases {fd : ℤ} (h : s.doClose p fd = some r) : SamePhases s r.state := by
  rw [System.doClose] at h
  split at h
  · obtain rfl := Option.some.inj h
    exact ⟨rfl, fun _ => rfl⟩
  · have hfree : ((s.procs p).freeFd fd).phase = (s.procs p).phase := by
      rw [Process.freeFd]
      split <;> rfl
    obtain ⟨hcount, hphase⟩ := close_phases h
    obtain ⟨hcount', hphase'⟩ := setProc_phases hfree s.table
    exact ⟨hcount.trans hcount', fun q => (hphase q).trans (hphase' q)⟩

/-- The process goes to a phase, and the others stay in theirs. -/
def OnePhase (s s' : System) (p : ℕ) (phase : Phase) : Prop :=
  s'.count = s.count ∧ (s'.procs p).phase = phase ∧ ∀ q, q ≠ p → (s'.procs q).phase = (s.procs q).phase

theorem setProc_onePhase (s : System) (p : ℕ) (x : FileTable.Process) :
    OnePhase s (s.setProc p x) p x.phase :=
  ⟨rfl, congrArg Process.phase (Function.update_self ..),
    fun _ hq => congrArg Process.phase (Function.update_of_ne hq ..)⟩

theorem exitClose_phase {k : ℕ} (h : s.exitClose p k = some r) :
    OnePhase s r.state p (.exiting (k+1)) := by
  have hone := setProc_onePhase s p { s.procs p with phase := .exiting (k+1) }
  rw [System.exitClose] at h
  dsimp only at h
  split at h
  · obtain rfl := Option.some.inj h
    exact hone
  split at h
  · obtain rfl := Option.some.inj h
    exact hone
  · obtain ⟨hcount, hphase⟩ := close_phases h
    exact ⟨hcount.trans hone.1, (hphase p).trans hone.2.1, fun q hq => (hphase q).trans (hone.2.2 q hq)⟩

theorem fork_phases (h : s.fork p = some r) : r.state.count = s.count+1 ∧
    (r.state.procs s.count).phase = .running ∧
    ∀ q, q ≠ s.count → (r.state.procs q).phase = (s.procs q).phase := by
  rw [System.fork] at h
  obtain ⟨⟨copied, t⟩, -, rfl⟩ := Option.map_eq_some_iff.mp h
  dsimp only
  refine ⟨rfl, ?_, fun q hq => ?_⟩
  · rw [Function.update_self]
  · rw [Function.update_of_ne hq]

end Steps

end BabyOS.FileSlots

import BabyOS.AreaCoverage
import BabyOS.ProcessSteps

/-!
# Counts that equal the mappings

Beside the invariant of the memory: the count of a mapped frame is the number of
entries that map it, every mapped page lies in an area, and a dead process maps
nothing. One lemma for each kind of step.
-/

set_option autoImplicit false

namespace BabyOS.FrameTallies
open BabyOS.BuddyMachine BabyOS.BuddyArithmetic BabyOS.AreaMachine BabyOS.FrameCounts
open BabyOS.RadixTables BabyOS.PageMachine BabyOS.PageCounts BabyOS.AreaInvariant
open BabyOS.AreaOperations BabyOS.AreaCoverage BabyOS.ProcessMachine BabyOS.ProcessInvariant
open BabyOS.ProcessChanges BabyOS.ProcessSteps

def Counted (M : Set ℕ) (m : Machine) : Prop :=
  ∀ f ∈ M, 0 < leafTotal m f → m.phys.buddy.ref f = leafTotal m f

/-- The pages of a process lie in its areas, and there are none after its exit. -/
def Housed (p : Process) : Prop := Inside p ∧ (p.alive = false → ∀ n, findPte p.tables n = none)

def Sheltered (m : Machine) : Prop := ∀ p < m.count, Housed (m.procs p)

structure Kept (M : Set ℕ) (m : Machine) : Prop where
  held : Sound M m
  counted : Counted M m
  housed : Sheltered m
  ram : ∀ f ∈ M, ¬ Device f

/-! ## Pages and addresses -/

section Pages

variable {p q : Process} {l : Areas} {n a : ℕ}

theorem page_span {v : Vma} (h : Bounded v) (n : ℕ) :
    firstPage v ≤ n ∧ n < lastPage v ↔ v.mStart ≤ n*pageSize ∧ n*pageSize < v.mEnd := by
  obtain ⟨⟨i, hi⟩, ⟨j, hj⟩, -⟩ := h
  have hpos : 0 < pageSize := by decide
  rw [firstPage, lastPage, pageOf, pageOf, hi, hj, Nat.mul_div_cancel_left _ hpos,
    Nat.mul_div_cancel_left _ hpos, mul_comm n]
  rw [Nat.mul_le_mul_left_iff hpos, Nat.mul_lt_mul_left hpos]

theorem inside_iff (hw : WellFormed p.vmm.mmap) : Inside p ↔ ∀ n pte, n < 2 ^ 35 →
    findPte p.tables n = some pte → InAreas p.vmm.mmap (n*pageSize) := by
  have hspan : ∀ n, (∃ v ∈ p.vmm.mmap, firstPage v ≤ n ∧ n < lastPage v) ↔
      InAreas p.vmm.mmap (n*pageSize) := by
    intro n
    constructor
    · rintro ⟨v, hv, hn⟩
      exact ⟨v, hv, (page_span (hw.2 v hv) n).mp hn⟩
    · rintro ⟨v, hv, hn⟩
      exact ⟨v, hv, (page_span (hw.2 v hv) n).mpr hn⟩
  simp only [Inside, hspan]

/-- An area that has an address has the whole page of it. -/
theorem covered_page (hw : WellFormed l) (h : InAreas l a) : InAreas l (pageOf a*pageSize) := by
  obtain ⟨v, hv, hstart, hend⟩ := h
  exact ⟨v, hv, le_pageDown (hw.2 v hv).1 hstart, (pageDown_le a).trans_lt hend⟩

/-- The same pages in areas that cover more. -/
theorem inside_grown (h : Inside p) (hp : WellFormed p.vmm.mmap) (hq : WellFormed q.vmm.mmap)
    (ht : q.tables = p.tables)
    (hcover : ∀ n pte, n < 2 ^ 35 → findPte p.tables n = some pte → InAreas p.vmm.mmap (n*pageSize) →
      InAreas q.vmm.mmap (n*pageSize)) : Inside q := by
  rw [inside_iff hp] at h
  rw [inside_iff hq, ht]
  exact fun n pte hn hpte => hcover n pte hn hpte (h n pte hn hpte)

end Pages

section Steps

variable {D M : Set ℕ} {m m' : Machine}

/-! ## Steps that keep the tables -/

theorem tables_setSelf {x : Process} (ht : x.tables = m.self.tables) (p : ℕ) :
    ((m.setSelf x).procs p).tables = (m.procs p).tables := by
  by_cases hp : p = m.current
  · subst hp
    simpa [Machine.setSelf, Machine.self] using ht
  · simp [Machine.setSelf, hp]

theorem leafTotal_setSelf {x : Process} (ht : x.tables = m.self.tables) (f : ℕ) :
    leafTotal (m.setSelf x) f = leafTotal m f := by
  simp only [leafTotal, total, tables_setSelf ht]
  rfl

theorem counted_setSelf (h : Counted M m) {x : Process} (ht : x.tables = m.self.tables) :
    Counted M (m.setSelf x) := by
  intro f hM hf
  rw [leafTotal_setSelf ht] at hf ⊢
  exact h f hM hf

/-- One process is replaced, and is housed. -/
theorem housed_update {x : Process} {procs : ℕ → Process} {count p : ℕ}
    (h : ∀ q < count, Housed (procs q)) (hx : Housed x) :
    ∀ q < count, Housed (Function.update procs p x q) := by
  intro q hq
  by_cases hqp : q = p
  · rw [hqp, Function.update_self]
    exact hx
  · rw [Function.update_of_ne hqp]
    exact h q hq

theorem sheltered_setSelf (h : Sheltered m) {x : Process} (hx : Housed x) : Sheltered (m.setSelf x) :=
  housed_update h hx

/-- New areas that cover what the old ones cover. -/
theorem sheltered_setAreas (hheld : Held D M m) (h : Sheltered m) {l : Areas} (hw : WellFormed l)
    (hcover : ∀ a, InAreas m.self.vmm.mmap a → InAreas l a) : Sheltered (m.setAreas l) := by
  obtain ⟨hin, hdead⟩ := h _ hheld.running.1
  refine sheltered_setSelf h ⟨?_, hdead⟩
  exact inside_grown hin (hheld.areas _ hheld.running.1) hw rfl (fun _ _ _ _ ha => hcover _ ha)

theorem kept_storeByte (h : Kept M m) (frame offset byte : ℕ) : Kept M (storeByte m frame offset byte) :=
  ⟨sound_storeByte h.held frame offset byte, h.counted, h.housed, h.ram⟩

theorem kept_schedule (h : Kept M m) {next : ℕ} (hn : next < m.count) :
    Kept M { m with current := next, cr3 := next } :=
  ⟨sound_schedule h.held hn, h.counted, h.housed, h.ram⟩

/-! ## Kernel objects -/

theorem counted_alloc (h : Held D M m) (hc : Counted M m) {order pa : ℕ} {b : Buddy} {owned : ℕ → ℕ}
    (hb : m.phys.buddy.allocPages order = some (pa, b)) :
    Counted M { m with phys := { m.phys with buddy := b }, owned := owned } := by
  intro f hM hf
  obtain ⟨-, -, hfresh⟩ := alloc_fresh h.frames hb
  have hcount := hc f hM hf
  change 0 < leafTotal m f at hf
  change b.ref f = leafTotal m f
  have hout : ¬ (frameOf pa ≤ f ∧ f < frameOf pa+2 ^ order) := by
    intro hin
    have := hfresh.zero f hin.1 hin.2
    omega
  rw [hfresh.ref f, if_neg hout, hcount, add_zero]

theorem kept_kernelAlloc (h : Kept M m) {order pa : ℕ} {b : Buddy}
    (hb : m.phys.buddy.allocPages order = some (pa, b)) :
    Kept M { m with
      phys := { m.phys with buddy := b }
      owned := fun f => m.owned f+if mapNr pa ≤ f ∧ f < mapNr pa+2 ^ order then 1 else 0 } :=
  ⟨sound_kernelAlloc h.held hb, counted_alloc h.held h.counted hb, h.housed, h.ram⟩

theorem kept_kernelFree (h : Kept M m) {order pa : ℕ} {b : Buddy} (horder : order ≤ maxOrder)
    (howned : ownedBlock m.owned pa order) (hb : m.phys.buddy.freePages pa order = some b) :
    Kept M { m with
      phys := { m.phys with buddy := b }
      owned := fun f => m.owned f-if mapNr pa ≤ f ∧ f < mapNr pa+2 ^ order then 1 else 0 } := by
  refine ⟨sound_kernelFree h.held horder howned hb, fun f hM hf => ?_, h.housed, h.ram⟩
  obtain ⟨-, href⟩ := free_owned h.held horder howned hb
  have hcount := h.counted f hM hf
  change 0 < leafTotal m f at hf
  change b.ref f = leafTotal m f
  have hapart := h.held.apart f hf
  have hout : ¬ (mapNr pa ≤ f ∧ f < mapNr pa+2 ^ order) := by
    intro hblock
    have := howned.2 f hblock.1 hblock.2
    omega
  rw [href f, if_neg hout, hcount, sub_zero]

/-! ## Changes of the tables -/

/-- Counts and entries change by the same, so they stay equal. -/
theorem counted_change {s' : Phys} {t' : Pml4Table} (h : Held D M m) (hc : Counted M m)
    (hchange : Change D M m.phys s' m.self.tables t') (hexact : Exact m.phys s' m.self.tables t') :
    Counted M (m.setTables t' s') := by
  intro f hM hf
  have hleaf : leafTotal (m.setTables t' s') f+leafCount m.self.tables f = leafTotal m f+leafCount t' f :=
    leafTotal_setTables h f
  have htable : tableTotal (m.setTables t' s') f+tableCount m.self.tables f =
      tableTotal m f+tableCount t' f := tableTotal_setTables h f
  have hnew := (h.change hchange).apart f hf
  have hone := hexact f
  have hl : leafCount m.self.tables f ≤ leafTotal m f :=
    le_total (w := fun p => leafCount p.tables f) h.running.1
  have ht : tableCount m.self.tables f ≤ tableTotal m f :=
    le_total (w := fun p => tableCount p.tables f) h.running.1
  change s'.buddy.ref f = _
  by_cases hold : 0 < leafTotal m f
  · have hcount := hc f hM hold
    have hapart := h.apart f hold
    omega
  · rcases hchange.leafFresh f hM with hle | ⟨hzero, hnone, hleaf'⟩
    · omega
    · have := (h.clean hM hzero.le).2.1
      omega

/-! ## Exit and faults -/

theorem release_self (hs : release m = some m') :
    m'.self.tables = ⟨m.self.tables.frame, fun _ => none⟩ ∧ m'.self.vmm.mmap = [] ∧
      m'.self.alive = m.self.alive ∧ m'.count = m.count ∧ m'.current = m.current ∧
      ∀ q, q ≠ m.current → m'.procs q = m.procs q := by
  rw [release] at hs
  split at hs
  · cases hs
  split at hs
  · cases hs
  next t' s' htables =>
  obtain rfl := Option.some.inj hs
  obtain ⟨s₁, -, heq⟩ := Option.map_eq_some_iff.mp htables
  obtain ⟨rfl, rfl⟩ := Prod.mk.inj heq
  simp +contextual [Machine.setTables, Machine.setAreas, Machine.setSelf, Machine.self]

theorem housed_empty {p : Process} (h : ∀ n, findPte p.tables n = none) : Housed p := by
  refine ⟨fun n pte _ hpte => ?_, fun _ => h⟩
  rw [h] at hpte
  cases hpte

theorem sheltered_release (h : Sheltered m) (hs : release m = some m') : Sheltered m' := by
  obtain ⟨htables, -, -, hcount, hcur, hother⟩ := release_self hs
  intro q hq
  rw [hcount] at hq
  by_cases hqc : q = m.current
  · rw [hqc, ← hcur]
    apply housed_empty
    intro n
    change findPte m'.self.tables n = none
    rw [htables, empty_find]
  · rw [hother q hqc]
    exact h q hq

theorem sheltered_exit (h : Sheltered m) (hs : exit m = some m') : Sheltered m' := by
  obtain ⟨m₁, hrel, rfl⟩ := Option.map_eq_some_iff.mp hs
  apply sheltered_setSelf (sheltered_release h hrel)
  apply housed_empty
  intro n
  change findPte m₁.self.tables n = none
  rw [(release_self hrel).1, empty_find]

/-- A release gives back a count for each entry. -/
theorem Kept.exact_release (h : Kept M m) (hs : release m = some m') :
    ∃ t' s', m' = (m.setAreas []).setTables t' s' ∧ Change ∅ M m.phys s' m.self.tables t' ∧
      Exact m.phys s' m.self.tables t' := by
  obtain ⟨t', s', heq, hchange, -, hexact⟩ := release_change h.held (fun _ hf => hf.elim) hs
  refine ⟨t', s', heq, hchange, hexact (fun n pte hpte => ?_) (h.housed _ h.held.running.1).1⟩
  exact h.ram _ (h.held.mapped h.held.running.1 hpte (fun hf => hf.elim)).1

theorem kept_release (h : Kept M m) (hs : release m = some m') : Kept M m' := by
  refine ⟨sound_release h.held (fun _ hf => hf.elim) hs, ?_, sheltered_release h.housed hs, h.ram⟩
  obtain ⟨t', s', rfl, hchange, hexact⟩ := h.exact_release hs
  have hareas : Sound M (m.setAreas []) := sound_setAreas h.held wellFormed_nil
  rw [← (self_setAreas m []).1] at hchange hexact
  exact counted_change hareas (counted_setSelf h.counted rfl) hchange hexact

theorem kept_exit (h : Kept M m) (hs : exit m = some m') : Kept M m' := by
  refine ⟨sound_exit h.held (fun _ hf => hf.elim) hs, ?_, sheltered_exit h.housed hs, h.ram⟩
  obtain ⟨m₁, hrel, rfl⟩ := Option.map_eq_some_iff.mp hs
  exact counted_setSelf (kept_release h hrel).counted rfl

theorem sheltered_resolved {addr : ℕ} (hheld : Held D M m) (h : Sheltered m) (haddr : addr < userVmSize)
    (hcovered : InAreas m.self.vmm.mmap addr) (halive : m.self.alive = true)
    (hr : Resolved D M m m' addr) : Sheltered m' := by
  obtain ⟨t', s', rfl, -, -, -, pte₀, -, hfind⟩ := hr.change
  have hareas : WellFormed m.self.vmm.mmap := hheld.areas _ hheld.running.1
  have hin : Inside m.self := (h _ hheld.running.1).1
  rw [inside_iff hareas] at hin
  have hpage : pageOf addr < 2 ^ 35 := Nat.div_lt_of_lt_mul haddr
  have hnew : Housed { m.self with tables := t' } := by
    refine ⟨?_, fun hdead => ?_⟩
    · have hiff := @inside_iff { m.self with tables := t' } hareas
      refine hiff.mpr (fun n pte hn hpte => ?_)
      change findPte t' n = some pte at hpte
      rw [hfind] at hpte
      split at hpte
      next heq =>
        rw [Nat.mod_eq_of_lt hn, Nat.mod_eq_of_lt hpage] at heq
        rw [heq]
        exact covered_page hareas hcovered
      next => exact hin n pte hn hpte
    · change m.self.alive = false at hdead
      rw [halive] at hdead
      cases hdead
  exact housed_update h hnew

theorem self_areas (m : Machine) (l : Areas) :
    (m.setAreas l).self = { m.self with vmm := { m.self.vmm with mmap := l } } := by
  simp [Machine.setAreas, Machine.setSelf, Machine.self]

theorem sheltered_doPageFault (hheld : Held D M m) (h : Sheltered m) {addr err rsp : ℕ}
    (haddr : addr < userVmSize) (halive : m.self.alive = true)
    (herr : err &&& 1 = 0 → findPte m.self.tables (pageOf addr) = none)
    (hram : ∀ pte, findPte m.self.tables (pageOf addr) = some pte → pte.frame ∉ D)
    (hs : doPageFault m addr err rsp = some m') : Sheltered m' := by
  rcases doPageFault_cases hheld herr hram hs with hexit | ⟨l, hw, hcover, hin, hcase⟩
  · exact sheltered_exit h hexit
  have hl : Sheltered (m.setAreas l) := sheltered_setAreas hheld h hw hcover
  rcases hcase with rfl | hres
  · exact hl
  · apply sheltered_resolved (sound_setAreas hheld hw) hl haddr ?_ ?_ hres
    · rw [self_areas]
      exact hin
    · rw [self_areas]
      exact halive

theorem kept_doPageFault (h : Kept M m) {addr err rsp : ℕ} (haddr : addr < userVmSize)
    (halive : m.self.alive = true) (herr : err &&& 1 = 0 → findPte m.self.tables (pageOf addr) = none)
    (hs : doPageFault m addr err rsp = some m') : Kept M m' := by
  have hram : ∀ pte, findPte m.self.tables (pageOf addr) = some pte → pte.frame ∉ (∅ : Set ℕ) :=
    fun _ _ hf => hf.elim
  refine ⟨sound_doPageFault h.held (fun _ hf => hf.elim) herr hram hs, ?_,
    sheltered_doPageFault h.held h.housed haddr halive herr hram hs, h.ram⟩
  rcases doPageFault_cases h.held herr hram hs with hexit | ⟨l, hw, -, -, rfl | hres⟩
  · exact (kept_exit h hexit).counted
  · exact counted_setSelf h.counted rfl
  · obtain ⟨t', s', rfl, hchange, hexact, -⟩ := hres.change
    exact counted_change (sound_setAreas h.held hw) (counted_setSelf h.counted rfl) hchange hexact

/-! ## Fork -/

theorem sheltered_fork {child parent : Pml4Table} {first : ℕ} (hheld : Held D M m) (h : Sheltered m)
    (halive : m.self.alive = true) (hf : Forked M m m' child parent first) : Sheltered m' := by
  -- parent and child keep the pages and the areas of the caller
  have hcopy : ∀ t : Pml4Table, (∀ n, findPte t n = (findPte m.self.tables n).map readOnly) →
      ∀ v : Vmm, v.mmap = m.self.vmm.mmap → Housed ⟨v, t, true⟩ := by
    intro t ht v hv
    refine ⟨fun n pte hn hpte => ?_, fun hdead => by cases hdead⟩
    change findPte t n = some pte at hpte
    rw [ht n] at hpte
    obtain ⟨q, hq, -⟩ := Option.map_eq_some_iff.mp hpte
    change ∃ u ∈ v.mmap, _
    rw [hv]
    exact (h _ hheld.running.1).1 n q hn hq
  rw [Sheltered, hf.procs, hf.count]
  have hparent : ∀ q < m.count,
      Housed (Function.update m.procs m.current { m.self with tables := parent } q) := by
    apply housed_update h
    have hself := hcopy parent hf.ofParent m.self.vmm rfl
    rw [← halive] at hself
    exact hself
  intro q hq
  by_cases hlast : q = m.count
  · rw [hlast, Function.update_self]
    exact hcopy child hf.ofChild _ (AreaRun.copyVma_eq _)
  · rw [Function.update_of_ne hlast]
    exact hparent q (by omega)

theorem kept_fork {child parent : Pml4Table} {first : ℕ} (h : Kept M m) (halive : m.self.alive = true)
    (hf : Forked M m m' child parent first) : Kept M m' := by
  refine ⟨sound_fork h.held hf, fun f hM hpos => ?_, sheltered_fork h.held h.housed halive hf, h.ram⟩
  have hleaf := leafTotal_fork h.held hf f
  have hle : leafCount m.self.tables f ≤ leafTotal m f :=
    le_total (w := fun p => leafCount p.tables f) h.held.running.1
  have hcount := h.counted f hM (by omega)
  have hstruct : ¬ (first ≤ f ∧ f < first+2) := by
    intro hin
    have := (hf.struct f hin).2.1
    omega
  have hnew : tableCount child f = 0 := by
    by_contra hne
    have := (hf.fresh f (Nat.pos_of_ne_zero hne)).2
    omega
  rw [hf.ref f, if_neg hstruct, hnew, hleaf, hcount]
  push_cast
  ring

/-! ## Area operations -/

/-- A call of `do_munmap` that passes its checks. -/
def Accepted (r : ℕ × ℕ) : Prop := ¬ (r.1 % pageSize ≠ 0 ∨ r.1 > userVmSize ∨ r.2 > userVmSize-r.1)

/-- No address of the range of a call translates. -/
def Absent (t : Pml4Table) (r : ℕ × ℕ) : Prop :=
  ∀ a, r.1 ≤ a → a < r.1+pageAlign r.2 → vaToPa t a = none

theorem unmapped_some {l : Areas} {r x : ℕ × ℕ} (h : unmapped l r.1 r.2 = some x) :
    Accepted r ∧ x = (r.1, r.1+pageAlign r.2) := by
  rw [unmapped] at h
  split at h
  · cases h
  next hrange =>
  split at h
  · cases h
  split at h
  · cases h
  split at h
  · cases h
  exact ⟨hrange, (Option.some.inj h).symm⟩

/-- The addresses that the loop of `free_page_range` passes to `free_pages`. -/
def passedPages (t : Pml4Table) : ℕ → ℕ → List ℕ
  | 0, _ => []
  | count+1, n =>
    match findPte t n with
    | none => passedPages t count (n+1)
    | some pte =>
      if Device pte.frame then [] else frameAddr pte.frame :: passedPages t count (n+1)

def passedRange (t : Pml4Table) (first last : ℕ) : List ℕ :=
  passedPages t ((last-pageDown first+(pageSize-1)) / pageSize) (pageOf first)

theorem mem_passedPages {t : Pml4Table} {count n pa : ℕ} (h : pa ∈ passedPages t count n) :
    ∃ k < count, ∃ pte, findPte t (n+k) = some pte ∧ ¬ Device pte.frame ∧ pa = frameAddr pte.frame := by
  induction count generalizing n with
  | zero => cases h
  | succ count ih =>
    have hnext : pa ∈ passedPages t count (n+1) → ∃ k < count+1, ∃ pte, findPte t (n+k) = some pte ∧
        ¬ Device pte.frame ∧ pa = frameAddr pte.frame := by
      intro hin
      obtain ⟨k, hk, pte, hpte, hrest⟩ := ih hin
      rw [Nat.add_assoc, Nat.add_comm 1] at hpte
      exact ⟨k+1, by omega, pte, hpte, hrest⟩
    rw [passedPages] at h
    split at h
    · exact hnext h
    next pte hpte =>
      split at h
      · cases h
      next hram =>
        rcases List.mem_cons.mp h with rfl | hin
        · exact ⟨0, Nat.succ_pos count, pte, hpte, hram, rfl⟩
        · exact hnext hin

/-- A loop that passes no address leaves the memory alone. -/
theorem freePages_nothing {t : Pml4Table} {s : Phys} {count n : ℕ} (h : passedPages t count n = []) :
    freePages t count n s = some s := by
  induction count generalizing n with
  | zero => rfl
  | succ count ih =>
    rw [passedPages] at h
    rw [freePages]
    cases hpte : findPte t n with
    | none =>
      simp only [hpte] at h ⊢
      exact ih h
    | some pte =>
      simp only [hpte] at h ⊢
      by_cases hdev : Device pte.frame
      · exact if_pos hdev
      · rw [if_neg hdev] at h
        cases h

theorem passedRange_absent {t : Pml4Table} {r : ℕ × ℕ} (ha : Accepted r) (h : Absent t r) :
    passedRange t r.1 (r.1+pageAlign r.2) = [] := by
  have haligned : r.1 % pageSize = 0 := by
    by_contra hne
    exact ha (Or.inl hne)
  have hpos : 0 < pageSize := by decide
  obtain ⟨i, hi⟩ := Nat.dvd_of_mod_eq_zero haligned
  obtain ⟨j, hj⟩ := pageAlign_dvd r.2
  rw [List.eq_nil_iff_forall_not_mem]
  intro pa hpa
  obtain ⟨k, hk, pte, hpte, -⟩ := mem_passedPages hpa
  have hdown : pageDown r.1 = r.1 := by
    rw [pageDown, Nat.div_mul_cancel (Nat.dvd_of_mod_eq_zero haligned)]
  rw [hdown, Nat.add_sub_cancel_left, hj, Nat.mul_add_div hpos, Nat.div_eq_of_lt (by decide),
    add_zero] at hk
  have hlt : pageSize*(i+k) < pageSize*(i+j) := (Nat.mul_lt_mul_left hpos).mpr (by omega)
  have hle : pageSize*i ≤ pageSize*(i+k) := Nat.mul_le_mul_left _ (Nat.le_add_right i k)
  have hpage := h (pageSize*(i+k)) (by omega) (by rw [hi, hj, ← mul_add]; exact hlt)
  rw [vaToPa, Option.map_eq_none_iff, pageOf, Nat.mul_div_cancel_left _ hpos] at hpage
  rw [hi, pageOf, Nat.mul_div_cancel_left _ hpos, hpage] at hpte
  cases hpte

/-- The conditions of an operation on the areas: those of the list, and that no
page in the range of its `do_munmap` is present. -/
def Clear (m : Machine) (op : Op) : Prop :=
  AreaRun.Clear m.self.vmm op ∧
    ∀ r, munmapCall m.self.vmm op = some r → Accepted r → Absent m.self.tables r

/-- An operation that passes no address to `free_pages` leaves the memory alone. -/
theorem areaOp_nothing {op : Op}
    (hfree : ∀ x, freedBy m op = some x → passedRange m.self.tables x.1 x.2 = [])
    (hs : areaOp m op (freedBy m op) = some m') :
    ∃ ok v, perform m.self.vmm op = some (ok, v) ∧
      (m' = m.setSelf { m.self with vmm := v } ∨
        m' = { m.setSelf { m.self with vmm := v } with cr3 := m.current }) := by
  rw [areaOp] at hs
  split at hs
  · cases hs
  next ok v hperform =>
  refine ⟨ok, v, hperform, ?_⟩
  cases hrange : freedBy m op with
  | none =>
    rw [hrange] at hs
    exact Or.inl (Option.some.inj hs).symm
  | some x =>
    have htables : (m.setSelf { m.self with vmm := v }).self.tables = m.self.tables := by
      simp [Machine.setSelf, Machine.self]
    rw [hrange, freeRange, htables, freePageRange, freePages_nothing (hfree x hrange)] at hs
    exact Or.inr (Option.some.inj hs).symm

theorem areaOp_spec {op : Op} (hclear : Clear m op) (hs : areaOp m op (freedBy m op) = some m') :
    ∃ ok v, perform m.self.vmm op = some (ok, v) ∧
      (m' = m.setSelf { m.self with vmm := v } ∨
        m' = { m.setSelf { m.self with vmm := v } with cr3 := m.current }) := by
  refine areaOp_nothing (fun x hx => ?_) hs
  rw [freedBy_eq] at hx
  obtain ⟨r, hcall, hrange⟩ := Option.bind_eq_some_iff.mp hx
  obtain ⟨haccepted, rfl⟩ := unmapped_some hrange
  have habsent := hclear.2 r hcall haccepted
  dsimp only
  exact passedRange_absent haccepted habsent

/-- A clear operation keeps the areas well formed, and the pages in them. -/
theorem areaOp_housed (hheld : Held D M m) (h : Sheltered m) {op : Op} (hclear : Clear m op)
    (hop : ∀ addr err rsp mapped, op ≠ .fault addr err rsp mapped) {ok : Bool} {v : Vmm}
    (hperform : perform m.self.vmm op = some (ok, v)) :
    WellFormed v.mmap ∧ Housed { m.self with vmm := v } := by
  have hareas : WellFormed m.self.vmm.mmap := hheld.areas _ hheld.running.1
  have hw := (AreaRun.perform_spec hareas hclear.1 hperform).1
  obtain ⟨hin, hdead⟩ := h _ hheld.running.1
  refine ⟨hw, ?_, hdead⟩
  refine @inside_grown m.self { m.self with vmm := v } hin hareas hw rfl ?_
  intro n pte hn hpte hcovered
  refine covered_perform hareas hop hperform hcovered (fun x hx hrange => ?_)
  -- a page that is present is not in the range
  obtain ⟨r, hcall, hsome⟩ := Option.bind_eq_some_iff.mp hx
  obtain ⟨haccepted, rfl⟩ := unmapped_some hsome
  have habsent := hclear.2 r hcall haccepted _ hrange.1 hrange.2
  rw [vaToPa, Option.map_eq_none_iff, pageOf, Nat.mul_div_cancel _ (by decide)] at habsent
  rw [habsent] at hpte
  cases hpte

theorem held_areaOp (hheld : Held D M m) (h : Sheltered m) {op : Op} (hclear : Clear m op)
    (hop : ∀ addr err rsp mapped, op ≠ .fault addr err rsp mapped)
    (hs : areaOp m op (freedBy m op) = some m') : Held D M m' ∧ Sheltered m' := by
  obtain ⟨ok, v, hperform, hcase⟩ := areaOp_spec hclear hs
  obtain ⟨hw, hhoused⟩ := areaOp_housed hheld h hclear hop hperform
  have hset : Held D M (m.setSelf { m.self with vmm := v }) := sound_setSelf hheld rfl hw
  rcases hcase with rfl | rfl
  · exact ⟨hset, sheltered_setSelf h hhoused⟩
  · exact ⟨sound_reload hset, sheltered_setSelf h hhoused⟩

theorem kept_areaOp (h : Kept M m) {op : Op} (hclear : Clear m op)
    (hop : ∀ addr err rsp mapped, op ≠ .fault addr err rsp mapped)
    (hs : areaOp m op (freedBy m op) = some m') : Kept M m' := by
  obtain ⟨hheld, hhoused⟩ := held_areaOp h.held h.housed hclear hop hs
  refine ⟨hheld, ?_, hhoused, h.ram⟩
  obtain ⟨ok, v, -, rfl | rfl⟩ := areaOp_spec hclear hs
  · exact counted_setSelf h.counted rfl
  · exact counted_setSelf h.counted rfl

end Steps

end BabyOS.FrameTallies

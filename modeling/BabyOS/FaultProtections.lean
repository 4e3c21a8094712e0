import BabyOS.AreaHistory
import BabyOS.CopyOnWrite
import BabyOS.StackGrowth
import BabyOS.TableProtections

/-!
# Page faults and protections

Which entries a page fault makes present or writable, against the flags of the area
of the address, and when a writable entry lies in an area with `VM_WRITE` in every
state of a run of faults, mappings and forks.
-/

set_option autoImplicit false

namespace BabyOS.FaultProtections
open BabyOS.BuddyMachine BabyOS.AreaMachine BabyOS.AreaAttributes BabyOS.AreaHistory
open BabyOS.RadixTables BabyOS.PageMachine BabyOS.PageCounts BabyOS.TableProtections
open BabyOS.ProcessMachine
open BabyOS.StackGrowth (Aligned aligned_append aligned_cons aligned_doMmap)

/-! ## The area of a fault -/

/-- The area that an address lies in. -/
def areaAt (l : Areas) (addr : ℕ) : Option Vma :=
  (findVma l addr).2.head?.filter fun vma => vma.mStart ≤ addr

/-- The checks of `do_page_fault` that let an area grow down to the address. -/
def MayGrow (vma : Vma) (addr err rsp : ℕ) : Prop :=
  err &&& 4 ≠ 0 ∧ vma.mFlags &&& vmStack ≠ 0 ∧ (addr+64) % 2 ^ 64 ≥ rsp

instance (vma : Vma) (addr err rsp : ℕ) : Decidable (MayGrow vma addr err rsp) :=
  inferInstanceAs (Decidable (_ ∧ _ ∧ _))

/-- The area that the handler works with, before it grows. -/
def faultArea (l : Areas) (addr err rsp : ℕ) : Option Vma :=
  (findVma l addr).2.head?.filter fun vma => vma.mStart ≤ addr ∨ MayGrow vma addr err rsp

/-- The flags allow the access of the error code: a write, or else a read or a
fetch of an instruction. -/
def Allows (flags err : ℕ) : Prop :=
  if err &&& 2 ≠ 0 then flags &&& vmWrite ≠ 0 else flags &&& (vmRead ||| vmExec) ≠ 0

/-- `find_vma` cuts the list in the same place after the area has grown. -/
theorem findVma_expandStack {l before after : Areas} {vma : Vma} {addr : ℕ}
    (h : findVma l addr = (before, vma :: after)) :
    findVma (before++expandStack vma addr :: after) addr = (before, expandStack vma addr :: after) := by
  obtain ⟨hbefore, hafter⟩ := Prod.mk.inj h
  have hlow : ∀ u ∈ before, u.mEnd ≤ addr := by
    intro u hu
    rw [← hbefore] at hu
    simpa using List.mem_takeWhile_imp hu
  have hhigh : addr < vma.mEnd := by
    have hhead := List.head?_dropWhile_not (fun p : Vma => decide (¬ addr < p.mEnd)) l
    rw [hafter] at hhead
    simpa using hhead
  have hstop : ¬ (expandStack vma addr).mEnd ≤ addr := not_le.mpr hhigh
  rw [findVma, List.takeWhile_append_of_pos (by simpa using hlow),
    List.dropWhile_append_of_pos (by simpa using hlow)]
  simp [hstop]

/-- What a fault does with the list, when it does not end the process. -/
structure Selected (l l' : Areas) (addr err rsp : ℕ) (vma : Vma) : Prop where
  area : faultArea l addr err rsp = some vma
  found : ∃ v, areaAt l' addr = some v ∧ v.mFlags = vma.mFlags
  list : l' = l ∨ addr < vma.mStart ∧ ∃ before after, findVma l addr = (before, vma :: after) ∧
    l' = before++expandStack vma addr :: after

theorem faultArea_cons {l before after : Areas} {vma : Vma} {addr err rsp : ℕ}
    (hfind : findVma l addr = (before, vma :: after)) :
    faultArea l addr err rsp = if vma.mStart ≤ addr ∨ MayGrow vma addr err rsp then some vma else none := by
  rw [faultArea, hfind, List.head?_cons, Option.filter_some]
  simp only [decide_eq_true_eq]

theorem areaAt_cons {l before after : Areas} {vma : Vma} {addr : ℕ}
    (hfind : findVma l addr = (before, vma :: after)) (h : vma.mStart ≤ addr) :
    areaAt l addr = some vma := by
  rw [areaAt, hfind, List.head?_cons, Option.filter_some, if_pos (by simpa using h)]

theorem pageFault_selected {l : Areas} {addr err rsp : ℕ} {mapped : Bool} :
    (faultArea l addr err rsp = none ∧ pageFault l addr err rsp mapped = none) ∨
      ∃ vma l', Selected l l' addr err rsp vma ∧ pageFault l addr err rsp mapped =
        some (err &&& 1 == 0 || protectionFault vma (err &&& 2 != 0) mapped, l') := by
  obtain ⟨before, rest, hfind⟩ : ∃ before rest, findVma l addr = (before, rest) := ⟨_, _, rfl⟩
  cases rest with
  | nil =>
    left
    simp [faultArea, pageFault, hfind]
  | cons vma after =>
    have harea := @faultArea_cons l before after vma addr err rsp hfind
    have hresult : ∀ area : Vma, area.mFlags = vma.mFlags → ∀ l' : Areas,
        (if err &&& 1 ≠ 0 then some (protectionFault area (err &&& 2 != 0) mapped, l')
          else some (true, l')) =
          some (err &&& 1 == 0 || protectionFault vma (err &&& 2 != 0) mapped, l') := by
      intro area hflags l'
      by_cases hpresent : err &&& 1 = 0
      · rw [if_neg (not_not.mpr hpresent), beq_iff_eq.mpr hpresent, Bool.true_or]
      · rw [if_pos hpresent, beq_eq_false_iff_ne.mpr hpresent, Bool.false_or, protectionFault,
          protectionFault, hflags]
    rw [pageFault, hfind]
    simp only
    by_cases hbelow : vma.mStart > addr
    · rw [if_pos hbelow]
      by_cases hgrow : MayGrow vma addr err rsp
      · right
        rw [if_pos (Or.inr hgrow)] at harea
        have hfind' := findVma_expandStack hfind
        have hdown : (expandStack vma addr).mStart ≤ addr := AreaInvariant.pageDown_le addr
        refine ⟨vma, before++expandStack vma addr :: after,
          ⟨harea, ⟨_, areaAt_cons hfind' hdown, rfl⟩, Or.inr ⟨hbelow, before, after, hfind, rfl⟩⟩, ?_⟩
        exact (if_pos hgrow).trans (hresult _ rfl _)
      · left
        rw [if_neg (not_or.mpr ⟨not_le.mpr hbelow, hgrow⟩)] at harea
        exact ⟨harea, if_neg hgrow⟩
    · right
      rw [if_neg hbelow]
      have hin : vma.mStart ≤ addr := not_lt.mp hbelow
      rw [if_pos (Or.inl hin)] at harea
      exact ⟨vma, l, ⟨harea, ⟨vma, areaAt_cons hfind hin, rfl⟩, Or.inl rfl⟩, hresult vma rfl l⟩

/-! ## One fault -/

/-- The protection path gives up, which `do_exception` does not look at. -/
def Refused (m : Machine) (addr err : ℕ) (vma : Vma) : Prop :=
  err &&& 1 ≠ 0 ∧ (findPte m.self.tables (pageOf addr) = none ∨ err &&& 2 ≠ 0 ∧ vma.mFlags &&& vmWrite = 0)

/-- What a fault leaves when it does not end the process: only the list and the
tables of the process change, and in the tables only the entry of the page. -/
structure Handled (m m' : Machine) (addr err rsp : ℕ) (vma : Vma) : Prop where
  areas : Selected m.self.vmm.mmap m'.self.vmm.mmap addr err rsp vma
  current : m'.current = m.current
  count : m'.count = m.count
  alive : m'.self.alive = m.self.alive
  others : ∀ p, p ≠ m.current → m'.procs p = m.procs p
  entries : Refused m addr err vma ∧ m'.self.tables = m.self.tables ∨
    ¬ Refused m addr err vma ∧ ∃ frame, ∀ k, findPte m'.self.tables k =
      if k % 2 ^ 35 = pageOf addr % 2 ^ 35 then some ⟨frame, true⟩ else findPte m.self.tables k

section Faults

variable {m m' : Machine} {addr err rsp : ℕ}

@[simp] theorem setAreas_self (m : Machine) (l : Areas) :
    (m.setAreas l).self = { m.self with vmm := { m.self.vmm with mmap := l } } := by
  simp [Machine.setAreas, Machine.setSelf, Machine.self]

@[simp] theorem setTables_self (m : Machine) (t : Pml4Table) (s : Phys) :
    (m.setTables t s).self = { m.self with tables := t } := by
  simp [Machine.setTables, Machine.setSelf, Machine.self]

theorem setAreas_procs (m : Machine) (l : Areas) {p : ℕ} (h : p ≠ m.current) :
    (m.setAreas l).procs p = m.procs p := by
  simp [Machine.setAreas, Machine.setSelf, h]

theorem setTables_procs (m : Machine) (t : Pml4Table) (s : Phys) {p : ℕ} (h : p ≠ m.current) :
    (m.setTables t s).procs p = m.procs p := by
  simp [Machine.setTables, Machine.setSelf, h]

/-- The tables of the process are replaced after its list. -/
theorem handled_setTables {l : Areas} {vma : Vma} {t : Pml4Table} {s : Phys} {frame : ℕ}
    (hsel : Selected m.self.vmm.mmap l addr err rsp vma) (hpass : ¬ Refused m addr err vma)
    (ht : ∀ k, findPte t k =
      if k % 2 ^ 35 = pageOf addr % 2 ^ 35 then some ⟨frame, true⟩ else findPte m.self.tables k) :
    Handled m ((m.setAreas l).setTables t s) addr err rsp vma := by
  refine ⟨?_, rfl, rfl, ?_, fun p hp => ?_, Or.inr ⟨hpass, frame, fun k => ?_⟩⟩
  · simpa using hsel
  · simp
  · exact (setTables_procs (m.setAreas l) t s hp).trans (setAreas_procs m l hp)
  · simpa using ht k

theorem doProtectionFault_handled {l : Areas} {vma : Vma}
    (hsel : Selected m.self.vmm.mmap l addr err rsp vma) (hpass : ¬ Refused m addr err vma) {pte : Pte}
    (hpte : findPte m.self.tables (pageOf addr) = some pte)
    (h : doProtectionFault (m.setAreas l) addr = some m') : Handled m m' addr err rsp vma := by
  rw [doProtectionFault] at h
  simp only [setAreas_self, hpte] at h
  split at h
  · obtain rfl := Option.some.inj h
    exact handled_setTables hsel hpass (makePteWrite_find hpte)
  · split at h
    · cases h
    next p b hb =>
    split at h
    · cases h
    next b' hb' =>
    obtain ⟨⟨t, s⟩, hmap, rfl⟩ := Option.map_eq_some_iff.mp h
    exact handled_setTables hsel hpass (mapPage_find hmap)

theorem doNotPresent_handled {l : Areas} {vma : Vma}
    (hsel : Selected m.self.vmm.mmap l addr err rsp vma) (hpass : ¬ Refused m addr err vma)
    (h : doNotPresent (m.setAreas l) addr = some m') : Handled m m' addr err rsp vma := by
  rw [doNotPresent] at h
  simp only [setAreas_self] at h
  split at h
  · cases h
  next p b hb =>
  obtain ⟨⟨t, s⟩, hmap, rfl⟩ := Option.map_eq_some_iff.mp h
  exact handled_setTables hsel hpass (mapPage_find hmap)

theorem doPageFault_cases (h : doPageFault m addr err rsp = some m') :
    faultArea m.self.vmm.mmap addr err rsp = none ∧ ProcessMachine.exit m = some m' ∨
      ∃ vma, Handled m m' addr err rsp vma := by
  rw [doPageFault] at h
  rcases @pageFault_selected m.self.vmm.mmap addr err rsp
    (findPte m.self.tables (pageOf addr)).isSome with ⟨hnone, hs⟩ | ⟨vma, l, hsel, hs⟩
  · left
    rw [hs] at h
    exact ⟨hnone, h⟩
  · right
    refine ⟨vma, ?_⟩
    rw [hs] at h
    simp only at h
    by_cases hpresent : err &&& 1 = 0
    · rw [if_neg (not_not.mpr hpresent)] at h
      exact doNotPresent_handled hsel (fun hr => hr.1 hpresent) h
    rw [if_pos hpresent, beq_eq_false_iff_ne.mpr hpresent, Bool.false_or] at h
    by_cases hrefused : Refused m addr err vma
    · have hfail : protectionFault vma (err &&& 2 != 0)
          (findPte m.self.tables (pageOf addr)).isSome = false := by
        rcases hrefused.2 with hnone | ⟨hwrite, hflags⟩
        · simp [protectionFault, hnone]
        · simp [protectionFault, hwrite, hflags]
      rw [hfail, if_neg Bool.false_ne_true] at h
      obtain rfl := Option.some.inj h
      refine ⟨by simpa using hsel, rfl, rfl, by simp, fun p hp => setAreas_procs m l hp, Or.inl ⟨hrefused, ?_⟩⟩
      simp
    · cases hpte : findPte m.self.tables (pageOf addr) with
      | none => exact absurd ⟨hpresent, Or.inl hpte⟩ hrefused
      | some pte =>
        have hpass : protectionFault vma (err &&& 2 != 0)
            (findPte m.self.tables (pageOf addr)).isSome = true := by
          have hnot : ¬ (err &&& 2 ≠ 0 ∧ vma.mFlags &&& vmWrite = 0) :=
            fun hw => hrefused ⟨hpresent, Or.inr hw⟩
          by_cases hwrite : err &&& 2 = 0
          · simp [protectionFault, hpte, hwrite]
          · have hflags : vma.mFlags &&& vmWrite ≠ 0 := fun hz => hnot ⟨hwrite, hz⟩
            simp [protectionFault, hpte, hflags]
        rw [hpass, if_pos rfl] at h
        exact doProtectionFault_handled hsel hrefused hpte h

theorem exit_self (h : ProcessMachine.exit m = some m') :
    m'.self.alive = false ∧ m'.current = m.current ∧ m'.count = m.count ∧
      ∀ p, p ≠ m.current → m'.procs p = m.procs p := by
  obtain ⟨m₁, hrel, rfl⟩ := Option.map_eq_some_iff.mp h
  rw [release] at hrel
  split at hrel
  · cases hrel
  split at hrel
  · cases hrel
  next t s _ =>
  obtain rfl := Option.some.inj hrel
  refine ⟨by simp [Machine.setSelf, Machine.self], rfl, rfl, fun p hp => ?_⟩
  have hprocs := (setTables_procs (m.setAreas []) t s hp).trans (setAreas_procs m [] hp)
  rw [← hprocs]
  exact Function.update_of_ne hp _ _

end Faults

/-- An entry is there that was not, or it is writable and was not. -/
def Grants (t t' : Pml4Table) (n : ℕ) : Prop :=
  ∃ pte', findPte t' n = some pte' ∧
    ∀ pte, findPte t n = some pte → pte'.writable = true ∧ pte.writable = false

/-- What a fault may do to a process that goes on: the entry that it makes present or
writable is that of the address, whose area allows the access, and is writable only
under `VM_WRITE`; and an access that the area does not allow is not left as it is. -/
structure Respects (m m' : Machine) (addr err : ℕ) : Prop where
  entries : m'.self.alive = true → ∀ n < userPages, Grants m.self.tables m'.self.tables n →
    n = pageOf addr ∧ ∃ vma, areaAt m'.self.vmm.mmap addr = some vma ∧ Allows vma.mFlags err ∧
      ∀ pte, findPte m'.self.tables n = some pte → pte.writable = true → vma.mFlags &&& vmWrite ≠ 0
  allowed : m'.self.alive = true →
    ∃ vma, areaAt m'.self.vmm.mmap addr = some vma ∧ Allows vma.mFlags err

/-- The faults that the handler treats by the flags of the area: the area allows the
access, and it is writable, or the entry is writable already, or the fault is one of
protection at a page that is not mapped. -/
def ByFlags (m : Machine) (addr err rsp : ℕ) : Prop :=
  ∀ vma, faultArea m.self.vmm.mmap addr err rsp = some vma → Allows vma.mFlags err ∧
    (vma.mFlags &&& vmWrite ≠ 0 ∨
      (∃ pte, findPte m.self.tables (pageOf addr) = some pte ∧ pte.writable = true) ∨
      err &&& 1 ≠ 0 ∧ findPte m.self.tables (pageOf addr) = none)

/-- A user address, or one above every area. -/
def InReach (m : Machine) (addr : ℕ) : Prop :=
  addr < userVmSize ∨ ∀ vma ∈ m.self.vmm.mmap, vma.mEnd ≤ addr

section Faults

variable {m m' : Machine} {addr err rsp : ℕ}

theorem faultArea_mem {l : Areas} {vma : Vma} (h : faultArea l addr err rsp = some vma) :
    vma ∈ l ∧ addr < vma.mEnd := by
  obtain ⟨hhead, -⟩ := Option.filter_eq_some_iff.mp h
  obtain ⟨rest, hrest⟩ := List.head?_eq_some_iff.mp hhead
  have hdrop : l.dropWhile (fun p => ¬ addr < p.mEnd) = vma :: rest := hrest
  have hmem : vma ∈ l.dropWhile (fun p => ¬ addr < p.mEnd) := by
    rw [hdrop]
    exact List.mem_cons_self
  refine ⟨List.dropWhile_subset _ hmem, ?_⟩
  have hstop := List.head?_dropWhile_not (fun p : Vma => decide (¬ addr < p.mEnd)) l
  rw [hdrop] at hstop
  simpa using hstop

theorem page_user (h : addr < userVmSize) : pageOf addr < userPages :=
  Nat.div_lt_of_lt_mul (h.trans_eq (by decide))

theorem page_mod {n : ℕ} (h : n < userPages) : n % 2 ^ 35 = n :=
  Nat.mod_eq_of_lt (h.trans_eq (by decide))

/-- A handled fault is at a user address. -/
theorem handled_user {vma : Vma} (h : Handled m m' addr err rsp vma) (hreach : InReach m addr) :
    addr < userVmSize := by
  rcases hreach with hlow | habove
  · exact hlow
  · obtain ⟨hmem, hend⟩ := faultArea_mem h.areas.area
    exact absurd (habove vma hmem) (not_le.mpr hend)

/-- The entries of the user half after a fault that goes through. -/
theorem handled_find {vma : Vma} (h : Handled m m' addr err rsp vma) (hreach : InReach m addr)
    (hpass : ¬ Refused m addr err vma) :
    ∃ frame, ∀ n < userPages, findPte m'.self.tables n =
      if n = pageOf addr then some ⟨frame, true⟩ else findPte m.self.tables n := by
  have hpage := page_user (handled_user h hreach)
  rcases h.entries with ⟨hrefused, -⟩ | ⟨-, frame, hfind⟩
  · exact absurd hrefused hpass
  · refine ⟨frame, fun n hn => ?_⟩
    rw [hfind n, page_mod hn, page_mod hpage]

theorem grants_same {t : Pml4Table} {n : ℕ} : ¬ Grants t t n := by
  rintro ⟨pte, hpte, hold⟩
  obtain ⟨hw, hr⟩ := hold pte hpte
  rw [hw] at hr
  cases hr

/-- A fault keeps to the flags exactly when the conditions hold under which the
handler does. -/
theorem respects_iff (halive : m.self.alive = true) (hreach : InReach m addr)
    (hs : doPageFault m addr err rsp = some m') : Respects m m' addr err ↔ ByFlags m addr err rsp := by
  rcases doPageFault_cases hs with ⟨hnone, hexit⟩ | ⟨vma, h⟩
  · have hdead := (exit_self hexit).1
    refine iff_of_true ⟨fun h => ?_, fun h => ?_⟩ fun v hv => ?_
    · rw [hdead] at h
      cases h
    · rw [hdead] at h
      cases h
    · rw [hnone] at hv
      cases hv
  obtain ⟨found, hfound, hflags⟩ := h.areas.found
  have hgoes : m'.self.alive = true := h.alive.trans halive
  constructor
  · intro hrespects v hv
    obtain rfl := Option.some.inj (h.areas.area.symm.trans hv)
    obtain ⟨v', hv', hallows⟩ := hrespects.allowed hgoes
    obtain rfl := Option.some.inj (hfound.symm.trans hv')
    rw [hflags] at hallows
    refine ⟨hallows, ?_⟩
    by_contra hnot
    obtain ⟨hread, hentry⟩ := not_or.mp hnot
    obtain ⟨hro, habsent⟩ := not_or.mp hentry
    have hpass : ¬ Refused m addr err vma := by
      rintro ⟨hpresent, hnone | ⟨hwrite, -⟩⟩
      · exact habsent ⟨hpresent, hnone⟩
      · rw [Allows, if_pos hwrite] at hallows
        exact hread hallows
    obtain ⟨frame, hfind⟩ := handled_find h hreach hpass
    have hpage := page_user (handled_user h hreach)
    have hnew : findPte m'.self.tables (pageOf addr) = some ⟨frame, true⟩ := by
      rw [hfind _ hpage, if_pos rfl]
    have hgrant : Grants m.self.tables m'.self.tables (pageOf addr) := by
      refine ⟨_, hnew, fun pte hpte => ⟨rfl, ?_⟩⟩
      by_contra hw
      exact hro ⟨pte, hpte, by simpa using hw⟩
    obtain ⟨-, v, hv, -, hwritable⟩ := hrespects.entries hgoes _ hpage hgrant
    obtain rfl := Option.some.inj (hfound.symm.trans hv)
    rw [hflags] at hwritable
    exact hread (hwritable _ hnew rfl)
  · intro hby
    obtain ⟨hallows, hcase⟩ := hby vma h.areas.area
    rw [← hflags] at hallows hcase
    refine ⟨fun _ n hn hgrant => ?_, fun _ => ⟨found, hfound, hallows⟩⟩
    by_cases hrefused : Refused m addr err vma
    · rcases h.entries with ⟨-, htables⟩ | ⟨hpass, -⟩
      · rw [htables] at hgrant
        exact absurd hgrant grants_same
      · exact absurd hrefused hpass
    obtain ⟨frame, hfind⟩ := handled_find h hreach hrefused
    have hn' : n = pageOf addr := by
      by_contra hne
      rw [Grants, hfind n hn, if_neg hne] at hgrant
      exact grants_same hgrant
    subst hn'
    refine ⟨rfl, found, hfound, hallows, fun _ _ _ => ?_⟩
    rcases hcase with hw | ⟨pte, hpte, hw⟩ | habsent
    · exact hw
    · obtain ⟨pte', -, hold⟩ := hgrant
      have hr := (hold pte hpte).2
      rw [hw] at hr
      cases hr
    · exact absurd ⟨habsent.1, Or.inl habsent.2⟩ hrefused

end Faults

/-! ## Runs -/

/-- A writable user entry lies in an area with `VM_WRITE`. -/
def Confined (x : ProcessMachine.Process) : Prop :=
  ∀ a < userVmSize, ∀ pte, findPte x.tables (pageOf a) = some pte → pte.writable = true →
    ∃ vma ∈ x.vmm.mmap, Contains vma a ∧ vma.mFlags &&& vmWrite ≠ 0

structure Sane (x : ProcessMachine.Process) : Prop where
  sorted : Sorted x.vmm.mmap
  aligned : Aligned x.vmm.mmap
  confined : Confined x

/-- The processes that are alive, in a state with a current one. -/
structure Kept (m : Machine) : Prop where
  running : m.current < m.count
  sane : ∀ p < m.count, (m.procs p).alive = true → Sane (m.procs p)

/-- What happens between two faults: mappings, forks, exits, switches, stores, and the
kernel's work on its own frames. A mapping without `MAP_FIXED` stays in 64 bits. -/
def Between (m : Machine) : ProcessMachine.Event → Prop
  | .area (.mmap _ _ _ flags) => MmapBelow m.self.vmm.mmap flags
  | .fork | .exit | .schedule _ => True
  | .userStore _ _ | .kernelStore _ _ => True
  | .kernelAlloc _ | .kernelFree _ _ | .kernelWrite _ _ _ => True
  | _ => False

/-- A run from any state without a misplaced entry; each fault meets `ok`. -/
inductive Run (ok : Machine → ℕ → ℕ → ℕ → Prop) : Machine → Prop
  | start {m : Machine} : Kept m → Run ok m
  | fault {m m' : Machine} {addr err rsp : ℕ} : Run ok m → m.self.alive = true → InReach m addr →
      ok m addr err rsp → doPageFault m addr err rsp = some m' → Run ok m'
  | step {m m' : Machine} {e : ProcessMachine.Event} : Run ok m → Between m e → Step m e m' → Run ok m'

section Runs

variable {m m' : Machine} {addr err rsp : ℕ}

theorem sorted_expandStack {before after : Areas} {vma : Vma} (h : Sorted (before++vma :: after))
    (hpages : Aligned (before++vma :: after)) (hlow : ∀ u ∈ before, u.mEnd ≤ addr)
    (habove : addr < vma.mEnd) :
    Sorted (before++expandStack vma addr :: after) ∧ Aligned (before++expandStack vma addr :: after) := by
  obtain ⟨hbefore, hrest, hbv⟩ := sorted_append.mp h
  obtain ⟨-, hafter, hva⟩ := sorted_cons.mp hrest
  obtain ⟨hpb, hpr⟩ := aligned_append.mp hpages
  obtain ⟨⟨-, hend⟩, hpa⟩ := aligned_cons.mp hpr
  constructor
  · rw [sorted_append, sorted_cons]
    refine ⟨hbefore, ⟨(AreaInvariant.pageDown_le addr).trans_lt habove, hafter, hva⟩, ?_⟩
    intro u hu v hv
    rcases List.mem_cons.mp hv with rfl | hv
    · exact AreaInvariant.le_pageDown (hpb u hu).2 (hlow u hu)
    · exact hbv u hu v (List.mem_cons_of_mem vma hv)
  · rw [aligned_append, aligned_cons]
    exact ⟨hpb, ⟨AreaInvariant.pageDown_dvd addr, hend⟩, hpa⟩

/-- The list stays sorted, and every address stays in an area with the same flags. -/
theorem selected_keeps {l l' : Areas} {vma : Vma} (h : Selected l l' addr err rsp vma) (hl : Sorted l)
    (hpages : Aligned l) :
    Sorted l' ∧ Aligned l' ∧
      ∀ v ∈ l, ∀ a, Contains v a → ∃ u ∈ l', Contains u a ∧ u.mFlags = v.mFlags := by
  rcases h.list with rfl | ⟨hbelow, before, after, hfind, rfl⟩
  · exact ⟨hl, hpages, fun v hv a ha => ⟨v, hv, ha, rfl⟩⟩
  · obtain ⟨rfl, habove, hlow, -⟩ := AreaOperations.findVma_split hl hfind
    obtain ⟨hsorted, haligned⟩ := sorted_expandStack hl hpages hlow habove
    refine ⟨hsorted, haligned, fun v hv a ha => ?_⟩
    rcases List.mem_append.mp hv with hv | hv
    · exact ⟨v, List.mem_append_left _ hv, ha, rfl⟩
    · rcases List.mem_cons.mp hv with rfl | hv
      · have hdown : pageDown addr ≤ a :=
          (AreaInvariant.pageDown_le addr).trans (hbelow.le.trans ha.1)
        exact ⟨expandStack v addr, by simp, ⟨hdown, ha.2⟩, rfl⟩
      · exact ⟨v, by simp [hv], ha, rfl⟩

/-- An area with page bounds holds the whole page of each of its addresses. -/
theorem contains_page {v : Vma} {a : ℕ} (hv : pageSize ∣ v.mStart ∧ pageSize ∣ v.mEnd)
    (ha : Contains v a) {b : ℕ} (hb : pageOf b = pageOf a) : Contains v b := by
  obtain ⟨⟨i, hi⟩, ⟨j, hj⟩⟩ := hv
  obtain ⟨hlow, hhigh⟩ := ha
  have hpos : 0 < pageSize := by decide
  rw [pageOf, pageOf] at hb
  rw [hi] at hlow
  rw [hj] at hhigh
  have hia : i ≤ b / pageSize := by
    rw [hb]
    exact (Nat.le_div_iff_mul_le hpos).mpr (by rwa [mul_comm])
  have hja : b / pageSize < j := by
    rw [hb]
    exact (Nat.div_lt_iff_lt_mul hpos).mpr (by rwa [mul_comm])
  refine ⟨?_, ?_⟩
  · rw [hi, mul_comm]
    exact (Nat.le_div_iff_mul_le hpos).mp hia
  · rw [hj, mul_comm]
    exact (Nat.div_lt_iff_lt_mul hpos).mp hja

theorem areaAt_contains {l : Areas} {vma : Vma} (h : areaAt l addr = some vma) :
    vma ∈ l ∧ Contains vma addr := by
  obtain ⟨hhead, hstart⟩ := Option.filter_eq_some_iff.mp h
  have hstart : vma.mStart ≤ addr := by simpa using hstart
  have harea : faultArea l addr 0 0 = some vma :=
    Option.filter_eq_some_iff.mpr ⟨hhead, by simpa using Or.inl hstart⟩
  obtain ⟨hmem, hend⟩ := faultArea_mem harea
  exact ⟨hmem, hstart, hend⟩

theorem handled_sane {vma : Vma} (h : Handled m m' addr err rsp vma) (hreach : InReach m addr)
    (hby : ByFlags m addr err rsp) (hsane : Sane m.self) : Sane m'.self := by
  obtain ⟨hsorted, haligned, hkeeps⟩ := selected_keeps h.areas hsane.sorted hsane.aligned
  refine ⟨hsorted, haligned, fun a ha pte hpte hw => ?_⟩
  have hold : (∃ pte, findPte m.self.tables (pageOf a) = some pte ∧ pte.writable = true) →
      ∃ v ∈ m'.self.vmm.mmap, Contains v a ∧ v.mFlags &&& vmWrite ≠ 0 := by
    rintro ⟨old, hfind, hwritable⟩
    obtain ⟨v, hv, hin, hflags⟩ := hsane.confined a ha old hfind hwritable
    obtain ⟨u, hu, hin', heq⟩ := hkeeps v hv a hin
    exact ⟨u, hu, hin', heq ▸ hflags⟩
  by_cases hrefused : Refused m addr err vma
  · rcases h.entries with ⟨-, htables⟩ | ⟨hpass, -⟩
    · rw [htables] at hpte
      exact hold ⟨pte, hpte, hw⟩
    · exact absurd hrefused hpass
  obtain ⟨frame, hfind⟩ := handled_find h hreach hrefused
  rw [hfind _ (page_user ha)] at hpte
  by_cases hpage : pageOf a = pageOf addr
  · rcases (hby vma h.areas.area).2 with hflags | hbefore | habsent
    · obtain ⟨v, hv, heq⟩ := h.areas.found
      obtain ⟨hmem, hin⟩ := areaAt_contains hv
      exact ⟨v, hmem, contains_page (haligned v hmem) hin hpage, heq ▸ hflags⟩
    · rw [← hpage] at hbefore
      exact hold hbefore
    · exact absurd ⟨habsent.1, Or.inl habsent.2⟩ hrefused
  · rw [if_neg hpage] at hpte
    exact hold ⟨pte, hpte, hw⟩

/-- Only the current process changes, and it is sane if it is alive. -/
theorem kept_self (h : Kept m) (hcur : m'.current = m.current) (hcount : m'.count = m.count)
    (hothers : ∀ p, p ≠ m.current → m'.procs p = m.procs p)
    (hself : m'.self.alive = true → Sane m'.self) : Kept m' := by
  refine ⟨by rw [hcur, hcount]; exact h.running, fun p hp halive => ?_⟩
  rw [hcount] at hp
  by_cases hpc : p = m.current
  · rw [Machine.self, hcur, ← hpc] at hself
    exact hself halive
  · rw [hothers p hpc] at halive ⊢
    exact h.sane p hp halive

theorem setSelf_kept (h : Kept m) {x : ProcessMachine.Process} (hx : Sane x) : Kept (m.setSelf x) := by
  have hothers : ∀ p, p ≠ m.current → (m.setSelf x).procs p = m.procs p :=
    fun p hp => Function.update_of_ne hp _ _
  have hself : (m.setSelf x).self = x := Function.update_self _ _ _
  exact @kept_self m (m.setSelf x) h rfl rfl hothers fun _ => hself.symm ▸ hx

theorem fault_kept (h : Kept m) (halive : m.self.alive = true) (hreach : InReach m addr)
    (hby : ByFlags m addr err rsp) (hs : doPageFault m addr err rsp = some m') : Kept m' := by
  rcases doPageFault_cases hs with ⟨-, hexit⟩ | ⟨vma, hh⟩
  · obtain ⟨hdead, hcur, hcount, hothers⟩ := exit_self hexit
    refine kept_self h hcur hcount hothers fun hlive => ?_
    rw [hdead] at hlive
    cases hlive
  · exact kept_self h hh.current hh.count hh.others
      fun _ => handled_sane hh hreach hby (h.sane _ h.running halive)

theorem mmap_sane {x : ProcessMachine.Process} (h : Sane x) (addr len prot flags : ℕ) :
    Sane { x with vmm := { x.vmm with mmap := (doMmap x.vmm.mmap addr len prot flags).2 } } := by
  obtain ⟨hsorted, hmap⟩ := @doMmap_attributes x.vmm.mmap addr len h.sorted prot flags
  refine ⟨hsorted, aligned_doMmap h.aligned addr len prot flags, fun a ha pte hpte hw => ?_⟩
  obtain ⟨v, hv, hin, hflags⟩ := h.confined a ha pte hpte hw
  have hat : attributesAt x.vmm.mmap a = some (attributes v) := RangeMaps.valueAt_mem h.sorted hv hin
  rcases hmap a with hsame | ⟨hnone, -⟩
  · rw [hat] at hsame
    obtain ⟨u, hu, hin', heq⟩ := RangeMaps.valueAt_some hsame
    have hflags' : u.mFlags = v.mFlags := congrArg Prod.fst heq
    exact ⟨u, hu, hin', hflags' ▸ hflags⟩
  · rw [hat] at hnone
    cases hnone

theorem guarded_confined {t : Pml4Table} (h : Guarded pml4Level t) {x : ProcessMachine.Process}
    (ht : x.tables = t) : Confined x := by
  intro a _ pte hpte hw
  rw [ht, findPte_eq] at hpte
  rw [h _ pte hpte] at hw
  cases hw

theorem fork_kept (h : Kept m) (halive : m.self.alive = true) (hs : fork m = some m') : Kept m' := by
  rw [fork] at hs
  split at hs
  · cases hs
  split at hs
  · cases hs
  next child parent s hcopy =>
  obtain rfl := Option.some.inj hs
  obtain ⟨hchild, hparent⟩ := copyPml4Table_guards hcopy
  have hself := h.sane _ h.running halive
  refine ⟨Nat.lt_succ_of_lt h.running, fun p hp hlive => ?_⟩
  simp only at hp hlive ⊢
  by_cases hlast : p = m.count
  · subst hlast
    rw [Function.update_self, AreaRun.copyVma_eq]
    exact ⟨hself.sorted, hself.aligned, guarded_confined hchild rfl⟩
  rw [Function.update_of_ne hlast] at hlive ⊢
  by_cases hpc : p = m.current
  · rw [hpc, Function.update_self]
    exact ⟨hself.sorted, hself.aligned, guarded_confined hparent rfl⟩
  · rw [Function.update_of_ne hpc] at hlive ⊢
    exact h.sane p (by omega) hlive

theorem step_kept (h : Kept m) {e : ProcessMachine.Event} (hb : Between m e) (hs : Step m e m') :
    Kept m' := by
  cases hs with
  | @area _ op halive harea hop =>
    cases op with
    | mmap addr len prot flags =>
      simp only [areaOp, perform, freedBy, freeRange, Option.some.injEq] at harea
      subst harea
      exact setSelf_kept h (mmap_sane (h.sane _ h.running halive) addr len prot flags)
    | munmap => exact hb.elim
    | brk => exact hb.elim
    | sbrk => exact hb.elim
    | fault => exact hb.elim
  | fork halive hfork => exact fork_kept h halive hfork
  | exit halive hexit =>
    obtain ⟨hdead, hcur, hcount, hothers⟩ := exit_self hexit
    refine kept_self h hcur hcount hothers fun hlive => ?_
    rw [hdead] at hlive
    cases hlive
  | schedule hnext _ => exact ⟨hnext, h.sane⟩
  | userStore => exact ⟨h.running, h.sane⟩
  | kernelStore => exact ⟨h.running, h.sane⟩
  | kernelAlloc => exact ⟨h.running, h.sane⟩
  | kernelFree => exact ⟨h.running, h.sane⟩
  | kernelWrite => exact ⟨h.running, h.sane⟩
  | userFault => exact hb.elim
  | kernelFault => exact hb.elim
  | exec => exact hb.elim

theorem run_kept (h : Run ByFlags m) : Kept m := by
  induction h with
  | start hm => exact hm
  | fault _ halive hreach hby hs ih => exact fault_kept ih halive hreach hby hs
  | step _ hb hs ih => exact step_kept ih hb hs

/-- A page fault keeps to the flags exactly under the conditions of `ByFlags`, and in
a run whose faults all meet them every writable entry stays in a writable area. -/
theorem protections_iff (m : Machine) :
    (∀ (m' : Machine) (addr err rsp : ℕ), m.self.alive = true → InReach m addr →
      doPageFault m addr err rsp = some m' → (Respects m m' addr err ↔ ByFlags m addr err rsp)) ∧
    (Run ByFlags m → ∀ p < m.count, (m.procs p).alive = true → Confined (m.procs p)) :=
  ⟨fun _ _ _ _ halive hreach hs => respects_iff halive hreach hs,
    fun h p hp halive => ((run_kept h).sane p hp halive).confined⟩

end Runs

/-! ## The first page of a mapping -/

theorem origin_kept : Kept CopyOnWrite.origin := by
  refine ⟨Nat.one_pos, fun p _ _ => ⟨?_, ?_, ?_⟩⟩
  · change Sorted [userStack]
    exact (AreaRun.execAreas_wellFormed (by decide +kernel : execAreas [] = some [userStack])).1
  · change Aligned [userStack]
    exact aligned_cons.mpr ⟨by decide, StackGrowth.aligned_nil⟩
  · intro a _ pte hpte _
    cases hpte

/-- A write to the stack is handled by the flags. -/
theorem protections_iff_stack : ∃ m, Run ByFlags m ∧
    Respects CopyOnWrite.origin m (userVmSize-1) 6 ∧
    ∀ p < m.count, (m.procs p).alive = true → Confined (m.procs p) := by
  have hfault : (doPageFault CopyOnWrite.origin (userVmSize-1) 6 userVmSize).isSome = true := by
    decide +kernel
  obtain ⟨m, hs⟩ := Option.isSome_iff_exists.mp hfault
  have hby : ByFlags CopyOnWrite.origin (userVmSize-1) 6 userVmSize := by
    intro vma hvma
    have harea : faultArea CopyOnWrite.origin.self.vmm.mmap (userVmSize-1) 6 userVmSize = some userStack := by
      decide +kernel
    rw [harea] at hvma
    obtain rfl := Option.some.inj hvma
    exact ⟨by rw [Allows, if_pos (by decide)]; decide, Or.inl (by decide)⟩
  have hreach : InReach CopyOnWrite.origin (userVmSize-1) := Or.inl (by decide)
  have hrun : Run ByFlags m := (Run.start origin_kept).fault rfl hreach hby hs
  exact ⟨m, hrun, ((protections_iff _).1 _ _ _ _ rfl hreach hs).mpr hby, (protections_iff m).2 hrun⟩

/-- A process with a page at 0x400000 that may only be read. -/
def readable : Machine :=
  CopyOnWrite.origin.setSelf { CopyOnWrite.first with
    vmm := ⟨[⟨0x400000, 0x401000, 1, 1⟩, userStack], 0, 0⟩ }

theorem readable_run (ok : Machine → ℕ → ℕ → ℕ → Prop) : Run ok readable := by
  have hlist : (doMmap [userStack] 0x400000 0x1000 1 mapFixed).2 = [⟨0x400000, 0x401000, 1, 1⟩, userStack] := by
    decide +kernel
  have harea : areaOp CopyOnWrite.origin (.mmap 0x400000 0x1000 1 mapFixed)
      (freedBy CopyOnWrite.origin (.mmap 0x400000 0x1000 1 mapFixed)) = some readable := by
    simp only [areaOp, perform, freedBy, freeRange, readable]
    rw [← hlist]
    rfl
  have hbetween : Between CopyOnWrite.origin (.area (.mmap 0x400000 0x1000 1 mapFixed)) := by
    intro hfixed
    exact absurd hfixed (by decide)
  exact (Run.start origin_kept).step hbetween (Step.area rfl harea (by simp))

/-- The first read of a page that may only be read leaves a writable entry. -/
theorem read_makes_writable : ¬ ((∀ (m m' : Machine) (addr err rsp : ℕ), Run (fun _ _ _ _ => True) m →
      m.self.alive = true → InReach m addr → doPageFault m addr err rsp = some m' → Respects m m' addr err) ∧
    ∀ m, Run (fun _ _ _ _ => True) m → ∀ p < m.count, (m.procs p).alive = true → Confined (m.procs p)) := by
  rintro ⟨-, hall⟩
  have hfault : (doPageFault readable 0x400000 4 userVmSize).map (fun m =>
      ((m.count, (m.procs 0).alive), (m.procs 0).vmm.mmap, findPte (m.procs 0).tables (pageOf 0x400000))) =
      some ((1, true), [⟨0x400000, 0x401000, 1, 1⟩, userStack], some ⟨2046, true⟩) := by
    decide +kernel
  obtain ⟨m, hs, hm⟩ := Option.map_eq_some_iff.mp hfault
  simp only [Prod.mk.injEq] at hm
  obtain ⟨⟨hcount, halive⟩, hlist, hpte⟩ := hm
  have hrun : Run (fun _ _ _ _ => True) m :=
    (readable_run _).fault rfl (Or.inl (by decide)) trivial hs
  obtain ⟨v, hv, hin, hflags⟩ := hall m hrun 0 (by omega) halive 0x400000 (by decide) _ hpte rfl
  rw [hlist] at hv
  rcases List.mem_cons.mp hv with rfl | hv
  · exact hflags (by decide)
  · obtain rfl := List.mem_singleton.mp hv
    exact absurd hin.1 (by decide)

end BabyOS.FaultProtections

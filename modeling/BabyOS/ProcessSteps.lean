import BabyOS.ProcessChanges
import BabyOS.AreaRun

/-!
# The invariant along the steps

One lemma for each kind of step. Area operations need the conditions of the area
list, and that no page they free is mapped: `free_page_range` leaves the entries
in place.
-/

set_option autoImplicit false

namespace BabyOS.ProcessSteps
open BabyOS.BuddyMachine BabyOS.BuddyArithmetic BabyOS.AreaMachine BabyOS.FrameCounts
open BabyOS.RadixTables BabyOS.PageMachine BabyOS.PageCounts BabyOS.AreaInvariant
open BabyOS.AreaOperations BabyOS.ProcessMachine BabyOS.ProcessInvariant BabyOS.ProcessChanges

section Steps

variable {D M : Set ℕ} {m m' : Machine}

/-! ## Steps that keep the tables -/

/-- The current process gets another record with the same tables. -/
theorem sound_setSelf (h : Held D M m) {x : Process} (ht : x.tables = m.self.tables)
    (hw : WellFormed x.vmm.mmap) : Held D M (m.setSelf x) := by
  have htables : ∀ p, ((m.setSelf x).procs p).tables = (m.procs p).tables := by
    intro p
    by_cases hp : p = m.current
    · subst hp
      simpa [Machine.setSelf, Machine.self] using ht
    · simp [Machine.setSelf, hp]
  have hleaf : ∀ f, leafTotal (m.setSelf x) f = leafTotal m f := by
    intro f
    simp only [leafTotal, total, htables]
    rfl
  have htable : ∀ f, tableTotal (m.setSelf x) f = tableTotal m f := by
    intro f
    simp only [tableTotal, total, htables]
    rfl
  refine ⟨h.frames, fun f hD hf => ?_, fun f hD => ?_, fun f hf => ?_, fun f hf => ?_,
    fun p hp n pte hpte => ?_, fun p hp => ?_, h.running, fun n => ?_⟩
  · rw [hleaf, htable] at hf
    exact h.managed f hD hf
  · rw [htable]
    exact h.device f hD
  · rw [hleaf] at hf
    rw [htable]
    exact h.apart f hf
  · rw [hleaf, htable]
    exact h.enough f hf
  · rw [htables] at hpte
    rw [hleaf]
    exact h.alone p hp n pte hpte
  · by_cases hself : p = m.current
    · subst hself
      simpa [Machine.setSelf] using hw
    · simpa [Machine.setSelf, hself] using h.areas p hp
  · have hm := h.mirror n
    simp only [Machine.translate, Machine.self] at hm ⊢
    rw [htables, htables]
    exact hm

theorem sound_setAreas (h : Held D M m) {l : Areas} (hl : WellFormed l) : Held D M (m.setAreas l) :=
  sound_setSelf h rfl hl

/-- Only bytes change. -/
theorem sound_storeByte (h : Held D M m) (frame offset byte : ℕ) :
    Held D M (storeByte m frame offset byte) :=
  ⟨h.frames, h.managed, h.device, h.apart, h.enough, h.alone, h.areas, h.running, h.mirror⟩

theorem sound_schedule (h : Held D M m) {next : ℕ} (hn : next < m.count) :
    Held D M { m with current := next, cr3 := next } :=
  ⟨h.frames, h.managed, h.device, h.apart, h.enough, h.alone, h.areas, ⟨hn, hn⟩, fun _ => rfl⟩

theorem sound_reload (h : Held D M m) : Held D M { m with cr3 := m.current } :=
  ⟨h.frames, h.managed, h.device, h.apart, h.enough, h.alone, h.areas, ⟨h.running.1, h.running.1⟩,
    fun _ => rfl⟩

/-! ## Kernel objects -/

theorem sound_kernelAlloc (h : Held D M m) {order pa : ℕ} {b : Buddy}
    (hb : m.phys.buddy.allocPages order = some (pa, b)) :
    Held D M { m with
      phys := { m.phys with buddy := b }
      owned := fun f => m.owned f+if mapNr pa ≤ f ∧ f < mapNr pa+2 ^ order then 1 else 0 } := by
  obtain ⟨hfr, -, hfresh⟩ := alloc_fresh h.frames hb
  rw [mapNr_eq]
  have hzero : ∀ f, frameOf pa ≤ f ∧ f < frameOf pa+2 ^ order →
      f ∈ M ∧ leafTotal m f = 0 ∧ tableTotal m f = 0 ∧ m.owned f = 0 := by
    rintro f ⟨hlow, hhigh⟩
    have hM := hfresh.inside f hlow hhigh
    exact ⟨hM, h.clean hM (hfresh.zero f hlow hhigh).le⟩
  refine ⟨hfr, fun f hD hf => ?_, fun f hD => ?_, fun f hf => ?_, fun f hf => ?_, h.alone, h.areas,
    h.running, h.mirror⟩
  · by_cases hin : frameOf pa ≤ f ∧ f < frameOf pa+2 ^ order
    · exact (hzero f hin).1
    · change 0 < leafTotal m f+tableTotal m f+(m.owned f+_) at hf
      rw [if_neg hin] at hf
      exact h.managed f hD hf
  · obtain ⟨hM, hnone⟩ := h.device f hD
    refine ⟨hM, ?_⟩
    change tableTotal m f+(m.owned f+_) = 0
    rw [if_neg (fun hin => hM (hzero f hin).1)]
    exact hnone
  · have hnot : ¬ (frameOf pa ≤ f ∧ f < frameOf pa+2 ^ order) := by
      intro hin
      have hl := (hzero f hin).2.1
      change 0 < leafTotal m f at hf
      omega
    change tableTotal m f+(m.owned f+_) = 0
    rw [if_neg hnot]
    exact h.apart f hf
  · have henough := h.enough f hf
    change ((leafTotal m f+tableTotal m f+(m.owned f+_) : ℕ) : ℤ) ≤ b.ref f
    rw [hfresh.ref f]
    push_cast
    push_cast at henough
    linarith

theorem free_owned (h : Held D M m) {order pa : ℕ} {b : Buddy} (horder : order ≤ maxOrder)
    (howned : ownedBlock m.owned pa order) (hb : m.phys.buddy.freePages pa order = some b) :
    Frames M b ∧ ∀ f, b.ref f =
      m.phys.buddy.ref f-if mapNr pa ≤ f ∧ f < mapNr pa+2 ^ order then 1 else 0 := by
  rw [ownedBlock, mapNr_eq] at howned
  rw [mapNr_eq]
  obtain ⟨i, hi⟩ := Nat.dvd_of_mod_eq_zero howned.1
  apply free_block h.frames horder (by rw [hi, mul_comm]) ?_ hb
  intro f hlow hhigh
  have hpos := howned.2 f hlow hhigh
  by_cases hD : f ∈ D
  · have := (h.device f hD).2
    omega
  · exact h.managed f hD (by omega)

theorem sound_kernelFree (h : Held D M m) {order pa : ℕ} {b : Buddy} (horder : order ≤ maxOrder)
    (howned : ownedBlock m.owned pa order) (hb : m.phys.buddy.freePages pa order = some b) :
    Held D M { m with
      phys := { m.phys with buddy := b }
      owned := fun f => m.owned f-if mapNr pa ≤ f ∧ f < mapNr pa+2 ^ order then 1 else 0 } := by
  obtain ⟨hfr, href⟩ := free_owned h horder howned hb
  refine ⟨hfr, fun f hD hf => ?_, fun f hD => ?_, fun f hf => ?_, fun f hf => ?_, h.alone, h.areas,
    h.running, h.mirror⟩
  · apply h.managed f hD
    change 0 < leafTotal m f+tableTotal m f+(m.owned f-_) at hf
    omega
  · obtain ⟨hM, hnone⟩ := h.device f hD
    refine ⟨hM, ?_⟩
    change tableTotal m f+(m.owned f-_) = 0
    omega
  · have hapart := h.apart f hf
    change tableTotal m f+(m.owned f-_) = 0
    omega
  · have henough := h.enough f hf
    change ((leafTotal m f+tableTotal m f+(m.owned f-_) : ℕ) : ℤ) ≤ b.ref f
    rw [href f]
    by_cases hin : mapNr pa ≤ f ∧ f < mapNr pa+2 ^ order
    · have hpos := howned.2 f hin.1 hin.2
      rw [if_pos hin, if_pos hin]
      omega
    · rw [if_neg hin, if_neg hin]
      omega

/-! ## Fork -/

/-- The leaf counts of a read-only copy. -/
theorem leafCount_readOnly {t c : Pml4Table} (h : ∀ n, findPte c n = (findPte t n).map readOnly)
    (f : ℕ) : leafCount c f = leafCount t f := by
  rw [leafCount_eq, leafCount_eq]
  apply Finset.sum_congr rfl
  intro n _
  rw [pageMaps, pageMaps, h n]
  cases findPte t n <;> rfl

/-- What a fork leaves: the two trees, the counts, the bytes. -/
structure Forked (M : Set ℕ) (m m' : Machine) (child parent : Pml4Table) (first : ℕ) : Prop where
  procs : m'.procs = Function.update (Function.update m.procs m.current { m.self with tables := parent })
    m.count ⟨{ m.self.vmm with mmap := copyVma m.self.vmm.mmap }, child, true⟩
  count : m'.count = m.count+1
  current : m'.current = m.current
  cr3 : m'.cr3 = m.count
  owned : ∀ f, m'.owned f = m.owned f+if first ≤ f ∧ f < first+2 then 1 else 0
  frames : Frames M m'.phys.buddy
  ofChild : ∀ n, findPte child n = (findPte m.self.tables n).map readOnly
  ofParent : ∀ n, findPte parent n = (findPte m.self.tables n).map readOnly
  tables : ∀ f, tableCount parent f = tableCount m.self.tables f
  ref : ∀ f, m'.phys.buddy.ref f = m.phys.buddy.ref f+(if first ≤ f ∧ f < first+2 then 1 else 0)+
    tableCount child f+leafCount m.self.tables f
  struct : ∀ f, first ≤ f ∧ f < first+2 → f ∈ M ∧ m.phys.buddy.ref f = 0 ∧ tableCount child f = 0
  fresh : ∀ f, 0 < tableCount child f → f ∈ M ∧ m.phys.buddy.ref f = 0
  mem : ∀ f, (f ∈ M → 0 < m.phys.buddy.ref f) → m'.phys.mem f = m.phys.mem f

theorem fork_forked (h : Held D M m) (hs : fork m = some m') :
    ∃ child parent first, Forked M m m' child parent first := by
  rw [fork] at hs
  split at hs
  · cases hs
  next pa b hb =>
  split at hs
  · cases hs
  next child parent s' hcopy =>
  obtain rfl := Option.some.inj hs
  obtain ⟨hfr, -, hfresh⟩ := alloc_fresh h.frames hb
  obtain ⟨hgrow, hlike⟩ := copyPml4Table_spec (s := { m.phys with buddy := b }) hfr hcopy
  have hnew : ∀ f, 0 < tableCount child f → f ∈ M ∧ b.ref f = 0 :=
    fun f hf => ⟨(hgrow.fresh f hf).1, (hgrow.fresh f hf).2.1⟩
  have hpos : ∀ f, 0 < tableCount child f →
      m.phys.buddy.ref f = 0 ∧ ¬ (frameOf pa ≤ f ∧ f < frameOf pa+2 ^ 1) := by
    intro f hf
    obtain ⟨hM, hz⟩ := hnew f hf
    have hnonneg := h.frames.nonneg hM
    rw [hfresh.ref f] at hz
    split at hz
    · omega
    next hnot => exact ⟨by omega, hnot⟩
  refine ⟨child, parent, frameOf pa, rfl, rfl, rfl, rfl, fun f => by rw [mapNr_eq]; rfl, hgrow.frames,
    fun n => ?_, fun n => ?_, hlike.frames, fun f => ?_, fun f hf => ?_, fun f hf => ?_, fun f hf => ?_⟩
  · rw [findPte_eq, findPte_eq]
    exact hlike.ofChild n
  · rw [findPte_eq, findPte_eq]
    exact hlike.ofParent n
  · have hr := hgrow.ref f
    change s'.buddy.ref f = b.ref f+tableCount child f+leafCount m.self.tables f at hr
    rw [hfresh.ref f] at hr
    exact hr
  · refine ⟨hfresh.inside f hf.1 hf.2, hfresh.zero f hf.1 hf.2, ?_⟩
    by_contra hne
    exact (hpos f (Nat.pos_of_ne_zero hne)).2 hf
  · exact ⟨(hnew f hf).1, (hpos f hf).1⟩
  · change s'.mem f = m.phys.mem f
    apply hgrow.mem f
    by_contra hne
    have hzero := (hpos f (Nat.pos_of_ne_zero hne)).1
    have := hf (hnew f (Nat.pos_of_ne_zero hne)).1
    omega

section Fork

variable {child parent : Pml4Table} {first : ℕ}

/-- The numbers of the processes after a fork. -/
theorem total_fork (h : Held D M m) (hf : Forked M m m' child parent first) (w : Process → ℕ) :
    total m' w+w m.self = total m w+w { m.self with tables := parent }+
      w ⟨{ m.self.vmm with mmap := copyVma m.self.vmm.mmap }, child, true⟩ := by
  have hcur := h.running.1
  have hlast : ∑ q ∈ Finset.range m.count, w (m'.procs q) = ∑ q ∈ Finset.range m.count,
      w (Function.update m.procs m.current { m.self with tables := parent } q) := by
    apply Finset.sum_congr rfl
    intro q hq
    have hne : q ≠ m.count := by
      have := Finset.mem_range.mp hq
      omega
    rw [hf.procs, Function.update_of_ne hne]
  have hupd := total_update (x := { m.self with tables := parent }) hcur w
  have hnew : m'.procs m.count = ⟨{ m.self.vmm with mmap := copyVma m.self.vmm.mmap }, child, true⟩ := by
    rw [hf.procs, Function.update_self]
  rw [total, hf.count, Finset.sum_range_succ, hlast, hnew]
  change _+w m.self = _ at hupd
  omega

theorem leafTotal_fork (h : Held D M m) (hf : Forked M m m' child parent first) (f : ℕ) :
    leafTotal m' f = leafTotal m f+leafCount m.self.tables f := by
  have ht : leafTotal m' f+leafCount m.self.tables f =
      leafTotal m f+leafCount parent f+leafCount child f :=
    total_fork h hf fun p => leafCount p.tables f
  rw [leafCount_readOnly hf.ofChild, leafCount_readOnly hf.ofParent] at ht
  omega

theorem tableTotal_fork (h : Held D M m) (hf : Forked M m m' child parent first) (f : ℕ) :
    tableTotal m' f = tableTotal m f+tableCount child f := by
  have ht : tableTotal m' f+tableCount m.self.tables f =
      tableTotal m f+tableCount parent f+tableCount child f :=
    total_fork h hf fun p => tableCount p.tables f
  rw [hf.tables] at ht
  omega

/-- The tables of each process after a fork. -/
theorem fork_find (hf : Forked M m m' child parent first) (hcur : m.current < m.count) {p : ℕ}
    (hp : p < m'.count) :
    (p = m.count ∨ p = m.current) ∧
        (∀ n, findPte (m'.procs p).tables n = (findPte m.self.tables n).map readOnly) ∨
      (p < m.count ∧ p ≠ m.current) ∧ m'.procs p = m.procs p := by
  rw [hf.count] at hp
  by_cases hlast : p = m.count
  · left
    refine ⟨Or.inl hlast, fun n => ?_⟩
    rw [hf.procs, hlast, Function.update_self]
    exact hf.ofChild n
  by_cases hself : p = m.current
  · left
    refine ⟨Or.inr hself, fun n => ?_⟩
    rw [hf.procs, Function.update_of_ne hlast, hself, Function.update_self]
    exact hf.ofParent n
  · right
    refine ⟨⟨by omega, hself⟩, ?_⟩
    rw [hf.procs, Function.update_of_ne hlast, Function.update_of_ne hself]

theorem sound_fork (h : Held D M m) (hf : Forked M m m' child parent first) : Held D M m' := by
  have hleaf := leafTotal_fork h hf
  have htable := tableTotal_fork h hf
  have hcur := h.running.1
  have hfresh : ∀ f, f ∉ M → ¬ (first ≤ f ∧ f < first+2) ∧ tableCount child f = 0 := by
    intro f hM
    refine ⟨fun hin => hM (hf.struct f hin).1, ?_⟩
    by_contra hne
    exact hM (hf.fresh f (Nat.pos_of_ne_zero hne)).1
  refine ⟨hf.frames, fun f hD hpos => ?_, fun f hD => ?_, fun f hpos => ?_, fun f hM => ?_,
    fun p hp n pte hpte hD hw => ?_, fun p hp => ?_, ?_, fun n => ?_⟩
  · by_contra hM
    obtain ⟨hstruct, hnew⟩ := hfresh f hM
    rw [hleaf, htable, hf.owned, if_neg hstruct, hnew] at hpos
    have hle : leafCount m.self.tables f ≤ leafTotal m f :=
      le_total (w := fun p => leafCount p.tables f) hcur
    exact hM (h.managed f hD (by omega))
  · obtain ⟨hM, hnone⟩ := h.device f hD
    obtain ⟨hstruct, hnew⟩ := hfresh f hM
    rw [htable, hf.owned, if_neg hstruct, hnew]
    exact ⟨hM, hnone⟩
  · have hle : leafCount m.self.tables f ≤ leafTotal m f :=
      le_total (w := fun p => leafCount p.tables f) hcur
    rw [hleaf] at hpos
    have hold : 0 < leafTotal m f := by omega
    have hapart := h.apart f hold
    have hnone : ¬ (first ≤ f ∧ f < first+2) ∧ tableCount child f = 0 := by
      by_cases hM : f ∈ M
      · have henough := h.enough f hM
        refine ⟨fun hin => ?_, ?_⟩
        · have := (hf.struct f hin).2.1
          omega
        · by_contra hne
          have := (hf.fresh f (Nat.pos_of_ne_zero hne)).2
          omega
      · exact hfresh f hM
    rw [htable, hf.owned, if_neg hnone.1, hnone.2]
    omega
  · have henough := h.enough f hM
    rw [hleaf, htable, hf.owned, hf.ref f]
    push_cast
    push_cast at henough
    linarith
  · rcases fork_find hf hcur hp with ⟨-, hfind⟩ | ⟨⟨hlt, hne⟩, hsame⟩
    · -- a copied entry is not writable
      rw [hfind n] at hpte
      obtain ⟨q, -, rfl⟩ := Option.map_eq_some_iff.mp hpte
      cases hw
    · rw [hsame] at hpte
      have halone := h.alone p hlt n pte hpte hD hw
      have hone := one_le_leafCount hpte
      have hpair : leafCount (m.procs p).tables pte.frame+leafCount m.self.tables pte.frame ≤
          leafTotal m pte.frame :=
        pair_le_total (w := fun p => leafCount p.tables pte.frame) hlt hcur hne
      rw [hleaf]
      omega
  · have hself := h.areas _ hcur
    by_cases hlast : p = m.count
    · rw [hf.procs, hlast, Function.update_self, AreaRun.copyVma_eq]
      exact hself
    by_cases hp' : p = m.current
    · rw [hf.procs, Function.update_of_ne hlast, hp', Function.update_self]
      exact hself
    · rw [hf.procs, Function.update_of_ne hlast, Function.update_of_ne hp']
      exact h.areas p (by rw [hf.count] at hp; omega)
  · rw [hf.count, hf.current, hf.cr3]
    omega
  · have hchild : findPte (m'.procs m.count).tables n = (findPte m.self.tables n).map readOnly := by
      rw [hf.procs, Function.update_self]
      exact hf.ofChild n
    have hparent : findPte (m'.procs m.current).tables n = (findPte m.self.tables n).map readOnly := by
      rw [hf.procs, Function.update_of_ne (by omega), Function.update_self]
      exact hf.ofParent n
    rw [Machine.translate, Machine.self, hf.cr3, hf.current, hchild, hparent]

end Fork

/-! ## Exit and faults -/

theorem sound_release (h : Held D M m) (hdevice : ∀ f ∈ D, Device f) (hs : release m = some m') : Held D M m' := by
  obtain ⟨t', s', rfl, hc, -, -⟩ := release_change h hdevice hs
  have harea : Held D M (m.setAreas []) := sound_setAreas h wellFormed_nil
  have hsame : (m.setAreas []).self.tables = m.self.tables := by
    simp [Machine.setAreas, Machine.setSelf, Machine.self]
  apply harea.change
  rw [hsame]
  exact hc

theorem sound_exit (h : Held D M m) (hdevice : ∀ f ∈ D, Device f) (hs : exit m = some m') : Held D M m' := by
  obtain ⟨m₁, hrel, rfl⟩ := Option.map_eq_some_iff.mp hs
  have h₁ := sound_release h hdevice hrel
  exact sound_setSelf h₁ rfl (h₁.areas _ h₁.running.1)

theorem sound_resolved (h : Held D M m) {addr : ℕ} (hr : Resolved D M m m' addr) : Held D M m' := by
  obtain ⟨t', s', rfl, hc, -⟩ := hr.change
  exact h.change hc

theorem self_setAreas (m : Machine) (l : Areas) : (m.setAreas l).self.tables = m.self.tables ∧
    (m.setAreas l).self.vmm.mmap = l := by
  simp [Machine.setAreas, Machine.setSelf, Machine.self]

/-- The ways a fault ends: the process exits, nothing but the list changes, or
the page is resolved. -/
theorem doPageFault_cases (h : Held D M m) {addr err rsp : ℕ}
    (herr : err &&& 1 = 0 → findPte m.self.tables (pageOf addr) = none)
    (hram : ∀ pte, findPte m.self.tables (pageOf addr) = some pte → pte.frame ∉ D)
    (hs : doPageFault m addr err rsp = some m') :
    exit m = some m' ∨ ∃ l, WellFormed l ∧
      (∀ a, (∃ v ∈ m.self.vmm.mmap, v.mStart ≤ a ∧ a < v.mEnd) → ∃ v ∈ l, v.mStart ≤ a ∧ a < v.mEnd) ∧
      (∃ v ∈ l, v.mStart ≤ addr ∧ addr < v.mEnd) ∧
      (m' = m.setAreas l ∨ Resolved D M (m.setAreas l) m' addr) := by
  have hareas := h.areas _ h.running.1
  change WellFormed m.self.vmm.mmap at hareas
  rw [doPageFault] at hs
  split at hs
  · exact Or.inl hs
  next ok l hfault =>
  right
  obtain ⟨before, vma, after, hfind, hcase, hw, hok⟩ := pageFault_cases hareas hfault
  obtain ⟨hl, habove, -, -⟩ := findVma_cut hareas hfind
  have hsound : Held D M (m.setAreas l) := sound_setAreas h hw
  refine ⟨l, hw, ?_, ?_, ?_⟩
  · rintro a ⟨v, hv, hin⟩
    rcases hcase with ⟨-, rfl⟩ | ⟨hbelow, rfl⟩
    · exact ⟨v, hv, hin⟩
    · rw [hl] at hv
      rcases List.mem_append.mp hv with hv | hv
      · exact ⟨v, List.mem_append_left _ hv, hin⟩
      · rcases List.mem_cons.mp hv with rfl | hv
        · refine ⟨expandStack v addr, List.mem_append_right _ List.mem_cons_self, ?_, hin.2⟩
          exact (pageDown_le addr).trans (hbelow.le.trans hin.1)
        · exact ⟨v, List.mem_append_right _ (List.mem_cons_of_mem _ hv), hin⟩
  · rcases hcase with ⟨hin, rfl⟩ | ⟨hbelow, rfl⟩
    · exact ⟨vma, by rw [hl]; exact List.mem_append_right _ List.mem_cons_self, hin, habove⟩
    · exact ⟨expandStack vma addr, List.mem_append_right _ List.mem_cons_self, pageDown_le addr, habove⟩
  · split at hs
    · split at hs
      next hgood =>
        right
        -- the page is mapped, or `do_protection_fault` would not go on
        rw [hgood] at hok
        have hmapped : (findPte m.self.tables (pageOf addr)).isSome = true := by
          simp_all [protectionFault]
        obtain ⟨pte, hpte⟩ := Option.isSome_iff_exists.mp hmapped
        exact doProtectionFault_resolved hsound (by rw [(self_setAreas m l).1]; exact hpte) (hram pte hpte) hs
      next => exact Or.inl (Option.some.inj hs).symm
    next hzero =>
      right
      exact doNotPresent_resolved hsound
        (by rw [(self_setAreas m l).1]; exact herr (not_not.mp hzero)) hs

theorem sound_doPageFault (h : Held D M m) (hdevice : ∀ f ∈ D, Device f) {addr err rsp : ℕ}
    (herr : err &&& 1 = 0 → findPte m.self.tables (pageOf addr) = none)
    (hram : ∀ pte, findPte m.self.tables (pageOf addr) = some pte → pte.frame ∉ D)
    (hs : doPageFault m addr err rsp = some m') : Held D M m' := by
  rcases doPageFault_cases h herr hram hs with hexit | ⟨l, hw, -, -, rfl | hres⟩
  · exact sound_exit h hdevice hexit
  · exact sound_setAreas h hw
  · exact sound_resolved (sound_setAreas h hw) hres

/-- The error code says that the page is absent only if it is. -/
theorem faultCode_absent (h : Held D M m) {n : ℕ} {write user : Bool}
    (hzero : faultCode (m.translate n).isSome write user &&& 1 = 0) : findPte m.self.tables n = none := by
  rw [← h.mirror n]
  cases ht : m.translate n with
  | none => rfl
  | some pte =>
    rw [ht] at hzero
    cases write <;> cases user <;> simp [faultCode] at hzero

end Steps

end BabyOS.ProcessSteps

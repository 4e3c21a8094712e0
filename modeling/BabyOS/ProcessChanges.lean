import BabyOS.ProcessInvariant

/-!
# The changes that faults and exits make

A fault puts one frame in place of nothing, or of a shared one; or it makes the
entry of an unshared frame writable. An exit frees the pages of the areas and
the tables.
-/

set_option autoImplicit false

namespace BabyOS.ProcessChanges
open BabyOS.BuddyMachine BabyOS.BuddyArithmetic BabyOS.AreaMachine BabyOS.FrameCounts
open BabyOS.RadixTables BabyOS.PageMachine BabyOS.PageCounts BabyOS.AreaInvariant
open BabyOS.AreaOperations BabyOS.ProcessMachine BabyOS.ProcessInvariant

/-- Nothing is lost on the way: counts and references change by the same. -/
def Exact (s s' : Phys) (t t' : Pml4Table) : Prop :=
  ∀ f, s.buddy.ref f+leafCount t' f+tableCount t' f = s'.buddy.ref f+leafCount t f+tableCount t f

/-- Every page that was mapped is mapped, to a frame with the same bytes. -/
def Keeps (s s' : Phys) (t t' : Pml4Table) : Prop :=
  ∀ n pte, findPte t n = some pte → ∃ pte', findPte t' n = some pte' ∧ s'.mem pte'.frame = s.mem pte.frame

section Leaf

variable {D M : Set ℕ} {s r s' : Phys} {t t' : Pml4Table} {n f₀ : ℕ} {new : ℕ → ℕ}

/-- A fresh frame takes the place of what page `n` mapped, if anything. -/
theorem replace_change (hs : Frames M s.buddy)
    (hclean : ∀ f ∈ M, s.buddy.ref f ≤ 0 → leafCount t f = 0 ∧ tableCount t f = 0)
    (hD : ∀ f ∈ D, f ∉ M)
    (hold : ∀ pte, findPte t n = some pte → 2 ≤ s.buddy.ref pte.frame)
    (hM : f₀ ∈ M) (hzero : s.buddy.ref f₀ = 0)
    (href : ∀ f, r.buddy.ref f = s.buddy.ref f+(if f = f₀ then 1 else 0)-pageMaps t f n)
    (hmem : ∀ f, f ≠ f₀ → r.mem f = s.mem f)
    (hgrow : Grown M new (fun _ => 0) r s') (hplaced : pml4Level.Placed n ⟨f₀, true⟩ new t t') :
    Change D M s s' t t' ∧ Exact s s' t t' ∧ s'.mem f₀ = r.mem f₀ := by
  have hleaf : ∀ f, leafCount t' f+pageMaps t f n = leafCount t f+if f₀ = f then 1 else 0 :=
    placed_leafCount hplaced
  have htable := placed_tableCount hplaced
  have hpage : ∀ f, 0 < pageMaps t f n → 2 ≤ s.buddy.ref f := by
    intro f hf
    rw [pageMaps] at hf
    cases hpte : findPte t n with
    | none => simp [hpte] at hf
    | some pte =>
      have heq : pte.frame = f := by
        by_contra hne
        simp [hpte, maps, hne] at hf
      rw [← heq]
      exact hold pte hpte
  have hfresh : ∀ f, 0 < new f → f ∈ M ∧ s.buddy.ref f = 0 ∧ f ≠ f₀ := by
    intro f hf
    obtain ⟨hfM, hr, -⟩ := hgrow.fresh f hf
    have hp := hpage f
    have hle := pageMaps_le t f n
    have hnonneg := hs.nonneg hfM
    rw [href f] at hr
    split at hr
    next heq => omega
    next hne => exact ⟨hfM, by omega, hne⟩
  obtain ⟨hl₀, ht₀⟩ := hclean f₀ hM hzero.le
  have hnew₀ : new f₀ = 0 := by
    by_contra hne
    exact (hfresh f₀ (Nat.pos_of_ne_zero hne)).2.2 rfl
  have hp₀ : pageMaps t f₀ n = 0 := by
    have := hpage f₀
    omega
  have hone : leafCount t' f₀ = 1 := by
    have := hleaf f₀
    simp only [if_true] at this
    omega
  have hexact : Exact s s' t t' := by
    intro f
    have hl := hleaf f
    have ht := htable f
    rw [hgrow.ref f, href f]
    by_cases heq : f = f₀
    · rw [if_pos heq.symm] at hl
      rw [if_pos heq]
      omega
    · rw [if_neg (Ne.symm heq)] at hl
      rw [if_neg heq]
      omega
  refine ⟨⟨hgrow.frames, ?_, ?_, fun f _ => (hexact f).le, ?_, ?_, ?_, ?_⟩, hexact, hgrow.mem f₀ hnew₀⟩
  · intro f _
    have hl := hleaf f
    have ht := htable f
    by_cases hnew : 0 < new f
    · exact Or.inl (hfresh f hnew).1
    · by_cases heq : f₀ = f
      · exact Or.inl (by rwa [← heq])
      · rw [if_neg heq] at hl
        right
        omega
  · intro f hf
    have hnew : ¬ 0 < new f := fun hpos => hD f hf (hfresh f hpos).1
    rw [htable]
    omega
  · intro f _
    by_cases heq : f₀ = f
    · subst heq
      exact Or.inr ⟨hzero, by rw [htable, hnew₀, ht₀], hone⟩
    · have hl := hleaf f
      rw [if_neg heq] at hl
      exact Or.inl (by omega)
  · intro f hM'
    rcases Nat.eq_zero_or_pos (new f) with hnew | hnew
    · exact Or.inl (by rw [htable, hnew, add_zero])
    · obtain ⟨-, hr, hne⟩ := hfresh f hnew
      have hl := hleaf f
      rw [if_neg (Ne.symm hne), (hclean f hM' hr.le).1] at hl
      exact Or.inr ⟨hr, by omega⟩
  · intro k pte hpte _ hw
    rw [placed_find hplaced] at hpte
    split at hpte
    · obtain rfl := Option.some.inj hpte
      refine Or.inr ⟨?_, hone⟩
      rw [hzero]
      exact Int.natCast_nonneg _
    · exact Or.inl hpte
  · intro f hpos _
    have hne : f ≠ f₀ := by
      rintro rfl
      have := hpos hM
      omega
    have hnew : new f = 0 := by
      by_contra hne'
      obtain ⟨hfM, hr, -⟩ := hfresh f (Nat.pos_of_ne_zero hne')
      have := hpos hfM
      omega
    rw [hgrow.mem f hnew, hmem f hne]

end Leaf

section Faults

variable {D M : Set ℕ} {m m' : Machine} {addr : ℕ}

/-- What a fault does to the machine: new tables, loaded into CR3. -/
structure Resolved (D M : Set ℕ) (m m' : Machine) (addr : ℕ) : Prop where
  change : ∃ t' s', m' = m.setTables t' s' ∧ Change D M m.phys s' m.self.tables t' ∧
    Exact m.phys s' m.self.tables t' ∧ Keeps m.phys s' m.self.tables t' ∧
    ∃ pte, pte.writable = true ∧ ∀ n, findPte t' n =
      if n % 2 ^ 35 = pageOf addr % 2 ^ 35 then some pte else findPte m.self.tables n

theorem keeps_of_placed {s' : Phys} {t' : Pml4Table} {new : ℕ → ℕ} {pte₀ : Pte} {n₀ : ℕ}
    (h : Held D M m) (hc : Change D M m.phys s' m.self.tables t')
    (hplaced : pml4Level.Placed n₀ pte₀ new m.self.tables t')
    (hbytes : ∀ pte, findPte m.self.tables n₀ = some pte → s'.mem pte₀.frame = m.phys.mem pte.frame) :
    Keeps m.phys s' m.self.tables t' := by
  intro n pte hpte
  rw [placed_find hplaced]
  split
  next heq =>
    refine ⟨pte₀, rfl, hbytes pte ?_⟩
    rw [← findPte_mod, ← heq, findPte_mod]
    exact hpte
  next =>
    refine ⟨pte, hpte, ?_⟩
    obtain ⟨hpos, htable⟩ := h.leaf_frame h.running.1 hpte
    have hself : tableCount m.self.tables pte.frame ≤ tableTotal m pte.frame :=
      le_total (w := fun p => tableCount p.tables pte.frame) h.running.1
    exact hc.mem _ hpos (by omega)

/-- The not-present path. -/
theorem doNotPresent_resolved (h : Held D M m) (hnone : findPte m.self.tables (pageOf addr) = none)
    (hs : doNotPresent m addr = some m') : Resolved D M m m' addr := by
  rw [doNotPresent] at hs
  split at hs
  · cases hs
  next pa b hb =>
  obtain ⟨⟨t', s'⟩, hmap, rfl⟩ := Option.map_eq_some_iff.mp hs
  obtain ⟨hfr, -, hM, hzero, href⟩ := alloc_one h.frames hb
  obtain ⟨new, hgrow, hplaced⟩ := mapPage_spec (s := { m.phys with buddy := b }) hfr hmap
  rw [mapNr_eq] at hplaced
  have hpage : ∀ f, pageMaps m.self.tables f (pageOf addr) = 0 :=
    fun f => by rw [pageMaps, hnone, Option.elim_none]
  obtain ⟨hchange, hexact, -⟩ := replace_change (r := { m.phys with buddy := b }) h.frames
    (fun f hM hf => h.self_clean hM hf) (fun f hf => (h.device f hf).1) (fun pte hpte => by rw [hnone] at hpte; cases hpte)
    hM hzero (fun f => by rw [href f, hpage]; simp) (fun _ _ => rfl) hgrow hplaced
  refine ⟨t', s', rfl, hchange, hexact, keeps_of_placed h hchange hplaced ?_, _, rfl, placed_find hplaced⟩
  intro pte hpte
  rw [hnone] at hpte
  cases hpte

/-- An entry is made writable: the frame has one reference, so it is this one. -/
theorem makeWritable_resolved (h : Held D M m) {pte : Pte}
    (hpte : findPte m.self.tables (pageOf addr) = some pte) (hone : m.phys.buddy.ref pte.frame = 1) :
    Resolved D M m (m.setTables (makePteWrite m.self.tables (pageOf addr)) m.phys) addr := by
  have hplaced := makePteWrite_spec hpte
  have hleaf : ∀ f, leafCount (makePteWrite m.self.tables (pageOf addr)) f =
      leafCount m.self.tables f := by
    intro f
    have hcount := placed_leafCount hplaced f
    rw [pageMaps, hpte, Option.elim_some, maps] at hcount
    exact Nat.add_right_cancel hcount
  have htable : ∀ f, tableCount (makePteWrite m.self.tables (pageOf addr)) f =
      tableCount m.self.tables f := fun f => (placed_tableCount hplaced f).trans (Nat.add_zero _)
  have hexact : Exact m.phys m.phys m.self.tables (makePteWrite m.self.tables (pageOf addr)) := by
    intro f
    rw [hleaf, htable]
  have hchange : Change D M m.phys m.phys m.self.tables (makePteWrite m.self.tables (pageOf addr)) := by
    refine ⟨h.frames, fun f _ => Or.inr ⟨(hleaf f).le, (htable f).le⟩, fun f _ => (htable f).le,
      fun f _ => (hexact f).le, fun f _ => Or.inl (hleaf f).le, fun f _ => Or.inl (htable f).le, ?_,
      fun _ _ _ => rfl⟩
    · intro n q hq hD hw
      rw [placed_find hplaced] at hq
      split at hq
      · obtain rfl := Option.some.inj hq
        obtain ⟨hM, hcount, htotal⟩ := h.mapped h.running.1 hpte hD
        have hle : leafCount m.self.tables pte.frame ≤ leafTotal m pte.frame :=
          le_total (w := fun p => leafCount p.tables pte.frame) h.running.1
        have henough := h.enough _ hM
        have hself : 1 ≤ leafCount m.self.tables pte.frame := hcount
        refine Or.inr ⟨?_, ?_⟩
        · change m.phys.buddy.ref pte.frame ≤ (leafCount m.self.tables pte.frame : ℤ)
          omega
        · change leafCount _ pte.frame = 1
          rw [hleaf]
          omega
      · exact Or.inl hq
  refine ⟨_, _, rfl, hchange, hexact, keeps_of_placed h hchange hplaced ?_, _, rfl, placed_find hplaced⟩
  intro q hq
  rw [hpte] at hq
  obtain rfl := Option.some.inj hq
  rfl

/-- `do_protection_fault`: a shared frame is copied, an unshared one made
writable. -/
theorem doProtectionFault_resolved (h : Held D M m) {pte : Pte}
    (hpte : findPte m.self.tables (pageOf addr) = some pte) (hD : pte.frame ∉ D)
    (hs : doProtectionFault m addr = some m') : Resolved D M m m' addr := by
  have hoff : addr % pageSize < pageSize := Nat.mod_lt _ (by decide)
  obtain ⟨hM, hcount, -⟩ := h.mapped h.running.1 hpte hD
  have hpos := (h.leaf_frame h.running.1 hpte).1 hM
  rw [doProtectionFault, hpte] at hs
  simp only [Buddy.getPageRef, mapNr_eq, frameOf_offset hoff] at hs
  split at hs
  next hone =>
    obtain rfl := Option.some.inj hs
    exact makeWritable_resolved h hpte hone
  next hshared =>
  split at hs
  · cases hs
  next pa b hb =>
  split at hs
  · cases hs
  next b' hb' =>
  obtain ⟨⟨t', s'⟩, hmap, rfl⟩ := Option.map_eq_some_iff.mp hs
  obtain ⟨hfr, -, hM₀, hzero, href⟩ := alloc_one h.frames hb
  obtain ⟨hfr', href'⟩ := free_one hfr (by rwa [frameOf_offset hoff]) hb'
  rw [frameOf_offset hoff] at href'
  set s₁ : Phys := ⟨b', Function.update m.phys.mem (frameOf pa) (m.phys.mem pte.frame)⟩ with hs₁
  obtain ⟨new, hgrow, hplaced⟩ := mapPage_spec (s := s₁) hfr' hmap
  have hpage : ∀ f, pageMaps m.self.tables f (pageOf addr) = if f = pte.frame then 1 else 0 := by
    intro f
    rw [pageMaps, hpte, Option.elim_some, maps]
    simp only [eq_comm]
  have hold : ∀ q, findPte m.self.tables (pageOf addr) = some q → 2 ≤ m.phys.buddy.ref q.frame := by
    intro q hq
    rw [hpte] at hq
    obtain rfl := Option.some.inj hq
    omega
  obtain ⟨hchange, hexact, hbytes⟩ := replace_change (r := s₁) h.frames
    (fun f hM hf => h.self_clean hM hf) (fun f hf => (h.device f hf).1) hold hM₀ hzero
    (fun f => by
      rw [hpage]
      change b'.ref f = _
      rw [href' f, href f]
      push_cast
      rfl)
    (fun f hne => Function.update_of_ne hne _ _) hgrow hplaced
  refine ⟨t', s', rfl, hchange, hexact, keeps_of_placed h hchange hplaced ?_, _, rfl, placed_find hplaced⟩
  intro q hq
  rw [hpte] at hq
  obtain rfl := Option.some.inj hq
  rw [hbytes]
  exact Function.update_self _ _ _

end Faults

/-! ## Release -/

section Release

variable {D M : Set ℕ} {m m' : Machine}

/-- The page ranges of a list of areas. -/
theorem areas_ordered {l : Areas} (h : WellFormed l) :
    OrderedRanges.Ordered firstPage lastPage l ∧ ∀ v ∈ l, lastPage v ≤ 2 ^ 35 := by
  refine ⟨⟨fun v hv => ?_, h.1.2.imp (fun huv => Nat.div_le_div_right huv)⟩, fun v hv => ?_⟩
  · obtain ⟨⟨a, ha⟩, ⟨b, hb⟩, -⟩ := h.2 v hv
    have hlt := h.1.1 v hv
    have hpos : 0 < pageSize := by decide
    rw [firstPage, lastPage, pageOf, pageOf, ha, hb, Nat.mul_div_cancel_left _ hpos,
      Nat.mul_div_cancel_left _ hpos]
    rw [ha, hb] at hlt
    exact Nat.lt_of_mul_lt_mul_left hlt
  · exact (Nat.div_le_div_right (h.2 v hv).2.2).trans (by decide)

/-- The pages of well-formed areas are pages of user memory, each counted once. -/
theorem areas_sum {l : Areas} (h : WellFormed l) (t : Pml4Table) (f : ℕ) :
    OrderedRanges.rangeSum firstPage lastPage (pageMaps t f) l ≤ leafCount t f ∧
    ((∀ n pte, n < 2 ^ 35 → findPte t n = some pte → ∃ v ∈ l, firstPage v ≤ n ∧ n < lastPage v) →
      OrderedRanges.rangeSum firstPage lastPage (pageMaps t f) l = leafCount t f) := by
  obtain ⟨hpages, hend⟩ := areas_ordered h
  rw [leafCount_eq, Finset.range_eq_Ico]
  refine ⟨OrderedRanges.rangeSum_le _ hpages (Nat.zero_le _) (fun _ _ => Nat.zero_le _) hend,
    fun hin => OrderedRanges.rangeSum_eq _ hpages (Nat.zero_le _) (fun _ _ => Nat.zero_le _) hend ?_⟩
  intro n _ hn hout
  rw [pageMaps]
  cases hpte : findPte t n with
  | none => rfl
  | some pte =>
    obtain ⟨v, hv, hvn⟩ := hin n pte hn hpte
    exact absurd hvn (hout v hv)

/-- Every mapped page lies in an area. -/
def Inside (p : Process) : Prop :=
  ∀ n pte, n < 2 ^ 35 → findPte p.tables n = some pte →
    ∃ v ∈ p.vmm.mmap, firstPage v ≤ n ∧ n < lastPage v

theorem empty_find (frame n : ℕ) : findPte ⟨frame, fun _ => none⟩ n = none := rfl

theorem empty_leafCount (frame f : ℕ) : leafCount ⟨frame, fun _ => none⟩ f = 0 := by
  rw [leafCount_eq]
  exact Finset.sum_eq_zero (fun n _ => by rw [pageMaps, empty_find, Option.elim_none])

theorem empty_tableCount (frame f : ℕ) :
    tableCount ⟨frame, fun _ => none⟩ f = if frame = f then 1 else 0 :=
  (Level.blank_up (L := pdpLevel) frame).2.2 f

theorem root_le_tableCount (t : Pml4Table) (f : ℕ) : (if t.frame = f then 1 else 0) ≤ tableCount t f :=
  Nat.le_add_right _ _

theorem release_change (h : Held D M m) (hdevice : ∀ f ∈ D, Device f) (hs : release m = some m') :
    ∃ t' s', m' = (m.setAreas []).setTables t' s' ∧ Change D M m.phys s' m.self.tables t' ∧
      t' = ⟨m.self.tables.frame, fun _ => none⟩ ∧
      ((∀ n pte, findPte m.self.tables n = some pte → ¬ Device pte.frame) → Inside m.self → Exact m.phys s' m.self.tables t') := by
  rw [release] at hs
  split at hs
  · cases hs
  next s₁ hfree =>
  split at hs
  · cases hs
  next t' s' htables =>
  obtain rfl := Option.some.inj hs
  have hself : m.procs m.current = m.self := rfl
  have hareas := h.areas _ h.running.1
  rw [hself] at hareas
  have hM : ∀ n pte, findPte m.self.tables n = some pte → pte.frame ∈ M ∨ Device pte.frame := by
    intro n pte hpte
    by_cases hD : pte.frame ∈ D
    · exact Or.inr (hdevice _ hD)
    · exact Or.inl (h.mapped h.running.1 hpte hD).1
  obtain ⟨old, hdrop, hle, heq⟩ := freeAreas_dropped hM
    (fun v hv => ⟨hareas.1.1 v hv, (hareas.2 v hv).1, (hareas.2 v hv).2.1⟩) h.frames hfree
  obtain ⟨hshrunk, rfl⟩ := freePml4Table_spec hdrop.frames
    (fun f hf => h.self_table f hf) htables
  have hcount : ∀ f, old f ≤ leafCount m.self.tables f :=
    fun f => (hle f).trans (areas_sum hareas _ f).1
  have href : ∀ f, s'.buddy.ref f+old f+tableCount m.self.tables f =
      m.phys.buddy.ref f+if m.self.tables.frame = f then 1 else 0 := by
    intro f
    have hroot := root_le_tableCount m.self.tables f
    rw [hshrunk.ref, hdrop.ref]
    push_cast [hroot]
    ring
  refine ⟨_, s', rfl, ⟨hshrunk.frames, ?_, ?_, ?_, ?_, ?_, ?_, ?_⟩, rfl, ?_⟩
  · intro f _
    rw [empty_leafCount, empty_tableCount]
    exact Or.inr ⟨Nat.zero_le _, root_le_tableCount _ f⟩
  · intro f _
    rw [empty_tableCount]
    exact root_le_tableCount _ f
  · intro f _
    have hr := href f
    have hc := hcount f
    rw [empty_leafCount, empty_tableCount]
    push_cast
    omega
  · intro f _
    rw [empty_leafCount]
    exact Or.inl (Nat.zero_le _)
  · intro f _
    rw [empty_tableCount]
    exact Or.inl (root_le_tableCount _ f)
  · intro n pte hpte
    rw [empty_find] at hpte
    cases hpte
  · intro f _ hzero
    rw [hshrunk.mem f (by omega), hdrop.mem]
  · intro hdev hin f
    have hr := href f
    have hold : old f = leafCount m.self.tables f := by
      rw [heq hdev f]
      exact (areas_sum hareas _ f).2 hin
    rw [empty_leafCount, empty_tableCount]
    push_cast
    omega

end Release

end BabyOS.ProcessChanges

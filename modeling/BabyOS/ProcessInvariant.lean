import BabyOS.ProcessMachine
import BabyOS.PageCounts
import BabyOS.AreaOperations
import BabyOS.RangeSums

/-!
# What holds of every machine state

Each count covers the leaf entries, the tables and the kernel objects that refer
to the frame; frames of tables and kernel objects are mapped nowhere; a writable
entry is the only one of its frame. A step changes the tables of one process;
`Change` says what the change has to satisfy, and the invariant follows.
-/

set_option autoImplicit false

namespace BabyOS.ProcessInvariant
open BabyOS.BuddyMachine BabyOS.BuddyArithmetic BabyOS.AreaMachine BabyOS.FrameCounts
open BabyOS.RadixTables BabyOS.PageMachine BabyOS.PageCounts BabyOS.AreaInvariant
open BabyOS.AreaOperations BabyOS.ProcessMachine BabyOS.RangeSums

/-! ## Entries and counts of one tree -/

section Tree

variable {t t' : Pml4Table} {n m f : ℕ} {pte pte' : Pte} {new : ℕ → ℕ}

theorem leafCount_eq (t : Pml4Table) (f : ℕ) :
    leafCount t f = ∑ n ∈ Finset.range (2 ^ 35), pageMaps t f n := by
  rw [leafCount, pml4Level.leaves_eq, pml4_span]
  simp only [pageMaps, findPte_eq]

theorem pageMaps_le (t : Pml4Table) (f n : ℕ) : pageMaps t f n ≤ 1 := by
  rw [pageMaps]
  cases findPte t n with
  | none => exact Nat.zero_le _
  | some pte =>
    rw [Option.elim_some, maps]
    split <;> omega

theorem findPte_mod (t : Pml4Table) (n : ℕ) : findPte t (n % 2 ^ 35) = findPte t n := by
  rw [findPte_eq, findPte_eq, ← pml4_span, pml4Level.find_mod]

theorem one_le_leafCount (h : findPte t n = some pte) : 1 ≤ leafCount t pte.frame := by
  rw [← findPte_mod, findPte_eq] at h
  have := pml4Level.find_le (maps pte.frame) (Nat.mod_lt n pml4Level.span_pos) h
  simpa [maps, leafCount] using this

theorem two_le_leafCount (hne : n % 2 ^ 35 ≠ m % 2 ^ 35) (h : findPte t n = some pte)
    (h' : findPte t m = some pte') (hf : pte.frame = pte'.frame) : 2 ≤ leafCount t pte.frame := by
  rw [← findPte_mod, findPte_eq] at h h'
  have := pml4Level.find_pair (maps pte.frame) (Nat.mod_lt n pml4Level.span_pos)
    (Nat.mod_lt m pml4Level.span_pos) hne h h'
  simpa [maps, leafCount, hf] using this

theorem placed_find (h : pml4Level.Placed n pte new t t') (m : ℕ) :
    findPte t' m = if m % 2 ^ 35 = n % 2 ^ 35 then some pte else findPte t m := by
  rw [findPte_eq, findPte_eq, h.find, pml4_span]

theorem placed_leafCount (h : pml4Level.Placed n pte new t t') (f : ℕ) :
    leafCount t' f+pageMaps t f n = leafCount t f+if pte.frame = f then 1 else 0 := by
  rw [pageMaps, findPte_eq]
  exact h.leaves (maps f)

theorem placed_tableCount (h : pml4Level.Placed n pte new t t') (f : ℕ) :
    tableCount t' f = tableCount t f+new f := h.frames f

end Tree

/-! ## The invariant -/

/-- A number for each process, added up. -/
def total (m : Machine) (w : Process → ℕ) : ℕ := ∑ p ∈ Finset.range m.count, w (m.procs p)

def leafTotal (m : Machine) (f : ℕ) : ℕ := total m fun p => leafCount p.tables f

def tableTotal (m : Machine) (f : ℕ) : ℕ := total m fun p => tableCount p.tables f

/-- The frames of `M` are counted. Those of `D` are device memory, which any
number of writable entries may map. -/
structure Held (D M : Set ℕ) (m : Machine) : Prop where
  frames : Frames M m.phys.buddy
  managed : ∀ f ∉ D, 0 < leafTotal m f+tableTotal m f+m.owned f → f ∈ M
  device : ∀ f ∈ D, f ∉ M ∧ tableTotal m f+m.owned f = 0
  apart : ∀ f, 0 < leafTotal m f → tableTotal m f+m.owned f = 0
  enough : ∀ f ∈ M, ((leafTotal m f+tableTotal m f+m.owned f : ℕ) : ℤ) ≤ m.phys.buddy.ref f
  alone : ∀ p < m.count, ∀ n pte, findPte (m.procs p).tables n = some pte → pte.frame ∉ D →
    pte.writable = true → leafTotal m pte.frame = 1
  areas : ∀ p < m.count, WellFormed (m.procs p).vmm.mmap
  running : m.current < m.count ∧ m.cr3 < m.count
  mirror : ∀ n, m.translate n = findPte m.self.tables n

/-- No device memory is mapped. -/
abbrev Sound (M : Set ℕ) (m : Machine) : Prop := Held ∅ M m

section Totals

variable {m : Machine} {p q : ℕ} {x : Process} {w : Process → ℕ}

theorem le_total (hp : p < m.count) : w (m.procs p) ≤ total m w :=
  Finset.single_le_sum (f := fun q => w (m.procs q)) (fun _ _ => Nat.zero_le _)
    (Finset.mem_range.mpr hp)

theorem pair_le_total (hp : p < m.count) (hq : q < m.count) (hpq : p ≠ q) :
    w (m.procs p)+w (m.procs q) ≤ total m w := by
  have hsub : ({p, q} : Finset ℕ) ⊆ Finset.range m.count := by
    intro k hk
    rcases Finset.mem_insert.mp hk with rfl | hk
    · exact Finset.mem_range.mpr hp
    · rw [Finset.mem_singleton.mp hk]
      exact Finset.mem_range.mpr hq
  have h := Finset.sum_le_sum_of_subset (f := fun q => w (m.procs q)) hsub
  rwa [Finset.sum_pair hpq] at h

/-- One process is replaced. -/
theorem total_update (hp : p < m.count) (w : Process → ℕ) :
    ∑ q ∈ Finset.range m.count, w (Function.update m.procs p x q)+w (m.procs p) = total m w+w x :=
  sum_update hp w m.procs x

end Totals

section Facts

variable {D M : Set ℕ} {m : Machine} {p n f : ℕ} {pte : Pte}

theorem mapped_total (hp : p < m.count)
    (hpte : findPte (m.procs p).tables n = some pte) :
    1 ≤ leafCount (m.procs p).tables pte.frame ∧ 1 ≤ leafTotal m pte.frame := by
  have hone := one_le_leafCount hpte
  exact ⟨hone, hone.trans (le_total (w := fun p => leafCount p.tables pte.frame) hp)⟩

theorem Held.mapped (h : Held D M m) (hp : p < m.count)
    (hpte : findPte (m.procs p).tables n = some pte) (hD : pte.frame ∉ D) :
    pte.frame ∈ M ∧ 1 ≤ leafCount (m.procs p).tables pte.frame ∧ 1 ≤ leafTotal m pte.frame := by
  obtain ⟨hone, htotal⟩ := mapped_total hp hpte
  exact ⟨h.managed _ hD (by omega), hone, htotal⟩

theorem Held.not_device (h : Held D M m) (hf : f ∈ M) : f ∉ D := fun hD => (h.device f hD).1 hf

/-- A frame without a count is used by nobody. -/
theorem Held.clean (h : Held D M m) (hM : f ∈ M) (hf : m.phys.buddy.ref f ≤ 0) :
    leafTotal m f = 0 ∧ tableTotal m f = 0 ∧ m.owned f = 0 := by
  have := h.enough f hM
  omega

theorem Held.self_clean (h : Held D M m) (hM : f ∈ M) (hf : m.phys.buddy.ref f ≤ 0) :
    leafCount m.self.tables f = 0 ∧ tableCount m.self.tables f = 0 := by
  obtain ⟨hleaf, htable, -⟩ := h.clean hM hf
  have h₁ := le_total (w := fun p => leafCount p.tables f) h.running.1
  have h₂ := le_total (w := fun p => tableCount p.tables f) h.running.1
  rw [leafTotal] at hleaf
  rw [tableTotal] at htable
  simp only [Machine.self]
  omega

theorem Held.self_table (h : Held D M m) (f : ℕ) (hf : 0 < tableCount m.self.tables f) : f ∈ M := by
  have hle : tableCount m.self.tables f ≤ tableTotal m f :=
    le_total (w := fun p => tableCount p.tables f) h.running.1
  by_cases hD : f ∈ D
  · have := (h.device f hD).2
    omega
  · exact h.managed f hD (by omega)

/-- A mapped frame holds no table, and has a count if it is memory. -/
theorem Held.leaf_frame (h : Held D M m) (hp : p < m.count)
    (hpte : findPte (m.procs p).tables n = some pte) :
    (pte.frame ∈ M → 0 < m.phys.buddy.ref pte.frame) ∧ tableTotal m pte.frame = 0 := by
  obtain ⟨-, hone⟩ := mapped_total hp hpte
  have hapart := h.apart _ hone
  refine ⟨fun hM => ?_, by omega⟩
  have henough := h.enough _ hM
  omega

end Facts

/-! ## A change of one process's tables -/

/-- The tables of a process go from `t` to `t'` while the allocator and the
memory go from `s` to `s'`. -/
structure Change (D M : Set ℕ) (s s' : Phys) (t t' : Pml4Table) : Prop where
  frames : Frames M s'.buddy
  managed : ∀ f ∉ D, f ∈ M ∨ leafCount t' f ≤ leafCount t f ∧ tableCount t' f ≤ tableCount t f
  device : ∀ f ∈ D, tableCount t' f ≤ tableCount t f
  balance : ∀ f ∈ M, s.buddy.ref f+leafCount t' f+tableCount t' f ≤
    s'.buddy.ref f+leafCount t f+tableCount t f
  leafFresh : ∀ f ∈ M, leafCount t' f ≤ leafCount t f ∨
    s.buddy.ref f = 0 ∧ tableCount t' f = 0 ∧ leafCount t' f = 1
  tableFresh : ∀ f ∈ M, tableCount t' f ≤ tableCount t f ∨ s.buddy.ref f = 0 ∧ leafCount t' f = 0
  alone : ∀ n pte, findPte t' n = some pte → pte.frame ∉ D → pte.writable = true →
    findPte t n = some pte ∨
      s.buddy.ref pte.frame ≤ leafCount t pte.frame ∧ leafCount t' pte.frame = 1
  mem : ∀ f, (f ∈ M → 0 < s.buddy.ref f) → tableCount t f = 0 → s'.mem f = s.mem f

section Changes

variable {D M : Set ℕ} {m : Machine} {s' : Phys} {t' : Pml4Table} {f : ℕ}

theorem leafTotal_setTables (h : Held D M m) (f : ℕ) :
    leafTotal (m.setTables t' s') f+leafCount m.self.tables f = leafTotal m f+leafCount t' f :=
  total_update h.running.1 fun p => leafCount p.tables f

theorem tableTotal_setTables (h : Held D M m) (f : ℕ) :
    tableTotal (m.setTables t' s') f+tableCount m.self.tables f = tableTotal m f+tableCount t' f :=
  total_update h.running.1 fun p => tableCount p.tables f

/-- The invariant after a change of the current process's tables. -/
theorem Held.change (h : Held D M m) (hc : Change D M m.phys s' m.self.tables t') :
    Held D M (m.setTables t' s') := by
  have hleaf : ∀ f, leafTotal (m.setTables t' s') f+leafCount m.self.tables f =
      leafTotal m f+leafCount t' f := leafTotal_setTables h
  have htable : ∀ f, tableTotal (m.setTables t' s') f+tableCount m.self.tables f =
      tableTotal m f+tableCount t' f := tableTotal_setTables h
  have hself : ∀ f, leafCount m.self.tables f ≤ leafTotal m f ∧
      tableCount m.self.tables f ≤ tableTotal m f := fun f =>
    ⟨le_total (w := fun p => leafCount p.tables f) h.running.1,
      le_total (w := fun p => tableCount p.tables f) h.running.1⟩
  refine ⟨hc.frames, ?_, ?_, ?_, ?_, ?_, ?_, ⟨h.running.1, h.running.1⟩, ?_⟩
  · intro f hD hf
    have hl := hleaf f
    have ht := htable f
    have hs := hself f
    rcases hc.managed f hD with hM | hle
    · exact hM
    · apply h.managed f hD
      have howned : (m.setTables t' s').owned f = m.owned f := rfl
      omega
  · intro f hD
    obtain ⟨hM, hnone⟩ := h.device f hD
    have ht := htable f
    have hs := hself f
    have howned : (m.setTables t' s').owned f = m.owned f := rfl
    refine ⟨hM, ?_⟩
    have hle := hc.device f hD
    omega
  · intro f hf
    have hl := hleaf f
    have ht := htable f
    have hs := hself f
    have hapart := h.apart f
    have howned : (m.setTables t' s').owned f = m.owned f := rfl
    by_cases hD : f ∈ D
    · have hnone := (h.device f hD).2
      have hle := hc.device f hD
      omega
    rcases hc.managed f hD with hM | hle
    · rcases hc.tableFresh f hM with htf | ⟨hzero, hnone⟩
      · rcases hc.leafFresh f hM with hlf | ⟨hzero, hnone, -⟩
        · omega
        · have := h.clean hM hzero.le
          omega
      · have := h.clean hM hzero.le
        omega
    · omega
  · intro f hf
    have hl := hleaf f
    have ht := htable f
    have hbal := hc.balance f hf
    have henough := h.enough f hf
    have howned : (m.setTables t' s').owned f = m.owned f := rfl
    have href : (m.setTables t' s').phys.buddy.ref f = s'.buddy.ref f := rfl
    rw [href, howned]
    omega
  · intro p hp n pte hpte hD hw
    have hl := hleaf pte.frame
    have hs := (hself pte.frame).1
    by_cases hself' : p = m.current
    · subst hself'
      have hpte' : findPte t' n = some pte := by
        simpa [Machine.setTables, Machine.setSelf] using hpte
      have hone' := one_le_leafCount hpte'
      rcases hc.alone n pte hpte' hD hw with hold | ⟨hown, hone⟩
      · have halone := h.alone _ h.running.1 n pte hold hD hw
        have hone := one_le_leafCount hold
        have hM := (h.mapped h.running.1 hold hD).1
        have henough := h.enough _ hM
        rcases hc.leafFresh pte.frame hM with hle | ⟨hzero, -, -⟩ <;> omega
      · -- nobody else had the frame
        have hall : leafTotal m pte.frame ≤ leafCount m.self.tables pte.frame := by
          by_cases hpos : 0 < leafTotal m pte.frame
          · have henough := h.enough pte.frame (h.managed _ hD (by omega))
            omega
          · omega
        omega
    · have hpte' : findPte (m.procs p).tables n = some pte := by
        simpa [Machine.setTables, Machine.setSelf, hself'] using hpte
      have halone := h.alone p hp n pte hpte' hD hw
      have hone := one_le_leafCount hpte'
      have hpair : leafCount (m.procs p).tables pte.frame+leafCount m.self.tables pte.frame ≤
          leafTotal m pte.frame :=
        pair_le_total (w := fun p => leafCount p.tables pte.frame) hp h.running.1 hself'
      have hM := (h.mapped hp hpte' hD).1
      have henough := h.enough _ hM
      rcases hc.leafFresh pte.frame hM with hle | ⟨hzero, -, -⟩ <;> omega
  · intro p hp
    have hareas := h.areas p hp
    by_cases hself' : p = m.current
    · subst hself'
      simpa [Machine.setTables, Machine.setSelf, Machine.self] using hareas
    · simpa [Machine.setTables, Machine.setSelf, hself'] using hareas
  · intro n
    rfl

end Changes

end BabyOS.ProcessInvariant

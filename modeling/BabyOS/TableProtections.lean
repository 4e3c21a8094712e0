import BabyOS.PageCounts

/-!
# The entries that table operations leave

Which entries a mapping, `make_pte_write` and a copy of the tables leave, whatever
the allocator hands out.
-/

set_option autoImplicit false

namespace BabyOS.TableProtections
open BabyOS.RadixTables BabyOS.PageMachine BabyOS.PageCounts

section Place

variable {α : Type} {L : Level α Pte} {size : ℕ} {hsize : 0 < size} {s s' : Phys}

/-- A leaf placed below an entry is placed in the table, whether or not the entry
was there. -/
theorem getTable_placed {t : Node (Node α)} {c : Node α} {n : ℕ} {size' : ℕ} {z : 0 < size'}
    (h : getTable t ((L.up size hsize).index size' n) s = some (c, s')) :
    ∃ new : ℕ → ℕ, ∀ pte more c', (L.up size hsize).Placed n pte more c c' →
      ((L.up size hsize).up size' z).Placed n pte (fun f => new f+more f) t
        (t.set ((L.up size hsize).index size' n) c') := by
  rw [getTable] at h
  split at h
  next c₀ hc =>
    obtain ⟨rfl, -⟩ := Prod.mk.inj (Option.some.inj h)
    refine ⟨fun _ => 0, fun pte more c' hp => ?_⟩
    simp only [Nat.zero_add]
    exact Level.placed_up hc hp
  next hc =>
    split at h
    · cases h
    next f s₁ hf =>
      obtain ⟨rfl, -⟩ := Prod.mk.inj (Option.some.inj h)
      exact ⟨_, fun pte more c' hp => Level.placed_up_blank hc (Level.blank_up f) hp⟩

theorem mapPage_find {t t' : Pml4Table} {n : ℕ} {pte : Pte} (h : mapPage t n pte s = some (t', s'))
    (k : ℕ) : findPte t' k = if k % 2 ^ 35 = n % 2 ^ 35 then some pte else findPte t k := by
  rw [mapPage] at h
  split at h
  · cases h
  next pdp s₁ h₁ =>
  split at h
  · cases h
  next pd s₂ h₂ =>
  split at h
  · cases h
  next pt s₃ h₃ =>
  obtain ⟨rfl, -⟩ := Prod.mk.inj (Option.some.inj h)
  rw [getPdpTable, ← pml4_index] at h₁
  rw [getPdTable, ← pdp_index] at h₂
  rw [getPageTable, ← pd_index] at h₃
  obtain ⟨n₁, p₁⟩ := getTable_placed (z := by decide) h₁
  obtain ⟨n₂, p₂⟩ := getTable_placed (z := by decide) h₂
  obtain ⟨n₃, p₃⟩ := getTable_placed (z := by decide) h₃
  have hleaf : pageLevel.Placed n pte (fun _ => 0) pt (pt.set (pteIndex n) pte) := by
    rw [← pte_index]
    exact Level.placed_entry n pte pt
  have hplaced := (p₁ pte _ _ (p₂ pte _ _ (p₃ pte _ _ hleaf))).find k
  rw [← pml4_index, ← pdp_index, ← pd_index, findPte_eq, findPte_eq]
  exact hplaced

theorem makePteWrite_find {t : Pml4Table} {n : ℕ} {pte : Pte} (h : findPte t n = some pte) (k : ℕ) :
    findPte (makePteWrite t n) k =
      if k % 2 ^ 35 = n % 2 ^ 35 then some { pte with writable := true } else findPte t k := by
  rw [findPte_eq, findPte_eq]
  exact (makePteWrite_spec h).find k

end Place

/-! ## Copies -/

section Copy

variable {α : Type} {L : Level α Pte} {s s' : Phys}

/-- No entry below is writable. -/
def Guarded (L : Level α Pte) (c : α) : Prop := ∀ n pte, L.find c n = some pte → pte.writable = false

/-- Both results of a copy are read-only. -/
def GuardsBoth (L : Level α Pte) (copyEntry : α → Phys → Option (α × α × Phys)) : Prop :=
  ∀ e s c p s', copyEntry e s = some (c, p, s') → Guarded L c ∧ Guarded L p

theorem copyPte_guards : GuardsBoth pteLevel copyPte := by
  intro e s c p s' h
  rw [copyPte] at h
  split at h
  · cases h
  next =>
    obtain ⟨rfl, hrest⟩ := Prod.mk.inj (Option.some.inj h)
    obtain ⟨rfl, -⟩ := Prod.mk.inj hrest
    have hro : Guarded pteLevel (readOnly e) := by
      intro n pte hpte
      obtain rfl := Option.some.inj hpte
      rfl
    exact ⟨hro, hro⟩

/-- The loop over the first `k` entries: what they hold is read-only, and the others
are as they were. -/
theorem copyEntries_guards {copyEntry : α → Phys → Option (α × α × Phys)} (hcopy : GuardsBoth L copyEntry)
    {k : ℕ} {child parent child' parent' : Node α} (hsame : child.entry = parent.entry)
    (h : copyEntries copyEntry k child parent s = some (child', parent', s')) :
    (∀ j < k, (∀ c, child'.entry j = some c → Guarded L c) ∧ ∀ p, parent'.entry j = some p → Guarded L p) ∧
      ∀ j, k ≤ j → child'.entry j = parent.entry j ∧ parent'.entry j = parent.entry j := by
  induction k generalizing child' parent' s' with
  | zero =>
    obtain ⟨rfl, hrest⟩ := Prod.mk.inj (Option.some.inj h)
    obtain ⟨rfl, -⟩ := Prod.mk.inj hrest
    exact ⟨fun j hj => absurd hj (Nat.not_lt_zero j), fun j _ => ⟨congrFun hsame j, rfl⟩⟩
  | succ k ih =>
    rw [copyEntries] at h
    split at h
    · cases h
    next child₁ parent₁ s₁ hloop =>
    obtain ⟨hdone, hleft⟩ := ih hloop
    obtain ⟨hck, hpk⟩ := hleft k le_rfl
    cases he : parent₁.entry k with
    | none =>
      rw [he] at h
      obtain ⟨rfl, hrest⟩ := Prod.mk.inj (Option.some.inj h)
      obtain ⟨rfl, -⟩ := Prod.mk.inj hrest
      refine ⟨fun j hj => ?_, fun j hj => hleft j (by omega)⟩
      rcases Nat.lt_succ_iff_lt_or_eq.mp hj with hj | rfl
      · exact hdone j hj
      · rw [hck, ← hpk, he]
        exact ⟨fun _ hc => absurd hc.symm (Option.some_ne_none _), fun _ hp => absurd hp.symm (Option.some_ne_none _)⟩
    | some e =>
      rw [he] at h
      dsimp only at h
      split at h
      · cases h
      next c p s₂ hentry =>
      obtain ⟨rfl, hrest⟩ := Prod.mk.inj (Option.some.inj h)
      obtain ⟨rfl, -⟩ := Prod.mk.inj hrest
      obtain ⟨hc, hp⟩ := hcopy e s₁ c p s₂ hentry
      constructor
      · intro j hj
        rcases Nat.lt_succ_iff_lt_or_eq.mp hj with hj | rfl
        · rw [Node.set_entry_of_ne child₁ c (by omega), Node.set_entry_of_ne parent₁ p (by omega)]
          exact hdone j hj
        · rw [Node.set_entry_self, Node.set_entry_self]
          exact ⟨fun c' hc' => Option.some.inj hc' ▸ hc, fun p' hp' => Option.some.inj hp' ▸ hp⟩
      · intro j hj
        rw [Node.set_entry_of_ne child₁ c (by omega), Node.set_entry_of_ne parent₁ p (by omega)]
        exact hleft j (by omega)

theorem copyTable_guards {copyEntry : α → Phys → Option (α × α × Phys)} (hcopy : GuardsBoth L copyEntry)
    {size : ℕ} {hsize : 0 < size} : GuardsBoth (L.up size hsize) (copyTable copyEntry size) := by
  intro t s child parent s' h
  rw [copyTable] at h
  split at h
  · cases h
  next f s₁ hf =>
  obtain ⟨hdone, -⟩ := copyEntries_guards hcopy (show Node.entry ⟨f, t.entry⟩ = t.entry from rfl) h
  have hboth := fun n => hdone (L.index size n) (Nat.mod_lt _ hsize)
  constructor
  · intro n pte hpte
    obtain ⟨c, hc, hfind⟩ := Option.bind_eq_some_iff.mp hpte
    exact (hboth n).1 c hc n pte hfind
  · intro n pte hpte
    obtain ⟨p, hp, hfind⟩ := Option.bind_eq_some_iff.mp hpte
    exact (hboth n).2 p hp n pte hfind

/-- After a copy neither tree has a writable entry. -/
theorem copyPml4Table_guards {t child parent : Pml4Table}
    (h : copyPml4Table t s = some (child, parent, s')) :
    Guarded pml4Level child ∧ Guarded pml4Level parent :=
  copyTable_guards (copyTable_guards (copyTable_guards (copyTable_guards copyPte_guards)))
    t s child parent s' h

end Copy

end BabyOS.TableProtections

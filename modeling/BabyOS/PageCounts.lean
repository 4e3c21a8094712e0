import BabyOS.PageMachine
import BabyOS.OrderedRanges

/-!
# What the page-table functions do to tables and counts

Each function is described by the tree it returns and by the frames it takes
from the allocator or gives back. The proofs go level by level: what holds of
one level's function holds of the next one's.
-/

set_option autoImplicit false

namespace BabyOS.PageCounts
open BabyOS.BuddyMachine BabyOS.BuddyArithmetic BabyOS.AreaMachine BabyOS.FrameCounts
open BabyOS.RadixTables BabyOS.PageMachine

def pteLevel : Level Pte Pte := Level.leaf Pte
def pageLevel : Level PageTable Pte := pteLevel.up 512 (by decide)
def pdLevel : Level PdTable Pte := pageLevel.up 512 (by decide)
def pdpLevel : Level PdpTable Pte := pdLevel.up 512 (by decide)
def pml4Level : Level Pml4Table Pte := pdpLevel.up 256 (by decide)

theorem page_span : pageLevel.span = 2 ^ 9 := rfl
theorem pd_span : pdLevel.span = 2 ^ 18 := rfl
theorem pdp_span : pdpLevel.span = 2 ^ 27 := rfl
theorem pml4_span : pml4Level.span = 2 ^ 35 := rfl

theorem pml4_index (n : ℕ) : pdpLevel.index 256 n = pml4eIndex n := by
  rw [Level.index, pdp_span, pml4eIndex]

theorem pdp_index (n : ℕ) : pdLevel.index 512 n = pdpeIndex n := by
  rw [Level.index, pd_span, pdpeIndex]

theorem pd_index (n : ℕ) : pageLevel.index 512 n = pdeIndex n := by
  rw [Level.index, page_span, pdeIndex]

theorem pte_index (n : ℕ) : pteLevel.index 512 n = pteIndex n := by
  rw [Level.index, pteIndex, show pteLevel.span = 1 from rfl, Nat.div_one]

theorem page_find (t : PageTable) (n : ℕ) : pageLevel.find t n = t.entry (pteIndex n) := by
  change pteLevel.findUp 512 t n = _
  rw [Level.findUp, pte_index]
  cases t.entry (pteIndex n) <;> rfl

/-- The walk of the code is the lookup of the tree. -/
theorem findPte_eq (t : Pml4Table) (n : ℕ) : findPte t n = pml4Level.find t n := by
  change _ = pdpLevel.findUp 256 t n
  rw [Level.findUp, pml4_index, findPte]
  cases t.entry (pml4eIndex n) with
  | none => rfl
  | some pdp =>
    dsimp only
    change _ = pdLevel.findUp 512 pdp n
    rw [Level.findUp, pdp_index]
    cases pdp.entry (pdpeIndex n) with
    | none => rfl
    | some pd =>
      dsimp only
      change _ = pageLevel.findUp 512 pd n
      rw [Level.findUp, pd_index]
      cases pd.entry (pdeIndex n) with
      | none => rfl
      | some pt => exact (page_find pt n).symm

/-- Weight 1 for an entry that maps frame `f`. -/
def maps (f : ℕ) (pte : Pte) : ℕ := if pte.frame = f then 1 else 0

/-- How many present leaf entries of a tree map frame `f`. -/
def leafCount (t : Pml4Table) (f : ℕ) : ℕ := pml4Level.leaves (maps f) t

/-- How many tables of a tree lie in frame `f`. -/
def tableCount (t : Pml4Table) (f : ℕ) : ℕ := pml4Level.frames f t

/-! ## Taking frames -/

/-- From `s` to `s'` the frames `new` were taken for tables and the counts of
the frames `shared` were raised. -/
structure Grown (M : Set ℕ) (new shared : ℕ → ℕ) (s s' : Phys) : Prop where
  frames : Frames M s'.buddy
  ref : ∀ f, s'.buddy.ref f = s.buddy.ref f+new f+shared f
  fresh : ∀ f, 0 < new f → f ∈ M ∧ s.buddy.ref f = 0 ∧ new f = 1
  mem : ∀ f, new f = 0 → s'.mem f = s.mem f

section Growth

variable {M : Set ℕ} {s s₁ s' : Phys} {new shared new' shared' : ℕ → ℕ}

theorem Grown.refl (h : Frames M s.buddy) : Grown M (fun _ => 0) (fun _ => 0) s s :=
  ⟨h, by simp, by simp, fun _ _ => rfl⟩

theorem Grown.trans (h : Grown M new shared s s₁) (h' : Grown M new' shared' s₁ s')
    (hs : Frames M s.buddy) :
    Grown M (fun f => new f+new' f) (fun f => shared f+shared' f) s s' := by
  have hdisj : ∀ f, 0 < new' f → s.buddy.ref f = 0 ∧ new f = 0 := by
    intro f hf
    obtain ⟨hM, hzero, -⟩ := h'.fresh f hf
    have hnonneg := hs.nonneg hM
    have href := h.ref f
    omega
  refine ⟨h'.frames, fun f => ?_, fun f hf => ?_, fun f hf => ?_⟩
  · rw [h'.ref, h.ref]
    push_cast
    ring
  · rcases Nat.eq_zero_or_pos (new' f) with hzero | hpos
    · obtain ⟨hM, href, hone⟩ := h.fresh f (by omega)
      exact ⟨hM, href, by omega⟩
    · obtain ⟨hM, -, hone⟩ := h'.fresh f hpos
      obtain ⟨href, hnew⟩ := hdisj f hpos
      exact ⟨hM, href, by omega⟩
  · rw [h'.mem f (by omega), h.mem f (by omega)]

theorem Grown.congr (h : Grown M new shared s s') (hn : ∀ f, new f = new' f)
    (hsh : ∀ f, shared f = shared' f) : Grown M new' shared' s s' := by
  rwa [← funext hn, ← funext hsh]

theorem allocTable_grown (hs : Frames M s.buddy) {f : ℕ} (h : allocTable s = some (f, s')) :
    Grown M (fun g => if f = g then 1 else 0) (fun _ => 0) s s' := by
  rw [allocTable] at h
  split at h
  · cases h
  next pa b hb =>
    obtain ⟨rfl, rfl⟩ := Prod.mk.inj (Option.some.inj h)
    obtain ⟨hfr, -, hM, hzero, href⟩ := alloc_one hs hb
    rw [mapNr_eq]
    refine ⟨hfr, fun g => ?_, fun g hg => ?_, fun g hg => ?_⟩
    · rw [href g]
      simp only [eq_comm (a := g)]
      split <;> simp
    · have heq : frameOf pa = g := by
        by_contra hne
        simp [hne] at hg
      subst heq
      exact ⟨hM, hzero, by simp⟩
    · have hne : g ≠ frameOf pa := by
        intro heq
        simp [heq] at hg
      exact Function.update_of_ne hne _ _

end Growth

/-! ## Setting one leaf -/

section Place

variable {M : Set ℕ} {s s' : Phys} {α : Type} {L : Level α Pte} {size : ℕ} {hsize : 0 < size}

/-- The table below an entry, and what putting it back does. -/
theorem getTable_spec {t : Node (Node α)} {c : Node α} {n : ℕ} {size' : ℕ} {z : 0 < size'}
    (hs : Frames M s.buddy)
    (h : getTable t ((L.up size hsize).index size' n) s = some (c, s')) :
    ∃ new, Grown M new (fun _ => 0) s s' ∧
      (∀ m, (L.up size hsize).index size' m = (L.up size hsize).index size' n →
        (L.up size hsize).find c m = ((L.up size hsize).up size' z).find t m) ∧
      ∀ pte more c', (L.up size hsize).Placed n pte more c c' →
        ((L.up size hsize).up size' z).Placed n pte (fun f => new f+more f) t
          (t.set ((L.up size hsize).index size' n) c') := by
  rw [getTable] at h
  split at h
  next c₀ hc =>
    obtain ⟨rfl, rfl⟩ := Prod.mk.inj (Option.some.inj h)
    refine ⟨fun _ => 0, Grown.refl hs, fun m hm => ?_, fun pte more c' hp => ?_⟩
    · change _ = (L.up size hsize).findUp size' t m
      rw [Level.findUp, hm, hc, Option.bind_some]
    · simp only [Nat.zero_add]
      exact Level.placed_up hc hp
  next hc =>
    split at h
    · cases h
    next f s₁ hf =>
      obtain ⟨rfl, rfl⟩ := Prod.mk.inj (Option.some.inj h)
      refine ⟨_, allocTable_grown hs hf, fun m hm => ?_, fun pte more c' hp => ?_⟩
      · change _ = (L.up size hsize).findUp size' t m
        rw [Level.findUp, hm, hc, Option.bind_none]
        exact (Level.blank_up f).1 m
      · exact Level.placed_up_blank hc (Level.blank_up f) hp

/-- One page is mapped; new tables are taken for the levels that had none. -/
theorem mapPage_spec {t t' : Pml4Table} {n : ℕ} {pte : Pte} (hs : Frames M s.buddy)
    (h : mapPage t n pte s = some (t', s')) :
    ∃ new, Grown M new (fun _ => 0) s s' ∧ pml4Level.Placed n pte new t t' := by
  rw [mapPage] at h
  split at h
  · cases h
  next pdp s₁ h₁ =>
  split at h
  · cases h
  next pd s₂ h₂ =>
  split at h
  · cases h
  next pt s₃ h₃ =>
  obtain ⟨rfl, rfl⟩ := Prod.mk.inj (Option.some.inj h)
  rw [getPdpTable, ← pml4_index] at h₁
  rw [getPdTable, ← pdp_index] at h₂
  rw [getPageTable, ← pd_index] at h₃
  obtain ⟨n₁, g₁, -, p₁⟩ := getTable_spec (z := by decide) hs h₁
  obtain ⟨n₂, g₂, -, p₂⟩ := getTable_spec (z := by decide) g₁.frames h₂
  obtain ⟨n₃, g₃, -, p₃⟩ := getTable_spec (z := by decide) g₂.frames h₃
  have hgrow := (g₁.trans g₂ hs).trans g₃ hs
  have hleaf : pageLevel.Placed n pte (fun _ => 0) pt (pt.set (pteIndex n) pte) := by
    rw [← pte_index]
    exact Level.placed_entry n pte pt
  have hplaced : pml4Level.Placed n pte (fun f => n₁ f+(n₂ f+(n₃ f+0))) t _ :=
    p₁ pte _ _ (p₂ pte _ _ (p₃ pte _ _ hleaf))
  rw [← pml4_index, ← pdp_index, ← pd_index]
  refine ⟨_, hgrow, ?_⟩
  simp only [Nat.add_assoc, Nat.add_zero] at hplaced ⊢
  exact hplaced

/-- `make_pte_write` of a page that is mapped. -/
theorem makePteWrite_spec {t : Pml4Table} {n : ℕ} {pte : Pte} (h : findPte t n = some pte) :
    pml4Level.Placed n { pte with writable := true } (fun _ => 0) t (makePteWrite t n) := by
  rw [findPte] at h
  rw [makePteWrite]
  split at h
  · cases h
  next pdp h₁ =>
  split at h
  · cases h
  next pd h₂ =>
  split at h
  · cases h
  next pt h₃ =>
  simp only [h]
  rw [← pml4_index] at h₁ ⊢
  rw [← pdp_index] at h₂ ⊢
  rw [← pd_index] at h₃ ⊢
  rw [← pte_index]
  exact Level.placed_up h₁ (Level.placed_up h₂ (Level.placed_up h₃ (Level.placed_entry n _ pt)))

end Place

/-! ## Copying -/

/-- The two trees that a copy leaves: every leaf of both is read-only, and the
source keeps its tables. -/
structure Like {α : Type} (L : Level α Pte) (t child parent : α) : Prop where
  ofChild : ∀ n, L.find child n = (L.find t n).map readOnly
  ofParent : ∀ n, L.find parent n = (L.find t n).map readOnly
  frames : ∀ f, L.frames f parent = L.frames f t

structure Copied {α : Type} (M : Set ℕ) (L : Level α Pte) (t child parent : α) (s s' : Phys) : Prop where
  grown : Grown M (fun f => L.frames f child) (fun f => L.leaves (maps f) t) s s'
  like : Like L t child parent

section Copy

variable {M : Set ℕ} {s s' : Phys} {α : Type} {L : Level α Pte}

theorem copyPte_spec (hs : Frames M s.buddy) {pte c p : Pte} (h : copyPte pte s = some (c, p, s')) :
    Copied M pteLevel pte c p s s' := by
  rw [copyPte] at h
  split at h
  · cases h
  next hpos =>
    obtain ⟨rfl, hrest⟩ := Prod.mk.inj (Option.some.inj h)
    obtain ⟨rfl, rfl⟩ := Prod.mk.inj hrest
    rw [Buddy.getPageRef, mapNr_eq, frameOf_frameAddr] at hpos
    obtain ⟨hfr, href⟩ := @inc_one M s.buddy hs (frameAddr pte.frame) (by rw [frameOf_frameAddr]; omega)
    refine ⟨⟨hfr, fun f => ?_, fun f hf => absurd hf (lt_irrefl 0), fun _ _ => rfl⟩,
      ⟨fun _ => rfl, fun _ => rfl, fun _ => rfl⟩⟩
    rw [href f, frameOf_frameAddr]
    change _ = s.buddy.ref f+((0 : ℕ) : ℤ)+(maps f pte : ℕ)
    rw [maps, Nat.cast_zero, add_zero]
    simp only [eq_comm (a := f)]
    split <;> simp

/-- One entry before and after its round of the loop. -/
structure EntryLike (L : Level α Pte) (e c p : Option α) : Prop where
  ofChild : ∀ n, c.bind (fun x => L.find x n) = (e.bind fun x => L.find x n).map readOnly
  ofParent : ∀ n, p.bind (fun x => L.find x n) = (e.bind fun x => L.find x n).map readOnly
  frames : ∀ f, p.elim 0 (L.frames f) = e.elim 0 (L.frames f)

/-- The loop over the first `k` entries. -/
theorem copyEntries_spec {copyEntry : α → Phys → Option (α × α × Phys)}
    (hcopy : ∀ e s c p s', Frames M s.buddy → copyEntry e s = some (c, p, s') → Copied M L e c p s s')
    {frame k : ℕ} {t child parent : Node α} (hs : Frames M s.buddy)
    (h : copyEntries copyEntry k ⟨frame, t.entry⟩ t s = some (child, parent, s')) :
    child.frame = frame ∧ parent.frame = t.frame ∧
      Grown M (fun f => child.sum (L.frames f) k) (fun f => t.sum (L.leaves (maps f)) k) s s' ∧
      (∀ j < k, EntryLike L (t.entry j) (child.entry j) (parent.entry j)) ∧
      ∀ j, k ≤ j → child.entry j = t.entry j ∧ parent.entry j = t.entry j := by
  induction k generalizing child parent s' with
  | zero =>
    obtain ⟨rfl, hrest⟩ := Prod.mk.inj (Option.some.inj h)
    obtain ⟨rfl, rfl⟩ := Prod.mk.inj hrest
    exact ⟨rfl, rfl, Grown.refl hs, by simp, fun _ _ => ⟨rfl, rfl⟩⟩
  | succ k ih =>
    rw [copyEntries] at h
    split at h
    · cases h
    next child₁ parent₁ s₁ hloop =>
    obtain ⟨hcf, hpf, hgrow, hdone, hleft⟩ := ih hloop
    obtain ⟨hck, hpk⟩ := hleft k le_rfl
    rw [hpk] at h
    cases he : t.entry k with
    | none =>
      rw [he] at h hck hpk
      obtain ⟨rfl, hrest⟩ := Prod.mk.inj (Option.some.inj h)
      obtain ⟨rfl, rfl⟩ := Prod.mk.inj hrest
      refine ⟨hcf, hpf, hgrow.congr (fun f => ?_) (fun f => ?_), ?_, fun j hj => hleft j (by omega)⟩
      · rw [Node.sum_succ, hck, Option.elim_none, add_zero]
      · rw [Node.sum_succ, he, Option.elim_none, add_zero]
      · intro j hj
        rcases Nat.lt_succ_iff_lt_or_eq.mp hj with hj | rfl
        · exact hdone j hj
        · rw [he, hck, hpk]
          exact ⟨fun _ => rfl, fun _ => rfl, fun _ => rfl⟩
    | some e =>
      rw [he] at h
      dsimp only at h
      split at h
      · cases h
      next c p s₂ hentry =>
      obtain ⟨rfl, hrest⟩ := Prod.mk.inj (Option.some.inj h)
      obtain ⟨rfl, rfl⟩ := Prod.mk.inj hrest
      obtain ⟨hgrow', hlike⟩ := hcopy e s₁ c p s₂ hgrow.frames hentry
      refine ⟨hcf, hpf, (hgrow.trans hgrow' hs).congr (fun f => ?_) (fun f => ?_), ?_, ?_⟩
      · rw [Node.sum_succ, Node.set_entry_self, Option.elim_some]
        congr 1
        exact Node.sum_congr _ (fun j hj => (Node.set_entry_of_ne child₁ c (by omega)).symm)
      · rw [Node.sum_succ, he, Option.elim_some]
      · intro j hj
        rcases Nat.lt_succ_iff_lt_or_eq.mp hj with hj | rfl
        · rw [Node.set_entry_of_ne child₁ c (by omega), Node.set_entry_of_ne parent₁ p (by omega)]
          exact hdone j hj
        · rw [he, Node.set_entry_self, Node.set_entry_self]
          exact ⟨hlike.ofChild, hlike.ofParent, hlike.frames⟩
      · intro j hj
        rw [Node.set_entry_of_ne child₁ c (by omega), Node.set_entry_of_ne parent₁ p (by omega)]
        exact hleft j (by omega)

/-- A table is copied if its entries are. -/
theorem copyTable_spec {copyEntry : α → Phys → Option (α × α × Phys)}
    (hcopy : ∀ e s c p s', Frames M s.buddy → copyEntry e s = some (c, p, s') → Copied M L e c p s s')
    {size : ℕ} {hsize : 0 < size} {t child parent : Node α} (hs : Frames M s.buddy)
    (h : copyTable copyEntry size t s = some (child, parent, s')) :
    Copied M (L.up size hsize) t child parent s s' := by
  rw [copyTable] at h
  split at h
  · cases h
  next f s₁ hf =>
  have halloc := allocTable_grown hs hf
  obtain ⟨hcf, hpf, hgrow, hdone, -⟩ := copyEntries_spec hcopy halloc.frames h
  refine ⟨(halloc.trans hgrow hs).congr (fun g => ?_) (fun g => ?_), fun n => ?_, fun n => ?_,
    fun g => ?_⟩
  · change _ = (if child.frame = g then 1 else 0)+child.sum (L.frames g) size
    rw [hcf]
  · exact Nat.zero_add _
  · change L.findUp size child n = (L.findUp size t n).map readOnly
    exact (hdone _ (Nat.mod_lt _ hsize)).ofChild n
  · change L.findUp size parent n = (L.findUp size t n).map readOnly
    exact (hdone _ (Nat.mod_lt _ hsize)).ofParent n
  · change (if parent.frame = g then 1 else 0)+parent.sum (L.frames g) size =
      (if t.frame = g then 1 else 0)+t.sum (L.frames g) size
    rw [hpf]
    congr 1
    exact Finset.sum_congr rfl (fun j hj => (hdone j (Finset.mem_range.mp hj)).frames g)

theorem copyPml4Table_spec {t child parent : Pml4Table} (hs : Frames M s.buddy)
    (h : copyPml4Table t s = some (child, parent, s')) :
    Copied M pml4Level t child parent s s' := by
  have hpage : ∀ e s c p s', Frames M s.buddy → copyPageTable e s = some (c, p, s') →
      Copied M pageLevel e c p s s' :=
    fun _ _ _ _ _ hs h => copyTable_spec (fun _ _ _ _ _ hs h => copyPte_spec hs h) hs h
  have hpd : ∀ e s c p s', Frames M s.buddy → copyPdTable e s = some (c, p, s') →
      Copied M pdLevel e c p s s' := fun _ _ _ _ _ hs h => copyTable_spec hpage hs h
  have hpdp : ∀ e s c p s', Frames M s.buddy → copyPdpTable e s = some (c, p, s') →
      Copied M pdpLevel e c p s s' := fun _ _ _ _ _ hs h => copyTable_spec hpd hs h
  exact copyTable_spec hpdp hs h

end Copy

/-! ## Giving frames back -/

/-- From `s` to `s'` each count went down by `old`, and only the bytes of frames
in `old` changed. -/
structure Shrunk (M : Set ℕ) (old : ℕ → ℕ) (s s' : Phys) : Prop where
  frames : Frames M s'.buddy
  ref : ∀ f, s'.buddy.ref f = s.buddy.ref f-old f
  mem : ∀ f, old f = 0 → s'.mem f = s.mem f

section Free

variable {M : Set ℕ} {s s₁ s' : Phys} {old old' : ℕ → ℕ} {α : Type} {L : Level α Pte}

theorem Shrunk.refl (h : Frames M s.buddy) : Shrunk M (fun _ => 0) s s :=
  ⟨h, by simp, fun _ _ => rfl⟩

theorem Shrunk.trans (h : Shrunk M old s s₁) (h' : Shrunk M old' s₁ s') :
    Shrunk M (fun f => old f+old' f) s s' := by
  refine ⟨h'.frames, fun f => ?_, fun f hf => ?_⟩
  · rw [h'.ref, h.ref]
    push_cast
    ring
  · rw [h'.mem f (by omega), h.mem f (by omega)]

theorem Shrunk.congr (h : Shrunk M old s s') (ho : ∀ f, old f = old' f) : Shrunk M old' s s' := by
  rwa [← funext ho]

theorem free_frame {f : ℕ} {b : Buddy} (hs : Frames M s.buddy) (hf : f ∈ M)
    (h : s.buddy.freePages (frameAddr f) 0 = some b) :
    Frames M b ∧ ∀ g, b.ref g = s.buddy.ref g-((if f = g then 1 else 0 : ℕ) : ℤ) := by
  obtain ⟨hfr, href⟩ := free_one hs (by rwa [frameOf_frameAddr]) h
  refine ⟨hfr, fun g => ?_⟩
  rw [href g, frameOf_frameAddr]
  simp only [eq_comm (a := g)]
  split <;> simp

theorem freeTable_spec {f : ℕ} {bytes : ℕ → ℕ} (hs : Frames M s.buddy) (hf : f ∈ M)
    (h : freeTable f bytes s = some s') : Shrunk M (fun g => if f = g then 1 else 0) s s' := by
  rw [freeTable] at h
  split at h
  · cases h
  next b hb =>
    obtain rfl := Option.some.inj h
    obtain ⟨hfr, href⟩ := free_frame hs hf hb
    refine ⟨hfr, href, fun g hg => ?_⟩
    have hne : g ≠ f := by
      rintro rfl
      simp at hg
    exact Function.update_of_ne hne _ _

/-- The entries of a table give back their frames if one entry does. -/
theorem freeEntries_spec {freeEntry : α → Phys → Option Phys}
    (hfree : ∀ e s s', Frames M s.buddy → (∀ f, 0 < L.frames f e → f ∈ M) →
      freeEntry e s = some s' → Shrunk M (fun f => L.frames f e) s s')
    {k : ℕ} {t : Node α} (hs : Frames M s.buddy) (hM : ∀ f, 0 < t.sum (L.frames f) k → f ∈ M)
    (h : freeEntries freeEntry k t s = some s') : Shrunk M (fun f => t.sum (L.frames f) k) s s' := by
  induction k generalizing s' with
  | zero =>
    obtain rfl := Option.some.inj h
    exact Shrunk.refl hs
  | succ k ih =>
    rw [freeEntries] at h
    split at h
    · cases h
    next s₁ hloop =>
    have hdone := ih (fun f hf => hM f (by rw [Node.sum_succ]; omega)) hloop
    cases he : t.entry k with
    | none =>
      rw [he] at h
      obtain rfl := Option.some.inj h
      exact hdone.congr (fun f => by rw [Node.sum_succ, he, Option.elim_none, add_zero])
    | some e =>
      rw [he] at h
      have hM' : ∀ f, 0 < L.frames f e → f ∈ M := by
        intro f hf
        apply hM f
        rw [Node.sum_succ, he, Option.elim_some]
        omega
      exact (hdone.trans (hfree e s₁ s' hdone.frames hM' h)).congr
        (fun f => by rw [Node.sum_succ, he, Option.elim_some])

/-- First what is below a table, then the table. -/
theorem freeBelow_spec {size : ℕ} {hsize : 0 < size} {free : Node α → Phys → Option Phys}
    (hfree : ∀ t s s', Frames M s.buddy → (∀ f, 0 < t.sum (L.frames f) size → f ∈ M) →
      free t s = some s' → Shrunk M (fun f => t.sum (L.frames f) size) s s')
    {t : Node α} {bytes : ℕ → ℕ} (hs : Frames M s.buddy)
    (hM : ∀ f, 0 < (L.up size hsize).frames f t → f ∈ M)
    (h : (free t s).bind (freeTable t.frame bytes) = some s') :
    Shrunk M (fun f => (L.up size hsize).frames f t) s s' := by
  obtain ⟨s₁, h₁, h₂⟩ := Option.bind_eq_some_iff.mp h
  have hbelow := hfree t s s₁ hs (fun f hf => hM f (Nat.add_pos_right _ hf)) h₁
  have hroot : t.frame ∈ M := hM t.frame (Nat.add_pos_left (by simp) _)
  exact (hbelow.trans (freeTable_spec hbelow.frames hroot h₂)).congr (fun f => Nat.add_comm _ _)

/-- `free_pml4_table` gives back every table but the root. -/
theorem freePml4Table_spec {t t' : Pml4Table} (hs : Frames M s.buddy)
    (hM : ∀ f, 0 < tableCount t f → f ∈ M) (h : freePml4Table t s = some (t', s')) :
    Shrunk M (fun f => tableCount t f-if t.frame = f then 1 else 0) s s' ∧
      t' = ⟨t.frame, fun _ => none⟩ := by
  obtain ⟨s₁, hfree, heq⟩ := Option.map_eq_some_iff.mp h
  obtain ⟨rfl, rfl⟩ := Prod.mk.inj heq
  refine ⟨?_, rfl⟩
  have hpage : ∀ (e : PageTable) (s s' : Phys), Frames M s.buddy →
      (∀ f, 0 < pageLevel.frames f e → f ∈ M) →
      freeTable e.frame (pageTableBytes e) s = some s' →
      Shrunk M (fun f => pageLevel.frames f e) s s' := by
    intro e s s' hs hM h
    have hzero : ∀ f, e.sum (pteLevel.frames f) 512 = 0 := by
      intro f
      apply Finset.sum_eq_zero
      intro k _
      cases e.entry k <;> rfl
    have hroot : e.frame ∈ M := hM e.frame (Nat.add_pos_left (by simp) _)
    refine (freeTable_spec hs hroot h).congr (fun f => ?_)
    change _ = (if e.frame = f then 1 else 0)+e.sum (pteLevel.frames f) 512
    rw [hzero, add_zero]
  have hpd : ∀ (e : PdTable) (s s' : Phys), Frames M s.buddy →
      (∀ f, 0 < pdLevel.frames f e → f ∈ M) →
      (freePdTable e s).bind (freeTable e.frame fun _ => 0) = some s' →
      Shrunk M (fun f => pdLevel.frames f e) s s' :=
    fun e s s' hs hM h => freeBelow_spec (fun _ _ _ hs hM h => freeEntries_spec hpage hs hM h) hs hM h
  have hpdp : ∀ (e : PdpTable) (s s' : Phys), Frames M s.buddy →
      (∀ f, 0 < pdpLevel.frames f e → f ∈ M) →
      (freePdpTable e s).bind (freeTable e.frame fun _ => 0) = some s' →
      Shrunk M (fun f => pdpLevel.frames f e) s s' :=
    fun e s s' hs hM h => freeBelow_spec (fun _ _ _ hs hM h => freeEntries_spec hpd hs hM h) hs hM h
  refine (freeEntries_spec hpdp hs (fun f hf => hM f (Nat.add_pos_right _ hf)) hfree).congr
    (fun f => ?_)
  change _ = (if t.frame = f then 1 else 0)+t.sum (pdpLevel.frames f) 256-_
  omega

/-! ## The frames of the areas -/

/-- Weight of a page: whether it maps frame `f`. -/
def pageMaps (t : Pml4Table) (f n : ℕ) : ℕ := (findPte t n).elim 0 (maps f)

/-- From `s` to `s'` each count went down by `old`, and no bytes changed. -/
structure Dropped (M : Set ℕ) (old : ℕ → ℕ) (s s' : Phys) : Prop where
  frames : Frames M s'.buddy
  ref : ∀ f, s'.buddy.ref f = s.buddy.ref f-old f
  mem : s'.mem = s.mem

theorem Dropped.trans (h : Dropped M old s s₁) (h' : Dropped M old' s₁ s') :
    Dropped M (fun f => old f+old' f) s s' := by
  refine ⟨h'.frames, fun f => ?_, h'.mem.trans h.mem⟩
  rw [h'.ref, h.ref]
  push_cast
  ring

/-- The loop frees the frame of each mapped page, up to the first device page. -/
theorem freePages_dropped {t : Pml4Table} (hM : ∀ n pte, findPte t n = some pte → pte.frame ∈ M ∨ Device pte.frame)
    {count n : ℕ} (hs : Frames M s.buddy) (h : freePages t count n s = some s') :
    ∃ old, Dropped M old s s' ∧ (∀ f, old f ≤ ∑ m ∈ Finset.Ico n (n+count), pageMaps t f m) ∧
      ((∀ n pte, findPte t n = some pte → ¬ Device pte.frame) → ∀ f, old f = ∑ m ∈ Finset.Ico n (n+count), pageMaps t f m) := by
  induction count generalizing n s with
  | zero =>
    obtain rfl := Option.some.inj h
    exact ⟨fun _ => 0, ⟨hs, by simp, rfl⟩, by simp, by simp⟩
  | succ count ih =>
    have hsum : ∀ f, ∑ m ∈ Finset.Ico n (n+(count+1)), pageMaps t f m =
        pageMaps t f n+∑ m ∈ Finset.Ico (n+1) (n+1+count), pageMaps t f m := by
      intro f
      rw [Finset.sum_eq_sum_Ico_succ_bot (by omega), show n+1+count = n+(count+1) by omega]
    simp only [hsum]
    rw [freePages] at h
    split at h
    next hnone =>
      obtain ⟨old, hdrop, hle, heq⟩ := ih hs h
      have hzero : ∀ f, pageMaps t f n = 0 := fun f => by rw [pageMaps, hnone, Option.elim_none]
      simp only [hzero, zero_add]
      exact ⟨old, hdrop, hle, heq⟩
    next pte hsome =>
      have hpage : ∀ f, pageMaps t f n = if pte.frame = f then 1 else 0 :=
        fun f => by rw [pageMaps, hsome, Option.elim_some, maps]
      split at h
      next hdev =>
        obtain rfl := Option.some.inj h
        exact ⟨fun _ => 0, ⟨hs, by simp, rfl⟩, by simp, fun hno => absurd hdev (hno n pte hsome)⟩
      next hram =>
        have hin := (hM n pte hsome).resolve_right hram
        split at h
        · cases h
        next b hb =>
          obtain ⟨hfr, href⟩ := free_frame hs hin hb
          obtain ⟨old, hdrop, hle, heq⟩ := ih hfr h
          have hone : Dropped M (fun f => if pte.frame = f then 1 else 0) s { s with buddy := b } :=
            ⟨hfr, href, rfl⟩
          refine ⟨_, hone.trans hdrop, fun f => ?_, fun hno f => ?_⟩
          · have := hle f
            rw [hpage]
            omega
          · rw [hpage, heq hno f]

def firstPage (v : Vma) : ℕ := pageOf v.mStart
def lastPage (v : Vma) : ℕ := pageOf v.mEnd

/-- The pages of the loop of `free_page_range`. -/
theorem rangePages_eq {x y : ℕ} (hx : pageSize ∣ x) (hy : pageSize ∣ y) :
    (y-pageDown x+(pageSize-1)) / pageSize = pageOf y-pageOf x := by
  obtain ⟨a, rfl⟩ := hx
  obtain ⟨b, rfl⟩ := hy
  have hpos : 0 < pageSize := by decide
  have hdown : pageDown (pageSize*a) = pageSize*a := by
    rw [pageDown, Nat.mul_div_cancel_left _ hpos, mul_comm]
  rw [hdown, ← Nat.mul_sub, Nat.mul_add_div hpos, Nat.div_eq_of_lt (by decide), add_zero, pageOf,
    pageOf, Nat.mul_div_cancel_left _ hpos, Nat.mul_div_cancel_left _ hpos]

theorem freePageRange_eq {t : Pml4Table} {x y : ℕ} (hx : pageSize ∣ x) (hy : pageSize ∣ y) :
    freePageRange t x y s = freePages t (pageOf y-pageOf x) (pageOf x) s := by
  rw [freePageRange, rangePages_eq hx hy]

/-- The frames of all areas of a list. -/
theorem freeAreas_dropped {t : Pml4Table} (hM : ∀ n pte, findPte t n = some pte → pte.frame ∈ M ∨ Device pte.frame)
    {l : Areas} (hl : ∀ v ∈ l, v.mStart < v.mEnd ∧ pageSize ∣ v.mStart ∧ pageSize ∣ v.mEnd)
    (hs : Frames M s.buddy) (h : freeAreas t l s = some s') :
    ∃ old, Dropped M old s s' ∧
      (∀ f, old f ≤ OrderedRanges.rangeSum firstPage lastPage (pageMaps t f) l) ∧
      ((∀ n pte, findPte t n = some pte → ¬ Device pte.frame) →
        ∀ f, old f = OrderedRanges.rangeSum firstPage lastPage (pageMaps t f) l) := by
  induction l generalizing s with
  | nil =>
    obtain rfl := Option.some.inj h
    exact ⟨fun _ => 0, ⟨hs, by simp, rfl⟩, fun _ => Nat.zero_le _, fun _ _ => rfl⟩
  | cons v rest ih =>
    rw [freeAreas] at h
    split at h
    · cases h
    next s₁ h₁ =>
    obtain ⟨hv, hstart, hend⟩ := hl v List.mem_cons_self
    rw [freePageRange_eq hstart hend] at h₁
    obtain ⟨old₁, hd₁, hle₁, heq₁⟩ := freePages_dropped hM hs h₁
    obtain ⟨old₂, hd₂, hle₂, heq₂⟩ := ih (fun u hu => hl u (List.mem_cons_of_mem v hu)) hd₁.frames h
    have hlen : pageOf v.mStart+(pageOf v.mEnd-pageOf v.mStart) = pageOf v.mEnd := by
      have : pageOf v.mStart ≤ pageOf v.mEnd := Nat.div_le_div_right hv.le
      omega
    rw [hlen] at hle₁ heq₁
    refine ⟨_, hd₁.trans hd₂, fun f => ?_, fun hno f => ?_⟩
    · exact Nat.add_le_add (hle₁ f) (hle₂ f)
    · rw [OrderedRanges.rangeSum, firstPage, lastPage, ← heq₁ hno f, ← heq₂ hno f]

end Free

end BabyOS.PageCounts

import BabyOS.FrameCounts
import BabyOS.IndexChains
import BabyOS.SlabLayout

/-!
# The invariant of the slab caches

Each slab is on one list of its cache, by the number of its objects that are in use. The
chain through its free table has the other objects. Slabs lie in pages of their own, whose
first one is tagged.
-/

set_option autoImplicit false

namespace BabyOS.SlabInvariant
open BabyOS.BuddyMachine BabyOS.BuddyArithmetic BabyOS.BuddyInvariant BabyOS.FrameCounts
open BabyOS.LinkedLists BabyOS.ListFamilies BabyOS.IndexChains BabyOS.SlabMachine BabyOS.SlabLayout

/-- The caches that were created, the slabs and their caches, and the objects that are in
use and their slabs. -/
structure Ledger where
  request : ℕ → Option Request
  slabs : ℕ → Option ℕ
  live : ℕ → Option ℕ

/-- The chain of the slab is `l`. -/
structure Filled (ca : Cache) (x : ℕ) (slab : Slab) (l : List ℕ) : Prop where
  mem : slab.mem = x+objStart ca
  chain : Follows slab.freeTable endMark slab.firstFree l
  nodup : l.Nodup
  lt : ∀ i ∈ l, i < ca.numPerSlab
  inUse : slab.inUse+l.length = ca.numPerSlab

def InClass (ca : Cache) (slab : Slab) : SlabList → Prop
  | .partials => 0 < slab.inUse ∧ slab.inUse < ca.numPerSlab
  | .full => slab.inUse = ca.numPerSlab
  | .free => slab.inUse = 0

/-- The pages of a slab. -/
def InPages (s : System) (c x f : ℕ) : Prop := frameOf x ≤ f ∧ f < frameOf x+2 ^ (s.caches c).gfpOrder

structure Stored (M : Set ℕ) (s : System) (g : Ledger) (chain : ℕ → List ℕ) : Prop where
  frames : Frames M s.buddy
  sound : ∀ c r, g.request c = some r → Sound r (s.caches c)
  owner : ∀ x c, g.slabs x = some c → ∃ r, g.request c = some r
  place : ∀ x c, g.slabs x = some c → x = frameAddr (frameOf x)
  used : ∀ x c, g.slabs x = some c → ∀ f, InPages s c x f → f ∈ M ∧ 0 < s.buddy.ref f
  apart : ∀ x y c d, g.slabs x = some c → g.slabs y = some d → ∀ f, InPages s c x f → InPages s d y f → x = y
  tagged : ∀ x c, g.slabs x = some c → s.pageSlab (frameOf x) = some x ∧ s.pageCache (frameOf x) = some c
  filled : ∀ x c, g.slabs x = some c → Filled (s.caches c) x (s.slabs x) (chain x)
  live : ∀ o x, g.live o = some x ↔
    ∃ c i, g.slabs x = some c ∧ i < (s.caches c).numPerSlab ∧ i ∉ chain x ∧ o = objAddr (s.caches c) x i

/-- The lists have the slabs of their caches. -/
structure Listed (s : System) (g : Ledger) (l : ℕ × SlabList → List ℕ) : Prop where
  family : Family s.nodes s.heads l
  mem : ∀ x c, g.slabs x = some c ↔ ∃ k, x ∈ l (c, k)

structure Inv (M : Set ℕ) (s : System) (g : Ledger) (l : ℕ × SlabList → List ℕ) (chain : ℕ → List ℕ) : Prop where
  stored : Stored M s g chain
  listed : Listed s g l
  inClass : ∀ x c k, x ∈ l (c, k) → InClass (s.caches c) (s.slabs x) k

/-! ## Moves between lists -/

section Lists

variable {M : Set ℕ} {s s' : System} {g : Ledger} {l l' : ℕ × SlabList → List ℕ} {chain : ℕ → List ℕ}
  {c x y : ℕ} {k k' : SlabList} {key : ℕ × SlabList}

theorem Stored.setList (h : Stored M s g chain) (key : ℕ × SlabList) (r : Nodes ℕ × Head ℕ) :
    Stored M (s.setList key r) g chain :=
  ⟨h.frames, h.sound, h.owner, h.place, h.used, h.apart, h.tagged, h.filled, h.live⟩

theorem frame_lt {b : Buddy} (h : Frames M b) {f : ℕ} (hf : f ∈ M) : f < 2 ^ 52 := by
  obtain ⟨G, hR, -⟩ := h
  exact hR.bounded f hf

theorem first_page (s : System) (c x : ℕ) : InPages s c x (frameOf x) :=
  ⟨le_rfl, Nat.lt_add_of_pos_right (Nat.two_pow_pos _)⟩

/-- Slabs lie in different frames, so no list is long. -/
theorem Stored.short (h : Stored M s g chain) (hl : Listed s g l) (key : ℕ × SlabList) :
    (l key).length ≤ 2 ^ 52 := by
  have hslab : ∀ x ∈ l key, g.slabs x = some key.1 := fun x hx => (hl.mem x key.1).mpr ⟨key.2, hx⟩
  have hsub : (l key).toFinset.image frameOf ⊆ Finset.range (2 ^ 52) := by
    intro f hf
    obtain ⟨x, hx, rfl⟩ := Finset.mem_image.mp hf
    have hin := hslab x (List.mem_toFinset.mp hx)
    exact Finset.mem_range.mpr (frame_lt h.frames (h.used x _ hin _ (first_page s _ x)).1)
  have hinj : Set.InjOn frameOf (l key).toFinset := by
    intro x hx y hy hxy
    rw [h.place x _ (hslab x (List.mem_toFinset.mp hx)), h.place y _ (hslab y (List.mem_toFinset.mp hy)), hxy]
  have hcard := Finset.card_le_card hsub
  rw [Finset.card_image_of_injOn hinj, Finset.card_range,
    List.toFinset_card_of_nodup (hl.family.holds key).nodup] at hcard
  exact hcard

/-- A slab moves to the front of another list of its cache. -/
theorem Listed.move (hl : Listed s g l) (h : Stored M s g chain) (hk : k ≠ k') (hx : x ∈ l (c, k)) :
    ∃ l', Listed ((s.remove (c, k) x).addHead (c, k') x) g l' ∧
      (∀ z j, z ∈ l' j ↔ if z = x then j = (c, k') else z ∈ l j) ∧
      (((s.remove (c, k) x).addHead (c, k') x).heads (c, k')).first = some x := by
  have hkeys : (c, k) ≠ (c, k') := fun heq => hk (Prod.mk.inj heq).2
  have hshort := h.short hl (c, k)
  have hshort' := h.short hl (c, k')
  have hmove := hl.family.move hkeys hx (by omega) (by omega)
  have hhead : Function.update s.heads (c, k) (remove s.nodes (s.heads (c, k)) x).2 (c, k') = s.heads (c, k') :=
    Function.update_of_ne hkeys.symm _ _
  have hmem := fun z j => hl.family.mem_move hkeys hx (z := z) (j := j)
  have hfamily : Family ((s.remove (c, k) x).addHead (c, k') x).nodes ((s.remove (c, k) x).addHead (c, k') x).heads
      (Function.update (Function.update l (c, k) ((l (c, k)).erase x)) (c, k') (x :: l (c, k'))) := by
    dsimp only [System.addHead, System.remove, System.setList]
    rw [hhead]
    exact hmove
  refine ⟨_, ⟨hfamily, fun z d => ?_⟩, hmem, ?_⟩
  · rw [hl.mem]
    simp only [hmem]
    by_cases hz : z = x
    · subst hz
      constructor
      · rintro ⟨j, hj⟩
        have hsame : d = c := by
          by_contra hne
          exact hl.family.apart (d, j) (c, k) (fun heq => hne (Prod.mk.inj heq).1) z hj hx
        exact ⟨k', by rw [if_pos rfl, hsame]⟩
      · rintro ⟨j, hj⟩
        rw [if_pos rfl] at hj
        rw [(Prod.mk.inj hj).1]
        exact ⟨k, hx⟩
    · simp only [if_neg hz]
  · rw [(hfamily.holds (c, k')).first, Function.update_self]
    rfl

end Lists

/-! ## Slabs with a free object -/

/-- What the lists and the slabs leave alone. -/
structure Beside (s s' : System) : Prop where
  caches : s'.caches = s.caches
  sizes : s'.sizes = s.sizes
  pageSlab : s'.pageSlab = s.pageSlab
  pageCache : s'.pageCache = s.pageCache

theorem Beside.refl (s : System) : Beside s s := ⟨rfl, rfl, rfl, rfl⟩

/-- The slab `x` is on list `k`, and all others are on the right one. -/
structure Pending (M : Set ℕ) (s : System) (g : Ledger) (l : ℕ × SlabList → List ℕ) (chain : ℕ → List ℕ)
    (c x : ℕ) (k : SlabList) : Prop where
  stored : Stored M s g chain
  listed : Listed s g l
  mem : x ∈ l (c, k)
  inClass : ∀ z d k, z ≠ x → z ∈ l (d, k) → InClass (s.caches d) (s.slabs z) k

section Pending

variable {M : Set ℕ} {s : System} {g : Ledger} {l : ℕ × SlabList → List ℕ} {chain : ℕ → List ℕ} {c x : ℕ}
  {k : SlabList}

theorem Inv.pending (h : Inv M s g l chain) (hx : x ∈ l (c, k)) : Pending M s g l chain c x k :=
  ⟨h.stored, h.listed, hx, fun z d k _ hz => h.inClass z d k hz⟩

theorem Pending.slab (h : Pending M s g l chain c x k) : g.slabs x = some c := (h.listed.mem x c).mpr ⟨k, h.mem⟩

theorem Pending.move (h : Pending M s g l chain c x k) (k' : SlabList) (hk : k ≠ k') :
    ∃ l', Pending M ((s.remove (c, k) x).addHead (c, k') x) g l' chain c x k' ∧
      (((s.remove (c, k) x).addHead (c, k') x).heads (c, k')).first = some x := by
  obtain ⟨l', hlisted, hwhere, hhead⟩ := h.listed.move h.stored hk h.mem
  refine ⟨l', ⟨(h.stored.setList _ _).setList _ _, hlisted, ?_, fun z d j hz hin => ?_⟩, hhead⟩
  · rw [hwhere, if_pos rfl]
  · rw [hwhere, if_neg hz] at hin
    exact h.inClass z d j hz hin

theorem Pending.done (h : Pending M s g l chain c x k) (hx : InClass (s.caches c) (s.slabs x) k) :
    Inv M s g l chain := by
  refine ⟨h.stored, h.listed, fun z d j hz => ?_⟩
  by_cases hzx : z = x
  · subst hzx
    have hkey : (d, j) = (c, k) := by
      by_contra hne
      exact h.listed.family.apart _ _ hne z hz h.mem
    obtain ⟨rfl, rfl⟩ := Prod.mk.inj hkey
    exact hx
  · exact h.inClass z d j hzx hz

end Pending

section Finding

variable {M : Set ℕ} {s s' : System} {g : Ledger} {l : ℕ × SlabList → List ℕ} {chain : ℕ → List ℕ} {c x : ℕ}

theorem Inv.slab (h : Inv M s g l chain) {k : SlabList} (hx : x ∈ l (c, k)) : g.slabs x = some c :=
  (h.listed.mem x c).mpr ⟨k, hx⟩

theorem Inv.cache (h : Inv M s g l chain) {k : SlabList} (hx : x ∈ l (c, k)) : ∃ r, Sound r (s.caches c) := by
  obtain ⟨r, hr⟩ := h.stored.owner x c (h.slab hx)
  exact ⟨r, h.stored.sound c r hr⟩

theorem getSlab_spec {r : Option ℕ} (h : Inv M s g l chain) (hs : s.getSlab c = some (r, s')) :
    (r = none ∧ s' = s ∧ l (c, .partials) = [] ∧ l (c, .free) = []) ∨
      ∃ x l', r = some x ∧ (x ∈ l (c, .partials) ∨ x ∈ l (c, .free)) ∧ Pending M s' g l' chain c x .partials ∧
        (s'.slabs x).inUse < (s'.caches c).numPerSlab ∧ (s'.heads (c, .partials)).first = some x ∧
        Beside s s' := by
  have hpartials := h.listed.family.holds (c, .partials)
  have hfree := h.listed.family.holds (c, .free)
  rw [System.getSlab] at hs
  cases hfirst : (s.heads (c, .partials)).first with
  | some x =>
    rw [hfirst] at hs
    cases hs
    have hx : x ∈ l (c, .partials) := by
      rw [hpartials.first] at hfirst
      exact List.mem_of_mem_head? hfirst
    exact Or.inr ⟨x, l, rfl, Or.inl hx, h.pending hx, (h.inClass x c .partials hx).2, hfirst, .refl s⟩
  | none =>
    rw [hfirst] at hs
    dsimp only at hs
    split at hs
    next hzero =>
      cases hs
      rw [hpartials.first] at hfirst
      rw [hfree.length] at hzero
      exact Or.inl ⟨rfl, rfl, List.head?_eq_none_iff.mp hfirst, List.eq_nil_of_length_eq_zero hzero⟩
    next =>
      split at hs
      next => cases hs
      next x hx =>
        cases hs
        have hmem : x ∈ l (c, .free) := by
          rw [hfree.first] at hx
          exact List.mem_of_mem_head? hx
        obtain ⟨l', hpending, hhead⟩ := (h.pending hmem).move .partials (by decide)
        obtain ⟨r, hr⟩ := h.cache hmem
        have hzero : (s.slabs x).inUse = 0 := h.inClass x c .free hmem
        exact Or.inr ⟨x, l', rfl, Or.inr hmem, hpending, hzero.trans_lt hr.num, hhead, ⟨rfl, rfl, rfl, rfl⟩⟩

theorem getSlab_first (hx : (s.heads (c, .partials)).first = some x) : s.getSlab c = some (some x, s) := by
  rw [System.getSlab, hx]

/-! ## New slabs -/

theorem tagPages_eq (pa c x n : ℕ) (s : System) (hn : 0 < n) :
    System.tagPages pa c x n s = (s.setPageCache pa c).setPageSlab pa x := by
  induction n generalizing s with
  | zero => exact absurd hn (Nat.lt_irrefl 0)
  | succ n ih =>
    rw [System.tagPages]
    by_cases hzero : n = 0
    · rw [hzero, System.tagPages]
    · rw [ih _ (Nat.pos_of_ne_zero hzero)]
      simp only [System.setPageCache, System.setPageSlab, Function.update_idem]

theorem numberEntries_lt (table : ℕ → ℕ) {n i : ℕ} (hi : i < n) : System.numberEntries table n i = i+1 := by
  induction n with
  | zero => exact absurd hi (Nat.not_lt_zero i)
  | succ n ih =>
    rw [System.numberEntries]
    by_cases heq : i = n
    · rw [heq, Function.update_self]
    · rw [Function.update_of_ne heq]
      exact ih (by omega)

/-- The chain of a new slab has all indices. -/
theorem initObjs_follows (table : ℕ → ℕ) {n : ℕ} (hn : 0 < n) :
    Follows (System.initObjs n table) endMark 0 (List.range' 0 n) := by
  apply follows_range n 0 hn
  · intro i _ hi
    rw [System.initObjs, Function.update_of_ne (by omega)]
    exact numberEntries_lt table (by omega)
  · rw [Nat.zero_add]
    exact Function.update_self ..

/-- A slab of its own cache is put into the ledger. -/
def Ledger.grown (g : Ledger) (c x : ℕ) : Ledger := { g with slabs := Function.update g.slabs x (some c) }

theorem Ledger.grown_iff {y d : ℕ} : (g.grown c x).slabs y = some d ↔ y = x ∧ d = c ∨ y ≠ x ∧ g.slabs y = some d := by
  change Function.update g.slabs x (some c) y = some d ↔ _
  by_cases hy : y = x
  · subst hy
    rw [Function.update_self, Option.some_inj]
    exact ⟨fun h => Or.inl ⟨rfl, h.symm⟩, fun h => h.elim (fun h => h.2.symm) (fun h => absurd rfl h.1)⟩
  · rw [Function.update_of_ne hy]
    exact ⟨fun h => Or.inr ⟨hy, h⟩, fun h => h.elim (fun h => absurd h.1 hy) (fun h => h.2)⟩

/-- The parts of the system after `grow`. -/
structure Grown (s : System) (c x : ℕ) (s' : System) : Prop where
  sizes : s'.sizes = s.sizes
  buddy : s.buddy.allocPages (s.caches c).gfpOrder = some (x, s'.buddy)
  nodes : s'.nodes = (addTail s.nodes (s.heads (c, .free)) x).1
  heads : s'.heads = Function.update s.heads (c, .free) (addTail s.nodes (s.heads (c, .free)) x).2
  caches : s'.caches = s.caches
  pageSlab : s'.pageSlab = Function.update s.pageSlab (frameOf x) (some x)
  pageCache : s'.pageCache = Function.update s.pageCache (frameOf x) (some c)
  slabs : ∀ y, y ≠ x → s'.slabs y = s.slabs y
  filled : Filled (s.caches c) x (s'.slabs x) (List.range' 0 (s.caches c).numPerSlab)
  inUse : (s'.slabs x).inUse = 0

theorem stored_grown (h : Stored M s g chain) {r : Request} (hr : g.request c = some r) (hg : Grown s c x s') :
    g.slabs x = none ∧
      Stored M s' (g.grown c x) (Function.update chain x (List.range' 0 (s.caches c).numPerSlab)) := by
  obtain ⟨hframes, hx, hfresh⟩ := alloc_fresh h.frames hg.buddy
  have hpages : ∀ y d f, InPages s' d y f ↔ InPages s d y f := fun y d f => by rw [InPages, InPages, hg.caches]
  -- the frames of the new slab were free, those of the others are not
  have hapart : ∀ y d, g.slabs y = some d → ∀ f, InPages s d y f → ¬ InPages s c x f := by
    intro y d hy f hf hin
    have hused := (h.used y d hy f hf).2
    have hzero := hfresh.zero f hin.1 hin.2
    omega
  have hnew : g.slabs x = none := by
    cases hslab : g.slabs x with
    | none => rfl
    | some d => exact absurd (first_page s c x) (hapart x d hslab _ (first_page s d x))
  refine ⟨hnew, hframes, fun d r hd => ?_, fun y d hy => ?_, fun y d hy => ?_, fun y d hy f hf => ?_,
    fun y z d e hy hz f hf hf' => ?_, fun y d hy => ?_, fun y d hy => ?_, fun o y => ?_⟩
  · rw [hg.caches]
    exact h.sound d r hd
  · rcases Ledger.grown_iff.mp hy with ⟨rfl, rfl⟩ | ⟨-, hy⟩
    · exact ⟨r, hr⟩
    · exact h.owner y d hy
  · rcases Ledger.grown_iff.mp hy with ⟨rfl, rfl⟩ | ⟨-, hy⟩
    · exact hx
    · exact h.place y d hy
  · rw [hpages] at hf
    rcases Ledger.grown_iff.mp hy with ⟨rfl, rfl⟩ | ⟨-, hy⟩
    · refine ⟨hfresh.inside f hf.1 hf.2, ?_⟩
      rw [hfresh.ref, hfresh.zero f hf.1 hf.2, if_pos ⟨hf.1, hf.2⟩]
      exact Int.one_pos
    · obtain ⟨hM, hpos⟩ := h.used y d hy f hf
      have hnot : ¬ (frameOf x ≤ f ∧ f < frameOf x+2 ^ (s.caches c).gfpOrder) := hapart y d hy f hf
      rw [hfresh.ref, if_neg hnot, add_zero]
      exact ⟨hM, hpos⟩
  · rw [hpages] at hf hf'
    rcases Ledger.grown_iff.mp hy with ⟨rfl, rfl⟩ | ⟨-, hyold⟩ <;>
      rcases Ledger.grown_iff.mp hz with ⟨rfl, rfl⟩ | ⟨-, hzold⟩
    · rfl
    · exact absurd hf (hapart z e hzold f hf')
    · exact absurd hf' (hapart y d hyold f hf)
    · exact h.apart y z d e hyold hzold f hf hf'
  · rw [hg.pageSlab, hg.pageCache]
    rcases Ledger.grown_iff.mp hy with ⟨rfl, rfl⟩ | ⟨-, hy⟩
    · exact ⟨Function.update_self .., Function.update_self ..⟩
    · have hne : frameOf y ≠ frameOf x := by
        intro heq
        have hin := first_page s d y
        rw [heq] at hin
        exact hapart y d hy _ hin (first_page s c x)
      rw [Function.update_of_ne hne, Function.update_of_ne hne]
      exact h.tagged y d hy
  · rw [hg.caches]
    rcases Ledger.grown_iff.mp hy with ⟨rfl, rfl⟩ | ⟨hne, hy⟩
    · rw [Function.update_self]
      exact hg.filled
    · rw [Function.update_of_ne hne, hg.slabs y hne]
      exact h.filled y d hy
  · rw [hg.caches]
    refine (h.live o y).trans ?_
    constructor
    · rintro ⟨d, i, hy, hi⟩
      have hne : y ≠ x := by
        rintro rfl
        rw [hnew] at hy
        cases hy
      exact ⟨d, i, Ledger.grown_iff.mpr (Or.inr ⟨hne, hy⟩), by rw [Function.update_of_ne hne]; exact hi⟩
    · rintro ⟨d, i, hy, hlt, hi, ho⟩
      rcases Ledger.grown_iff.mp hy with ⟨rfl, rfl⟩ | ⟨hne, hy⟩
      · rw [Function.update_self] at hi
        exact absurd (List.mem_range'_1.mpr ⟨Nat.zero_le i, by omega⟩) hi
      · rw [Function.update_of_ne hne] at hi
        exact ⟨d, i, hy, hlt, hi, ho⟩

theorem grow_cases {r : Request} (hr : Sound r (s.caches c)) (hs : s.grow c = some s') : ∃ x, Grown s c x s' := by
  rw [System.grow] at hs
  cases halloc : s.buddy.allocPages (s.caches c).gfpOrder with
  | none =>
    rw [halloc] at hs
    cases hs
  | some p =>
    obtain ⟨x, b⟩ := p
    rw [halloc] at hs
    dsimp only at hs
    rw [tagPages_eq _ _ _ _ _ (Nat.two_pow_pos _)] at hs
    cases hs
    set slab : Slab := ⟨cacheAlign ((s.caches c).numPerSlab*4+slabSize), x+cacheAlign ((s.caches c).numPerSlab*4+slabSize),
      0, 0, System.initObjs (s.caches c).numPerSlab (s.slabs x).freeTable⟩
    refine ⟨x, rfl, halloc, rfl, rfl, rfl, ?_, ?_, fun y hy => Function.update_of_ne hy _ _, ?_, ?_⟩
    · rw [← mapNr_eq]
      rfl
    · rw [← mapNr_eq]
      rfl
    · change Filled (s.caches c) x (Function.update s.slabs x slab x) _
      rw [Function.update_self]
      refine ⟨rfl, initObjs_follows _ hr.num, List.nodup_range', fun i hi => ?_, ?_⟩
      · have := (List.mem_range'_1.mp hi).2
        omega
      · rw [List.length_range']
        exact Nat.zero_add _
    · exact congrArg Slab.inUse (Function.update_self x slab s.slabs)

theorem grow_spec (h : Inv M s g l chain) {r : Request} (hr : g.request c = some r) (hs : s.grow c = some s') :
    ∃ x chain', Inv M s' (g.grown c x) (Function.update l (c, .free) (l (c, .free)++[x])) chain' ∧
      g.slabs x = none ∧ Grown s c x s' := by
  obtain ⟨x, hg⟩ := grow_cases (h.stored.sound c r hr) hs
  obtain ⟨hnew, hstored⟩ := stored_grown h.stored hr hg
  have hout : ∀ j, x ∉ l j := by
    intro j hj
    have := h.slab hj
    rw [hnew] at this
    cases this
  have hshort := h.stored.short h.listed (c, .free)
  have hfamily := h.listed.family.addTail hout (k := (c, .free)) (by omega)
  rw [← hg.nodes, ← hg.heads] at hfamily
  have hwhere : ∀ y j, y ∈ Function.update l (c, .free) (l (c, .free)++[x]) j ↔ y ∈ l j ∨ y = x ∧ j = (c, .free) := by
    intro y j
    by_cases hj : j = (c, .free)
    · subst hj
      rw [Function.update_self, List.mem_append, List.mem_singleton, and_iff_left rfl]
    · rw [Function.update_of_ne hj]
      exact ⟨Or.inl, fun h => h.elim id (fun h => absurd h.2 hj)⟩
  refine ⟨x, _, ⟨hstored, ⟨hfamily, fun y d => ?_⟩, fun y d k hy => ?_⟩, hnew, hg⟩
  · rw [Ledger.grown_iff, h.listed.mem]
    constructor
    · rintro (⟨rfl, rfl⟩ | ⟨-, k, hk⟩)
      · exact ⟨.free, (hwhere y _).mpr (Or.inr ⟨rfl, rfl⟩)⟩
      · exact ⟨k, (hwhere y _).mpr (Or.inl hk)⟩
    · rintro ⟨k, hk⟩
      rcases (hwhere y _).mp hk with hk | ⟨rfl, hkey⟩
      · exact Or.inr ⟨fun heq => hout _ (heq ▸ hk), k, hk⟩
      · exact Or.inl ⟨rfl, (Prod.mk.inj hkey).1⟩
  · rcases (hwhere y _).mp hy with hy | ⟨rfl, hkey⟩
    · have hne : y ≠ x := fun heq => hout _ (heq ▸ hy)
      rw [hg.slabs y hne, hg.caches]
      exact h.inClass y d k hy
    · obtain ⟨rfl, rfl⟩ := Prod.mk.inj hkey
      exact hg.inUse

/-- What `findSlab` leaves alone: it may tag the first page of the slab. -/
structure Found (s : System) (x : ℕ) (s' : System) : Prop where
  caches : s'.caches = s.caches
  sizes : s'.sizes = s.sizes
  pageSlab : ∀ f, frameOf x ≠ f → s'.pageSlab f = s.pageSlab f
  pageCache : ∀ f, frameOf x ≠ f → s'.pageCache f = s.pageCache f

theorem findSlab_spec (h : Inv M s g l chain) {r : Request} (hr : g.request c = some r)
    (hs : s.findSlab c = some (x, s')) : ∃ l' chain', Pending M s' (g.grown c x) l' chain' c x .partials ∧
      (s'.slabs x).inUse < (s'.caches c).numPerSlab ∧ (∀ d, g.slabs x = some d → d = c) ∧ Found s x s' := by
  rw [System.findSlab] at hs
  cases hget : s.getSlab c with
  | none =>
    rw [hget] at hs
    cases hs
  | some p =>
    obtain ⟨slab, s₁⟩ := p
    rw [hget] at hs
    dsimp only at hs
    rcases getSlab_spec h hget with ⟨rfl, rfl, hpartials, hfree⟩ | ⟨y, l', rfl, hwhere, hpending, hroom, hfirst, hbeside⟩
    · rw [if_pos rfl] at hs
      cases hgrow : s₁.grow c with
      | none =>
        rw [hgrow] at hs
        cases hs
      | some s₂ =>
        obtain ⟨y, chain', hgrown, hnew, hg⟩ := grow_spec h hr hgrow
        rw [hgrow] at hs
        dsimp only at hs
        cases hagain : s₂.getSlab c with
        | none =>
          rw [hagain] at hs
          cases hs
        | some p =>
          obtain ⟨slab, s₃⟩ := p
          rw [hagain] at hs
          rcases getSlab_spec hgrown hagain with ⟨rfl, -⟩ | ⟨z, l', rfl, hwhere, hpending, hroom, -, hbeside⟩
          · cases hs
          · cases hs
            -- the lists were empty: it is the new slab
            have hxy : x = y := by
              rw [Function.update_of_ne (by simp), hpartials, Function.update_self, hfree] at hwhere
              simpa using hwhere
            subst hxy
            refine ⟨l', chain', hpending, hroom, fun d hd => ?_, hbeside.caches.trans hg.caches, hbeside.sizes.trans hg.sizes,
              fun f hf => ?_, fun f hf => ?_⟩
            · rw [hnew] at hd
              cases hd
            · rw [hbeside.pageSlab, hg.pageSlab, Function.update_of_ne hf.symm]
            · rw [hbeside.pageCache, hg.pageCache, Function.update_of_ne hf.symm]
    · rw [if_neg (Option.some_ne_none y)] at hs
      dsimp only at hs
      rw [getSlab_first hfirst] at hs
      cases hs
      have hold : g.slabs x = some c := hwhere.elim h.slab h.slab
      have hsame : g.grown c x = g := by
        rw [Ledger.grown, Function.update_eq_self_iff.mpr hold.symm]
      rw [hsame]
      exact ⟨l', chain, hpending, hroom, fun d hd => Option.some.inj (hd.symm.trans hold), hbeside.caches, hbeside.sizes, fun f _ => by rw [hbeside.pageSlab],
        fun f _ => by rw [hbeside.pageCache]⟩

end Finding

/-! ## Objects -/

section Objects

variable {M : Set ℕ} {s s' : System} {g : Ledger} {l : ℕ × SlabList → List ℕ} {chain : ℕ → List ℕ}
  {c d x y o i j : ℕ} {rest : List ℕ} {slab : Slab}

/-- The object is in use from now on, or no more. -/
def Ledger.setLive (g : Ledger) (o : ℕ) (slab : Option ℕ) : Ledger :=
  { g with live := Function.update g.live o slab }

/-- The frame of an object is one of its slab. -/
theorem Stored.object_page (h : Stored M s g chain) (hx : g.slabs x = some c) (hi : i < (s.caches c).numPerSlab) :
    InPages s c x (frameOf (objAddr (s.caches c) x i)) := by
  obtain ⟨r, hr⟩ := h.owner x c hx
  have hsound := h.sound c r hr
  obtain ⟨hlow, hhigh⟩ := hsound.inside (x := x) hi
  have hpos := hsound.pos
  have hplace := h.place x c hx
  rw [InPages, frameOf, frameOf]
  rw [frameAddr, frameOf] at hplace
  have hpage : 0 < pageSize := by decide
  constructor
  · exact Nat.div_le_div_right (by omega)
  · rw [Nat.div_lt_iff_lt_mul hpage, Nat.add_mul, ← hplace, Nat.mul_comm (2 ^ _)]
    omega

/-- The address tells the object. -/
theorem Stored.unique (h : Stored M s g chain) (hx : g.slabs x = some c) (hy : g.slabs y = some d)
    (hi : i < (s.caches c).numPerSlab) (hj : j < (s.caches d).numPerSlab)
    (heq : objAddr (s.caches c) x i = objAddr (s.caches d) y j) : x = y ∧ i = j := by
  have hpage := h.object_page hx hi
  rw [heq] at hpage
  obtain rfl := h.apart x y c d hx hy _ hpage (h.object_page hy hj)
  obtain rfl := Option.some.inj (hx.symm.trans hy)
  obtain ⟨r, hr⟩ := h.owner x c hx
  exact ⟨rfl, (h.sound c r hr).injective heq⟩

/-- One slab has another chain, and its objects in use are the others. -/
theorem Stored.setSlab (h : Stored M s g chain) (hx : g.slabs x = some c) (hi : i < (s.caches c).numPerSlab)
    (hfilled : Filled (s.caches c) x slab rest) (hrest : ∀ j, j ≠ i → (j ∈ rest ↔ j ∈ chain x)) :
    Stored M (s.setSlab x slab) (g.setLive (objAddr (s.caches c) x i) (if i ∈ rest then none else some x))
      (Function.update chain x rest) := by
  refine ⟨h.frames, h.sound, h.owner, h.place, h.used, h.apart, h.tagged, fun y d hy => ?_, fun o y => ?_⟩
  · change Filled (s.caches d) y (Function.update s.slabs x slab y) _
    by_cases hyx : y = x
    · subst hyx
      obtain rfl := Option.some.inj (hx.symm.trans hy)
      rw [Function.update_self, Function.update_self]
      exact hfilled
    · rw [Function.update_of_ne hyx, Function.update_of_ne hyx]
      exact h.filled y d hy
  · change Function.update g.live _ _ o = some y ↔ ∃ d j, g.slabs y = some d ∧ j < (s.caches d).numPerSlab ∧
      j ∉ Function.update chain x rest y ∧ o = objAddr (s.caches d) y j
    by_cases ho : o = objAddr (s.caches c) x i
    · rw [ho, Function.update_self]
      constructor
      · intro hlive
        split at hlive
        next => cases hlive
        next hnot =>
          cases hlive
          exact ⟨c, i, hx, hi, by rw [Function.update_self]; exact hnot, rfl⟩
      · rintro ⟨d, j, hy, hj, hnot, heq⟩
        obtain ⟨rfl, rfl⟩ := h.unique hx hy hi hj heq
        rw [Function.update_self] at hnot
        exact if_neg hnot
    · rw [Function.update_of_ne ho, h.live]
      refine exists_congr fun d => exists_congr fun j => and_congr_right fun hy => and_congr_right fun _ =>
        and_congr_left fun heq => not_congr ?_
      by_cases hyx : y = x
      · subst hyx
        obtain rfl := Option.some.inj (hx.symm.trans hy)
        rw [Function.update_self]
        exact (hrest j (fun hji => ho (hji ▸ heq))).symm
      · rw [Function.update_of_ne hyx]

theorem slabAlloc_spec (h : Pending M s g l chain c x .partials)
    (hroom : (s.slabs x).inUse < (s.caches c).numPerSlab) :
    ∃ i l' chain', i < (s.caches c).numPerSlab ∧ i ∈ chain x ∧
      (System.slabAlloc c x s).1 = objAddr (s.caches c) x i ∧
      Inv M (System.slabAlloc c x s).2 (g.setLive (objAddr (s.caches c) x i) (some x)) l' chain' ∧
      Beside s (System.slabAlloc c x s).2 := by
  have hx := h.slab
  obtain ⟨r, hr⟩ := h.stored.owner x c hx
  have hsound := h.stored.sound c r hr
  have hnum := hsound.num_le
  have hfilled := h.stored.filled x c hx
  cases hchain : chain x with
  | nil =>
    have hall := hfilled.inUse
    rw [hchain, List.length_nil] at hall
    omega
  | cons i rest =>
    rw [hchain] at hfilled
    obtain ⟨hfirst, hfollows⟩ := hfilled.chain
    have hi : i < (s.caches c).numPerSlab := hfilled.lt i List.mem_cons_self
    obtain ⟨hnot, hnodup⟩ := List.nodup_cons.mp hfilled.nodup
    have hcount := hfilled.inUse
    rw [List.length_cons] at hcount
    have hmore : ((s.slabs x).inUse+1) % 2 ^ 32 = (s.slabs x).inUse+1 := Nat.mod_eq_of_lt (by omega)
    have hobj : (s.slabs x).mem+(s.slabs x).firstFree*(s.caches c).objsize % 2 ^ 32 = objAddr (s.caches c) x i := by
      have hlast := (hsound.inside (x := x) hi).2
      have hpow : 2 ^ (s.caches c).gfpOrder ≤ 2 ^ 19 := Nat.pow_le_pow_right (by decide) (Nat.le_of_lt_succ hsound.order)
      have hpage : pageSize*2 ^ (s.caches c).gfpOrder ≤ pageSize*2 ^ 19 := Nat.mul_le_mul_left _ hpow
      rw [objAddr] at hlast
      rw [pageSize] at *
      rw [hfirst, hfilled.mem, objAddr, Nat.mod_eq_of_lt (by omega)]
    set slab : Slab := ⟨(s.slabs x).colorOff, (s.slabs x).mem, (s.slabs x).inUse+1, (s.slabs x).freeTable i,
      (s.slabs x).freeTable⟩ with hslab
    have hnew : Filled (s.caches c) x slab rest := by
      refine ⟨hfilled.mem, hfollows, hnodup, fun j hj => hfilled.lt j (List.mem_cons_of_mem _ hj), ?_⟩
      change (s.slabs x).inUse+1+rest.length = (s.caches c).numPerSlab
      omega
    have hstored := h.stored.setSlab hx hi hnew (fun j hj => by rw [hchain, List.mem_cons, or_iff_right hj])
    rw [if_neg hnot] at hstored
    have hend : (s.slabs x).freeTable i = endMark ↔ rest = [] := by
      apply hfollows.end_iff
      intro hmem
      have := hnew.lt _ hmem
      rw [endMark] at this
      omega
    have hpending : Pending M (s.setSlab x slab) (g.setLive (objAddr (s.caches c) x i) (some x)) l
        (Function.update chain x rest) c x .partials := by
      refine ⟨hstored, ⟨h.listed.family, h.listed.mem⟩, h.mem, fun z d k hz hin => ?_⟩
      change InClass (s.caches d) (Function.update s.slabs x slab z) k
      rw [Function.update_of_ne hz]
      exact h.inClass z d k hz hin
    have hhere : (s.setSlab x slab).slabs x = slab := Function.update_self ..
    have hdef : System.slabAlloc c x s = if (s.slabs x).freeTable i = endMark then
        (objAddr (s.caches c) x i, ((s.setSlab x slab).remove (c, .partials) x).addHead (c, .full) x)
        else (objAddr (s.caches c) x i, s.setSlab x slab) := by
      rw [System.slabAlloc, hobj, hmore, hfirst]
    rw [hdef]
    by_cases hempty : rest = []
    · rw [if_pos (hend.mpr hempty)]
      obtain ⟨l', hmoved, -⟩ := hpending.move .full (by decide)
      refine ⟨i, l', _, hi, List.mem_cons_self, rfl, hmoved.done ?_, ⟨rfl, rfl, rfl, rfl⟩⟩
      have hall := hnew.inUse
      rw [hempty, List.length_nil, Nat.add_zero] at hall
      change ((s.setSlab x slab).slabs x).inUse = (s.caches c).numPerSlab
      rw [hhere, hall]
    · rw [if_neg (fun hmark => hempty (hend.mp hmark))]
      have hlength : 0 < rest.length := List.length_pos_of_ne_nil hempty
      refine ⟨i, l, _, hi, List.mem_cons_self, rfl, hpending.done ?_, ⟨rfl, rfl, rfl, rfl⟩⟩
      change 0 < ((s.setSlab x slab).slabs x).inUse ∧ ((s.setSlab x slab).slabs x).inUse < (s.caches c).numPerSlab
      rw [hhere]
      have hall : (s.slabs x).inUse+1+rest.length = (s.caches c).numPerSlab := hnew.inUse
      change 0 < (s.slabs x).inUse+1 ∧ (s.slabs x).inUse+1 < _
      omega

/-- The offset of an object, divided, is its index. -/
theorem freeIndex_eq {ca : Cache} (hpos : 0 < ca.objsize) (hi : i < 2 ^ 32) (hmem : (s.slabs x).mem = x+objStart ca)
    (hca : s.caches c = ca) : s.freeIndex c x (objAddr ca x i) = i := by
  have hdiff : ((objAddr ca x i : ℕ) : ℤ)-(s.slabs x).mem = (i : ℤ)*ca.objsize := by
    rw [hmem, objAddr]
    push_cast
    ring
  have hne : (ca.objsize : ℤ) ≠ 0 := by omega
  rw [System.freeIndex, hca, hdiff, Int.mul_tdiv_cancel _ hne]
  omega

theorem freeOne_spec (h : Inv M s g l chain) (hx : g.slabs x = some c) (hi : i < (s.caches c).numPerSlab)
    (hlive : i ∉ chain x) (hpage : frameOf (objAddr (s.caches c) x i) = frameOf x)
    (hs : s.freeOne c (objAddr (s.caches c) x i) = some s') :
    ∃ l' chain', Inv M s' (g.setLive (objAddr (s.caches c) x i) none) l' chain' ∧ Beside s s' := by
  obtain ⟨r, hr⟩ := h.stored.owner x c hx
  have hsound := h.stored.sound c r hr
  have hnum := hsound.num_le
  have hfilled := h.stored.filled x c hx
  have hcount := hfilled.inUse
  have hlength := length_lt hfilled.nodup hfilled.lt hi hlive
  have htag : s.getPageSlab (objAddr (s.caches c) x i) = some x := by
    rw [System.getPageSlab, mapNr_eq, hpage]
    exact (h.stored.tagged x c hx).1
  have hless : ((s.slabs x).inUse+(2 ^ 32-1)) % 2 ^ 32 = (s.slabs x).inUse-1 := by omega
  have hindex := freeIndex_eq hsound.pos (hi.trans (by omega)) hfilled.mem rfl
  rw [System.freeOne, htag] at hs
  dsimp only at hs
  rw [hindex, hless] at hs
  set slab : Slab := ⟨(s.slabs x).colorOff, (s.slabs x).mem, (s.slabs x).inUse-1, i,
    Function.update (s.slabs x).freeTable i (s.slabs x).firstFree⟩ with hslab
  have hnew : Filled (s.caches c) x slab (i :: chain x) := by
    refine ⟨hfilled.mem, hfilled.chain.push hlive, List.nodup_cons.mpr ⟨hlive, hfilled.nodup⟩, fun j hj => ?_, ?_⟩
    · rcases List.mem_cons.mp hj with rfl | hj
      · exact hi
      · exact hfilled.lt j hj
    · change (s.slabs x).inUse-1+(i :: chain x).length = (s.caches c).numPerSlab
      rw [List.length_cons]
      omega
  have hstored := h.stored.setSlab hx hi hnew (fun j hj => by rw [List.mem_cons, or_iff_right hj])
  rw [if_pos List.mem_cons_self] at hstored
  have hpending : ∀ k, x ∈ l (c, k) → Pending M (s.setSlab x slab) (g.setLive (objAddr (s.caches c) x i) none) l
      (Function.update chain x (i :: chain x)) c x k := by
    intro k hk
    refine ⟨hstored, ⟨h.listed.family, h.listed.mem⟩, hk, fun z d j hz hin => ?_⟩
    change InClass (s.caches d) (Function.update s.slabs x slab z) j
    rw [Function.update_of_ne hz]
    exact h.inClass z d j hin
  have hhere : (s.setSlab x slab).slabs x = slab := Function.update_self ..
  obtain ⟨k, hk⟩ := (h.listed.mem x c).mp hx
  have hclass := h.inClass x c k hk
  -- a full slab goes to the partial list first
  have hmid : ∃ l₁, Pending M (if (s.slabs x).inUse = (s.caches c).numPerSlab then
        ((s.setSlab x slab).remove (c, .full) x).addHead (c, .partials) x else s.setSlab x slab)
      (g.setLive (objAddr (s.caches c) x i) none) l₁ (Function.update chain x (i :: chain x)) c x .partials := by
    split
    next hfull =>
      cases k with
      | full =>
        obtain ⟨l₁, hmoved, -⟩ := (hpending .full hk).move .partials (by decide)
        exact ⟨l₁, hmoved⟩
      | partials => exact absurd hfull (Nat.ne_of_lt hclass.2)
      | free =>
        have hzero : (s.slabs x).inUse = 0 := hclass
        omega
    next hnot =>
      cases k with
      | full => exact absurd hclass hnot
      | partials => exact ⟨l, hpending .partials hk⟩
      | free =>
        have hzero : (s.slabs x).inUse = 0 := hclass
        omega
  obtain ⟨l₁, hmid⟩ := hmid
  have hbeside : Beside s (if (s.slabs x).inUse = (s.caches c).numPerSlab then
      ((s.setSlab x slab).remove (c, .full) x).addHead (c, .partials) x else s.setSlab x slab) := by
    split <;> exact ⟨rfl, rfl, rfl, rfl⟩
  have hslabs : (if (s.slabs x).inUse = (s.caches c).numPerSlab then
      ((s.setSlab x slab).remove (c, .full) x).addHead (c, .partials) x else s.setSlab x slab).slabs x = slab := by
    split <;> exact hhere
  change some (if _ then ((if (s.slabs x).inUse = (s.caches c).numPerSlab then
      ((s.setSlab x slab).remove (c, .full) x).addHead (c, .partials) x else s.setSlab x slab).remove _ x).addHead _ x
      else (if (s.slabs x).inUse = (s.caches c).numPerSlab then
      ((s.setSlab x slab).remove (c, .full) x).addHead (c, .partials) x else s.setSlab x slab)) = some s' at hs
  generalize (if (s.slabs x).inUse = (s.caches c).numPerSlab then
      ((s.setSlab x slab).remove (c, .full) x).addHead (c, .partials) x else s.setSlab x slab) = s₁ at *
  obtain rfl := Option.some.inj hs
  split
  next hzero =>
    obtain ⟨l', hmoved, -⟩ := hmid.move .free (by decide)
    refine ⟨l', _, hmoved.done ?_, ⟨hbeside.caches, hbeside.sizes, hbeside.pageSlab, hbeside.pageCache⟩⟩
    change (s₁.slabs x).inUse = 0
    rw [hslabs]
    exact hzero
  next hpos =>
    refine ⟨l₁, _, hmid.done ?_, hbeside⟩
    change 0 < (s₁.slabs x).inUse ∧ (s₁.slabs x).inUse < (s₁.caches c).numPerSlab
    rw [hslabs, hbeside.caches]
    change 0 < (s.slabs x).inUse-1 ∧ (s.slabs x).inUse-1 < _
    omega

end Objects

end BabyOS.SlabInvariant

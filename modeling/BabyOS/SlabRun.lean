import BabyOS.CopyOnWrite
import BabyOS.SlabInvariant

/-!
# Runs of the slab caches

Caches are created, objects are taken from them and given back, in any order, while the
rest of the kernel takes and frees pages that are not of a slab.
-/

set_option autoImplicit false

namespace BabyOS.SlabRun
open BabyOS.BuddyMachine BabyOS.BuddyArithmetic BabyOS.FrameCounts
open BabyOS.LinkedLists BabyOS.ListFamilies BabyOS.IndexChains
open BabyOS.SlabMachine BabyOS.SlabLayout BabyOS.SlabInvariant

/-- An object that starts in the first page of its slab, as all do in a slab of one page. -/
def InFirst (s : System) (c x o : ℕ) : Prop := (s.caches c).gfpOrder = 0 ∨ o < x+pageSize

/-- `create` also empties the lists. -/
def setUp (s : System) (c : ℕ) (ca : Cache) : System :=
  { s with caches := Function.update s.caches c ca, heads := fun k => if k.1 = c then empty else s.heads k }

/-- One call. An object that is given back is in use and starts in the first page of its
slab. -/
inductive Step (M : Set ℕ) : System × Ledger → System × Ledger → Prop
  | create {s : System} {g : Ledger} {c : ℕ} {r : Request} {ca : Cache} (hnew : g.request c = none) (hr : Proper r)
      (hs : create r = some ca) : Step M (s, g) (setUp s c ca, { g with request := Function.update g.request c (some r) })
  | size {s : System} {g : Ledger} {c : ℕ} {r : Request} (hr : g.request c = some r) :
      Step M (s, g) ({ s with sizes := s.sizes++[(r.size, c)] }, g)
  | alloc {s s₁ : System} {g : Ledger} {c x : ℕ} {r : Request} (hr : g.request c = some r)
      (hs : s.findSlab c = some (x, s₁)) :
      Step M (s, g) ((System.slabAlloc c x s₁).2, (g.grown c x).setLive (System.slabAlloc c x s₁).1 (some x))
  | kmalloc {s s₁ : System} {g : Ledger} {size c x : ℕ} (hc : s.sizeCache size = some c)
      (hs : s.findSlab c = some (x, s₁)) :
      Step M (s, g) ((System.slabAlloc c x s₁).2, (g.grown c x).setLive (System.slabAlloc c x s₁).1 (some x))
  | free {s s' : System} {g : Ledger} {c x o : ℕ} (ho : g.live o = some x) (hx : g.slabs x = some c)
      (hfirst : InFirst s c x o) (hs : s.freeOne c o = some s') : Step M (s, g) (s', g.setLive o none)
  | kfree {s s' : System} {g : Ledger} {c x o : ℕ} (ho : g.live o = some x) (hx : g.slabs x = some c)
      (hfirst : InFirst s c x o) (hs : s.kfree (some o) = some s') : Step M (s, g) (s', g.setLive o none)
  | pages {s : System} {g : Ledger} {b : Buddy} (hb : Frames M b)
      (hkept : ∀ x c f, g.slabs x = some c → InPages s c x f → b.ref f = s.buddy.ref f) :
      Step M (s, g) ({ s with buddy := b }, g)

def noCaches : Ledger := ⟨fun _ => none, fun _ => none, fun _ => none⟩

/-- A coherent allocator, and no caches. The page records have any tags. -/
structure Start (M : Set ℕ) (s : System) : Prop where
  frames : Frames M s.buddy
  heads : s.heads = fun _ => empty
  sizes : s.sizes = []

inductive Run (M : Set ℕ) (s₀ : System) : System × Ledger → Prop
  | start (h : Start M s₀) : Run M s₀ (s₀, noCaches)
  | step {t t' : System × Ledger} (h : Run M s₀ t) (h' : Step M t t') : Run M s₀ t'

/-- The caches for the sizes are caches of these sizes. -/
def Sized (s : System) (g : Ledger) : Prop := ∀ n c, (n, c) ∈ s.sizes → ∃ r, g.request c = some r ∧ r.size = n

/-- Tags are set in the first pages of slabs only. -/
def Clean (s₀ s : System) (g : Ledger) : Prop :=
  ∀ f, (∀ x c, g.slabs x = some c → frameOf x ≠ f) →
    s.pageSlab f = s₀.pageSlab f ∧ s.pageCache f = s₀.pageCache f

section Objects

variable {M : Set ℕ} {s s' : System} {g : Ledger} {l : ℕ × SlabList → List ℕ} {chain : ℕ → List ℕ} {c d x y o i : ℕ}

/-- The bytes of two slabs. -/
theorem blocks_apart (h : Stored M s g chain) (hx : g.slabs x = some c) (hy : g.slabs y = some d) (hne : x ≠ y) :
    x+pageSize*2 ^ (s.caches c).gfpOrder ≤ y ∨ y+pageSize*2 ^ (s.caches d).gfpOrder ≤ x := by
  have hplace := h.place x c hx
  have hplace' := h.place y d hy
  rw [frameAddr] at hplace hplace'
  have hbefore : frameOf x+2 ^ (s.caches c).gfpOrder ≤ frameOf y ∨ frameOf y+2 ^ (s.caches d).gfpOrder ≤ frameOf x := by
    by_contra hboth
    rw [not_or, not_le, not_le] at hboth
    rcases Nat.le_total (frameOf x) (frameOf y) with hle | hle
    · exact hne (h.apart x y c d hx hy (frameOf y) ⟨hle, hboth.1⟩ (first_page s d y))
    · exact hne (h.apart x y c d hx hy (frameOf x) (first_page s c x) ⟨hle, hboth.2⟩)
  refine hbefore.imp (fun hle => ?_) (fun hle => ?_)
  · have := Nat.mul_le_mul_right pageSize hle
    rw [Nat.add_mul, ← hplace, ← hplace', Nat.mul_comm (2 ^ _)] at this
    exact this
  · have := Nat.mul_le_mul_right pageSize hle
    rw [Nat.add_mul, ← hplace, ← hplace', Nat.mul_comm (2 ^ _)] at this
    exact this

/-- An object in the first page, by its frame. -/
theorem inFirst_iff (h : Stored M s g chain) (hx : g.slabs x = some c) (hi : i < (s.caches c).numPerSlab) :
    InFirst s c x (objAddr (s.caches c) x i) ↔ frameOf (objAddr (s.caches c) x i) = frameOf x := by
  obtain ⟨r, hr⟩ := h.owner x c hx
  have hinside := ((h.sound c r hr).inside (x := x) hi).1
  have hpage := h.object_page hx hi
  have hplace := h.place x c hx
  rw [frameAddr] at hplace
  have hfirst : objAddr (s.caches c) x i < x+pageSize ↔ frameOf (objAddr (s.caches c) x i) = frameOf x := by
    have hdiv := Nat.div_add_mod (objAddr (s.caches c) x i) pageSize
    have hmod := Nat.mod_lt (objAddr (s.caches c) x i) (show 0 < pageSize by decide)
    rw [show objAddr (s.caches c) x i / pageSize = frameOf (objAddr (s.caches c) x i) from rfl] at hdiv
    constructor
    · intro hlt
      have hle := hpage.1
      by_contra hne
      have hnext : pageSize*(frameOf x+1) ≤ pageSize*frameOf (objAddr (s.caches c) x i) :=
        Nat.mul_le_mul_left _ (by omega)
      rw [Nat.mul_succ, Nat.mul_comm pageSize (frameOf x), ← hplace] at hnext
      omega
    · intro heq
      rw [heq, Nat.mul_comm, ← hplace] at hdiv
      omega
  rw [InFirst, hfirst]
  refine or_iff_right_of_imp (fun hzero => ?_)
  rw [InPages, hzero] at hpage
  omega

end Objects

/-! ## Steps -/

structure Good (M : Set ℕ) (s₀ s : System) (g : Ledger) : Prop where
  inv : ∃ l chain, Inv M s g l chain
  sized : Sized s g
  clean : Clean s₀ s g

section Steps

variable {M : Set ℕ} {s₀ s s₁ s' : System} {g : Ledger} {l : ℕ × SlabList → List ℕ} {chain : ℕ → List ℕ}
  {c x o : ℕ} {r : Request} {ca : Cache}

theorem setUp_inv (h : Inv M s g l chain) (hnew : g.request c = none) (hca : Sound r ca) :
    Inv M (setUp s c ca) { g with request := Function.update g.request c (some r) } l chain := by
  have hother : ∀ x d, g.slabs x = some d → d ≠ c := by
    rintro x d hx rfl
    obtain ⟨r, hr⟩ := h.stored.owner x d hx
    rw [hnew] at hr
    cases hr
  have hcaches : ∀ x d, g.slabs x = some d → (setUp s c ca).caches d = s.caches d :=
    fun x d hx => Function.update_of_ne (hother x d hx) _ _
  have hpages : ∀ x d f, g.slabs x = some d → (InPages (setUp s c ca) d x f ↔ InPages s d x f) :=
    fun x d f hx => by rw [InPages, InPages, hcaches x d hx]
  have hempty : ∀ k, l (c, k) = [] := by
    intro k
    refine List.eq_nil_iff_forall_not_mem.mpr (fun x hx => ?_)
    exact hother x c (h.slab hx) rfl
  refine ⟨⟨h.stored.frames, fun d q hd => ?_, fun x d hx => ?_, h.stored.place, fun x d hx f hf => ?_,
    fun x y d e hx hy f hf hf' => ?_, h.stored.tagged, fun x d hx => ?_, fun o x => ?_⟩, ⟨⟨fun k => ?_,
    h.listed.family.apart⟩, h.listed.mem⟩, fun x d k hx => ?_⟩
  · change Function.update g.request c (some r) d = some q at hd
    change Sound q (Function.update s.caches c ca d)
    by_cases hdc : d = c
    · subst hdc
      rw [Function.update_self] at hd ⊢
      exact Option.some.inj hd ▸ hca
    · rw [Function.update_of_ne hdc] at hd ⊢
      exact h.stored.sound d q hd
  · obtain ⟨q, hq⟩ := h.stored.owner x d hx
    exact ⟨q, (Function.update_of_ne (hother x d hx) _ _).trans hq⟩
  · exact h.stored.used x d hx f ((hpages x d f hx).mp hf)
  · exact h.stored.apart x y d e hx hy f ((hpages x d f hx).mp hf) ((hpages y e f hy).mp hf')
  · rw [hcaches x d hx]
    exact h.stored.filled x d hx
  · refine (h.stored.live o x).trans (exists_congr fun d => exists_congr fun i => and_congr_right fun hx => ?_)
    rw [hcaches x d hx]
  · change Holds s.nodes (if k.1 = c then empty else s.heads k) (l k)
    split
    next hk =>
      obtain ⟨d, k⟩ := k
      obtain rfl : d = c := hk
      rw [hempty]
      exact holds_empty s.nodes
    next => exact h.listed.family.holds k
  · rw [hcaches x d (h.slab hx)]
    exact h.inClass x d k hx

theorem alloc_keeps (h : Good M s₀ s g) (hr : g.request c = some r) (hs : s.findSlab c = some (x, s₁)) :
    Good M s₀ (System.slabAlloc c x s₁).2 ((g.grown c x).setLive (System.slabAlloc c x s₁).1 (some x)) := by
  obtain ⟨l, chain, hinv⟩ := h.inv
  obtain ⟨l', chain', hpending, hroom, -, hfound⟩ := findSlab_spec hinv hr hs
  obtain ⟨i, l'', chain'', -, -, hobj, hinv', hbeside⟩ := slabAlloc_spec hpending hroom
  rw [hobj]
  refine ⟨⟨l'', chain'', hinv'⟩, fun n d hd => ?_, fun f hf => ?_⟩
  · rw [hbeside.sizes, hfound.sizes] at hd
    exact h.sized n d hd
  · have hx : frameOf x ≠ f := hf x c (Ledger.grown_iff.mpr (Or.inl ⟨rfl, rfl⟩))
    rw [hbeside.pageSlab, hbeside.pageCache, hfound.pageSlab f hx, hfound.pageCache f hx]
    apply h.clean
    intro y d hy
    by_cases hyx : y = x
    · rw [hyx]
      exact hx
    · exact hf y d (Ledger.grown_iff.mpr (Or.inr ⟨hyx, hy⟩))

theorem free_keeps (h : Good M s₀ s g) (ho : g.live o = some x) (hx : g.slabs x = some c) (hfirst : InFirst s c x o)
    (hs : s.freeOne c o = some s') : Good M s₀ s' (g.setLive o none) := by
  obtain ⟨l, chain, hinv⟩ := h.inv
  obtain ⟨d, i, hd, hi, hlive, rfl⟩ := (hinv.stored.live o x).mp ho
  obtain rfl := Option.some.inj (hx.symm.trans hd)
  obtain ⟨l', chain', hinv', hbeside⟩ :=
    freeOne_spec hinv hx hi hlive ((inFirst_iff hinv.stored hx hi).mp hfirst) hs
  refine ⟨⟨l', chain', hinv'⟩, fun n d hd => ?_, fun f hf => ?_⟩
  · rw [hbeside.sizes] at hd
    exact h.sized n d hd
  · rw [hbeside.pageSlab, hbeside.pageCache]
    exact h.clean f hf

/-- `kfree` comes to the cache that the object is from. -/
theorem kfree_eq (h : Good M s₀ s g) (ho : g.live o = some x) (hx : g.slabs x = some c) (hfirst : InFirst s c x o) :
    s.getPageSlab o = some x ∧ s.getPageCache o = some c ∧ s.kfree (some o) = s.freeOne c o := by
  obtain ⟨l, chain, hinv⟩ := h.inv
  obtain ⟨d, i, hd, hi, -, rfl⟩ := (hinv.stored.live o x).mp ho
  obtain rfl := Option.some.inj (hx.symm.trans hd)
  have hframe := (inFirst_iff hinv.stored hx hi).mp hfirst
  obtain ⟨hslab, hcache⟩ := hinv.stored.tagged x c hx
  rw [← hframe, ← mapNr_eq] at hslab hcache
  have htag : s.getPageCache (objAddr (s.caches c) x i) = some c := hcache
  refine ⟨hslab, hcache, ?_⟩
  rw [System.kfree, htag]

theorem pages_keep {b : Buddy} (h : Good M s₀ s g) (hb : Frames M b)
    (hkept : ∀ x c f, g.slabs x = some c → InPages s c x f → b.ref f = s.buddy.ref f) :
    Good M s₀ { s with buddy := b } g := by
  obtain ⟨l, chain, hinv⟩ := h.inv
  refine ⟨⟨l, chain, ⟨⟨hb, hinv.stored.sound, hinv.stored.owner, hinv.stored.place, fun x c hx f hf => ?_,
    hinv.stored.apart, hinv.stored.tagged, hinv.stored.filled, hinv.stored.live⟩, ⟨hinv.listed.family, hinv.listed.mem⟩,
    hinv.inClass⟩⟩, h.sized, h.clean⟩
  obtain ⟨hM, hpos⟩ := hinv.stored.used x c hx f hf
  refine ⟨hM, ?_⟩
  change 0 < b.ref f
  rw [hkept x c f hx hf]
  exact hpos

theorem step_keeps {t t' : System × Ledger} (h : Good M s₀ t.1 t.2) (hstep : Step M t t') : Good M s₀ t'.1 t'.2 := by
  cases hstep with
  | create hnew hr hs =>
    obtain ⟨l, chain, hinv⟩ := h.inv
    refine ⟨⟨l, chain, setUp_inv hinv hnew (create_sound hr hs)⟩, fun n d hd => ?_, h.clean⟩
    obtain ⟨q, hq, hsize⟩ := h.sized n d hd
    refine ⟨q, (Function.update_of_ne ?_ _ _).trans hq, hsize⟩
    rintro rfl
    rw [hnew] at hq
    cases hq
  | size hr =>
    obtain ⟨l, chain, hinv⟩ := h.inv
    refine ⟨⟨l, chain, ⟨⟨hinv.stored.frames, hinv.stored.sound, hinv.stored.owner, hinv.stored.place,
      hinv.stored.used, hinv.stored.apart, hinv.stored.tagged, hinv.stored.filled, hinv.stored.live⟩,
      ⟨hinv.listed.family, hinv.listed.mem⟩, hinv.inClass⟩⟩, fun n d hd => ?_, h.clean⟩
    rcases List.mem_append.mp hd with hd | hd
    · exact h.sized n d hd
    · obtain ⟨rfl, rfl⟩ := Prod.mk.inj (List.mem_singleton.mp hd)
      exact ⟨_, hr, rfl⟩
  | alloc hr hs => exact alloc_keeps h hr hs
  | kmalloc hc hs =>
    obtain ⟨e, he, rfl⟩ := Option.map_eq_some_iff.mp hc
    obtain ⟨r, hr, -⟩ := h.sized e.1 e.2 (List.mem_of_find?_eq_some he)
    exact alloc_keeps h hr hs
  | free ho hx hfirst hs => exact free_keeps h ho hx hfirst hs
  | kfree ho hx hfirst hs =>
    rw [(kfree_eq h ho hx hfirst).2.2] at hs
    exact free_keeps h ho hx hfirst hs
  | pages hb hkept => exact pages_keep h hb hkept

theorem start_good (h : Start M s₀) : Good M s₀ s₀ noCaches := by
  have hnone : ∀ (x : ℕ) {c : ℕ} {P : Prop}, noCaches.slabs x = some c → P := fun _ _ _ h => by cases h
  refine ⟨⟨fun _ => [], fun _ => [], ⟨⟨h.frames, ?_, fun x c => hnone x, fun x c => hnone x, fun x c => hnone x,
    fun x y c d => hnone x, fun x c => hnone x, fun x c => hnone x, fun o x => ?_⟩, ⟨⟨fun k => ?_, ?_⟩, fun x c => ?_⟩,
    ?_⟩⟩, ?_, fun f _ => ⟨rfl, rfl⟩⟩
  · intro c r hc
    cases hc
  · constructor
    · intro ho
      cases ho
    · rintro ⟨c, i, hx, -⟩
      exact hnone x hx
  · rw [h.heads]
    exact holds_empty s₀.nodes
  · intro k k' _ x hx
    cases hx
  · constructor
    · exact fun hx => hnone x hx
    · rintro ⟨k, hx⟩
      cases hx
  · intro x c k hx
    cases hx
  · intro n c hc
    rw [h.sizes] at hc
    cases hc

theorem run_good {t : System × Ledger} (h : Run M s₀ t) : Good M s₀ t.1 t.2 := by
  induction h with
  | start h => exact start_good h
  | step _ hstep ih => exact step_keeps ih hstep

end Steps

/-! ## Slabs of a cache -/

/-- What `alloc` hands out: the object lies in its slab, behind the free table, and apart
from what is in use. -/
structure Handed (s : System) (g : Ledger) (c x o : ℕ) : Prop where
  fresh : g.live o = none
  inside : x+slabSize+(s.caches c).numPerSlab*4 ≤ o ∧ o+(s.caches c).objsize ≤ x+pageSize*2 ^ (s.caches c).gfpOrder
  objects : ∀ p y d, g.live p = some y → g.slabs y = some d →
    o+(s.caches c).objsize ≤ p ∨ p+(s.caches d).objsize ≤ o
  headers : ∀ y d, (g.grown c x).slabs y = some d →
    o+(s.caches c).objsize ≤ y ∨ y+slabSize+(s.caches d).numPerSlab*4 ≤ o

/-- Each slab is on the one list that its count says, and its chain has the objects that
are not in use. -/
structure Kept (s : System) (g : Ledger) (c : ℕ) (l : SlabList → List ℕ) (chain : ℕ → List ℕ) : Prop where
  holds : ∀ k, Holds s.nodes (s.heads (c, k)) (l k)
  slabs : ∀ k, ∀ x ∈ l k, g.slabs x = some c
  once : ∀ x, g.slabs x = some c → ∃! k, x ∈ l k
  inClass : ∀ x, g.slabs x = some c → ∀ k, x ∈ l k ↔ InClass (s.caches c) (s.slabs x) k
  follows : ∀ x, g.slabs x = some c → Follows (s.slabs x).freeTable endMark (s.slabs x).firstFree (chain x)
  nodup : ∀ x, g.slabs x = some c → (chain x).Nodup
  length : ∀ x, g.slabs x = some c → (chain x).length = (s.caches c).numPerSlab-(s.slabs x).inUse
  free : ∀ x, g.slabs x = some c → ∀ i, i ∈ chain x ↔
    i < (s.caches c).numPerSlab ∧ g.live (objAddr (s.caches c) x i) ≠ some x

section Slabs

variable {M : Set ℕ} {s₀ s s' : System} {g : Ledger} {l : ℕ × SlabList → List ℕ} {chain : ℕ → List ℕ}
  {c d x y o p i : ℕ} {r : Request} {ca : Cache} {slab : Slab} {k j : SlabList}

theorem inClass_unique (hnum : 0 < ca.numPerSlab) (h : InClass ca slab k) (h' : InClass ca slab j) : k = j := by
  cases k <;> cases j <;> simp only [InClass] at h h' <;> first | rfl | omega

theorem Stored.live_iff (h : Stored M s g chain) (hx : g.slabs x = some c) (hi : i < (s.caches c).numPerSlab) :
    g.live (objAddr (s.caches c) x i) = some x ↔ i ∉ chain x := by
  rw [h.live]
  constructor
  · rintro ⟨d, j, hd, hj, hnot, heq⟩
    obtain ⟨-, rfl⟩ := h.unique hx hd hi hj heq
    exact hnot
  · intro hnot
    exact ⟨c, i, hx, hi, hnot, rfl⟩

theorem inv_kept (h : Inv M s g l chain) (hr : g.request c = some r) :
    Kept s g c (fun k => l (c, k)) chain := by
  have hnum := (h.stored.sound c r hr).num
  have hlist : ∀ x, g.slabs x = some c → ∃ k, x ∈ l (c, k) := fun x hx => (h.listed.mem x c).mp hx
  constructor
  · exact fun k => h.listed.family.holds (c, k)
  · exact fun k x hx => h.slab hx
  · intro x hx
    obtain ⟨k, hk⟩ := hlist x hx
    exact ⟨k, hk, fun j hj => inClass_unique hnum (h.inClass x c j hj) (h.inClass x c k hk)⟩
  · intro x hx j
    refine ⟨h.inClass x c j, fun hj => ?_⟩
    obtain ⟨k, hk⟩ := hlist x hx
    rw [inClass_unique hnum hj (h.inClass x c k hk)]
    exact hk
  · exact fun x hx => (h.stored.filled x c hx).chain
  · exact fun x hx => (h.stored.filled x c hx).nodup
  · intro x hx
    have := (h.stored.filled x c hx).inUse
    omega
  · intro x hx i
    constructor
    · intro hi
      have hlt := (h.stored.filled x c hx).lt i hi
      exact ⟨hlt, fun hlive => (Stored.live_iff h.stored hx hlt).mp hlive hi⟩
    · rintro ⟨hlt, hlive⟩
      by_contra hnot
      exact hlive ((Stored.live_iff h.stored hx hlt).mpr hnot)

/-- An object of the chain is apart from all objects in use and from every header. -/
theorem free_apart (h : Stored M s g chain) (hx : g.slabs x = some c) (hi : i ∈ chain x) :
    g.live (objAddr (s.caches c) x i) = none ∧
      (∀ p y d, g.live p = some y → g.slabs y = some d →
        objAddr (s.caches c) x i+(s.caches c).objsize ≤ p ∨ p+(s.caches d).objsize ≤ objAddr (s.caches c) x i) ∧
      ∀ y d, g.slabs y = some d → objAddr (s.caches c) x i+(s.caches c).objsize ≤ y ∨
        y+slabSize+(s.caches d).numPerSlab*4 ≤ objAddr (s.caches c) x i := by
  have hlt := (h.filled x c hx).lt i hi
  obtain ⟨r, hr⟩ := h.owner x c hx
  obtain ⟨hlow, hhigh⟩ := (h.sound c r hr).inside (x := x) hlt
  refine ⟨?_, fun p y d hp hy => ?_, fun y d hy => ?_⟩
  · cases hlive : g.live (objAddr (s.caches c) x i) with
    | none => rfl
    | some y =>
      obtain ⟨d, j, hd, hj, hnot, heq⟩ := (h.live _ y).mp hlive
      obtain ⟨rfl, rfl⟩ := h.unique hx hd hlt hj heq
      exact absurd hi hnot
  · obtain ⟨e, j, he, hj, hnot, rfl⟩ := (h.live p y).mp hp
    obtain rfl := Option.some.inj (hy.symm.trans he)
    by_cases hxy : x = y
    · subst hxy
      obtain rfl := Option.some.inj (hx.symm.trans hy)
      rcases Nat.lt_trichotomy i j with hij | rfl | hij
      · exact Or.inl (objAddr_apart hij)
      · exact absurd hi hnot
      · exact Or.inr (objAddr_apart hij)
    · obtain ⟨q, hq⟩ := h.owner y d hy
      obtain ⟨hlow', hhigh'⟩ := (h.sound d q hq).inside (x := y) hj
      rcases blocks_apart h hx hy hxy with hle | hle <;> omega
  · by_cases hxy : x = y
    · subst hxy
      obtain rfl := Option.some.inj (hx.symm.trans hy)
      exact Or.inr hlow
    · obtain ⟨q, hq⟩ := h.owner y d hy
      obtain ⟨hlow', hhigh'⟩ := (h.sound d q hq).inside (x := y) (h.sound d q hq).num
      rcases blocks_apart h hx hy hxy with hle | hle <;> omega

/-- Every object in use is found by the tags exactly if it starts in the first page of its
slab, or the record of its page happened to name the slab and the cache from the start. -/
theorem kfree_finds (h : Run M s₀ (s, g)) (ho : g.live o = some x) (hx : g.slabs x = some c) :
    (s.getPageSlab o = some x ∧ s.getPageCache o = some c ∧ s.kfree (some o) = s.freeOne c o ∧
        ∀ y, s.getPageSlab o = some y → s.freeIndex c y o < (s.caches c).numPerSlab) ↔
      InFirst s c x o ∨ s₀.getPageSlab o = some x ∧ s₀.getPageCache o = some c := by
  have hgood := run_good h
  obtain ⟨l, chain, hinv⟩ := hgood.inv
  obtain ⟨d, i, hd, hi, -, rfl⟩ := (hinv.stored.live o x).mp ho
  obtain rfl := Option.some.inj (hx.symm.trans hd)
  obtain ⟨r, hr⟩ := hinv.stored.owner x c hx
  have hsound := hinv.stored.sound c r hr
  have hindex : s.freeIndex c x (objAddr (s.caches c) x i) = i :=
    freeIndex_eq hsound.pos (hi.trans (hsound.num_le.trans (by decide))) (hinv.stored.filled x c hx).mem rfl
  by_cases hfirst : InFirst s c x (objAddr (s.caches c) x i)
  · obtain ⟨hslab, hcache, hfree⟩ := kfree_eq hgood ho hx hfirst
    refine iff_of_true ⟨hslab, hcache, hfree, fun y hy => ?_⟩ (Or.inl hfirst)
    obtain rfl := Option.some.inj (hslab.symm.trans hy)
    rw [hindex]
    exact hi
  · -- no slab starts in this page
    have hpage : frameOf (objAddr (s.caches c) x i) ≠ frameOf x :=
      fun heq => hfirst ((inFirst_iff hinv.stored hx hi).mpr heq)
    have hin := hinv.stored.object_page hx hi
    obtain ⟨hslab, hcache⟩ := hgood.clean (frameOf (objAddr (s.caches c) x i)) (fun y d hy heq => by
      have hother : InPages s d y (frameOf (objAddr (s.caches c) x i)) := heq ▸ first_page s d y
      obtain rfl := hinv.stored.apart x y c d hx hy _ hin hother
      exact hpage heq.symm)
    rw [← mapNr_eq] at hslab hcache
    have htag : s.getPageSlab (objAddr (s.caches c) x i) = s₀.getPageSlab (objAddr (s.caches c) x i) := hslab
    have htag' : s.getPageCache (objAddr (s.caches c) x i) = s₀.getPageCache (objAddr (s.caches c) x i) := hcache
    rw [htag, htag', or_iff_right hfirst]
    constructor
    · exact fun hall => ⟨hall.1, hall.2.1⟩
    · rintro ⟨hold, hold'⟩
      refine ⟨hold, hold', ?_, fun y hy => ?_⟩
      · rw [System.kfree, htag', hold']
      · obtain rfl := Option.some.inj (hold.symm.trans hy)
        rw [hindex]
        exact hi

end Slabs

/-! ## Objects of one size -/

/-- Nothing is tagged. -/
def boot : System where
  buddy := CopyOnWrite.origin.phys.buddy
  pageSlab := fun _ => none
  pageCache := fun _ => none
  nodes := ⟨fun _ => none, fun _ => none⟩
  heads := fun _ => empty
  slabs := fun _ => ⟨0, 0, 0, 0, fun _ => 0⟩
  caches := fun _ => ⟨0, 0, 0⟩
  sizes := []

/-- One cache, for objects of that size. -/
def oneCache (r : Request) (ca : Cache) : System × Ledger :=
  ({ setUp boot 0 ca with sizes := [(r.size, 0)] },
    { noCaches with request := Function.update noCaches.request 0 (some r) })

/-- `n` objects are taken with `kmalloc`, one after the other. -/
def takes (size : ℕ) (t : System × Ledger) : ℕ → Option (System × Ledger)
  | 0 => some t
  | n+1 => match takes size t n with
    | none => none
    | some t => match t.1.sizeCache size with
      | none => none
      | some c => match t.1.findSlab c with
        | none => none
        | some (x, s₁) =>
          some ((System.slabAlloc c x s₁).2, (t.2.grown c x).setLive (System.slabAlloc c x s₁).1 (some x))

section Taking

variable {M : Set ℕ} {s₀ : System} {t t' : System × Ledger} {r : Request} {ca : Cache} {size n : ℕ}

theorem oneCache_run (hr : Proper r) (hs : create r = some ca) :
    Run {f | BuddyBoot.Managed BuddyRun.small f} boot (oneCache r ca) := by
  have hstart : Run {f | BuddyBoot.Managed BuddyRun.small f} boot (boot, noCaches) :=
    .start ⟨CopyOnWrite.origin_frames.1, rfl, rfl⟩
  have hcreated := hstart.step (Step.create (c := 0) rfl hr hs)
  have hrequest : Function.update noCaches.request 0 (some r) 0 = some r := Function.update_self ..
  exact hcreated.step (.size hrequest)

theorem takes_run (h : Run M s₀ t) (ht : takes size t n = some t') : Run M s₀ t' := by
  induction n generalizing t' with
  | zero =>
    cases ht
    exact h
  | succ n ih =>
    rw [takes] at ht
    split at ht
    next => cases ht
    next t₁ hbefore =>
      split at ht
      next => cases ht
      next c hc =>
        split at ht
        next => cases ht
        next x s₁ hfind =>
          cases ht
          exact (ih hbefore).step (.kmalloc hc hfind)

end Taking

/-- An object of 32 bytes is in use, in a slab of one page. -/
theorem small_run : ∃ s g r, Run {f | BuddyBoot.Managed BuddyRun.small f} boot (s, g) ∧ g.request 0 = some r ∧
    (s.caches 0).gfpOrder = 0 ∧ g.live (frameAddr 2046+448) = some (frameAddr 2046) ∧
    g.slabs (frameAddr 2046) = some 0 := by
  have hcreate : create ⟨32, 8, 1⟩ = some ⟨40, 91, 0⟩ := by decide +kernel
  have htaken : (takes 32 (oneCache ⟨32, 8, 1⟩ ⟨40, 91, 0⟩) 1).map (fun t => ((t.1.caches 0).gfpOrder,
      t.2.live (frameAddr 2046+448), t.2.slabs (frameAddr 2046), (t.2.request 0).isSome)) =
      some (0, some (frameAddr 2046), some 0, true) := by decide +kernel
  obtain ⟨⟨s, g⟩, htakes, hfacts⟩ := Option.map_eq_some_iff.mp htaken
  obtain ⟨horder, hlive, hslab, hsome⟩ : (s.caches 0).gfpOrder = 0 ∧
      g.live (frameAddr 2046+448) = some (frameAddr 2046) ∧ g.slabs (frameAddr 2046) = some 0 ∧
      (g.request 0).isSome = true := by simpa using hfacts
  obtain ⟨r, hr⟩ := Option.isSome_iff_exists.mp hsome
  exact ⟨s, g, r, takes_run (oneCache_run ⟨⟨3, by decide, rfl⟩, by decide⟩ hcreate) htakes, hr, horder, hlive, hslab⟩

theorem kfree_small : ∃ (s : System) (g : Ledger), g.live (frameAddr 2046+448) = some (frameAddr 2046) ∧
    s.kfree (some (frameAddr 2046+448)) = s.freeOne 0 (frameAddr 2046+448) := by
  obtain ⟨s, g, r, hrun, -, horder, hlive, hslab⟩ := small_run
  exact ⟨s, g, hlive, ((kfree_finds hrun hlive hslab).mpr (Or.inl (Or.inl horder))).2.2.1⟩

/-- The fifth object of 1024 bytes starts in the second page of its slab. -/
theorem fifth_untagged : ∃ s g, Run {f | BuddyBoot.Managed BuddyRun.small f} boot (s, g) ∧
    ∃ o x, g.live o = some x ∧ g.slabs x = some 0 ∧ s.getPageSlab o = none ∧ s.getPageCache o = none ∧
      s.kfree (some o) = none := by
  have hcreate : create ⟨1024, 8, 1⟩ = some ⟨1032, 7, 1⟩ := by decide +kernel
  have htaken : (takes 1024 (oneCache ⟨1024, 8, 1⟩ ⟨1032, 7, 1⟩) 5).map (fun t => (t.2.live (frameAddr 2044+4256),
      t.2.slabs (frameAddr 2044), t.1.getPageSlab (frameAddr 2044+4256), t.1.getPageCache (frameAddr 2044+4256))) =
      some (some (frameAddr 2044), some 0, none, none) := by decide +kernel
  obtain ⟨⟨s, g⟩, htakes, hfacts⟩ := Option.map_eq_some_iff.mp htaken
  obtain ⟨hlive, hslab, hnone, hnone'⟩ : g.live (frameAddr 2044+4256) = some (frameAddr 2044) ∧
      g.slabs (frameAddr 2044) = some 0 ∧ s.getPageSlab (frameAddr 2044+4256) = none ∧
      s.getPageCache (frameAddr 2044+4256) = none := by simpa using hfacts
  refine ⟨s, g, takes_run (oneCache_run ⟨⟨3, by decide, rfl⟩, by decide⟩ hcreate) htakes, _, _, hlive, hslab, hnone,
    hnone', ?_⟩
  rw [System.kfree, hnone']

end BabyOS.SlabRun

import BabyOS.TableWords

/-!
# The page tables of the boot memory

`bootmem_t` takes pages from the end of the kernel image on and builds the tables of the
kernel in them. It reaches a table through the window of the loader's tables, which end
at 2 GiB.
-/

set_option autoImplicit false

namespace BabyOS.BootTables
open BabyOS.BuddyMachine BabyOS.BuddyArithmetic BabyOS.FrameCounts BabyOS.StoredTables BabyOS.TableWords

/-- `m_start_pa`, and the words of every frame. -/
structure Bootmem where
  startPa : ℕ
  words : Words Word

def Bootmem.setWord (s : Bootmem) (t i : ℕ) (w : Word) : Bootmem :=
  { s with words := Function.update s.words t (Function.update (s.words t) i w) }

/-- The frame behind `early_pa2va` of a frame. The last 2 GiB of the address space lead to the
first ones of the memory; behind them the address wraps, to the 4 GiB that are mapped from 0 on. -/
def earlyFrame (f : ℕ) : Option ℕ :=
  if f < 2^19 then some f else if f < 2^19+2^20 then some (f-2^19) else none

def memAlloc (size : ℕ) (align : Bool) (s : Bootmem) : ℕ × Bootmem :=
  let p := if align then (s.startPa+(pageSize-1)) &&& pageMask 0 else s.startPa
  (p, { s with startPa := p+size })

/-- The table below entry `i`, a new one if there is none; `none` is a page fault. -/
def getTable (t i : ℕ) (s : Bootmem) : Option (ℕ × Bootmem) :=
  match earlyFrame t with
  | none => none
  | some t =>
    if present (s.words t i) then some (tableOf (s.words t i), s)
    else
      let r := memAlloc pageSize true s
      match earlyFrame (mapNr r.1) with
      | none => none
      | some f =>
        some (mapNr r.1, Bootmem.setWord { r.2 with words := Function.update r.2.words f fun _ => 0 } t i
          (BitVec.ofNat 64 r.1 ||| pteP ||| pteW ||| pteU))

/-- The inner loop of `map_pages` from entry `i` on, of which `count` are left. -/
def fillTable (t e : ℕ) (perm : Word) : ℕ → ℕ → ℕ → ℕ → Bootmem → ℕ × ℕ × Bootmem
  | 0, _, v, pa, s => (v, pa, s)
  | count+1, i, v, pa, s =>
    if e ≤ v then (v, pa, s)
    else fillTable t e perm count (i+1) (v+pageSize) (pa+pageSize)
      (s.setWord t i (BitVec.ofNat 64 pa ||| pteP ||| perm))

/-- The outer loop, at most so many rounds. -/
def mapFrom (root e : ℕ) (perm : Word) : ℕ → ℕ → ℕ → Bootmem → Option Bootmem
  | 0, v, _, s => if v < e then none else some s
  | rounds+1, v, pa, s =>
    if v < e then
      match getTable root (pml4eIndex v) s with
      | none => none
      | some (pdpTable, s) => match getTable pdpTable (pdpeIndex v) s with
        | none => none
        | some (pdTable, s) => match getTable pdTable (pdeIndex v) s with
          | none => none
          | some (pageTable, s) => match earlyFrame pageTable with
            | none => none
            | some t =>
              let r := fillTable t e perm (512-pteIndex v) (pteIndex v) v pa s
              mapFrom root e perm rounds r.1 r.2.1 r.2.2
    else some s

/-- A call of `map_pages`. No address of a call wraps. -/
structure Call where
  va : ℕ
  pa : ℕ
  length : ℕ
  perm : Word

def mapPages (root : ℕ) (c : Call) (s : Bootmem) : Option Bootmem :=
  mapFrom root (c.va+c.length &&& addrMask.toNat) c.perm c.length
    (c.va &&& addrMask.toNat) (c.pa &&& addrMask.toNat) s

def mapAll (root : ℕ) : List Call → Bootmem → Option Bootmem
  | [], s => some s
  | c :: cs, s => match mapPages root c s with
    | none => none
    | some s => mapAll root cs s

/-! ## What the tables say -/

/-- The walk of the processor, to a frame. -/
def walk (words : Words Word) (root va : ℕ) : Option ℕ :=
  let pml4e := words root (pml4eIndex va)
  if present pml4e then
    let pdpe := words (tableOf pml4e) (pdpeIndex va)
    if present pdpe then
      let pde := words (tableOf pdpe) (pdeIndex va)
      if present pde then
        let pte := words (tableOf pde) (pteIndex va)
        if present pte then some (tableOf pte) else none
      else none
    else none
  else none

/-- The numbers of the pages of the addresses that have their 16 highest bits set. -/
def top : ℕ := 2^16-1

/-- A table is given by its level and the number of its entries' addresses; these are the
tables on the way to a page. -/
def keys (n : ℕ) : Finset (ℕ × ℕ) := {(3, n/512^3), (2, n/512^2), (1, n/512)}

/-- The tables have frames of their own, from `first` on, and lead to the leaves. -/
structure Grown (first root : ℕ) (tables : Finset (ℕ × ℕ)) (tab : ℕ × ℕ → ℕ) (leaf : ℕ → Option Word)
    (s : Bootmem) : Prop where
  next : s.startPa = 4096*(first+tables.card)
  root : (4, top) ∈ tables ∧ tab (4, top) = root
  lt : ∀ x ∈ tables, tab x < first+tables.card
  level : ∀ k p, (k, p) ∈ tables → k ≤ 4
  closed : ∀ k p, (k, p) ∈ tables → k ≠ 4 → (k+1, p/512) ∈ tables
  inj : ∀ x ∈ tables, ∀ y ∈ tables, tab x = tab y → x = y
  inner : ∀ k p, (k+2, p) ∈ tables → ∀ i < 512,
    ((k+1, p*512+i) ∈ tables → present (s.words (tab (k+2, p)) i) = true ∧
      tableOf (s.words (tab (k+2, p)) i) = tab (k+1, p*512+i)) ∧
    ((k+1, p*512+i) ∉ tables → present (s.words (tab (k+2, p)) i) = false)
  leaves : ∀ n w, leaf n = some w → (1, n/512) ∈ tables ∧ s.words (tab (1, n/512)) (n%512) = w

section Growth

variable {first root p k i n : ℕ} {tables : Finset (ℕ × ℕ)} {tab : ℕ × ℕ → ℕ} {leaf : ℕ → Option Word}
  {s : Bootmem}

theorem earlyFrame_low {f : ℕ} (h : f < 2^19) : earlyFrame f = some f := if_pos h

theorem memAlloc_aligned {f : ℕ} (h : s.startPa = 4096*f) (hf : f < 2^19) :
    memAlloc pageSize true s = (4096*f, { s with startPa := 4096*(f+1) }) := by
  have hp : (s.startPa+(pageSize-1)) &&& pageMask 0 = 4096*f := by
    rw [h, ← addrMask_eq, land_addrMask (by rw [pageSize]; omega), pageSize]
    omega
  rw [memAlloc, if_pos rfl, hp, pageSize, Nat.mul_add_one]

/-- A blank table is linked below one that is there. -/
theorem grown_link {w : Word} (h : Grown first root tables tab leaf s) (hx : (k+2, p) ∈ tables) (hi : i < 512)
    (hmem : (k+1, p*512+i) ∉ tables) (hpresent : present w = true) (htable : tableOf w = first+tables.card) :
    Grown first root (insert (k+1, p*512+i) tables)
      (Function.update tab (k+1, p*512+i) (first+tables.card)) leaf
      (Bootmem.setWord ⟨4096*(first+tables.card+1), Function.update s.words (first+tables.card) fun _ => 0⟩
        (tab (k+2, p)) i w) := by
  have hcount := Finset.card_insert_of_notMem hmem
  have hne : ∀ x ∈ tables, x ≠ (k+1, p*512+i) := by
    rintro x hmem' rfl
    exact hmem hmem'
  have hold : ∀ x ∈ tables, Function.update tab (k+1, p*512+i) (first+tables.card) x = tab x :=
    fun x hxt => Function.update_of_ne (hne x hxt) ..
  have hnew : ∀ x ∈ tables, tab x ≠ first+tables.card := fun x hxt => Nat.ne_of_lt (h.lt x hxt)
  have hblank : ∀ j, (Bootmem.setWord ⟨4096*(first+tables.card+1),
      Function.update s.words (first+tables.card) fun _ => 0⟩ (tab (k+2, p)) i w).words (first+tables.card) j = 0 := by
    intro j
    change Function.update (Function.update s.words _ _) _ _ _ j = 0
    rw [Function.update_of_ne (hnew _ hx).symm, Function.update_self]
  have hother : ∀ x ∈ tables, x ≠ (k+2, p) → (Bootmem.setWord ⟨4096*(first+tables.card+1),
      Function.update s.words (first+tables.card) fun _ => 0⟩ (tab (k+2, p)) i w).words (tab x) =
      s.words (tab x) := by
    intro x hxt hxne
    change Function.update (Function.update s.words _ _) _ _ _ = _
    rw [Function.update_of_ne (fun hc => hxne (h.inj x hxt _ hx hc)), Function.update_of_ne (hnew x hxt)]
  have hself : (Bootmem.setWord ⟨4096*(first+tables.card+1),
      Function.update s.words (first+tables.card) fun _ => 0⟩ (tab (k+2, p)) i w).words (tab (k+2, p)) =
      Function.update (s.words (tab (k+2, p))) i w := by
    simp only [Bootmem.setWord, Function.update_self, Function.update_of_ne (hnew _ hx)]
  have hlevel := h.level _ _ hx
  refine ⟨?_, ⟨Finset.mem_insert_of_mem h.root.1, ?_⟩, fun x hxt => ?_, fun l q hq => ?_,
    fun l q hq hl => ?_,
    fun x hxt y hyt hxy => ?_, fun l q hq j hj => ?_, fun n w' hw => ?_⟩
  · change 4096*(first+tables.card+1) = _
    rw [hcount, Nat.add_assoc]
  · rw [hold _ h.root.1, h.root.2]
  · rw [hcount]
    rcases Finset.mem_insert.mp hxt with rfl | hxt
    · rw [Function.update_self]
      omega
    · rw [hold x hxt]
      have := h.lt x hxt
      omega
  · rcases Finset.mem_insert.mp hq with hq | hq
    · have := (Prod.mk.inj hq).1
      omega
    · exact h.level l q hq
  · rcases Finset.mem_insert.mp hq with hq | hq
    · obtain ⟨rfl, rfl⟩ := Prod.mk.inj hq
      have hup : (p*512+i)/512 = p := by omega
      rw [hup]
      exact Finset.mem_insert_of_mem hx
    · exact Finset.mem_insert_of_mem (h.closed l q hq hl)
  · rcases Finset.mem_insert.mp hxt with rfl | hxt <;> rcases Finset.mem_insert.mp hyt with rfl | hyt
    · rfl
    · rw [Function.update_self, hold y hyt] at hxy
      exact absurd hxy.symm (hnew y hyt)
    · rw [Function.update_self, hold x hxt] at hxy
      exact absurd hxy (hnew x hxt)
    · rw [hold x hxt, hold y hyt] at hxy
      exact h.inj x hxt y hyt hxy
  · rcases Finset.mem_insert.mp hq with hq | hq
    · -- the new table has no entries, and nothing is below it
      have hfree : (l+1, q*512+j) ∉ insert (k+1, p*512+i) tables := by
        intro hc
        rcases Finset.mem_insert.mp hc with hc | hc
        · have := (Prod.mk.inj hc).1
          have := (Prod.mk.inj hq).1
          omega
        · have hbelow : l+1 ≠ 4 := by
            have := (Prod.mk.inj hq).1
            omega
          have hup := h.closed _ _ hc hbelow
          have hdiv : (q*512+j)/512 = q := by omega
          rw [hdiv, hq] at hup
          exact hmem hup
      rw [hq, Function.update_self]
      refine ⟨fun hc => absurd hc hfree, fun _ => ?_⟩
      rw [hblank]
      decide
    · rw [hold _ hq]
      have hchild : (l+1, q*512+j) = (k+1, p*512+i) → l = k ∧ q = p ∧ j = i := by
        intro hc
        obtain ⟨hl, hq⟩ := Prod.mk.inj hc
        omega
      by_cases hkey : (l+1, q*512+j) = (k+1, p*512+i)
      · obtain ⟨rfl, rfl, rfl⟩ := hchild hkey
        rw [hself, Function.update_self, Function.update_self]
        exact ⟨fun _ => ⟨hpresent, htable⟩, fun hc => absurd (Finset.mem_insert_self ..) hc⟩
      · have hword : (Bootmem.setWord ⟨4096*(first+tables.card+1),
            Function.update s.words (first+tables.card) fun _ => 0⟩ (tab (k+2, p)) i w).words (tab (l+2, q)) j =
            s.words (tab (l+2, q)) j := by
          by_cases hsame : (l+2, q) = (k+2, p)
          · obtain ⟨hl, rfl⟩ := Prod.mk.inj hsame
            obtain rfl : l = k := by omega
            have hji : j ≠ i := by
              rintro rfl
              exact hkey rfl
            rw [hself, Function.update_of_ne hji]
          · rw [hother _ hq hsame]
        obtain ⟨hin, hout⟩ := h.inner l q hq j hj
        rw [hword, Function.update_of_ne hkey, Finset.mem_insert, or_iff_right hkey]
        exact ⟨hin, hout⟩
  · obtain ⟨hmem', hword⟩ := h.leaves n w' hw
    refine ⟨Finset.mem_insert_of_mem hmem', ?_⟩
    rw [hold _ hmem', hother _ hmem' (fun hc => by have := (Prod.mk.inj hc).1; omega)]
    exact hword

/-- A table is found, or a new one is linked. -/
theorem getTable_spec (h : Grown first root tables tab leaf s) (hx : (k+2, p) ∈ tables) (hi : i < 512)
    (hfit : first+(insert (k+1, p*512+i) tables).card ≤ 2^19) :
    ∃ tab' s', getTable (tab (k+2, p)) i s = some (tab' (k+1, p*512+i), s') ∧
      Grown first root (insert (k+1, p*512+i) tables) tab' leaf s' := by
  have hcard := Finset.card_le_card (Finset.subset_insert (k+1, p*512+i) tables)
  have hlow : tab (k+2, p) < 2^19 := by
    have := h.lt _ hx
    omega
  rw [getTable, earlyFrame_low hlow]
  dsimp only
  obtain ⟨hin, hout⟩ := h.inner k p hx i hi
  by_cases hmem : (k+1, p*512+i) ∈ tables
  · obtain ⟨hpresent, htable⟩ := hin hmem
    rw [if_pos hpresent, htable, Finset.insert_eq_of_mem hmem]
    exact ⟨tab, s, rfl, h⟩
  · have hcount := Finset.card_insert_of_notMem hmem
    have hfirst : first+tables.card < 2^19 := by omega
    rw [if_neg (by rw [hout hmem]; exact Bool.false_ne_true), memAlloc_aligned h.next hfirst]
    dsimp only
    have hnr : mapNr (4096*(first+tables.card)) = first+tables.card := by
      rw [mapNr_eq, frameOf, pageSize]
      omega
    rw [hnr, earlyFrame_low hfirst]
    dsimp only
    have hpresent : present (BitVec.ofNat 64 (4096*(first+tables.card)) ||| pteP ||| pteW ||| pteU) = true := by
      rw [BitVec.or_assoc (_ ||| pteP)]
      exact or_present _ _
    have htable : tableOf (BitVec.ofNat 64 (4096*(first+tables.card)) ||| pteP ||| pteW ||| pteU) =
        first+tables.card := by
      have haddr : 4096*(first+tables.card) = frameAddr (first+tables.card) := by
        rw [frameAddr, pageSize, Nat.mul_comm]
      rw [haddr, BitVec.or_assoc, BitVec.or_assoc]
      exact tableOf_frameAddr (by omega) (by decide)
    refine ⟨_, _, ?_, grown_link h hx hi hmem hpresent htable⟩
    rw [Function.update_self]

/-- The same for a level, and the number of the table that is looked for. -/
theorem getTable_level {l q : ℕ} (h : Grown first root tables tab leaf s) (hx : (l+1, p) ∈ tables) (hl : 0 < l)
    (hi : i < 512) (hq : p*512+i = q) (hfit : first+(insert (l, q) tables).card ≤ 2^19) :
    ∃ tab' s', getTable (tab (l+1, p)) i s = some (tab' (l, q), s') ∧
      Grown first root (insert (l, q) tables) tab' leaf s' := by
  obtain ⟨k, rfl⟩ : ∃ k, l = k+1 := ⟨l-1, by omega⟩
  rw [← hq] at hfit ⊢
  exact getTable_spec h hx hi hfit

/-- A leaf is stored. -/
theorem grown_leaf {w : Word} (h : Grown first root tables tab leaf s) (hx : (1, p) ∈ tables) (hi : i < 512) :
    Grown first root tables tab (Function.update leaf (p*512+i) (some w)) (s.setWord (tab (1, p)) i w) := by
  have hother : ∀ x ∈ tables, x ≠ (1, p) → (s.setWord (tab (1, p)) i w).words (tab x) = s.words (tab x) := by
    intro x hxt hxne
    exact Function.update_of_ne (fun hc => hxne (h.inj x hxt _ hx hc)) ..
  refine ⟨h.next, h.root, h.lt, h.level, h.closed, h.inj, fun l q hq j hj => ?_, fun n w' hw => ?_⟩
  · rw [hother _ hq (fun hc => by have := (Prod.mk.inj hc).1; omega)]
    exact h.inner l q hq j hj
  · by_cases hn : n = p*512+i
    · rw [hn, Function.update_self] at hw
      have hdiv : n/512 = p := by omega
      have hmod : n%512 = i := by omega
      rw [hdiv, hmod]
      refine ⟨hx, ?_⟩
      change Function.update s.words _ _ _ _ = w'
      rw [Function.update_self, Function.update_self]
      exact Option.some.inj hw
    · rw [Function.update_of_ne hn] at hw
      obtain ⟨hmem, hword⟩ := h.leaves n w' hw
      refine ⟨hmem, ?_⟩
      by_cases hsame : ((1 : ℕ), n/512) = (1, p)
      · have hdiv := (Prod.mk.inj hsame).2
        have hmod : n%512 ≠ i := by omega
        rw [hsame]
        change Function.update s.words _ _ _ _ = w'
        rw [Function.update_self, Function.update_of_ne hmod, ← hsame]
        exact hword
      · rw [hother _ hmem hsame]
        exact hword

/-- The word for the page `x`, when the pages from `n` on go to the addresses from `pa` on. -/
def leafWord (n pa : ℕ) (perm : Word) (x : ℕ) : Word := BitVec.ofNat 64 (pa+pageSize*(x-n)) ||| pteP ||| perm

/-- The leaves after `count` pages were mapped from `n` on. -/
def filled (n count pa : ℕ) (perm : Word) (leaf : ℕ → Option Word) (x : ℕ) : Option Word :=
  if n ≤ x ∧ x < n+count then some (leafWord n pa perm x) else leaf x

theorem filled_cons (n count pa : ℕ) (perm : Word) (leaf : ℕ → Option Word) :
    filled (n+1) count (pa+pageSize) perm (Function.update leaf n (some (leafWord n pa perm n))) =
      filled n (count+1) pa perm leaf := by
  funext x
  rw [filled, filled]
  by_cases hx : x = n
  · rw [hx, if_neg (by omega), if_pos (by omega), Function.update_self]
  · rw [Function.update_of_ne hx]
    by_cases hin : n ≤ x ∧ x < n+(count+1)
    · rw [if_pos hin, if_pos (by omega), leafWord, leafWord]
      have hpa : pa+pageSize+pageSize*(x-(n+1)) = pa+pageSize*(x-n) := by
        have hsplit : x-n = (x-(n+1))+1 := by omega
        rw [hsplit, Nat.mul_add_one]
        omega
      rw [hpa]
    · rw [if_neg hin, if_neg (by omega)]

theorem filled_append (n a b pa : ℕ) (perm : Word) (leaf : ℕ → Option Word) :
    filled (n+a) b (pa+pageSize*a) perm (filled n a pa perm leaf) = filled n (a+b) pa perm leaf := by
  induction a generalizing n pa leaf with
  | zero =>
    have hnone : filled n 0 pa perm leaf = leaf := by
      funext x
      rw [filled, if_neg (by omega)]
    rw [hnone, Nat.zero_add]
    rfl
  | succ a ih =>
    have hstart : n+(a+1) = n+1+a := by omega
    have haddr : pa+pageSize*(a+1) = pa+pageSize+pageSize*a := by
      rw [Nat.mul_add_one]
      omega
    have hcount : a+1+b = a+b+1 := by omega
    rw [hstart, haddr, hcount, ← filled_cons, ← filled_cons]
    exact ih ..

theorem filled_zero (n pa : ℕ) (perm : Word) (leaf : ℕ → Option Word) : filled n 0 pa perm leaf = leaf := by
  funext x
  rw [filled, if_neg (by omega)]

/-- The rest of a table is filled. -/
theorem fillTable_spec {count m pa n : ℕ} {perm : Word} (h : Grown first root tables tab leaf s)
    (hx : (1, p) ∈ tables) (hcount : i+count = 512) (hn : n = p*512+i) :
    ∃ s', fillTable (tab (1, p)) (4096*m) perm count i (4096*n) pa s =
        (4096*(n+min count (m-n)), pa+pageSize*min count (m-n), s') ∧
      Grown first root tables tab (filled n (min count (m-n)) pa perm leaf) s' := by
  induction count generalizing i n pa leaf s with
  | zero =>
    rw [Nat.zero_min, filled_zero, Nat.add_zero, Nat.mul_zero, Nat.add_zero]
    exact ⟨s, rfl, h⟩
  | succ count ih =>
    rw [fillTable]
    by_cases hend : m ≤ n
    · have hzero : min (count+1) (m-n) = 0 := by omega
      rw [if_pos (by omega), hzero, filled_zero, Nat.add_zero, Nat.mul_zero, Nat.add_zero]
      exact ⟨s, rfl, h⟩
    · have hmin : min (count+1) (m-n) = min count (m-(n+1))+1 := by omega
      have hword : BitVec.ofNat 64 pa ||| pteP ||| perm = leafWord n pa perm n := by
        rw [leafWord, Nat.sub_self, Nat.mul_zero, Nat.add_zero]
      have hleaf := grown_leaf (w := leafWord n pa perm n) h hx (by omega : i < 512)
      rw [← hn] at hleaf
      obtain ⟨s', hrun, hgrown⟩ := ih hleaf (by omega : i+1+count = 512) (by omega : n+1 = p*512+(i+1))
      rw [if_neg (by omega), hmin, hword]
      refine ⟨s', ?_, ?_⟩
      · have hv : 4096*n+pageSize = 4096*(n+1) := by
          rw [pageSize]
          omega
        have hlast : n+1+min count (m-(n+1)) = n+(min count (m-(n+1))+1) := by omega
        have haddr : pa+pageSize+pageSize*min count (m-(n+1)) = pa+pageSize*(min count (m-(n+1))+1) := by
          rw [Nat.mul_add_one]
          omega
        rw [hv, ← hlast, ← haddr]
        exact hrun
      · rw [← filled_cons]
        exact hgrown

/-! ## Whole calls -/

theorem keys_congr {x n : ℕ} (h : x/512 = n/512) : keys x = keys n := by
  have h₂ : x/512^2 = n/512^2 := by
    have hx : x/512^2 = x/512/512 := by omega
    have hn : n/512^2 = n/512/512 := by omega
    rw [hx, hn, h]
  have h₃ : x/512^3 = n/512^3 := by
    have hx : x/512^3 = x/512/512/512 := by omega
    have hn : n/512^3 = n/512/512/512 := by omega
    rw [hx, hn, h]
  rw [keys, keys, h, h₂, h₃]

/-- The tables for the pages from `n` to `m`. -/
def keysOf (n m : ℕ) : Finset (ℕ × ℕ) := (Finset.Ico n m).biUnion keys

theorem keysOf_step {n m c : ℕ} (hc : 0 < c) (hlast : n+c ≤ m) (htable : n%512+c ≤ 512) :
    keysOf n m = keys n ∪ keysOf (n+c) m := by
  have hsame : ∀ x ∈ Finset.Ico n (n+c), keys x = keys n := by
    intro x hx
    rw [Finset.mem_Ico] at hx
    exact keys_congr (by omega)
  rw [keysOf, keysOf, ← Finset.Ico_union_Ico_eq_Ico (by omega : n ≤ n+c) hlast, Finset.union_biUnion]
  congr 1
  ext x
  rw [Finset.mem_biUnion]
  constructor
  · rintro ⟨y, hy, hx⟩
    rwa [hsame y hy] at hx
  · exact fun hx => ⟨n, Finset.mem_Ico.mpr ⟨le_rfl, by omega⟩, hx⟩

/-- The indices of a page number, each nine bits of it. -/
theorem page_indices (n : ℕ) : pml4eIndex (4096*n) = n/512^3%512 ∧ pdpeIndex (4096*n) = n/512^2%512 ∧
    pdeIndex (4096*n) = n/512%512 ∧ pteIndex (4096*n) = n%512 := by
  rw [pml4eIndex_eq, pdpeIndex_eq, pdeIndex_eq, pteIndex_eq]
  omega

theorem prefix_split (n k : ℕ) : n/512^(k+1)*512+n/512^k%512 = n/512^k := by
  rw [pow_succ, ← Nat.div_div_eq_div_mul]
  exact Nat.div_add_mod' _ _

theorem insert_keys (n : ℕ) (tables : Finset (ℕ × ℕ)) :
    insert (1, n/512) (insert (2, n/512^2) (insert (3, n/512^3) tables)) = tables ∪ keys n := by
  ext x
  simp only [keys, Finset.mem_insert, Finset.mem_union, Finset.mem_singleton]
  tauto

/-- The tables on the way to a page are there, and the rest of the last one is filled. -/
theorem mapFrom_spec {rounds m pa : ℕ} {perm : Word} (h : Grown first root tables tab leaf s)
    (htop : ∀ x ∈ Finset.Ico n m, x/512^4 = top) (hfit : first+(tables ∪ keysOf n m).card ≤ 2^19)
    (hrounds : m-n ≤ rounds) : ∃ tab' s', mapFrom root (4096*m) perm rounds (4096*n) pa s = some s' ∧
      Grown first root (tables ∪ keysOf n m) tab' (filled n (m-n) pa perm leaf) s' := by
  induction rounds generalizing n pa tables tab leaf s with
  | zero =>
    have hempty : keysOf n m = ∅ := by
      rw [keysOf, Finset.Ico_eq_empty (by omega), Finset.biUnion_empty]
    have hzero : m-n = 0 := by omega
    rw [mapFrom, if_neg (by omega), hempty, Finset.union_empty, hzero, filled_zero]
    exact ⟨tab, s, rfl, h⟩
  | succ rounds ih =>
    rw [mapFrom]
    by_cases hend : m ≤ n
    · have hempty : keysOf n m = ∅ := by
        rw [keysOf, Finset.Ico_eq_empty (by omega), Finset.biUnion_empty]
      have hzero : m-n = 0 := by omega
      rw [if_neg (by omega), hempty, Finset.union_empty, hzero, filled_zero]
      exact ⟨tab, s, rfl, h⟩
    · rw [if_pos (by omega)]
      have hn := htop n (Finset.mem_Ico.mpr ⟨le_rfl, by omega⟩)
      obtain ⟨hpml4, hpdp, hpd, hpt⟩ := page_indices n
      have hstep := keysOf_step (n := n) (m := m) (c := min (512-n%512) (m-n)) (by omega) (by omega) (by omega)
      have hall : first+(tables ∪ keys n).card ≤ 2^19 := by
        have hsub : tables ∪ keys n ⊆ tables ∪ keysOf n m := by
          rw [hstep]
          exact Finset.union_subset_union_right Finset.subset_union_left
        have := Finset.card_le_card hsub
        omega
      rw [← insert_keys] at hall
      have hall₂ : first+(insert (2, n/512^2) (insert (3, n/512^3) tables)).card ≤ 2^19 := by
        have := Finset.card_le_card (Finset.subset_insert (1, n/512) (insert (2, n/512^2) (insert (3, n/512^3) tables)))
        omega
      have hall₃ : first+(insert (3, n/512^3) tables).card ≤ 2^19 := by
        have := Finset.card_le_card (Finset.subset_insert (2, n/512^2) (insert (3, n/512^3) tables))
        omega
      have hpre₃ := prefix_split n 3
      have hpre₂ := prefix_split n 2
      have hpre₁ := prefix_split n 1
      rw [hn] at hpre₃
      rw [pow_one] at hpre₁
      have hlt : ∀ x, x%512 < 512 := fun x => Nat.mod_lt x (by decide)
      obtain ⟨tab₁, s₁, hrun₁, h₁⟩ := getTable_level h h.root.1 (by decide) (hlt _) hpre₃ hall₃
      obtain ⟨tab₂, s₂, hrun₂, h₂⟩ := getTable_level h₁ (Finset.mem_insert_self ..) (by decide) (hlt _) hpre₂ hall₂
      obtain ⟨tab₃, s₃, hrun₃, h₃⟩ := getTable_level h₂ (Finset.mem_insert_self ..) (by decide) (hlt _) hpre₁ hall
      rw [h.root.2] at hrun₁
      have hlow : tab₃ (1, n/512) < 2^19 := by
        have := h₃.lt _ (Finset.mem_insert_self ..)
        omega
      rw [hpml4, hrun₁]
      dsimp only
      rw [hpdp, hrun₂]
      dsimp only
      rw [hpd, hrun₃]
      dsimp only
      rw [earlyFrame_low hlow, hpt]
      dsimp only
      obtain ⟨s₄, hfill, h₄⟩ : ∃ s', fillTable (tab₃ (1, n/512)) (4096*m) perm (512-n%512) (n%512) (4096*n) pa s₃ =
          (4096*(n+min (512-n%512) (m-n)), pa+pageSize*min (512-n%512) (m-n), s') ∧
          Grown first root (insert (1, n/512) (insert (2, n/512^2) (insert (3, n/512^3) tables))) tab₃
            (filled n (min (512-n%512) (m-n)) pa perm leaf) s' :=
        fillTable_spec h₃ (Finset.mem_insert_self ..) (by omega) (by omega)
      rw [hfill]
      dsimp only
      rw [insert_keys] at h₄
      obtain ⟨c, hc⟩ : ∃ c, min (512-n%512) (m-n) = c := ⟨_, rfl⟩
      rw [hc] at h₄ hstep ⊢
      have hunion : tables ∪ keys n ∪ keysOf (n+c) m = tables ∪ keysOf n m := by
        rw [hstep, Finset.union_assoc]
      have hrest : ∀ x ∈ Finset.Ico (n+c) m, x/512^4 = top := fun x hx =>
        htop x (Finset.Ico_subset_Ico_left (by omega) hx)
      rw [← hunion] at hfit ⊢
      obtain ⟨tab', s', hrun, hgrown⟩ :
          ∃ tab' s', mapFrom root (4096*m) perm rounds (4096*(n+c)) (pa+pageSize*c) s₄ = some s' ∧
            Grown first root (tables ∪ keys n ∪ keysOf (n+c) m) tab'
              (filled (n+c) (m-(n+c)) (pa+pageSize*c) perm (filled n c pa perm leaf)) s' :=
        ih h₄ hrest hfit (by omega)
      rw [filled_append] at hgrown
      have hcount : c+(m-(n+c)) = m-n := by omega
      rw [hcount] at hgrown
      exact ⟨tab', s', hrun, hgrown⟩

/-- The walk of the processor finds the leaf of a page. -/
theorem grown_walk {w : Word} (h : Grown first root tables tab leaf s) (hleaf : leaf n = some w)
    (hpresent : present w = true) (htop : n/512^4 = top) : walk s.words root (4096*n) = some (tableOf w) := by
  obtain ⟨hpml4, hpdp, hpd, hpt⟩ := page_indices n
  have hpre₃ := prefix_split n 3
  have hpre₂ := prefix_split n 2
  have hpre₁ := prefix_split n 1
  rw [htop] at hpre₃
  rw [pow_one] at hpre₁
  have hdiv : ∀ k, n/512^k/512 = n/512^(k+1) := fun k => by rw [Nat.div_div_eq_div_mul, pow_succ]
  have hlt : ∀ x, x%512 < 512 := fun x => Nat.mod_lt x (by decide)
  obtain ⟨hmem₁, hword⟩ := h.leaves n w hleaf
  have hmem₂ := h.closed 1 _ hmem₁ (by decide)
  have hdiv₁ := hdiv 1
  rw [pow_one] at hdiv₁
  rw [hdiv₁] at hmem₂
  have hmem₃ := h.closed 2 _ hmem₂ (by decide)
  rw [hdiv 2] at hmem₃
  obtain ⟨hp₃, ht₃⟩ := (h.inner 2 top h.root.1 (n/512^3%512) (hlt _)).1 (by rw [hpre₃]; exact hmem₃)
  obtain ⟨hp₂, ht₂⟩ := (h.inner 1 (n/512^3) hmem₃ (n/512^2%512) (hlt _)).1 (by rw [hpre₂]; exact hmem₂)
  obtain ⟨hp₁, ht₁⟩ := (h.inner 0 (n/512^2) hmem₂ (n/512%512) (hlt _)).1 (by rw [hpre₁]; exact hmem₁)
  rw [hpre₃] at ht₃
  rw [hpre₂] at ht₂
  rw [hpre₁] at ht₁
  rw [h.root.2] at hp₃ ht₃
  rw [walk, hpml4, if_pos hp₃, ht₃, hpdp, if_pos hp₂, ht₂, hpd, if_pos hp₁, ht₁, hpt, hword, if_pos hpresent]

/-! ## The calls -/

/-- The pages of a call. -/
def Call.pages (c : Call) : Finset ℕ := Finset.Ico (c.va/4096) ((c.va+c.length)/4096)

/-- The tables on the way to the pages of the calls. -/
def tablesOf (cs : List Call) : Finset (ℕ × ℕ) := cs.foldr (fun c t => c.pages.biUnion keys ∪ t) ∅

/-- The first page of the direct mapping, which has `2^34` pages. -/
def directPage : ℕ := kernelBase/4096

/-- The call is in the kernel's half, and below the direct mapping's end it maps directly. -/
structure Call.Good (c : Call) : Prop where
  low : kernelBase ≤ c.va
  high : c.va+c.length < 2^64
  phys : c.pa < 2^64
  perm : c.perm.toNat < 4096
  direct : directPage+2^34 ≤ c.va/4096 ∨ (c.va = kernelBase+c.pa ∧ c.pa+c.length < 2^46)

/-- The pages of the direct mapping that are mapped lead to their frames. -/
def Direct (leaf : ℕ → Option Word) : Prop := ∀ x w, leaf x = some w → directPage ≤ x →
  x < directPage+2^34 → present w = true ∧ tableOf w = x-directPage

theorem page_top {c : Call} (hc : c.Good) {x : ℕ} (hx : x ∈ c.pages) : x/512^4 = top := by
  have hlow := hc.low
  have hhigh := hc.high
  rw [Call.pages, Finset.mem_Ico] at hx
  rw [kernelBase] at hlow
  rw [top]
  omega

theorem direct_none : Direct fun _ => none := fun _ _ h => absurd h.symm (Option.some_ne_none _)

theorem direct_filled {c : Call} (hc : c.Good) (h : Direct leaf) :
    Direct (filled (c.va/4096) ((c.va+c.length)/4096-c.va/4096) (4096*(c.pa/4096)) c.perm leaf) := by
  intro x w hw hlow hhigh
  rw [filled] at hw
  split at hw
  next hin =>
    obtain rfl := Option.some.inj hw
    rcases hc.direct with hout | ⟨hva, hpa⟩
    · omega
    · have hperm := hc.perm
      refine ⟨or_present _ _, ?_⟩
      have haddr : 4096*(c.pa/4096)+pageSize*(x-c.va/4096) = frameAddr (x-directPage) := by
        rw [frameAddr, pageSize, hva, directPage, kernelBase]
        rw [hva, kernelBase] at hin
        omega
      have hflags : (pteP ||| c.perm).toNat < 4096 := by
        rw [BitVec.toNat_or]
        exact Nat.or_lt_two_pow (n := 12) (by decide) hperm
      rw [leafWord, haddr, BitVec.or_assoc]
      exact tableOf_frameAddr (by omega) hflags
  next => exact h x w hw hlow hhigh

theorem mapPages_grown {c : Call} (h : Grown first root tables tab leaf s) (hc : c.Good)
    (hfit : first+(tables ∪ c.pages.biUnion keys).card ≤ 2^19) : ∃ tab' s', mapPages root c s = some s' ∧
      Grown first root (tables ∪ c.pages.biUnion keys) tab'
        (filled (c.va/4096) ((c.va+c.length)/4096-c.va/4096) (4096*(c.pa/4096)) c.perm leaf) s' := by
  have hhigh := hc.high
  rw [mapPages, land_addrMask hhigh, land_addrMask (by omega), land_addrMask hc.phys, Nat.mul_comm _ 4096,
    Nat.mul_comm _ 4096, Nat.mul_comm _ 4096]
  exact mapFrom_spec h (fun x hx => page_top hc hx) hfit (by omega)

theorem filled_some {m count pa : ℕ} {perm : Word} {x : ℕ} (h : leaf x ≠ none) :
    filled m count pa perm leaf x ≠ none := by
  rw [filled]
  split
  · exact nofun
  · exact h

/-- All calls succeed, and their pages are mapped. -/
theorem mapAll_spec {cs : List Call} (h : Grown first root tables tab leaf s) (hdirect : Direct leaf)
    (hgood : ∀ c ∈ cs, c.Good) (hfit : first+(tables ∪ tablesOf cs).card ≤ 2^19) :
    ∃ tab' leaf' s', mapAll root cs s = some s' ∧ Grown first root (tables ∪ tablesOf cs) tab' leaf' s' ∧
      Direct leaf' ∧ (∀ x, leaf x ≠ none → leaf' x ≠ none) ∧ ∀ c ∈ cs, ∀ x ∈ c.pages, leaf' x ≠ none := by
  induction cs generalizing tables tab leaf s with
  | nil =>
    rw [tablesOf, List.foldr_nil, Finset.union_empty]
    exact ⟨tab, leaf, s, rfl, h, hdirect, fun _ hx => hx, nofun⟩
  | cons c cs ih =>
    have hsplit : tables ∪ tablesOf (c :: cs) = tables ∪ c.pages.biUnion keys ∪ tablesOf cs :=
      (Finset.union_assoc ..).symm
    rw [hsplit] at hfit ⊢
    have hpart : first+(tables ∪ c.pages.biUnion keys).card ≤ 2^19 := by
      have hsub : tables ∪ c.pages.biUnion keys ⊆ tables ∪ c.pages.biUnion keys ∪ tablesOf cs :=
        Finset.subset_union_left
      have := Finset.card_le_card hsub
      omega
    have hc := hgood c (List.mem_cons_self ..)
    obtain ⟨tab₁, s₁, hrun₁, h₁⟩ := mapPages_grown h hc hpart
    obtain ⟨tab', leaf', s', hrun, hgrown, hdir, hkeep, hpages⟩ :=
      ih h₁ (direct_filled hc hdirect) (fun c' hc' => hgood c' (List.mem_cons_of_mem _ hc')) hfit
    refine ⟨tab', leaf', s', ?_, hgrown, hdir, fun x hx => hkeep x (filled_some hx), fun c' hc' x hx => ?_⟩
    · rw [mapAll, hrun₁]
      exact hrun
    · rcases List.mem_cons.mp hc' with rfl | hc'
      · apply hkeep
        rw [Call.pages, Finset.mem_Ico] at hx
        rw [filled, if_pos (by omega)]
        exact nofun
      · exact hpages c' hc' x hx

end Growth

end BabyOS.BootTables

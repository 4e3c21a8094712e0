import BabyOS.BootTables
import BabyOS.BuddyBitmaps

/-!
# Memory is handed over

`init_page_map` maps the usable ranges of the firmware, and `free_boot_mem` gives the whole
blocks in them to the buddy allocator. Both walk the ranges in the order of the firmware
with a lower bound that moves up.
-/

set_option autoImplicit false

namespace BabyOS.BootMemory
open BabyOS.BuddyMachine BabyOS.BuddyArithmetic BabyOS.BuddyBoot BabyOS.StoredTables BabyOS.TableWords
open BabyOS.BootTables

def kernelLoadBase : ℕ := 0xffffffff80000000
def devBase : ℕ := 0xffffffff00000000
def apicBase : ℕ := 0xfee00000
def ioApicBase : ℕ := 0xfec00000

/-- Where the kernel image begins, behind `KERNEL_LOAD_BASE`. -/
def beginPa : ℕ := 0x100000

/-- The image of the kernel: `_data` begins a page, as the linker script says. -/
structure Image where
  data : ℕ
  last : ℕ
  page : 4096 ∣ data
  order : beginPa ≤ data ∧ data ≤ last

/-- What the firmware reports; the ranges end below 2^46. -/
structure Firmware where
  ranges : List Range
  physical : ∀ r ∈ ranges, r.baseAddr+r.length < 2^46

/-! ## The page map -/

/-- The calls for the usable ranges; `pa` is where the last one ended. -/
def rangeCalls : List Range → ℕ → List Call
  | [], _ => []
  | r :: rs, pa =>
    let last := r.baseAddr+r.length
    if r.type = 1 ∧ pa ≤ last then
      let pa := if pa < r.baseAddr then r.baseAddr else pa
      ⟨kernelBase+pa, pa, last-pa, pteW⟩ :: rangeCalls rs last
    else rangeCalls rs pa

/-- The calls of `map_pages` in `init_page_map`. -/
def calls (img : Image) (rs : List Range) : List Call :=
  [⟨kernelLoadBase, 0, beginPa, 0⟩, ⟨kernelLoadBase+beginPa, beginPa, img.data-beginPa, pteW⟩,
    ⟨kernelLoadBase+img.data, img.data, img.last-img.data, pteW⟩]++rangeCalls rs img.last++
    [⟨devBase+apicBase, apicBase, pageSize, pteP ||| pteW⟩,
      ⟨devBase+ioApicBase, ioApicBase, pageSize, pteP ||| pteW⟩]

/-- The root of the tables, and what the memory is then; the words in it are arbitrary before. -/
def initPageMap (img : Image) (rs : List Range) (words : Words Word) : Option (ℕ × Bootmem) :=
  let r := memAlloc pageSize true ⟨img.last, words⟩
  match earlyFrame (mapNr r.1) with
  | none => none
  | some f => (mapAll (mapNr r.1) (calls img rs)
      { r.2 with words := Function.update r.2.words f fun _ => 0 }).map fun s => (mapNr r.1, s)

/-- `m_end_pa`. -/
def memEnd (img : Image) (rs : List Range) : ℕ :=
  rs.foldl (fun e r => if r.type = 1 ∧ r.baseAddr+r.length > e then r.baseAddr+r.length else e) img.last

/-- `m_start_pa` behind the page tables, the page records and the bitmaps: everything that
`bootmem_t` has handed out is below. -/
def memStart (start last : ℕ) : ℕ :=
  (BuddyBitmaps.bitmapStart start last+BuddyBitmaps.bitmapsSize start last (maxOrder+1)) % 2^64

/-! ## The blocks -/

def blocksFrom : ℕ → ℕ → List ℕ
  | 0, _ => []
  | n+1, pa => pa :: blocksFrom n (pa+Layout.blockSize)

/-- The blocks of `free_boot_mem_range`. -/
def rangeBlocks (start last : ℕ) : List ℕ :=
  blocksFrom ((last-start+(Layout.blockSize-1)) / Layout.blockSize) start

/-- The blocks of `free_boot_mem`. -/
def bootBlocks : List Range → ℕ → List ℕ
  | [], _ => []
  | r :: rs, start =>
    let last := r.baseAddr+r.length
    if r.type = 1 ∧ last > start then
      let start := if r.baseAddr > start then Layout.alignUp r.baseAddr else start
      rangeBlocks start (last &&& pageMask maxOrder)++bootBlocks rs (Layout.alignUp last)
    else bootBlocks rs start

/-- The frees of a list of blocks. -/
def freeAll : List ℕ → Buddy → Option Buddy
  | [], s => some s
  | pa :: l, s => match s.freePages pa maxOrder with
    | none => none
    | some s' => freeAll l s'

theorem freeAll_append (l l' : List ℕ) (s : Buddy) :
    freeAll (l++l') s = (freeAll l s).bind fun s' => freeAll l' s' := by
  induction l generalizing s with
  | nil => rfl
  | cons pa l ih =>
    rw [List.cons_append, freeAll, freeAll]
    cases s.freePages pa maxOrder with
    | none => rfl
    | some s' => exact ih s'

theorem freeBlocks_eq (n pa : ℕ) (s : Buddy) : Layout.freeBlocks n pa s = freeAll (blocksFrom n pa) s := by
  induction n generalizing pa s with
  | zero => rfl
  | succ n ih =>
    rw [Layout.freeBlocks, blocksFrom, freeAll]
    cases s.freePages pa maxOrder with
    | none => rfl
    | some s' => exact ih ..

/-- `free_boot_mem` frees just these blocks. -/
theorem freeBootMem_eq (rs : List Range) (start : ℕ) (s : Buddy) :
    Layout.freeBootMem rs start s = freeAll (bootBlocks rs start) s := by
  induction rs generalizing start s with
  | nil => rfl
  | cons r rs ih =>
    rw [Layout.freeBootMem, Layout.freeBootRange, bootBlocks]
    dsimp only
    by_cases hin : r.type = 1 ∧ r.baseAddr+r.length > start
    · rw [if_pos hin, if_pos hin, Layout.freeBootMemRange, freeBlocks_eq, freeAll_append, ← rangeBlocks]
      cases freeAll (rangeBlocks (if r.baseAddr > start then Layout.alignUp r.baseAddr else start)
        (r.baseAddr+r.length &&& pageMask maxOrder)) s with
      | none => rfl
      | some s' => exact ih ..
    · rw [if_neg hin, if_neg hin]
      exact ih ..

/-! ## Blocks and calls -/

section Blocks

variable {rs : List Range} {start pa i j : ℕ}

theorem mem_blocksFrom {n a : ℕ} (h : a ∈ blocksFrom n pa) : ∃ k < n, a = pa+Layout.blockSize*k := by
  induction n generalizing pa with
  | zero => cases h
  | succ n ih =>
    rw [blocksFrom] at h
    rcases List.mem_cons.mp h with rfl | h
    · exact ⟨0, Nat.succ_pos n, rfl⟩
    · obtain ⟨k, hk, rfl⟩ := ih h
      refine ⟨k+1, by omega, ?_⟩
      rw [Nat.mul_add_one]
      omega

theorem pairwise_blocksFrom (n pa : ℕ) :
    (blocksFrom n pa).Pairwise fun a b => a+Layout.blockSize ≤ b := by
  induction n generalizing pa with
  | zero => exact List.Pairwise.nil
  | succ n ih =>
    rw [blocksFrom]
    refine List.Pairwise.cons (fun b hb => ?_) (ih _)
    obtain ⟨k, -, rfl⟩ := mem_blocksFrom hb
    exact Nat.le_add_right ..

theorem mem_rangeBlocks {a : ℕ} (h : a ∈ rangeBlocks (blockAddr maxOrder i) (blockAddr maxOrder j)) :
    ∃ k, i ≤ k ∧ k < j ∧ a = blockAddr maxOrder k := by
  obtain ⟨k, hk, rfl⟩ := mem_blocksFrom h
  rw [topBlock, topBlock, blockSize_eq] at hk
  refine ⟨i+k, by omega, by omega, ?_⟩
  rw [topBlock, topBlock, blockSize_eq]
  omega

/-- What is true of a block that is given to the allocator: it lies in a usable range, and a
call has mapped it. -/
structure Backed (rs : List Range) (cs : List Call) (a : ℕ) : Prop where
  range : ∃ r ∈ rs, r.type = 1 ∧ r.baseAddr ≤ a ∧ a+Layout.blockSize ≤ r.baseAddr+r.length
  call : ∃ c ∈ cs, c.va = kernelBase+c.pa ∧ c.pa ≤ a ∧ a+Layout.blockSize ≤ c.pa+c.length

/-- The two loops agree, where the bound of the second one is above that of the first. -/
theorem bootBlocks_spec (hrs : ∀ r ∈ rs, r.baseAddr+r.length < 2^46) (hpa : pa ≤ blockAddr maxOrder i) :
    (∀ a ∈ bootBlocks rs (blockAddr maxOrder i), Layout.blockSize ∣ a ∧ blockAddr maxOrder i ≤ a ∧
      Backed rs (rangeCalls rs pa) a) ∧
    (bootBlocks rs (blockAddr maxOrder i)).Pairwise fun a b => a+Layout.blockSize ≤ b := by
  induction rs generalizing pa i with
  | nil => exact ⟨nofun, List.Pairwise.nil⟩
  | cons r rs ih =>
    have hr := hrs r (List.mem_cons_self ..)
    have hrest : ∀ r ∈ rs, r.baseAddr+r.length < 2^46 := fun r' hr' => hrs r' (List.mem_cons_of_mem _ hr')
    -- a block of the rest is backed by the rest
    have hmore : ∀ {cs cs' : List Call} {a : ℕ}, (∀ c ∈ cs, c ∈ cs') → Backed rs cs a → Backed (r :: rs) cs' a := by
      intro cs cs' a hsub hb
      obtain ⟨⟨r', hr', hrange⟩, c, hc, hcall⟩ := hb
      exact ⟨⟨r', List.mem_cons_of_mem _ hr', hrange⟩, c, hsub c hc, hcall⟩
    rw [bootBlocks, rangeCalls]
    dsimp only
    by_cases hin : r.type = 1 ∧ r.baseAddr+r.length > blockAddr maxOrder i
    · have htype := hin.1
      have hlast := hin.2
      obtain ⟨m, lower, upper, hm, hdown, hup, hlow, him, hmu, hlu⟩ :=
        range_blocks hlast (Nat.le_add_right _ _) (by omega)
      have hnext : r.baseAddr+r.length ≤ blockAddr maxOrder upper := by
        rw [← hup]
        exact le_alignUp (by omega)
      have hfirst : (if pa < r.baseAddr then r.baseAddr else pa) ≤ blockAddr maxOrder m := by
        rw [← hm]
        split
        next hbase =>
          split
          next => exact le_alignUp (by omega)
          next hnot => omega
        next hbase =>
          split
          next hgt => exact hpa.trans (hgt.le.trans (le_alignUp (by omega)))
          next => exact hpa
      have hbase : r.baseAddr ≤ blockAddr maxOrder m := by
        rw [← hm]
        split
        next => exact le_alignUp (by omega)
        next hnot => omega
      obtain ⟨hblocks, hpair⟩ := ih hrest hnext
      have hcall : r.type = 1 ∧ pa ≤ r.baseAddr+r.length := ⟨htype, by omega⟩
      rw [if_pos hin, if_pos hcall, hm, hdown, hup]
      refine ⟨fun a ha => ?_, List.pairwise_append.mpr ⟨pairwise_blocksFrom .., hpair, fun a ha b hb => ?_⟩⟩
      · rcases List.mem_append.mp ha with ha | ha
        · obtain ⟨k, hmk, hkl, rfl⟩ := mem_rangeBlocks ha
          have hbelow := blockAddr_mono hmk
          have habove : blockAddr maxOrder k+Layout.blockSize ≤ blockAddr maxOrder lower := by
            have := blockAddr_mono (Nat.succ_le_of_lt hkl)
            rw [topBlock, topBlock] at this ⊢
            rw [blockSize_eq]
            omega
          refine ⟨?_, (blockAddr_mono him).trans hbelow, ⟨r, List.mem_cons_self .., htype, by omega, by omega⟩,
            _, List.mem_cons_self .., rfl, by dsimp only; omega, ?_⟩
          · rw [topBlock, blockSize_eq]
            exact Nat.dvd_mul_left ..
          · dsimp only
            have : (if pa < r.baseAddr then r.baseAddr else pa) ≤ r.baseAddr+r.length := by
              split <;> omega
            omega
        · obtain ⟨hdvd, hlow', hb⟩ := hblocks a ha
          exact ⟨hdvd, (blockAddr_mono (him.trans hmu)).trans hlow', hmore (fun c hc => List.mem_cons_of_mem _ hc) hb⟩
      · obtain ⟨k, -, hkl, rfl⟩ := mem_rangeBlocks ha
        obtain ⟨-, hlow', -⟩ := hblocks b hb
        have hup' : blockAddr maxOrder (k+1) ≤ b :=
          (blockAddr_mono (Nat.succ_le_of_lt hkl)).trans ((blockAddr_mono hlu).trans hlow')
        rw [topBlock] at hup' ⊢
        rw [blockSize_eq]
        omega
    · rw [if_neg hin]
      by_cases hcall : r.type = 1 ∧ pa ≤ r.baseAddr+r.length
      · rw [if_pos hcall]
        have hle : r.baseAddr+r.length ≤ blockAddr maxOrder i :=
          Nat.le_of_not_lt (fun hc => hin ⟨hcall.1, hc⟩)
        obtain ⟨hblocks, hpair⟩ := ih hrest hle
        refine ⟨fun a ha => ?_, hpair⟩
        obtain ⟨hdvd, hlow, hb⟩ := hblocks a ha
        exact ⟨hdvd, hlow, hmore (fun c hc => List.mem_cons_of_mem _ hc) hb⟩
      · rw [if_neg hcall]
        obtain ⟨hblocks, hpair⟩ := ih hrest hpa
        refine ⟨fun a ha => ?_, hpair⟩
        obtain ⟨hdvd, hlow, hb⟩ := hblocks a ha
        exact ⟨hdvd, hlow, hmore (fun c hc => hc) hb⟩

end Blocks

/-! ## The tables at the start -/

section Start

variable {img : Image} {rs : List Range}

/-- The first page behind the image. -/
def firstFrame (img : Image) : ℕ := (img.last+4095)/4096

/-- The tables of the page map, the root included. -/
def allTables (img : Image) (rs : List Range) : Finset (ℕ × ℕ) := {(4, top)} ∪ tablesOf (calls img rs)

/-- The page tables end within the window of the loader. -/
def TablesFit (img : Image) (rs : List Range) : Prop :=
  4096*(firstFrame img+(allTables img rs).card) ≤ 2^31

/-- The root alone. -/
theorem grown_root {first : ℕ} {s : Bootmem} (hnext : s.startPa = 4096*(first+1))
    (hblank : ∀ i, s.words first i = 0) :
    Grown first first {(4, top)} (fun _ => first) (fun _ => none) s := by
  refine ⟨?_, ⟨Finset.mem_singleton_self _, rfl⟩, fun x _ => ?_, fun k p hk => ?_, fun k p hk hne => ?_,
    fun x hx y hy _ => ?_, fun k p hk i _ => ⟨fun hc => ?_, fun _ => ?_⟩, nofun⟩
  · rw [hnext, Finset.card_singleton]
  · rw [Finset.card_singleton]
    exact Nat.lt_succ_self _
  · rw [(Prod.mk.inj (Finset.mem_singleton.mp hk)).1]
  · exact absurd (Prod.mk.inj (Finset.mem_singleton.mp hk)).1 hne
  · rw [Finset.mem_singleton.mp hx, Finset.mem_singleton.mp hy]
  · have hlevel := (Prod.mk.inj (Finset.mem_singleton.mp hk)).1
    have hbelow := (Prod.mk.inj (Finset.mem_singleton.mp hc)).1
    omega
  · rw [hblank]
    decide

theorem rangeCalls_good (hrs : ∀ r ∈ rs, r.baseAddr+r.length < 2^46) (pa : ℕ) :
    ∀ c ∈ rangeCalls rs pa, c.Good := by
  induction rs generalizing pa with
  | nil => exact nofun
  | cons r rs ih =>
    have hr := hrs r (List.mem_cons_self ..)
    have hrest := ih (fun r' hr' => hrs r' (List.mem_cons_of_mem _ hr'))
    rw [rangeCalls]
    dsimp only
    by_cases hin : r.type = 1 ∧ pa ≤ r.baseAddr+r.length
    · rw [if_pos hin]
      intro c hc
      rcases List.mem_cons.mp hc with rfl | hc
      · have hle : (if pa < r.baseAddr then r.baseAddr else pa) ≤ r.baseAddr+r.length := by
          split
          next => exact Nat.le_add_right ..
          next => exact hin.2
        obtain ⟨lower, hlower⟩ : ∃ l, (if pa < r.baseAddr then r.baseAddr else pa) = l := ⟨_, rfl⟩
        rw [hlower] at hle ⊢
        constructor
        · exact Nat.le_add_right ..
        · dsimp only
          rw [kernelBase]
          omega
        · dsimp only
          omega
        · change pteW.toNat < 4096
          decide
        · exact Or.inr ⟨rfl, by dsimp only; omega⟩
      · exact hrest _ c hc
    · rw [if_neg hin]
      exact hrest pa

/-- A call above the direct mapping. -/
theorem good_above {va pa length : ℕ} {perm : Word} (hlow : devBase ≤ va) (hhigh : va+length < 2^64)
    (hpa : pa < 2^64) (hperm : perm.toNat < 4096) : (⟨va, pa, length, perm⟩ : Call).Good := by
  rw [devBase] at hlow
  refine ⟨?_, hhigh, hpa, hperm, Or.inl ?_⟩
  · rw [kernelBase]
    dsimp only
    omega
  · rw [directPage, kernelBase]
    dsimp only
    omega

theorem calls_good (hrs : ∀ r ∈ rs, r.baseAddr+r.length < 2^46) (hlast : img.last < 2^31) :
    ∀ c ∈ calls img rs, c.Good := by
  obtain ⟨hbegin, hdata⟩ := img.order
  rw [beginPa] at hbegin
  intro c hc
  rw [calls] at hc
  rcases List.mem_append.mp hc with hc | hc
  · rcases List.mem_append.mp hc with hc | hc
    · simp only [List.mem_cons, List.not_mem_nil, or_false] at hc
      rcases hc with rfl | rfl | rfl
      · exact good_above (by decide) (by decide) (by decide) (by decide)
      · exact good_above (by decide) (by rw [kernelLoadBase, beginPa]; omega) (by decide) (by decide)
      · exact good_above (by rw [devBase, kernelLoadBase]; omega) (by rw [kernelLoadBase]; omega) (by omega) (by decide)
    · exact rangeCalls_good hrs _ c hc
  · simp only [List.mem_cons, List.not_mem_nil, or_false] at hc
    rcases hc with rfl | rfl
    · exact good_above (by decide) (by decide) (by decide) (by decide)
    · exact good_above (by decide) (by decide) (by decide) (by decide)

theorem frame_of_fit (h : TablesFit img rs) : firstFrame img < 2^19 := by
  have hroot : ({(4, top)} : Finset (ℕ × ℕ)).card ≤ (allTables img rs).card :=
    Finset.card_le_card Finset.subset_union_left
  rw [Finset.card_singleton] at hroot
  rw [TablesFit] at h
  omega

theorem last_of_fit (h : TablesFit img rs) : img.last < 2^31 := by
  have hfirst := frame_of_fit h
  rw [firstFrame] at hfirst
  omega

/-- The whole page map is built, in the pages behind the image. -/
theorem initPageMap_spec (words : Words Word) (hrs : ∀ r ∈ rs, r.baseAddr+r.length < 2^46) (hfit : TablesFit img rs) :
    ∃ root s tab leaf, initPageMap img rs words = some (root, s) ∧
      Grown (firstFrame img) root (allTables img rs) tab leaf s ∧ Direct leaf ∧
      ∀ c ∈ calls img rs, ∀ x ∈ c.pages, leaf x ≠ none := by
  have hlast := last_of_fit hfit
  have hfirst := frame_of_fit hfit
  rw [TablesFit] at hfit
  have hpa : (img.last+(pageSize-1)) &&& pageMask 0 = 4096*firstFrame img := by
    rw [← addrMask_eq, land_addrMask (by rw [pageSize]; omega), pageSize, firstFrame]
    omega
  have halloc : memAlloc pageSize true ⟨img.last, words⟩ =
      (4096*firstFrame img, ⟨4096*(firstFrame img+1), words⟩) := by
    rw [memAlloc, if_pos rfl]
    dsimp only
    rw [hpa, pageSize, Nat.mul_add_one]
  have hnr : mapNr (4096*firstFrame img) = firstFrame img := by
    rw [mapNr_eq, frameOf, pageSize]
    omega
  have hstart : Grown (firstFrame img) (firstFrame img) {(4, top)} (fun _ => firstFrame img) (fun _ => none)
      ⟨4096*(firstFrame img+1), Function.update words (firstFrame img) fun _ => 0⟩ :=
    grown_root rfl fun i => by dsimp only; rw [Function.update_self]
  have hcount : firstFrame img+({(4, top)} ∪ tablesOf (calls img rs)).card ≤ 2^19 := by
    rw [← allTables]
    omega
  obtain ⟨tab, leaf, s, hrun, hgrown, hdirect, -, hpages⟩ :=
    mapAll_spec hstart direct_none (calls_good hrs hlast) hcount
  refine ⟨firstFrame img, s, tab, leaf, ?_, hgrown, hdirect, hpages⟩
  rw [initPageMap, halloc]
  dsimp only
  rw [hnr, earlyFrame_low hfirst]
  dsimp only
  rw [hrun]
  rfl

/-! ## The hand-over -/

/-- `m_free_area.base`, when the page map is built. -/
def areaBase (img : Image) (rs : List Range) (s : Bootmem) : ℕ := BuddyBitmaps.base s.startPa (memEnd img rs)

/-- What `free_boot_mem` gives to the allocator, and what is true of it. -/
structure HandedOver (img : Image) (rs : List Range) (root : ℕ) (s : Bootmem) : Prop where
  freed : ∀ b, Layout.freeBootMem rs (areaBase img rs s) b = freeAll (bootBlocks rs (areaBase img rs s)) b
  above : memStart s.startPa (memEnd img rs) ≤ areaBase img rs s
  aligned : ∀ a ∈ bootBlocks rs (areaBase img rs s), areaBase img rs s ≤ a ∧
    Layout.blockSize ∣ a-areaBase img rs s
  inside : ∀ a ∈ bootBlocks rs (areaBase img rs s), ∃ r ∈ rs, r.type = 1 ∧ r.baseAddr ≤ a ∧
    a+Layout.blockSize ≤ r.baseAddr+r.length
  apart : (bootBlocks rs (areaBase img rs s)).Pairwise fun a b => a+Layout.blockSize ≤ b
  mapped : ∀ a ∈ bootBlocks rs (areaBase img rs s), ∀ n, a ≤ 4096*n → 4096*n < a+Layout.blockSize →
    walk s.words root (kernelBase+4096*n) = some n

theorem memStart_spec {start : ℕ} (last : ℕ) (hstart : start < 2^46) :
    start ≤ memStart start last ∧ memStart start last < start+2^33 := by
  have hpages : BuddyBitmaps.pagesSize last < 2^32 := Nat.mod_lt _ (by decide)
  have hsize := BuddyBitmaps.bitmapsSize_le start last (maxOrder+1)
  rw [maxOrder] at hsize
  rw [memStart, BuddyBitmaps.bitmapStart, maxOrder]
  omega

/-- The base is the first whole block behind the bitmaps. -/
theorem areaBase_spec (img : Image) (rs : List Range) {s : Bootmem} (hstart : s.startPa < 2^46) :
    ∃ i, areaBase img rs s = blockAddr maxOrder i ∧ memStart s.startPa (memEnd img rs) ≤ areaBase img rs s ∧
      areaBase img rs s < s.startPa+2^34 := by
  obtain ⟨hle, hlt⟩ := memStart_spec (memEnd img rs) hstart
  have halign : areaBase img rs s = Layout.alignUp (memStart s.startPa (memEnd img rs)) := by
    rw [areaBase, BuddyBitmaps.base, ← memStart, Nat.mod_eq_of_lt (by rw [blockSize_eq]; omega), Layout.alignUp]
  have hlow := le_alignUp (by omega : memStart s.startPa (memEnd img rs) < 2^53)
  rw [← halign] at hlow
  have hblock := alignUp_eq (by omega : memStart s.startPa (memEnd img rs) < 2^53)
  rw [← halign] at hblock
  refine ⟨_, hblock, hlow, ?_⟩
  rw [hblock, topBlock, blockSize_eq]
  omega

/-- A call for a range maps its pages to themselves. -/
theorem backed_mapped {first root a n : ℕ} {tables : Finset (ℕ × ℕ)} {tab : ℕ × ℕ → ℕ} {leaf : ℕ → Option Word}
    {s : Bootmem} {cs : List Call} (h : Grown first root tables tab leaf s) (hdirect : Direct leaf)
    (hgood : ∀ c ∈ cs, c.Good) (hpages : ∀ c ∈ cs, ∀ x ∈ c.pages, leaf x ≠ none) (hb : Backed rs cs a)
    (ha : Layout.blockSize ∣ a) (hrs : ∀ r ∈ rs, r.baseAddr+r.length < 2^46) (hlow : a ≤ 4096*n)
    (hhigh : 4096*n < a+Layout.blockSize) : walk s.words root (kernelBase+4096*n) = some n := by
  obtain ⟨⟨r, hr, -, -, hend⟩, c, hc, hva, hfrom, hto⟩ := hb
  have hphys := hrs r hr
  obtain ⟨b, rfl⟩ := ha
  rw [blockSize_eq] at hlow hhigh hfrom hto hend
  have hx : directPage+n ∈ c.pages := by
    rw [Call.pages, Finset.mem_Ico, hva, directPage, kernelBase]
    omega
  obtain ⟨w, hw⟩ := Option.ne_none_iff_exists'.mp (hpages c hc _ hx)
  obtain ⟨hpresent, htable⟩ := hdirect _ w hw (Nat.le_add_right ..) (by omega)
  have haddr : kernelBase+4096*n = 4096*(directPage+n) := by
    rw [directPage, kernelBase]
    omega
  rw [haddr, grown_walk h hw hpresent (page_top (hgood c hc) hx), htable, Nat.add_sub_cancel_left]

/-- Where the page tables fit, what the allocator is given is usable, mapped and its own. -/
theorem memory_handed_over (f : Firmware) (words : Words Word) (hfit : TablesFit img f.ranges) :
    ∃ root s, initPageMap img f.ranges words = some (root, s) ∧ HandedOver img f.ranges root s := by
  obtain ⟨root, s, tab, leaf, hrun, hgrown, hdirect, hpages⟩ := initPageMap_spec words f.physical hfit
  have hlast : img.last ≤ s.startPa := by
    rw [hgrown.next, firstFrame]
    omega
  have hstart : s.startPa < 2^46 := by
    rw [hgrown.next]
    rw [TablesFit] at hfit
    omega
  have hgood := calls_good f.physical (last_of_fit hfit)
  obtain ⟨i, hbase, habove, -⟩ := areaBase_spec img f.ranges hstart
  have hend : img.last ≤ blockAddr maxOrder i := by
    rw [← hbase]
    exact hlast.trans ((memStart_spec _ hstart).1.trans habove)
  obtain ⟨hblocks, hpair⟩ := bootBlocks_spec f.physical hend
  rw [← hbase] at hblocks hpair
  have hsub : ∀ c ∈ rangeCalls f.ranges img.last, c ∈ calls img f.ranges := fun c hc =>
    List.mem_append_left _ (List.mem_append_right _ hc)
  refine ⟨root, s, hrun, fun b => freeBootMem_eq .., habove, fun a ha => ?_, fun a ha => ?_, hpair, fun a ha n hlow hhigh => ?_⟩
  · obtain ⟨hdvd, hle, -⟩ := hblocks a ha
    refine ⟨hle, Nat.dvd_sub hdvd ?_⟩
    rw [hbase, topBlock, blockSize_eq]
    exact Nat.dvd_mul_left ..
  · exact (hblocks a ha).2.2.range
  · obtain ⟨hdvd, -, hb⟩ := hblocks a ha
    obtain ⟨c, hc, hcall⟩ := hb.call
    exact backed_mapped hgrown hdirect hgood hpages ⟨hb.range, c, hsub c hc, hcall⟩ hdvd f.physical hlow hhigh

end Start

/-! ## Small memory -/

theorem card_tablesOf_le (cs : List Call) :
    (tablesOf cs).card ≤ (cs.map fun c => (c.va+c.length)/4096-c.va/4096).sum*3 := by
  induction cs with
  | nil => exact le_rfl
  | cons c cs ih =>
    have hsplit : tablesOf (c :: cs) = c.pages.biUnion keys ∪ tablesOf cs := rfl
    have hcall : (c.pages.biUnion keys).card ≤ c.pages.card*3 :=
      Finset.card_biUnion_le_card_mul _ _ _ fun n _ => Finset.card_le_three
    rw [Call.pages, Nat.card_Ico] at hcall
    have hunion := Finset.card_union_le (c.pages.biUnion keys) (tablesOf cs)
    rw [List.map_cons, List.sum_cons, hsplit]
    rw [Call.pages] at hunion ⊢
    omega

def smallImage : Image := ⟨0x180000, 0x200000, by decide, by decide⟩

def smallFirmware : Firmware := ⟨[⟨0, 0x9fc00, 1⟩, ⟨0x100000, 0x3f00000, 1⟩], by decide⟩

theorem smallMemory_fits : TablesFit smallImage smallFirmware.ranges := by
  have hcount := card_tablesOf_le (calls smallImage smallFirmware.ranges)
  have hsum : ((calls smallImage smallFirmware.ranges).map fun c => (c.va+c.length)/4096-c.va/4096).sum = 16386 := by
    decide +kernel
  have hunion := Finset.card_union_le ({(4, top)} : Finset (ℕ × ℕ)) (tablesOf (calls smallImage smallFirmware.ranges))
  rw [Finset.card_singleton] at hunion
  have hfirst : firstFrame smallImage = 512 := by decide
  rw [TablesFit, hfirst, allTables]
  omega

theorem memory_handed_over_small : ∃ root s, initPageMap smallImage smallFirmware.ranges (fun _ _ => 0) =
    some (root, s) ∧ HandedOver smallImage smallFirmware.ranges root s :=
  memory_handed_over smallFirmware _ smallMemory_fits

/-! ## Large memory -/

/-- Only the frames that the window reaches are written. -/
structure Within (s : Bootmem) : Prop where
  next : s.startPa ≤ 4096*(2^19+2^20)
  high : ∀ f, 2^20 ≤ f → ∀ i, s.words f i = 0

theorem earlyFrame_some {f g : ℕ} (h : earlyFrame f = some g) : f < 2^19+2^20 ∧ g < 2^20 := by
  rw [earlyFrame] at h
  split at h
  next hlow =>
    obtain rfl := Option.some.inj h
    omega
  next hlow =>
    split at h
    next hhigh =>
      have hg := Option.some.inj h
      omega
    next => cases h

section Large

variable {root t g i : ℕ} {s s' : Bootmem}

theorem within_setWord (h : Within s) (ht : t < 2^20) (w : Word) : Within (s.setWord t i w) := by
  refine ⟨h.next, fun f hf j => ?_⟩
  change Function.update s.words t _ f j = 0
  rw [Function.update_of_ne (by omega)]
  exact h.high f hf j

theorem memAlloc_next (h : s.startPa ≤ 4096*(2^19+2^20))
    (hlow : mapNr (memAlloc pageSize true s).1 < 2^19+2^20) :
    (memAlloc pageSize true s).2.startPa ≤ 4096*(2^19+2^20) := by
  have hp : (s.startPa+(pageSize-1)) &&& pageMask 0 = (s.startPa+4095)/4096*4096 := by
    rw [← addrMask_eq, land_addrMask (by rw [pageSize]; omega), pageSize]
  have halloc : memAlloc pageSize true s =
      ((s.startPa+4095)/4096*4096, { s with startPa := (s.startPa+4095)/4096*4096+4096 }) := by
    rw [memAlloc, if_pos rfl, hp, pageSize]
  rw [halloc, mapNr_eq, frameOf, pageSize] at hlow
  rw [halloc]
  dsimp only at hlow ⊢
  omega

theorem within_getTable (h : Within s) (hrun : BootTables.getTable t i s = some (g, s')) : Within s' := by
  rw [BootTables.getTable] at hrun
  split at hrun
  next => cases hrun
  next t' ht =>
    have htlow := (earlyFrame_some ht).2
    split at hrun
    next =>
      obtain ⟨-, rfl⟩ := Prod.mk.inj (Option.some.inj hrun)
      exact h
    next =>
      dsimp only at hrun
      split at hrun
      next => cases hrun
      next f hf =>
        obtain ⟨hnr, hlow⟩ := earlyFrame_some hf
        obtain ⟨-, rfl⟩ := Prod.mk.inj (Option.some.inj hrun)
        have hblank : Within { (memAlloc pageSize true s).2 with
            words := Function.update (memAlloc pageSize true s).2.words f fun _ => 0 } := by
          refine ⟨memAlloc_next h.next hnr, fun x hx j => ?_⟩
          change Function.update s.words f _ x j = 0
          rw [Function.update_of_ne (by omega)]
          exact h.high x hx j
        exact within_setWord hblank htlow _

theorem within_fillTable {e count v pa : ℕ} {perm : Word} (h : Within s) (ht : t < 2^20) :
    Within (BootTables.fillTable t e perm count i v pa s).2.2 := by
  induction count generalizing i v pa s with
  | zero => exact h
  | succ count ih =>
    rw [BootTables.fillTable]
    split
    · exact h
    · exact ih (within_setWord h ht _)

theorem within_mapFrom {e rounds v pa : ℕ} {perm : Word} (h : Within s)
    (hrun : BootTables.mapFrom root e perm rounds v pa s = some s') : Within s' := by
  induction rounds generalizing v pa s with
  | zero =>
    rw [BootTables.mapFrom] at hrun
    split at hrun
    next => cases hrun
    next =>
      obtain rfl := Option.some.inj hrun
      exact h
  | succ rounds ih =>
    rw [BootTables.mapFrom] at hrun
    split at hrun
    next =>
      split at hrun
      next => cases hrun
      next h₁ =>
        split at hrun
        next => cases hrun
        next h₂ =>
          split at hrun
          next => cases hrun
          next h₃ =>
            split at hrun
            next => cases hrun
            next ht =>
              have hw := within_getTable (within_getTable (within_getTable h h₁) h₂) h₃
              exact ih (within_fillTable hw (earlyFrame_some ht).2) hrun
    next =>
      obtain rfl := Option.some.inj hrun
      exact h

theorem within_mapAll {cs : List Call} (h : Within s) (hrun : mapAll root cs s = some s') : Within s' := by
  induction cs generalizing s with
  | nil =>
    obtain rfl := Option.some.inj hrun
    exact h
  | cons c cs ih =>
    rw [mapAll] at hrun
    split at hrun
    next => cases hrun
    next hcall => exact ih (within_mapFrom h hcall) hrun

/-- The frame of the last table on the way to a page is one of those that were written. -/
theorem walk_within {v : ℕ} (h : Within s) (hwalk : walk s.words root v = some g) :
    ∃ t < 2^20, tableOf (s.words t (pteIndex v)) = g := by
  rw [walk] at hwalk
  dsimp only at hwalk
  split at hwalk
  next =>
    split at hwalk
    next =>
      split at hwalk
      next =>
        split at hwalk
        next hpresent =>
          refine ⟨_, Nat.lt_of_not_le fun hc => ?_, Option.some.inj hwalk⟩
          rw [h.high _ hc] at hpresent
          exact absurd hpresent (by decide)
        next => cases hwalk
      next => cases hwalk
    next => cases hwalk
  next => cases hwalk

end Large

theorem within_initPageMap {img : Image} {rs : List Range} {root : ℕ} {s : Bootmem} (hlast : img.last ≤ 2^31)
    (hrun : initPageMap img rs (fun _ _ => 0) = some (root, s)) : Within s := by
  rw [initPageMap] at hrun
  dsimp only at hrun
  split at hrun
  next => cases hrun
  next f hf =>
    obtain ⟨s₁, hall, heq⟩ := Option.map_eq_some_iff.mp hrun
    obtain ⟨-, rfl⟩ := Prod.mk.inj heq
    obtain ⟨hnr, hlow⟩ := earlyFrame_some hf
    refine within_mapAll ?_ hall
    refine ⟨memAlloc_next (by dsimp only; omega) hnr, fun x hx j => ?_⟩
    change Function.update (fun _ _ => (0 : Word)) f _ x j = 0
    rw [Function.update_of_ne (by omega)]

theorem blocksFrom_mem {n k pa : ℕ} (hk : k < n) : pa+Layout.blockSize*k ∈ blocksFrom n pa := by
  induction n generalizing k pa with
  | zero => cases hk
  | succ n ih =>
    rw [blocksFrom]
    cases k with
    | zero => exact List.mem_cons_self ..
    | succ k =>
      have hstep : pa+Layout.blockSize*(k+1) = pa+Layout.blockSize+Layout.blockSize*k := by ring
      rw [hstep]
      exact List.mem_cons_of_mem _ (ih (by omega))

/-- The blocks of one range from 0 on. -/
theorem whole_range_blocks {i k m : ℕ} (hik : i ≤ k) (hkm : k < m) (hm : m < 2^30) :
    blockAddr maxOrder k ∈ bootBlocks [⟨0, blockAddr maxOrder m, 1⟩] (blockAddr maxOrder i) := by
  have hdown : blockAddr maxOrder m &&& pageMask maxOrder = blockAddr maxOrder m := by
    rw [alignDown_eq (by rw [topBlock]; omega), blockSize_eq, topBlock, topBlock, Nat.mul_div_cancel _ (by decide)]
  rw [bootBlocks]
  dsimp only
  rw [Nat.zero_add, if_pos ⟨rfl, by rw [topBlock, topBlock]; omega⟩, if_neg (Nat.not_lt_zero _), hdown, rangeBlocks]
  apply List.mem_append_left
  have haddr : blockAddr maxOrder k = blockAddr maxOrder i+Layout.blockSize*(k-i) := by
    rw [topBlock, topBlock, blockSize_eq]
    omega
  rw [haddr]
  apply blocksFrom_mem
  rw [topBlock, topBlock, blockSize_eq]
  omega

/-- Four terabytes need more page tables than there are frames that the window reaches. -/
theorem page_tables_overrun : ¬ ∃ root s, initPageMap smallImage [⟨0, 2^42, 1⟩] (fun _ _ => 0) = some (root, s) ∧
    HandedOver smallImage [⟨0, 2^42, 1⟩] root s := by
  rintro ⟨root, s, hrun, h⟩
  have hwithin := within_initPageMap (by decide) hrun
  have hnext := hwithin.next
  obtain ⟨i, hbase, -, hlt⟩ := areaBase_spec smallImage [⟨0, 2^42, 1⟩] (by omega : s.startPa < 2^46)
  have hmapped := h.mapped
  rw [hbase] at hlt hmapped
  rw [topBlock] at hlt
  have hlen : blockAddr maxOrder (2^20) = 2^42 := by decide
  -- the first pages of the tables from 32 GiB on
  have htable : ∀ q, ∃ t, q < 2^20+1 → t < 2^20 ∧ tableOf (s.words t 0) = 512*(2^14+q) := by
    intro q
    by_cases hq : q < 2^20+1
    · have hblock := whole_range_blocks (by omega : i ≤ (2^14+q)/2) (by omega : (2^14+q)/2 < 2^20) (by decide)
      rw [hlen] at hblock
      have hwalk := hmapped _ hblock (512*(2^14+q)) (by rw [topBlock]; omega) (by rw [topBlock, blockSize_eq]; omega)
      have hindex : pteIndex (kernelBase+4096*(512*(2^14+q))) = 0 := by
        rw [pteIndex_eq, kernelBase]
        omega
      obtain ⟨t, ht, hword⟩ := walk_within hwithin hwalk
      rw [hindex] at hword
      exact ⟨t, fun _ => ⟨ht, hword⟩⟩
    · exact ⟨0, fun hc => absurd hc hq⟩
  choose t ht using htable
  have hcard : (Finset.range (2^20)).card < (Finset.range (2^20+1)).card := by
    rw [Finset.card_range, Finset.card_range]
    exact Nat.lt_succ_self _
  obtain ⟨x, hx, y, hy, hne, hsame⟩ := Finset.exists_ne_map_eq_of_card_lt_of_maps_to hcard
    (fun q hq => Finset.mem_range.mpr (ht q (Finset.mem_range.mp hq)).1)
  have hleft := (ht x (Finset.mem_range.mp hx)).2
  have hright := (ht y (Finset.mem_range.mp hy)).2
  rw [hsame, hright] at hleft
  omega

end BabyOS.BootMemory

import BabyOS.AreaHistory
import BabyOS.AreaInsertion

/-!
# What `do_mmap` answers

The walk of `get_unmapped_area` finds a hole above its start, gives up, or runs off
the end of the list; a call of `do_mmap` is compared with what its result says.
-/

set_option autoImplicit false

namespace BabyOS.AreaMappings
open BabyOS.BuddyMachine BabyOS.OrderedRanges BabyOS.RangeMaps BabyOS.AreaMachine
open BabyOS.AreaInvariant BabyOS.AreaOperations BabyOS.AreaAttributes BabyOS.AreaHistory
open BabyOS.AreaNodes BabyOS.AreaNodes.Space BabyOS.AreaLinks BabyOS.AreaInsertion

/-! ## The walk -/

theorem unmappedFrom_areas (s : Space) (len : ℕ) {l : List ℕ} {n : ℕ} (hn : l.length < n) (addr : ℕ)
    (h : Links s l none) :
    s.unmappedFrom len n addr l.head? = AreaMachine.unmappedFrom len addr (areas s l) := by
  induction l generalizing n addr with
  | nil =>
    obtain ⟨m, rfl⟩ : ∃ m, n = m+1 := ⟨n-1, by simp at hn; omega⟩
    rfl
  | cons x l ih =>
    obtain ⟨m, rfl⟩ : ∃ m, n = m+1 := ⟨n-1, by simp at hn; omega⟩
    obtain ⟨hx, hrest⟩ := h
    rw [Option.or_none] at hx
    rw [List.head?_cons, Space.unmappedFrom, areas_cons, AreaMachine.unmappedFrom, hx,
      ih (by simp at hn; omega) _ hrest]

theorem getUnmappedArea_areas {s : Space} {l : List ℕ} (h : Holds s l) (len : ℕ) :
    s.getUnmappedArea len = AreaMachine.getUnmappedArea (areas s l) len := by
  obtain ⟨before, after, rfl, hlist, hnodes⟩ := AreaLinks.findVma_cut h vmUnmappedBase
  have hlen := h.length_le
  rw [List.length_append] at hlen
  rw [Space.getUnmappedArea, AreaMachine.getUnmappedArea, hlist, hnodes]
  exact unmappedFrom_areas s len (by omega) _ (links_append.mp h.links).2

/-- The walk gives up or finds a hole. -/
theorem unmapped_vacant {len : ℕ} {l : Areas} (h : WellFormed l) {addr : ℕ} (ha : addr ≤ userVmSize)
    (hlen : len ≤ userVmSize) (habove : ∀ u ∈ l, addr < u.mEnd) :
    AreaMachine.unmappedFrom len addr l = 0 ∨
      (addr ≤ AreaMachine.unmappedFrom len addr l ∧ AreaMachine.unmappedFrom len addr l ≤ userVmSize ∧
        Vacant Vma.mStart Vma.mEnd (AreaMachine.unmappedFrom len addr l)
          (AreaMachine.unmappedFrom len addr l+len) l) := by
  induction l generalizing addr with
  | nil => exact Or.inr ⟨le_rfl, ha, by simp [Vacant]⟩
  | cons vma rest ih =>
    obtain ⟨⟨hv, hb⟩, hrest, hafter⟩ := wellFormed_cons.mp h
    rw [AreaMachine.unmappedFrom]
    split
    · exact Or.inl rfl
    split
    next hfit =>
      have hwrap : (addr+len) % 2 ^ 64 = addr+len := by
        apply Nat.mod_eq_of_lt
        simp only [userVmSize] at hlen ha
        omega
      rw [hwrap] at hfit
      refine Or.inr ⟨le_rfl, ha, fun u hu => Or.inr ?_⟩
      rcases List.mem_cons.mp hu with rfl | hu
      · exact hfit
      · exact hfit.trans (hv.le.trans (hafter u hu))
    next =>
      have hnext : ∀ u ∈ rest, vma.mEnd < u.mEnd := fun u hu => (hafter u hu).trans_lt (hrest.1.1 u hu)
      rcases ih hrest hb.2.2 hnext with hzero | ⟨hlow, hle, hvac⟩
      · exact Or.inl hzero
      · have hup := habove vma List.mem_cons_self
        refine Or.inr ⟨by omega, hle, fun u hu => ?_⟩
        rcases List.mem_cons.mp hu with rfl | hu
        · exact Or.inl hlow
        · exact hvac u hu

/-- When the walk gives up it has met an area after the last address with room. -/
theorem unmapped_zero {len : ℕ} {l : Areas} (h : WellFormed l) {addr : ℕ} (hpos : addr ≠ 0)
    (hlen : len ≤ userVmSize) (hzero : AreaMachine.unmappedFrom len addr l = 0) :
    ∃ v ∈ l, userVmSize < addr+len ∨ ∃ u ∈ l, u.mEnd ≤ v.mStart ∧ userVmSize < u.mEnd+len := by
  induction l generalizing addr with
  | nil => exact absurd hzero hpos
  | cons vma rest ih =>
    obtain ⟨⟨hv, hb⟩, hrest, hafter⟩ := wellFormed_cons.mp h
    rw [AreaMachine.unmappedFrom] at hzero
    split at hzero
    next hhigh => exact ⟨vma, List.mem_cons_self, Or.inl (by omega)⟩
    split at hzero
    · exact absurd hzero hpos
    · obtain ⟨v, hvr, hreach | ⟨u, hu, huv, hreach⟩⟩ := ih hrest (by omega) hzero
      · exact ⟨v, List.mem_cons_of_mem vma hvr, Or.inr ⟨vma, List.mem_cons_self, hafter v hvr, hreach⟩⟩
      · exact ⟨v, List.mem_cons_of_mem vma hvr, Or.inr ⟨u, List.mem_cons_of_mem vma hu, huv, hreach⟩⟩

/-- What `get_unmapped_area` finds: a hole at or above its base, which lies inside
user memory exactly when there is one there. -/
theorem getUnmapped_exact {l : Areas} (h : WellFormed l) {len : ℕ} (hlen : len ≤ userVmSize) :
    (AreaMachine.getUnmappedArea l len = 0 ∨
      (AreaMachine.getUnmappedArea l len ≤ userVmSize ∧
        Vacant Vma.mStart Vma.mEnd (AreaMachine.getUnmappedArea l len)
          (AreaMachine.getUnmappedArea l len+len) l)) ∧
    (AreaMachine.getUnmappedArea l len = 0 ∨ AreaMachine.getUnmappedArea l len+len ≤ userVmSize ↔
      Room vmUnmappedBase len l ∨ Exhausted vmUnmappedBase len l) := by
  have hroom := fun hgood => (getUnmapped_room h hlen hgood).2
  obtain ⟨before, after, hcut⟩ : ∃ before after, AreaMachine.findVma l vmUnmappedBase = (before, after) :=
    ⟨_, _, rfl⟩
  have hl : before++after = l := by
    obtain ⟨rfl, rfl⟩ := Prod.mk.inj hcut
    exact List.takeWhile_append_dropWhile
  have hlow : ∀ u ∈ before, u.mEnd ≤ vmUnmappedBase := by
    obtain ⟨rfl, rfl⟩ := Prod.mk.inj hcut
    exact below_takeWhile vmUnmappedBase l
  have habove : ∀ u ∈ after, vmUnmappedBase < u.mEnd := by
    obtain ⟨rfl, rfl⟩ := Prod.mk.inj hcut
    exact cut_above vmUnmappedBase h.1
  have hafter : WellFormed after := (wellFormed_append.mp (hl.symm ▸ h)).2.1
  have hmem : ∀ u ∈ after, u ∈ l := fun u hu => hl ▸ List.mem_append_right before hu
  have hfound := unmapped_vacant hafter (by decide : vmUnmappedBase ≤ userVmSize) hlen habove
  have hzero := unmapped_zero hafter (by decide : vmUnmappedBase ≠ 0) hlen
  rw [AreaMachine.getUnmappedArea, hcut] at hroom ⊢
  simp only at hroom hfound hzero ⊢
  generalize AreaMachine.unmappedFrom len vmUnmappedBase after = r at hroom hfound hzero ⊢
  have hvacant : r = 0 ∨ (vmUnmappedBase ≤ r ∧ r ≤ userVmSize ∧ Vacant Vma.mStart Vma.mEnd r (r+len) l) := by
    refine hfound.imp id fun hin => ⟨hin.1, hin.2.1, fun u hu => ?_⟩
    rw [← hl] at hu
    rcases List.mem_append.mp hu with hu | hu
    · exact Or.inl ((hlow u hu).trans hin.1)
    · exact hin.2.2 u hu
  refine ⟨hvacant.imp id And.right, ?_, hroom⟩
  intro hgood
  by_cases hr : r = 0
  · right
    obtain ⟨v, hv, hreach⟩ := hzero hr
    refine ⟨v, hmem v hv, habove v hv, hreach.imp id ?_⟩
    rintro ⟨u, hu, huv⟩
    exact ⟨u, hmem u hu, huv⟩
  · obtain ⟨hbase, -, hvac⟩ := hvacant.resolve_left hr
    exact Or.inl ⟨r, hbase, hgood.resolve_left hr, hvac⟩

/-! ## The new area -/

/-- A new object over a vacant range goes in. -/
theorem mmapAt_holds {s : Space} {l : List ℕ} (h : Holds s l) (hsorted : Sorted (areas s l)) {fresh : ℕ}
    (hfresh : fresh ∉ s.live) {addr len : ℕ} (prot : ℕ) (hpos : len ≠ 0) (hwrap : addr+len < 2 ^ 64)
    (hvac : Vacant Vma.mStart Vma.mEnd addr (addr+len) (areas s l)) :
    (s.mmapAt addr len prot fresh).1 = addr ∧ ∃ ids, Holds (s.mmapAt addr len prot fresh).2 ids ∧
      Sorted (areas (s.mmapAt addr len prot fresh).2 ids) ∧
      ∀ a, attributesAt (areas (s.mmapAt addr len prot fresh).2 ids) a =
        if addr ≤ a ∧ a < addr+len then some (mmapAttributes prot) else attributesAt (areas s l) a := by
  obtain ⟨v, hv⟩ : ∃ v : Vma, (⟨addr, (addr+len) % 2 ^ 64, prot,
      prot &&& (vmRead ||| vmWrite ||| vmExec)⟩ : Vma) = v := ⟨_, rfl⟩
  obtain ⟨s₀, hs₀⟩ : ∃ s₀, (((s.alloc fresh).setArea fresh v).setNext fresh none).setStack fresh false = s₀ :=
    ⟨_, rfl⟩
  have hnode : ∀ y, y ≠ fresh → s₀.area y = s.area y ∧ s₀.next y = s.next y := by
    intro y hy
    simp [← hs₀, area, next, hy]
  obtain ⟨hok, ids, hholds, hids⟩ := insertFresh_refines h hfresh (by simp [← hs₀]) (by simp [← hs₀]) hnode
  have harea : s₀.area fresh = v := by simp [← hs₀, area]
  have hstart : v.mStart = addr := by rw [← hv]
  have hend : v.mEnd = addr+len := by rw [← hv]; exact Nat.mod_eq_of_lt hwrap
  rw [harea] at hok hids
  rw [Space.mmapAt]
  simp only [hv, hs₀]
  cases hs : AreaMachine.insertVma (areas s l) v with
  | none =>
    obtain ⟨u, hu, hlow, hhigh⟩ := (insertVma_eq_none hsorted).mp hs
    have := hvac u hu
    omega
  | some l' =>
    rw [hs] at hok hids
    obtain ⟨hsorted', hmap⟩ := insertVma_attributes hsorted (by omega) hs
    rw [hok]
    refine ⟨rfl, ids, hholds, ?_, fun a => ?_⟩
    · show Sorted (areas (s₀.insertVma fresh).2 ids)
      rw [hids]
      exact hsorted'
    · show attributesAt (areas (s₀.insertVma fresh).2 ids) a = _
      have hin : Contains v a ↔ addr ≤ a ∧ a < addr+len := by
        rw [← hend, ← hstart]
        rfl
      have hprot : attributes v = mmapAttributes prot := by rw [← hv]; rfl
      rw [hids, Option.getD_some, hmap, if_congr hin rfl rfl, hprot]

/-! ## `do_mmap` -/

/-- What a call that returned `r` has to have done. -/
def MmapSound (s : Space) (l : List ℕ) (addr len prot flags : ℕ) (r : ℕ × Space) : Prop :=
  (r.1 = minusOne ∧ Holds r.2 l ∧ areas r.2 l = areas s l ∧ r.2.live = s.live) ∨
  (pageSize ∣ r.1 ∧ ∃ L ids, len ≤ L ∧ L < len+pageSize ∧ Holds r.2 ids ∧ Sorted (areas r.2 ids) ∧
    (∀ a, attributesAt (areas r.2 ids) a =
      if r.1 ≤ a ∧ a < r.1+L then some (mmapAttributes prot) else attributesAt (areas s l) a) ∧
    (∀ a, r.1 ≤ a → a < r.1+L → attributesAt (areas s l) a = none) ∧
    (flags &&& mapFixed ≠ 0 → r.1 = addr) ∧ r.1+L ≤ userVmSize)

/-- The requests that get a sound answer: no length and an address that may be one, the
value -1 for an address, and lengths that round to pages for which, when the address
is left to the call, there is room or the walk gives up. -/
def MmapServed (l : Areas) (addr len flags : ℕ) : Prop :=
  (len = 0 ∧ pageSize ∣ addr ∧ addr ≤ userVmSize) ∨ (pageAlign len = 0 ∧ addr = minusOne) ∨
    (pageAlign len ≠ 0 ∧ MmapClear l addr len flags)

section Mmap

variable {s : Space} {l : List ℕ} {addr len : ℕ}

theorem mmapSound_refused (h : Holds s l) (prot flags : ℕ) :
    MmapSound s l addr len prot flags (minusOne, s) :=
  Or.inl ⟨rfl, h, rfl, rfl⟩

/-- Nothing is mapped. -/
theorem mmapSound_empty (h : Holds s l) (hsorted : Sorted (areas s l)) (hlen : pageAlign len = 0)
    (hsmall : len < 2 ^ 64) (prot flags : ℕ) :
    MmapSound s l addr len prot flags (addr, s) ↔
      (len = 0 ∧ pageSize ∣ addr ∧ addr ≤ userVmSize) ∨ addr = minusOne := by
  constructor
  · rintro (⟨hminus, -⟩ | ⟨hdvd, L, -, hle, -, -, -, -, -, -, hend⟩)
    · exact Or.inr hminus
    · left
      simp only at hdvd hend
      refine ⟨?_, hdvd, by omega⟩
      by_contra hpos
      have hbig : len+pageSize ≤ 2 ^ 64 := by
        by_contra hwrap
        rw [userVmSize] at hend
        rw [pageSize] at hwrap
        omega
      have := pageAlign_bounds hbig
      omega
  · rintro (⟨rfl, hdvd, hle⟩ | hminus)
    · refine Or.inr ⟨hdvd, 0, l, le_rfl, by decide, h, hsorted, fun a => ?_, fun a => ?_, fun _ => rfl, hle⟩
      · rw [if_neg (by simp only; omega)]
      · intro hlow hhigh
        simp only at hlow hhigh
        omega
    · exact Or.inl ⟨hminus, h, rfl, rfl⟩

/-- A new area over a vacant range: the answer is sound when the range ends inside user
memory. -/
theorem mmapSound_at (h : Holds s l) (hw : WellFormed (areas s l)) {fresh : ℕ} (hfresh : fresh ∉ s.live)
    {start : ℕ} (prot flags : ℕ) (hpos : pageAlign len ≠ 0) (hsmall : len < 2 ^ 64)
    (hstart : pageSize ∣ start) (hle : start ≤ userVmSize) (hpages : pageAlign len ≤ userVmSize)
    (hvac : Vacant Vma.mStart Vma.mEnd start (start+pageAlign len) (areas s l))
    (hfixed : flags &&& mapFixed ≠ 0 → start = addr) :
    MmapSound s l addr len prot flags (s.mmapAt start (pageAlign len) prot fresh) ↔
      start+pageAlign len ≤ userVmSize := by
  have hwrap : start+pageAlign len < 2 ^ 64 := by
    rw [userVmSize] at hle hpages
    omega
  obtain ⟨hanswer, ids, hholds, hsorted, hmap⟩ := mmapAt_holds h hw.1 hfresh prot hpos hwrap hvac
  have hnone := (vacant_iff (g := attributes) hw.1.1 (by omega)).mp hvac
  have hround : len ≤ pageAlign len ∧ pageAlign len < len+pageSize := by
    apply pageAlign_bounds
    by_contra hbig
    exact hpos (pageAlign_wrap (by omega) hsmall)
  rw [MmapSound, hanswer]
  constructor
  · rintro (⟨hminus, -⟩ | ⟨-, L, ids', hlow, hhigh, hholds', -, hmap', -, -, hend⟩)
    · rw [hminus, minusOne, userVmSize] at hle
      omega
    · -- the map tells how long the new range is
      obtain rfl := hholds.unique hholds'
      by_contra hbig
      have hthere := hmap' (start+L)
      rw [hmap, if_pos (by omega), if_neg (by omega)] at hthere
      have hold : attributesAt (areas s l) (start+L) = none := hnone _ (by omega) (by omega)
      rw [hold] at hthere
      cases hthere
  · intro hend
    exact Or.inr ⟨hstart, pageAlign len, ids, hround.1, hround.2, hholds, hsorted, hmap, hnone, hfixed, hend⟩

/-- `do_mmap` answers soundly exactly the requests it can serve. -/
theorem mmap_sound_iff (h : Holds s l) (hw : WellFormed (areas s l)) (hsmall : len < 2 ^ 64)
    (prot flags : ℕ) {fresh : ℕ} (hfresh : fresh ∉ s.live) :
    MmapSound s l addr len prot flags (s.doMmap addr len prot flags fresh) ↔
      MmapServed (areas s l) addr len flags := by
  simp only [Space.doMmap, MmapServed]
  by_cases hlen : pageAlign len = 0
  · rw [if_pos hlen, mmapSound_empty h hw.1 hlen hsmall]
    simp [hlen]
  have hnotzero : len ≠ 0 := by
    rintro rfl
    exact hlen rfl
  have hserved : (len = 0 ∧ pageSize ∣ addr ∧ addr ≤ userVmSize) ∨ (pageAlign len = 0 ∧ addr = minusOne) ∨
      (pageAlign len ≠ 0 ∧ MmapClear (areas s l) addr len flags) ↔ MmapClear (areas s l) addr len flags := by
    simp [hlen, hnotzero]
  rw [if_neg hlen, hserved]
  by_cases hrange : MmapRange addr (pageAlign len)
  swap
  · rw [if_pos hrange]
    exact iff_of_true (mmapSound_refused h prot flags) fun _ _ hin => absurd hin hrange
  rw [if_neg (not_not.mpr hrange)]
  have hbounds := hrange
  simp only [MmapRange, not_or, not_lt] at hbounds
  obtain ⟨hpages, haddr, hfits⟩ := hbounds
  by_cases hfixed : flags &&& mapFixed = 0
  · rw [if_neg (not_not.mpr hfixed)]
    obtain ⟨hfound, hexact⟩ := getUnmapped_exact hw hpages
    have haligned : pageSize ∣ AreaMachine.getUnmappedArea (areas s l) (pageAlign len) := by
      rw [AreaMachine.getUnmappedArea]
      apply unmapped_aligned _ (by decide)
      have hcut : (AreaMachine.findVma (areas s l) vmUnmappedBase).1++
          (AreaMachine.findVma (areas s l) vmUnmappedBase).2 = areas s l := List.takeWhile_append_dropWhile
      exact (wellFormed_append.mp (hcut.symm ▸ hw)).2.1
    have hclear : MmapClear (areas s l) addr len flags ↔
        Room vmUnmappedBase (pageAlign len) (areas s l) ∨
          Exhausted vmUnmappedBase (pageAlign len) (areas s l) :=
      ⟨fun hall => hall hfixed hlen hrange, fun hgood _ _ _ => hgood⟩
    rw [hclear, ← hexact, getUnmappedArea_areas h]
    by_cases hzero : AreaMachine.getUnmappedArea (areas s l) (pageAlign len) = 0
    · rw [if_pos hzero]
      exact iff_of_true (mmapSound_refused h prot flags) (Or.inl hzero)
    · obtain ⟨hle, hvac⟩ := hfound.resolve_left hzero
      rw [if_neg hzero, or_iff_right hzero]
      exact mmapSound_at h hw hfresh prot flags hlen hsmall haligned hle hpages hvac
        fun hset => absurd hfixed hset
  · rw [if_pos hfixed]
    refine iff_of_true ?_ fun hset => absurd hset hfixed
    split
    · exact mmapSound_refused h prot flags
    next haligned =>
    have hdvd : pageSize ∣ addr := Nat.dvd_of_mod_eq_zero (not_not.mp haligned)
    obtain ⟨before, after, rfl, hlist, hnodes⟩ := AreaLinks.findVma_cut h addr
    rw [hnodes]
    have hat : Vacant Vma.mStart Vma.mEnd addr (addr+pageAlign len) (areas s (before++after)) →
        MmapSound s (before++after) addr len prot flags (s.mmapAt addr (pageAlign len) prot fresh) :=
      fun hvac => (mmapSound_at h hw hfresh prot flags hlen hsmall hdvd haddr hpages hvac
        fun _ => rfl).mpr (by omega)
    cases after with
    | nil => exact hat fun u hu => Or.inl (findVma_none hlist u hu)
    | cons p rest =>
      simp only [List.head?_cons]
      split
      · exact mmapSound_refused h prot flags
      next hbelow =>
        apply hat
        rw [areas_cons] at hlist
        obtain ⟨hl, -, hlow, -⟩ := AreaOperations.findVma_cut hw hlist
        intro u hu
        rw [hl] at hu hw
        obtain ⟨-, hp, -⟩ := wellFormed_append.mp hw
        obtain ⟨⟨hlt, -⟩, hrest, hafter⟩ := wellFormed_cons.mp hp
        rcases List.mem_append.mp hu with hu | hu
        · exact Or.inl (hlow u hu)
        · rcases List.mem_cons.mp hu with rfl | hu
          · exact Or.inr (not_lt.mp hbelow)
          · have := hafter u hu
            exact Or.inr (by omega)

end Mmap

/-- An address space without areas, and a cache that has handed out nothing. -/
def vacantSpace : Space := ⟨none, fun _ => ⟨userStack, none, false⟩, [], []⟩

theorem vacantSpace_holds : Holds vacantSpace [] := ⟨rfl, trivial, List.nodup_nil, by simp⟩

theorem mmap_sound_vacant :
    MmapSound vacantSpace [] 0x400000 0x1800 3 mapFixed (vacantSpace.doMmap 0x400000 0x1800 3 mapFixed 0) :=
  (mmap_sound_iff vacantSpace_holds wellFormed_nil (by decide) 3 mapFixed (by simp [vacantSpace])).mpr
    (Or.inr (Or.inr ⟨by decide, fun hzero => absurd hzero (by decide)⟩))

/-- A length in the last page of `uint64` rounds to 0: the call returns the address it
was given and maps nothing. -/
theorem mmap_wrapped : ¬ ∀ (s : Space) (l : List ℕ) (addr len prot flags fresh : ℕ), Holds s l →
    WellFormed (areas s l) → addr < 2 ^ 64 → len < 2 ^ 64 → fresh ∉ s.live →
    MmapSound s l addr len prot flags (s.doMmap addr len prot flags fresh) := by
  intro hall
  have hsound := hall vacantSpace [] 0x400000 (2 ^ 64-1) 3 0 0 vacantSpace_holds wellFormed_nil (by decide)
    (by decide) (by simp [vacantSpace])
  have hanswer : (vacantSpace.doMmap 0x400000 (2 ^ 64-1) 3 0 0).1 = 0x400000 := by decide +kernel
  rcases hsound with ⟨hminus, -⟩ | ⟨-, L, -, hlow, -, -, -, -, -, -, hend⟩
  · rw [hanswer] at hminus
    exact absurd hminus (by decide)
  · rw [userVmSize] at hend
    omega

end BabyOS.AreaMappings

import BabyOS.AreaAttributes

/-!
# Attributes over a run of requests

A record says which request mapped each address. `do_mmap` asks for its protection,
`sys_brk` for read, write and execute. The areas agree with the record as long as
no object of the slab cache is linked with a field it held before and the heap
does not grow out of an area of another kind.
-/

set_option autoImplicit false

namespace BabyOS.AreaHistory
open BabyOS.BuddyMachine BabyOS.OrderedRanges BabyOS.RangeMaps BabyOS.AreaMachine
open BabyOS.AreaInvariant BabyOS.AreaOperations BabyOS.AreaAttributes

/-- What `sys_brk` asks for. -/
def heapAttributes : ℕ × ℕ := (vmRead ||| vmWrite ||| vmExec, vmRead ||| vmWrite ||| vmExec)

/-- What `do_mmap` asks for. -/
def mmapAttributes (prot : ℕ) : ℕ × ℕ := (prot &&& (vmRead ||| vmWrite ||| vmExec), prot)

/-- The attributes right below an address. -/
def below (l : Areas) (addr : ℕ) : Option (ℕ × ℕ) := if addr = 0 then none else attributesAt l (addr-1)

section Edits

variable {l : Areas} {addr len : ℕ}

theorem mmapAt_attributes (h : Sorted l) (hpos : len ≠ 0) (prot : ℕ) :
    Sorted (mmapAt l addr len prot).2 ∧
      ∀ a, attributesAt (mmapAt l addr len prot).2 a = attributesAt l a ∨
        attributesAt l a = none ∧
          attributesAt (mmapAt l addr len prot).2 a = some (mmapAttributes prot) := by
  rw [mmapAt]
  split
  · exact ⟨h, fun a => Or.inl rfl⟩
  next l' hs =>
    have hv : addr < addr+len := by omega
    obtain ⟨hsorted, hmap⟩ := insertVma_attributes h hv hs
    refine ⟨hsorted, fun a => ?_⟩
    rw [hmap]
    by_cases ha : Contains ⟨addr, addr+len, prot, prot &&& (vmRead ||| vmWrite ||| vmExec)⟩ a
    · right
      rw [if_pos ha]
      refine ⟨?_, rfl⟩
      -- an address that was mapped before would have stopped the insertion
      apply valueAt_eq_none.mpr
      intro u hu hin
      have hnone := (insertVma_eq_none h).mpr ⟨u, hu, hin.1.trans_lt ha.2, ha.1.trans_lt hin.2⟩
      rw [hs] at hnone
      cases hnone
    · left
      rw [if_neg ha]

theorem doMmap_attributes (h : Sorted l) (prot flags : ℕ) :
    Sorted (doMmap l addr len prot flags).2 ∧
      ∀ a, attributesAt (doMmap l addr len prot flags).2 a = attributesAt l a ∨
        attributesAt l a = none ∧
          attributesAt (doMmap l addr len prot flags).2 a = some (mmapAttributes prot) := by
  have hsame : Sorted l ∧ ∀ a, attributesAt l a = attributesAt l a ∨
      attributesAt l a = none ∧ attributesAt l a = some (mmapAttributes prot) :=
    ⟨h, fun a => Or.inl rfl⟩
  simp only [doMmap]
  split
  · exact hsame
  next hpos =>
  split
  · exact hsame
  split
  · split
    · exact hsame
    split
    · exact mmapAt_attributes h hpos prot
    split
    · exact hsame
    · exact mmapAt_attributes h hpos prot
  · split
    · exact hsame
    · exact mmapAt_attributes h hpos prot

/-- A call of `do_munmap` leaves the list alone, or cuts its range out of the one
area around it. -/
theorem doMunmap_cases (addr len : ℕ) (h : Sorted l) (obj : Vma) :
    (doMunmap l addr len obj).2 = l ∨
      ∃ before vma after, l = before++vma :: after ∧ vma.mStart ≤ addr ∧ addr+pageAlign len ≤ vma.mEnd ∧
        (addr % pageSize = 0 ∧ addr+len ≤ userVmSize ∧ pageAlign len ≠ 0) ∧
        (doMunmap l addr len obj).2 = before++splitVma vma obj addr (pageAlign len)++after := by
  simp only [doMunmap]
  split
  · exact Or.inl rfl
  next hrange =>
  split
  · exact Or.inl rfl
  next hpos =>
  split
  · exact Or.inl rfl
  next before vma after hfind =>
    split
    · exact Or.inl rfl
    · obtain ⟨hl, -⟩ := findVma_split h hfind
      exact Or.inr ⟨before, vma, after, hl, by omega, by omega, ⟨by omega, by omega, hpos⟩, rfl⟩

/-- The part of an area above the range a call takes out, if there is one, goes to
an object with the attributes of the area. -/
def MunmapKept (l : Areas) (addr len : ℕ) (obj : Vma) : Prop :=
  addr % pageSize = 0 → addr+len ≤ userVmSize → pageAlign len ≠ 0 →
    ∀ u ∈ l, u.mStart ≤ addr → addr+pageAlign len < u.mEnd → attributes obj = attributes u

/-- No area reaches beyond the range. -/
def MunmapWhole (l : Areas) (addr len : ℕ) : Prop :=
  addr % pageSize = 0 → addr+len ≤ userVmSize → pageAlign len ≠ 0 →
    ∀ u ∈ l, u.mStart ≤ addr → u.mEnd ≤ addr+pageAlign len

theorem MunmapWhole.kept (h : MunmapWhole l addr len) (obj : Vma) : MunmapKept l addr len obj := by
  intro ha hend hpos u hu hstart hlast
  have := h ha hend hpos u hu hstart
  omega

theorem doMunmap_kept (h : Sorted l) {obj : Vma} (hkept : MunmapKept l addr len obj) :
    Sorted (doMunmap l addr len obj).2 ∧
      ∀ a, attributesAt (doMunmap l addr len obj).2 a = attributesAt l a ∨
        addr ≤ a ∧ attributesAt (doMunmap l addr len obj).2 a = none := by
  rcases doMunmap_cases addr len h obj with
    hsame | ⟨before, vma, after, hl, hin, hend, ⟨ha, hfits, hpos⟩, hcut⟩
  · rw [hsame]
    exact ⟨h, fun a => Or.inl rfl⟩
  · subst hl
    rw [hcut]
    obtain ⟨hsplit, hinside⟩ := splitVma_sorted obj hin hend
    refine ⟨ordered_replace (by simpa using h) hsplit hinside, fun a => ?_⟩
    rw [cut_attributesAt obj h hin hend]
    split
    next hrange => exact Or.inr ⟨hrange.1, rfl⟩
    next hout =>
      left
      split
      next hupper =>
        have hobj := hkept ha hfits hpos vma (by simp) hin (by omega)
        rw [attributesAt_middle h, if_pos ⟨by omega, hupper.2⟩, hobj]
      next => rfl

/-- A range inside one area is vacant afterwards. -/
theorem doMunmap_inside (h : Sorted l) (obj : Vma) (ha : addr % pageSize = 0)
    (hend : addr+len ≤ userVmSize) (hpos : pageAlign len ≠ 0) {u : Vma} (hu : u ∈ l)
    (hstart : u.mStart ≤ addr) (hlast : addr+pageAlign len ≤ u.mEnd) :
    ∀ a, addr ≤ a → a < addr+pageAlign len → attributesAt (doMunmap l addr len obj).2 a = none := by
  intro a hlow hhigh
  have hrange : ¬ (addr % pageSize ≠ 0 ∨ addr > userVmSize ∨ len > userVmSize-addr) := by omega
  simp only [doMunmap, hrange, hpos, if_false]
  split
  next before hfind =>
    have := findVma_none hfind u hu
    omega
  next before vma after hfind =>
    obtain ⟨rfl, habove, hbelow, -⟩ := findVma_split h hfind
    have huv : u = vma := by
      obtain ⟨-, hva, -⟩ := sorted_append.mp h
      rcases List.mem_append.mp hu with hu | hu
      · have := hbelow u hu
        omega
      · rcases List.mem_cons.mp hu with rfl | hu
        · rfl
        · have := (sorted_cons.mp hva).2.2 u hu
          omega
    subst huv
    rw [if_neg (by omega), cut_attributesAt obj h hstart hlast, if_pos ⟨hlow, hhigh⟩]

/-- The heap grows over a vacant range: it takes over the attributes below, or has the
flags the new object had. -/
theorem extendBrk_vacant (h : Sorted l) (obj : Vma) (hpos : len ≠ 0)
    (hvac : Vacant Vma.mStart Vma.mEnd addr (addr+len) l) :
    Sorted (extendBrk l addr len obj) ∧
      ∀ a, attributesAt (extendBrk l addr len obj) a =
        if addr ≤ a ∧ a < addr+len then
          some ((below l addr).getD (obj.mFlags, vmRead ||| vmWrite ||| vmExec))
        else attributesAt l a := by
  have hnew : below l addr = none → Sorted ((insertVma l { obj with
        mStart := addr, mEnd := addr+len, mPageProt := vmRead ||| vmWrite ||| vmExec }).getD l) ∧
      ∀ a, attributesAt ((insertVma l { obj with
          mStart := addr, mEnd := addr+len, mPageProt := vmRead ||| vmWrite ||| vmExec }).getD l) a =
        if addr ≤ a ∧ a < addr+len then
          some ((below l addr).getD (obj.mFlags, vmRead ||| vmWrite ||| vmExec))
        else attributesAt l a := by
    intro hnone
    cases hs : insertVma l { obj with
        mStart := addr, mEnd := addr+len, mPageProt := vmRead ||| vmWrite ||| vmExec } with
    | none =>
      obtain ⟨u, hu, hlow, hhigh⟩ := (insertVma_eq_none h).mp hs
      have := hvac u hu
      simp only at hlow hhigh
      omega
    | some l' =>
      obtain ⟨hsorted, hmap⟩ := insertVma_attributes h (by simp only; omega) hs
      refine ⟨hsorted, fun a => ?_⟩
      rw [Option.getD_some, hmap, hnone]
      rfl
  simp only [extendBrk]
  split
  next haddr =>
    split
    next before p after hfind =>
      obtain ⟨rfl, habove, hlow, -⟩ := findVma_split h hfind
      have hp := sorted_append.mp h
      obtain ⟨hlt, hafter, hpa⟩ := sorted_cons.mp hp.2.1
      split
      next hmeet =>
        have hbelow : below (before++p :: after) addr = some (attributes p) := by
          rw [below, if_neg haddr, attributesAt_middle h, if_pos ⟨by omega, by omega⟩]
        have hgrown : Sorted (before++{ p with mEnd := addr+len } :: after) := by
          rw [sorted_append, sorted_cons]
          refine ⟨hp.1, ⟨by simp only; omega, hafter, fun u hu => ?_⟩, fun u hu v hv => ?_⟩
          · have hstart := hpa u hu
            have hu' := hafter.1 u hu
            have := hvac u (by simp [hu])
            simp only
            omega
          · rcases List.mem_cons.mp hv with rfl | hv
            · exact hp.2.2 u hu p List.mem_cons_self
            · exact hp.2.2 u hu v (List.mem_cons_of_mem p hv)
        refine ⟨hgrown, fun a => ?_⟩
        rw [attributesAt_middle hgrown, attributesAt_middle h, hbelow]
        by_cases hin : Contains p a
        · obtain ⟨hstart, hend⟩ := hin
          rw [if_pos ⟨hstart, by simp only; omega⟩, if_neg (by omega), if_pos ⟨hstart, hend⟩]
          rfl
        · by_cases hrange : addr ≤ a ∧ a < addr+len
          · rw [if_pos ⟨by simp only; omega, by simp only; omega⟩, if_pos hrange]
            rfl
          · have hout : ¬ Contains { p with mEnd := addr+len } a := by
              rintro ⟨hstart, hend⟩
              simp only at hstart hend
              exact hin ⟨hstart, by omega⟩
            rw [if_neg hout, if_neg hrange, if_neg hin]
      next hmeet =>
        apply hnew
        rw [below, if_neg haddr]
        apply valueAt_eq_none.mpr
        rintro u hu ⟨hstart, hend⟩
        have := hvac u hu
        -- an area with the address below ends at `addr`, so the search would have found it
        rcases List.mem_append.mp hu with hu | hu
        · have := hlow u hu
          omega
        · rcases List.mem_cons.mp hu with rfl | hu
          · omega
          · have := hpa u hu
            omega
    next before hfind =>
      apply hnew
      rw [below, if_neg haddr]
      apply valueAt_eq_none.mpr
      rintro u hu ⟨hstart, hend⟩
      have := findVma_none hfind u hu
      omega
  next haddr =>
    apply hnew
    rw [below, if_pos (not_not.mp haddr)]

/-- Over a range that is not vacant the heap does not grow unless an area ends where it
starts. -/
theorem extendBrk_refused (h : Sorted l) (obj : Vma)
    (hmeet : ¬ Vacant Vma.mStart Vma.mEnd addr (addr+len) l) (hno : ∀ u ∈ l, u.mEnd ≠ addr) :
    extendBrk l addr len obj = l := by
  have hnone : insertVma l { obj with
      mStart := addr, mEnd := addr+len, mPageProt := vmRead ||| vmWrite ||| vmExec } = none := by
    rw [Vacant] at hmeet
    push Not at hmeet
    obtain ⟨u, hu, hend, hstart⟩ := hmeet
    exact (insertVma_eq_none h).mpr ⟨u, hu, hstart, hend⟩
  simp only [extendBrk, hnone]
  split
  · split
    next before p after hfind =>
      obtain ⟨rfl, -⟩ := findVma_split h hfind
      rw [if_neg (hno p (by simp))]
      rfl
    next => rfl
  · rfl

/-- The range the heap gets: vacant, or inside one area, which gives it up. -/
def Grows (l : Areas) (addr len : ℕ) : Prop :=
  Vacant Vma.mStart Vma.mEnd addr (addr+len) l ∨ ∃ u ∈ l, u.mStart ≤ addr ∧ addr+len ≤ u.mEnd

/-- The heap grows with its own attributes, and a range it does not get starts at no
area's end. -/
def GrowthKept (l : Areas) (addr len : ℕ) (obj obj' : Vma) : Prop :=
  (Grows l addr len → MunmapKept l addr len obj ∧
    (below l addr).getD (obj'.mFlags, vmRead ||| vmWrite ||| vmExec) = heapAttributes) ∧
  (¬ Grows l addr len → ∀ u ∈ l, u.mEnd ≠ addr)

/-- The heap grows out of an area with its attributes, over nothing or the end of an
area. -/
def GrowthWhole (l : Areas) (addr len : ℕ) : Prop :=
  (Grows l addr len → MunmapWhole l addr len ∧ below l addr = some heapAttributes) ∧
  (¬ Grows l addr len → ∀ u ∈ l, u.mEnd ≠ addr)

theorem GrowthWhole.kept (h : GrowthWhole l addr len) (obj obj' : Vma) : GrowthKept l addr len obj obj' := by
  refine ⟨fun hgrows => ?_, h.2⟩
  obtain ⟨hwhole, hbelow⟩ := h.1 hgrows
  exact ⟨hwhole.kept obj, by rw [hbelow]; rfl⟩

theorem vacant_of_none (h : Sorted l) (hpos : len ≠ 0)
    (hnone : ∀ a, addr ≤ a → a < addr+len → attributesAt l a = none) :
    Vacant Vma.mStart Vma.mEnd addr (addr+len) l :=
  (vacant_iff h.1 (by omega)).mpr hnone

/-- What is left of a range the heap gets once `do_munmap` has been called. -/
theorem doMunmap_vacates (h : Sorted l) (obj : Vma) (ha : addr % pageSize = 0)
    (hpages : pageAlign len = len) (hend : addr+len ≤ userVmSize) (hpos : len ≠ 0)
    (hkept : MunmapKept l addr len obj) (hgrows : Grows l addr len) :
    Vacant Vma.mStart Vma.mEnd addr (addr+len) (doMunmap l addr len obj).2 := by
  obtain ⟨hsorted, hmap⟩ := doMunmap_kept h hkept
  apply vacant_of_none hsorted hpos
  intro a hlow hhigh
  rcases hgrows with hvac | ⟨u, hu, hstart, hlast⟩
  · have hold := (vacant_iff (g := attributes) h.1 (by omega)).mp hvac a hlow hhigh
    rcases hmap a with hsame | ⟨-, hnone⟩
    · rw [hsame]
      exact hold
    · exact hnone
  · rw [← hpages] at hlast hhigh
    exact doMunmap_inside h obj ha hend (by omega) hu hstart hlast a hlow hhigh

theorem below_doMunmap (h : Sorted l) {obj : Vma} (hkept : MunmapKept l addr len obj) :
    below (doMunmap l addr len obj).2 addr = below l addr := by
  rw [below, below]
  split
  · rfl
  next haddr =>
    rcases (doMunmap_kept h hkept).2 (addr-1) with hsame | ⟨hlow, -⟩
    · exact hsame
    · omega

theorem doMunmap_refuses (h : Sorted l) (obj : Vma) (hpages : pageAlign len = len)
    (hgrows : ¬ Grows l addr len) : (doMunmap l addr len obj).2 = l := by
  rcases doMunmap_cases addr len h obj with
    hsame | ⟨before, vma, after, rfl, hin, hlast, -, -⟩
  · exact hsame
  · rw [hpages] at hlast
    exact absurd (Or.inr ⟨vma, by simp, hin, hlast⟩) hgrows

/-- One growth of the heap, in two parts: what `do_munmap` leaves, and what is added. -/
theorem growth_attributes (h : Sorted l) {obj obj' : Vma} (ha : addr % pageSize = 0)
    (hpages : pageAlign len = len) (hend : addr+len ≤ userVmSize) (hpos : len ≠ 0)
    (hkept : GrowthKept l addr len obj obj') :
    Sorted (extendBrk (doMunmap l addr len obj).2 addr len obj') ∧
      ∀ a, (attributesAt (doMunmap l addr len obj).2 a = attributesAt l a ∨
          attributesAt (doMunmap l addr len obj).2 a = none) ∧
        (attributesAt (extendBrk (doMunmap l addr len obj).2 addr len obj') a =
            attributesAt (doMunmap l addr len obj).2 a ∨
          attributesAt (doMunmap l addr len obj).2 a = none ∧
            attributesAt (extendBrk (doMunmap l addr len obj).2 addr len obj') a = some heapAttributes) := by
  by_cases hgrows : Grows l addr len
  · obtain ⟨hmunmap, hbelow⟩ := hkept.1 hgrows
    obtain ⟨hsorted, hmap⟩ := doMunmap_kept h hmunmap
    have hvac := doMunmap_vacates h obj ha hpages hend hpos hmunmap hgrows
    obtain ⟨hgrown, hnew⟩ := extendBrk_vacant hsorted obj' hpos hvac
    refine ⟨hgrown, fun a => ⟨(hmap a).imp id And.right, ?_⟩⟩
    rw [hnew, below_doMunmap h hmunmap, hbelow]
    by_cases hrange : addr ≤ a ∧ a < addr+len
    · right
      rw [if_pos hrange]
      exact ⟨(vacant_iff (g := attributes) hsorted.1 (by omega)).mp hvac a hrange.1 hrange.2, rfl⟩
    · left
      rw [if_neg hrange]
  · have hsame := doMunmap_refuses h obj hpages hgrows
    have hmeet : ¬ Vacant Vma.mStart Vma.mEnd addr (addr+len) l := fun hvac => hgrows (Or.inl hvac)
    rw [hsame, extendBrk_refused h obj' hmeet (hkept.2 hgrows)]
    exact ⟨h, fun a => ⟨Or.inl rfl, Or.inl rfl⟩⟩

/-! ## No field is left as it was -/

theorem doMunmap_object (h : Sorted l) (hwhole : MunmapWhole l addr len) (obj obj₂ : Vma) :
    doMunmap l addr len obj = doMunmap l addr len obj₂ := by
  simp only [doMunmap]
  split
  · rfl
  next hrange =>
  split
  · rfl
  next hpos =>
  split
  · rfl
  next before vma after hfind =>
    split
    · rfl
    next hin =>
      obtain ⟨rfl, -⟩ := findVma_split h hfind
      have hlast := hwhole (by omega) (by omega) hpos vma (by simp) (by omega)
      have hend : addr+pageAlign len = vma.mEnd := by omega
      simp only [splitVma, hend, if_true]

theorem growth_object (h : Sorted l) (ha : addr % pageSize = 0) (hpages : pageAlign len = len)
    (hend : addr+len ≤ userVmSize) (hpos : len ≠ 0) (hwhole : GrowthWhole l addr len)
    (obj obj' obj₂ obj₂' : Vma) :
    extendBrk (doMunmap l addr len obj).2 addr len obj' =
      extendBrk (doMunmap l addr len obj₂).2 addr len obj₂' := by
  by_cases hgrows : Grows l addr len
  · obtain ⟨hmunmap, hbelow⟩ := hwhole.1 hgrows
    have hkept := hmunmap.kept obj
    have hsorted := (doMunmap_kept h hkept).1
    have hvac := doMunmap_vacates h obj ha hpages hend hpos hkept hgrows
    have hnext := below_doMunmap h hkept
    rw [hbelow, below] at hnext
    rw [doMunmap_object h hmunmap obj₂ obj]
    split at hnext
    · cases hnext
    next haddr =>
      -- the area with the address below ends where the heap goes on
      obtain ⟨u, hu, ⟨hstart, hlast⟩, -⟩ := valueAt_some hnext
      have hmeet := hvac u hu
      obtain ⟨before, after, -, hgrow⟩ := extendBrk_grow hsorted len hu (by omega : u.mEnd = addr)
      rw [hgrow, hgrow]
  · have hmeet : ¬ Vacant Vma.mStart Vma.mEnd addr (addr+len) l := fun hvac => hgrows (Or.inl hvac)
    rw [doMunmap_refuses h obj hpages hgrows, doMunmap_refuses h obj₂ hpages hgrows,
      extendBrk_refused h obj' hmeet (hwhole.2 hgrows), extendBrk_refused h obj₂' hmeet (hwhole.2 hgrows)]

end Edits

/-! ## Requests -/

/-- The length `do_brk` works with. -/
def growth (v : Vmm) (brk : ℕ) : ℕ := pageAlign ((pageAlign brk+2 ^ 64-pageAlign v.brk) % 2 ^ 64)

/-- The list when `sys_brk` comes to extend the heap. -/
def heapBase (v : Vmm) (brk : ℕ) (obj : Vma) : Areas :=
  if brk < v.startBrk ∨ brk < v.brk then v.mmap
  else if growth v brk ≠ 0 ∧ pageAlign v.brk+growth v brk ≤ userVmSize then
    (doMunmap v.mmap (pageAlign v.brk) (growth v brk) obj).2
  else v.mmap

/-- The list before the request adds anything to it. -/
def base (v : Vmm) : Op → Areas
  | .brk value obj _ => heapBase v value obj
  | .sbrk increment obj _ => heapBase v ((v.brk+increment) % 2 ^ 64) obj
  | .mmap _ _ _ _ => v.mmap
  | .munmap _ _ _ => v.mmap
  | .fault _ _ _ _ => v.mmap

/-- The attributes a request asks for. -/
def asked : Op → ℕ × ℕ
  | .mmap _ _ prot _ => mmapAttributes prot
  | _ => heapAttributes

/-- The record after a request: it mapped the addresses that are new. -/
def record (v : Vmm) (op : Op) (v' : Vmm) (want : ℕ → ℕ × ℕ) : ℕ → ℕ × ℕ :=
  fun a => if attributesAt (base v op) a = none ∧ attributesAt v'.mmap a ≠ none then asked op else want a

/-- Every address in an area has the attributes of the request that mapped it. -/
def Agrees (l : Areas) (want : ℕ → ℕ × ℕ) : Prop := ∀ u ∈ l, ∀ a, Contains u a → attributes u = want a

theorem agrees_iff {l : Areas} (h : Sorted l) {want : ℕ → ℕ × ℕ} :
    Agrees l want ↔ ∀ a p, attributesAt l a = some p → p = want a := by
  constructor
  · intro hall a p hp
    obtain ⟨u, hu, hin, rfl⟩ := valueAt_some hp
    exact hall u hu a hin
  · intro hall u hu a hin
    exact hall a _ (valueAt_mem h hu hin)

/-- An edit keeps or drops what was there, and adds addresses with attributes `p`. -/
structure Edit (l between l' : Areas) (p : ℕ × ℕ) : Prop where
  sorted : Sorted l'
  dropped : ∀ a, attributesAt between a = attributesAt l a ∨ attributesAt between a = none
  added : ∀ a, attributesAt l' a = attributesAt between a ∨ attributesAt l' a = none ∨
    attributesAt between a = none ∧ attributesAt l' a = some p

theorem edit_same {l : Areas} (h : Sorted l) (p : ℕ × ℕ) : Edit l l l p :=
  ⟨h, fun _ => Or.inl rfl, fun _ => Or.inl rfl⟩

theorem Edit.agrees {v v' : Vmm} {op : Op} {want : ℕ → ℕ × ℕ} (hl : Sorted v.mmap)
    (h : Edit v.mmap (base v op) v'.mmap (asked op)) (hwant : Agrees v.mmap want) :
    Agrees v'.mmap (record v op v' want) := by
  rw [agrees_iff hl] at hwant
  rw [agrees_iff h.sorted]
  intro a p hp
  rw [record]
  by_cases hbase : attributesAt (base v op) a = none
  · rw [if_pos ⟨hbase, by rw [hp]; simp⟩]
    rcases h.added a with hsame | hnone | ⟨-, hnew⟩
    · rw [hsame, hbase] at hp
      cases hp
    · rw [hnone] at hp
      cases hp
    · rw [hnew] at hp
      exact (Option.some.inj hp).symm
  · rw [if_neg fun hnew => hbase hnew.1]
    apply hwant
    rcases h.added a with hsame | hnone | ⟨hnone, -⟩
    · rcases h.dropped a with hold | hnone
      · rw [← hold, ← hsame, hp]
      · exact absurd hnone hbase
    · rw [hnone] at hp
      cases hp
    · exact absurd hnone hbase

/-- `do_brk` with the call of `do_munmap` taken apart. -/
theorem doBrk_eq (l : Areas) {addr : ℕ} (len : ℕ) (obj obj' : Vma) (ha : addr % pageSize = 0) :
    doBrk l addr len obj obj' =
      if pageAlign len = 0 then (some addr, l)
      else if addr+pageAlign len ≤ userVmSize then
        (some addr, extendBrk (doMunmap l addr (pageAlign len) obj).2 addr (pageAlign len) obj')
      else (none, l) := by
  simp only [doBrk]
  generalize pageAlign len = n
  by_cases hn : n = 0
  · rw [if_pos hn, if_pos hn]
  rw [if_neg hn, if_neg hn]
  by_cases hfits : addr+n ≤ userVmSize
  · have hrange : ¬ (addr % pageSize ≠ 0 ∨ addr > userVmSize ∨ n > userVmSize-addr) := by omega
    have hok : (doMunmap l addr n obj).1 = true := by
      simp only [doMunmap, hrange, if_false]
      split
      · rfl
      split
      · rfl
      split <;> rfl
    rw [if_pos hfits]
    generalize doMunmap l addr n obj = r at hok ⊢
    obtain ⟨ok, l'⟩ := r
    simp only at hok
    subst hok
    rfl
  · have hlong : n > userVmSize-addr ∨ addr > userVmSize := by omega
    have hrefused : doMunmap l addr n obj = (false, l) := by
      rw [doMunmap]
      rcases hlong with hlong | hlong
      · exact if_pos (Or.inr (Or.inr hlong))
      · exact if_pos (Or.inr (Or.inl hlong))
    rw [if_neg hfits, hrefused]

/-- `sys_brk` as it deals with the list: a decrease is a `do_munmap`, an increase is
refused or extends the heap. -/
theorem sysBrk_list (v : Vmm) (brk : ℕ) (obj obj' : Vma) :
    (sysBrk v brk obj obj').2.mmap =
      if brk < v.startBrk then v.mmap
      else if brk < v.brk then
        (doMunmap v.mmap (pageAlign brk) ((pageAlign v.brk+2 ^ 64-pageAlign brk) % 2 ^ 64) obj).2
      else if growth v brk ≠ 0 ∧ pageAlign v.brk+growth v brk ≤ userVmSize then
        extendBrk (doMunmap v.mmap (pageAlign v.brk) (growth v brk) obj).2 (pageAlign v.brk)
          (growth v brk) obj'
      else v.mmap := by
  have hbrk := doBrk_eq v.mmap ((pageAlign brk+2 ^ 64-pageAlign v.brk) % 2 ^ 64) obj obj'
    (Nat.mod_eq_zero_of_dvd (pageAlign_dvd v.brk))
  rw [← growth] at hbrk
  rw [sysBrk]
  split
  · rfl
  split
  · split <;> next hs => rw [hs]
  · rw [hbrk]
    by_cases hlen : growth v brk = 0
    · simp only [hlen, if_true, ne_eq, not_true_eq_false, false_and, if_false]
    · by_cases hfits : pageAlign v.brk+growth v brk ≤ userVmSize
      · rw [if_neg hlen, if_pos hfits, if_pos ⟨hlen, hfits⟩]
      · rw [if_neg hlen, if_neg hfits, if_neg fun hgrow => hfits hgrow.2]

section Steps

variable {v : Vmm} {brk : ℕ}

/-- A `sys_brk` links no object with wrong attributes. -/
def BrkKept (v : Vmm) (brk : ℕ) (obj obj' : Vma) : Prop :=
  v.startBrk ≤ brk →
    (brk < v.brk →
      MunmapKept v.mmap (pageAlign brk) ((pageAlign v.brk+2 ^ 64-pageAlign brk) % 2 ^ 64) obj) ∧
    (v.brk ≤ brk → growth v brk ≠ 0 → pageAlign v.brk+growth v brk ≤ userVmSize →
      GrowthKept v.mmap (pageAlign v.brk) (growth v brk) obj obj')

/-- A `sys_brk` links no new object at all. -/
def BrkWhole (v : Vmm) (brk : ℕ) : Prop :=
  v.startBrk ≤ brk →
    (brk < v.brk →
      MunmapWhole v.mmap (pageAlign brk) ((pageAlign v.brk+2 ^ 64-pageAlign brk) % 2 ^ 64)) ∧
    (v.brk ≤ brk → growth v brk ≠ 0 → pageAlign v.brk+growth v brk ≤ userVmSize →
      GrowthWhole v.mmap (pageAlign v.brk) (growth v brk))

theorem BrkWhole.kept (h : BrkWhole v brk) (obj obj' : Vma) : BrkKept v brk obj obj' :=
  fun hstart => ⟨fun hshrink => ((h hstart).1 hshrink).kept obj,
    fun hgrow hlen hfits => ((h hstart).2 hgrow hlen hfits).kept obj obj'⟩

theorem growth_pages (hfits : pageAlign v.brk+growth v brk ≤ userVmSize) :
    pageAlign (growth v brk) = growth v brk := by
  have hdvd : pageSize ∣ growth v brk := pageAlign_dvd _
  apply pageAlign_of_dvd hdvd
  rw [userVmSize] at hfits
  rw [pageSize]
  omega

theorem sysBrk_edit (h : Sorted v.mmap) {obj obj' : Vma} (hkept : BrkKept v brk obj obj') :
    Edit v.mmap (heapBase v brk obj) (sysBrk v brk obj obj').2.mmap heapAttributes := by
  rw [sysBrk_list, heapBase]
  by_cases hstart : brk < v.startBrk
  · rw [if_pos hstart, if_pos (Or.inl hstart)]
    exact edit_same h _
  obtain ⟨hdecrease, hincrease⟩ := hkept (not_lt.mp hstart)
  by_cases hshrink : brk < v.brk
  · rw [if_neg hstart, if_pos hshrink, if_pos (Or.inr hshrink)]
    obtain ⟨hsorted, hmap⟩ := doMunmap_kept h (hdecrease hshrink)
    refine ⟨hsorted, fun a => Or.inl rfl, fun a => ?_⟩
    exact (hmap a).imp id fun hgone => Or.inl hgone.2
  rw [if_neg hstart, if_neg hshrink, if_neg (not_or.mpr ⟨hstart, hshrink⟩)]
  by_cases hgrow : growth v brk ≠ 0 ∧ pageAlign v.brk+growth v brk ≤ userVmSize
  · rw [if_pos hgrow, if_pos hgrow]
    obtain ⟨hlen, hfits⟩ := hgrow
    obtain ⟨hsorted, hmap⟩ := growth_attributes h (Nat.mod_eq_zero_of_dvd (pageAlign_dvd v.brk))
      (growth_pages hfits) hfits hlen (hincrease (not_lt.mp hshrink) hlen hfits)
    exact ⟨hsorted, fun a => (hmap a).1, fun a => (hmap a).2.imp id Or.inr⟩
  · rw [if_neg hgrow, if_neg hgrow]
    exact edit_same h _

/-- The objects a `sys_brk` is given leave no trace. -/
theorem sysBrk_object (h : Sorted v.mmap) (hwhole : BrkWhole v brk) (obj obj' obj₂ obj₂' : Vma) :
    sysBrk v brk obj obj' = sysBrk v brk obj₂ obj₂' := by
  rw [sysBrk, sysBrk]
  by_cases hstart : brk < v.startBrk
  · rw [if_pos hstart, if_pos hstart]
  obtain ⟨hdecrease, hincrease⟩ := hwhole (not_lt.mp hstart)
  rw [if_neg hstart, if_neg hstart]
  by_cases hshrink : brk < v.brk
  · rw [if_pos hshrink, if_pos hshrink, doMunmap_object h (hdecrease hshrink) obj obj₂]
  rw [if_neg hshrink, if_neg hshrink]
  have ha := Nat.mod_eq_zero_of_dvd (pageAlign_dvd v.brk)
  have hbrk : doBrk v.mmap (pageAlign v.brk) ((pageAlign brk+2 ^ 64-pageAlign v.brk) % 2 ^ 64) obj obj' =
      doBrk v.mmap (pageAlign v.brk) ((pageAlign brk+2 ^ 64-pageAlign v.brk) % 2 ^ 64) obj₂ obj₂' := by
    rw [doBrk_eq v.mmap _ obj obj' ha, doBrk_eq v.mmap _ obj₂ obj₂' ha, ← growth]
    by_cases hlen : growth v brk = 0
    · rw [if_pos hlen, if_pos hlen]
    by_cases hfits : pageAlign v.brk+growth v brk ≤ userVmSize
    · rw [growth_object h ha (growth_pages hfits) hfits hlen (hincrease (not_lt.mp hshrink) hlen hfits)
        obj obj' obj₂ obj₂']
    · rw [if_neg hlen, if_neg hlen, if_neg hfits, if_neg hfits]
  rw [hbrk]

end Steps

/-! ## Runs -/

/-- The requests of the run; the faults are not among them. -/
def IsRequest : Op → Prop
  | .fault _ _ _ _ => False
  | _ => True

/-- From a sorted list that agrees with the record, any sequence of requests that
`allowed` admits. -/
inductive Run (allowed : Vmm → Op → Prop) : Vmm → (ℕ → ℕ × ℕ) → Prop
  | start {v : Vmm} {want : ℕ → ℕ × ℕ} : Sorted v.mmap → Agrees v.mmap want → Run allowed v want
  | step {v v' : Vmm} {want : ℕ → ℕ × ℕ} {op : Op} {ok : Bool} : Run allowed v want → IsRequest op →
      allowed v op → perform v op = some (ok, v') → Run allowed v' (record v op v' want)

/-- The end of an area that `do_mmap` places itself stays below `2 ^ 64`. -/
def MmapBelow (l : Areas) (flags : ℕ) : Prop :=
  flags &&& mapFixed = 0 → ∀ u ∈ l, u.mEnd+userVmSize < 2 ^ 64

/-- The requests that link no object with attributes other than those asked for. -/
def Kept (v : Vmm) : Op → Prop
  | .mmap _ _ _ flags => MmapBelow v.mmap flags
  | .munmap addr len obj => MunmapKept v.mmap addr len obj
  | .brk value obj obj' => BrkKept v value obj obj'
  | .sbrk increment obj obj' => BrkKept v ((v.brk+increment) % 2 ^ 64) obj obj'
  | .fault _ _ _ _ => True

/-- The requests that link no object with a field it held before. -/
def Whole (v : Vmm) : Op → Prop
  | .mmap _ _ _ flags => MmapBelow v.mmap flags
  | .munmap addr len _ => MunmapWhole v.mmap addr len
  | .brk value _ _ => BrkWhole v value
  | .sbrk increment _ _ => BrkWhole v ((v.brk+increment) % 2 ^ 64)
  | .fault _ _ _ _ => True

/-- The same request with other objects from the slab cache. -/
def withObjects (obj obj' : Vma) : Op → Op
  | .munmap addr len _ => .munmap addr len obj
  | .brk value _ _ => .brk value obj obj'
  | .sbrk increment _ _ => .sbrk increment obj obj'
  | op => op

theorem whole_kept {v : Vmm} {op : Op} (h : Whole v op) : Kept v op := by
  cases op with
  | mmap addr len prot flags => exact h
  | munmap addr len obj => exact h.kept obj
  | brk value obj obj' => exact BrkWhole.kept h obj obj'
  | sbrk increment obj obj' => exact BrkWhole.kept h obj obj'
  | fault addr err rsp mapped => exact h

theorem perform_edit {v v' : Vmm} {op : Op} {ok : Bool} (h : Sorted v.mmap) (hreq : IsRequest op)
    (hkept : Kept v op) (hs : perform v op = some (ok, v')) :
    Edit v.mmap (base v op) v'.mmap (asked op) := by
  cases op with
  | mmap addr len prot flags =>
    obtain ⟨-, rfl⟩ := Prod.mk.inj (Option.some.inj hs)
    obtain ⟨hsorted, hmap⟩ := @doMmap_attributes v.mmap addr len h prot flags
    exact ⟨hsorted, fun a => Or.inl rfl, fun a => (hmap a).imp id Or.inr⟩
  | munmap addr len obj =>
    obtain ⟨-, rfl⟩ := Prod.mk.inj (Option.some.inj hs)
    obtain ⟨hsorted, hmap⟩ := doMunmap_kept h hkept
    exact ⟨hsorted, fun a => Or.inl rfl, fun a => (hmap a).imp id fun hgone => Or.inl hgone.2⟩
  | brk value obj obj' =>
    obtain ⟨-, rfl⟩ := Prod.mk.inj (Option.some.inj hs)
    exact sysBrk_edit h hkept
  | sbrk increment obj obj' =>
    obtain ⟨-, rfl⟩ := Prod.mk.inj (Option.some.inj hs)
    exact sysBrk_edit h hkept
  | fault addr err rsp mapped => cases hreq

theorem perform_object {v : Vmm} {op : Op} (h : Sorted v.mmap) (hwhole : Whole v op) (obj obj' : Vma) :
    perform v (withObjects obj obj' op) = perform v op := by
  cases op with
  | mmap addr len prot flags => rfl
  | munmap addr len obj₂ =>
    simp only [withObjects, perform]
    rw [doMunmap_object h hwhole obj obj₂]
  | brk value obj₂ obj₂' =>
    simp only [withObjects, perform]
    rw [sysBrk_object h hwhole obj obj' obj₂ obj₂']
  | sbrk increment obj₂ obj₂' =>
    simp only [withObjects, perform, sbrk]
    rw [sysBrk_object h hwhole obj obj' obj₂ obj₂']
  | fault addr err rsp mapped => rfl

/-- Requests that ask for objects with the right attributes keep the agreement. -/
theorem kept_run {v : Vmm} {want : ℕ → ℕ × ℕ} (h : Run Kept v want) : Sorted v.mmap ∧ Agrees v.mmap want := by
  induction h with
  | start hsorted hagrees => exact ⟨hsorted, hagrees⟩
  | step _ hreq hkept hs ih =>
    have hedit := perform_edit ih.1 hreq hkept hs
    exact ⟨hedit.sorted, hedit.agrees ih.1 ih.2⟩

theorem whole_run {v : Vmm} {want : ℕ → ℕ × ℕ} (h : Run Whole v want) : Run Kept v want := by
  induction h with
  | start hsorted hagrees => exact Run.start hsorted hagrees
  | step _ hreq hwhole hs ih => exact Run.step ih hreq (whole_kept hwhole) hs

/-- In a run that links no new part of a split area and no new heap area, every address
has the attributes of the request that mapped it, and no request leaves a field as
the slab object held it. -/
theorem attributes_run {v : Vmm} {want : ℕ → ℕ × ℕ} (h : Run Whole v want) :
    Agrees v.mmap want ∧
      ∀ op, Whole v op → ∀ obj obj', perform v (withObjects obj obj' op) = perform v op := by
  obtain ⟨hsorted, hagrees⟩ := kept_run (whole_run h)
  exact ⟨hagrees, fun op hwhole obj obj' => perform_object hsorted hwhole obj obj'⟩

/-- An address space without areas. -/
def bare : Vmm := ⟨[], 0, 0⟩

/-- Three read-only pages in it. -/
def mapped : Vmm := ⟨[⟨vmUnmappedBase, vmUnmappedBase+0x3000, 1, 1⟩], 0, 0⟩

theorem mapped_perform : perform bare (.mmap 0 0x3000 1 0) = some (true, mapped) := by decide +kernel

theorem bare_run (allowed : Vmm → Op → Prop) : Run allowed bare (fun _ => (0, 0)) :=
  Run.start ordered_nil (by simp [Agrees, bare])

theorem mapped_run {allowed : Vmm → Op → Prop} (h : allowed bare (.mmap 0 0x3000 1 0)) :
    Run allowed mapped (record bare (.mmap 0 0x3000 1 0) mapped fun _ => (0, 0)) := by
  have hreq : IsRequest (.mmap 0 0x3000 1 0) := trivial
  exact (bare_run allowed).step hreq h mapped_perform

theorem attributes_run_mapped : Agrees mapped.mmap (record bare (.mmap 0 0x3000 1 0) mapped fun _ => (0, 0)) := by
  have hrun : Run Whole mapped _ := mapped_run (by simp [Whole, MmapBelow, bare])
  exact (attributes_run hrun).1

/-- The middle page is unmapped and the object for the last one was a stack area. -/
def parted : Vmm :=
  ⟨[⟨vmUnmappedBase, vmUnmappedBase+0x1000, 1, 1⟩,
    ⟨vmUnmappedBase+0x2000, vmUnmappedBase+0x3000, 3, vmStack⟩], 0, 0⟩

theorem attributes_lost : ¬ ∀ v want, Run (fun _ _ => True) v want → Agrees v.mmap want := by
  intro hall
  have hs : perform mapped (.munmap (vmUnmappedBase+0x1000) 0x1000 userStack) = some (true, parted) := by
    decide +kernel
  have hreq : IsRequest (.munmap (vmUnmappedBase+0x1000) 0x1000 userStack) := trivial
  have hmapped : Run (fun _ _ => True) mapped _ := mapped_run trivial
  have hlast := hall _ _ (hmapped.step hreq trivial hs)
    ⟨vmUnmappedBase+0x2000, vmUnmappedBase+0x3000, 3, vmStack⟩ (by simp [parted])
    (vmUnmappedBase+0x2000) ⟨by simp, by simp⟩
  exact absurd hlast (by decide +kernel)

end BabyOS.AreaHistory

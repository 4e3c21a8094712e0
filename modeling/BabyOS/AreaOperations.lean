import BabyOS.AreaInvariant

/-!
# What each operation does to the area list

Under the condition that belongs to it, an operation keeps the list well formed;
one that fails returns the list it was given.
-/

set_option autoImplicit false

namespace BabyOS.AreaOperations
open BabyOS.BuddyMachine BabyOS.OrderedRanges BabyOS.AreaMachine BabyOS.AreaInvariant

/-- The area cut out by `find_vma`. -/
theorem findVma_split {l before after : Areas} {addr : ℕ} {vma : Vma}
    (h : Ordered Vma.mStart Vma.mEnd l) (hs : findVma l addr = (before, vma :: after)) :
    l = before++vma :: after ∧ addr < vma.mEnd ∧ (∀ u ∈ before, u.mEnd ≤ addr) ∧
      ∀ u ∈ vma :: after, addr < u.mEnd := by
  obtain ⟨hbefore, hafter⟩ := Prod.mk.inj hs
  have hcut := List.takeWhile_append_dropWhile (p := fun p => decide (¬ addr < p.mEnd)) (l := l)
  have hlow : ∀ u ∈ l.takeWhile (fun p => ¬ addr < p.mEnd), u.mEnd ≤ addr := below_takeWhile addr l
  have hhigh := cut_above addr h
  rw [hbefore, hafter] at hcut
  rw [hbefore] at hlow
  rw [hafter] at hhigh
  exact ⟨hcut.symm, hhigh vma List.mem_cons_self, hlow, hhigh⟩

theorem findVma_cut {l before after : Areas} {addr : ℕ} {vma : Vma} (h : WellFormed l)
    (hs : findVma l addr = (before, vma :: after)) :
    l = before++vma :: after ∧ addr < vma.mEnd ∧ (∀ u ∈ before, u.mEnd ≤ addr) ∧
      ∀ u ∈ vma :: after, addr < u.mEnd :=
  findVma_split h.1 hs

theorem findVma_none {l before : Areas} {addr : ℕ} (hs : findVma l addr = (before, [])) :
    ∀ u ∈ l, u.mEnd ≤ addr := by
  obtain ⟨hbefore, hafter⟩ := Prod.mk.inj hs
  have hcut := List.takeWhile_append_dropWhile (p := fun p => decide (¬ addr < p.mEnd)) (l := l)
  have hlow : ∀ u ∈ l.takeWhile (fun p => ¬ addr < p.mEnd), u.mEnd ≤ addr := below_takeWhile addr l
  rw [hbefore, hafter, List.append_nil] at hcut
  rwa [hbefore, hcut] at hlow

/-! ## `do_mmap` -/

/-- A hole of length `len` at or above `addr`. -/
def Room (addr len : ℕ) (l : Areas) : Prop :=
  ∃ a, addr ≤ a ∧ a+len ≤ userVmSize ∧ Vacant Vma.mStart Vma.mEnd a (a+len) l

/-- The walk meets an area after it has passed the last address that could be
returned: this is where `get_unmapped_area` itself gives up. -/
def Exhausted (addr len : ℕ) (l : Areas) : Prop :=
  ∃ v ∈ l, addr < v.mEnd ∧
    (userVmSize < addr+len ∨ ∃ u ∈ l, u.mEnd ≤ v.mStart ∧ userVmSize < u.mEnd+len)

theorem unmapped_aligned {len : ℕ} {l : Areas} (h : WellFormed l) {addr : ℕ}
    (ha : pageSize ∣ addr) : pageSize ∣ unmappedFrom len addr l := by
  induction l generalizing addr with
  | nil => exact ha
  | cons vma rest ih =>
    obtain ⟨⟨-, hb⟩, hrest, -⟩ := wellFormed_cons.mp h
    rw [unmappedFrom]
    split
    · exact dvd_zero _
    split
    · exact ha
    · exact ih hrest hb.2.1

/-- A walk that finds an address, in a list with a hole or with areas too high,
finds one with room below the end of user memory. -/
theorem unmapped_room {len : ℕ} (hlen : len ≤ userVmSize) {l : Areas} (h : WellFormed l)
    {addr : ℕ} (ha : addr ≤ userVmSize)
    (hgood : Room addr len l ∨ (l ≠ [] ∧ userVmSize < addr+len) ∨
      ∃ u ∈ l, ∃ v ∈ l, u.mEnd ≤ v.mStart ∧ userVmSize < u.mEnd+len) :
    unmappedFrom len addr l = 0 ∨ unmappedFrom len addr l+len ≤ userVmSize := by
  induction l generalizing addr with
  | nil =>
    right
    rcases hgood with ⟨a, haa, hfit, -⟩ | ⟨hne, -⟩ | ⟨u, hu, -⟩
    · rw [unmappedFrom]
      omega
    · exact absurd rfl hne
    · cases hu
  | cons vma rest ih =>
    obtain ⟨⟨hv, hb⟩, hrest, hafter⟩ := wellFormed_cons.mp h
    rw [unmappedFrom]
    by_cases hhigh : userVmSize-len < addr
    · left
      rw [if_pos hhigh]
    rw [if_neg hhigh]
    by_cases hfit : (addr+len) % 2 ^ 64 ≤ vma.mStart
    · right
      rw [if_pos hfit]
      omega
    rw [if_neg hfit]
    have hwrap : (addr+len) % 2 ^ 64 = addr+len := by
      apply Nat.mod_eq_of_lt
      simp only [userVmSize] at hlen ha
      omega
    rw [hwrap] at hfit
    apply ih hrest hb.2.2
    rcases hgood with ⟨a, haa, hend, hvac⟩ | ⟨-, htoo⟩ | ⟨u, hu, v, hv', huv, htoo⟩
    · left
      rcases hvac vma List.mem_cons_self with hle | hle
      · exact ⟨a, hle, hend, fun w hw => hvac w (List.mem_cons_of_mem vma hw)⟩
      · omega
    · omega
    · right
      have hvr : v ∈ rest := by
        rcases List.mem_cons.mp hv' with rfl | hv'
        · rcases List.mem_cons.mp hu with rfl | hu
          · omega
          · have := hafter u hu
            have := (hrest.1.1 u hu)
            omega
        · exact hv'
      rcases List.mem_cons.mp hu with rfl | hu
      · exact Or.inl ⟨List.ne_nil_of_mem hvr, htoo⟩
      · exact Or.inr ⟨u, hu, v, hvr, huv, htoo⟩

/-- What the walk of `get_unmapped_area` starts from. -/
theorem getUnmapped_room {l : Areas} (h : WellFormed l) {len : ℕ} (hlen : len ≤ userVmSize)
    (hgood : Room vmUnmappedBase len l ∨ Exhausted vmUnmappedBase len l) :
    pageSize ∣ getUnmappedArea l len ∧
      (getUnmappedArea l len = 0 ∨ getUnmappedArea l len+len ≤ userVmSize) := by
  obtain ⟨before, after, hcut⟩ : ∃ before after, findVma l vmUnmappedBase = (before, after) :=
    ⟨_, _, rfl⟩
  have hl : before++after = l := by
    obtain ⟨rfl, rfl⟩ := Prod.mk.inj hcut
    exact List.takeWhile_append_dropWhile
  have hlow : ∀ u ∈ before, u.mEnd ≤ vmUnmappedBase := by
    obtain ⟨rfl, rfl⟩ := Prod.mk.inj hcut
    exact below_takeWhile vmUnmappedBase l
  have hafter : WellFormed after := (wellFormed_append.mp (hl.symm ▸ h)).2.1
  rw [getUnmappedArea, hcut]
  refine ⟨unmapped_aligned hafter (by decide), unmapped_room hlen hafter (by decide) ?_⟩
  rcases hgood with ⟨a, ha, hend, hvac⟩ | ⟨v, hv, habove, htoo⟩
  · exact Or.inl ⟨a, ha, hend, fun u hu => hvac u (hl ▸ List.mem_append_right _ hu)⟩
  · have hin : ∀ u ∈ l, vmUnmappedBase < u.mEnd → u ∈ after := by
      intro u hu hbase
      rw [← hl] at hu
      rcases List.mem_append.mp hu with hu | hu
      · exact absurd (hlow u hu) (by omega)
      · exact hu
    right
    rcases htoo with htoo | ⟨u, hu, huv, htoo⟩
    · exact Or.inl ⟨List.ne_nil_of_mem (hin v hv habove), htoo⟩
    · by_cases hbase : vmUnmappedBase < u.mEnd
      · exact Or.inr ⟨u, hin u hu hbase, v, hin v hv habove, huv, htoo⟩
      · exact Or.inl ⟨List.ne_nil_of_mem (hin v hv habove), by omega⟩

/-- When a `do_mmap` that chooses the address itself stays in user memory. -/
def MmapClear (l : Areas) (addr len flags : ℕ) : Prop :=
  flags &&& mapFixed = 0 → pageAlign len ≠ 0 → MmapRange addr (pageAlign len) →
    Room vmUnmappedBase (pageAlign len) l ∨ Exhausted vmUnmappedBase (pageAlign len) l

theorem mmapAt_spec {l : Areas} (h : WellFormed l) {addr len : ℕ} (prot : ℕ)
    (ha : pageSize ∣ addr) (hlen : pageSize ∣ len) (hpos : len ≠ 0) (hend : addr+len ≤ userVmSize) :
    WellFormed (mmapAt l addr len prot).2 ∧
      ((mmapAt l addr len prot).1 = none → (mmapAt l addr len prot).2 = l) := by
  rw [mmapAt]
  split
  · exact ⟨h, fun _ => rfl⟩
  next l' hs =>
    refine ⟨insertVma_wellFormed h ?_ ⟨ha, dvd_add ha hlen, hend⟩ hs, by simp⟩
    simp only
    omega

theorem doMmap_spec {l : Areas} (h : WellFormed l) {addr len flags : ℕ} (prot : ℕ)
    (hclear : MmapClear l addr len flags) :
    WellFormed (doMmap l addr len prot flags).2 ∧
      ((doMmap l addr len prot flags).1 = none → (doMmap l addr len prot flags).2 = l) := by
  have hsame : WellFormed l ∧ ((none : Option ℕ) = none → l = l) := ⟨h, fun _ => rfl⟩
  have hdvd := pageAlign_dvd len
  simp only [doMmap]
  split
  · exact ⟨h, fun _ => rfl⟩
  next hpos =>
  split
  · exact hsame
  next hrange =>
  have hrange := not_not.mp hrange
  have hbounds := hrange
  simp only [MmapRange, not_or, not_lt] at hbounds
  have hend : addr+pageAlign len ≤ userVmSize := by omega
  split
  · split
    · exact hsame
    next haligned =>
    have ha : pageSize ∣ addr := Nat.dvd_of_mod_eq_zero (not_not.mp haligned)
    split
    · exact mmapAt_spec h prot ha hdvd hpos hend
    · split
      · exact hsame
      · exact mmapAt_spec h prot ha hdvd hpos hend
  next hfixed =>
    obtain ⟨ha, hroom⟩ := getUnmapped_room h hbounds.1 (hclear (not_not.mp hfixed) hpos hrange)
    split
    · exact hsame
    next hfound => exact mmapAt_spec h prot ha hdvd hpos (hroom.resolve_left hfound)

/-! ## `do_munmap` -/

theorem splitVma_wellFormed {vma : Vma} (obj : Vma) (hb : Bounded vma)
    {addr len : ℕ} (ha : pageSize ∣ addr) (hlen : pageSize ∣ len)
    (hin : vma.mStart ≤ addr) (hend : addr+len ≤ vma.mEnd) :
    WellFormed (splitVma vma obj addr len) ∧
      ∀ u ∈ splitVma vma obj addr len, vma.mStart ≤ u.mStart ∧ u.mEnd ≤ vma.mEnd := by
  have hsum := dvd_add ha hlen
  have hlast := hb.2.2
  rw [splitVma]
  by_cases hfirst : vma.mStart = addr <;> by_cases hsecond : addr+len = vma.mEnd <;>
    simp [hfirst, hsecond, wellFormed_cons, wellFormed_nil, Bounded, hb.1, hb.2.1, ha, hsum] <;>
    omega

/-- `do_munmap` keeps the list for every argument. -/
theorem doMunmap_spec {l : Areas} (h : WellFormed l) (addr len : ℕ) (obj : Vma) :
    WellFormed (doMunmap l addr len obj).2 ∧
      ((doMunmap l addr len obj).1 = false → (doMunmap l addr len obj).2 = l) := by
  have hsame : WellFormed l ∧ (true = false → l = l) := ⟨h, fun _ => rfl⟩
  have hdvd := pageAlign_dvd len
  simp only [doMunmap]
  split
  · exact ⟨h, fun _ => rfl⟩
  next hrange =>
  split
  · exact hsame
  next hpos =>
  have ha : pageSize ∣ addr := Nat.dvd_of_mod_eq_zero (by omega)
  split
  · exact hsame
  next before vma after hfind =>
    obtain ⟨rfl, -⟩ := findVma_cut h hfind
    split
    · exact hsame
    next hin =>
      have hv := (wellFormed_cons.mp (wellFormed_append.mp h).2.1).1
      obtain ⟨hw, hinside⟩ := splitVma_wellFormed obj hv.2 ha hdvd
        (by omega) (by omega)
      exact ⟨wellFormed_replace h hw hinside, by simp⟩

/-- Afterwards the range is in no area, unless it was not inside a single one. -/
theorem doMunmap_vacant {l : Areas} (h : WellFormed l) {addr len : ℕ} (obj : Vma) (hlen : pageAlign len ≠ 0)
    (hok : (doMunmap l addr len obj).1 = true) :
    Vacant Vma.mStart Vma.mEnd addr (addr+pageAlign len) (doMunmap l addr len obj).2 ∨
      ((doMunmap l addr len obj).2 = l ∧ ¬ ∃ v ∈ l, v.mStart ≤ addr ∧ addr+pageAlign len ≤ v.mEnd) := by
  simp only [doMunmap] at hok ⊢
  split at hok
  · cases hok
  next hrange =>
  rw [if_neg hrange, if_neg hlen]
  split
  next before hfind =>
    left
    exact fun u hu => Or.inl (findVma_none hfind u hu)
  next before vma after hfind =>
    obtain ⟨rfl, habove, hlow, -⟩ := findVma_cut h hfind
    obtain ⟨-, hva, hbv⟩ := wellFormed_append.mp h
    have hafter := (wellFormed_cons.mp hva).2.2
    split
    next hout =>
      right
      refine ⟨rfl, ?_⟩
      rintro ⟨v, hv, hstart, hend⟩
      rcases List.mem_append.mp hv with hv | hv
      · have := hlow v hv
        omega
      · rcases List.mem_cons.mp hv with rfl | hv
        · omega
        · have := hafter v hv
          omega
    next hin =>
      left
      intro u hu
      rcases List.mem_append.mp hu with hu | hu
      · rcases List.mem_append.mp hu with hu | hu
        · exact Or.inl (hlow u hu)
        · rcases List.mem_append.mp hu with hu | hu
          · split at hu
            · cases hu
            · obtain rfl := List.mem_singleton.mp hu
              exact Or.inl le_rfl
          · split at hu
            · cases hu
            · obtain rfl := List.mem_singleton.mp hu
              exact Or.inr le_rfl
      · have := hafter u hu
        exact Or.inr (by omega)

/-! ## `sys_brk` -/

/-- When growing the heap over `[addr, addr+len)` does not run an area into
another one: the range is inside one area, or no area ends where it starts, or
no area meets it. -/
def BrkClear (l : Areas) (addr len : ℕ) : Prop :=
  (∃ v ∈ l, v.mStart ≤ addr ∧ addr+len ≤ v.mEnd) ∨ (∀ v ∈ l, v.mEnd ≠ addr) ∨
    Vacant Vma.mStart Vma.mEnd addr (addr+len) l

theorem insertVma_getD {l : Areas} (h : WellFormed l) {vma : Vma} (hv : vma.mStart < vma.mEnd)
    (hb : Bounded vma) : WellFormed ((insertVma l vma).getD l) := by
  cases hs : insertVma l vma with
  | none => exact h
  | some l' => exact insertVma_wellFormed h hv hb hs

theorem extendBrk_spec {l : Areas} (h : WellFormed l) {addr len : ℕ} (obj : Vma)
    (ha : pageSize ∣ addr) (hlen : pageSize ∣ len) (hpos : len ≠ 0) (hend : addr+len ≤ userVmSize)
    (hclear : Vacant Vma.mStart Vma.mEnd addr (addr+len) l ∨ ∀ v ∈ l, v.mEnd ≠ addr) :
    WellFormed (extendBrk l addr len obj) := by
  have hnew : WellFormed ((insertVma l { obj with
      mStart := addr, mEnd := addr+len, mPageProt := vmRead ||| vmWrite ||| vmExec }).getD l) :=
    insertVma_getD h (by simp only; omega) ⟨ha, dvd_add ha hlen, hend⟩
  simp only [extendBrk]
  split
  · split
    next before p after hfind =>
      obtain ⟨rfl, -, -, -⟩ := findVma_cut h hfind
      split
      next hmeet =>
        obtain ⟨hbefore, hrest, hbv⟩ := wellFormed_append.mp h
        obtain ⟨⟨hp, hb⟩, hafter, hpa⟩ := wellFormed_cons.mp hrest
        have hvac := hclear.resolve_right (fun hne => hne p (by simp) hmeet)
        rw [wellFormed_append, wellFormed_cons]
        refine ⟨hbefore, ⟨⟨?_, hb.1, dvd_add ha hlen, hend⟩, hafter, ?_⟩, ?_⟩
        · simp only
          omega
        · intro u hu
          have hle := hpa u hu
          have hlt := hafter.1.1 u hu
          have := hvac u (by simp [hu])
          simp only
          omega
        · intro u hu v hv
          rcases List.mem_cons.mp hv with rfl | hv
          · exact hbv u hu p List.mem_cons_self
          · exact hbv u hu v (List.mem_cons_of_mem p hv)
      next => exact hnew
    next => exact hnew
  next => exact hnew

theorem doBrk_spec {l : Areas} (h : WellFormed l) {addr len : ℕ} (obj obj' : Vma)
    (ha : pageSize ∣ addr)
    (hclear : pageAlign len ≠ 0 → addr+pageAlign len ≤ userVmSize → BrkClear l addr (pageAlign len)) :
    WellFormed (doBrk l addr len obj obj').2 ∧
      ((doBrk l addr len obj obj').1 = none → (doBrk l addr len obj obj').2 = l) := by
  have hdvd := pageAlign_dvd len
  -- the length is aligned again inside `do_munmap`
  have htwice : pageAlign len ≤ userVmSize → pageAlign (pageAlign len) = pageAlign len := by
    intro hle
    have hsmall : pageAlign len+(pageSize-1) < 2 ^ 64 := by
      simp only [userVmSize, pageSize] at hle ⊢
      omega
    obtain ⟨c, hc⟩ := hdvd
    rw [hc] at hsmall ⊢
    rw [pageAlign, Nat.mod_eq_of_lt hsmall, mul_comm pageSize c, mul_comm c,
      Nat.mul_add_div (by decide)]
    simp [pageSize, mul_comm]
  simp only [doBrk]
  split
  · exact ⟨h, fun _ => rfl⟩
  next hpos =>
  obtain ⟨hw, hsame⟩ := doMunmap_spec h addr (pageAlign len) obj
  split
  next l' hs =>
    rw [hs] at hw hsame
    exact ⟨hw, fun _ => hsame rfl⟩
  next l' hs =>
    refine ⟨?_, by simp⟩
    have hend : addr+pageAlign len ≤ userVmSize := by
      by_contra hbig
      simp only [doMunmap] at hs
      rw [if_pos (by omega)] at hs
      cases hs
    have hvac := @doMunmap_vacant l h addr (pageAlign len) obj (by rw [htwice (by omega)]; exact hpos)
      (by rw [hs])
    rw [htwice (by omega), hs] at hvac
    rw [hs] at hw
    apply extendBrk_spec hw obj' ha hdvd hpos hend
    rcases hvac with hvac | ⟨heq, hnot⟩
    · exact Or.inl hvac
    · simp only at heq
      subst heq
      rcases hclear hpos hend with hin | hne | hvac
      · exact absurd hin hnot
      · exact Or.inr hne
      · exact Or.inl hvac

/-- When `sys_brk(brk)` keeps the areas apart. -/
def BrkStep (v : Vmm) (brk : ℕ) : Prop :=
  let addr := pageAlign v.brk
  let len := pageAlign ((pageAlign brk+2 ^ 64-addr) % 2 ^ 64)
  v.startBrk ≤ brk → v.brk ≤ brk → len ≠ 0 → addr+len ≤ userVmSize → BrkClear v.mmap addr len

theorem sysBrk_spec {v : Vmm} (h : WellFormed v.mmap) {brk : ℕ} (obj obj' : Vma)
    (hclear : BrkStep v brk) :
    WellFormed (sysBrk v brk obj obj').2.mmap ∧
      ((sysBrk v brk obj obj').1 = false → (sysBrk v brk obj obj').2.mmap = v.mmap) := by
  simp only [sysBrk]
  split
  · exact ⟨h, fun _ => rfl⟩
  next hstart =>
  split
  · obtain ⟨hw, hsame⟩ := doMunmap_spec h (pageAlign brk)
      ((pageAlign v.brk+2 ^ 64-pageAlign brk) % 2 ^ 64) obj
    split
    next l hs =>
      rw [hs] at hw hsame
      exact ⟨hw, fun _ => hsame rfl⟩
    next l hs =>
      rw [hs] at hw
      exact ⟨hw, by simp⟩
  next hgrow =>
    obtain ⟨hw, hsame⟩ := doBrk_spec h obj obj' (pageAlign_dvd v.brk)
      (hclear (by omega) (by omega))
    split
    next l hs =>
      rw [hs] at hw hsame
      exact ⟨hw, fun _ => hsame rfl⟩
    next l hs =>
      rw [hs] at hw
      exact ⟨hw, by simp⟩

/-! ## Stack growth -/

/-- A fault on a present page that grows an area is one that
`do_protection_fault` resolves. -/
def FaultClear (l : Areas) (addr err : ℕ) (mapped : Bool) : Prop :=
  ∀ before vma after, findVma l addr = (before, vma :: after) → addr < vma.mStart →
    err &&& 1 ≠ 0 → mapped = true ∧ (err &&& 2 ≠ 0 → vma.mFlags &&& vmWrite ≠ 0)

theorem expandStack_wellFormed {before after : Areas} {vma : Vma} {addr : ℕ}
    (h : WellFormed (before++vma :: after)) (hlow : ∀ u ∈ before, u.mEnd ≤ addr)
    (habove : addr < vma.mEnd) : WellFormed (before++expandStack vma addr :: after) := by
  obtain ⟨hbefore, hrest, hbv⟩ := wellFormed_append.mp h
  obtain ⟨⟨-, hb⟩, hafter, hva⟩ := wellFormed_cons.mp hrest
  rw [wellFormed_append, wellFormed_cons]
  refine ⟨hbefore, ⟨⟨?_, pageDown_dvd addr, hb.2⟩, hafter, hva⟩, ?_⟩
  · exact (pageDown_le addr).trans_lt habove
  · intro u hu v hv
    rcases List.mem_cons.mp hv with rfl | hv
    · exact le_pageDown (hbefore.2 u hu).2.1 (hlow u hu)
    · exact hbv u hu v (List.mem_cons_of_mem vma hv)

/-- The list after a fault, and what has to be true when it differs. -/
theorem pageFault_cases {l l' : Areas} (h : WellFormed l) {addr err rsp : ℕ} {mapped ok : Bool}
    (hs : pageFault l addr err rsp mapped = some (ok, l')) :
    ∃ before vma after, findVma l addr = (before, vma :: after) ∧
      (vma.mStart ≤ addr ∧ l' = l ∨
        addr < vma.mStart ∧ l' = before++expandStack vma addr :: after) ∧
      WellFormed l' ∧
      ok = (err &&& 1 == 0 || protectionFault vma (err &&& 2 != 0) mapped) := by
  rw [pageFault] at hs
  split at hs
  · cases hs
  next before vma after hfind =>
  refine ⟨before, vma, after, hfind, ?_⟩
  obtain ⟨rfl, habove, hlow, -⟩ := findVma_cut h hfind
  have hflags : protectionFault (expandStack vma addr) (err &&& 2 != 0) mapped =
      protectionFault vma (err &&& 2 != 0) mapped := rfl
  simp only at hs
  split at hs
  next hbelow =>
    split at hs
    · have hgrow := expandStack_wellFormed h hlow habove
      split at hs
      next hpresent =>
        obtain ⟨rfl, rfl⟩ := Prod.mk.inj (Option.some.inj hs)
        refine ⟨Or.inr ⟨hbelow, rfl⟩, hgrow, ?_⟩
        rw [hflags, beq_eq_false_iff_ne.mpr hpresent, Bool.false_or]
      next habsent =>
        obtain ⟨rfl, rfl⟩ := Prod.mk.inj (Option.some.inj hs)
        refine ⟨Or.inr ⟨hbelow, rfl⟩, hgrow, ?_⟩
        rw [beq_iff_eq.mpr (not_not.mp habsent), Bool.true_or]
    · cases hs
  next hin =>
    split at hs
    next hpresent =>
      obtain ⟨rfl, rfl⟩ := Prod.mk.inj (Option.some.inj hs)
      refine ⟨Or.inl ⟨by omega, rfl⟩, h, ?_⟩
      rw [beq_eq_false_iff_ne.mpr hpresent, Bool.false_or]
    next habsent =>
      obtain ⟨rfl, rfl⟩ := Prod.mk.inj (Option.some.inj hs)
      refine ⟨Or.inl ⟨by omega, rfl⟩, h, ?_⟩
      rw [beq_iff_eq.mpr (not_not.mp habsent), Bool.true_or]

theorem pageFault_spec {l l' : Areas} (h : WellFormed l) {addr err rsp : ℕ} {mapped ok : Bool}
    (hclear : FaultClear l addr err mapped) (hs : pageFault l addr err rsp mapped = some (ok, l')) :
    WellFormed l' ∧ (ok = false → l' = l) := by
  obtain ⟨before, vma, after, hfind, hcase, hw, hok⟩ := pageFault_cases h hs
  refine ⟨hw, fun hfail => ?_⟩
  rcases hcase with ⟨-, heq⟩ | ⟨hbelow, -⟩
  · exact heq
  · rw [hfail] at hok
    have hboth := Bool.or_eq_false_iff.mp hok.symm
    obtain ⟨hmapped, hwrite⟩ := hclear _ _ _ hfind hbelow (by simpa using hboth.1)
    have hprot := hboth.2
    simp [protectionFault, hmapped] at hprot
    exact absurd hprot.2 (hwrite hprot.1)

end BabyOS.AreaOperations

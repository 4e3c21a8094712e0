import BabyOS.AreaAttributes

/-!
# What `do_munmap` and `sbrk` answer

Each call is compared with what its result says: the range a successful
`do_munmap` was given lies in no area and nothing else changed, the range a
successful `sbrk` returns is heap and only heap.
-/

set_option autoImplicit false

namespace BabyOS.AreaRequests
open BabyOS.BuddyMachine BabyOS.OrderedRanges BabyOS.RangeMaps BabyOS.AreaMachine
open BabyOS.AreaInvariant BabyOS.AreaOperations BabyOS.AreaAttributes

/-! ## `do_munmap` -/

/-- What a call that returned `r` has to have done to the list `l`. -/
def MunmapDone (l : Areas) (addr len : ℕ) (r : Bool × Areas) : Prop :=
  (r.1 = true →
    (∀ v ∈ r.2, ∀ a, Contains v a → ¬ (addr ≤ a ∧ a < addr+pageAlign len)) ∧
    ∀ a, ¬ (addr ≤ a ∧ a < addr+pageAlign len) → attributesAt r.2 a = attributesAt l a) ∧
  (r.1 = false → r.2 = l)

/-- The ranges `do_munmap` handles: empty ones, ranges that meet no area, and ranges
inside one area that reach its end or whose upper rest goes into an object that
has the attributes of the area by chance. -/
def MunmapHandled (l : Areas) (addr len : ℕ) (obj : Vma) : Prop :=
  pageAlign len = 0 ∨ Vacant Vma.mStart Vma.mEnd addr (addr+pageAlign len) l ∨
    ∃ v ∈ l, v.mStart ≤ addr ∧ addr+pageAlign len ≤ v.mEnd ∧
      (addr+pageAlign len = v.mEnd ∨ attributes obj = attributes v)

/-- A list that is left as it is: the range was vacant. -/
theorem munmapDone_same {l : Areas} (h : WellFormed l) {addr len : ℕ} :
    MunmapDone l addr len (true, l) ↔
      pageAlign len = 0 ∨ Vacant Vma.mStart Vma.mEnd addr (addr+pageAlign len) l := by
  by_cases hlen : pageAlign len = 0
  · refine iff_of_true ⟨fun _ => ⟨?_, fun _ _ => rfl⟩, fun _ => rfl⟩ (Or.inl hlen)
    intro v _ a _
    omega
  rw [or_iff_right hlen, vacant_iff (g := attributes) h.1.1 (by omega)]
  constructor
  · rintro ⟨hdone, -⟩ z hlow hhigh
    exact valueAt_eq_none.mpr fun v hv hin => (hdone rfl).1 v hv z hin ⟨hlow, hhigh⟩
  · intro hnone
    refine ⟨fun _ => ⟨?_, fun _ _ => rfl⟩, fun _ => rfl⟩
    rintro v hv a hin ⟨hlow, hhigh⟩
    exact valueAt_eq_none.mp (hnone a hlow hhigh) v hv hin

/-- A range cut out of an area: its upper rest has to keep the attributes. -/
theorem munmapDone_cut {l r : Areas} {vma : Vma} (obj : Vma) (h : WellFormed (l++vma :: r))
    {addr len : ℕ} (hin : vma.mStart ≤ addr) (hend : addr+pageAlign len ≤ vma.mEnd) :
    MunmapDone (l++vma :: r) addr len (true, l++splitVma vma obj addr (pageAlign len)++r) ↔
      addr+pageAlign len = vma.mEnd ∨ attributes obj = attributes vma := by
  have hcut := cut_attributesAt obj h.1 hin hend
  obtain ⟨hsplit, hinside⟩ := splitVma_sorted obj hin hend
  have hsorted : Sorted (l++splitVma vma obj addr (pageAlign len)++r) :=
    ordered_replace (by simpa using h.1) hsplit hinside
  constructor
  · rintro ⟨hdone, -⟩
    by_cases hlast : addr+pageAlign len = vma.mEnd
    · exact Or.inl hlast
    · right
      have hnew := hcut (addr+pageAlign len)
      have hold : attributesAt (l++vma :: r) (addr+pageAlign len) = some (attributes vma) := by
        rw [attributesAt_middle h.1, if_pos ⟨by omega, by omega⟩]
      rw [(hdone rfl).2 _ (by omega), hold, if_neg (by omega), if_pos (by omega)] at hnew
      exact (Option.some.inj hnew).symm
  · intro hkeep
    refine ⟨fun _ => ⟨?_, ?_⟩, fun hfail => by cases hfail⟩
    · intro v hv a hva hrange
      have hsome : attributesAt _ a = _ := valueAt_mem (g := attributes) hsorted hv hva
      rw [hcut a, if_pos hrange] at hsome
      cases hsome
    · intro a hout
      rw [hcut a, if_neg hout]
      split
      next hupper =>
        have hobj : attributes obj = attributes vma := hkeep.resolve_left (by omega)
        rw [attributesAt_middle h.1, if_pos ⟨by omega, hupper.2⟩, hobj]
      next => rfl

/-- `do_munmap` does what its result says exactly for the ranges it handles. -/
theorem munmap_done_iff {l : Areas} (h : WellFormed l) {addr len : ℕ} (obj : Vma)
    (ha : pageSize ∣ addr) (hend : addr+len ≤ userVmSize) :
    MunmapDone l addr len (doMunmap l addr len obj) ↔ MunmapHandled l addr len obj := by
  have hrange : ¬ (addr % pageSize ≠ 0 ∨ addr > userVmSize ∨ len > userVmSize-addr) := by
    have := Nat.mod_eq_zero_of_dvd ha
    omega
  simp only [doMunmap, MunmapHandled]
  rw [if_neg hrange]
  split
  next hlen => simp [munmapDone_same h, hlen]
  next hlen =>
  rw [or_iff_right hlen]
  split
  next before hfind =>
    have hvacant : Vacant Vma.mStart Vma.mEnd addr (addr+pageAlign len) l :=
      fun u hu => Or.inl (findVma_none hfind u hu)
    simp [munmapDone_same h, hvacant]
  next before vma after hfind =>
    obtain ⟨rfl, habove, hlow, -⟩ := findVma_cut h hfind
    obtain ⟨-, hva, hbv⟩ := wellFormed_append.mp h
    have hafter := (wellFormed_cons.mp hva).2.2
    have hrest := (wellFormed_cons.mp hva).2.1
    -- an area around the range is the one that was found
    have honly : ∀ v ∈ before++vma :: after, v.mStart ≤ addr → addr+pageAlign len ≤ v.mEnd → v = vma := by
      intro v hv hstart hfinish
      rcases List.mem_append.mp hv with hv | hv
      · have := hlow v hv
        omega
      · rcases List.mem_cons.mp hv with rfl | hv
        · rfl
        · have := hafter v hv
          omega
    split
    next hout =>
      rw [munmapDone_same h, or_iff_right hlen]
      constructor
      · exact fun hvacant => Or.inl hvacant
      · rintro (hvacant | ⟨v, hv, hstart, hfinish, -⟩)
        · exact hvacant
        · have hv := honly v hv hstart hfinish
          rw [hv] at hstart hfinish
          omega
    next hin =>
      rw [munmapDone_cut obj h (by omega) (by omega)]
      constructor
      · exact fun hkeep => Or.inr ⟨vma, by simp, by omega, by omega, hkeep⟩
      · rintro (hvacant | ⟨v, hv, hstart, hfinish, hkeep⟩)
        · have := hvacant vma (by simp)
          omega
        · rwa [honly v hv hstart hfinish] at hkeep

/-- Unmapping the upper page of two. -/
theorem munmap_done_upper :
    MunmapDone [⟨0x400000, 0x402000, 7, 7⟩] 0x401000 0x1000
      (doMunmap [⟨0x400000, 0x402000, 7, 7⟩] 0x401000 0x1000 userStack) :=
  (munmap_done_iff (by simp [WellFormed, Ordered, Bounded, pageSize, userVmSize]) userStack
    (by decide) (by decide)).mpr
    (Or.inr (Or.inr ⟨⟨0x400000, 0x402000, 7, 7⟩, by simp, by decide, by decide, Or.inl (by decide)⟩))

/-- Two areas with a gap between them: the range over both is left alone, and the
call reports success. -/
theorem munmap_spanning : ¬ ∀ (l : Areas) (addr len : ℕ) (obj : Vma), WellFormed l →
    pageSize ∣ addr → addr+len ≤ userVmSize → MunmapDone l addr len (doMunmap l addr len obj) := by
  intro hall
  have hdone := hall [⟨0x400000, 0x401000, 7, 7⟩, ⟨0x402000, 0x403000, 3, 3⟩] 0x400000 0x3000 userStack
    (by simp [WellFormed, Ordered, Bounded, pageSize, userVmSize]) (by decide) (by decide)
  have hok : (doMunmap [⟨0x400000, 0x401000, 7, 7⟩, ⟨0x402000, 0x403000, 3, 3⟩] 0x400000 0x3000
      userStack).1 = true := by decide +kernel
  have hin : (⟨0x400000, 0x401000, 7, 7⟩ : Vma) ∈ (doMunmap [⟨0x400000, 0x401000, 7, 7⟩,
      ⟨0x402000, 0x403000, 3, 3⟩] 0x400000 0x3000 userStack).2 := by decide +kernel
  exact (hdone.1 hok).1 _ hin 0x400000 ⟨by decide, by decide⟩ (by decide)

/-! ## `sbrk` -/

/-- `sbrk` with the value it returns, which is `m_brk` as it was before. -/
def sbrkCall (v : Vmm) (increment : ℕ) (obj obj' : Vma) : ℕ × Vmm :=
  (v.brk, (sbrk v increment obj obj').2)

/-- The break after the call, as a `uint64`. -/
def newBrk (v : Vmm) (increment : ℕ) : ℕ := (v.brk+increment) % 2 ^ 64

/-- The addresses of `[a, b)` lie in the area that ended at the break before the
call, and in no other one. -/
def HeapRange (v : Vmm) (l : Areas) (a b : ℕ) : Prop :=
  ∃ before heap after, l = before++heap :: after ∧
    (∃ h ∈ v.mmap, h.mEnd = pageAlign v.brk ∧ heap.mStart = h.mStart) ∧
    ∀ x, a ≤ x → x < b → Contains heap x ∧ ∀ u ∈ before++after, ¬ Contains u x

/-- What a call that returned `r` has to have done. -/
def SbrkTruth (v : Vmm) (increment : ℕ) (r : ℕ × Vmm) : Prop :=
  (r.1 = v.brk ∧ r.2.brk = newBrk v increment ∧
    (v.brk < newBrk v increment → HeapRange v r.2.mmap v.brk (newBrk v increment))) ∨
  (r.1 = 2 ^ 64-1 ∧ r.2 = v)

/-- The increments the call can serve: none at all, a decrease to `m_start_brk` or
above, and an increase inside user memory that needs no new page or whose pages
meet no area or lie inside one. -/
def SbrkFits (v : Vmm) (increment : ℕ) : Prop :=
  newBrk v increment = v.brk ∨
    (v.startBrk ≤ newBrk v increment ∧
      (newBrk v increment < v.brk ∨
        (newBrk v increment ≤ userVmSize ∧
          (pageAlign (newBrk v increment) = pageAlign v.brk ∨
            Vacant Vma.mStart Vma.mEnd (pageAlign v.brk) (pageAlign (newBrk v increment)) v.mmap ∨
            ∃ u ∈ v.mmap, u.mStart ≤ pageAlign v.brk ∧ pageAlign (newBrk v increment) ≤ u.mEnd))))

/-- The length `sys_brk` passes on when the aligned new break `b` is behind the end
of user memory, or wrapped to 0. -/
theorem brkLength_beyond {a b : ℕ} (ha : pageSize ∣ a) (hb : pageSize ∣ b) (hpos : 0 < a)
    (hle : a ≤ userVmSize) (hbig : userVmSize < b ∨ b = 0) (hwrap : b < 2 ^ 64) :
    pageAlign ((b+2 ^ 64-a) % 2 ^ 64) > userVmSize-a ∧ pageAlign ((b+2 ^ 64-a) % 2 ^ 64) ≠ 0 := by
  have hlen : userVmSize-a < (b+2 ^ 64-a) % 2 ^ 64 ∧ (b+2 ^ 64-a) % 2 ^ 64+pageSize ≤ 2 ^ 64 ∧
      pageSize ∣ (b+2 ^ 64-a) % 2 ^ 64 := by
    simp only [pageSize, userVmSize] at *
    omega
  rw [pageAlign_of_dvd hlen.2.2 hlen.2.1]
  omega

theorem doMunmap_refused {l : Areas} {addr len : ℕ} (obj : Vma) (h : len > userVmSize-addr) :
    doMunmap l addr len obj = (false, l) :=
  if_pos (Or.inr (Or.inr h))

/-- An area that ends at or below the range stays. -/
theorem doMunmap_mem {l : Areas} (h : WellFormed l) {addr : ℕ} (len : ℕ) (obj : Vma) {u : Vma}
    (hu : u ∈ l) (hend : u.mEnd ≤ addr) : u ∈ (doMunmap l addr len obj).2 := by
  simp only [doMunmap]
  split
  · exact hu
  split
  · exact hu
  split
  · exact hu
  next before vma after hfind =>
    split
    · exact hu
    · obtain ⟨rfl, -, -, hhigh⟩ := findVma_cut h hfind
      rcases List.mem_append.mp hu with hu | hu
      · simp [hu]
      · exact absurd (hhigh u hu) (not_lt.mpr hend)

/-- A range that meets an area and is not inside one is left alone. -/
theorem doMunmap_other {l : Areas} (h : WellFormed l) {addr : ℕ} (len : ℕ) (obj : Vma)
    (hin : ¬ ∃ v ∈ l, v.mStart ≤ addr ∧ addr+pageAlign len ≤ v.mEnd) : (doMunmap l addr len obj).2 = l := by
  simp only [doMunmap]
  split
  · rfl
  split
  · rfl
  split
  · rfl
  next before vma after hfind =>
    split
    · rfl
    next hinside =>
      obtain ⟨rfl, -⟩ := findVma_cut h hfind
      exact absurd ⟨vma, by simp, by omega, by omega⟩ hin

section Sbrk

variable {v : Vmm} {h : Vma}

/-- The break is in the last page of the area that ends there. -/
theorem brk_bounds (hw : WellFormed v.mmap) (hbrk : v.brk < 2 ^ 64) (hh : h ∈ v.mmap)
    (hend : h.mEnd = pageAlign v.brk) :
    h.mStart ≤ v.brk ∧ v.brk ≤ h.mEnd ∧ h.mEnd ≤ userVmSize := by
  have hpos : h.mStart < h.mEnd := hw.1.1 h hh
  obtain ⟨hstart, -, hlast⟩ := hw.2 h hh
  have hsmall : v.brk+pageSize ≤ 2 ^ 64 := by
    by_contra hbig
    rw [pageAlign_wrap (by omega) hbrk] at hend
    omega
  obtain ⟨hlow, hhigh⟩ := pageAlign_bounds hsmall
  have hle : h.mStart ≤ v.brk := by
    by_contra hlt
    have := pageAlign_le hstart (by omega : v.brk ≤ h.mStart)
    omega
  exact ⟨hle, by omega, hlast⟩

/-- A break above user memory is refused. -/
theorem sysBrk_beyond {brk : ℕ} (obj obj' : Vma) (hsmall : pageAlign v.brk ≤ userVmSize)
    (hpos : 0 < pageAlign v.brk) (hgrow : v.brk ≤ brk) (hbig : userVmSize < brk) (hwrap : brk < 2 ^ 64) :
    (sysBrk v brk obj obj').2.brk = v.brk := by
  have hnew : userVmSize < pageAlign brk ∨ pageAlign brk = 0 := by
    by_cases hend : brk+pageSize ≤ 2 ^ 64
    · exact Or.inl (hbig.trans_le (pageAlign_bounds hend).1)
    · exact Or.inr (pageAlign_wrap (not_le.mp hend) hwrap)
  have hnewWrap : pageAlign brk < 2 ^ 64 := by
    rw [pageAlign]
    exact (Nat.div_mul_le_self _ _).trans_lt (Nat.mod_lt _ (by decide))
  obtain ⟨hlong, hlen⟩ := brkLength_beyond (pageAlign_dvd v.brk) (pageAlign_dvd brk) hpos hsmall hnew hnewWrap
  have hbrk : doBrk v.mmap (pageAlign v.brk) ((pageAlign brk+2 ^ 64-pageAlign v.brk) % 2 ^ 64) obj obj' =
      (none, v.mmap) := by
    simp only [doBrk, hlen, if_false, doMunmap_refused obj hlong]
  have hshrink : ¬ brk < v.brk := not_lt.mpr hgrow
  simp only [sysBrk, hbrk, hshrink, if_false]
  split <;> rfl

theorem doMunmap_accepted (l : Areas) {addr : ℕ} (len : ℕ) (obj : Vma) (ha : pageSize ∣ addr)
    (hend : addr+len ≤ userVmSize) : (doMunmap l addr len obj).1 = true := by
  have hmod := Nat.mod_eq_zero_of_dvd ha
  have hrange : ¬ (addr % pageSize ≠ 0 ∨ addr > userVmSize ∨ len > userVmSize-addr) := by omega
  simp only [doMunmap, hrange, if_false]
  split
  · rfl
  split
  · rfl
  split <;> rfl

/-- A decrease moves the break, whatever becomes of the areas. -/
theorem sysBrk_shrink {brk : ℕ} (obj obj' : Vma) (hstart : v.startBrk ≤ brk) (hlt : brk < v.brk)
    (hle : v.brk ≤ pageAlign v.brk) (hsmall : pageAlign v.brk ≤ userVmSize) :
    (sysBrk v brk obj obj').2.brk = brk := by
  have hnew : pageAlign brk ≤ pageAlign v.brk := pageAlign_le (pageAlign_dvd v.brk) (by omega)
  have hlen : (pageAlign v.brk+2 ^ 64-pageAlign brk) % 2 ^ 64 = pageAlign v.brk-pageAlign brk := by
    rw [userVmSize] at hsmall
    omega
  have hok := doMunmap_accepted v.mmap (pageAlign v.brk-pageAlign brk) obj
    (pageAlign_dvd brk) (by omega)
  have hhigh : ¬ brk < v.startBrk := not_lt.mpr hstart
  simp only [sysBrk, hhigh, hlt, if_true, if_false, hlen]
  split
  next l hs =>
    rw [hs] at hok
    cases hok
  next => rfl

/-- An increase inside user memory. -/
theorem sysBrk_grow {brk : ℕ} (obj obj' : Vma) (hstart : v.startBrk ≤ brk) (hle : v.brk ≤ brk)
    (hbrk : brk ≤ userVmSize) :
    pageAlign v.brk ≤ pageAlign brk ∧ pageAlign brk ≤ userVmSize ∧ brk ≤ pageAlign brk ∧
      pageAlign brk < brk+pageSize ∧
      pageAlign (pageAlign brk-pageAlign v.brk) = pageAlign brk-pageAlign v.brk ∧
      sysBrk v brk obj obj' = (true,
        { v with
          mmap := if pageAlign brk = pageAlign v.brk then v.mmap
            else extendBrk (doMunmap v.mmap (pageAlign v.brk) (pageAlign brk-pageAlign v.brk) obj).2
              (pageAlign v.brk) (pageAlign brk-pageAlign v.brk) obj'
          brk := brk }) := by
  obtain ⟨hup, hnear⟩ := pageAlign_bounds (x := brk) (by rw [userVmSize] at hbrk; rw [pageSize]; omega)
  have hlast : pageAlign brk ≤ userVmSize := pageAlign_le userVmSize_dvd hbrk
  have hmono : pageAlign v.brk ≤ pageAlign brk := pageAlign_le (pageAlign_dvd brk) (hle.trans hup)
  have hpages := pageAlign_of_dvd (Nat.dvd_sub (pageAlign_dvd brk) (pageAlign_dvd v.brk))
    (by rw [userVmSize] at hlast; rw [pageSize]; omega)
  refine ⟨hmono, hlast, hup, hnear, hpages, ?_⟩
  have hlen : (pageAlign brk+2 ^ 64-pageAlign v.brk) % 2 ^ 64 = pageAlign brk-pageAlign v.brk := by
    rw [userVmSize] at hlast
    omega
  have hhigh : ¬ brk < v.startBrk := not_lt.mpr hstart
  have hgrow : ¬ brk < v.brk := not_lt.mpr hle
  simp only [sysBrk, hhigh, hgrow, if_false]
  rw [hlen]
  simp only [doBrk]
  rw [hpages]
  by_cases hsame : pageAlign brk = pageAlign v.brk
  · rw [if_pos (by omega), if_pos hsame]
  · rw [if_neg (by omega), if_neg hsame]
    have hok := doMunmap_accepted v.mmap (pageAlign brk-pageAlign v.brk) obj
      (pageAlign_dvd v.brk) (by omega)
    generalize doMunmap v.mmap (pageAlign v.brk) (pageAlign brk-pageAlign v.brk) obj = r at hok ⊢
    obtain ⟨ok, l⟩ := r
    simp only at hok
    subst hok
    rfl

/-- The area that ends at the break and no other one holds a range above the break
that is vacant beyond it. -/
theorem heapRange_grown {before after : Areas} {b : ℕ} (hw : WellFormed (before++h :: after))
    (hh : h ∈ v.mmap) (hend : h.mEnd = pageAlign v.brk) (hlow : h.mStart ≤ v.brk)
    (hvac : ∀ u ∈ after, b ≤ u.mStart) {top : ℕ} (hb : b ≤ top) :
    HeapRange v (before++{ h with mEnd := top } :: after) v.brk b := by
  refine ⟨before, _, after, rfl, ⟨h, hh, hend, rfl⟩, fun x hx hxb => ⟨⟨hlow.trans hx, hxb.trans_le hb⟩, ?_⟩⟩
  obtain ⟨-, hva, hbv⟩ := wellFormed_append.mp hw
  rintro u hu ⟨hstart, hfinish⟩
  rcases List.mem_append.mp hu with hu | hu
  · have := hbv u hu h List.mem_cons_self
    omega
  · have := hvac u hu
    omega

/-- Only one area of the list holds an address of the range. -/
theorem heapRange_count {l : Areas} {a b x : ℕ} (hr : HeapRange v l a b) (ha : a ≤ x) (hb : x < b) :
    l.countP (fun u => Contains u x) = 1 := by
  obtain ⟨before, heap, after, rfl, -, hrange⟩ := hr
  obtain ⟨hin, hout⟩ := hrange x ha hb
  have hnone : (before++after).countP (fun u => Contains u x) = 0 := by
    rw [List.countP_eq_zero]
    intro u hu
    simpa using hout u hu
  rw [List.countP_append] at hnone ⊢
  rw [List.countP_cons_of_pos (by simpa using hin)]
  omega

/-- New pages for the heap: they have to be free, or inside one area, which gives
them up. -/
theorem heapRange_new (hw : WellFormed v.mmap) (hh : h ∈ v.mmap) (hend : h.mEnd = pageAlign v.brk)
    (hlow : h.mStart ≤ v.brk) (hbrk : v.brk ≤ h.mEnd) (obj obj' : Vma) {nb len : ℕ}
    (hsum : pageAlign v.brk+len = pageAlign nb) (hup : nb ≤ pageAlign nb) (hlen : pageAlign len = len)
    (hpos : len ≠ 0) (hlast : pageAlign nb ≤ userVmSize) :
    HeapRange v (extendBrk (doMunmap v.mmap (pageAlign v.brk) len obj).2 (pageAlign v.brk) len obj') v.brk nb ↔
      Vacant Vma.mStart Vma.mEnd (pageAlign v.brk) (pageAlign nb) v.mmap ∨
        ∃ u ∈ v.mmap, u.mStart ≤ pageAlign v.brk ∧ pageAlign nb ≤ u.mEnd := by
  have hwl := (doMunmap_spec hw (pageAlign v.brk) len obj).1
  have hin := doMunmap_mem hw len obj hh hend.le
  obtain ⟨before, after, hcut, hext⟩ := extendBrk_grow hwl.1 len hin hend
  obtain ⟨-, hva, hbv⟩ := wellFormed_append.mp (hcut ▸ hwl)
  obtain ⟨⟨hh', -⟩, hrest, hafter⟩ := wellFormed_cons.mp hva
  rw [hext obj']
  constructor
  · intro hrange
    by_contra hnot
    obtain ⟨hmeet, hinside⟩ := not_or.mp hnot
    have hsame := doMunmap_other hw len obj (by rwa [hlen, hsum])
    rw [hsame] at hcut
    rw [Vacant] at hmeet
    push Not at hmeet
    obtain ⟨u, hu, hue, hus⟩ := hmeet
    have hua : u ∈ after := by
      rw [hcut] at hu
      rcases List.mem_append.mp hu with hu | hu
      · have := hbv u hu h List.mem_cons_self
        omega
      · rcases List.mem_cons.mp hu with rfl | hu
        · omega
        · exact hu
    have hstart := hafter u hua
    have hunb : u.mStart < nb := by
      by_contra hle
      have := pageAlign_le (hw.2 u hu).1 (not_lt.mp hle)
      omega
    -- the first address of `u` is in `u` and in the area that has grown over it
    have hone := heapRange_count hrange (by omega : v.brk ≤ u.mStart) hunb
    have hgrown : Contains { h with mEnd := pageAlign v.brk+len } u.mStart := by
      constructor
      · exact hh'.le.trans (by omega)
      · show u.mStart < pageAlign v.brk+len
        omega
    rw [List.countP_append, List.countP_cons_of_pos (by simpa using hgrown)] at hone
    have htwo : 0 < after.countP (fun w => Contains w u.mStart) := by
      rw [List.countP_pos_iff]
      have hpos := hw.1.1 u hu
      exact ⟨u, hua, by simpa [Contains, Within] using hpos⟩
    omega
  · intro hfree
    have hvac : Vacant Vma.mStart Vma.mEnd (pageAlign v.brk) (pageAlign nb)
        (doMunmap v.mmap (pageAlign v.brk) len obj).2 := by
      have hok := doMunmap_accepted v.mmap len obj (pageAlign_dvd v.brk) (by omega)
      have hmunmap := @doMunmap_vacant _ hw _ len obj (by rwa [hlen]) hok
      rw [hlen, hsum] at hmunmap
      rcases hmunmap with hvac | ⟨hsame, hout⟩
      · exact hvac
      · rw [hsame]
        exact hfree.resolve_right hout
    rw [hcut] at hvac hwl
    rw [hsum]
    apply heapRange_grown hwl hh hend hlow _ hup
    intro u hu
    have hpos := hrest.1.1 u hu
    have hstart := hafter u hu
    have := hvac u (by simp [hu])
    omega

/-- `sbrk` tells the truth exactly for the increments it can serve. -/
theorem sbrk_truth_iff (hw : WellFormed v.mmap) (hbrk : v.brk < 2 ^ 64)
    (hheap : ∃ h ∈ v.mmap, h.mEnd = pageAlign v.brk) (increment : ℕ) (obj obj' : Vma) :
    SbrkTruth v increment (sbrkCall v increment obj obj') ↔ SbrkFits v increment := by
  obtain ⟨h, hh, hend⟩ := hheap
  obtain ⟨hlow, hup, hlast⟩ := brk_bounds hw hbrk hh hend
  have hpos : h.mStart < h.mEnd := hw.1.1 h hh
  have hanswer : v.brk ≠ 2 ^ 64-1 := by
    rw [userVmSize] at hlast
    omega
  have htruth : SbrkTruth v increment (sbrkCall v increment obj obj') ↔
      (sysBrk v (newBrk v increment) obj obj').2.brk = newBrk v increment ∧
        (v.brk < newBrk v increment →
          HeapRange v (sysBrk v (newBrk v increment) obj obj').2.mmap v.brk (newBrk v increment)) := by
    simp only [SbrkTruth, sbrkCall, sbrk, hanswer, true_and, false_and, or_false]
    rfl
  rw [htruth, SbrkFits]
  have hwrap : newBrk v increment < 2 ^ 64 := Nat.mod_lt _ (by decide)
  generalize newBrk v increment = nb at hwrap ⊢
  by_cases hstart : v.startBrk ≤ nb
  · rcases lt_trichotomy nb v.brk with hlt | heq | hgt
    · -- a decrease
      rw [sysBrk_shrink obj obj' hstart hlt (by omega) (by omega)]
      exact iff_of_true ⟨rfl, fun hup => absurd hup (by omega)⟩ (Or.inr ⟨hstart, Or.inl hlt⟩)
    · obtain ⟨-, -, -, -, -, hsys⟩ := sysBrk_grow obj obj' hstart heq.ge (by omega)
      rw [hsys]
      exact iff_of_true ⟨rfl, fun hup => absurd hup (by omega)⟩ (Or.inl heq)
    · by_cases hbig : userVmSize < nb
      · rw [sysBrk_beyond obj obj' (by omega) (by omega) hgt.le hbig hwrap]
        apply iff_of_false
        · rintro ⟨hsame, -⟩
          omega
        · rintro (hsame | ⟨-, hlt | ⟨hsmall, -⟩⟩) <;> omega
      · obtain ⟨hmono, hsmall, hnb, -, hlen, hsys⟩ := sysBrk_grow obj obj' hstart hgt.le (not_lt.mp hbig)
        rw [hsys]
        simp only [true_and, hgt, true_implies]
        have hcond : (nb = v.brk ∨ v.startBrk ≤ nb ∧ (nb < v.brk ∨ nb ≤ userVmSize ∧
              (pageAlign nb = pageAlign v.brk ∨
                Vacant Vma.mStart Vma.mEnd (pageAlign v.brk) (pageAlign nb) v.mmap ∨
                ∃ u ∈ v.mmap, u.mStart ≤ pageAlign v.brk ∧ pageAlign nb ≤ u.mEnd))) ↔
            (pageAlign nb = pageAlign v.brk ∨
              Vacant Vma.mStart Vma.mEnd (pageAlign v.brk) (pageAlign nb) v.mmap ∨
              ∃ u ∈ v.mmap, u.mStart ≤ pageAlign v.brk ∧ pageAlign nb ≤ u.mEnd) := by
          simp only [hgt.ne', hstart, not_lt.mpr hgt.le, not_lt.mp hbig, false_or, true_and]
        rw [hcond]
        by_cases hsame : pageAlign nb = pageAlign v.brk
        · -- the old last page is enough
          rw [if_pos hsame]
          refine iff_of_true ?_ (Or.inl hsame)
          obtain ⟨before, after, hcut⟩ := List.append_of_mem hh
          rw [hcut]
          have hafter := (wellFormed_cons.mp (wellFormed_append.mp (hcut ▸ hw)).2.1).2.2
          apply heapRange_grown (hcut ▸ hw) hh hend hlow _ (by omega : nb ≤ h.mEnd)
          intro u hu
          have := hafter u hu
          omega
        · rw [if_neg hsame, or_iff_right hsame]
          exact heapRange_new hw hh hend hlow hup obj obj' (by omega) hnb hlen (by omega) hsmall
  · -- below the start of the heap nothing happens
    have hstay : (sysBrk v nb obj obj').2.brk = v.brk := by
      rw [sysBrk]
      simp only [not_le.mp hstart, if_true]
    rw [hstay]
    constructor
    · exact fun hdone => Or.inl hdone.1.symm
    · rintro (hsame | ⟨hle, -⟩)
      · exact ⟨hsame.symm, fun hup => absurd hup (by omega)⟩
      · exact absurd hle hstart

end Sbrk

/-- A process whose heap ends at 0x403000, and its neighbour. -/
def crowded : Vmm := ⟨[⟨0x400000, 0x403000, 7, 7⟩, ⟨0x404000, 0x405000, 3, 3⟩], 0x401000, 0x403000⟩

theorem crowded_wellFormed : WellFormed crowded.mmap := by
  simp [crowded, WellFormed, Ordered, Bounded, pageSize, userVmSize]

theorem sbrk_truth_crowded : SbrkTruth crowded 0x1000 (sbrkCall crowded 0x1000 userStack userStack) := by
  apply (sbrk_truth_iff crowded_wellFormed (by decide)
    ⟨⟨0x400000, 0x403000, 7, 7⟩, by simp [crowded], by decide⟩ 0x1000 userStack userStack).mpr
  refine Or.inr ⟨by decide, Or.inr ⟨by decide, Or.inr (Or.inl ?_)⟩⟩
  unfold Vacant
  decide +kernel

/-- Past the end of user memory nothing happens, and the answer is still the old
break. -/
theorem sbrk_overrun : ¬ ∀ (v : Vmm) (increment : ℕ) (obj obj' : Vma), WellFormed v.mmap → v.brk < 2 ^ 64 →
    (∃ h ∈ v.mmap, h.mEnd = pageAlign v.brk) → SbrkTruth v increment (sbrkCall v increment obj obj') := by
  intro hall
  have htruth := hall crowded (2 ^ 60) userStack userStack crowded_wellFormed (by decide)
    ⟨⟨0x400000, 0x403000, 7, 7⟩, by simp [crowded], by decide⟩
  have hanswer : (sbrkCall crowded (2 ^ 60) userStack userStack).1 = 0x403000 := rfl
  have hbrk : (sbrkCall crowded (2 ^ 60) userStack userStack).2.brk = 0x403000 := by decide +kernel
  rcases htruth with ⟨-, hmoved, -⟩ | ⟨hfail, -⟩
  · rw [hbrk] at hmoved
    exact absurd hmoved (by decide)
  · rw [hanswer] at hfail
    exact absurd hfail (by decide)

end BabyOS.AreaRequests

import BabyOS.MappedFrames

/-!
# Device memory in the page tables

The framebuffer is mapped with the same entries as ordinary frames. Which
addresses each step passes to `get_page_ref`, `inc_page_ref`, `dec_page_ref` and
`free_pages`: only `free_page_range` has a test for device memory.
-/

set_option autoImplicit false

namespace BabyOS.FramebufferPages
open BabyOS.BuddyMachine BabyOS.BuddyArithmetic BabyOS.BuddyBoot BabyOS.BuddyRun
open BabyOS.AreaMachine BabyOS.FrameCounts BabyOS.RadixTables BabyOS.PageMachine BabyOS.PageCounts
open BabyOS.AreaInvariant BabyOS.AreaOperations BabyOS.ProcessMachine BabyOS.ProcessInvariant
open BabyOS.ProcessChanges BabyOS.ProcessSteps BabyOS.FrameTallies BabyOS.ImagePages
open BabyOS.CopyOnWrite
open BabyOS.MappedFrames (origin_ram)

/-! ## The framebuffer -/

/-- The physical address and the size of the video memory. -/
structure Screen where
  vram : ℕ
  size : ℕ

/-- The frames that the framebuffer is mapped from. -/
def Screen.frames (scr : Screen) : Set ℕ :=
  {f | mapNr scr.vram ≤ f ∧ f < mapNr scr.vram+scr.size / pageSize}

/-- `framebuffer_t::ioctl` with `FB_MAP`, up to the store of the address. -/
def fbMap (scr : Screen) (m : Machine) : Option Machine :=
  match doMmap m.self.vmm.mmap 0 scr.size 7 0 with
  | (none, _) => some m
  | (some vaddr, l) =>
    let m := m.setAreas l
    (mapPages (pageOf (vaddr+scr.size)-pageOf vaddr) m.self.tables (pageOf vaddr) (mapNr scr.vram)
      m.phys).map fun r => m.setTables r.1 r.2

inductive FbEvent
  | core (e : Event)
  | map

inductive FbStep (scr : Screen) : Machine → FbEvent → Machine → Prop
  | core {m m' : Machine} {e : Event} : Step m e m' → FbStep scr m (.core e) m'
  | map {m m' : Machine} : m.self.alive → fbMap scr m = some m' → FbStep scr m .map m'

/-! ## The addresses that are passed -/

/-- The addresses that the loops of `release` over the areas pass. -/
def passedAreas (t : Pml4Table) : Areas → List ℕ
  | [] => []
  | vma :: rest => passedRange t vma.mStart vma.mEnd++passedAreas t rest

/-- How often `vmm_t::release` passes a frame: for the pages of the areas, and
for the tables below the root. -/
def releases (m : Machine) (f : ℕ) : ℕ :=
  (passedAreas m.self.tables m.self.vmm.mmap).count (frameAddr f)+
    (tableCount m.self.tables f-if m.self.tables.frame = f then 1 else 0)

/-- An event of a process passes an address to the functions that index
`m_pages`: the counts when the passing begins, the address, and how often. A
fault that no area allows, and an image that does not load, end in `release`. -/
inductive Passes (m : Machine) : Event → (ℕ → ℤ) → ℕ → ℕ → Prop
  | copied {n : ℕ} {pte : Pte} : findPte m.self.tables n = some pte →
      Passes m .fork m.phys.buddy.ref (frameAddr pte.frame) 1
  | userProtection {addr rsp : ℕ} {write : Bool} {pte : Pte} :
      m.translate (pageOf addr) = some pte → pte.writable = false →
      Passes m (.userFault addr write rsp) m.phys.buddy.ref (frameAddr pte.frame+addr % pageSize) 1
  | kernelProtection {addr rsp : ℕ} {write : Bool} {pte : Pte} :
      m.translate (pageOf addr) = some pte → supervisorMayWrite pte = false →
      Passes m (.kernelFault addr write rsp) m.phys.buddy.ref (frameAddr pte.frame+addr % pageSize) 1
  | userExit {addr rsp : ℕ} {write : Bool} (f : ℕ) :
      Passes m (.userFault addr write rsp) m.phys.buddy.ref (frameAddr f) (releases m f)
  | kernelExit {addr rsp : ℕ} {write : Bool} (f : ℕ) :
      Passes m (.kernelFault addr write rsp) m.phys.buddy.ref (frameAddr f) (releases m f)
  | unmapped {op : Op} {x : ℕ × ℕ} (f : ℕ) : freedBy m op = some x →
      Passes m (.area op) m.phys.buddy.ref (frameAddr f)
        ((passedRange m.self.tables x.1 x.2).count (frameAddr f))
  | exit (f : ℕ) : Passes m .exit m.phys.buddy.ref (frameAddr f) (releases m f)
  | exec {image : List Image} {startBrk : ℕ} (f : ℕ) :
      Passes m (.exec image startBrk) m.phys.buddy.ref (frameAddr f) (releases m f)
  | execFailed {image : List Image} {startBrk : ℕ} {m₁ m₂ : Machine} (f : ℕ) : m.self.alive →
      release m = some m₁ → loadSegments image m₁ = some (false, m₂) →
      Passes m (.exec image startBrk) m₂.phys.buddy.ref (frameAddr f) (releases m₂ f)
  | kernelFree {pa order : ℕ} (f : ℕ) : ownedBlock m.owned pa order → mapNr pa ≤ f → f < mapNr pa+2 ^ order →
      Passes m (.kernelFree pa order) m.phys.buddy.ref (frameAddr f) 1

/-! ## Runs -/

/-- A start as for copy-on-write; the framebuffer is no memory of the allocator. -/
structure Start (scr : Screen) (M : Set ℕ) (m : Machine) : Prop extends CopyOnWrite.Start M m where
  separate : ∀ f ∈ scr.frames, f ∉ M

inductive Run (scr : Screen) (M : Set ℕ) (allowed : Machine → FbEvent → Prop) : Machine → Prop
  | start {m : Machine} : Start scr M m → Run scr M allowed m
  | step {m m' : Machine} {e : FbEvent} : Run scr M allowed m → allowed m e → FbStep scr m e m' →
      Run scr M allowed m'

/-- No page of the framebuffer is present in the caller's tables. -/
def NoDevice (scr : Screen) (m : Machine) : Prop :=
  ∀ n pte, findPte m.self.tables n = some pte → pte.frame ∉ scr.frames

/-- Area operations keep the list well formed and free no page that stays mapped,
a process forks without the framebuffer, and the framebuffer is where
`free_page_range` looks for device memory. -/
def Allowed (scr : Screen) (m : Machine) : FbEvent → Prop
  | .core (.area op) => AreaRun.Clear m.self.vmm op ∧
      ∀ x, freedBy m op = some x → passedRange m.self.tables x.1 x.2 = []
  | .core .fork => NoDevice scr m
  | .map => MmapClear m.self.vmm.mmap 0 scr.size 0 ∧ ∀ f ∈ scr.frames, Device f
  | .core _ => True

/-- Every address that is passed has a record, and belongs to a frame of the
allocator that has a count for each time it is passed. -/
def Indexed (L : Layout) (m : Machine) (e : Event) : Prop :=
  ∀ ref pa times, Passes m e ref pa times → 0 < times →
    pa < L.endUsable ∧ mapNr pa < L.pageNum ∧ Managed L (mapNr pa) ∧ (times : ℤ) ≤ ref (mapNr pa)

/-! ## Mapping device memory -/

section Mapping

variable {D M : Set ℕ} {m m' : Machine} {t' : Pml4Table} {s' : Phys} {n f count : ℕ}

theorem map_device (h : Held D M m) (hf : f ∈ D)
    (hs : mapPage m.self.tables n ⟨f, true⟩ m.phys = some (t', s')) :
    Held D M (m.setTables t' s') ∧ (Lit D m.self.tables → Lit D t') := by
  obtain ⟨new, hgrow, hplaced⟩ := mapPage_spec h.frames hs
  have hleaf : ∀ g ∉ D, leafCount t' g ≤ leafCount m.self.tables g := by
    intro g hg
    have hcount : leafCount t' g+pageMaps m.self.tables g n =
        leafCount m.self.tables g+if f = g then 1 else 0 := placed_leafCount hplaced g
    rw [if_neg (fun heq : f = g => hg (heq ▸ hf))] at hcount
    omega
  have htable : ∀ g, tableCount t' g = tableCount m.self.tables g+new g := placed_tableCount hplaced
  have hfresh : ∀ g, 0 < new g → g ∈ M ∧ m.phys.buddy.ref g = 0 := fun g hg =>
    ⟨(hgrow.fresh g hg).1, (hgrow.fresh g hg).2.1⟩
  have hold : ∀ k pte, findPte t' k = some pte →
      pte = ⟨f, true⟩ ∨ findPte m.self.tables k = some pte := by
    intro k pte hpte
    rw [placed_find hplaced] at hpte
    split at hpte
    · exact Or.inl (Option.some.inj hpte).symm
    · exact Or.inr hpte
  refine ⟨h.change ⟨hgrow.frames, fun g hg => ?_, fun g hg => ?_, fun g hg => ?_, fun g hg => ?_,
    fun g hg => ?_, fun k pte hpte hD _ => ?_, fun g hpos _ => ?_⟩, fun hlit k pte hpte hD => ?_⟩
  · by_cases hnew : 0 < new g
    · exact Or.inl (hfresh g hnew).1
    · right
      have := hleaf g hg
      have := htable g
      omega
  · have hnew : ¬ 0 < new g := fun hpos => (h.device g hg).1 (hfresh g hpos).1
    have := htable g
    omega
  · have := hleaf g (h.not_device hg)
    have := htable g
    rw [hgrow.ref g]
    omega
  · exact Or.inl (hleaf g (h.not_device hg))
  · by_cases hnew : 0 < new g
    · right
      have hzero := (hfresh g hnew).2
      have hclean := (h.self_clean hg hzero.le).1
      have := hleaf g (h.not_device hg)
      exact ⟨hzero, by omega⟩
    · left
      have := htable g
      omega
  · rcases hold k pte hpte with rfl | hpte
    · exact absurd hf hD
    · exact Or.inl hpte
  · apply hgrow.mem
    by_contra hne
    obtain ⟨hM, hzero⟩ := hfresh g (Nat.pos_of_ne_zero hne)
    have := hpos hM
    omega
  · rcases hold k pte hpte with rfl | hpte
    · rfl
    · exact hlit k pte hpte hD

theorem map_devices (h : Held D M m) (hf : ∀ k < count, f+k ∈ D)
    (hs : mapPages count m.self.tables n f m.phys = some (t', s')) :
    Held D M (m.setTables t' s') ∧ (Lit D m.self.tables → Lit D t') := by
  induction count generalizing m n f with
  | zero =>
    obtain ⟨rfl, rfl⟩ := Prod.mk.inj (Option.some.inj hs)
    have hself : Held D M (m.setSelf { m.self with tables := m.self.tables }) :=
      sound_setSelf h rfl (h.areas _ h.running.1)
    have hreload := sound_reload hself
    exact ⟨hreload, id⟩
  | succ count ih =>
    rw [mapPages] at hs
    split at hs
    · cases hs
    next t₁ s₁ hpage =>
    obtain ⟨h₁, hlit⟩ := map_device h (hf 0 (Nat.succ_pos count)) hpage
    have htables : (m.setTables t₁ s₁).self.tables = t₁ :=
      congrArg Process.tables (setTables_self m t₁ s₁ m.owned)
    have htwice : (m.setTables t₁ s₁).setTables t' s' = m.setTables t' s' :=
      setTables_twice m t₁ t' s₁ s' m.owned
    rw [← htables] at hs
    obtain ⟨hheld, hlit'⟩ := ih h₁ (fun k hk => by
      rw [Nat.add_assoc, Nat.add_comm 1]
      exact hf (k+1) (by omega)) hs
    rw [htables] at hlit'
    rw [htwice] at hheld
    exact ⟨hheld, fun hl => hlit' (hlit hl)⟩

/-- An address of `do_mmap` that the caller did not choose is a page address. -/
theorem doMmap_aligned {l l' : Areas} {len prot vaddr : ℕ} (h : WellFormed l)
    (hs : doMmap l 0 len prot 0 = (some vaddr, l')) : pageSize ∣ vaddr := by
  have hplace : ∀ addr, mmapAt l addr (pageAlign len) prot = (some vaddr, l') → vaddr = addr := by
    intro addr hat
    rw [mmapAt] at hat
    split at hat
    · cases hat
    · exact (Option.some.inj (Prod.mk.inj hat).1).symm
  simp only [doMmap] at hs
  split at hs
  · rw [← Option.some.inj (Prod.mk.inj hs).1]
    exact dvd_zero _
  split at hs
  · cases hs
  rw [if_neg (by decide)] at hs
  split at hs
  · cases hs
  rw [hplace _ hs]
  have hcut : l = (findVma l vmUnmappedBase).1++(findVma l vmUnmappedBase).2 :=
    List.takeWhile_append_dropWhile.symm
  rw [hcut] at h
  exact unmapped_aligned (wellFormed_append.mp h).2.1 (by decide)

end Mapping

/-! ## What a release passes -/

section Releases

variable {D M : Set ℕ} {m : Machine} {t : Pml4Table} {f : ℕ}

theorem frameAddr_inj {g : ℕ} (h : frameAddr f = frameAddr g) : f = g := by
  rw [← frameOf_frameAddr f, h, frameOf_frameAddr]

theorem count_passedPages (t : Pml4Table) (f count n : ℕ) :
    (passedPages t count n).count (frameAddr f) ≤ ∑ k ∈ Finset.Ico n (n+count), pageMaps t f k := by
  induction count generalizing n with
  | zero => exact Nat.zero_le _
  | succ count ih =>
    have hsum : ∑ k ∈ Finset.Ico n (n+(count+1)), pageMaps t f k =
        pageMaps t f n+∑ k ∈ Finset.Ico (n+1) (n+1+count), pageMaps t f k := by
      rw [Finset.sum_eq_sum_Ico_succ_bot (by omega), show n+1+count = n+(count+1) by omega]
    have hrest := ih (n+1)
    rw [hsum, passedPages]
    split
    · omega
    next pte hpte =>
      have hpage : pageMaps t f n = if pte.frame = f then 1 else 0 := by
        rw [pageMaps, hpte, Option.elim_some, maps]
      split
      · exact Nat.zero_le _
      · rw [List.count_cons, hpage]
        by_cases heq : pte.frame = f
        · subst heq
          simp only [beq_self_eq_true, if_true]
          omega
        · have haddr : (frameAddr pte.frame == frameAddr f) = false :=
            beq_eq_false_iff_ne.mpr (fun hc => heq (frameAddr_inj hc))
          rw [haddr, if_neg heq]
          simp only [Bool.false_eq_true, if_false]
          omega

theorem count_passedAreas {l : Areas} (h : WellFormed l) (t : Pml4Table) (f : ℕ) :
    (passedAreas t l).count (frameAddr f) ≤ leafCount t f := by
  have hsum : ∀ l : Areas, (∀ v ∈ l, Bounded v) → (passedAreas t l).count (frameAddr f) ≤
      OrderedRanges.rangeSum firstPage lastPage (pageMaps t f) l := by
    intro l hl
    induction l with
    | nil => exact Nat.zero_le _
    | cons v rest ih =>
      obtain ⟨hstart, hend, -⟩ := hl v List.mem_cons_self
      have hrest := ih (fun u hu => hl u (List.mem_cons_of_mem v hu))
      have hone := count_passedPages t f (lastPage v-firstPage v) (firstPage v)
      rw [passedAreas, List.count_append, OrderedRanges.rangeSum, passedRange, rangePages_eq hstart hend]
      change (passedPages t (lastPage v-firstPage v) (firstPage v)).count (frameAddr f)+_ ≤ _
      by_cases hle : firstPage v ≤ lastPage v
      · rw [Nat.add_sub_cancel' hle] at hone
        omega
      · rw [Nat.sub_eq_zero_of_le (by omega), passedPages, List.count_nil]
        omega
  exact (hsum l h.2).trans (areas_sum h t f).1

theorem passedAreas_ram {l : Areas} (h : 0 < (passedAreas t l).count (frameAddr f)) : ¬ Device f := by
  induction l with
  | nil => cases h
  | cons v rest ih =>
    rw [passedAreas, List.count_append] at h
    by_cases hrest : 0 < (passedAreas t rest).count (frameAddr f)
    · exact ih hrest
    · have hin : frameAddr f ∈ passedRange t v.mStart v.mEnd := List.count_pos_iff.mp (by omega)
      obtain ⟨k, -, pte, -, hram, heq⟩ := mem_passedPages hin
      rw [frameAddr_inj heq]
      exact hram

/-- A release passes frames of the allocator, each at most as often as it is counted. -/
theorem releases_counted (h : Held D M m) (hdevice : ∀ f ∈ D, Device f) (hpos : 0 < releases m f) :
    f ∈ M ∧ (releases m f : ℤ) ≤ m.phys.buddy.ref f := by
  have hareas : WellFormed m.self.vmm.mmap := h.areas _ h.running.1
  have hpages := count_passedAreas hareas m.self.tables f
  have hleaf : leafCount m.self.tables f ≤ leafTotal m f :=
    le_total (w := fun p => leafCount p.tables f) h.running.1
  have htable : tableCount m.self.tables f ≤ tableTotal m f :=
    le_total (w := fun p => tableCount p.tables f) h.running.1
  have hD : f ∉ D := by
    intro hf
    have hnone := (h.device f hf).2
    rw [releases] at hpos
    have hpage : 0 < (passedAreas m.self.tables m.self.vmm.mmap).count (frameAddr f) := by omega
    exact passedAreas_ram hpage (hdevice f hf)
  rw [releases] at hpos ⊢
  have hM : f ∈ M := h.managed f hD (by omega)
  have henough := h.enough f hM
  refine ⟨hM, ?_⟩
  omega

end Releases

/-! ## The invariant -/

/-- The invariant of the memory, and every device page is writable. -/
structure Safe (D M : Set ℕ) (m : Machine) : Prop where
  held : Held D M m
  lit : ∀ p < m.count, Lit D (m.procs p).tables

/-- The frames of the framebuffer that `free_page_range` leaves alone. -/
def deviceFrames (scr : Screen) : Set ℕ := {f | f ∈ scr.frames ∧ Device f}

section Steps

variable {D M : Set ℕ} {m m' : Machine} {scr : Screen} {e : FbEvent}

theorem lit_update {x : Process} {procs : ℕ → Process} {count p : ℕ}
    (h : ∀ q < count, Lit D (procs q).tables) (hx : Lit D x.tables) :
    ∀ q < count, Lit D (Function.update procs p x q).tables := by
  intro q hq
  by_cases hqp : q = p
  · rw [hqp, Function.update_self]
    exact hx
  · rw [Function.update_of_ne hqp]
    exact h q hq

theorem Safe.self (h : Safe D M m) : Lit D m.self.tables := h.lit _ h.held.running.1

theorem safe_setSelf (h : Safe D M m) {x : Process} (ht : x.tables = m.self.tables)
    (hw : WellFormed x.vmm.mmap) : Safe D M (m.setSelf x) := by
  refine ⟨sound_setSelf h.held ht hw, lit_update h.lit ?_⟩
  rw [ht]
  exact h.self

theorem lit_empty (frame : ℕ) : Lit D ⟨frame, fun _ => none⟩ := by
  intro n pte hpte
  rw [empty_find] at hpte
  cases hpte

theorem safe_release (h : Safe D M m) (hdevice : ∀ f ∈ D, Device f) (hs : release m = some m') :
    Safe D M m' := by
  refine ⟨sound_release h.held hdevice hs, ?_⟩
  obtain ⟨htables, -, -, hcount, hcur, hother⟩ := release_self hs
  intro q hq
  rw [hcount] at hq
  by_cases hqc : q = m.current
  · rw [hqc, ← hcur]
    change Lit D m'.self.tables
    rw [htables]
    exact lit_empty _
  · rw [hother q hqc]
    exact h.lit q hq

theorem safe_exit (h : Safe D M m) (hdevice : ∀ f ∈ D, Device f)
    (hs : ProcessMachine.exit m = some m') : Safe D M m' := by
  obtain ⟨m₁, hrel, rfl⟩ := Option.map_eq_some_iff.mp hs
  have h₁ := safe_release h hdevice hrel
  exact safe_setSelf h₁ rfl (h₁.held.areas _ h₁.held.running.1)

theorem safe_resolved (h : Safe D M m) {addr : ℕ} (hr : Resolved D M m m' addr) : Safe D M m' := by
  refine ⟨sound_resolved h.held hr, ?_⟩
  obtain ⟨t', s', rfl, -, -, -, pte₀, hw, hfind⟩ := hr.change
  apply lit_update h.lit
  intro n pte hpte hf
  change findPte t' n = some pte at hpte
  rw [hfind] at hpte
  split at hpte
  · rw [← Option.some.inj hpte]
    exact hw
  · exact h.self n pte hpte hf

theorem safe_doPageFault (h : Safe D M m) (hdevice : ∀ f ∈ D, Device f) {addr err rsp : ℕ}
    (herr : err &&& 1 = 0 → findPte m.self.tables (pageOf addr) = none)
    (hram : ∀ pte, findPte m.self.tables (pageOf addr) = some pte → pte.frame ∉ D)
    (hs : doPageFault m addr err rsp = some m') : Safe D M m' := by
  rcases doPageFault_cases h.held herr hram hs with hexit | ⟨l, hw, -, -, hcase⟩
  · exact safe_exit h hdevice hexit
  have hl : Safe D M (m.setAreas l) := safe_setSelf h rfl hw
  rcases hcase with rfl | hres
  · exact hl
  · exact safe_resolved hl hres

theorem safe_fork (h : Safe D M m)
    (hnone : ∀ n pte, findPte m.self.tables n = some pte → pte.frame ∉ D)
    (hs : ProcessMachine.fork m = some m') : Safe D M m' := by
  obtain ⟨child, parent, first, hf⟩ := fork_forked h.held hs
  refine ⟨sound_fork h.held hf, fun p hp => ?_⟩
  rcases fork_find hf h.held.running.1 hp with ⟨-, hfind⟩ | ⟨⟨hlt, -⟩, hsame⟩
  · intro n pte hpte hD
    rw [hfind] at hpte
    obtain ⟨q, hq, rfl⟩ := Option.map_eq_some_iff.mp hpte
    exact absurd hD (hnone n q hq)
  · rw [hsame]
    exact h.lit p hlt

theorem safe_loading (h : Safe D M m) (hl : Loading D M m m') : Safe D M m' := by
  refine ⟨hl.held, fun q hq => ?_⟩
  rw [hl.place.2] at hq
  by_cases hqc : q = m.current
  · rw [hqc, ← hl.place.1]
    exact hl.lit h.self
  · rw [hl.others q hqc]
    exact h.lit q hq

theorem safe_exec (h : Safe D M m) (hdevice : ∀ f ∈ D, Device f) (halive : m.self.alive = true)
    {image : List Image} {startBrk : ℕ} (hs : ProcessMachine.exec m image startBrk = some m') :
    Safe D M m' := by
  obtain ⟨m₁, m₂, hrel, hloaded, hcase⟩ := exec_cases h.held hdevice halive hs
  have h₂ := safe_loading (safe_release h hdevice hrel) hloaded
  rcases hcase with ⟨-, hexit⟩ | ⟨v, hw, -, rfl⟩
  · exact safe_exit h₂ hdevice hexit
  · exact safe_setSelf h₂ rfl hw

theorem safe_areaOp (h : Safe D M m) {op : Op} (hclear : AreaRun.Clear m.self.vmm op)
    (hfree : ∀ x, freedBy m op = some x → passedRange m.self.tables x.1 x.2 = [])
    (hs : areaOp m op (freedBy m op) = some m') : Safe D M m' := by
  have hareas : WellFormed m.self.vmm.mmap := h.held.areas _ h.held.running.1
  obtain ⟨ok, v, hperform, hcase⟩ := areaOp_nothing hfree hs
  have hw := (AreaRun.perform_spec hareas hclear hperform).1
  have hset : Safe D M (m.setSelf { m.self with vmm := v }) := safe_setSelf h rfl hw
  rcases hcase with rfl | rfl
  · exact hset
  · exact ⟨sound_reload hset.held, hset.lit⟩

theorem safe_fbMap (h : Safe D M m) (hclear : MmapClear m.self.vmm.mmap 0 scr.size 0)
    (hframes : ∀ f ∈ scr.frames, f ∈ D) (hs : fbMap scr m = some m') : Safe D M m' := by
  have hareas : WellFormed m.self.vmm.mmap := h.held.areas _ h.held.running.1
  have hw := (doMmap_spec hareas 7 hclear).1
  rw [fbMap] at hs
  split at hs
  · obtain rfl := Option.some.inj hs
    exact h
  next vaddr l hmap =>
  rw [hmap] at hw
  obtain ⟨⟨t', s'⟩, hpages, rfl⟩ := Option.map_eq_some_iff.mp hs
  have hl : Safe D M (m.setAreas l) := safe_setSelf h rfl hw
  obtain ⟨i, hi⟩ := doMmap_aligned hareas hmap
  have hcount : pageOf (vaddr+scr.size)-pageOf vaddr = scr.size / pageSize := by
    rw [pageOf, pageOf, hi, Nat.mul_add_div (by decide), Nat.mul_div_cancel_left _ (by decide),
      Nat.add_sub_cancel_left]
  rw [hcount] at hpages
  have hin : ∀ k < scr.size / pageSize, mapNr scr.vram+k ∈ D := fun k hk =>
    hframes _ ⟨Nat.le_add_right _ k, by omega⟩
  obtain ⟨hheld, hlit⟩ := map_devices hl.held hin hpages
  exact ⟨hheld, lit_update hl.lit (hlit hl.self)⟩

theorem safe_step (hdevice : ∀ f ∈ D, Device f) (hD : ∀ f ∈ scr.frames, Device f → f ∈ D)
    (hscr : ∀ f ∈ D, f ∈ scr.frames) (h : Safe D M m) (ha : Allowed scr m e) (hs : FbStep scr m e m') :
    Safe D M m' := by
  have hclean : ∀ n pte, m.translate n = some pte → pte.writable = false →
      ∀ q, findPte m.self.tables n = some q → q.frame ∉ D := by
    intro n pte htr hw q hq hf
    rw [h.held.mirror, hq] at htr
    have hlit := h.self n q hq hf
    rw [Option.some.inj htr, hw] at hlit
    cases hlit
  have hwrites : ∀ pte, supervisorMayWrite pte = false → pte.writable = false := by
    intro pte hpte
    exact (Bool.or_eq_false_iff.mp hpte).1
  -- a page that is present at a fault is not writable
  have hram : ∀ addr, (∀ pte, m.translate (pageOf addr) = some pte → pte.writable = false) →
      ∀ pte, findPte m.self.tables (pageOf addr) = some pte → pte.frame ∉ D := by
    intro addr hfault pte hpte
    have htr : m.translate (pageOf addr) = some pte := (h.held.mirror _).trans hpte
    exact hclean _ pte htr (hfault pte htr) pte hpte
  cases hs with
  | map halive hmap =>
    exact safe_fbMap h ha.1 (fun f hf => hD f hf (ha.2 f hf)) hmap
  | core hs =>
    cases hs with
    | area _ hop _ => exact safe_areaOp h ha.1 ha.2 hop
    | userFault _ _ hpresent hfault =>
      exact safe_doPageFault h hdevice (fun hz => faultCode_absent h.held hz)
        (hram _ fun pte hpte => (hpresent pte hpte).2) hfault
    | userStore => exact ⟨sound_storeByte h.held _ _ _, h.lit⟩
    | kernelFault _ _ hpresent hfault =>
      exact safe_doPageFault h hdevice (fun hz => faultCode_absent h.held hz)
        (hram _ fun pte hpte => hwrites pte (hpresent pte hpte).2) hfault
    | kernelStore => exact ⟨sound_storeByte h.held _ _ _, h.lit⟩
    | fork _ hfork => exact safe_fork h (fun n pte hpte hf => ha n pte hpte (hscr _ hf)) hfork
    | exec halive hexec => exact safe_exec h hdevice halive hexec
    | exit _ hexit => exact safe_exit h hdevice hexit
    | schedule hn _ => exact ⟨sound_schedule h.held hn, h.lit⟩
    | kernelAlloc hb => exact ⟨sound_kernelAlloc h.held hb, h.lit⟩
    | kernelFree horder howned hb => exact ⟨sound_kernelFree h.held horder howned hb, h.lit⟩
    | kernelWrite => exact ⟨sound_storeByte h.held _ _ _, h.lit⟩

theorem start_safe (h : Start scr M m) : Safe (deviceFrames scr) M m := by
  refine ⟨start_held h.toStart (fun f hf => h.separate f hf.1), fun p hp n pte hpte hf => ?_⟩
  obtain ⟨-, hone⟩ := mapped_total hp hpte
  exact absurd (h.mapped _ hone).1 (h.separate _ hf.1)

theorem run_safe (h : Run scr M (Allowed scr) m) : Safe (deviceFrames scr) M m := by
  induction h with
  | start hm => exact start_safe hm
  | step _ ha hs ih =>
    exact safe_step (fun f hf => hf.2) (fun f hf hdev => ⟨hf, hdev⟩) (fun f hf => hf.1) ih ha hs

/-- What an allowed event passes is counted memory. -/
theorem passes_counted {e : Event} {ref : ℕ → ℤ} {pa times : ℕ} (hdevice : ∀ f ∈ D, Device f)
    (hscr : ∀ f ∈ D, f ∈ scr.frames) (h : Safe D M m) (ha : Allowed scr m (.core e))
    (hp : Passes m e ref pa times) (hpos : 0 < times) :
    frameOf pa ∈ M ∧ (times : ℤ) ≤ ref (frameOf pa) := by
  have hmapped : ∀ n pte, findPte m.self.tables n = some pte → pte.frame ∉ D →
      pte.frame ∈ M ∧ ((1 : ℕ) : ℤ) ≤ m.phys.buddy.ref pte.frame := by
    intro n pte hpte hf
    have hM := (h.held.mapped h.held.running.1 hpte hf).1
    have hcount := (h.held.leaf_frame h.held.running.1 hpte).1 hM
    refine ⟨hM, ?_⟩
    push_cast
    omega
  have hprotected : ∀ n pte, m.translate n = some pte → pte.writable = false →
      pte.frame ∈ M ∧ ((1 : ℕ) : ℤ) ≤ m.phys.buddy.ref pte.frame := by
    intro n pte hpte hw
    rw [h.held.mirror] at hpte
    refine hmapped n pte hpte (fun hf => ?_)
    have hlit := h.self n pte hpte hf
    rw [hw] at hlit
    cases hlit
  have hoffset : ∀ addr f, frameOf (frameAddr f+addr % pageSize) = f := fun addr f =>
    frameOf_offset (Nat.mod_lt _ (by decide))
  cases hp with
  | copied hpte =>
    rw [frameOf_frameAddr]
    exact hmapped _ _ hpte (fun hf => ha _ _ hpte (hscr _ hf))
  | userProtection hpte hw =>
    rw [hoffset]
    exact hprotected _ _ hpte hw
  | kernelProtection hpte hw =>
    rw [hoffset]
    exact hprotected _ _ hpte (Bool.or_eq_false_iff.mp hw).1
  | userExit f =>
    rw [frameOf_frameAddr]
    exact releases_counted h.held hdevice hpos
  | kernelExit f =>
    rw [frameOf_frameAddr]
    exact releases_counted h.held hdevice hpos
  | unmapped f hx =>
    rw [ha.2 _ hx] at hpos
    cases hpos
  | exit f =>
    rw [frameOf_frameAddr]
    exact releases_counted h.held hdevice hpos
  | exec f =>
    rw [frameOf_frameAddr]
    exact releases_counted h.held hdevice hpos
  | execFailed f halive hrel hload =>
    have h₁ := sound_release h.held hdevice hrel
    have hloaded := loadSegments_loading h₁ (release_inside hrel) ((release_self hrel).2.2.1.trans halive)
      hload
    rw [frameOf_frameAddr]
    exact releases_counted hloaded.held hdevice hpos
  | kernelFree f howned hlow hhigh =>
    have hf := howned.2 f hlow hhigh
    rw [frameOf_frameAddr]
    by_cases hD : f ∈ D
    · have hnone := (h.held.device f hD).2
      omega
    · have hM := h.held.managed f hD (by omega)
      have henough := h.held.enough f hM
      refine ⟨hM, ?_⟩
      push_cast at henough ⊢
      omega

end Steps

/-! ## The records -/

/-- A managed page lies in memory that has records. -/
theorem managed_record {L : Layout} (hp : PagesFit L) {f : ℕ} (hf : Managed L f) :
    (f+1)*pageSize ≤ L.endUsable ∧ f < L.pageNum := by
  obtain ⟨s, top, hs, hboot⟩ := init_total hp
  have hend := (hboot.page ((managed_iff hs f).mp hf)).2
  have hle : (f+1)*pageSize ≤ L.endUsable := by
    simp only [blockAddr, Layout.blockSize, maxOrder, pageShift, pageSize] at hend ⊢
    omega
  refine ⟨hle, ?_⟩
  rw [PagesFit] at hp
  simp only [Layout.pageNum, pageSize] at hle hp ⊢
  omega

/-- 64 KiB of video memory where the device range begins. -/
def smallScreen : Screen := ⟨0xfd000000, 0x10000⟩

theorem smallScreen_device {f : ℕ} (hf : f ∈ smallScreen.frames) : Device f := by
  obtain ⟨hlow, hhigh⟩ := hf
  have hfirst : mapNr smallScreen.vram = 0xfd000 := by decide
  have hcount : smallScreen.size / pageSize = 16 := by decide
  rw [hfirst] at hlow hhigh
  rw [hcount] at hhigh
  simp only [Device, frameAddr, pageSize]
  omega

theorem smallScreen_room :
    Room vmUnmappedBase (pageAlign smallScreen.size) origin.self.vmm.mmap := by
  refine ⟨vmUnmappedBase, le_rfl, by decide, fun v hv => ?_⟩
  obtain rfl : v = userStack := List.mem_singleton.mp hv
  exact Or.inr (by decide)

theorem origin_apart : Start smallScreen {f | Managed small f} origin :=
  ⟨origin_start, fun _ hf hM => origin_ram hM (smallScreen_device hf)⟩

/-- The framebuffer lies at the first free address. -/
theorem framed : ∃ m, fbMap smallScreen origin = some m ∧
    findPte m.self.tables (pageOf vmUnmappedBase) = some ⟨0xfd000, true⟩ ∧ m.self.alive = true := by
  have hall : (fbMap smallScreen origin).map (fun m =>
      (findPte m.self.tables (pageOf vmUnmappedBase), m.self.alive)) = some (some ⟨0xfd000, true⟩, true) := by
    decide +kernel
  obtain ⟨m, hs, hm⟩ := Option.map_eq_some_iff.mp hall
  obtain ⟨hpte, halive⟩ := Prod.mk.inj hm
  exact ⟨m, hs, hpte, halive⟩

end BabyOS.FramebufferPages

import BabyOS.AreaOperations

/-!
# Runs of the area operations

From the list of `exec`, any sequence of operations and forks. The areas of
different processes are different lists, so a run follows one process and, at a
fork, may go on with the child.
-/

set_option autoImplicit false

namespace BabyOS.AreaRun
open BabyOS.BuddyMachine BabyOS.OrderedRanges BabyOS.AreaMachine BabyOS.AreaInvariant
open BabyOS.AreaOperations

/-- The processes reached by operations that `allowed` admits. -/
inductive Run (allowed : Vmm → Op → Prop) : Vmm → Prop
  | exec {segments : List Segment} {v : Vmm} : execAreas segments = some v.mmap → Run allowed v
  | step {v v' : Vmm} {op : Op} {ok : Bool} : Run allowed v → allowed v op →
      perform v op = some (ok, v') → Run allowed v'
  | fork {v : Vmm} : Run allowed v → Run allowed { v with mmap := copyVma v.mmap }

/-- The operations that cannot run one area into another or out of user memory. -/
def Clear (v : Vmm) : Op → Prop
  | .mmap addr len _ flags => MmapClear v.mmap addr len flags
  | .munmap _ _ _ => True
  | .brk value _ _ => BrkStep v value
  | .sbrk increment _ _ => BrkStep v ((v.brk+increment) % 2 ^ 64)
  | .fault addr err _ mapped => FaultClear v.mmap addr err mapped

/-- What the list of a process has to be. -/
structure AreaList (l : Areas) : Prop where
  sorted : l.Pairwise (fun u v => u.mStart < v.mStart)
  inhabited : ∀ v ∈ l, v.mStart < v.mEnd
  aligned : ∀ v ∈ l, pageSize ∣ v.mStart ∧ pageSize ∣ v.mEnd
  bounded : ∀ v ∈ l, v.mEnd ≤ userVmSize
  apart : l.Pairwise (fun u v => u.mEnd ≤ v.mStart)

theorem wellFormed_areaList {l : Areas} (h : WellFormed l) : AreaList l where
  sorted := ordered_sorted h.1
  inhabited := h.1.1
  aligned := fun v hv => ⟨(h.2 v hv).1, (h.2 v hv).2.1⟩
  bounded := fun v hv => (h.2 v hv).2.2
  apart := h.1.2

theorem perform_spec {v v' : Vmm} (h : WellFormed v.mmap) {op : Op} {ok : Bool}
    (hclear : Clear v op) (hs : perform v op = some (ok, v')) :
    WellFormed v'.mmap ∧ (ok = false → v'.mmap = v.mmap) := by
  cases op with
  | mmap addr len prot flags =>
    obtain ⟨rfl, rfl⟩ := Prod.mk.inj (Option.some.inj hs)
    obtain ⟨hw, hsame⟩ := doMmap_spec h prot hclear
    exact ⟨hw, fun hfail => hsame (by simpa using hfail)⟩
  | munmap addr len obj =>
    obtain ⟨rfl, rfl⟩ := Prod.mk.inj (Option.some.inj hs)
    exact doMunmap_spec h addr len obj
  | brk value obj obj' =>
    obtain ⟨rfl, rfl⟩ := Prod.mk.inj (Option.some.inj hs)
    exact sysBrk_spec h obj obj' hclear
  | sbrk increment obj obj' =>
    obtain ⟨rfl, rfl⟩ := Prod.mk.inj (Option.some.inj hs)
    exact sysBrk_spec h obj obj' hclear
  | fault addr err rsp mapped =>
    obtain ⟨⟨q, l⟩, hfault, heq⟩ := Option.map_eq_some_iff.mp hs
    obtain ⟨rfl, rfl⟩ := Prod.mk.inj heq
    exact pageFault_spec h hclear hfault

theorem copyVma_eq (l : Areas) : copyVma l = l := by
  induction l with
  | nil => rfl
  | cons p rest ih => rw [copyVma, ih]

theorem loadElf_wellFormed {segments : List Segment} {l l' : Areas} (h : WellFormed l)
    (hs : loadElf segments l = some l') : WellFormed l' := by
  induction segments generalizing l with
  | nil =>
    obtain rfl := Option.some.inj hs
    exact h
  | cons ph rest ih =>
    rw [loadElf] at hs
    cases hone : loadElfSegment l ph with
    | none =>
      rw [hone] at hs
      cases hs
    | some l₁ =>
      rw [hone] at hs
      refine ih ?_ hs
      have hfixed : MmapClear l (pageDown ph.vaddr)
          (pageAlign (ph.memsz+ph.vaddr % pageSize)) mapFixed :=
        fun hzero => absurd hzero (by decide)
      have hw := (doMmap_spec h 7 hfixed).1
      rw [loadElfSegment] at hone
      split at hone
      · cases hone
      next ret l₂ hmap =>
        split at hone
        · obtain rfl := Option.some.inj hone
          rwa [hmap] at hw
        · cases hone

theorem execAreas_wellFormed {segments : List Segment} {l : Areas}
    (hs : execAreas segments = some l) : WellFormed l := by
  obtain ⟨l₁, hload, rfl⟩ := Option.map_eq_some_iff.mp hs
  exact insertVma_getD (loadElf_wellFormed wellFormed_nil hload) (by decide)
    ⟨by decide, by decide, by decide⟩

theorem run_wellFormed {v : Vmm} (h : Run Clear v) : WellFormed v.mmap := by
  induction h with
  | exec hs => exact execAreas_wellFormed hs
  | step _ hclear hs ih => exact (perform_spec ih hclear hs).1
  | fork _ ih =>
    rw [copyVma_eq]
    exact ih

/-- In a run of clear operations every list is sorted, aligned and without
overlap, and a failing operation leaves it alone. -/
theorem area_run {v : Vmm} (h : Run Clear v) :
    AreaList v.mmap ∧ ∀ op v', Clear v op → perform v op = some (false, v') → v'.mmap = v.mmap :=
  ⟨wellFormed_areaList (run_wellFormed h),
    fun _ _ hclear hs => (perform_spec (run_wellFormed h) hclear hs).2 rfl⟩

/-- A process with one loaded page below its stack. -/
def loaded : Vmm := ⟨[⟨0x400000, 0x401000, 7, 7⟩, userStack], 0x401000, 0x401000⟩

theorem loaded_run (allowed : Vmm → Op → Prop) : Run allowed loaded :=
  @Run.exec allowed [⟨0x400000, 0x1000⟩] loaded (by decide +kernel)

/-- `loaded` after its heap has grown by one page. -/
def grown : Vmm := ⟨[⟨0x400000, 0x402000, 7, 7⟩, userStack], 0x401000, 0x402000⟩

theorem area_run_grown : AreaList grown.mmap := by
  have hclear : Clear loaded (.sbrk 0x1000 userStack userStack) := by
    intro _ _ _ _
    right
    right
    unfold Vacant
    decide +kernel
  have hs : perform loaded (.sbrk 0x1000 userStack userStack) = some (true, grown) := by
    decide +kernel
  exact (area_run ((loaded_run Clear).step hclear hs)).1

/-- An area that `get_unmapped_area` puts behind the stack, above user memory. -/
theorem mmap_overrun : ∃ v, Run (fun _ _ => True) v ∧ ¬ AreaList v.mmap := by
  have hs : perform loaded (.mmap 0 (2 ^ 46) 3 0) =
      some (true, { loaded with mmap := (doMmap loaded.mmap 0 (2 ^ 46) 3 0).2 }) := by
    decide +kernel
  refine ⟨_, (loaded_run _).step trivial hs, fun h => ?_⟩
  have hin : (⟨2 ^ 47, 2 ^ 47+2 ^ 46, 3, 3⟩ : Vma) ∈ (doMmap loaded.mmap 0 (2 ^ 46) 3 0).2 := by
    decide +kernel
  exact absurd (h.bounded _ hin) (by decide)

end BabyOS.AreaRun

import BabyOS.CopyOnWrite
import BabyOS.ImagePages

/-!
# Counts and mappings along a run

Area operations, faults, accesses, forks, programs and exits of any number of
processes. `free_page_range` frees the frames of a range and leaves the entries,
so the counts stay equal to the mappings as long as no range that is unmapped
has a page.
-/

set_option autoImplicit false

namespace BabyOS.MappedFrames
open BabyOS.BuddyMachine BabyOS.BuddyArithmetic BabyOS.BuddyBoot
open BabyOS.BuddyRun BabyOS.AreaMachine BabyOS.FrameCounts BabyOS.RadixTables BabyOS.PageMachine
open BabyOS.PageCounts BabyOS.AreaInvariant BabyOS.AreaCoverage BabyOS.ProcessMachine
open BabyOS.ProcessInvariant BabyOS.ProcessChanges BabyOS.ProcessSteps BabyOS.FrameTallies
open BabyOS.ImagePages BabyOS.CopyOnWrite
open BabyOS.BuddyInvariant (freeFamily)

/-- A start as for copy-on-write, with the pages in the areas, and memory that is
not device memory. -/
structure Start (M : Set ℕ) (m : Machine) : Prop extends CopyOnWrite.Start M m where
  housed : Sheltered m
  ram : ∀ f ∈ M, ¬ Device f

inductive Run (M : Set ℕ) (allowed : Machine → Event → Prop) : Machine → Prop
  | start {m : Machine} : Start M m → Run M allowed m
  | step {m m' : Machine} {e : Event} : Run M allowed m → allowed m e → Step m e m' → Run M allowed m'

/-- The operations on areas are clear; the other events are free. -/
def ClearAreas (m : Machine) : Event → Prop
  | .area op => Clear m op
  | _ => True

/-- The present leaf entries of live processes that map a frame. -/
def liveLeaves (m : Machine) (f : ℕ) : ℕ := total m fun p => if p.alive then leafCount p.tables f else 0

/-- The tables of live processes that lie in a frame. -/
def liveTables (m : Machine) (f : ℕ) : ℕ := total m fun p => if p.alive then tableCount p.tables f else 0

/-- What a state of a run has to satisfy. -/
structure Agreed (allowed : Machine → Event → Prop) (m : Machine) : Prop where
  counts : ∀ f, 0 < liveLeaves m f → m.phys.buddy.ref f = liveLeaves m f
  free : ∀ f, DyadicBlocks.Covered (freeFamily m.phys.buddy) f → liveLeaves m f = 0 ∧ liveTables m f = 0
  gone : ∀ op m', allowed m (.area op) → Step m (.area op) m' →
    ∀ r, munmapCall m.self.vmm op = some r → Accepted r → Absent m'.self.tables r

section Runs

variable {M : Set ℕ} {allowed : Machine → Event → Prop} {m m' : Machine} {e : Event}

theorem start_kept (h : Start M m) : Kept M m := by
  refine ⟨start_sound h.toStart, fun f _ hf => (h.mapped f hf).2.1, h.housed, h.ram⟩

theorem step_kept (h : Kept M m) (hclear : ClearAreas m e) (hs : Step m e m') : Kept M m' := by
  cases hs with
  | area _ hop hnot => exact kept_areaOp h hclear hnot hop
  | userFault halive haddr _ hfault =>
    exact kept_doPageFault h haddr halive (fun hz => faultCode_absent h.held hz) hfault
  | userStore => exact kept_storeByte h _ _ _
  | kernelFault halive haddr _ hfault =>
    exact kept_doPageFault h haddr halive (fun hz => faultCode_absent h.held hz) hfault
  | kernelStore => exact kept_storeByte h _ _ _
  | fork halive hfork =>
    obtain ⟨child, parent, first, hf⟩ := fork_forked h.held hfork
    exact kept_fork h halive hf
  | exec halive hexec => exact kept_exec h halive hexec
  | exit _ hexit => exact kept_exit h hexit
  | schedule hn _ => exact kept_schedule h hn
  | kernelAlloc hb => exact kept_kernelAlloc h hb
  | kernelFree horder howned hb => exact kept_kernelFree h horder howned hb
  | kernelWrite => exact kept_storeByte h _ _ _

theorem run_kept (h : Run M ClearAreas m) : Kept M m := by
  induction h with
  | start hm => exact start_kept hm
  | step _ hclear hs ih => exact step_kept ih hclear hs

/-- Dead processes map nothing, so the live ones have all entries. -/
theorem liveLeaves_eq (h : Sheltered m) (f : ℕ) : liveLeaves m f = leafTotal m f := by
  rw [liveLeaves, leafTotal, total, total]
  apply Finset.sum_congr rfl
  intro p hp
  split
  · rfl
  next hdead =>
    have hnone := (h p (Finset.mem_range.mp hp)).2 (by simpa using hdead)
    rw [leafCount_eq]
    exact (Finset.sum_eq_zero (fun n _ => by rw [pageMaps, hnone, Option.elim_none])).symm

theorem liveTables_le (m : Machine) (f : ℕ) : liveTables m f ≤ tableTotal m f := by
  rw [liveTables, tableTotal, total, total]
  apply Finset.sum_le_sum
  intro p _
  split
  · exact le_rfl
  · exact Nat.zero_le _

/-- A frame on a free list has no count. -/
theorem free_ref {b : Buddy} (h : Frames M b) {f : ℕ} (hf : DyadicBlocks.Covered (freeFamily b) f) :
    f ∈ M ∧ b.ref f = 0 := by
  obtain ⟨G, -, hc⟩ := h
  have hM := hc.managed f (Or.inl hf)
  exact ⟨hM, (hc.ref f hM).2.mpr (Or.inl hf)⟩

theorem areaOp_tables {op : Op} (hclear : Clear m op) (hs : areaOp m op (freedBy m op) = some m') :
    m'.self.tables = m.self.tables := by
  obtain ⟨ok, v, -, rfl | rfl⟩ := areaOp_spec hclear hs
  · simp [Machine.setSelf, Machine.self]
  · simp [Machine.setSelf, Machine.self]

/-- In a run of clear operations each mapped frame counts its entries, free frames
are in no live tree, and nothing in an unmapped range translates. -/
theorem mappings_run (h : Run M ClearAreas m) : Agreed ClearAreas m := by
  have hkept := run_kept h
  refine ⟨fun f hf => ?_, fun f hf => ?_, fun op m' hclear hs r hcall haccepted => ?_⟩
  · rw [liveLeaves_eq hkept.housed] at hf ⊢
    exact hkept.counted f (hkept.held.managed f (fun hf => hf.elim) (by omega)) hf
  · obtain ⟨hM, hzero⟩ := free_ref hkept.held.frames hf
    obtain ⟨hleaf, htable, -⟩ := hkept.held.clean hM hzero.le
    have hle := liveTables_le m f
    rw [liveLeaves_eq hkept.housed]
    omega
  · cases hs with
    | area _ hop _ =>
      rw [areaOp_tables hclear hop]
      exact hclear.2 r hcall haccepted

end Runs

/-! ## The first process -/

theorem origin_ram {f : ℕ} (hf : Managed small f) : ¬ Device f := by
  have hp : PagesFit small := by
    rw [PagesFit]
    decide +kernel
  obtain ⟨s, top, hs, hboot⟩ := init_total hp
  have hend := (hboot.page ((managed_iff hs f).mp hf)).2
  have hsmall : small.endUsable = 0x800000 := by decide +kernel
  rw [hsmall] at hend
  simp only [blockAddr, Layout.blockSize, maxOrder, pageShift] at hend
  simp only [Device, frameAddr, pageSize]
  omega

theorem origin_kept : Start {f | Managed small f} origin := by
  refine ⟨origin_start, fun p _ => ?_, fun f hf => origin_ram hf⟩
  exact housed_empty (fun n => empty_find 2047 n)

/-- The page of the stack, after a fault of the process. -/
theorem touched : ∃ m, doPageFault origin (userVmSize-1) 6 userVmSize = some m ∧
    vaToPa m.self.tables (userVmSize-1) = some (frameAddr 2046+4095) ∧ m.self.alive = true ∧
    (areaOp m (.munmap (userVmSize-pageSize) pageSize userStack)
      (freedBy m (.munmap (userVmSize-pageSize) pageSize userStack))).map
      (fun m => (vaToPa m.self.tables (userVmSize-1), m.phys.buddy.ref 2046)) =
        some (some (frameAddr 2046+4095), 0) := by
  have hall : (doPageFault origin (userVmSize-1) 6 userVmSize).map (fun m =>
      (vaToPa m.self.tables (userVmSize-1), m.self.alive,
        (areaOp m (.munmap (userVmSize-pageSize) pageSize userStack)
          (freedBy m (.munmap (userVmSize-pageSize) pageSize userStack))).map
          (fun m => (vaToPa m.self.tables (userVmSize-1), m.phys.buddy.ref 2046)))) =
      some (some (frameAddr 2046+4095), true, some (some (frameAddr 2046+4095), 0)) := by
    decide +kernel
  obtain ⟨m, hs, hm⟩ := Option.map_eq_some_iff.mp hall
  obtain ⟨hpa, hm⟩ := Prod.mk.inj hm
  obtain ⟨halive, hunmap⟩ := Prod.mk.inj hm
  exact ⟨m, hs, hpa, halive, hunmap⟩

theorem touched_run {m : Machine} (allowed : Machine → Event → Prop)
    (ha : allowed origin (.userFault (userVmSize-1) true userVmSize))
    (hs : doPageFault origin (userVmSize-1) 6 userVmSize = some m) :
    Run {f | Managed small f} allowed m :=
  (Run.start origin_kept).step ha (Step.userFault rfl (by decide) (by decide +kernel) hs)

theorem mappings_run_touched : ∃ m, Run {f | Managed small f} ClearAreas m ∧ Agreed ClearAreas m ∧
    vaToPa m.self.tables (userVmSize-1) = some (frameAddr 2046+4095) := by
  obtain ⟨m, hs, hpa, -⟩ := touched
  have hrun := touched_run ClearAreas trivial hs
  exact ⟨m, hrun, mappings_run hrun, hpa⟩

/-- The page is unmapped, its frame is free, and the address translates. -/
theorem stale_entry : ∃ m, Run {f | Managed small f} (fun _ _ => True) m ∧ ¬ Agreed (fun _ _ => True) m := by
  obtain ⟨m, hs, -, halive, hunmap⟩ := touched
  have hrun := touched_run (fun _ _ => True) trivial hs
  refine ⟨m, hrun, fun hagreed => ?_⟩
  obtain ⟨m', hop, hm'⟩ := Option.map_eq_some_iff.mp hunmap
  have hstep : Step m (.area (.munmap (userVmSize-pageSize) pageSize userStack)) m' :=
    Step.area halive hop (fun _ _ _ _ => by simp)
  have hgone := hagreed.gone _ m' trivial hstep _ rfl (by rw [Accepted]; decide)
  have hnone := hgone (userVmSize-1) (by decide) (by decide)
  rw [(Prod.mk.inj hm').1] at hnone
  cases hnone

end BabyOS.MappedFrames

import BabyOS.ProcessSteps
import BabyOS.BuddyRun

/-!
# Copy-on-write

Runs of user accesses, forks and exits. The ghost state is the byte that each
process has to see at an address: its own last write, or what its parent's frame
held at the fork.
-/

set_option autoImplicit false

namespace BabyOS.CopyOnWrite
open BabyOS.BuddyMachine BabyOS.BuddyArithmetic BabyOS.BuddyOperations BabyOS.BuddyBoot
open BabyOS.BuddyRun BabyOS.AreaMachine BabyOS.FrameCounts
open BabyOS.RadixTables BabyOS.PageMachine BabyOS.PageCounts BabyOS.AreaInvariant
open BabyOS.ProcessMachine BabyOS.ProcessInvariant BabyOS.ProcessChanges BabyOS.ProcessSteps

/-- The byte that process `p` has at an address, if the page is present. -/
def seen (m : Machine) (p addr : ℕ) : Option ℕ :=
  (findPte (m.procs p).tables (pageOf addr)).map fun pte => m.phys.mem pte.frame (addr % pageSize)

/-- What an access of the running process finds through CR3. -/
def load (m : Machine) (addr : ℕ) : Option ℕ :=
  (m.translate (pageOf addr)).map fun pte => m.phys.mem pte.frame (addr % pageSize)

/-- The bytes that each process has to see. -/
abbrev View := ℕ → ℕ → Option ℕ

/-- A write is the last one at its address; the new process of a fork starts with
the bytes of the frames its parent maps. -/
def record (m : Machine) (view : View) : Event → View
  | .userStore addr byte =>
    Function.update view m.current (Function.update (view m.current) addr (some byte))
  | .fork => Function.update view m.count (seen m m.current)
  | _ => view

/-- User accesses with their faults, forks and exits; the kernel works on frames
of its own. -/
def UserOnly : Event → Prop
  | .userFault _ _ _ | .userStore _ _ | .fork | .exit | .schedule _ => True
  | .kernelAlloc _ | .kernelFree _ _ | .kernelWrite _ _ _ => True
  | .area _ | .kernelFault _ _ _ | .kernelStore _ _ | .exec _ _ => False

/-- Where a run starts: the count of each mapped frame is the number of entries
that map it, the other frames in use hold tables or kernel objects, and no
writable entry has its frame in common with another one. -/
structure Start (M : Set ℕ) (m : Machine) : Prop where
  frames : Frames M m.phys.buddy
  mapped : ∀ f, 0 < leafTotal m f →
    f ∈ M ∧ m.phys.buddy.ref f = leafTotal m f ∧ tableTotal m f+m.owned f = 0
  kernel : ∀ f, 0 < tableTotal m f+m.owned f →
    f ∈ M ∧ ((tableTotal m f+m.owned f : ℕ) : ℤ) ≤ m.phys.buddy.ref f
  alone : ∀ p < m.count, ∀ n pte, findPte (m.procs p).tables n = some pte → pte.writable = true →
    leafTotal m pte.frame = 1
  areas : ∀ p < m.count, WellFormed (m.procs p).vmm.mmap
  running : m.current < m.count
  loaded : m.cr3 = m.current

inductive Run (M : Set ℕ) : Machine → View → Prop
  | start {m : Machine} : Start M m → Run M m (fun _ _ => none)
  | step {m m' : Machine} {view : View} {e : Event} : Run M m view → UserOnly e → Step m e m' →
      Run M m' (record m view e)

/-- What a state of a run has to satisfy. -/
structure Isolated (m : Machine) (view : View) : Prop where
  bytes : ∀ p < m.count, (m.procs p).alive → ∀ addr < userVmSize, ∀ byte,
    view p addr = some byte → seen m p addr = some byte
  running : ∀ addr, load m addr = seen m m.current addr
  shared : ∀ f, 2 ≤ leafTotal m f → ∀ p < m.count, ∀ n pte,
    findPte (m.procs p).tables n = some pte → pte.frame = f → pte.writable = false
  exits : ∀ m', ProcessMachine.exit m = some m' → ∀ p < m.count, p ≠ m.current → ∀ addr,
    seen m' p addr = seen m p addr

section Steps

variable {D M : Set ℕ} {m m' : Machine} {view : View} {e : Event}

theorem start_held (h : Start M m) (hD : ∀ f ∈ D, f ∉ M) : Held D M m := by
  refine ⟨h.frames, fun f _ hf => ?_, fun f hf => ⟨hD f hf, ?_⟩, fun f hf => (h.mapped f hf).2.2,
    fun f hf => ?_, fun p hp n pte hpte _ => h.alone p hp n pte hpte, h.areas,
    ⟨h.running, ?_⟩, fun n => ?_⟩
  · by_cases hleaf : 0 < leafTotal m f
    · exact (h.mapped f hleaf).1
    · exact (h.kernel f (by omega)).1
  · by_contra hne
    exact hD f hf (h.kernel f (Nat.pos_of_ne_zero hne)).1
  · by_cases hleaf : 0 < leafTotal m f
    · have hm := h.mapped f hleaf
      omega
    · by_cases hkernel : 0 < tableTotal m f+m.owned f
      · have hk := (h.kernel f hkernel).2
        omega
      · have hnonneg := h.frames.nonneg hf
        omega
  · rw [h.loaded]
    exact h.running
  · rw [Machine.translate, h.loaded]
    rfl

theorem start_sound (h : Start M m) : Sound M m := start_held h (fun _ hf => hf.elim)

theorem step_sound (h : Sound M m) (hu : UserOnly e) (hs : Step m e m') : Sound M m' := by
  cases hs with
  | userFault _ _ _ hfault => 
    exact sound_doPageFault h (fun _ hf => hf.elim) (fun hz => faultCode_absent h hz)
      (fun _ _ hf => hf.elim) hfault
  | userStore => exact sound_storeByte h _ _ _
  | fork _ hfork =>
    obtain ⟨child, parent, first, hf⟩ := fork_forked h hfork
    exact sound_fork h hf
  | exit _ hexit => exact sound_exit h (fun _ hf => hf.elim) hexit
  | schedule hn _ => exact sound_schedule h hn
  | kernelAlloc hb => exact sound_kernelAlloc h hb
  | kernelFree horder howned hb => exact sound_kernelFree h horder howned hb
  | kernelWrite => exact sound_storeByte h _ _ _
  | area => exact hu.elim
  | kernelFault => exact hu.elim
  | kernelStore => exact hu.elim
  | exec => exact hu.elim

/-! ## Bytes that stay -/

/-- A frame that is mapped keeps its bytes while the tables of the running
process change, and the other processes keep their tables. -/
theorem seen_other {t' : Pml4Table} {s' : Phys} (h : Held D M m)
    (hc : Change D M m.phys s' m.self.tables t') {p : ℕ} (hp : p < m.count) (hne : p ≠ m.current)
    (addr : ℕ) : seen (m.setTables t' s') p addr = seen m p addr := by
  have hprocs : (m.setTables t' s').procs p = m.procs p := by
    simp [Machine.setTables, Machine.setSelf, hne]
  rw [seen, seen, hprocs]
  cases hpte : findPte (m.procs p).tables (pageOf addr) with
  | none => rfl
  | some pte =>
    obtain ⟨hpos, htable⟩ := h.leaf_frame hp hpte
    have hself : tableCount m.self.tables pte.frame ≤ tableTotal m pte.frame :=
      le_total (w := fun p => tableCount p.tables pte.frame) h.running.1
    have hmem := hc.mem _ hpos (by omega)
    rw [Option.map_some, Option.map_some]
    exact congrArg some (congrFun hmem _)

theorem seen_setSelf {x : Process} (ht : x.tables = m.self.tables) (p addr : ℕ) :
    seen (m.setSelf x) p addr = seen m p addr := by
  by_cases hp : p = m.current
  · subst hp
    have hself : (m.setSelf x).procs m.current = x := by simp [Machine.setSelf]
    rw [seen, seen, hself, ht]
    rfl
  · have hsame : (m.setSelf x).procs p = m.procs p := by simp [Machine.setSelf, hp]
    rw [seen, seen, hsame]
    rfl

theorem seen_setAreas (m : Machine) (l : Areas) (p addr : ℕ) :
    seen (m.setAreas l) p addr = seen m p addr := by
  rw [Machine.setAreas]
  exact seen_setSelf (by rfl) p addr

theorem exit_seen (h : Held D M m) (hdevice : ∀ f ∈ D, Device f) (hs : ProcessMachine.exit m = some m') {p : ℕ} (hp : p < m.count)
    (hne : p ≠ m.current) (addr : ℕ) : seen m' p addr = seen m p addr := by
  obtain ⟨m₁, hrel, rfl⟩ := Option.map_eq_some_iff.mp hs
  obtain ⟨t', s', rfl, hc, -, -⟩ := release_change h hdevice hrel
  have harea : Held D M (m.setAreas []) := sound_setAreas h wellFormed_nil
  have hother := seen_other harea (by rw [(self_setAreas m []).1]; exact hc) hp hne addr
  rw [seen_setAreas] at hother
  rw [← hother]
  exact seen_setSelf (by rfl) p addr

theorem exit_dead (hs : ProcessMachine.exit m = some m') :
    (m'.procs m'.current).alive = false ∧ m'.current = m.current ∧ m'.count = m.count := by
  obtain ⟨m₁, hrel, rfl⟩ := Option.map_eq_some_iff.mp hs
  rw [release] at hrel
  split at hrel
  · cases hrel
  split at hrel
  · cases hrel
  obtain rfl := Option.some.inj hrel
  refine ⟨?_, rfl, rfl⟩
  simp [Machine.setSelf]

theorem resolved_seen (h : Held D M m) {a : ℕ} (hr : Resolved D M m m' a) {p : ℕ} (hp : p < m.count)
    {addr byte : ℕ} (hb : seen m p addr = some byte) : seen m' p addr = some byte := by
  obtain ⟨t', s', rfl, hc, -, hkeep, -⟩ := hr.change
  by_cases hself : p = m.current
  · subst hself
    obtain ⟨pte, hpte, rfl⟩ := Option.map_eq_some_iff.mp hb
    obtain ⟨pte', hpte', hmem⟩ := hkeep _ pte hpte
    have htables : ((m.setTables t' s').procs m.current).tables = t' := by
      simp [Machine.setTables, Machine.setSelf]
    rw [seen, htables, hpte', Option.map_some]
    exact congrArg some (congrFun hmem _)
  · rw [seen_other h hc hp hself]
    exact hb

/-- A store through an entry that nobody shares. -/
theorem store_seen (h : Held D M m) {n offset byte : ℕ} {pte : Pte}
    (hpte : findPte m.self.tables n = some pte) (hone : leafTotal m pte.frame = 1) {p addr : ℕ}
    (hp : p < m.count) :
    seen (storeByte m pte.frame offset byte) p addr =
      if p = m.current ∧ pageOf addr % 2 ^ 35 = n % 2 ^ 35 ∧ addr % pageSize = offset then some byte
      else seen m p addr := by
  cases hq : findPte (m.procs p).tables (pageOf addr) with
  | none =>
    have hnot : ¬ (p = m.current ∧ pageOf addr % 2 ^ 35 = n % 2 ^ 35 ∧ addr % pageSize = offset) := by
      rintro ⟨rfl, hpage, -⟩
      rw [← findPte_mod, hpage, findPte_mod] at hq
      change findPte m.self.tables n = none at hq
      rw [hpte] at hq
      cases hq
    rw [if_neg hnot, seen, seen, show (storeByte m pte.frame offset byte).procs = m.procs from rfl, hq]
    rfl
  | some q =>
    have hnew : seen (storeByte m pte.frame offset byte) p addr =
        some (Function.update m.phys.mem pte.frame
          (Function.update (m.phys.mem pte.frame) offset byte) q.frame (addr % pageSize)) := by
      rw [seen, show (storeByte m pte.frame offset byte).procs = m.procs from rfl, hq]
      rfl
    have hold : seen m p addr = some (m.phys.mem q.frame (addr % pageSize)) := by
      rw [seen, hq]
      rfl
    rw [hnew, hold]
    by_cases hframe : q.frame = pte.frame
    · -- the frame has one entry, so this is the entry
      have hself : p = m.current := by
        by_contra hne
        have hpair : leafCount (m.procs p).tables pte.frame+leafCount m.self.tables pte.frame ≤
            leafTotal m pte.frame :=
          pair_le_total (w := fun p => leafCount p.tables pte.frame) hp h.running.1 hne
        have h₁ := one_le_leafCount hq
        have h₂ := one_le_leafCount hpte
        rw [hframe] at h₁
        omega
      subst hself
      have hpage : pageOf addr % 2 ^ 35 = n % 2 ^ 35 := by
        by_contra hne
        have htwo := two_le_leafCount hne hq hpte hframe
        have hle : leafCount m.self.tables q.frame ≤ leafTotal m q.frame :=
          le_total (w := fun p => leafCount p.tables q.frame) h.running.1
        rw [hframe] at htwo hle
        change 2 ≤ leafCount m.self.tables pte.frame at htwo
        omega
      rw [hframe, Function.update_self, Function.update_apply]
      by_cases hoff : addr % pageSize = offset
      · rw [if_pos hoff, if_pos ⟨rfl, hpage, hoff⟩]
      · rw [if_neg hoff, if_neg (fun hc => hoff hc.2.2)]
    · have hnot : ¬ (p = m.current ∧ pageOf addr % 2 ^ 35 = n % 2 ^ 35 ∧ addr % pageSize = offset) := by
        rintro ⟨rfl, hpage, -⟩
        rw [← findPte_mod, hpage, findPte_mod] at hq
        change findPte m.self.tables n = some q at hq
        rw [hpte] at hq
        exact hframe (congrArg Pte.frame (Option.some.inj hq)).symm
      rw [if_neg hnot, Function.update_of_ne hframe]

/-- A write to a frame that no process maps. -/
theorem kernelWrite_seen (h : Held D M m) {frame offset byte : ℕ} (howned : 0 < m.owned frame) {p : ℕ}
    (hp : p < m.count) (addr : ℕ) : seen (storeByte m frame offset byte) p addr = seen m p addr := by
  rw [seen, seen, show (storeByte m frame offset byte).procs = m.procs from rfl]
  cases hq : findPte (m.procs p).tables (pageOf addr) with
  | none => rfl
  | some q =>
    have hapart := h.apart _ (mapped_total hp hq).2
    have hne : q.frame ≠ frame := by
      rintro rfl
      omega
    have hmem : (storeByte m frame offset byte).phys.mem q.frame = m.phys.mem q.frame :=
      Function.update_of_ne hne _ _
    rw [Option.map_some, Option.map_some, hmem]

theorem fork_seen {child parent : Pml4Table} {first : ℕ} (h : Held D M m)
    (hf : Forked M m m' child parent first) {p : ℕ} (hp : p < m'.count) (addr : ℕ) :
    seen m' p addr = seen m (if p = m.count then m.current else p) addr := by
  have hbytes : ∀ q < m.count, ∀ pte, findPte (m.procs q).tables (pageOf addr) = some pte →
      m'.phys.mem pte.frame = m.phys.mem pte.frame :=
    fun q hq pte hpte => hf.mem _ (h.leaf_frame hq hpte).1
  have hcopied : ∀ t, (∀ n, findPte t n = (findPte m.self.tables n).map readOnly) →
      (findPte t (pageOf addr)).map (fun pte => m'.phys.mem pte.frame (addr % pageSize)) =
        seen m m.current addr := by
    intro t ht
    rw [ht, seen, Option.map_map]
    cases hpte : findPte m.self.tables (pageOf addr) with
    | none =>
      rw [show findPte (m.procs m.current).tables (pageOf addr) = none from hpte]
      rfl
    | some pte =>
      rw [show findPte (m.procs m.current).tables (pageOf addr) = some pte from hpte]
      have hmem := hbytes _ h.running.1 pte hpte
      exact congrArg some (congrFun hmem _)
  rcases fork_find hf h.running.1 hp with ⟨hwho, hfind⟩ | ⟨⟨hlt, hne⟩, hsame⟩
  · have hcur := h.running.1
    have hparent : (if p = m.count then m.current else p) = m.current := by
      rcases hwho with rfl | rfl
      · rw [if_pos rfl]
      · rw [if_neg (by omega)]
    rw [hparent, seen, hcopied _ hfind]
  · rw [if_neg (by omega), seen, seen, hsame]
    cases hpte : findPte (m.procs p).tables (pageOf addr) with
    | none => rfl
    | some pte =>
      have hmem := hbytes p hlt pte hpte
      exact congrArg some (congrFun hmem _)

/-! ## The step lemma -/

/-- Every live process sees the bytes of its view. -/
def Agrees (m : Machine) (view : View) : Prop :=
  ∀ p < m.count, (m.procs p).alive → ∀ addr < userVmSize, ∀ byte,
    view p addr = some byte → seen m p addr = some byte

theorem page_lt {addr : ℕ} (h : addr < userVmSize) : pageOf addr % 2 ^ 35 = pageOf addr :=
  Nat.mod_eq_of_lt (Nat.div_lt_of_lt_mul h)

theorem addr_eq {a b : ℕ} (hpage : pageOf a = pageOf b) (hoff : a % pageSize = b % pageSize) : a = b := by
  rw [← Nat.div_add_mod a pageSize, ← Nat.div_add_mod b pageSize]
  rw [show a / pageSize = b / pageSize from hpage, hoff]

theorem exit_agrees (h : Held D M m) (hdevice : ∀ f ∈ D, Device f) (ha : Agrees m view) (hs : ProcessMachine.exit m = some m') :
    Agrees m' view := by
  intro p hp halive addr haddr byte hb
  obtain ⟨hdead, hcur, hcount⟩ := exit_dead hs
  rw [hcount] at hp
  have hne : p ≠ m.current := by
    rintro rfl
    rw [hcur, halive] at hdead
    cases hdead
  have hsame : (m'.procs p).alive = (m.procs p).alive := by
    obtain ⟨m₁, hrel, rfl⟩ := Option.map_eq_some_iff.mp hs
    obtain ⟨t', s', rfl, -⟩ := release_change h hdevice hrel
    simp [Machine.setSelf, Machine.setTables, Machine.setAreas, hne]
  rw [exit_seen h hdevice hs hp hne]
  exact ha p hp (hsame ▸ halive) addr haddr byte hb

theorem setAreas_agrees (ha : Agrees m view) (l : Areas) : Agrees (m.setAreas l) view := by
  intro p hp halive addr haddr byte hb
  rw [seen_setAreas]
  refine ha p hp ?_ addr haddr byte hb
  by_cases hself : p = m.current
  · subst hself
    simpa [Machine.setAreas, Machine.setSelf, Machine.self] using halive
  · simpa [Machine.setAreas, Machine.setSelf, hself] using halive

theorem resolved_agrees (h : Held D M m) (ha : Agrees m view) {a : ℕ} (hr : Resolved D M m m' a) :
    Agrees m' view := by
  intro p hp halive addr haddr byte hb
  have hsame : m'.count = m.count ∧ (m'.procs p).alive = (m.procs p).alive := by
    obtain ⟨t', s', rfl, -⟩ := hr.change
    refine ⟨rfl, ?_⟩
    by_cases hself : p = m.current
    · subst hself
      simp [Machine.setTables, Machine.setSelf, Machine.self]
    · simp [Machine.setTables, Machine.setSelf, hself]
  rw [hsame.1] at hp
  exact resolved_seen h hr hp (ha p hp (hsame.2 ▸ halive) addr haddr byte hb)

theorem fault_agrees (h : Sound M m) (ha : Agrees m view) {addr err rsp : ℕ}
    (herr : err &&& 1 = 0 → findPte m.self.tables (pageOf addr) = none)
    (hs : doPageFault m addr err rsp = some m') : Agrees m' view := by
  rcases doPageFault_cases h herr (fun _ _ hf => hf.elim) hs with hexit | ⟨l, hw, -, -, rfl | hres⟩
  · exact exit_agrees h (fun _ hf => hf.elim) ha hexit
  · exact setAreas_agrees ha l
  · exact resolved_agrees (sound_setAreas h hw) (setAreas_agrees ha l) hres

theorem store_agrees (h : Sound M m) (ha : Agrees m view) {addr byte : ℕ} {pte : Pte}
    (haddr : addr < userVmSize) (hpte : m.translate (pageOf addr) = some pte)
    (hw : pte.writable = true) :
    Agrees (storeByte m pte.frame (addr % pageSize) byte) (record m view (.userStore addr byte)) := by
  rw [h.mirror] at hpte
  have hone := h.alone _ h.running.1 _ pte hpte (fun hf => hf.elim) hw
  intro p hp halive a hla b hb
  rw [store_seen h hpte hone hp, page_lt hla, page_lt haddr]
  have ha' := ha p hp halive a hla b
  by_cases hself : p = m.current
  · subst hself
    simp only [record, Function.update_self, Function.update_apply] at hb
    by_cases heq : a = addr
    · subst heq
      rw [if_pos rfl] at hb
      rw [if_pos ⟨rfl, rfl, rfl⟩]
      exact hb
    · rw [if_neg heq] at hb
      rw [if_neg (fun hc => heq (addr_eq hc.2.1 hc.2.2))]
      exact ha' hb
  · rw [record, Function.update_of_ne hself] at hb
    rw [if_neg (fun hc => hself hc.1)]
    exact ha' hb

theorem fork_agrees (h : Held D M m) (ha : Agrees m view) (halive : m.self.alive = true)
    (hs : ProcessMachine.fork m = some m') : Agrees m' (record m view .fork) := by
  obtain ⟨child, parent, first, hf⟩ := fork_forked h hs
  intro p hp halive' addr haddr byte hb
  rw [fork_seen h hf hp]
  by_cases hlast : p = m.count
  · rw [record, hlast, Function.update_self] at hb
    rw [if_pos hlast]
    exact hb
  · rw [record, Function.update_of_ne hlast] at hb
    rw [if_neg hlast]
    have hlt : p < m.count := by
      rw [hf.count] at hp
      omega
    refine ha p hlt ?_ addr haddr byte hb
    by_cases hself : p = m.current
    · rw [hself]
      exact halive
    · rw [hf.procs, Function.update_of_ne hlast, Function.update_of_ne hself] at halive'
      exact halive'

theorem step_agrees (h : Sound M m) (ha : Agrees m view) (hu : UserOnly e) (hs : Step m e m') :
    Agrees m' (record m view e) := by
  cases hs with
  | userFault _ _ _ hfault => exact fault_agrees h ha (fun hz => faultCode_absent h hz) hfault
  | userStore _ haddr hpte hw => exact store_agrees h ha haddr hpte hw
  | fork halive hfork => exact fork_agrees h ha halive hfork
  | exit _ hexit => exact exit_agrees h (fun _ hf => hf.elim) ha hexit
  | schedule => exact ha
  | kernelAlloc => exact ha
  | kernelFree => exact ha
  | kernelWrite howned =>
    intro p hp halive addr haddr byte hb
    rw [kernelWrite_seen h howned hp]
    exact ha p hp halive addr haddr byte hb
  | area => exact hu.elim
  | kernelFault => exact hu.elim
  | kernelStore => exact hu.elim
  | exec => exact hu.elim

theorem run_agrees (h : Run M m view) : Sound M m ∧ Agrees m view := by
  induction h with
  | start hm =>
    refine ⟨start_sound hm, ?_⟩
    intro _ _ _ _ _ _ hb
    cases hb
  | step _ hu hs ih => exact ⟨step_sound ih.1 hu hs, step_agrees ih.1 ih.2 hu hs⟩

/-- In every state of every run each process sees its own writes and what it got
at its fork, shared frames are read-only, and an exit is seen by nobody. -/
theorem cow_run (h : Run M m view) : Isolated m view := by
  obtain ⟨hsound, hagrees⟩ := run_agrees h
  refine ⟨hagrees, fun addr => ?_, fun f hf p hp n pte hpte heq => ?_,
    fun m' hs p hp hne addr => exit_seen hsound (fun _ hf => hf.elim) hs hp hne addr⟩
  · rw [load, hsound.mirror]
    rfl
  · by_contra hw
    have hone := hsound.alone p hp n pte hpte (fun hf => hf.elim) (by simpa using hw)
    rw [heq] at hone
    omega

end Steps

/-! ## A first process -/

/-- `small` after `init`: one free block, from 4 MiB to 8 MiB. -/
def smallBoot : Buddy :=
  Buddy.addToHead { small.blank with
    ref := addOn 1024 1024 (-1) small.blank.ref
    freePageNum := small.blank.freePageNum+1024 } maxOrder 0x400000

theorem small_init : small.init = some smallBoot := by
  have hbase : Layout.alignUp small.memStart = 0x400000 := by decide +kernel
  have hlast : 0x800000 &&& pageMask maxOrder = 0x800000 := by decide +kernel
  have hcount : (0x800000-0x400000+(Layout.blockSize-1)) / Layout.blockSize = 1 := by
    decide +kernel
  have hfree : small.blank.freePages 0x400000 maxOrder = some smallBoot := by
    rw [freePages_eq]
    refine ⟨true, ?_, ?_⟩
    · rintro f ⟨-, hf⟩
      have hend : frameOf 0x400000+2 ^ maxOrder ≤ small.pageNum := by decide +kernel
      have hone : small.blank.ref f = 1 := by
        simp only [Layout.blank, lt_of_lt_of_le hf hend, if_true]
      rw [hone]
      decide
    · have haddr : 0x400000 &&& pageMask maxOrder = 0x400000 := by decide +kernel
      have hframe : frameOf 0x400000 = 1024 := by decide +kernel
      rw [if_pos rfl, haddr, Nat.sub_self, Buddy.coalesce, smallBoot, hframe]
      rfl
  have hranges : small.ranges = [⟨0x100000, 0x700000, 1⟩] := rfl
  have hone : Layout.freeBootRange ⟨0x100000, 0x700000, 1⟩ 0x400000 small.blank =
      some (Layout.alignUp 0x800000, smallBoot) := by
    rw [Layout.freeBootRange, if_pos (by decide), if_neg (by decide)]
    simp only [Nat.reduceAdd, hlast, Layout.freeBootMemRange, hcount, Layout.freeBlocks, hfree,
      Option.map_some]
  rw [Layout.init, hbase, hranges, freeBootMem_cons hone, Layout.freeBootMem]

/-- The process that `exec` leaves for a file without segments: a stack, and the
root of its tables in the last frame. -/
def first : Process := ⟨⟨[userStack], 0, 0⟩, ⟨2047, fun _ => none⟩, true⟩

def origin : Machine where
  phys := ⟨((smallBoot.allocPages 0).getD (0, smallBoot)).2, fun _ _ => 0⟩
  procs := fun _ => first
  count := 1
  current := 0
  cr3 := 0
  owned := fun _ => 0

theorem root_alloc : smallBoot.allocPages 0 = some (frameAddr 2047, origin.phys.buddy) := by
  have hpa : (smallBoot.allocPages 0).map Prod.fst = some (frameAddr 2047) := by decide +kernel
  obtain ⟨⟨pa, b⟩, hs, rfl⟩ := Option.map_eq_some_iff.mp hpa
  rw [hs]
  simp only [origin, hs]
  rfl


theorem origin_frames : Frames {f | Managed small f} origin.phys.buddy ∧ Managed small 2047 ∧
    origin.phys.buddy.ref 2047 = 1 := by
  have hp : PagesFit small := by
    rw [PagesFit]
    decide +kernel
  have hspan : small.endUsable < small.bitmapStart+2 ^ 32 := by decide +kernel
  obtain ⟨hR, hc⟩ := init_region hp (bitmaps_fit_of_span hp hspan) small_init
  obtain ⟨hfr, -, hM, hzero, href⟩ := alloc_one ⟨_, hR, hc⟩ root_alloc
  rw [frameOf_frameAddr] at hM hzero href
  refine ⟨hfr, hM, ?_⟩
  rw [href, hzero]
  rfl

theorem origin_leafTotal (f : ℕ) : leafTotal origin f = 0 := by
  rw [leafTotal, total]
  exact Finset.sum_eq_zero (fun _ _ => empty_leafCount 2047 f)

theorem origin_tableTotal (f : ℕ) : tableTotal origin f = if 2047 = f then 1 else 0 := by
  rw [tableTotal, total, show origin.count = 1 from rfl, Finset.sum_range_one]
  exact empty_tableCount 2047 f

theorem origin_start : Start {f | Managed small f} origin := by
  obtain ⟨hfr, hM, href⟩ := origin_frames
  refine ⟨hfr, fun f hf => ?_, fun f hf => ?_, fun p _ n pte hpte => ?_, fun p _ => ?_, Nat.one_pos, rfl⟩
  · rw [origin_leafTotal] at hf
    omega
  · rw [origin_tableTotal, show origin.owned f = 0 from rfl] at hf
    split at hf
    next heq =>
      subst heq
      refine ⟨hM, ?_⟩
      rw [origin_tableTotal, href]
      rfl
    next => omega
  · rw [show (origin.procs p).tables = ⟨2047, fun _ => none⟩ from rfl, empty_find] at hpte
    cases hpte
  · change WellFormed [userStack]
    exact AreaRun.execAreas_wellFormed (by decide +kernel : execAreas [] = some [userStack])

/-- The last byte of the stack, after a write there. -/
theorem cow_run_stack : ∃ m view, Run {f | Managed small f} m view ∧ Isolated m view ∧
    seen m 0 (userVmSize-1) = some 7 := by
  have hfault : (doPageFault origin (userVmSize-1) 6 userVmSize).map
      (fun m => (m.translate (pageOf (userVmSize-1)), m.self.alive, m.current)) =
        some (some ⟨2046, true⟩, true, 0) := by decide +kernel
  obtain ⟨m, hs, hm⟩ := Option.map_eq_some_iff.mp hfault
  obtain ⟨hpte, hm⟩ := Prod.mk.inj hm
  obtain ⟨halive, hcur⟩ := Prod.mk.inj hm
  have h₁ : Run {f | Managed small f} m
      (record origin (fun _ _ => none) (.userFault (userVmSize-1) true userVmSize)) :=
    (Run.start origin_start).step trivial (Step.userFault rfl (by decide) (by decide +kernel) hs)
  have h₂ := h₁.step (e := .userStore (userVmSize-1) 7) trivial
    (Step.userStore halive (by decide) hpte rfl)
  have hview := cow_run h₂
  refine ⟨_, _, h₂, hview, ?_⟩
  have hcount : m.current < m.count := (run_agrees h₁).1.running.1
  apply hview.bytes 0 (hcur ▸ hcount) (hcur ▸ halive) _ (by decide)
  rw [record, hcur, Function.update_self, Function.update_self]

end BabyOS.CopyOnWrite

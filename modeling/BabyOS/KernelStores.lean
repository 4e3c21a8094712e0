import BabyOS.MappedFrames

/-!
# Stores of the kernel into user memory

A system call copies its results to the caller's buffer through CR3, with the
faults on the way. `CR0.WP` is clear, so a store of the kernel does not look at
`PTE_W`: on a page that is still shared it goes to the shared frame.
-/

set_option autoImplicit false

namespace BabyOS.KernelStores
open BabyOS.BuddyMachine BabyOS.BuddyBoot BabyOS.BuddyRun BabyOS.AreaMachine BabyOS.FrameCounts
open BabyOS.PageMachine BabyOS.PageCounts BabyOS.ProcessMachine BabyOS.ProcessInvariant
open BabyOS.ProcessChanges BabyOS.ProcessSteps BabyOS.FrameTallies BabyOS.CopyOnWrite
open BabyOS.MappedFrames

/-- No other process sees a difference at its user addresses. -/
def Quiet (m m' : Machine) : Prop :=
  ∀ p < m.count, p ≠ m.current → ∀ addr < userVmSize, seen m' p addr = seen m p addr

/-- The bytes that a system call stores, and the states it goes through. -/
inductive Stores : Machine → List (ℕ × ℕ) → List Machine → Prop
  | done (m : Machine) : Stores m [] []
  | fault {m m' : Machine} {addr rsp : ℕ} {write : Bool} {bytes : List (ℕ × ℕ)} {states : List Machine} :
      Step m (.kernelFault addr write rsp) m' → Stores m' bytes states → Stores m bytes (m' :: states)
  | store {m m' : Machine} {addr byte : ℕ} {bytes : List (ℕ × ℕ)} {states : List Machine} :
      Step m (.kernelStore addr byte) m' → Stores m' bytes states →
      Stores m ((addr, byte) :: bytes) (m' :: states)

/-- No other process maps the frame. -/
def Unshared (m : Machine) (frame : ℕ) : Prop :=
  ∀ p < m.count, p ≠ m.current → ∀ n pte, findPte (m.procs p).tables n = some pte → pte.frame ≠ frame

/-- The page of a store is not present, or its frame is the caller's alone, or the
byte is there already. -/
def Private (m : Machine) (x : ℕ × ℕ) : Prop :=
  ∀ pte, findPte m.self.tables (pageOf x.1) = some pte →
    Unshared m pte.frame ∨ m.phys.mem pte.frame (x.1 % pageSize) = x.2

/-- `CR0.WP` is clear. -/
theorem supervisor_writes (pte : Pte) : supervisorMayWrite pte = true := by
  have hwp : cr0.testBit 16 = false := by decide
  rw [supervisorMayWrite, hwp]
  exact Bool.or_true _

section Stores

variable {M : Set ℕ} {m m' : Machine} {addr byte rsp : ℕ} {write : Bool}

/-- A fault of the kernel is on a page that is not present. -/
theorem kernelFault_absent (h : Sound M m) (hs : Step m (.kernelFault addr write rsp) m') :
    findPte m.self.tables (pageOf addr) = none := by
  cases hs with
  | kernelFault _ _ hcause _ =>
    rw [← h.mirror]
    by_contra hne
    obtain ⟨pte, hpte⟩ := Option.ne_none_iff_exists'.mp hne
    have hno := (hcause pte hpte).2
    rw [supervisor_writes] at hno
    cases hno

/-- What a fault of the kernel leaves: no process, or the old entries with one
more, and the bytes of the frames that were mapped. -/
theorem kernelFault_spec (h : Kept M m) (hs : Step m (.kernelFault addr write rsp) m') :
    Kept M m' ∧ m'.current = m.current ∧ m'.count = m.count ∧ Quiet m m' ∧
      (m'.self.alive = false ∨
        (∀ p, p ≠ m.current → (m'.procs p).tables = (m.procs p).tables) ∧
        (∀ n pte, findPte m.self.tables n = some pte →
          findPte m'.self.tables n = some pte ∧ m'.phys.mem pte.frame = m.phys.mem pte.frame) ∧
        ∀ n pte, findPte m'.self.tables n = some pte →
          findPte m.self.tables n = some pte ∨ Unshared m' pte.frame) := by
  have hnone := kernelFault_absent h.held hs
  have hkept : Kept M m' := step_kept h (e := .kernelFault addr write rsp) trivial hs
  refine ⟨hkept, ?_⟩
  cases hs with
  | kernelFault halive haddr _ hfault =>
  have hram : ∀ pte, findPte m.self.tables (pageOf addr) = some pte → pte.frame ∉ (∅ : Set ℕ) :=
    fun _ _ hf => hf.elim
  rcases doPageFault_cases h.held (fun _ => hnone) hram hfault with hexit | ⟨l, hw, -, -, rfl | hres⟩
  · obtain ⟨hdead, hcur, hcount⟩ := exit_dead hexit
    exact ⟨hcur, hcount, fun p hp hne a _ => exit_seen h.held (fun _ hf => hf.elim) hexit hp hne a,
      Or.inl hdead⟩
  · have hself := (self_setAreas m l).1
    refine ⟨rfl, rfl, fun p _ _ a _ => seen_setAreas m l p a, Or.inr ⟨fun p hp => ?_, ?_, ?_⟩⟩
    · simp [Machine.setAreas, Machine.setSelf, hp]
    · intro n pte hpte
      rw [hself]
      exact ⟨hpte, rfl⟩
    · intro n pte hpte
      rw [hself] at hpte
      exact Or.inl hpte
  · have hset : Sound M (m.setAreas l) := sound_setAreas h.held hw
    have hself := (self_setAreas m l).1
    obtain ⟨t', s', rfl, hchange, -, -, pte₀, hwrite, hfind⟩ := hres.change
    have htables : ((m.setAreas l).setTables t' s').self.tables = t' := by
      simp [Machine.setTables, Machine.setSelf, Machine.self]
    rw [hself] at hfind
    refine ⟨rfl, rfl, fun p hp hne a _ => ?_, Or.inr ⟨fun p hp => ?_, fun n pte hpte => ?_,
      fun n pte hpte => ?_⟩⟩
    · rw [seen_other hset hchange hp hne, seen_setAreas]
    · simp [Machine.setTables, Machine.setAreas, Machine.setSelf, hp]
    · have hne : n % 2 ^ 35 ≠ pageOf addr % 2 ^ 35 := by
        intro heq
        rw [← findPte_mod, heq, findPte_mod, hnone] at hpte
        cases hpte
      rw [htables, hfind, if_neg hne]
      refine ⟨hpte, hchange.mem _ (fun hM => ?_) ?_⟩
      · exact (h.held.leaf_frame h.held.running.1 hpte).1 hM
      · have htable := (h.held.leaf_frame h.held.running.1 hpte).2
        have hle : tableCount m.self.tables pte.frame ≤ tableTotal m pte.frame :=
          le_total (w := fun p => tableCount p.tables pte.frame) h.held.running.1
        rw [hself]
        omega
    · rw [htables] at hpte
      by_cases heq : n % 2 ^ 35 = pageOf addr % 2 ^ 35
      · right
        -- a new entry is writable, so its frame has no other entry
        have hnew := hpte
        rw [hfind, if_pos heq] at hnew
        obtain rfl := Option.some.inj hnew
        rw [← htables] at hpte
        have hone := hkept.held.alone _ hkept.held.running.1 n pte₀ hpte (fun hf => hf.elim) hwrite
        intro p hp hne k pte hk hframe
        have hpair : leafCount (((m.setAreas l).setTables t' s').procs p).tables pte₀.frame+
            leafCount ((m.setAreas l).setTables t' s').self.tables pte₀.frame ≤
            leafTotal ((m.setAreas l).setTables t' s') pte₀.frame :=
          pair_le_total (w := fun p => leafCount p.tables pte₀.frame) hp hkept.held.running.1 hne
        have h₁ := one_le_leafCount hk
        have h₂ := one_le_leafCount hpte
        rw [hframe] at h₁
        omega
      · rw [hfind, if_neg heq] at hpte
        exact Or.inl hpte

theorem unshared_congr {frame : ℕ} (hcur : m'.current = m.current) (hcount : m'.count = m.count)
    (htables : ∀ p, p ≠ m.current → (m'.procs p).tables = (m.procs p).tables) :
    Unshared m' frame ↔ Unshared m frame := by
  rw [Unshared, Unshared, hcur, hcount]
  constructor
  · intro h p hp hne n pte hpte
    exact h p hp hne n pte (by rw [htables p hne]; exact hpte)
  · intro h p hp hne n pte hpte
    rw [htables p hne] at hpte
    exact h p hp hne n pte hpte

theorem private_fault (h : Kept M m) (hs : Step m (.kernelFault addr write rsp) m')
    (halive : m'.self.alive = true) (x : ℕ × ℕ) : Private m' x ↔ Private m x := by
  obtain ⟨-, hcur, hcount, -, hcase⟩ := kernelFault_spec h hs
  obtain ⟨htables, hold, hnew⟩ := hcase.resolve_left (by rw [halive]; decide)
  have hiff : ∀ frame, Unshared m' frame ↔ Unshared m frame := fun _ => unshared_congr hcur hcount htables
  constructor
  · intro hp pte hpte
    obtain ⟨hpte', hmem⟩ := hold _ pte hpte
    have := hp pte hpte'
    rwa [hiff, hmem] at this
  · intro hp pte hpte
    rcases hnew _ pte hpte with hpte' | hun
    · rw [hiff, (hold _ pte hpte').2]
      exact hp pte hpte'
    · exact Or.inl hun

/-- What a store does: one byte of the frame that the caller maps. -/
theorem kernelStore_spec (h : Sound M m) (hs : Step m (.kernelStore addr byte) m') :
    ∃ pte, findPte m.self.tables (pageOf addr) = some pte ∧
      m' = storeByte m pte.frame (addr % pageSize) byte := by
  cases hs with
  | kernelStore _ _ hpte _ =>
    rw [h.mirror] at hpte
    exact ⟨_, hpte, rfl⟩

theorem store_mem (frame offset byte g o : ℕ) : (storeByte m frame offset byte).phys.mem g o =
    if g = frame ∧ o = offset then byte else m.phys.mem g o := by
  change Function.update m.phys.mem frame (Function.update (m.phys.mem frame) offset byte) g o = _
  by_cases hg : g = frame
  · rw [hg, Function.update_self, Function.update_apply]
    simp
  · rw [Function.update_of_ne hg, if_neg (fun hc => hg hc.1)]

/-- A store is seen by another process if and only if its frame is shared and the
byte is a new one. -/
theorem store_quiet (h : Sound M m) (hs : Step m (.kernelStore addr byte) m') :
    Quiet m m' ↔ Private m (addr, byte) := by
  obtain ⟨pte, hpte, rfl⟩ := kernelStore_spec h hs
  have hseen : ∀ p a q, findPte (m.procs p).tables (pageOf a) = some q →
      (seen (storeByte m pte.frame (addr % pageSize) byte) p a = seen m p a ↔
        (q.frame = pte.frame ∧ a % pageSize = addr % pageSize → byte = m.phys.mem q.frame (a % pageSize))) := by
    intro p a q hq
    have hprocs : (storeByte m pte.frame (addr % pageSize) byte).procs = m.procs := rfl
    rw [seen, seen, hprocs, hq, Option.map_some, Option.map_some, store_mem, Option.some.injEq]
    split <;> simp_all
  constructor
  · intro hquiet q hq
    rw [hpte] at hq
    obtain rfl := Option.some.inj hq
    by_contra hnot
    obtain ⟨hshared, hbyte⟩ := not_or.mp hnot
    apply hshared
    intro p hp hne n q hq hframe
    -- the address of this byte in the other process
    have hoff : addr % pageSize < pageSize := Nat.mod_lt _ (by decide)
    have hpage : pageOf (n % 2 ^ 35*pageSize+addr % pageSize) = n % 2 ^ 35 := by
      rw [pageOf, mul_comm, Nat.mul_add_div (by decide), Nat.div_eq_of_lt hoff, add_zero]
    have hmod : (n % 2 ^ 35*pageSize+addr % pageSize) % pageSize = addr % pageSize := by
      rw [Nat.mul_add_mod_self_right, Nat.mod_mod]
    have hlt : n % 2 ^ 35*pageSize+addr % pageSize < userVmSize := by
      have hn : n % 2 ^ 35 < 2 ^ 35 := Nat.mod_lt _ (by decide)
      have hle : (n % 2 ^ 35+1)*pageSize ≤ 2 ^ 35*pageSize := Nat.mul_le_mul_right _ hn
      have hsize : userVmSize = 2 ^ 35*pageSize := by decide
      rw [add_mul, one_mul] at hle
      omega
    have hsame := hquiet p hp hne _ hlt
    rw [hseen p _ q (by rw [hpage, findPte_mod]; exact hq), hmod] at hsame
    apply hbyte
    rw [← hframe]
    exact (hsame ⟨hframe, rfl⟩).symm
  · intro hp p hpc hne a _
    cases hq : findPte (m.procs p).tables (pageOf a) with
    | none =>
      rw [seen, seen, show (storeByte m pte.frame (addr % pageSize) byte).procs = m.procs from rfl, hq]
      rfl
    | some q =>
      rw [hseen p a q hq]
      rintro ⟨hframe, hoff⟩
      rcases hp pte hpte with hun | hbyte
      · exact absurd hframe (hun p hpc hne _ q hq)
      · rw [hframe, hoff]
        exact hbyte.symm

/-- After a store that nobody else sees, the same stores are private as before. -/
theorem private_store (h : Sound M m) (hs : Step m (.kernelStore addr byte) m')
    (hp : Private m (addr, byte)) (x : ℕ × ℕ) : Private m' x ↔ Private m x := by
  obtain ⟨pte, hpte, rfl⟩ := kernelStore_spec h hs
  have hhere := hp pte hpte
  have hone : ∀ q : Pte, (Unshared m q.frame ∨
      (storeByte m pte.frame (addr % pageSize) byte).phys.mem q.frame (x.1 % pageSize) = x.2) ↔
      (Unshared m q.frame ∨ m.phys.mem q.frame (x.1 % pageSize) = x.2) := by
    intro q
    rw [store_mem]
    split
    next hsame =>
      rw [hsame.1, hsame.2]
      rcases hhere with hun | hbyte
      · exact ⟨fun _ => Or.inl hun, fun _ => Or.inl hun⟩
      · rw [hbyte]
    next => rfl
  exact forall₂_congr fun q _ => hone q

theorem quiet_trans {m'' : Machine} (hcur : m'.current = m.current) (hcount : m'.count = m.count)
    (h : Quiet m m') : Quiet m' m'' ↔ Quiet m m'' := by
  rw [Quiet, Quiet, hcur, hcount]
  constructor
  · intro h' p hp hne a ha
    rw [h' p hp hne a ha, h p hp hne a ha]
  · intro h' p hp hne a ha
    rw [h' p hp hne a ha, h p hp hne a ha]

/-- A dead process stores nothing. -/
theorem stores_dead {bytes : List (ℕ × ℕ)} {states : List Machine} (h : Stores m bytes states)
    (hdead : m.self.alive = false) : bytes = [] ∧ states = [] := by
  cases h with
  | done => exact ⟨rfl, rfl⟩
  | fault hs =>
    cases hs with
    | kernelFault halive =>
      rw [hdead] at halive
      cases halive
  | store hs =>
    cases hs with
    | kernelStore halive =>
      rw [hdead] at halive
      cases halive

/-- In every reachable state, the stores of a system call stay unseen by the other
processes if and only if each of them is private when the call begins. -/
theorem stores_run {bytes : List (ℕ × ℕ)} {states : List Machine} (h : Run M ClearAreas m)
    (hs : Stores m bytes states) : (∀ s ∈ states, Quiet m s) ↔ ∀ x ∈ bytes, Private m x := by
  induction hs with
  | done m => simp
  | @fault m m' addr rsp write bytes states hstep hrest ih =>
    have hkept := run_kept h
    obtain ⟨-, hcur, hcount, hquiet, -⟩ := kernelFault_spec hkept hstep
    have hafter := ih (h.step (e := .kernelFault addr write rsp) trivial hstep)
    rw [List.forall_mem_cons]
    cases halive : m'.self.alive with
    | false =>
      obtain ⟨rfl, rfl⟩ := stores_dead hrest halive
      simpa using hquiet
    | true =>
      have htrans : (∀ s ∈ states, Quiet m' s) ↔ ∀ s ∈ states, Quiet m s :=
        forall₂_congr fun s _ => quiet_trans hcur hcount hquiet
      have hprivate : (∀ x ∈ bytes, Private m' x) ↔ ∀ x ∈ bytes, Private m x :=
        forall₂_congr fun x _ => private_fault hkept hstep halive x
      rw [← htrans, ← hprivate, and_iff_right hquiet]
      exact hafter
  | @store m m' addr byte bytes states hstep hrest ih =>
    have hkept := run_kept h
    have hafter := ih (h.step (e := .kernelStore addr byte) trivial hstep)
    have hframe : m'.current = m.current ∧ m'.count = m.count := by
      obtain ⟨pte, -, rfl⟩ := kernelStore_spec hkept.held hstep
      exact ⟨rfl, rfl⟩
    rw [List.forall_mem_cons, List.forall_mem_cons, store_quiet hkept.held hstep]
    apply and_congr_right
    intro hp
    have hquiet := (store_quiet hkept.held hstep).mpr hp
    have htrans : (∀ s ∈ states, Quiet m' s) ↔ ∀ s ∈ states, Quiet m s :=
      forall₂_congr fun s _ => quiet_trans hframe.1 hframe.2 hquiet
    have hprivate : (∀ x ∈ bytes, Private m' x) ↔ ∀ x ∈ bytes, Private m x :=
      forall₂_congr fun x _ => private_store hkept.held hstep hp x
    rw [← htrans, ← hprivate]
    exact hafter

end Stores

/-- The page of the stack after a fault, and after a fork. -/
theorem shared_run : ∃ m, Run {f | Managed small f} ClearAreas m ∧ m.current = 0 ∧ m.count = 2 ∧
    m.self.alive = true ∧ m.translate (pageOf (userVmSize-1)) = some ⟨2046, false⟩ ∧
    findPte (m.procs 1).tables (pageOf (userVmSize-1)) = some ⟨2046, false⟩ ∧ m.phys.mem 2046 4095 = 0 := by
  have hall : (doPageFault origin (userVmSize-1) 6 userVmSize).bind (fun m => (fork m).map fun m' =>
      ((m.self.alive, m'.self.alive, m'.current, m'.count, m'.phys.mem 2046 4095),
        m'.translate (pageOf (userVmSize-1)), findPte (m'.procs 1).tables (pageOf (userVmSize-1)))) =
      some ((true, true, 0, 2, 0), some ⟨2046, false⟩, some ⟨2046, false⟩) := by
    decide +kernel
  obtain ⟨m, hs, hm⟩ := Option.bind_eq_some_iff.mp hall
  obtain ⟨m', hfork, hm'⟩ := Option.map_eq_some_iff.mp hm
  simp only [Prod.mk.injEq] at hm'
  obtain ⟨⟨halive, halive', hcur, hcount, hmem⟩, hpte, hchild⟩ := hm'
  have hrun := touched_run ClearAreas trivial hs
  exact ⟨m', hrun.step (e := .fork) trivial (Step.fork halive hfork), hcur, hcount, halive', hpte,
    hchild, hmem⟩

theorem shared_stores {m : Machine} (halive : m.self.alive = true)
    (hpte : m.translate (pageOf (userVmSize-1)) = some ⟨2046, false⟩) (byte : ℕ) :
    Stores m [(userVmSize-1, byte)] [storeByte m 2046 4095 byte] :=
  .store (Step.kernelStore halive (by decide) hpte (supervisor_writes _)) (.done _)

/-- A byte that is there already may be stored again. -/
theorem stores_run_shared : ∃ m, Run {f | Managed small f} ClearAreas m ∧
    m.translate (pageOf (userVmSize-1)) = some ⟨2046, false⟩ ∧
    ((∀ s ∈ [storeByte m 2046 4095 0], Quiet m s) ↔ ∀ x ∈ [(userVmSize-1, 0)], Private m x) := by
  obtain ⟨m, hrun, -, -, halive, hpte, -⟩ := shared_run
  exact ⟨m, hrun, hpte, stores_run hrun (shared_stores halive hpte 0)⟩

/-- A byte that the kernel stores for the parent is seen by the child. -/
theorem shared_store : ∃ m states, Run {f | Managed small f} ClearAreas m ∧
    Stores m [(userVmSize-1, 7)] states ∧ ∃ s ∈ states, ¬ Quiet m s := by
  obtain ⟨m, hrun, hcur, hcount, halive, hpte, hchild, hmem⟩ := shared_run
  refine ⟨m, _, hrun, shared_stores halive hpte 7, _, List.mem_cons_self, fun hquiet => ?_⟩
  have hother := hquiet 1 (by omega) (by omega) (userVmSize-1) (by decide)
  rw [seen, seen, show (storeByte m 2046 4095 7).procs = m.procs from rfl, hchild, Option.map_some,
    Option.map_some, store_mem, if_pos ⟨rfl, by decide⟩] at hother
  have hseven := (Option.some.inj hother).trans hmem
  cases hseven

end BabyOS.KernelStores

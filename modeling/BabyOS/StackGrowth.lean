import BabyOS.AreaMappings
import BabyOS.AreaRemoval

/-!
# Growth of the stack

Runs of the code with pointers, from an empty list: `exec` maps segments and makes
the stack area, then requests and faults follow in any order. The list is linked
and its bounds are page bounds in every state, whatever the requests were.
-/

set_option autoImplicit false

namespace BabyOS.StackGrowth
open BabyOS.BuddyMachine BabyOS.AreaMachine BabyOS.AreaInvariant BabyOS.AreaNodes
open BabyOS.AreaNodes.Space BabyOS.AreaLinks BabyOS.AreaInsertion BabyOS.AreaRemoval
open BabyOS.AreaMappings

/-! ## Page bounds -/

def Aligned (l : Areas) : Prop := ∀ v ∈ l, pageSize ∣ v.mStart ∧ pageSize ∣ v.mEnd

section Lists

variable {l m : Areas} {v : Vma}

theorem aligned_append : Aligned (l++m) ↔ Aligned l ∧ Aligned m :=
  List.forall_mem_append

theorem aligned_cons : Aligned (v :: l) ↔ (pageSize ∣ v.mStart ∧ pageSize ∣ v.mEnd) ∧ Aligned l := by
  simp [Aligned]

theorem aligned_nil : Aligned [] := by simp [Aligned]

theorem aligned_mergeNext (h : Aligned (v :: l)) : Aligned (mergeNext v l) := by
  cases l with
  | nil => exact h
  | cons p rest =>
    rw [mergeNext]
    split
    · simp only [aligned_cons] at h ⊢
      exact ⟨⟨h.1.1, h.2.1.2⟩, h.2.2⟩
    · exact h

theorem aligned_insertVma (h : Aligned l) (hv : pageSize ∣ v.mStart ∧ pageSize ∣ v.mEnd) :
    Aligned ((AreaMachine.insertVma l v).getD l) := by
  have hcut : l.takeWhile (fun p => p.mStart < v.mEnd)++l.dropWhile (fun p => p.mStart < v.mEnd) = l :=
    List.takeWhile_append_dropWhile
  rw [AreaMachine.insertVma]
  generalize l.takeWhile (fun p => p.mStart < v.mEnd) = before at hcut ⊢
  generalize l.dropWhile (fun p => p.mStart < v.mEnd) = after at hcut ⊢
  subst hcut
  obtain ⟨hbefore, hafter⟩ := aligned_append.mp h
  have hnew : Aligned (mergeNext v after) := aligned_mergeNext (aligned_cons.mpr ⟨hv, hafter⟩)
  cases hlast : before.getLast? with
  | none => exact hnew
  | some prev =>
    obtain ⟨init, rfl⟩ : ∃ init, before = init++[prev] := ⟨_, (List.dropLast_append_getLast? prev hlast).symm⟩
    simp only
    split
    · exact h
    split
    · rw [List.dropLast_concat]
      obtain ⟨hinit, hprev⟩ := aligned_append.mp hbefore
      exact aligned_append.mpr ⟨hinit, aligned_mergeNext
        (aligned_cons.mpr ⟨⟨(aligned_cons.mp hprev).1.1, hv.2⟩, hafter⟩)⟩
    · exact aligned_append.mpr ⟨hbefore, hnew⟩

theorem aligned_doMunmap (h : Aligned l) (addr len : ℕ) (obj : Vma) :
    Aligned (AreaMachine.doMunmap l addr len obj).2 := by
  simp only [AreaMachine.doMunmap]
  split
  · exact h
  next hrange =>
  split
  · exact h
  split
  · exact h
  next before vma after hfind =>
    split
    · exact h
    · have hcut : before++vma :: after = l := by
        obtain ⟨rfl, hrest⟩ := Prod.mk.inj hfind
        rw [← hrest]
        exact List.takeWhile_append_dropWhile
      rw [← hcut, aligned_append, aligned_cons] at h
      have ha : pageSize ∣ addr := Nat.dvd_of_mod_eq_zero (by omega)
      have hend : pageSize ∣ addr+pageAlign len := dvd_add ha (pageAlign_dvd len)
      rw [aligned_append, aligned_append, AreaMachine.splitVma, aligned_append]
      refine ⟨⟨h.1, ?_, ?_⟩, h.2.2⟩
      · split
        · exact aligned_nil
        · exact aligned_cons.mpr ⟨⟨h.2.1.1, ha⟩, aligned_nil⟩
      · split
        · exact aligned_nil
        · exact aligned_cons.mpr ⟨⟨hend, h.2.1.2⟩, aligned_nil⟩

theorem aligned_extendBrk (h : Aligned l) {addr len : ℕ} (obj : Vma) (ha : pageSize ∣ addr)
    (hlen : pageSize ∣ len) : Aligned (AreaMachine.extendBrk l addr len obj) := by
  have hend : pageSize ∣ addr+len := dvd_add ha hlen
  have hnew : Aligned ((AreaMachine.insertVma l { obj with
      mStart := addr, mEnd := addr+len, mPageProt := vmRead ||| vmWrite ||| vmExec }).getD l) :=
    aligned_insertVma h ⟨ha, hend⟩
  simp only [AreaMachine.extendBrk]
  split
  · split
    next before p after hfind =>
      split
      · have hcut : before++p :: after = l := by
          obtain ⟨rfl, hrest⟩ := Prod.mk.inj hfind
          rw [← hrest]
          exact List.takeWhile_append_dropWhile
        rw [← hcut, aligned_append, aligned_cons] at h
        exact aligned_append.mpr ⟨h.1, aligned_cons.mpr ⟨⟨h.2.1.1, hend⟩, h.2.2⟩⟩
      · exact hnew
    next => exact hnew
  · exact hnew

theorem aligned_unmappedFrom (h : Aligned l) (len : ℕ) {addr : ℕ} (ha : pageSize ∣ addr) :
    pageSize ∣ AreaMachine.unmappedFrom len addr l := by
  induction l generalizing addr with
  | nil => exact ha
  | cons p rest ih =>
    obtain ⟨hp, hrest⟩ := aligned_cons.mp h
    rw [AreaMachine.unmappedFrom]
    split
    · exact dvd_zero _
    split
    · exact ha
    · exact ih hrest hp.2

theorem aligned_mmapAt (h : Aligned l) {addr len : ℕ} (prot : ℕ) (ha : pageSize ∣ addr)
    (hlen : pageSize ∣ len) : Aligned (AreaMachine.mmapAt l addr len prot).2 := by
  have hnew := aligned_insertVma h (v := ⟨addr, addr+len, prot, prot &&& (vmRead ||| vmWrite ||| vmExec)⟩)
    ⟨ha, dvd_add ha hlen⟩
  rw [AreaMachine.mmapAt]
  split
  · exact h
  next l' hs =>
    rw [hs] at hnew
    exact hnew

theorem aligned_doMmap (h : Aligned l) (addr len prot flags : ℕ) :
    Aligned (AreaMachine.doMmap l addr len prot flags).2 := by
  have hlen := pageAlign_dvd len
  simp only [AreaMachine.doMmap]
  split
  · exact h
  split
  · exact h
  split
  · split
    · exact h
    next haligned =>
      have ha : pageSize ∣ addr := Nat.dvd_of_mod_eq_zero (not_not.mp haligned)
      split
      · exact aligned_mmapAt h prot ha hlen
      split
      · exact h
      · exact aligned_mmapAt h prot ha hlen
  · split
    · exact h
    · apply aligned_mmapAt h prot _ hlen
      rw [AreaMachine.getUnmappedArea]
      apply aligned_unmappedFrom _ _ (by decide)
      exact fun v hv => h v (List.dropWhile_subset _ hv)

end Lists

/-! ## Operations -/

/-- The list of the process is linked and has page bounds. -/
def Linked (s : Space) : Prop := ∃ l, Holds s l ∧ Aligned (areas s l)

section Operations

variable {s : Space} {fresh : ℕ}

theorem linked_mmapAt (h : Linked s) (hfresh : fresh ∉ s.live) {addr len : ℕ} (prot : ℕ)
    (ha : pageSize ∣ addr) (hlen : pageSize ∣ len) : Linked (s.mmapAt addr len prot fresh).2 := by
  obtain ⟨l, hl, hpages⟩ := h
  obtain ⟨v, hv⟩ : ∃ v : Vma, (⟨addr, (addr+len) % 2 ^ 64, prot,
      prot &&& (vmRead ||| vmWrite ||| vmExec)⟩ : Vma) = v := ⟨_, rfl⟩
  obtain ⟨s₀, hs₀⟩ : ∃ s₀, (((s.alloc fresh).setArea fresh v).setNext fresh none).setStack fresh false = s₀ :=
    ⟨_, rfl⟩
  have hnode : ∀ y, y ≠ fresh → s₀.area y = s.area y ∧ s₀.next y = s.next y := by
    intro y hy
    simp [← hs₀, area, next, hy]
  obtain ⟨-, ids, hholds, hids⟩ := insertFresh_refines hl hfresh (by simp [← hs₀]) (by simp [← hs₀]) hnode
  have harea : s₀.area fresh = v := by simp [← hs₀, area]
  have hend : pageSize ∣ (addr+len) % 2 ^ 64 := by
    rw [Nat.dvd_mod_iff (by decide : pageSize ∣ 2 ^ 64)]
    exact dvd_add ha hlen
  have hnew : Aligned (areas (s₀.insertVma fresh).2 ids) := by
    rw [hids, harea, ← hv]
    exact aligned_insertVma hpages ⟨ha, hend⟩
  simp only [Space.mmapAt, hv, hs₀]
  split <;> exact ⟨ids, hholds, hnew⟩

theorem linked_doMmap (h : Linked s) (hfresh : fresh ∉ s.live) (addr len prot flags : ℕ) :
    Linked (s.doMmap addr len prot flags fresh).2 := by
  have hlen := pageAlign_dvd len
  simp only [Space.doMmap]
  split
  · exact h
  split
  · exact h
  split
  · split
    · exact h
    next haligned =>
      have ha : pageSize ∣ addr := Nat.dvd_of_mod_eq_zero (not_not.mp haligned)
      split
      · exact linked_mmapAt h hfresh prot ha hlen
      split
      · exact h
      · exact linked_mmapAt h hfresh prot ha hlen
  · split
    · exact h
    · apply linked_mmapAt h hfresh prot _ hlen
      obtain ⟨l, hl, hpages⟩ := h
      rw [getUnmappedArea_areas hl, AreaMachine.getUnmappedArea]
      apply aligned_unmappedFrom _ _ (by decide)
      exact fun v hv => hpages v (List.dropWhile_subset _ hv)

theorem linked_doMunmap (h : Linked s) (hfresh : fresh ∉ s.live) (addr len : ℕ) :
    Linked (s.doMunmap addr len fresh).2 := by
  obtain ⟨l, hl, hpages⟩ := h
  obtain ⟨-, ids, hholds, hids⟩ := doMunmap_refines hl hfresh addr len
  exact ⟨ids, hholds, hids ▸ aligned_doMunmap hpages addr len _⟩

theorem linked_extendBrk (h : Linked s) (hfresh : fresh ∉ s.live) {addr len : ℕ} (ha : pageSize ∣ addr)
    (hlen : pageSize ∣ len) : Linked (s.extendBrk addr len fresh) := by
  obtain ⟨l, hl, hpages⟩ := h
  obtain ⟨ids, hholds, hids⟩ := extendBrk_refines hl hfresh addr len
  exact ⟨ids, hholds, hids ▸ aligned_extendBrk hpages _ ha hlen⟩

theorem linked_doBrk (h : Linked s) (hfresh : fresh ∉ s.live) {addr len fresh' : ℕ} (ha : pageSize ∣ addr)
    (hfresh' : fresh' ∉ (s.doMunmap addr (pageAlign len) fresh).2.live) :
    Linked (s.doBrk addr len fresh fresh').2 := by
  simp only [Space.doBrk]
  split
  · exact h
  have hcut := linked_doMunmap h hfresh addr (pageAlign len)
  split
  · exact linked_extendBrk hcut hfresh' ha (pageAlign_dvd len)
  · exact hcut

theorem linked_initUserStack (h : Linked s) (hfresh : fresh ∉ s.live) :
    Linked (s.initUserStack fresh).2 := by
  obtain ⟨l, hl, hpages⟩ := h
  obtain ⟨s₀, hs₀⟩ :
      ∃ s₀, (((s.alloc fresh).setArea fresh userStack).setNext fresh none).setStack fresh true = s₀ := ⟨_, rfl⟩
  have hnode : ∀ y, y ≠ fresh → s₀.area y = s.area y ∧ s₀.next y = s.next y := by
    intro y hy
    simp [← hs₀, area, next, hy]
  obtain ⟨-, ids, hholds, hids⟩ := insertFresh_refines hl hfresh (by simp [← hs₀]) (by simp [← hs₀]) hnode
  have harea : s₀.area fresh = userStack := by simp [← hs₀, area]
  simp only [initUserStack, hs₀]
  refine ⟨ids, hholds, ?_⟩
  rw [hids, harea]
  exact aligned_insertVma hpages (by decide)

/-- What a fault changes in the list: at most the start of one area. -/
theorem pageFault_list {before after : List ℕ} {x addr err rsp : ℕ} (h : Holds s (before++x :: after))
    (hfound : s.findVma addr = (before.getLast?, some x)) {s' : Space}
    (hs : s.pageFault addr err rsp = some s') :
    s' = s ∧ (s.area x).mStart ≤ addr ∨
      addr < (s.area x).mStart ∧ err &&& 4 ≠ 0 ∧ (s.area x).mFlags &&& vmStack ≠ 0 ∧
        rsp ≤ (addr+64) % 2 ^ 64 ∧ s' = s.expandStack x addr ∧ Holds s' (before++x :: after) := by
  simp only [Space.pageFault, hfound] at hs
  split at hs
  next hbelow =>
    split at hs
    next hgrow =>
      obtain rfl := Option.some.inj hs
      refine Or.inr ⟨hbelow, hgrow.1, hgrow.2.1, hgrow.2.2, rfl, ?_⟩
      exact holds_outside h rfl (fun y _ => by simp [Space.expandStack, next]) fun y hy => hy
    next => cases hs
  next hin =>
    obtain rfl := Option.some.inj hs
    exact Or.inl ⟨rfl, by omega⟩

theorem linked_pageFault (h : Linked s) {addr err rsp : ℕ} {s' : Space}
    (hs : s.pageFault addr err rsp = some s') : Linked s' := by
  obtain ⟨l, hl, hpages⟩ := h
  obtain ⟨before, after, rfl, hlist, hnodes⟩ := findVma_cut hl addr
  cases after with
  | nil =>
    simp only [Space.pageFault, hnodes, List.head?_nil] at hs
    cases hs
  | cons x after =>
    rcases pageFault_list hl hnodes hs with ⟨rfl, -⟩ | ⟨-, -, -, -, hs', hl'⟩
    · exact ⟨_, hl, hpages⟩
    · refine ⟨_, hl', ?_⟩
      have hall : ∀ y ∈ before++x :: after, pageSize ∣ (s'.area y).mStart ∧ pageSize ∣ (s'.area y).mEnd := by
        intro y hy
        have hold := hpages (s.area y) (List.mem_map_of_mem hy)
        rw [hs']
        by_cases hyx : y = x
        · subst hyx
          simp only [Space.expandStack, area, setArea_node_area, if_true]
          exact ⟨pageDown_dvd addr, hold.2⟩
        · simp only [Space.expandStack, area, setArea_node_area, hyx, if_false]
          exact hold
      intro v hv
      obtain ⟨y, hy, rfl⟩ := List.mem_map.mp hv
      exact hall y hy

end Operations

/-! ## Runs -/

inductive Op
  | mmap (addr len prot flags fresh : ℕ)
  | munmap (addr len fresh : ℕ)
  | brk (value fresh fresh' : ℕ)
  | sbrk (increment fresh fresh' : ℕ)
  | fault (addr err rsp : ℕ)
  | initUserStack (fresh : ℕ)
  | setSegmentBound (elfBrk : ℕ)

/-- One operation; `none` is a fault that ends the process. -/
def perform (m : Mm) : Op → Option Mm
  | .mmap addr len prot flags fresh => some { m with space := (m.space.doMmap addr len prot flags fresh).2 }
  | .munmap addr len fresh => some { m with space := (m.space.doMunmap addr len fresh).2 }
  | .brk value fresh fresh' => some (AreaNodes.sysBrk m value fresh fresh')
  | .sbrk increment fresh fresh' =>
    some (AreaNodes.sysBrk m ((m.brk+increment) % 2 ^ 64) fresh fresh')
  | .fault addr err rsp => (m.space.pageFault addr err rsp).map fun s => { m with space := s }
  | .initUserStack fresh => some { m with space := (m.space.initUserStack fresh).2 }
  | .setSegmentBound elfBrk => some { m with startBrk := elfBrk, brk := pageAlign elfBrk }

/-- The objects for a call of `sys_brk`. -/
def HandedBrk (m : Mm) (brk fresh fresh' : ℕ) : Prop :=
  fresh ∉ m.space.live ∧
    fresh' ∉ (m.space.doMunmap (pageAlign m.brk)
      (pageAlign ((pageAlign brk+2 ^ 64-pageAlign m.brk) % 2 ^ 64)) fresh).2.live

/-- The cache hands out objects that are not in use. -/
def Handed (m : Mm) : Op → Prop
  | .mmap _ _ _ _ fresh => fresh ∉ m.space.live
  | .munmap _ _ fresh => fresh ∉ m.space.live
  | .brk value fresh fresh' => HandedBrk m value fresh fresh'
  | .sbrk increment fresh fresh' => HandedBrk m ((m.brk+increment) % 2 ^ 64) fresh fresh'
  | .fault _ _ _ => True
  | .initUserStack fresh => fresh ∉ m.space.live
  | .setSegmentBound _ => True

/-- A process from its empty list on. -/
inductive Run : Mm → Prop
  | start {m : Mm} : m.space.mmap = none → Run m
  | step {m m' : Mm} {op : Op} : Run m → Handed m op → perform m op = some m' → Run m'

theorem setBrk_space (m : Mm) (ok : Bool) (s : Space) (brk : ℕ) : (setBrk m ok s brk).space = s := rfl

theorem linked_sysBrk {m : Mm} (h : Linked m.space) {brk fresh fresh' : ℕ}
    (hhanded : HandedBrk m brk fresh fresh') : Linked (AreaNodes.sysBrk m brk fresh fresh').space := by
  have hcut := linked_doMunmap h hhanded.1 (pageAlign brk)
    ((pageAlign m.brk+2 ^ 64-pageAlign brk) % 2 ^ 64)
  have hbrk := linked_doBrk h hhanded.1 (pageAlign_dvd m.brk) hhanded.2
  rw [AreaNodes.sysBrk]
  split
  · exact h
  split
  · rw [setBrk_space]
    exact hcut
  · rw [setBrk_space]
    exact hbrk

theorem perform_linked {m m' : Mm} {op : Op} (h : Linked m.space) (hhanded : Handed m op)
    (hs : perform m op = some m') : Linked m'.space := by
  cases op with
  | mmap addr len prot flags fresh =>
    obtain rfl := Option.some.inj hs
    exact linked_doMmap h hhanded addr len prot flags
  | munmap addr len fresh =>
    obtain rfl := Option.some.inj hs
    exact linked_doMunmap h hhanded addr len
  | brk value fresh fresh' =>
    obtain rfl := Option.some.inj hs
    exact linked_sysBrk h hhanded
  | sbrk increment fresh fresh' =>
    obtain rfl := Option.some.inj hs
    exact linked_sysBrk h hhanded
  | fault addr err rsp =>
    obtain ⟨s, hfault, rfl⟩ := Option.map_eq_some_iff.mp hs
    exact linked_pageFault h hfault
  | initUserStack fresh =>
    obtain rfl := Option.some.inj hs
    exact linked_initUserStack h hhanded
  | setSegmentBound elfBrk =>
    obtain rfl := Option.some.inj hs
    exact h

theorem run_linked {m : Mm} (h : Run m) : Linked m.space := by
  induction h with
  | start hnone => exact ⟨[], ⟨hnone, trivial, List.nodup_nil, by simp⟩, aligned_nil⟩
  | step _ hhanded hs ih => exact perform_linked ih hhanded hs

/-- A fault lowers the start of the stack area only, and not into an area below. -/
def StackOnly (s : Space) (result : Option Space) : Prop :=
  ∀ s', result = some s' → ∀ before x after, Holds s (before++x :: after) →
    (s'.area x).mStart < (s.area x).mStart →
      (s.node x).stack = true ∧ ∀ y ∈ before, (s'.area y).mEnd ≤ (s'.area x).mStart

/-- The faults that treat the stack as such: when the address is below the area that
`find_vma` gives, in user mode and no more than 64 bytes below `rsp`, then this area
is the stack or it has none of the bits of `VM_STACK`, the access bits among them. -/
def FaultAtStack (s : Space) (addr err rsp : ℕ) : Prop :=
  ∀ vma, (s.findVma addr).2 = some vma → addr < (s.area vma).mStart → err &&& 4 ≠ 0 →
    rsp ≤ (addr+64) % 2 ^ 64 → (s.node vma).stack = true ∨ (s.area vma).mFlags &&& vmStack = 0

/-- In every state of every run a fault grows the stack only exactly when it is one of
these faults. -/
theorem stack_only_iff {m : Mm} (h : Run m) (addr err rsp : ℕ) :
    StackOnly m.space (m.space.pageFault addr err rsp) ↔ FaultAtStack m.space addr err rsp := by
  obtain ⟨l, hl, hpages⟩ := run_linked h
  obtain ⟨before, after, rfl, hlist, hnodes⟩ := findVma_cut hl addr
  cases after with
  | nil =>
    rw [StackOnly, FaultAtStack, Space.pageFault, hnodes]
    exact iff_of_true (fun s' hs => by cases hs) (fun vma hvma => by cases hvma)
  | cons x after =>
    rw [List.head?_cons] at hnodes
    constructor
    · intro honly vma hvma hbelow huser hrsp
      rw [hnodes] at hvma
      obtain rfl := Option.some.inj hvma
      by_cases hbits : (m.space.area x).mFlags &&& vmStack = 0
      · exact Or.inr hbits
      · left
        have hs : m.space.pageFault addr err rsp = some (m.space.expandStack x addr) := by
          simp only [Space.pageFault, hnodes]
          rw [if_pos hbelow, if_pos ⟨huser, hbits, hrsp⟩]
        refine (honly _ hs before x after hl ?_).1
        simp only [Space.expandStack, area, setArea_node_area, if_true]
        exact (pageDown_le addr).trans_lt hbelow
    · intro hfault s' hs before' y after' hl' hlower
      rcases pageFault_list hl hnodes hs with ⟨rfl, -⟩ | ⟨hbelow, huser, hbits, hrsp, rfl, -⟩
      · exact absurd hlower (lt_irrefl _)
      · have hyx : y = x := by
          by_contra hne
          simp only [Space.expandStack, area, setArea_node_area, hne, if_false] at hlower
          exact absurd hlower (lt_irrefl _)
        subst hyx
        refine ⟨(hfault y (by rw [hnodes]) hbelow huser hrsp).resolve_right hbits, ?_⟩
        -- the two cuts of the list are the same
        have hsame := hl.unique hl'
        have hnodup := hl.nodup
        rw [List.nodup_append, List.nodup_cons] at hnodup
        have hnot : y ∉ before := fun hin => hnodup.2.2 y hin y List.mem_cons_self rfl
        have hnodup' := hl'.nodup
        rw [List.nodup_append, List.nodup_cons] at hnodup'
        have hnot' : y ∉ before' := fun hin => hnodup'.2.2 y hin y List.mem_cons_self rfl
        obtain rfl : before = before' := by
          have htake := congrArg (List.takeWhile fun z => z ≠ y) hsame
          have hcut : ∀ m r : List ℕ, y ∉ m → (m++y :: r).takeWhile (fun z => z ≠ y) = m := by
            intro m r hm
            rw [List.takeWhile_append_of_pos]
            · simp
            · intro z hz
              have hzy : z ≠ y := fun hzy => hm (hzy ▸ hz)
              simpa using hzy
          rwa [hcut before after hnot, hcut before' after' hnot'] at htake
        intro z hz
        have hzy : z ≠ y := fun hzy => hnot (hzy ▸ hz)
        simp only [Space.expandStack, area, setArea_node_area, hzy, if_false, if_true]
        have hend : (m.space.area z).mEnd ≤ addr := by
          obtain ⟨hfirst, -⟩ := Prod.mk.inj hlist
          have hin : m.space.area z ∈ areas m.space before := List.mem_map_of_mem hz
          rw [← hfirst] at hin
          simpa using List.mem_takeWhile_imp hin
        exact le_pageDown (hpages _ (List.mem_map_of_mem (List.mem_append_left _ hz))).2 hend

/-- A process with its stack area and nothing else. -/
def stacked : Mm := ⟨(vacantSpace.initUserStack 0).2, 0, 0⟩

theorem stacked_run : Run stacked := by
  have hstart : Run ⟨vacantSpace, 0, 0⟩ := Run.start rfl
  have hhanded : Handed ⟨vacantSpace, 0, 0⟩ (.initUserStack 0) := by simp [Handed, vacantSpace]
  have hs : perform ⟨vacantSpace, 0, 0⟩ (.initUserStack 0) = some stacked := by
    simp only [perform, stacked]
  exact hstart.step hhanded hs

theorem stack_only_stacked : StackOnly stacked.space
    (stacked.space.pageFault (userVmSize-0x1800) 6 (userVmSize-0x1800)) := by
  apply (stack_only_iff stacked_run _ _ _).mpr
  intro vma hvma _ _ _
  have hfound : (stacked.space.findVma (userVmSize-0x1800)).2 = some 0 := by decide +kernel
  rw [hfound] at hvma
  obtain rfl := Option.some.inj hvma
  exact Or.inl (by decide +kernel)

/-- A process with one writable page at 0x400000. -/
def oneMapping : Mm := ⟨(vacantSpace.doMmap 0x400000 0x1000 3 mapFixed 0).2, 0, 0⟩

/-- A fault below an ordinary mapping lowers its start. -/
theorem mapping_grows : ¬ ∀ (m : Mm) (addr err rsp : ℕ), Run m →
    StackOnly m.space (m.space.pageFault addr err rsp) := by
  intro hall
  have hstart : Run ⟨vacantSpace, 0, 0⟩ := Run.start rfl
  have hhanded : Handed ⟨vacantSpace, 0, 0⟩ (.mmap 0x400000 0x1000 3 mapFixed 0) := by
    simp [Handed, vacantSpace]
  have hmap : perform ⟨vacantSpace, 0, 0⟩ (.mmap 0x400000 0x1000 3 mapFixed 0) = some oneMapping := by
    simp only [perform, oneMapping]
  have hrun : Run oneMapping := hstart.step hhanded hmap
  have hfound : oneMapping.space.findVma 0x3ff000 = (none, some 0) := by decide +kernel
  have hholds : Holds oneMapping.space ([]++0 :: []) :=
    ⟨by decide +kernel, ⟨by decide +kernel, trivial⟩, by decide, by decide +kernel⟩
  have hs : oneMapping.space.pageFault 0x3ff000 6 0x3ff000 = some (oneMapping.space.expandStack 0 0x3ff000) := by
    simp only [Space.pageFault, hfound]
    rw [if_pos (by decide +kernel), if_pos (by decide +kernel)]
  have honly := hall oneMapping 0x3ff000 6 0x3ff000 hrun _ hs [] 0 [] hholds (by decide +kernel)
  exact absurd honly.1 (by decide +kernel)

end BabyOS.StackGrowth

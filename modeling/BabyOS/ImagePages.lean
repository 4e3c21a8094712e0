import BabyOS.FrameTallies

/-!
# The pages of a program

`exec` takes a block of frames for each segment and maps as many of them as the
segment has pages. The block is counted as the kernel's until its frames are
mapped, one after the other.
-/

set_option autoImplicit false

namespace BabyOS.ImagePages
open BabyOS.BuddyMachine BabyOS.BuddyArithmetic BabyOS.AreaMachine BabyOS.FrameCounts
open BabyOS.RadixTables BabyOS.PageMachine BabyOS.PageCounts BabyOS.AreaInvariant
open BabyOS.AreaOperations BabyOS.AreaCoverage BabyOS.ProcessMachine BabyOS.ProcessInvariant
open BabyOS.ProcessChanges BabyOS.ProcessSteps BabyOS.FrameTallies

/-- The machine with other frames held by the kernel. -/
def withOwned (m : Machine) (owned : ℕ → ℕ) : Machine := { m with owned := owned }

section Give

variable {D M : Set ℕ} {m : Machine} {t' : Pml4Table} {s' : Phys} {n f₀ count : ℕ}

theorem held_less (h : Held D M m) {owned : ℕ → ℕ} (hle : ∀ f, owned f ≤ m.owned f) :
    Held D M (withOwned m owned) := by
  refine ⟨h.frames, fun f hD hf => ?_, fun f hD => ?_, fun f hf => ?_, fun f hM => ?_, h.alone,
    h.areas, h.running, h.mirror⟩
  · have hf' : 0 < leafTotal m f+tableTotal m f+owned f := hf
    have := hle f
    exact h.managed f hD (by omega)
  · obtain ⟨hM, hnone⟩ := h.device f hD
    refine ⟨hM, ?_⟩
    have := hle f
    change tableTotal m f+owned f = 0
    omega
  · have hapart := h.apart f hf
    have := hle f
    change tableTotal m f+owned f = 0
    omega
  · have henough := h.enough f hM
    have := hle f
    change ((leafTotal m f+tableTotal m f+owned f : ℕ) : ℤ) ≤ m.phys.buddy.ref f
    omega

/-- A frame of the kernel is mapped at a page that was not present. -/
theorem give_page (h : Held D M m) (hM : f₀ ∈ M) (howned : m.owned f₀ = 1)
    (href : m.phys.buddy.ref f₀ = 1) (hnone : findPte m.self.tables n = none)
    (hs : mapPage m.self.tables n ⟨f₀, true⟩ m.phys = some (t', s')) :
    Held D M (withOwned (m.setTables t' s') (Function.update m.owned f₀ 0)) ∧
      (Counted M m → Counted M (m.setTables t' s')) ∧
      (∀ f ∈ M, 0 < m.phys.buddy.ref f → s'.buddy.ref f = m.phys.buddy.ref f) ∧
      ∀ k, findPte t' k = if k % 2 ^ 35 = n % 2 ^ 35 then some ⟨f₀, true⟩ else findPte m.self.tables k := by
  obtain ⟨new, hgrow, hplaced⟩ := mapPage_spec h.frames hs
  have hpage : ∀ f, pageMaps m.self.tables f n = 0 := fun f => by rw [pageMaps, hnone, Option.elim_none]
  have hleaf : ∀ f, leafTotal (m.setTables t' s') f = leafTotal m f+if f₀ = f then 1 else 0 := by
    intro f
    have htotal : leafTotal (m.setTables t' s') f+leafCount m.self.tables f =
        leafTotal m f+leafCount t' f := leafTotal_setTables h f
    have hcount : leafCount t' f+pageMaps m.self.tables f n =
        leafCount m.self.tables f+if f₀ = f then 1 else 0 := placed_leafCount hplaced f
    rw [hpage] at hcount
    omega
  have htable : ∀ f, tableTotal (m.setTables t' s') f = tableTotal m f+new f := by
    intro f
    have htotal : tableTotal (m.setTables t' s') f+tableCount m.self.tables f =
        tableTotal m f+tableCount t' f := tableTotal_setTables h f
    have hcount := placed_tableCount hplaced f
    omega
  have hkept : ∀ f ∈ M, 0 < m.phys.buddy.ref f → new f = 0 := by
    intro f _ hpos
    by_contra hne
    have := (hgrow.fresh f (Nat.pos_of_ne_zero hne)).2.1
    omega
  have hnew : ∀ f, f ∉ M → new f = 0 := by
    intro f hf
    by_contra hne
    exact hf (hgrow.fresh f (Nat.pos_of_ne_zero hne)).1
  have hzero : leafTotal m f₀ = 0 ∧ tableTotal m f₀ = 0 := by
    have henough := h.enough f₀ hM
    omega
  have href' : ∀ f ∈ M, 0 < m.phys.buddy.ref f → s'.buddy.ref f = m.phys.buddy.ref f := by
    intro f hf hpos
    rw [hgrow.ref f, hkept f hf hpos]
    simp
  have howned' : ∀ f, f ≠ f₀ → Function.update m.owned f₀ 0 f = m.owned f :=
    fun f hne => Function.update_of_ne hne _ _
  refine ⟨⟨hgrow.frames, fun f hD hf => ?_, fun f hD => ?_, fun f hf => ?_, fun f hf => ?_,
    fun p hp k pte hpte hD hw => ?_, fun p hp => ?_, ⟨h.running.1, h.running.1⟩, fun _ => rfl⟩,
    fun hc f hf hpos => ?_, href', placed_find hplaced⟩
  · by_contra hout
    have hne : f ≠ f₀ := fun heq => hout (heq ▸ hM)
    change 0 < leafTotal (m.setTables t' s') f+tableTotal (m.setTables t' s') f+
      Function.update m.owned f₀ 0 f at hf
    rw [hleaf, htable, hnew f hout, howned' f hne, if_neg (Ne.symm hne)] at hf
    exact hout (h.managed f hD (by omega))
  · obtain ⟨hout, hnone⟩ := h.device f hD
    have hne : f ≠ f₀ := fun heq => hout (heq ▸ hM)
    refine ⟨hout, ?_⟩
    change tableTotal (m.setTables t' s') f+Function.update m.owned f₀ 0 f = 0
    rw [htable, hnew f hout, howned' f hne]
    exact hnone
  · change 0 < leafTotal (m.setTables t' s') f at hf
    change tableTotal (m.setTables t' s') f+Function.update m.owned f₀ 0 f = 0
    rw [hleaf] at hf
    rw [htable]
    by_cases heq : f = f₀
    · rw [heq, Function.update_self, hzero.2, hkept f₀ hM (by omega)]
    · rw [if_neg (Ne.symm heq)] at hf
      have hapart := h.apart f hf
      have hfresh : new f = 0 := by
        by_contra hne
        obtain ⟨hfM, hr, -⟩ := hgrow.fresh f (Nat.pos_of_ne_zero hne)
        have := (h.clean hfM hr.le).1
        omega
      rw [howned' f heq, hfresh]
      omega
  · change ((leafTotal (m.setTables t' s') f+tableTotal (m.setTables t' s') f+
      Function.update m.owned f₀ 0 f : ℕ) : ℤ) ≤ s'.buddy.ref f
    have henough := h.enough f hf
    rw [hleaf, htable, hgrow.ref f]
    by_cases heq : f = f₀
    · rw [heq, if_pos rfl, Function.update_self]
      rw [heq, howned] at henough
      omega
    · rw [if_neg (Ne.symm heq), howned' f heq]
      omega
  · change leafTotal (m.setTables t' s') pte.frame = 1
    rw [hleaf]
    have hold : ∀ q < m.count, findPte (m.procs q).tables k = some pte →
        leafTotal m pte.frame+(if f₀ = pte.frame then 1 else 0) = 1 := by
      intro q hq hpte
      have hone := h.alone q hq k pte hpte hD hw
      have hne : f₀ ≠ pte.frame := by
        intro heq
        rw [← heq] at hone
        omega
      rw [if_neg hne, hone]
    by_cases hself : p = m.current
    · have hpte' : findPte t' k = some pte := by
        rw [hself] at hpte
        simpa [withOwned, Machine.setTables, Machine.setSelf] using hpte
      rw [placed_find hplaced] at hpte'
      split at hpte'
      · obtain rfl := Option.some.inj hpte'
        rw [if_pos rfl, hzero.1]
      · exact hold _ h.running.1 hpte'
    · apply hold p hp
      simpa [withOwned, Machine.setTables, Machine.setSelf, hself] using hpte
  · have hareas := h.areas p hp
    by_cases hself : p = m.current
    · subst hself
      simpa [withOwned, Machine.setTables, Machine.setSelf, Machine.self] using hareas
    · simpa [withOwned, Machine.setTables, Machine.setSelf, hself] using hareas
  · change s'.buddy.ref f = _
    rw [hleaf] at hpos ⊢
    by_cases heq : f = f₀
    · rw [heq, if_pos rfl, hzero.1, href' f₀ hM (by omega), href]
      rfl
    · rw [if_neg (Ne.symm heq)] at hpos ⊢
      have hcount := hc f hf hpos
      rw [href' f hf (by omega), hcount]
      rfl

theorem setTables_self (m : Machine) (t : Pml4Table) (s : Phys) (owned : ℕ → ℕ) :
    (withOwned (m.setTables t s) owned).self = { m.self with tables := t } := by
  simp [withOwned, Machine.setTables, Machine.setSelf, Machine.self]

theorem setTables_twice (m : Machine) (t t' : Pml4Table) (s s' : Phys) (owned : ℕ → ℕ) :
    (withOwned (m.setTables t s) owned).setTables t' s' = withOwned (m.setTables t' s') owned := by
  simp [withOwned, Machine.setTables, Machine.setSelf, Machine.self]

/-- The frames of a block are mapped one after the other. -/
theorem give_pages (h : Held D M m)
    (hblock : ∀ k < count, f₀+k ∈ M ∧ m.owned (f₀+k) = 1 ∧ m.phys.buddy.ref (f₀+k) = 1)
    (hnone : ∀ k < count, findPte m.self.tables (n+k) = none) (hend : ∀ k < count, n+k < 2 ^ 35)
    (hs : mapPages count m.self.tables n f₀ m.phys = some (t', s')) :
    ∃ owned, Held D M (withOwned (m.setTables t' s') owned) ∧
      (Counted M m → Counted M (m.setTables t' s')) ∧
      (∀ f, (f₀ ≤ f ∧ f < f₀+count) ∨ owned f = m.owned f) ∧
      ∀ k < 2 ^ 35, ∀ pte, findPte t' k = some pte →
        findPte m.self.tables k = some pte ∨ pte.writable = true ∧ n ≤ k ∧ k < n+count := by
  induction count generalizing m n f₀ with
  | zero =>
    obtain ⟨rfl, rfl⟩ := Prod.mk.inj (Option.some.inj hs)
    have hself : Held D M (m.setSelf { m.self with tables := m.self.tables }) :=
      sound_setSelf h rfl (h.areas _ h.running.1)
    have hreload := sound_reload hself
    exact ⟨m.owned, hreload, fun hc => counted_setSelf hc rfl, fun _ => Or.inr rfl,
      fun _ _ _ hpte => Or.inl hpte⟩
  | succ count ih =>
    rw [mapPages] at hs
    split at hs
    · cases hs
    next t₁ s₁ hpage =>
    obtain ⟨hM, howned, href⟩ := hblock 0 (Nat.succ_pos count)
    have hfirst := hnone 0 (Nat.succ_pos count)
    rw [add_zero] at hM howned href hfirst
    obtain ⟨h₁, hcounted, hkept, hfind⟩ := give_page h hM howned href hfirst hpage
    have htables : (withOwned (m.setTables t₁ s₁) (Function.update m.owned f₀ 0)).self.tables = t₁ :=
      congrArg Process.tables (setTables_self m t₁ s₁ _)
    have hblock' : ∀ k < count, f₀+1+k ∈ M ∧ Function.update m.owned f₀ 0 (f₀+1+k) = 1 ∧
        s₁.buddy.ref (f₀+1+k) = 1 := by
      intro k hk
      obtain ⟨hM', howned', href'⟩ := hblock (k+1) (by omega)
      rw [Nat.add_assoc, Nat.add_comm 1, Function.update_of_ne (by omega)]
      exact ⟨hM', howned', (hkept _ hM' (by omega)).trans href'⟩
    have hnone' : ∀ k < count,
        findPte (withOwned (m.setTables t₁ s₁) (Function.update m.owned f₀ 0)).self.tables (n+1+k) = none := by
      intro k hk
      have hold := hnone (k+1) (by omega)
      have hlow := hend 0 (by omega)
      have hhigh := hend (k+1) (by omega)
      rw [htables, hfind, if_neg, Nat.add_assoc, Nat.add_comm 1]
      · exact hold
      · rw [Nat.mod_eq_of_lt (by omega), Nat.mod_eq_of_lt (by omega)]
        omega
    rw [← htables] at hs
    obtain ⟨owned, hheld, hcounted', howned', hpages⟩ := 
      ih h₁ hblock' hnone' (fun k hk => by have := hend (k+1) (by omega); omega) hs
    rw [setTables_twice] at hheld hcounted'
    refine ⟨owned, hheld, fun hc => hcounted' (hcounted hc), fun f => ?_, fun k hk pte hpte => ?_⟩
    · rcases howned' f with hin | heq
      · left
        omega
      · by_cases hf : f = f₀
        · left
          omega
        · right
          rw [heq]
          exact Function.update_of_ne hf _ _
    · rcases hpages k hk pte hpte with hold | hin
      · rw [htables, hfind] at hold
        split at hold
        next heq =>
          have hlow : n < 2 ^ 35 := hend 0 (Nat.succ_pos count)
          rw [Nat.mod_eq_of_lt hk, Nat.mod_eq_of_lt hlow] at heq
          obtain rfl := Option.some.inj hold
          exact Or.inr ⟨rfl, by omega, by omega⟩
        next => exact Or.inl hold
      · exact Or.inr ⟨hin.1, by omega, by omega⟩

end Give

/-! ## A segment -/

section Segments

variable {D M : Set ℕ} {m m' : Machine} {g : Image} {ok : Bool}

theorem pageAlign_twice (x : ℕ) : pageAlign (pageAlign x) = pageAlign x := by
  obtain ⟨i, hi⟩ := pageAlign_dvd x
  have hlt : (x+(pageSize-1)) % 2 ^ 64 < 2 ^ 64 := Nat.mod_lt _ (by decide)
  have hle : pageAlign x ≤ (x+(pageSize-1)) % 2 ^ 64 := Nat.div_mul_le_self _ _
  have hsmall : pageAlign x+(pageSize-1) < 2 ^ 64 := by
    rw [hi] at hle ⊢
    simp only [pageSize] at hle ⊢
    omega
  rw [pageAlign, Nat.mod_eq_of_lt hsmall, hi, Nat.mul_add_div (by decide), Nat.div_eq_of_lt (by decide),
    add_zero, mul_comm]

/-- The pages of a segment were in no area before it. -/
theorem loadElfSegment_pages {l l' : Areas} (h : WellFormed l)
    (hs : loadElfSegment l g.ph = some l') :
    WellFormed l' ∧ (∀ a, InAreas l a → InAreas l' a) ∧
      ∀ k < segmentPages g, pageOf g.ph.vaddr+k < 2 ^ 35 ∧
        ¬ InAreas l ((pageOf g.ph.vaddr+k)*pageSize) ∧ InAreas l' ((pageOf g.ph.vaddr+k)*pageSize) := by
  have hfixed : MmapClear l (pageDown g.ph.vaddr)
      (pageAlign (g.ph.memsz+g.ph.vaddr % pageSize)) mapFixed := fun hzero => absurd hzero (by decide)
  have hw := (doMmap_spec h 7 hfixed).1
  have hcover : ∀ a, InAreas l a → InAreas (doMmap l (pageDown g.ph.vaddr)
      (pageAlign (g.ph.memsz+g.ph.vaddr % pageSize)) 7 mapFixed).2 a :=
    fun a ha => covered_doMmap h 7 mapFixed ha
  rw [loadElfSegment] at hs
  split at hs
  · cases hs
  next ret l₁ hmap =>
  rw [hmap] at hw hcover
  split at hs
  · obtain rfl := Option.some.inj hs
    refine ⟨hw, hcover, fun k hk => ?_⟩
    have hpos : 0 < pageSize := by decide
    obtain ⟨i, hi⟩ := pageAlign_dvd (g.ph.memsz+g.ph.vaddr % pageSize)
    have hcount : segmentPages g = i := by rw [segmentPages, hi, Nat.mul_div_cancel_left _ hpos]
    have hlen : pageAlign (pageAlign (g.ph.memsz+g.ph.vaddr % pageSize)) ≠ 0 := by
      rw [pageAlign_twice, hi]
      intro hc
      rcases Nat.mul_eq_zero.mp hc with hc | hc <;> omega
    obtain ⟨hend, hnew⟩ := doMmap_fixed h hlen hmap
    rw [pageAlign_twice, hi] at hend hnew
    have hlow : pageDown g.ph.vaddr ≤ (pageOf g.ph.vaddr+k)*pageSize :=
      Nat.mul_le_mul_right _ (Nat.le_add_right _ k)
    have hhigh : (pageOf g.ph.vaddr+k)*pageSize < pageDown g.ph.vaddr+pageSize*i := by
      have hki : k*pageSize < i*pageSize := (Nat.mul_lt_mul_right hpos).mpr (by omega)
      change _ < pageOf g.ph.vaddr*pageSize+pageSize*i
      rw [add_mul, mul_comm pageSize i]
      omega
    refine ⟨?_, hnew _ hlow hhigh⟩
    have hlt : (pageOf g.ph.vaddr+k)*pageSize < 2 ^ 35*pageSize := by
      have hsize : userVmSize = 2 ^ 35*pageSize := by decide
      omega
    exact Nat.lt_of_mul_lt_mul_right hlt
  · cases hs

/-- The entries for device memory are writable. -/
def Lit (D : Set ℕ) (t : Pml4Table) : Prop :=
  ∀ n pte, findPte t n = some pte → pte.frame ∈ D → pte.writable = true

/-- What loading keeps: the invariant, the pages in the areas, the counts, the
other processes. -/
structure Loading (D M : Set ℕ) (m m' : Machine) : Prop where
  held : Held D M m'
  inside : Inside m'.self
  counted : Counted M m → Counted M m'
  lit : Lit D m.self.tables → Lit D m'.self.tables
  alive : m'.self.alive = true
  place : m'.current = m.current ∧ m'.count = m.count
  others : ∀ q, q ≠ m.current → m'.procs q = m.procs q

theorem Loading.trans {m₁ : Machine} (h : Loading D M m m₁) (h' : Loading D M m₁ m') :
    Loading D M m m' := by
  refine ⟨h'.held, h'.inside, fun hc => h'.counted (h.counted hc),
    fun hl => h'.lit (h.lit hl), h'.alive,
    ⟨h'.place.1.trans h.place.1, h'.place.2.trans h.place.2⟩, fun q hq => ?_⟩
  rw [h'.others q (by rw [h.place.1]; exact hq), h.others q hq]

theorem Loading.refl (h : Held D M m) (hin : Inside m.self) (halive : m.self.alive = true) :
    Loading D M m m := ⟨h, hin, id, id, halive, ⟨rfl, rfl⟩, fun _ _ => rfl⟩

theorem Loading.sheltered (h : Loading D M m m') (hm : Sheltered m) : Sheltered m' := by
  intro q hq
  rw [h.place.2] at hq
  by_cases hqc : q = m.current
  · rw [hqc, ← h.place.1]
    refine ⟨h.inside, fun hdead => ?_⟩
    change m'.self.alive = false at hdead
    rw [h.alive] at hdead
    cases hdead
  · rw [h.others q hqc]
    exact hm q hq

theorem held_bytes (h : Held D M m) (mem : ℕ → ℕ → ℕ) :
    Held D M { m with phys := { m.phys with mem := mem } } :=
  ⟨h.frames, h.managed, h.device, h.apart, h.enough, h.alone, h.areas, h.running, h.mirror⟩

/-- The pages of a segment are mapped to the frames of a new block. -/
theorem mapped_segment {l : Areas} {pa : ℕ} {b : Buddy} {t : Pml4Table} {s : Phys} (h : Held D M m)
    (hinside : Inside m.self) (halive : m.self.alive = true)
    (hload : loadElfSegment m.self.vmm.mmap g.ph = some l)
    (hb : m.phys.buddy.allocPages (Nat.clog 2 (segmentPages g)) = some (pa, b))
    (hs : mapPages (segmentPages g) (m.setAreas l).self.tables (pageOf g.ph.vaddr) (mapNr pa)
      { m.phys with buddy := b } = some (t, s)) (mem : ℕ → ℕ → ℕ) :
    Loading D M m ((m.setAreas l).setTables t { s with mem := mem }) := by
  have hareas : WellFormed m.self.vmm.mmap := h.areas _ h.running.1
  obtain ⟨hw, hcover, hpages⟩ := loadElfSegment_pages hareas hload
  have h₁ : Held D M (m.setAreas l) := sound_setAreas h hw
  have h₂ := sound_kernelAlloc h₁ hb
  obtain ⟨-, -, hfresh⟩ := alloc_fresh h₁.frames hb
  rw [inside_iff hareas] at hinside
  have hcount : segmentPages g ≤ 2 ^ Nat.clog 2 (segmentPages g) := Nat.le_pow_clog (by decide) _
  have hblock : ∀ k < segmentPages g, mapNr pa+k ∈ M ∧
      (m.owned (mapNr pa+k)+if mapNr pa ≤ mapNr pa+k ∧
        mapNr pa+k < mapNr pa+2 ^ Nat.clog 2 (segmentPages g) then 1 else 0) = 1 ∧
      b.ref (mapNr pa+k) = 1 := by
    intro k hk
    rw [mapNr_eq]
    have hblockIn : frameOf pa ≤ frameOf pa+k ∧
        frameOf pa+k < frameOf pa+2 ^ Nat.clog 2 (segmentPages g) := by omega
    have hM := hfresh.inside _ hblockIn.1 hblockIn.2
    have hzero := hfresh.zero _ hblockIn.1 hblockIn.2
    have howned : m.owned (frameOf pa+k) = 0 := (h₁.clean hM hzero.le).2.2
    refine ⟨hM, by rw [if_pos hblockIn, howned], ?_⟩
    rw [hfresh.ref, hzero, if_pos hblockIn]
    rfl
  have hnone : ∀ k < segmentPages g, findPte (m.setAreas l).self.tables (pageOf g.ph.vaddr+k) = none := by
    intro k hk
    rw [(self_setAreas m l).1]
    by_contra hne
    obtain ⟨pte, hpte⟩ := Option.ne_none_iff_exists'.mp hne
    obtain ⟨hlt, hvacant, -⟩ := hpages k hk
    exact hvacant (hinside _ pte hlt hpte)
  obtain ⟨owned, hheld, hcounted, howned, hnew⟩ :=
    give_pages h₂ hblock hnone (fun k hk => (hpages k hk).1) hs
  have hless : ∀ f, m.owned f ≤ owned f := by
    intro f
    rcases howned f with hf | heq
    · have hin := hblock (f-mapNr pa) (by omega)
      rw [Nat.add_sub_cancel' hf.1, if_pos (by omega)] at hin
      omega
    · rw [heq]
      exact Nat.le_add_right _ _
  have hself : ((m.setAreas l).setTables t { s with mem := mem }).self =
      { m.self with vmm := { m.self.vmm with mmap := l }, tables := t } := by
    have htables := setTables_self (m.setAreas l) t { s with mem := mem } m.owned
    rw [self_areas] at htables
    exact htables
  have hpagesIn : Inside { m.self with vmm := { m.self.vmm with mmap := l }, tables := t } := by
    have hiff := @inside_iff { m.self with vmm := { m.self.vmm with mmap := l }, tables := t } hw
    refine hiff.mpr (fun n pte hn hpte => ?_)
    rcases hnew n hn pte hpte with hold | hrange
    · change findPte (m.setAreas l).self.tables n = some pte at hold
      rw [(self_setAreas m l).1] at hold
      exact hcover _ (hinside n pte hn hold)
    · obtain ⟨-, -, hcovered⟩ := hpages (n-pageOf g.ph.vaddr) (by omega)
      rw [Nat.add_sub_cancel' hrange.2.1] at hcovered
      exact hcovered
  refine ⟨held_bytes (held_less hheld hless) mem, ?_, fun hc => ?_, fun hlit n pte hpte hD => ?_, ?_,
    ⟨rfl, rfl⟩, fun q hq => ?_⟩
  · rw [hself]
    exact hpagesIn
  · apply hcounted
    have hafter : Counted M (m.setAreas l) := counted_setSelf hc rfl
    exact counted_alloc h₁ hafter hb
  · rw [hself] at hpte
    change findPte t n = some pte at hpte
    rw [← findPte_mod] at hpte
    rcases hnew _ (Nat.mod_lt n (by decide)) pte hpte with hold | hrange
    · change findPte (m.setAreas l).self.tables _ = some pte at hold
      rw [(self_setAreas m l).1] at hold
      exact hlit _ pte hold hD
    · exact hrange.1
  · rw [hself]
    exact halive
  · simp [Machine.setTables, Machine.setAreas, Machine.setSelf, hq]

theorem loadSegment_loading (h : Held D M m) (hin : Inside m.self) (halive : m.self.alive = true)
    (hs : loadSegment m g = some (ok, m')) : Loading D M m m' := by
  simp only [loadSegment] at hs
  split at hs
  · obtain ⟨-, rfl⟩ := Prod.mk.inj (Option.some.inj hs)
    exact Loading.refl h hin halive
  next l hload =>
  split at hs
  · cases hs
  next pa b hb =>
  split at hs
  · cases hs
  next t s hmap =>
  split at hs
  · obtain ⟨-, rfl⟩ := Prod.mk.inj (Option.some.inj hs)
    exact mapped_segment h hin halive hload hb hmap _
  · obtain ⟨-, rfl⟩ := Prod.mk.inj (Option.some.inj hs)
    exact mapped_segment h hin halive hload hb hmap _

theorem loadSegments_loading {image : List Image} (h : Held D M m) (hin : Inside m.self)
    (halive : m.self.alive = true) (hs : loadSegments image m = some (ok, m')) : Loading D M m m' := by
  induction image generalizing m with
  | nil =>
    obtain ⟨-, rfl⟩ := Prod.mk.inj (Option.some.inj hs)
    exact Loading.refl h hin halive
  | cons g rest ih =>
    rw [loadSegments] at hs
    split at hs
    · cases hs
    next m₁ hone =>
      obtain ⟨-, rfl⟩ := Prod.mk.inj (Option.some.inj hs)
      exact loadSegment_loading h hin halive hone
    next m₁ hone =>
      have hfirst := loadSegment_loading h hin halive hone
      exact hfirst.trans (ih hfirst.held hfirst.inside hfirst.alive hs)

end Segments

/-! ## `exec` -/

section Exec

variable {D M : Set ℕ} {m m' : Machine} {image : List Image} {startBrk : ℕ}

/-- The areas after the segments: the stack is inserted. -/
theorem stack_inside (h : Held D M m) (hinside : Inside m.self) (v : Vmm)
    (hv : v.mmap = (insertVma m.self.vmm.mmap userStack).getD m.self.vmm.mmap) :
    WellFormed v.mmap ∧ Inside { m.self with vmm := v } := by
  have hareas : WellFormed m.self.vmm.mmap := h.areas _ h.running.1
  have hw : WellFormed v.mmap := by
    rw [hv]
    exact insertVma_getD hareas (by decide) ⟨by decide, by decide, by decide⟩
  refine ⟨hw, ?_⟩
  refine @inside_grown m.self { m.self with vmm := v } hinside hareas hw rfl (fun n pte _ _ ha => ?_)
  rw [hv]
  exact covered_insertVma_getD hareas.1.1 (by decide) ha

/-- A program starts with no pages, whatever the process had before. -/
theorem release_inside (hs : release m = some m') : Inside m'.self := by
  intro n pte _ hpte
  rw [(release_self hs).1, empty_find] at hpte
  cases hpte

/-- The ways an `exec` ends: the load fails and the process exits, or it runs. -/
theorem exec_cases (h : Held D M m) (hdevice : ∀ f ∈ D, Device f) (halive : m.self.alive = true)
    (hs : exec m image startBrk = some m') :
    ∃ m₁ m₂, release m = some m₁ ∧ Loading D M m₁ m₂ ∧
      (loadSegments image m₁ = some (false, m₂) ∧ exit m₂ = some m' ∨
        ∃ v, WellFormed v.mmap ∧ Inside { m₂.self with vmm := v } ∧
          m' = m₂.setSelf { m₂.self with vmm := v }) := by
  rw [exec] at hs
  split at hs
  · cases hs
  next m₁ hrel =>
  have h₁ := sound_release h hdevice hrel
  have halive₁ : m₁.self.alive = true := (release_self hrel).2.2.1.trans halive
  split at hs
  · cases hs
  next m₂ hload =>
    exact ⟨m₁, m₂, hrel, loadSegments_loading h₁ (release_inside hrel) halive₁ hload, Or.inl ⟨hload, hs⟩⟩
  next m₂ hload =>
    have hloaded := loadSegments_loading h₁ (release_inside hrel) halive₁ hload
    obtain ⟨hw, hin⟩ := stack_inside hloaded.held hloaded.inside
      ⟨(insertVma m₂.self.vmm.mmap userStack).getD m₂.self.vmm.mmap, startBrk, pageAlign startBrk⟩ rfl
    exact ⟨m₁, m₂, hrel, hloaded, Or.inr ⟨_, hw, hin, (Option.some.inj hs).symm⟩⟩

theorem kept_exec (h : Kept M m) (halive : m.self.alive = true)
    (hs : exec m image startBrk = some m') : Kept M m' := by
  obtain ⟨m₁, m₂, hrel, hloaded, hcase⟩ := exec_cases h.held (fun _ hf => hf.elim) halive hs
  have h₁ := kept_release h hrel
  have h₂ : Kept M m₂ :=
    ⟨hloaded.held, hloaded.counted h₁.counted, hloaded.sheltered h₁.housed, h.ram⟩
  rcases hcase with ⟨-, hexit⟩ | ⟨v, hw, hin, rfl⟩
  · exact kept_exit h₂ hexit
  · refine ⟨sound_setSelf h₂.held rfl hw, counted_setSelf h₂.counted rfl,
      sheltered_setSelf h₂.housed ⟨hin, fun hdead => ?_⟩, h.ram⟩
    change m₂.self.alive = false at hdead
    rw [hloaded.alive] at hdead
    cases hdead

end Exec

end BabyOS.ImagePages

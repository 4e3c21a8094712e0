import BabyOS.CopyOnWrite
import BabyOS.TableWords

/-!
# Mapping pages

`map_pages` against the tree that `va_to_pa` walks. Tables that are missing are taken from
the allocator, below a table that is there; a leaf goes to its place in the last table.
-/

set_option autoImplicit false

namespace BabyOS.TableMapping
open BabyOS.BuddyMachine BabyOS.BuddyArithmetic BabyOS.FrameCounts
open BabyOS.RadixTables BabyOS.StoredTables BabyOS.TableWords

/-! ## Tables in use -/

/-- The tables below `t` lie in different frames, and the allocator has none of them. -/
structure Tables {α : Type} {L : Level α Word} (M : Set ℕ) (R : Reader Word L) (t : ℕ) (s : Memory) : Prop where
  frames : Frames M s.buddy
  sole : Sole L (R.read s.words t)
  used : ∀ f, 0 < L.frames f (R.read s.words t) → f ∈ M → 0 < s.buddy.ref f

/-- The frames `new` were taken for tables below `t`. A word that changed is an entry that
is present, or a word of a new table. -/
structure Taken {α : Type} {L : Level α Word} (M : Set ℕ) (R : Reader Word L) (t : ℕ) (new : ℕ → ℕ)
    (s s' : Memory) : Prop where
  frames : Frames M s'.buddy
  ref : ∀ f, s'.buddy.ref f = s.buddy.ref f+new f
  fresh : ∀ f, 0 < new f → f ∈ M ∧ s.buddy.ref f = 0 ∧ new f = 1
  count : ∀ f, L.frames f (R.read s'.words t) = L.frames f (R.read s.words t)+new f
  words : ∀ f i, s'.words f i = (if 0 < new f then 0 else s.words f i) ∨ present (s'.words f i) = true
  kept : ∀ f, L.frames f (R.read s'.words t) = 0 → s'.words f = s.words f

/-- The leaves are the same. -/
def Alike {α : Type} {L : Level α Word} (R : Reader Word L) (t : ℕ) (s s' : Memory) : Prop :=
  ∀ n, L.find (R.read s'.words t) n = L.find (R.read s.words t) n

section Steps

variable {α : Type} {L : Level α Word} {M : Set ℕ} {R : Reader Word L} {size : ℕ} {hsize : 0 < size}
  {s s₁ s' : Memory} {t c i : ℕ} {new new' : ℕ → ℕ}

theorem Tables.fresh (h : Tables M R t s) {f : ℕ} (hf : f ∈ M) (hzero : s.buddy.ref f = 0) :
    L.frames f (R.read s.words t) = 0 := by
  by_contra hne
  have := h.used f (Nat.pos_of_ne_zero hne) hf
  omega

theorem Tables.below (h : Tables M (upTable nextOf R size hsize) t s) (hi : i < size)
    (hc : nextOf (s.words t i) = some c) : Tables M R c s := by
  refine ⟨h.frames, fun f => ?_, fun f hf => h.used f ?_⟩
  · have hle := @frames_below _ _ _ _ nextOf R size hsize s.words t f i c hi hc
    have hone := h.sole f
    omega
  · have hle := @frames_below _ _ _ _ nextOf R size hsize s.words t f i c hi hc
    omega

theorem Taken.tables (h : Taken M R t new s s') (ht : Tables M R t s) : Tables M R t s' := by
  refine ⟨h.frames, fun f => ?_, fun f hf hM => ?_⟩
  · rw [h.count]
    by_cases hnew : 0 < new f
    · obtain ⟨hM, hzero, hone⟩ := h.fresh f hnew
      rw [ht.fresh hM hzero]
      omega
    · have := ht.sole f
      omega
  · rw [h.count] at hf
    rw [h.ref]
    have hnonneg := ht.frames.nonneg hM
    by_cases hold : 0 < L.frames f (R.read s.words t)
    · have := ht.used f hold hM
      omega
    · omega

theorem Taken.refl (h : Tables M R t s) : Taken M R t (fun _ => 0) s s :=
  ⟨h.frames, by simp, fun _ hf => absurd hf (Nat.lt_irrefl 0), fun _ => rfl, fun _ _ => Or.inl rfl,
    fun _ _ => rfl⟩

/-- What was taken below a child was taken below its parent, whose own words stay. -/
theorem Taken.up (ht : Tables M (upTable nextOf R size hsize) t s) (hi : i < size)
    (hc : nextOf (s.words t i) = some c) (h : Taken M R c new s s') (halike : Alike R c s s') :
    s'.words t = s.words t ∧ Taken M (upTable nextOf R size hsize) t new s s' ∧
      Alike (upTable nextOf R size hsize) t s s' := by
  have hchanged : ∀ f, s'.words f ≠ s.words f → 0 < L.frames f (R.read s.words c) ∨
      (L.up size hsize).frames f ((upTable nextOf R size hsize).read s.words t) = 0 := by
    intro f hf
    by_cases hnew : 0 < new f
    · obtain ⟨hM, hzero, -⟩ := h.fresh f hnew
      exact Or.inr (ht.fresh hM hzero)
    · have hne : L.frames f (R.read s'.words c) ≠ 0 := fun hc => hf (h.kept f hc)
      rw [h.count] at hne
      exact Or.inl (by omega)
  obtain ⟨hroot, hread⟩ := read_below ht.sole hi hc hchanged
  have hentry : ((upTable nextOf R size hsize).read s.words t).entry i = some (R.read s.words c) := by
    rw [entry_read hi, hc]
    rfl
  have hgrows : Grows (L.up size hsize) new ((upTable nextOf R size hsize).read s.words t)
      ((upTable nextOf R size hsize).read s'.words t) := by
    rw [hread]
    exact (Grows.mk halike h.count).up hi hentry
  refine ⟨hroot, ⟨h.frames, h.ref, h.fresh, hgrows.frames, h.words, fun f hf => h.kept f ?_⟩, hgrows.find⟩
  have hc' : nextOf (s'.words t i) = some c := by rw [hroot, hc]
  have hle := @frames_below _ _ _ _ nextOf R size hsize s'.words t f i c hi hc'
  omega

theorem Taken.trans (h : Taken M R t new s s₁) (h' : Taken M R t new' s₁ s') (ht : Tables M R t s) :
    Taken M R t (fun f => new f+new' f) s s' := by
  have hdisj : ∀ f, 0 < new' f → f ∈ M ∧ s.buddy.ref f = 0 ∧ new f = 0 ∧ new' f = 1 := by
    intro f hf
    obtain ⟨hM, hzero, hone⟩ := h'.fresh f hf
    have hnonneg := ht.frames.nonneg hM
    have href := h.ref f
    exact ⟨hM, by omega, by omega, hone⟩
  refine ⟨h'.frames, fun f => ?_, fun f hf => ?_, fun f => ?_, fun f i => ?_, fun f hf => ?_⟩
  · rw [h'.ref, h.ref]
    push_cast
    ring
  · by_cases hnew : 0 < new' f
    · obtain ⟨hM, hzero, hold, hone⟩ := hdisj f hnew
      exact ⟨hM, hzero, by omega⟩
    · obtain ⟨hM, hzero, hone⟩ := h.fresh f (by omega)
      exact ⟨hM, hzero, by omega⟩
  · rw [h'.count, h.count, Nat.add_assoc]
  · by_cases hnew : 0 < new' f
    · rw [if_pos (by omega)]
      have hword := h'.words f i
      rwa [if_pos hnew] at hword
    · have hword := h'.words f i
      rw [if_neg hnew] at hword
      rcases hword with hsame | hpresent
      · rw [hsame]
        have hword := h.words f i
        rwa [Nat.eq_zero_of_not_pos hnew, Nat.add_zero]
      · exact Or.inr hpresent
  · have hframes := h'.count f
    rw [h'.kept f hf, h.kept f (by omega)]

/-- The table below an entry, a new one if the entry led nowhere. -/
theorem getTable_spec (hblank : ∀ (m : Words Word) g, m g = (fun _ => 0) → L.Blank g (R.read m g))
    (ht : Tables M (upTable nextOf R size hsize) t s) (hi : i < size) (h : getTable t i s = some (c, s')) :
    ∃ new, Taken M (upTable nextOf R size hsize) t new s s' ∧ Alike (upTable nextOf R size hsize) t s s' ∧
      nextOf (s'.words t i) = some c := by
  rw [getTable] at h
  split at h
  next hpresent =>
    obtain ⟨rfl, rfl⟩ := Prod.mk.inj (Option.some.inj h)
    exact ⟨fun _ => 0, Taken.refl ht, fun _ => rfl, nextOf_present hpresent⟩
  next habsent =>
    split at h
    · cases h
    next pa b halloc =>
    obtain ⟨rfl, rfl⟩ := Prod.mk.inj (Option.some.inj h)
    obtain ⟨hframes, hpa, hM, hzero, href⟩ := alloc_one ht.frames halloc
    rw [mapNr_eq]
    have hfresh := ht.fresh hM hzero
    have hne : t ≠ frameOf pa := by
      rintro rfl
      have := (upTable nextOf R size hsize).root s.words (frameOf pa)
      omega
    have hnone : nextOf (s.words t i) = none := nextOf_absent (by simpa using habsent)
    have hbound : frameOf pa < 2 ^ 52 := by
      obtain ⟨G, hR, -⟩ := ht.frames
      exact hR.bounded _ hM
    set g := frameOf pa with hg
    set w : Word := BitVec.ofNat 64 pa ||| pteP ||| pteW ||| pteU with hw
    have hpresent : present w = true := by
      rw [hw, BitVec.or_assoc]
      exact or_present _ _
    have hnext : nextOf w = some g := by
      have hflags : w = BitVec.ofNat 64 (frameAddr g) ||| (pteP ||| pteW ||| pteU) := by
        rw [hw, ← hpa, BitVec.or_assoc, BitVec.or_assoc, BitVec.or_assoc]
      rw [nextOf_present hpresent, hflags, tableOf_frameAddr hbound (by decide)]
    set m : Words Word := Function.update (Function.update s.words g fun _ => 0) t
      (Function.update (Function.update s.words g (fun _ => 0) t) i w) with hm
    have hroot : m t = Function.update (s.words t) i w := by
      rw [hm, Function.update_self, Function.update_of_ne hne]
    have hnew : m g = fun _ => 0 := by
      rw [hm, Function.update_of_ne hne.symm, Function.update_self]
    have hother : ∀ f, f ≠ t → f ≠ g → m f = s.words f := by
      intro f hft hfg
      rw [hm, Function.update_of_ne hft, Function.update_of_ne hfg]
    have hread : (upTable nextOf R size hsize).read m t =
        ((upTable nextOf R size hsize).read s.words t).set i (R.read m g) :=
      read_link hi hnext hfresh ht.sole hroot hother
    have hentry : ((upTable nextOf R size hsize).read s.words t).entry i = none := by
      rw [entry_read hi, hnone]
      rfl
    have hgrows : Grows (L.up size hsize) (fun f => if g = f then 1 else 0)
        ((upTable nextOf R size hsize).read s.words t) ((upTable nextOf R size hsize).read m t) := by
      rw [hread]
      exact grows_blank hi hentry (hblank m g hnew)
    refine ⟨fun f => if g = f then 1 else 0, ⟨hframes, fun f => ?_, fun f hf => ?_, hgrows.frames, fun f j => ?_,
      fun f hf => ?_⟩, hgrows.find, ?_⟩
    · change b.ref f = _
      rw [href f]
      simp only [eq_comm (a := f)]
      split <;> simp
    · have hgf : g = f := by
        by_contra hc
        rw [if_neg hc] at hf
        exact Nat.lt_irrefl 0 hf
      subst hgf
      exact ⟨hM, hzero, if_pos rfl⟩
    · change m f j = _ ∨ present (m f j) = true
      by_cases hft : f = t
      · subst hft
        rw [if_neg (by rw [if_neg hne.symm]; exact Nat.lt_irrefl 0), hroot]
        by_cases hji : j = i
        · subst hji
          rw [Function.update_self]
          exact Or.inr hpresent
        · rw [Function.update_of_ne hji]
          exact Or.inl rfl
      · by_cases hfg : g = f
        · subst hfg
          rw [if_pos (by rw [if_pos rfl]; exact Nat.one_pos), hnew]
          exact Or.inl rfl
        · rw [if_neg (by rw [if_neg hfg]; exact Nat.lt_irrefl 0), hother f hft (Ne.symm hfg)]
          exact Or.inl rfl
    · have hft : f ≠ t := by
        rintro rfl
        have := (upTable nextOf R size hsize).root m f
        exact absurd hf (Nat.ne_of_gt this)
      have hfg : f ≠ g := by
        intro hc
        have hone := hgrows.frames f
        rw [if_pos hc.symm] at hone
        change (L.up size hsize).frames f ((upTable nextOf R size hsize).read m t) = 0 at hf
        omega
      exact hother f hft hfg
    · change nextOf (m t i) = some g
      rw [hroot, Function.update_self]
      exact hnext

end Steps

/-! ## One page -/

/-- The tables that the indices of an address lead to. -/
structure Path (s : Memory) (root va pdp pd pt : ℕ) : Prop where
  pml4 : nextOf (s.words root (pml4eIndex va)) = some pdp
  pdp : nextOf (s.words pdp (pdpeIndex va)) = some pd
  pd : nextOf (s.words pd (pdeIndex va)) = some pt

section Pages

variable {M : Set ℕ} {s s₁ s₂ s' : Memory} {root va v pdp pd pt : ℕ} {new new' : ℕ → ℕ} {w : Word}

theorem present_zero : present 0 = false := by decide

theorem page_blank (m : Words Word) (g : ℕ) (hg : m g = fun _ => 0) :
    pageLevel.Blank g (pageReader.read m g) := by
  apply last_blank
  intro i _
  rw [hg]
  exact if_neg (by rw [present_zero]; exact Bool.false_ne_true)

theorem pd_blank (m : Words Word) (g : ℕ) (hg : m g = fun _ => 0) : pdLevel.Blank g (pdReader.read m g) := by
  apply read_blank
  intro i _
  rw [hg]
  exact nextOf_absent present_zero

theorem pdp_blank (m : Words Word) (g : ℕ) (hg : m g = fun _ => 0) :
    pdpLevel.Blank g (pdpReader.read m g) := by
  apply read_blank
  intro i _
  rw [hg]
  exact nextOf_absent present_zero

theorem pml4e_lt (hva : va < userVmSize) : pml4eIndex va < 256 := by
  rw [pml4eIndex_eq]
  rw [userVmSize] at hva
  omega

theorem pdpe_lt (va : ℕ) : pdpeIndex va < 512 := by
  rw [pdpeIndex_eq]
  exact Nat.mod_lt _ (by decide)

theorem pde_lt (va : ℕ) : pdeIndex va < 512 := by
  rw [pdeIndex_eq]
  exact Nat.mod_lt _ (by decide)

theorem pte_lt (va : ℕ) : pteIndex va < 512 := by
  rw [pteIndex_eq]
  exact Nat.mod_lt _ (by decide)

theorem Path.below (h : Path s root va pdp pd pt) (ht : Tables M pml4Reader root s) (hva : va < userVmSize) :
    Tables M pdpReader pdp s ∧ Tables M pdReader pd s ∧ Tables M pageReader pt s := by
  have hpdp : Tables M pdpReader pdp s := ht.below (pml4e_lt hva) h.pml4
  have hpd : Tables M pdReader pd s := hpdp.below (pdpe_lt va) h.pdp
  exact ⟨hpdp, hpd, hpd.below (pde_lt va) h.pd⟩

/-- The page table lies in each tree above it. -/
theorem Path.lies (h : Path s root va pdp pd pt) (hva : va < userVmSize) :
    0 < pdLevel.frames pt (pdReader.read s.words pd) ∧ 0 < pdpLevel.frames pt (pdpReader.read s.words pdp) ∧
      0 < pml4Level.frames pt (tree s root) := by
  have hpd : 0 < pdLevel.frames pt (pdReader.read s.words pd) :=
    Nat.lt_of_lt_of_le (Nat.add_pos_right _ (pageReader.root s.words pt)) (frames_below (pde_lt va) h.pd)
  have hpdp : 0 < pdpLevel.frames pt (pdpReader.read s.words pdp) :=
    Nat.lt_of_lt_of_le (Nat.add_pos_right _ hpd) (frames_below (pdpe_lt va) h.pdp)
  exact ⟨hpd, hpdp, Nat.lt_of_lt_of_le (Nat.add_pos_right _ hpdp) (frames_below (pml4e_lt hva) h.pml4)⟩

/-- The three tables of an address, of which some may be new. -/
theorem walk_spec (ht : Tables M pml4Reader root s) (hv : v < userVmSize)
    (h₁ : getPdpTable root v s = some (pdp, s₁)) (h₂ : getPdTable pdp v s₁ = some (pd, s₂))
    (h₃ : getPageTable pd v s₂ = some (pt, s')) :
    ∃ new, Taken M pml4Reader root new s s' ∧ Alike pml4Reader root s s' ∧ Path s' root v pdp pd pt := by
  obtain ⟨n₁, ht₁, ha₁, hpdp₁⟩ := getTable_spec pdp_blank ht (pml4e_lt hv) h₁
  have hroot₁ := ht₁.tables ht
  have hbelow₁ : Tables M pdpReader pdp s₁ := hroot₁.below (pml4e_lt hv) hpdp₁
  obtain ⟨n₂, ht₂, ha₂, hpd₂⟩ := getTable_spec pd_blank hbelow₁ (pdpe_lt v) h₂
  have hbelow₂ : Tables M pdpReader pdp s₂ := ht₂.tables hbelow₁
  have hpdt₂ : Tables M pdReader pd s₂ := hbelow₂.below (pdpe_lt v) hpd₂
  obtain ⟨n₃, ht₃, ha₃, hpt₃⟩ := getTable_spec page_blank hpdt₂ (pde_lt v) h₃
  -- each step, seen from the root
  obtain ⟨hsame₂, hup₂, hua₂⟩ := ht₂.up hroot₁ (pml4e_lt hv) hpdp₁ ha₂
  have hroot₂ := hup₂.tables hroot₁
  have hpdp₂ : nextOf (s₂.words root (pml4eIndex v)) = some pdp := by rw [hsame₂, hpdp₁]
  obtain ⟨hpdsame, hpdup, hpda⟩ := ht₃.up hbelow₂ (pdpe_lt v) hpd₂ ha₃
  obtain ⟨hsame₃, hup₃, hua₃⟩ := hpdup.up hroot₂ (pml4e_lt hv) hpdp₂ hpda
  refine ⟨_, (ht₁.trans hup₂ ht).trans hup₃ ht, fun n => ?_, ⟨?_, ?_, hpt₃⟩⟩
  · exact (hua₃ n).trans ((hua₂ n).trans (ha₁ n))
  · rw [hsame₃, hpdp₂]
  · rw [hpdsame, hpd₂]

/-- The words of the page table of a path are changed in one place. -/
theorem store_spec (ht : Tables M pml4Reader root s) (hpath : Path s root v pdp pd pt) (hv : v < userVmSize)
    (hw : present w = true) :
    pml4Level.Placed (v / 4096) w (fun _ => 0) (tree s root) (tree (s.setWord pt (pteIndex v) w) root) ∧
      Path (s.setWord pt (pteIndex v) w) root v pdp pd pt := by
  obtain ⟨hpdp, hpd, hpt⟩ := hpath.below ht hv
  have hself : (s.setWord pt (pteIndex v) w).words pt = Function.update (s.words pt) (pteIndex v) w :=
    Function.update_self ..
  have hother : ∀ f, f ≠ pt → (s.setWord pt (pteIndex v) w).words f = s.words f :=
    fun f hf => Function.update_of_ne hf _ _
  have hchanged : ∀ {f}, (s.setWord pt (pteIndex v) w).words f ≠ s.words f → f = pt :=
    fun hf => by_contra fun hc => hf (hother _ hc)
  have hleaf : pageLevel.Placed (v / 4096) w (fun _ => 0) (pageReader.read s.words pt)
      (pageReader.read (s.setWord pt (pteIndex v) w).words pt) := by
    have hread : pageReader.read (s.setWord pt (pteIndex v) w).words pt =
        (pageReader.read s.words pt).set (pteIndex v) w :=
      read_store (pte_lt v) (if_pos hw) hself
    rw [hread, ← page_index]
    exact Level.placed_entry _ _ _
  have hpd' : nextOf (s.words pd (pageLevel.index 512 (v / 4096))) = some pt := by
    rw [pd_index, hpath.pd]
  have hpdp' : nextOf (s.words pdp (pdLevel.index 512 (v / 4096))) = some pd := by
    rw [pdp_index, hpath.pdp]
  have hpml4' : nextOf (s.words root (pdpLevel.index 256 (v / 4096))) = some pdp := by
    rw [pml4_index hv, hpath.pml4]
  obtain ⟨hinpd, hinpdp, -⟩ := hpath.lies hv
  obtain ⟨hsamepd, hplacedpd⟩ := placed_below hpd.sole hpd'
    (fun f hf => by rw [hchanged hf]; exact pageReader.root s.words pt) hleaf
  obtain ⟨hsamepdp, hplacedpdp⟩ := placed_below hpdp.sole hpdp' (fun f hf => by rw [hchanged hf]; exact hinpd)
    hplacedpd
  obtain ⟨hsame, hplaced⟩ := placed_below ht.sole hpml4' (fun f hf => by rw [hchanged hf]; exact hinpdp) hplacedpdp
  refine ⟨hplaced, ?_, ?_, ?_⟩
  · rw [hsame, hpath.pml4]
  · rw [hsamepdp, hpath.pdp]
  · rw [hsamepd, hpath.pd]

theorem placed_tables (ht : Tables M pml4Reader root s) (hpath : Path s root v pdp pd pt) (hv : v < userVmSize)
    (hw : present w = true) : Taken M pml4Reader root (fun _ => 0) s (s.setWord pt (pteIndex v) w) := by
  obtain ⟨hplaced, -⟩ := store_spec ht hpath hv hw
  refine ⟨ht.frames, by simp [Memory.setWord], fun _ hf => absurd hf (Nat.lt_irrefl 0), hplaced.frames,
    fun f i => ?_, fun f hf => Function.update_of_ne ?_ _ _⟩
  · rw [if_neg (Nat.lt_irrefl 0)]
    by_cases hplace : f = pt ∧ i = pteIndex v
    · obtain ⟨rfl, rfl⟩ := hplace
      right
      rw [Memory.setWord]
      dsimp only
      rw [Function.update_self, Function.update_self]
      exact hw
    · left
      rw [Memory.setWord]
      dsimp only
      by_cases hf : f = pt
      · subst hf
        rw [Function.update_self, Function.update_of_ne (fun hc => hplace ⟨rfl, hc⟩)]
      · rw [Function.update_of_ne hf]
  · rintro rfl
    have hcount := hplaced.frames f
    have hlies := (hpath.lies hv).2.2
    change pml4Level.frames f (tree (s.setWord f (pteIndex v) w) root) = 0 at hf
    omega

end Pages

/-! ## The loops -/

/-- The pages from `lo` to `hi` have the leaves `leaf`, and the others what they had. -/
structure Mapped (M : Set ℕ) (root : ℕ) (leaf : ℕ → Word) (lo hi : ℕ) (new : ℕ → ℕ) (s s' : Memory) : Prop where
  taken : Taken M pml4Reader root new s s'
  find : ∀ n < 2 ^ 35, pml4Level.find (tree s' root) n =
    if lo ≤ n ∧ n < hi then some (leaf n) else pml4Level.find (tree s root) n

section Loops

variable {M : Set ℕ} {s s₁ s' : Memory} {root e v pdp pd pt lo mid hi : ℕ} {new new' : ℕ → ℕ} {leaf : ℕ → Word}

theorem Mapped.trans (h : Mapped M root leaf lo mid new s s₁) (h' : Mapped M root leaf mid hi new' s₁ s')
    (ht : Tables M pml4Reader root s) (hlo : lo ≤ mid) (hhi : mid ≤ hi) :
    Mapped M root leaf lo hi (fun f => new f+new' f) s s' := by
  refine ⟨h.taken.trans h'.taken ht, fun n hn => ?_⟩
  rw [h'.find n hn, h.find n hn]
  by_cases hlow : n < mid
  · rw [if_neg (by omega)]
    exact if_congr (by omega) rfl rfl
  · have hnot : ¬ (lo ≤ n ∧ n < mid) := fun hc => hlow hc.2
    simp only [if_neg hnot]
    exact if_congr (by omega) rfl rfl

theorem mapped_walk (ht : Taken M pml4Reader root new s s') (h : Alike pml4Reader root s s') (leaf : ℕ → Word)
    (n : ℕ) : Mapped M root leaf n n new s s' :=
  ⟨ht, fun m _ => by rw [if_neg (by omega)]; exact h m⟩

theorem mapped_store (ht : Tables M pml4Reader root s) (hpath : Path s root v pdp pd pt) (hv : v < userVmSize)
    (hw : present (leaf (v / 4096)) = true) :
    Mapped M root leaf (v / 4096) (v / 4096+1) (fun _ => 0) s
      (s.setWord pt (pteIndex v) (leaf (v / 4096))) := by
  refine ⟨placed_tables ht hpath hv hw, fun n hn => ?_⟩
  have hspan : pml4Level.span = 2 ^ 35 := rfl
  have hpage : v / 4096 < 2 ^ 35 := by
    rw [userVmSize] at hv
    omega
  rw [(store_spec ht hpath hv hw).1.find, hspan, Nat.mod_eq_of_lt hn, Nat.mod_eq_of_lt hpage]
  by_cases hnv : n = v / 4096
  · rw [if_pos hnv, if_pos (by omega), hnv]
  · rw [if_neg hnv, if_neg (by omega)]

/-- The leaf of a page when `va` is mapped to `pa`. -/
def leafWord (va : ℕ) (pa perm : Word) (n : ℕ) : Word :=
  (pa+BitVec.ofNat 64 (n*4096-va)) ||| pteP ||| perm

/-- The next page is in the same page table, unless it is the first one of a table. -/
theorem Path.next (h : Path s root v pdp pd pt) (hlast : pteIndex v+1 < 512) (hv : 4096 ∣ v) :
    pteIndex (v+4096) = pteIndex v+1 ∧ Path s root (v+4096) pdp pd pt := by
  obtain ⟨n, rfl⟩ := hv
  rw [pteIndex_eq] at hlast
  have hpte : pteIndex (4096*n+4096) = pteIndex (4096*n)+1 := by
    rw [pteIndex_eq, pteIndex_eq]
    omega
  have hpde : pdeIndex (4096*n+4096) = pdeIndex (4096*n) := by
    rw [pdeIndex_eq, pdeIndex_eq]
    omega
  have hpdpe : pdpeIndex (4096*n+4096) = pdpeIndex (4096*n) := by
    rw [pdpeIndex_eq, pdpeIndex_eq]
    omega
  have hpml4e : pml4eIndex (4096*n+4096) = pml4eIndex (4096*n) := by
    rw [pml4eIndex_eq, pml4eIndex_eq]
    omega
  refine ⟨hpte, ?_, ?_, ?_⟩
  · rw [hpml4e, h.pml4]
  · rw [hpdpe, h.pdp]
  · rw [hpde, h.pd]

/-- How far a loop has come. -/
structure Progress (M : Set ℕ) (root va e : ℕ) (pa perm : Word) (v : ℕ) (s : Memory) (v' : ℕ) (pa' : Word)
    (new : ℕ → ℕ) (s' : Memory) : Prop where
  le : v ≤ v'
  inside : v' ≤ e
  aligned : 4096 ∣ v'
  address : pa' = pa+BitVec.ofNat 64 (v'-va)
  mapped : Mapped M root (leafWord va pa perm) (v / 4096) (v' / 4096) new s s'

theorem fillTable_spec {va : ℕ} {pa perm : Word} {count i : ℕ} (ht : Tables M pml4Reader root s)
    (hplace : 0 < count → i = pteIndex v ∧ Path s root v pdp pd pt) (hcount : i+count = 512)
    (hv : 4096 ∣ v) (he : 4096 ∣ e) (hve : v ≤ e) (hva : va ≤ v) (hend : e ≤ userVmSize) :
    let r := fillTable pt e perm count i v (pa+BitVec.ofNat 64 (v-va)) s
    Progress M root va e pa perm v s r.1 r.2.1 (fun _ => 0) r.2.2 ∧ (0 < count → v < e → v < r.1) := by
  induction count generalizing i v s with
  | zero =>
    exact ⟨⟨le_rfl, hve, hv, rfl, mapped_walk (Taken.refl ht) (fun _ => rfl) _ _⟩, fun hc => absurd hc (Nat.lt_irrefl 0)⟩
  | succ count ih =>
    rw [fillTable]
    split
    next hdone =>
      exact ⟨⟨le_rfl, hve, hv, rfl, mapped_walk (Taken.refl ht) (fun _ => rfl) _ _⟩,
        fun _ hlt => absurd hlt (Nat.not_lt_of_le hdone)⟩
    next hmore =>
      obtain ⟨rfl, hpath⟩ := hplace (Nat.succ_pos count)
      have hlt : v < userVmSize := by omega
      have hnext : (v+pageSize) % 2 ^ 64 = v+4096 := by
        rw [userVmSize] at hlt
        rw [pageSize]
        omega
      have hword : (pa+BitVec.ofNat 64 (v-va)) ||| pteP ||| perm = leafWord va pa perm (v / 4096) := by
        rw [leafWord, Nat.div_mul_cancel hv]
      have hpresent : present (leafWord va pa perm (v / 4096)) = true := or_present _ _
      have hpa : pa+BitVec.ofNat 64 (v-va)+BitVec.ofNat 64 pageSize = pa+BitVec.ofNat 64 (v+4096-va) := by
        have hsum : v+4096-va = v-va+pageSize := by
          rw [pageSize]
          omega
        rw [hsum, BitVec.ofNat_add, BitVec.add_assoc]
      have hstore := mapped_store ht hpath hlt hpresent
      have htables := hstore.taken.tables ht
      have hpath' := (store_spec ht hpath hlt hpresent).2
      have hpage : (v+4096) / 4096 = v / 4096+1 := Nat.add_div_right v (by decide)
      rw [hword, hnext, hpa]
      have hrest := ih htables (i := pteIndex v+1) (v := v+4096)
        (fun hc => by
          obtain ⟨hidx, hnext⟩ := hpath'.next (by omega) hv
          exact ⟨hidx.symm, hnext⟩)
        (by omega) (Dvd.dvd.add hv (dvd_refl _)) (by omega) (by omega)
      obtain ⟨⟨hle, hinside, haligned, haddress, hmapped⟩, -⟩ := hrest
      refine ⟨⟨by omega, hinside, haligned, haddress, ?_⟩, fun _ _ => by omega⟩
      rw [hpage] at hmapped
      exact hstore.trans hmapped ht (by omega) (by
        rw [← hpage]
        exact Nat.div_le_div_right hle)

theorem mapFrom_spec {va rounds : ℕ} {pa perm : Word} (ht : Tables M pml4Reader root s) (hv : 4096 ∣ v)
    (he : 4096 ∣ e) (hve : v ≤ e) (hva : va ≤ v) (hend : e ≤ userVmSize) (hrounds : e ≤ v+rounds*4096) :
    let r := mapFrom root e perm rounds v (pa+BitVec.ofNat 64 (v-va)) s
    r = .failed ∨ ∃ s' new, r = .done s' ∧ Mapped M root (leafWord va pa perm) (v / 4096) (e / 4096) new s s' := by
  induction rounds generalizing v s with
  | zero =>
    have heq : v = e := by omega
    subst heq
    rw [mapFrom, if_neg (Nat.lt_irrefl v)]
    exact Or.inr ⟨s, _, rfl, mapped_walk (Taken.refl ht) (fun _ => rfl) _ _⟩
  | succ rounds ih =>
    rw [mapFrom]
    split
    next hlt =>
      cases h₁ : getPdpTable root v s with
      | none => exact Or.inl rfl
      | some r₁ =>
        obtain ⟨pdp, s₁⟩ := r₁
        dsimp only
        cases h₂ : getPdTable pdp v s₁ with
        | none => exact Or.inl rfl
        | some r₂ =>
          obtain ⟨pd, s₂⟩ := r₂
          dsimp only
          cases h₃ : getPageTable pd v s₂ with
          | none => exact Or.inl rfl
          | some r₃ =>
            obtain ⟨pt, s₃⟩ := r₃
            dsimp only
            obtain ⟨new, htaken, halike, hpath⟩ := walk_spec ht (by omega) h₁ h₂ h₃
            have htables := htaken.tables ht
            have hpos : pteIndex v < 512 := pte_lt v
            have hcount : pteIndex v+(512-pteIndex v) = 512 := by omega
            obtain ⟨hprogress, hmore⟩ :=
              @fillTable_spec _ _ _ _ _ _ _ _ _ pa perm _ _ htables (fun _ => ⟨rfl, hpath⟩) hcount hv he hve hva hend
            obtain ⟨hle, hinside, haligned, haddress, hmapped⟩ := hprogress
            have hnew := hmore (by omega) hlt
            generalize fillTable pt e perm (512-pteIndex v) (pteIndex v) v (pa+BitVec.ofNat 64 (v-va)) s₃ = r
              at hle hinside haligned haddress hmapped hnew ⊢
            obtain ⟨v', pa', s₄⟩ := r
            dsimp only at hle hinside haligned haddress hmapped hnew ⊢
            have hstep := (mapped_walk htaken halike (leafWord va pa perm) (v / 4096)).trans hmapped ht le_rfl
              (Nat.div_le_div_right hle)
            rw [haddress]
            rcases ih (hstep.taken.tables ht) haligned hinside (by omega) (by omega) with hfailed | hdone
            · exact Or.inl hfailed
            · obtain ⟨s', new', hdone, hrest⟩ := hdone
              exact Or.inr ⟨s', _, hdone, hstep.trans hrest ht (Nat.div_le_div_right hle) (Nat.div_le_div_right hinside)⟩
    next hdone =>
      have heq : v = e := by omega
      subst heq
      exact Or.inr ⟨s, _, rfl, mapped_walk (Taken.refl ht) (fun _ => rfl) _ _⟩

theorem masked_flags {x flags : Word} (hx : 4096 ∣ x.toNat) (h : flags.toNat < 4096) :
    (x ||| flags) &&& addrMask = x := by
  apply BitVec.eq_of_toNat_eq
  rw [masked_toNat, or_div h, Nat.div_mul_cancel hx]

/-- The leaf of an address leads to its place in the physical range. -/
theorem leafWord_address {va i : ℕ} {pa perm : Word} (hva : 4096 ∣ va) (hpa : 4096 ∣ pa.toNat)
    (hperm : perm.toNat < 4096) : (leafWord va pa perm ((va+i) / 4096) &&& addrMask)+
      BitVec.ofNat 64 ((va+i) % 4096) = pa+BitVec.ofNat 64 i := by
  obtain ⟨n, rfl⟩ := hva
  have hpage : (4096*n+i) / 4096*4096-4096*n = i / 4096*4096 := by omega
  have hoffset : (4096*n+i) % 4096 = i % 4096 := by omega
  have haligned : 4096 ∣ (pa+BitVec.ofNat 64 (i / 4096*4096)).toNat := by
    rw [BitVec.toNat_add, BitVec.toNat_ofNat]
    omega
  have hflags : (pteP ||| perm).toNat < 4096 := by
    rw [BitVec.toNat_or]
    exact Nat.or_lt_two_pow (n := 12) (by decide) hperm
  rw [leafWord, hpage, hoffset, BitVec.or_assoc, masked_flags haligned hflags, BitVec.add_assoc,
    ← BitVec.ofNat_add]
  congr 2
  omega

/-- `map_pages` ends within a round for each page. Then `va_to_pa` gives the new addresses in
the range and the old ones outside; new tables were free, and are zero but for entries. -/
theorem mapPages_spec {va size rounds : ℕ} {pa perm : Word} (ht : Tables M pml4Reader root s)
    (hva : 4096 ∣ va) (hpa : 4096 ∣ pa.toNat) (hsize : 4096 ∣ size) (hend : va+size ≤ userVmSize)
    (hperm : perm.toNat < 4096) (hrounds : size ≤ rounds*4096) :
    mapPages rounds root va pa size perm s = .failed ∨
      ∃ s' new, mapPages rounds root va pa size perm s = .done s' ∧
        (∀ i < size, vaToPa s' root (va+i) = pa+BitVec.ofNat 64 i) ∧
        (∀ u < userVmSize, u < va ∨ va+size ≤ u → vaToPa s' root u = vaToPa s root u) ∧
        Tables M pml4Reader root s' ∧ Taken M pml4Reader root new s s' := by
  have hlimit : userVmSize = 2 ^ 47 := rfl
  have he : (va+size) % 2 ^ 64 &&& addrMask.toNat = va+size := by
    rw [Nat.mod_eq_of_lt (by omega), land_addrMask (by omega), Nat.div_mul_cancel (Dvd.dvd.add hva hsize)]
  have hv : va &&& addrMask.toNat = va := by
    rw [land_addrMask (by omega), Nat.div_mul_cancel hva]
  have hmask : pa &&& addrMask = pa := by
    apply BitVec.eq_of_toNat_eq
    rw [masked_toNat, Nat.div_mul_cancel hpa]
  have hstart : pa = pa+BitVec.ofNat 64 (va-va) := by rw [Nat.sub_self, BitVec.add_zero]
  rw [mapPages, he, hv, hmask]
  have hspec := @mapFrom_spec M s root (va+size) va va rounds pa perm ht hva (Dvd.dvd.add hva hsize) (by omega)
    le_rfl hend (by omega)
  rw [← hstart] at hspec
  refine hspec.imp_right ?_
  rintro ⟨s', new, hdone, hmapped⟩
  refine ⟨s', new, hdone, fun i hi => ?_, fun u hu hout => ?_, hmapped.taken.tables ht, hmapped.taken⟩
  · rw [vaToPa_eq s' root (by omega), hmapped.find _ (by omega), if_pos (by omega)]
    exact leafWord_address hva hpa hperm
  · rw [vaToPa_eq s' root hu, vaToPa_eq s root hu, hmapped.find _ (by omega), if_neg (by omega)]

end Loops

/-! ## Two pages on both sides of a table -/

def empty : Memory := ⟨CopyOnWrite.origin.phys.buddy, fun _ _ => 0⟩

theorem blank_tables {M : Set ℕ} {b : Buddy} {root : ℕ} (hb : Frames M b) (hroot : 0 < b.ref root) :
    Tables M pml4Reader root ⟨b, fun _ _ => 0⟩ := by
  have hblank : pml4Level.Blank root (pml4Reader.read (fun _ _ => 0) root) :=
    read_blank (fun i _ => nextOf_absent present_zero)
  refine ⟨hb, fun f => ?_, fun f hf _ => ?_⟩
  · rw [hblank.2.2]
    split <;> omega
  · rw [hblank.2.2] at hf
    split at hf
    next h => exact h ▸ hroot
    next => omega

theorem empty_tables : Tables {f | BuddyBoot.Managed BuddyRun.small f} pml4Reader 2047 empty := by
  obtain ⟨hframes, -, href⟩ := CopyOnWrite.origin_frames
  exact blank_tables hframes (href ▸ Int.one_pos)

theorem mapPages_two : ∃ s', mapPages 2 2047 0x1ff000 0xfe000000 0x2000 6 empty = .done s' ∧
    vaToPa s' 2047 0x200abc = 0xfe001abc ∧ vaToPa s' 2047 0x201000 = vaToPa empty 2047 0x201000 := by
  have hdone : (match mapPages 2 2047 0x1ff000 0xfe000000 0x2000 6 empty with
      | .done _ => true
      | _ => false) = true := by decide +kernel
  rcases @mapPages_spec _ empty 2047 0x1ff000 0x2000 2 0xfe000000 6 empty_tables (by decide) (by decide)
    (by decide) (by decide) (by decide) (by decide) with hfailed | ⟨s', new, hs', hin, hout, -⟩
  · rw [hfailed] at hdone
    cases hdone
  · exact ⟨s', hs', hin 0x1abc (by decide), hout 0x201000 (by decide) (Or.inr (by decide))⟩

end BabyOS.TableMapping

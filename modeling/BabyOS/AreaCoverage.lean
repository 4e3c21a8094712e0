import BabyOS.AreaRun
import BabyOS.ProcessMachine

/-!
# What the areas cover

An operation on the list keeps every address that is in an area in an area,
apart from the addresses that `do_munmap` takes out.
-/

set_option autoImplicit false

namespace BabyOS.AreaCoverage
open BabyOS.BuddyMachine BabyOS.OrderedRanges BabyOS.AreaMachine BabyOS.AreaInvariant
open BabyOS.AreaOperations BabyOS.AreaRun BabyOS.ProcessMachine

/-- An address that lies in an area of the list. -/
def InAreas (l : Areas) (a : ℕ) : Prop := ∃ v ∈ l, v.mStart ≤ a ∧ a < v.mEnd

section Lists

variable {l l' : Areas} {u v : Vma} {a : ℕ}

theorem covered_append : InAreas (l++l') a ↔ InAreas l a ∨ InAreas l' a := by
  simp [InAreas, or_and_right, exists_or]

theorem covered_cons : InAreas (v :: l) a ↔ (v.mStart ≤ a ∧ a < v.mEnd) ∨ InAreas l a := by
  simp [InAreas]

theorem covered_nil : ¬ InAreas [] a := by simp [InAreas]

theorem covered_mergeNext (hl : ∀ u ∈ l, u.mStart < u.mEnd) (hv : v.mStart < v.mEnd)
    (h : (v.mStart ≤ a ∧ a < v.mEnd) ∨ InAreas l a) : InAreas (mergeNext v l) a := by
  cases l with
  | nil =>
    rw [mergeNext, covered_cons]
    exact h
  | cons p rest =>
    have hp := hl p List.mem_cons_self
    rw [covered_cons] at h
    rw [mergeNext]
    split
    next hmeet =>
      have hjoin := hmeet.1
      rw [covered_cons]
      dsimp only
      rcases h with hin | hin | hrest
      · left
        omega
      · left
        omega
      · exact Or.inr hrest
    next =>
      rw [covered_cons, covered_cons]
      exact h

theorem covered_insertVma (hl : ∀ u ∈ l, u.mStart < u.mEnd) (hv : v.mStart < v.mEnd)
    (hs : insertVma l v = some l') (h : (v.mStart ≤ a ∧ a < v.mEnd) ∨ InAreas l a) : InAreas l' a := by
  obtain ⟨before, hbefore⟩ : ∃ before, l.takeWhile (fun p => p.mStart < v.mEnd) = before := ⟨_, rfl⟩
  obtain ⟨after, hafter⟩ : ∃ after, l.dropWhile (fun p => p.mStart < v.mEnd) = after := ⟨_, rfl⟩
  have hcut : before++after = l := by
    rw [← hbefore, ← hafter]
    exact List.takeWhile_append_dropWhile
  have hlast : ∀ u ∈ after, u.mStart < u.mEnd := by
    intro u hu
    apply hl u
    rw [← hcut]
    exact List.mem_append_right _ hu
  rw [← hcut, covered_append] at h
  simp only [insertVma, hbefore, hafter] at hs
  split at hs
  next hnone =>
    obtain rfl := Option.some.inj hs
    rw [List.getLast?_eq_none_iff] at hnone
    rw [hnone] at h
    apply covered_mergeNext hlast hv
    rcases h with hin | hno | hrest
    · exact Or.inl hin
    · exact absurd hno covered_nil
    · exact Or.inr hrest
  next prev hprev =>
  split at hs
  · cases hs
  next hbelow =>
  split at hs
  next hmeet =>
    obtain rfl := Option.some.inj hs
    have hjoin := hmeet.1
    have hsplit : before.dropLast++[prev] = before := List.dropLast_append_getLast? prev hprev
    have hpos : prev.mStart < prev.mEnd := by
      apply hl prev
      rw [← hcut, ← hsplit]
      simp
    rw [covered_append]
    rw [← hsplit, covered_append, covered_cons] at h
    have hmerged : (prev.mStart ≤ a ∧ a < v.mEnd) ∨ InAreas after a →
        InAreas (mergeNext { prev with mEnd := v.mEnd } after) a := by
      have hgrown : ({ prev with mEnd := v.mEnd } : Vma).mStart < v.mEnd := by
        show prev.mStart < v.mEnd
        omega
      exact covered_mergeNext hlast hgrown
    rcases h with hin | (hfirst | hin | hno) | hrest
    · exact Or.inr (hmerged (Or.inl (by omega)))
    · exact Or.inl hfirst
    · exact Or.inr (hmerged (Or.inl (by omega)))
    · exact absurd hno covered_nil
    · exact Or.inr (hmerged (Or.inr hrest))
  next =>
    obtain rfl := Option.some.inj hs
    rw [covered_append]
    rcases h with hin | hfirst | hrest
    · exact Or.inr (covered_mergeNext hlast hv (Or.inl hin))
    · exact Or.inl hfirst
    · exact Or.inr (covered_mergeNext hlast hv (Or.inr hrest))

theorem covered_insertVma_getD (hl : ∀ u ∈ l, u.mStart < u.mEnd) (hv : v.mStart < v.mEnd)
    (h : InAreas l a) : InAreas ((insertVma l v).getD l) a := by
  cases hs : insertVma l v with
  | none => exact h
  | some l' => exact covered_insertVma hl hv hs (Or.inr h)

end Lists

section Operations

variable {l : Areas} {addr len a : ℕ}

theorem covered_doMmap (h : WellFormed l) (prot flags : ℕ) (ha : InAreas l a) :
    InAreas (doMmap l addr len prot flags).2 a := by
  have hnew : ∀ start, pageAlign len ≠ 0 → InAreas (mmapAt l start (pageAlign len) prot).2 a := by
    intro start hlen
    rw [mmapAt]
    split
    · exact ha
    next l' hs => exact covered_insertVma h.1.1 (by dsimp only; omega) hs (Or.inr ha)
  simp only [doMmap]
  split
  · exact ha
  next hlen =>
  split
  · exact ha
  split
  · split
    · exact ha
    split
    · exact hnew _ hlen
    split
    · exact ha
    · exact hnew _ hlen
  · split
    · exact ha
    · exact hnew _ hlen

/-- A mapping at a fixed address lies where nothing was. -/
theorem doMmap_fixed {l' : Areas} {prot ret : ℕ} (h : WellFormed l) (hlen : pageAlign len ≠ 0)
    (hs : doMmap l addr len prot mapFixed = (some ret, l')) :
    addr+pageAlign len ≤ userVmSize ∧
      ∀ a, addr ≤ a → a < addr+pageAlign len → ¬ InAreas l a ∧ InAreas l' a := by
  simp only [doMmap] at hs
  rw [if_neg hlen] at hs
  split at hs
  · cases hs
  next hrange =>
  have hend : addr+pageAlign len ≤ userVmSize := by
    rw [MmapRange] at hrange
    omega
  have hnew : ∀ a, addr ≤ a → a < addr+pageAlign len →
      mmapAt l addr (pageAlign len) prot = (some ret, l') → InAreas l' a := by
    intro a hstart hlast hat
    rw [mmapAt] at hat
    split at hat
    · cases hat
    next l₁ hinsert =>
      obtain ⟨-, rfl⟩ := Prod.mk.inj hat
      exact covered_insertVma h.1.1 (by dsimp only; omega) hinsert (Or.inl ⟨hstart, hlast⟩)
  rw [if_pos (by decide)] at hs
  split at hs
  · cases hs
  refine ⟨hend, fun a hstart hlast => ?_⟩
  split at hs
  next hnone =>
    refine ⟨?_, hnew a hstart hlast hs⟩
    rintro ⟨v, hv, -, hin⟩
    have := findVma_none (Prod.ext rfl hnone : findVma l addr = (_, [])) v hv
    omega
  next p rest hsome =>
    split at hs
    · cases hs
    next hbelow =>
      refine ⟨?_, hnew a hstart hlast hs⟩
      obtain ⟨hl, -, hbefore, -⟩ := findVma_cut h (Prod.ext rfl hsome : findVma l addr = (_, p :: rest))
      rintro ⟨v, hv, hlow, hin⟩
      have hw := h
      rw [hl] at hv hw
      rcases List.mem_append.mp hv with hv | hv
      · have := hbefore v hv
        omega
      · obtain ⟨-, hrest, hab⟩ := wellFormed_append.mp hw
        obtain ⟨⟨hp, -⟩, -, hafter⟩ := wellFormed_cons.mp hrest
        rcases List.mem_cons.mp hv with rfl | hv
        · omega
        · have := hafter v hv
          omega

theorem covered_splitVma {vma : Vma} (obj : Vma) (h : vma.mStart ≤ a ∧ a < vma.mEnd)
    (hout : ¬ (addr ≤ a ∧ a < addr+len)) : InAreas (splitVma vma obj addr len) a := by
  rw [splitVma, covered_append]
  by_cases hlow : a < addr
  · left
    rw [if_neg (by omega), covered_cons]
    exact Or.inl ⟨h.1, hlow⟩
  · right
    rw [if_neg (by omega), covered_cons]
    left
    dsimp only
    omega

/-- `do_munmap` takes out the range it passes to `free_page_range`, no more. -/
theorem covered_doMunmap (h : WellFormed l) (obj : Vma) (ha : InAreas l a)
    (hout : ∀ r, unmapped l addr len = some r → ¬ (r.1 ≤ a ∧ a < r.2)) :
    InAreas (doMunmap l addr len obj).2 a := by
  simp only [doMunmap]
  rw [unmapped] at hout
  split
  · exact ha
  next hrange =>
  rw [if_neg hrange] at hout
  split
  · exact ha
  next hlen =>
  rw [if_neg hlen] at hout
  split
  · exact ha
  next before vma after hfind =>
  rw [hfind] at hout
  dsimp only at hout
  split
  · exact ha
  next hin =>
  rw [if_neg hin] at hout
  have hgone := hout _ rfl
  obtain ⟨hl, -⟩ := findVma_cut h hfind
  rw [hl, covered_append, covered_cons] at ha
  rw [covered_append, covered_append]
  rcases ha with hbefore | hvma | hafter
  · exact Or.inl (Or.inl hbefore)
  · exact Or.inl (Or.inr (covered_splitVma obj hvma hgone))
  · exact Or.inr hafter

theorem covered_extendBrk (h : WellFormed l) (obj : Vma) (hlen : 0 < len) (ha : InAreas l a) :
    InAreas (extendBrk l addr len obj) a := by
  have hnew : InAreas ((insertVma l { obj with
      mStart := addr, mEnd := addr+len, mPageProt := vmRead ||| vmWrite ||| vmExec }).getD l) a :=
    covered_insertVma_getD h.1.1 (by dsimp only; omega) ha
  simp only [extendBrk]
  split
  · split
    next before p after hfind =>
      split
      next hmeet =>
        obtain ⟨hl, -⟩ := findVma_cut h hfind
        rw [hl, covered_append, covered_cons] at ha
        rw [covered_append, covered_cons]
        dsimp only
        rcases ha with hbefore | hin | hafter
        · exact Or.inl hbefore
        · exact Or.inr (Or.inl ⟨hin.1, by omega⟩)
        · exact Or.inr (Or.inr hafter)
      next => exact hnew
    next => exact hnew
  · exact hnew

theorem covered_doBrk (h : WellFormed l) (obj obj' : Vma) (ha : InAreas l a)
    (hout : ∀ r, pageAlign len ≠ 0 → unmapped l addr (pageAlign len) = some r →
      ¬ (r.1 ≤ a ∧ a < r.2)) : InAreas (doBrk l addr len obj obj').2 a := by
  simp only [doBrk]
  split
  · exact ha
  next hlen =>
  have hcut := covered_doMunmap h obj ha (fun r hr => hout r hlen hr)
  have hw := (doMunmap_spec h addr (pageAlign len) obj).1
  split
  next l' hs =>
    rw [hs] at hcut
    exact hcut
  next l' hs =>
    rw [hs] at hcut hw
    exact covered_extendBrk hw obj' (Nat.pos_of_ne_zero hlen) hcut

theorem covered_sysBrk {v : Vmm} {brk : ℕ} (h : WellFormed v.mmap) (obj obj' : Vma)
    (ha : InAreas v.mmap a)
    (hout : ∀ r, ((brkUnmap v brk).bind fun r => unmapped v.mmap r.1 r.2) = some r →
      ¬ (r.1 ≤ a ∧ a < r.2)) : InAreas (sysBrk v brk obj obj').2.mmap a := by
  simp only [sysBrk]
  rw [brkUnmap] at hout
  split
  · exact ha
  next hstart =>
  rw [if_neg hstart] at hout
  split
  next hshrink =>
    rw [if_pos hshrink] at hout
    have hcut := covered_doMunmap h obj ha hout
    split
    next l' hs =>
      rw [hs] at hcut
      exact hcut
    next l' hs =>
      rw [hs] at hcut
      exact hcut
  next hgrow =>
    rw [if_neg hgrow] at hout
    have hcut : InAreas (doBrk v.mmap (pageAlign v.brk)
        ((pageAlign brk+2 ^ 64-pageAlign v.brk) % 2 ^ 64) obj obj').2 a := by
      apply covered_doBrk h obj obj' ha
      intro r hlen hr
      rw [if_neg hlen] at hout
      exact hout r hr
    split
    next l' hs =>
      rw [hs] at hcut
      exact hcut
    next l' hs =>
      rw [hs] at hcut
      exact hcut

end Operations

/-! ## All operations -/

/-- The call of `do_munmap` that an operation makes. -/
def munmapCall (v : Vmm) : Op → Option (ℕ × ℕ)
  | .munmap addr len _ => some (addr, len)
  | .brk value _ _ => brkUnmap v value
  | .sbrk increment _ _ => brkUnmap v ((v.brk+increment) % 2 ^ 64)
  | .mmap _ _ _ _ => none
  | .fault _ _ _ _ => none

theorem freedBy_eq (m : Machine) (op : Op) :
    freedBy m op = (munmapCall m.self.vmm op).bind fun r => unmapped m.self.vmm.mmap r.1 r.2 := by
  cases op <;> rfl

theorem covered_perform {v v' : Vmm} {op : Op} {ok : Bool} {a : ℕ} (h : WellFormed v.mmap)
    (hop : ∀ addr err rsp mapped, op ≠ .fault addr err rsp mapped)
    (hs : perform v op = some (ok, v')) (ha : InAreas v.mmap a)
    (hout : ∀ r, ((munmapCall v op).bind fun r => unmapped v.mmap r.1 r.2) = some r →
      ¬ (r.1 ≤ a ∧ a < r.2)) : InAreas v'.mmap a := by
  cases op with
  | mmap addr len prot flags =>
    obtain ⟨rfl, rfl⟩ := Prod.mk.inj (Option.some.inj hs)
    exact covered_doMmap h prot flags ha
  | munmap addr len obj =>
    obtain ⟨rfl, rfl⟩ := Prod.mk.inj (Option.some.inj hs)
    exact covered_doMunmap h obj ha hout
  | brk value obj obj' =>
    obtain ⟨rfl, rfl⟩ := Prod.mk.inj (Option.some.inj hs)
    exact covered_sysBrk h obj obj' ha hout
  | sbrk increment obj obj' =>
    obtain ⟨rfl, rfl⟩ := Prod.mk.inj (Option.some.inj hs)
    exact covered_sysBrk h obj obj' ha hout
  | fault addr err rsp mapped => exact absurd rfl (hop addr err rsp mapped)

end BabyOS.AreaCoverage

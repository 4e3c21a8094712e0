import BabyOS.ProcessTree

/-!
# Nobody is left behind

As long as no process exits that has children, the parent of every process lives, and
the two places where it is recorded agree.
-/

set_option autoImplicit false

namespace BabyOS.ProcessFamilies
open BabyOS.LinkedLists BabyOS.ProcessTree

/-- What carries the run. -/
structure Family (s : Tree) : Prop where
  idle : s.life 0 = .alive
  lists : ∀ q, s.life q ≠ .free → ∃ l, Holds s.nodes (s.children q) l ∧ s.Members q l
  parents : ∀ p q, s.life p ≠ .free → s.parent p = some q → s.life q = .alive
  orphan : ∀ p, s.life p ≠ .free → s.parent p = none → p = 0
  small : ∀ p, s.life p ≠ .free → p < 2 ^ 52

section Lists

variable {s : Tree} {q q' : ℕ} {l l' : List ℕ}

/-- There are fewer processes than a length can count. -/
theorem Family.short (h : Family s) (hl : Holds s.nodes (s.children q) l) (hmem : s.Members q l) :
    l.length+1 < 2 ^ 64 := by
  have hsub : l.toFinset ⊆ Finset.range (2 ^ 52) := by
    intro p hp
    exact Finset.mem_range.mpr (h.small p ((hmem p).mp (List.mem_toFinset.mp hp)).1)
  have hcard := Finset.card_le_card hsub
  rw [List.toFinset_card_of_nodup hl.nodup, Finset.card_range] at hcard
  calc l.length+1 ≤ 2 ^ 52+1 := Nat.add_le_add_right hcard 1
    _ < 2 ^ 64 := by norm_num

/-- The lists of two processes are apart. -/
theorem members_apart (hne : q ≠ q') (hl : s.Members q l) (hl' : s.Members q' l') :
    ∀ p ∈ l, p ∉ l' := by
  intro p hp hp'
  have hq := ((hl p).mp hp).2
  rw [((hl' p).mp hp').2] at hq
  exact hne (Option.some.inj hq).symm

theorem members_fresh (hq : s.life q' = .free) (hl : s.Members q l) : q' ∉ l :=
  fun hc => ((hl q').mp hc).1 hq

theorem used_of_alive (hq : s.life q = .alive) : s.life q ≠ .free := by
  rw [hq]
  exact fun hc => nomatch hc

theorem family_start : Family start where
  idle := rfl
  lists := by
    intro q _
    exact ⟨[], holds_empty _, fun p => ⟨fun hp => (nomatch hp), fun hp => nomatch hp.2⟩⟩
  parents := fun p q _ hq => nomatch hq
  orphan := by
    intro p hp _
    by_contra hne
    exact hp (if_neg hne)
  small := by
    intro p hp
    by_cases hzero : p = 0
    · rw [hzero]
      norm_num
    · exact absurd (if_neg hzero) hp

end Lists

/-! ## Forks -/

section Fork

variable {s : Tree} {p q : ℕ} {n : ℤ}

theorem fork_life (s : Tree) (p q : ℕ) (n : ℤ) : (s.fork p q n).life q = .alive :=
  Function.update_self ..

theorem fork_parent (s : Tree) (p q : ℕ) (n : ℤ) : (s.fork p q n).parent q = some p :=
  Function.update_self ..

theorem fork_life_other {x : ℕ} (hx : x ≠ q) : (s.fork p q n).life x = s.life x :=
  Function.update_of_ne hx _ _

theorem fork_parent_other {x : ℕ} (hx : x ≠ q) : (s.fork p q n).parent x = s.parent x :=
  Function.update_of_ne hx _ _

theorem fork_alive {x : ℕ} (hx : s.life x = .alive) : (s.fork p q n).life x = .alive := by
  by_cases hxq : x = q
  · rw [hxq]
    exact fork_life s p q n
  · rw [fork_life_other hxq]
    exact hx

theorem fork_members {q' : ℕ} {l : List ℕ} (hne : q' ≠ p) (hq : s.life q = .free)
    (hl : s.Members q' l) : (s.fork p q n).Members q' l := by
  intro x
  by_cases hx : x = q
  · subst hx
    rw [fork_parent]
    exact ⟨fun hc => absurd hc (members_fresh hq hl), fun hc => absurd (Option.some.inj hc.2).symm hne⟩
  · rw [fork_life_other hx, fork_parent_other hx]
    exact hl x

theorem fork_members_parent {l : List ℕ} (hl : s.Members p l) :
    (s.fork p q n).Members p (l++[q]) := by
  intro x
  by_cases hx : x = q
  · subst hx
    rw [fork_life, fork_parent]
    simp
  · rw [fork_life_other hx, fork_parent_other hx, List.mem_append, hl x]
    simp [hx]

/-- The new node is cleared before it is linked. -/
theorem holds_clear {h : Head ℕ} {l : List ℕ} (hl : Holds s.nodes h l) (hq : q ∉ l) :
    Holds ((s.nodes.setPrev q none).setNext q none) h l :=
  hl.congr (fun _ hx => Nodes.setPrev_other _ _ (fun hxq => hq (hxq ▸ hx)))
    (fun _ hx => Nodes.setNext_other _ _ (fun hxq => hq (hxq ▸ hx)))

theorem fork_lists (h : Family s) (hp : s.life p = .alive) (hq : s.life q = .free) (q' : ℕ)
    (hq' : (s.fork p q n).life q' ≠ .free) :
    ∃ l, Holds (s.fork p q n).nodes ((s.fork p q n).children q') l ∧ (s.fork p q n).Members q' l := by
  obtain ⟨l, hl, hmem⟩ := h.lists p (used_of_alive hp)
  have hfresh := members_fresh hq hmem
  have hclear := holds_clear hl hfresh
  by_cases hqp : q' = p
  · subst hqp
    refine ⟨l++[q], ?_, fork_members_parent hmem⟩
    rw [show (s.fork q' q n).children q' = _ from Function.update_self ..]
    exact addTail_holds hclear hfresh (h.short hl hmem)
  rw [show (s.fork p q n).children q' = Function.update s.children q empty q' from
    Function.update_of_ne hqp _ _]
  by_cases hqq : q' = q
  · subst hqq
    rw [Function.update_self]
    refine ⟨[], holds_empty _, fork_members hqp hq fun x => ⟨fun hc => (nomatch hc), ?_⟩⟩
    rintro ⟨hx, hxq⟩
    rw [h.parents x q' hx hxq] at hq
    cases hq
  · rw [Function.update_of_ne hqq]
    rw [fork_life_other hqq] at hq'
    obtain ⟨l', hl', hmem'⟩ := h.lists q' hq'
    have hfresh' := members_fresh hq hmem'
    have hne : ∀ x ∈ l', x ≠ q := fun x hx hxq => hfresh' (hxq ▸ hx)
    have hother := fun x (hx : x ∈ l') =>
      addTail_other hclear (hne x hx) (members_apart hqp hmem' hmem x hx)
    exact ⟨l', (holds_clear hl' hfresh').congr (fun x hx => (hother x hx).1) (fun x hx => (hother x hx).2),
      fork_members hqp hq hmem'⟩

theorem family_fork (h : Family s) (hp : s.life p = .alive) (hq : s.life q = .free)
    (hsmall : q < 2 ^ 52) : Family (s.fork p q n) where
  idle := fork_alive h.idle
  lists := fork_lists h hp hq
  parents := by
    intro x y hx hy
    by_cases hxq : x = q
    · rw [hxq, fork_parent] at hy
      rw [← Option.some.inj hy]
      exact fork_alive hp
    · rw [fork_life_other hxq] at hx
      rw [fork_parent_other hxq] at hy
      exact fork_alive (h.parents x y hx hy)
  orphan := by
    intro x hx hnone
    by_cases hxq : x = q
    · rw [hxq, fork_parent] at hnone
      cases hnone
    · rw [fork_life_other hxq] at hx
      rw [fork_parent_other hxq] at hnone
      exact h.orphan x hx hnone
  small := by
    intro x hx
    by_cases hxq : x = q
    · rw [hxq]
      exact hsmall
    · rw [fork_life_other hxq] at hx
      exact h.small x hx

end Fork

/-! ## Exits -/

section Exit

variable {s : Tree} {p : ℕ}

/-- A process without children only changes its state. -/
theorem family_exit (h : Family s) (hp : s.life p = .alive) (hne : p ≠ 0)
    (hnone : (s.children p).first = none) : Family (s.exit p []) := by
  have hused : ∀ x, (s.exit p []).life x ≠ .free ↔ s.life x ≠ .free := by
    intro x
    change Function.update s.life p .zombie x ≠ .free ↔ _
    by_cases hx : x = p
    · subst hx
      rw [Function.update_self, hp]
      simp
    · rw [Function.update_of_ne hx]
  have hparent : (s.exit p []).parent = s.parent := by
    funext x
    simp [Tree.exit, Tree.adopeChildren]
  -- nobody names `p` as its parent
  have hchild : ∀ x, s.life x ≠ .free → s.parent x ≠ some p := by
    intro x hx hxp
    obtain ⟨l, hl, hmem⟩ := h.lists p (used_of_alive hp)
    have hin := (hmem x).mpr ⟨hx, hxp⟩
    rw [hl.first, List.head?_eq_none_iff] at hnone
    rw [hnone] at hin
    cases hin
  constructor
  · exact (Function.update_of_ne (Ne.symm hne) _ _).trans h.idle
  · intro q hq
    obtain ⟨l, hl, hmem⟩ := h.lists q ((hused q).mp hq)
    refine ⟨l, hl, fun x => ?_⟩
    rw [hused, hparent]
    exact hmem x
  · intro x y hx hy
    rw [hused] at hx
    rw [hparent] at hy
    have hyp : y ≠ p := by
      rintro rfl
      exact hchild x hx hy
    exact (Function.update_of_ne hyp _ _).trans (h.parents x y hx hy)
  · intro x hx hnone'
    rw [hused] at hx
    rw [hparent] at hnone'
    exact h.orphan x hx hnone'
  · intro x hx
    exact h.small x ((hused x).mp hx)

end Exit

/-! ## Waits -/

section Wait

variable {s : Tree} {q z : ℕ} {l : List ℕ}

theorem release_eq (hq : s.parent z = some q) : s.release z =
    { s with
      life := Function.update s.life z .free
      children := Function.update s.children q (remove s.nodes (s.children q) z).2
      nodes := (remove s.nodes (s.children q) z).1 } := by
  rw [Tree.release, hq]

theorem release_life (hq : s.parent z = some q) :
    (s.release z).life = Function.update s.life z .free := by
  rw [release_eq hq]

/-- A zombie leaves the list of its parent. -/
theorem release_holds (h : Family s) (hl : Holds s.nodes (s.children q) l) (hmem : s.Members q l)
    (hz : z ∈ l) : Holds (s.release z).nodes ((s.release z).children q) (l.erase z) := by
  rw [release_eq ((hmem z).mp hz).2]
  dsimp only
  rw [Function.update_self]
  exact remove_holds hl hz (by have := h.short hl hmem; omega)

theorem release_members {q' : ℕ} {l' : List ℕ} (hq : s.parent z = some q) (hl : l'.Nodup)
    (hmem : s.Members q' l') : (s.release z).Members q' (l'.erase z) := by
  intro x
  rw [hl.mem_erase_iff, hmem x, release_eq hq]
  dsimp only
  by_cases hx : x = z
  · rw [hx, Function.update_self]
    simp
  · rw [Function.update_of_ne hx]
    simp [hx]

theorem family_release (h : Family s) (hlife : s.life z = .zombie)
    (hl : Holds s.nodes (s.children q) l) (hmem : s.Members q l) (hz : z ∈ l) :
    Family (s.release z) := by
  have hparent := ((hmem z).mp hz).2
  have heq := release_eq hparent
  have hused : ∀ x, (s.release z).life x ≠ .free → x ≠ z ∧ s.life x ≠ .free := by
    intro x hx
    rw [release_life hparent] at hx
    by_cases hxz : x = z
    · rw [hxz, Function.update_self] at hx
      exact absurd rfl hx
    · rw [Function.update_of_ne hxz] at hx
      exact ⟨hxz, hx⟩
  have halive : ∀ x, s.life x = .alive → (s.release z).life x = .alive := by
    intro x hx
    rw [release_life hparent]
    refine (Function.update_of_ne ?_ _ _).trans hx
    rintro rfl
    rw [hlife] at hx
    cases hx
  have hparents : (s.release z).parent = s.parent := by rw [heq]
  constructor
  · exact halive 0 h.idle
  · intro q' hq'
    obtain ⟨hne, hq'⟩ := hused q' hq'
    by_cases hqq : q' = q
    · subst hqq
      exact ⟨_, release_holds h hl hmem hz, release_members hparent hl.nodup hmem⟩
    · obtain ⟨l', hl', hmem'⟩ := h.lists q' hq'
      have hap := members_apart hqq hmem' hmem
      have hz' : z ∉ l' := fun hc => hap z hc hz
      have hlist := release_members hparent hl'.nodup hmem'
      rw [List.erase_of_not_mem hz'] at hlist
      refine ⟨l', ?_, hlist⟩
      rw [heq]
      dsimp only
      rw [Function.update_of_ne hqq]
      exact hl'.congr (fun x hx => (remove_other hl hz (hap x hx)).1)
        (fun x hx => (remove_other hl hz (hap x hx)).2)
  · intro x y hx hy
    rw [hparents] at hy
    exact halive y (h.parents x y (hused x hx).2 hy)
  · intro x hx hnone
    rw [hparents] at hnone
    exact h.orphan x (hused x hx).2 hnone
  · intro x hx
    exact h.small x (hused x hx).2

theorem found_spec {pid : ℤ} (hz : s.found pid l = some z) : z ∈ l ∧ s.life z = .zombie := by
  refine ⟨List.mem_of_find?_eq_some hz, ?_⟩
  have := List.find?_some hz
  rw [Bool.and_eq_true] at this
  exact of_decide_eq_true this.2

theorem family_wait {pid : ℤ} (h : Family s) (hq : s.life q = .alive)
    (hwalk : Walk s.nodes (s.children q).first l) : Family (s.wait pid l) := by
  obtain ⟨k, hk, hmem⟩ := h.lists q (used_of_alive hq)
  obtain rfl := hwalk.unique hk.walk
  rw [Tree.wait]
  cases hz : s.found pid l with
  | none => exact h
  | some z =>
    obtain ⟨hin, hlife⟩ := found_spec hz
    exact family_release h hlife hk hmem hin

end Wait

/-! ## Runs -/

section Runs

variable {s s' : Tree}

/-- Free pages are in no list. -/
theorem family_reuse {q : ℕ} {x y z : Option ℕ} {k : Head ℕ} {n : ℤ} (h : Family s)
    (hq : s.life q = .free) :
    Family { s with
      pid := Function.update s.pid q n
      parent := Function.update s.parent q x
      children := Function.update s.children q k
      nodes := (s.nodes.setPrev q y).setNext q z } := by
  have hne : ∀ p, s.life p ≠ .free → p ≠ q := by
    rintro p hp rfl
    exact hp hq
  have hparent : ∀ p, s.life p ≠ .free → Function.update s.parent q x p = s.parent p :=
    fun p hp => Function.update_of_ne (hne p hp) _ _
  constructor
  · exact h.idle
  · intro p hp
    obtain ⟨l, hl, hmem⟩ := h.lists p hp
    have hout : ∀ r ∈ l, r ≠ q := fun r hr => hne r ((hmem r).mp hr).1
    refine ⟨l, ?_, fun r => ?_⟩
    · dsimp only
      rw [Function.update_of_ne (hne p hp)]
      exact hl.congr (fun r hr => Nodes.setPrev_other _ _ (hout r hr))
        (fun r hr => Nodes.setNext_other _ _ (hout r hr))
    · refine (hmem r).trans (and_congr_right fun hr => ?_)
      dsimp only
      rw [hparent r hr]
  · intro p r hp hr
    dsimp only at hr
    rw [hparent p hp] at hr
    exact h.parents p r hp hr
  · intro p hp hnone
    dsimp only at hnone
    rw [hparent p hp] at hnone
    exact h.orphan p hp hnone
  · exact h.small

theorem family_step {e : Event} (h : Family s) (ha : NoOrphans s e) (hstep : Step s e s') :
    Family s' := by
  cases hstep with
  | fork hp hq hsmall _ => exact family_fork h hp hq hsmall
  | @exit p l hp hne hwalk =>
    have hnone : (s.children p).first = none := ha
    rw [hnone] at hwalk
    cases hwalk
    exact family_exit h hp hne hnone
  | wait hq hwalk => exact family_wait h hq hwalk
  | reuse x y z k n hq => exact family_reuse h hq

theorem family_run (h : Run NoOrphans s) : Family s := by
  induction h with
  | start => exact family_start
  | step _ ha hstep ih => exact family_step ih ha hstep

/-- A live process that waits for any child finds each zombie in its list. -/
theorem waits_find {q z : ℕ} {l : List ℕ} (h : Family s) (hq : s.life q = .alive)
    (hz : s.life z = .zombie) (hl : Holds s.nodes (s.children q) l) (hmem : s.Members q l)
    (hin : z ∈ l) : ∃ s', Waits q s s' ∧ s'.life z = .free := by
  induction hn : l.length generalizing s l with
  | zero =>
    rw [List.length_eq_zero_iff.mp hn] at hin
    cases hin
  | succ n ih =>
    have hstep : Step s (.wait q (-1)) (s.wait (-1) l) := .wait hq hl.walk
    cases hfound : s.found (-1) l with
    | none =>
      have := List.find?_eq_none.mp hfound z hin
      simp [hz] at this
    | some y =>
      obtain ⟨hy, hlife⟩ := found_spec hfound
      have hparent := ((hmem y).mp hy).2
      have heq : s.wait (-1) l = s.release y := by rw [Tree.wait, hfound]
      rw [heq] at hstep
      by_cases hyz : y = z
      · subst hyz
        refine ⟨_, .step hstep .refl, ?_⟩
        rw [release_life hparent, Function.update_self]
      · -- another zombie comes first; it leaves the list
        have hkept : ∀ x, x ≠ y → (s.release y).life x = s.life x := by
          intro x hx
          rw [release_life hparent, Function.update_of_ne hx]
        have hqy : q ≠ y := by
          rintro rfl
          rw [hq] at hlife
          cases hlife
        obtain ⟨t, hwaits, hfree⟩ := ih (family_release h hlife hl hmem hy)
          ((hkept q hqy).trans hq) ((hkept z (Ne.symm hyz)).trans hz)
          (release_holds h hl hmem hy) (release_members hparent hl.nodup hmem)
          ((hl.nodup.mem_erase_iff).mpr ⟨Ne.symm hyz, hin⟩)
          (by rw [List.length_erase_of_mem hy, hn, Nat.add_sub_cancel])
        exact ⟨t, .step hstep hwaits, hfree⟩

theorem consistent_of (h : Family s) : Consistent s where
  lists := h.lists
  zombies := by
    intro z hz
    have hused : s.life z ≠ .free := by
      rw [hz]
      exact fun hc => nomatch hc
    cases hparent : s.parent z with
    | none =>
      rw [h.orphan z hused hparent, h.idle] at hz
      cases hz
    | some q =>
      have hq := h.parents z q hused hparent
      obtain ⟨l, hl, hmem⟩ := h.lists q (used_of_alive hq)
      have hin := (hmem z).mpr ⟨hused, hparent⟩
      exact ⟨q, l, hq, hl, hin, waits_find h hq hz hl hmem hin⟩

/-- In every run in which no process exits that has children, the pointers and the lists agree,
and every zombie can be released. -/
theorem families_run (h : Run NoOrphans s) : Consistent s := consistent_of (family_run h)

end Runs

/-! ## Three generations -/

/-- Process 1 is the first process, process 2 its child. -/
def grown : Tree := (start.fork 0 1 1).fork 1 2 2

/-- Its numbers are below 3. -/
theorem grown_pid (r : ℕ) : grown.pid r < 3 := by
  change Function.update (Function.update (fun _ => (0 : ℤ)) 1 1) 2 2 r < 3
  simp only [Function.update_apply]
  split
  · norm_num
  · split
    all_goals norm_num

theorem grown_run {allowed : Tree → Event → Prop} (hall : ∀ s p q n, allowed s (.fork p q n)) :
    Run allowed grown := by
  have hfirst : Step start (.fork 0 1 1) (start.fork 0 1 1) := by
    refine .fork rfl rfl (by norm_num) (fun r _ hc => ?_)
    cases hc
  have hsecond : Step (start.fork 0 1 1) (.fork 1 2 2) grown := by
    refine .fork rfl rfl (by norm_num) (fun r _ hc => ?_)
    by_cases hr : r = 1
    · subst hr
      cases hc
    · rw [show (start.fork 0 1 1).pid r = 0 from Function.update_of_ne hr _ _] at hc
      cases hc
  exact (Run.start.step (hall _ _ _ _) hfirst).step (hall _ _ _ _) hsecond

/-- Process 2 has exited. -/
theorem families_run_grown : Consistent (grown.exit 2 []) := by
  have hexit : Step grown (.exit 2) (grown.exit 2 []) := .exit rfl (by norm_num) .nil
  have hnone : NoOrphans grown (.exit 2) := rfl
  exact families_run ((grown_run (fun _ _ _ _ => trivial)).step hnone hexit)

/-- Process 3, a child of 2, is left by its parent, which process 1 releases; then it exits. -/
def orphan : Tree := (((grown.fork 2 3 3).exit 2 [3]).wait (-1) [2]).exit 3 []

theorem orphan_run : Run (fun _ _ => True) orphan := by
  have hfork : Step grown (.fork 2 3 3) (grown.fork 2 3 3) :=
    .fork rfl rfl (by norm_num) fun r _ => (grown_pid r).ne
  have hexit : Step (grown.fork 2 3 3) (.exit 2) ((grown.fork 2 3 3).exit 2 [3]) :=
    .exit rfl (by norm_num) (.cons .nil)
  have hwait : Step ((grown.fork 2 3 3).exit 2 [3]) (.wait 1 (-1))
      (((grown.fork 2 3 3).exit 2 [3]).wait (-1) [2]) :=
    .wait rfl (.cons .nil)
  have hlast : Step (((grown.fork 2 3 3).exit 2 [3]).wait (-1) [2]) (.exit 3) orphan :=
    .exit rfl (by norm_num) .nil
  exact ((((grown_run (fun _ _ _ _ => trivial)).step trivial hfork).step trivial hexit).step trivial
    hwait).step trivial hlast

/-- The zombie has process 1 as its parent and is not in the list of process 1. -/
theorem zombie_lost : Run (fun _ _ => True) orphan ∧ orphan.life 3 = .zombie ∧
    orphan.parent 3 = some 1 ∧ (orphan.children 1).first = none ∧ ¬ Consistent orphan := by
  refine ⟨orphan_run, rfl, rfl, rfl, fun h => ?_⟩
  obtain ⟨l, hl, hmem⟩ := h.lists 1 (fun hc => nomatch hc)
  have hin : 3 ∈ l := (hmem 3).mpr ⟨fun hc => (nomatch hc), rfl⟩
  have hnone : l.head? = none := hl.first.symm
  rw [List.head?_eq_none_iff.mp hnone] at hin
  cases hin

end BabyOS.ProcessFamilies

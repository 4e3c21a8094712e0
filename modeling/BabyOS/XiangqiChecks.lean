import BabyOS.XiangqiSearch

/-!
# Check

`is_jiangjun` looks from the general outwards, with tables of its own. What it finds are the
pieces of the other side that could move to the general's square, and the other general on an
open column.
-/

set_option autoImplicit false

namespace BabyOS.XiangqiChecks
open BabyOS.XiangqiBoard BabyOS.XiangqiBoard.Xiangqi BabyOS.XiangqiMoves

/-- The first piece number of a side. -/
def codeOf (s : Side) : ℕ := 8+s.no*8

/-- The palace of a side. -/
def Palace (s : Side) (p : ℤ) : Prop := inJiugong p = true ∧
  match s with
  | .red => p > 128
  | .black => p < 128

instance (s : Side) (p : ℤ) : Decidable (Palace s p) := by
  unfold Palace
  cases s <;> infer_instance

/-- A general of each side in its palace, and the advisers in theirs. -/
structure Arranged (g : Xiangqi) : Prop where
  placed : Placed g
  general : ∀ s, ∃ p, Palace s p ∧ ∀ q, g.board q = codeOf s+pieceJs ↔ q = p
  adviser : ∀ s p, g.board p = codeOf s+pieceShi → Palace s p

/-- A move that the generator lists if it stands the test. -/
def Pseudo (g : Xiangqi) (m : Move) : Prop :=
  g.isSelfPiece m.start = true ∧ (inQipan m.target = true ∧ g.isSelfPiece m.target = false) ∧
    g.canPieceMove m = some true

theorem generated_iff {g : Xiangqi} (h : Placed g) (m : Move) :
    m ∈ g.generateAllMoves ↔ Pseudo g m ∧ g.testMove m.start m.target = true := by
  rw [all_moves h, Open, Pseudo]
  tauto

/-- The generals stand on one column, with nothing between them. -/
def Facing (g : Xiangqi) : Prop :=
  ∃ p q, g.board p = codeOf .red+pieceJs ∧ g.board q = codeOf .black+pieceJs ∧ p%16 = q%16 ∧
    ∀ r, r%16 = p%16 → q < r → r < p → g.board r = 0

/-! ## Lines, seen from both ends -/

section Lines

variable {g : Xiangqi} {delta p s t : ℤ} {k n : ℕ} {l l₁ l₂ : List ℤ}

theorem walk_snoc : walk delta (k+1) p = walk delta k p ++ [p+k*delta] := by
  induction k generalizing p with
  | zero => simp [walk]
  | succ k ih =>
    rw [walk, ih, walk, List.cons_append]
    congr 3
    push_cast
    ring

theorem walk_reverse : (walk delta k p).reverse = walk (-delta) k (p+((k : ℤ)-1)*delta) := by
  induction k generalizing p with
  | zero => rfl
  | succ k ih =>
    rw [walk, List.reverse_cons, ih, walk_snoc]
    congr 2
    · push_cast
      ring
    · push_cast
      ring

/-- What lies between two squares is the same from the other one, the other way round. -/
theorem line_back (hs : inQipan s = true) (h : lineFrom delta s = l₁ ++ t :: l₂) :
    ∃ l, lineFrom (-delta) t = l₁.reverse ++ s :: l := by
  obtain ⟨hw, ht, hin, hlt⟩ := line_split h
  have hback : ∀ j ≤ l₁.length, inQipan (t-delta+j*-delta) = true := by
    intro j hj
    rcases Nat.lt_or_eq_of_le hj with hj | rfl
    · have hmem : t-delta+j*-delta ∈ lineFrom delta s := by
        rw [h, hw]
        refine List.mem_append_left _ (mem_walk.mpr ⟨l₁.length-1-j, by omega, ?_⟩)
        rw [ht, Nat.cast_sub (by omega), Nat.cast_sub (by omega)]
        push_cast
        ring
      rw [lineFrom, line_eq] at hmem
      exact List.mem_takeWhile_imp hmem
    · rw [ht, show s+delta+(l₁.length : ℤ)*delta-delta+(l₁.length : ℤ)*-delta = s by ring]
      exact hs
  obtain ⟨l, hl⟩ := line_reaches hlt hback
  refine ⟨l, ?_⟩
  have hsum : t-delta+(l₁.length : ℤ)*-delta = s := by
    rw [ht]
    ring
  rw [lineFrom, ← sub_eq_add_neg, hl, hsum, hw, walk_reverse, ← hw]
  congr 2
  rw [ht]
  ring

theorem js_neg (hd : delta ∈ jsMove) : -delta ∈ jsMove := by
  revert hd delta
  decide

/-- Two squares see each other along the same cells. -/
theorem lines_back {Q : List ℤ → Prop} (hQ : ∀ l, Q l → Q l.reverse) (hs : inQipan s = true)
    (h : ∃ delta ∈ jsMove, ∃ l₁ l₂, lineFrom delta s = l₁ ++ t :: l₂ ∧ Q l₁) :
    ∃ delta ∈ jsMove, ∃ l₁ l₂, lineFrom delta t = l₁ ++ s :: l₂ ∧ Q l₁ := by
  obtain ⟨delta, hd, l₁, l₂, hl, hq⟩ := h
  obtain ⟨l, hback⟩ := line_back hs hl
  exact ⟨-delta, js_neg hd, l₁.reverse, l, hback, hQ _ hq⟩

/-- What `is_jiangjun_by_jujs` finds on a line. -/
theorem jujsOn_iff : g.jujsOn l = true ↔ ∃ l₁ t l₂, l = l₁ ++ t :: l₂ ∧ (∀ q ∈ l₁, g.board q = 0) ∧
    g.board t ≠ 0 ∧ (g.board t = g.oppositeSide+pieceJu ∨ g.board t = g.oppositeSide+pieceJs) := by
  induction l with
  | nil => simp [jujsOn]
  | cons p l ih =>
    rw [jujsOn]
    by_cases hp : g.board p = 0
    · rw [if_pos hp, ih]
      constructor
      · rintro ⟨l₁, t, l₂, rfl, hfree, ht⟩
        exact ⟨p :: l₁, t, l₂, rfl, List.forall_mem_cons.mpr ⟨hp, hfree⟩, ht⟩
      · rintro ⟨l₁, t, l₂, he, hfree, ht⟩
        rcases cons_split.mp he with ⟨_, rfl, _⟩ | ⟨l', rfl, hl⟩
        · exact absurd hp ht.1
        · exact ⟨l', t, l₂, hl, (List.forall_mem_cons.mp hfree).2, ht⟩
    · rw [if_neg hp, Bool.or_eq_true, beq_iff_eq, beq_iff_eq]
      constructor
      · exact fun ht => ⟨[], p, l, rfl, fun q hq => absurd hq List.not_mem_nil, hp, ht⟩
      · rintro ⟨l₁, t, l₂, he, hfree, ht⟩
        rcases cons_split.mp he with ⟨_, rfl, _⟩ | ⟨l', rfl, _⟩
        · exact ht.2
        · exact absurd (hfree p List.mem_cons_self) hp

/-- What `is_jiangjun_by_pao` finds on a line: a cannon behind one piece. -/
theorem paoOn_iff {flag : Bool} : g.paoOn flag l = true ↔ ∃ l₁ t l₂, l = l₁ ++ t :: l₂ ∧
    pieces g l₁+flag.toNat = 1 ∧ g.board t ≠ 0 ∧ g.board t = g.oppositeSide+piecePao := by
  induction l generalizing flag with
  | nil => simp [paoOn]
  | cons p l ih =>
    have hcons : ∀ l₁, pieces g (p :: l₁) = pieces g l₁+(if g.board p = 0 then 0 else 1) := by
      intro l₁
      rw [pieces, pieces, List.countP_cons]
      by_cases hp : g.board p = 0 <;> simp [hp]
    rw [paoOn]
    by_cases hp : g.board p = 0
    · rw [if_pos hp, ih]
      constructor
      · rintro ⟨l₁, t, l₂, rfl, hone, ht⟩
        exact ⟨p :: l₁, t, l₂, rfl, by rw [hcons, if_pos hp, Nat.add_zero, hone], ht⟩
      · rintro ⟨l₁, t, l₂, he, hone, ht⟩
        rcases cons_split.mp he with ⟨_, rfl, _⟩ | ⟨l', rfl, hl⟩
        · exact absurd hp ht.1
        · rw [hcons, if_pos hp, Nat.add_zero] at hone
          exact ⟨l', t, l₂, hl, hone, ht⟩
    · rw [if_neg hp]
      cases flag with
      | false =>
        rw [Bool.not_false, if_pos rfl, ih]
        constructor
        · rintro ⟨l₁, t, l₂, rfl, hone, ht⟩
          rw [Bool.toNat_true] at hone
          exact ⟨p :: l₁, t, l₂, rfl, by rw [hcons, if_neg hp, Bool.toNat_false, Nat.add_zero, hone], ht⟩
        · rintro ⟨l₁, t, l₂, he, hone, ht⟩
          rcases cons_split.mp he with ⟨rfl, _, _⟩ | ⟨l', rfl, hl⟩
          · cases hone
          · rw [hcons, if_neg hp, Bool.toNat_false] at hone
            exact ⟨l', t, l₂, hl, by rw [Bool.toNat_true]; omega, ht⟩
      | true =>
        rw [Bool.not_true, if_neg Bool.false_ne_true, beq_iff_eq]
        constructor
        · exact fun ht => ⟨[], p, l, rfl, rfl, hp, ht⟩
        · rintro ⟨l₁, t, l₂, he, hone, ht⟩
          rcases cons_split.mp he with ⟨_, rfl, _⟩ | ⟨l', rfl, _⟩
          · exact ht.2
          · rw [hcons, if_neg hp, Bool.toNat_true] at hone
            omega

end Lines

/-! ## Palaces -/

theorem inJiugong_iff (p : ℤ) : inJiugong p = true ↔
    ((3 ≤ p/16 ∧ p/16 ≤ 5) ∨ (10 ≤ p/16 ∧ p/16 ≤ 12)) ∧ 6 ≤ p%16 ∧ p%16 ≤ 8 := by
  have hall : ∀ r < 10, ∀ c < 9, (jiugong.getD r []).getD c 0 ≠ 0 ↔ (r ≤ 2 ∨ 7 ≤ r) ∧ 3 ≤ c ∧ c ≤ 5 := by decide
  have hin : ((3 ≤ p/16 ∧ p/16 ≤ 12) ∧ 3 ≤ p%16 ∧ p%16 ≤ 11) → (inJiugong p = true ↔
      ((3 ≤ p/16 ∧ p/16 ≤ 5) ∨ (10 ≤ p/16 ∧ p/16 ≤ 12)) ∧ 6 ≤ p%16 ∧ p%16 ≤ 8) := by
    rintro ⟨⟨h1, h2⟩, h3, h4⟩
    rw [inJiugong, bne_iff_ne, grid, boardTop, boardLeft, if_pos ⟨h1, h3⟩, hall _ (by omega) _ (by omega)]
    omega
  constructor
  · intro h
    exact (hin ((inQipan_iff p).mp (inJiugong_inQipan h))).mp h
  · intro h
    exact (hin (by omega)).mpr h

theorem palace_red {p : ℤ} : Palace .red p ↔ (10 ≤ p/16 ∧ p/16 ≤ 12) ∧ 6 ≤ p%16 ∧ p%16 ≤ 8 := by
  rw [Palace, inJiugong_iff]
  omega

theorem palace_black {p : ℤ} : Palace .black p ↔ (3 ≤ p/16 ∧ p/16 ≤ 5) ∧ 6 ≤ p%16 ∧ p%16 ≤ 8 := by
  rw [Palace, inJiugong_iff]
  omega

/-! ## Attackers of the general -/

section Attackers

variable {g : Xiangqi} {p s : ℤ}

theorem codeOf_red : codeOf .red = 8 := rfl

theorem codeOf_black : codeOf .black = 16 := rfl

theorem selfSide_code (g : Xiangqi) : g.selfSide = codeOf g.turnToPlay := rfl

theorem oppositeSide_code (g : Xiangqi) : g.oppositeSide = codeOf g.turnToPlay.other := by
  rw [oppositeSide]
  cases g.turnToPlay <;> rfl

/-- A piece of a kind of the other side. -/
theorem opposite_ne_zero {k : ℕ} (h : g.board s = g.oppositeSide+k) : g.board s ≠ 0 := by
  rw [h, oppositeSide_code, codeOf]
  omega

theorem palace_inside {t : Side} (h : Palace t p) : inQipan p = true := inJiugong_inQipan h.1

/-- Generals, advisers and elephants do not reach the palace of the other side. -/
theorem near_kinds (hp : Palace g.turnToPlay p) :
    (Palace g.turnToPlay.other s → canJsMove ⟨s, p⟩ = false ∧ canShiMove ⟨s, p⟩ = false) ∧
      g.changeSide.canXiangMove ⟨s, p⟩ = false := by
  constructor
  · intro hs
    have hfar : ∀ d, -17 ≤ d → d ≤ 17 → s+d ≠ p := by
      intro d hlow hhigh
      cases ht : g.turnToPlay with
      | red =>
        rw [ht] at hp hs
        have hs' := palace_black.mp hs
        have hp' := palace_red.mp hp
        omega
      | black =>
        rw [ht] at hp hs
        have hs' := palace_red.mp hs
        have hp' := palace_black.mp hp
        omega
    have hnone : ∀ l : List ℤ, (∀ d ∈ l, -17 ≤ d ∧ d ≤ 17) → (l.any fun d => s+d == p) = false := by
      intro l hl
      rw [List.any_eq_false]
      intro d hd
      rw [beq_iff_eq]
      exact hfar d (hl d hd).1 (hl d hd).2
    rw [canJsMove, canShiMove, hnone jsMove (by decide), hnone shiMove (by decide), Bool.and_false]
    exact ⟨rfl, rfl⟩
  · have hside : g.changeSide.atSelfSide p = false := by
      rw [atSelfSide, changeSide]
      cases ht : g.turnToPlay with
      | red =>
        rw [ht] at hp
        exact decide_eq_false (not_lt.mpr hp.2.le)
      | black =>
        rw [ht] at hp
        exact decide_eq_false (not_lt.mpr hp.2.le)
    rw [canXiangMove, hside, Bool.and_false, Bool.false_and]

/-- The table of legs seen from the general is the one of the horse. -/
theorem legs_agree : (∀ x ∈ maMove.zip jsMatui, ∃ y ∈ maMove.zip matui, y.1 = -x.1 ∧ x.1+y.2 = x.2) ∧
    ∀ y ∈ maMove.zip matui, ∃ x ∈ maMove.zip jsMatui, x.1 = -y.1 ∧ x.2 = y.2-y.1 := by
  decide

theorem ma_attacks (hp : inQipan p = true) : g.isJiangjunByMa p = true ↔
    ∃ s, g.board s = g.oppositeSide+pieceMa ∧ g.changeSide.canMaMove ⟨s, p⟩ = true := by
  simp only [isJiangjunByMa, canMaMove, hp, Bool.true_and, List.any_eq_true, Bool.and_eq_true, beq_iff_eq]
  constructor
  · rintro ⟨x, hx, hma, hleg⟩
    obtain ⟨y, hy, hback, hsame⟩ := legs_agree.1 x hx
    refine ⟨p+x.1, hma, y, hy, by omega, ?_⟩
    change g.board (p+x.1+y.2) = 0
    rw [add_assoc, hsame, add_comm]
    exact hleg
  · rintro ⟨s, hma, y, hy, hmove, hleg⟩
    obtain ⟨x, hx, hback, hsame⟩ := legs_agree.2 y hy
    have hstart : p+x.1 = s := by omega
    have hcell : x.2+p = s+y.2 := by omega
    refine ⟨x, hx, by rw [hstart]; exact hma, ?_⟩
    rw [hcell]
    exact hleg

theorem bz_attacks (hp : Palace g.turnToPlay p) : g.isJiangjunByBz p = true ↔
    ∃ s, g.board s = g.oppositeSide+pieceBz ∧ g.changeSide.canBzMove ⟨s, p⟩ = true := by
  have hside : g.changeSide.atOppositeSide p = true := by
    rw [atOppositeSide, changeSide]
    cases ht : g.turnToPlay with
    | red =>
      rw [ht] at hp
      exact decide_eq_true hp.2
    | black =>
      rw [ht] at hp
      exact decide_eq_true hp.2
  have hmove : ∀ s, g.changeSide.canBzMove ⟨s, p⟩ = true ↔ s = g.getForward p ∨ s = p+1 ∨ s = p-1 := by
    intro s
    have hforward : g.changeSide.getForward s = p ↔ s = g.getForward p := by
      rw [getForward, getForward, changeSide]
      cases g.turnToPlay with
      | red =>
        simp only [Side.other]
        omega
      | black =>
        simp only [Side.other]
        omega
    rw [canBzMove, palace_inside hp, Bool.not_true, if_neg Bool.false_ne_true, hside, Bool.true_and]
    simp only [Bool.or_eq_true, beq_iff_eq]
    by_cases haside : p+1 = s ∨ p-1 = s
    · rw [if_pos haside]
      exact iff_of_true rfl (.inr (haside.imp Eq.symm Eq.symm))
    · rw [if_neg haside, beq_iff_eq, hforward]
      constructor
      · exact .inl
      · rintro (h | h | h)
        · exact h
        · exact absurd (.inl h.symm) haside
        · exact absurd (.inr h.symm) haside
  simp only [hmove]
  rw [isJiangjunByBz]
  simp only [Bool.or_eq_true, beq_iff_eq]
  constructor
  · rintro ((h | h) | h)
    · exact ⟨_, h, .inl rfl⟩
    · exact ⟨_, h, .inr (.inl rfl)⟩
    · exact ⟨_, h, .inr (.inr rfl)⟩
  · rintro ⟨s, h, rfl | rfl | rfl⟩
    · exact .inl (.inl h)
    · exact .inl (.inr h)
    · exact .inr h

theorem ju_attacks (h : Placed g) (hp : inQipan p = true) (hown : g.board p = g.selfSide+pieceJs) :
    g.isJiangjunByJujs p = true ↔
      (∃ s, g.board s = g.oppositeSide+pieceJu ∧ g.changeSide.canJuMove ⟨s, p⟩ = some true) ∨
      ∃ q, g.board q = g.oppositeSide+pieceJs ∧ ∃ delta ∈ jsMove, ∃ l₁ l₂,
        lineFrom delta p = l₁ ++ q :: l₂ ∧ ∀ r ∈ l₁, g.board r = 0 := by
  have hback : ∀ l : List ℤ, (∀ q ∈ l, g.board q = 0) → ∀ q ∈ l.reverse, g.board q = 0 :=
    fun l hl q hq => hl q (List.mem_reverse.mp hq)
  have hju : ∀ s, g.board s = g.oppositeSide+pieceJu → (g.changeSide.canJuMove ⟨s, p⟩ = some true ↔
      ∃ delta ∈ jsMove, ∃ l₁ l₂, lineFrom delta p = l₁ ++ s :: l₂ ∧ ∀ q ∈ l₁, g.board q = 0) := by
    intro s hs
    have hin : inQipan s = true := (h s (opposite_ne_zero hs)).1
    have hne : s ≠ p := by
      rintro rfl
      rw [hs, selfSide_code, oppositeSide_code, codeOf, codeOf, pieceJu, pieceJs] at hown
      cases ht : g.turnToPlay <;> rw [ht] at hown <;> cases hown
    have hcan := canJu_iff (g := g.changeSide) (m := ⟨s, p⟩) hne hin
    have hline := line_to (m := ⟨s, p⟩) (Q := fun l => ∀ q ∈ l, g.board q = 0) hin hne
    refine (hcan.trans hline.symm).trans ⟨lines_back hback hin, lines_back hback hp⟩
  simp only [isJiangjunByJujs, List.any_eq_true, jujsOn_iff]
  constructor
  · rintro ⟨delta, hd, l₁, t, l₂, hl, hfree, _, hju' | hjs⟩
    · exact .inl ⟨t, hju', (hju t hju').mpr ⟨delta, hd, l₁, l₂, hl, hfree⟩⟩
    · exact .inr ⟨t, hjs, delta, hd, l₁, l₂, hl, hfree⟩
  · rintro (⟨s, hs, hcan⟩ | ⟨q, hq, delta, hd, l₁, l₂, hl, hfree⟩)
    · obtain ⟨delta, hd, l₁, l₂, hl, hfree⟩ := (hju s hs).mp hcan
      exact ⟨delta, hd, l₁, s, l₂, hl, hfree, opposite_ne_zero hs, .inl hs⟩
    · exact ⟨delta, hd, l₁, q, l₂, hl, hfree, opposite_ne_zero hq, .inr hq⟩

theorem pieces_reverse (l : List ℤ) : pieces g l.reverse = pieces g l := List.countP_reverse

theorem pao_attacks (h : Placed g) (hp : inQipan p = true) (hown : g.board p = g.selfSide+pieceJs) :
    g.isJiangjunByPao p = true ↔
      ∃ s, g.board s = g.oppositeSide+piecePao ∧ g.changeSide.canPaoMove ⟨s, p⟩ = some true := by
  have hp0 : g.board p ≠ 0 := by
    rw [hown, selfSide_code, codeOf]
    omega
  have hback : ∀ l : List ℤ, pieces g l = 1 → pieces g l.reverse = 1 := fun l hl => (pieces_reverse l).trans hl
  have hpao : ∀ s, g.board s = g.oppositeSide+piecePao → (g.changeSide.canPaoMove ⟨s, p⟩ = some true ↔
      ∃ delta ∈ jsMove, ∃ l₁ l₂, lineFrom delta p = l₁ ++ s :: l₂ ∧ pieces g l₁ = 1) := by
    intro s hs
    have hin : inQipan s = true := (h s (opposite_ne_zero hs)).1
    have hne : s ≠ p := by
      rintro rfl
      rw [hs, selfSide_code, oppositeSide_code, codeOf, codeOf, piecePao, pieceJs] at hown
      cases ht : g.turnToPlay <;> rw [ht] at hown <;> cases hown
    have hcan := canPao_iff (g := g.changeSide) (m := ⟨s, p⟩) hne hin
    have hline := line_to (m := ⟨s, p⟩) (Q := fun l => pieces g l = 1) hin hne
    have hone : ∀ l, ((pieces g.changeSide l = 1 ∧ g.changeSide.board p ≠ 0) ∨
        (pieces g.changeSide l = 0 ∧ g.changeSide.board p = 0)) ↔ pieces g l = 1 := by
      intro l
      constructor
      · rintro (⟨hl, _⟩ | ⟨_, hz⟩)
        · exact hl
        · exact absurd hz hp0
      · exact fun hl => .inl ⟨hl, hp0⟩
    simp only [hone] at hcan
    exact (hcan.trans hline.symm).trans ⟨lines_back hback hin, lines_back hback hp⟩
  simp only [isJiangjunByPao, List.any_eq_true, paoOn_iff, Bool.toNat_false, Nat.add_zero]
  constructor
  · rintro ⟨delta, hd, l₁, t, l₂, hl, hone, _, ht⟩
    exact ⟨t, ht, (hpao t ht).mpr ⟨delta, hd, l₁, l₂, hl, hone⟩⟩
  · rintro ⟨s, hs, hcan⟩
    obtain ⟨delta, hd, l₁, l₂, hl, hone⟩ := (hpao s hs).mp hcan
    exact ⟨delta, hd, l₁, s, l₂, hl, hone, opposite_ne_zero hs, hs⟩

/-- Generals that see each other stand on one column. -/
theorem facing_iff {a b : ℤ} (ha : Palace .red a) (hb : Palace .black b) :
    (∃ delta ∈ jsMove, ∃ l₁ l₂, lineFrom delta a = l₁ ++ b :: l₂ ∧ ∀ r ∈ l₁, g.board r = 0) ↔
      a%16 = b%16 ∧ ∀ r, r%16 = a%16 → b < r → r < a → g.board r = 0 := by
  have ha' := palace_red.mp ha
  have hb' := palace_black.mp hb
  constructor
  · rintro ⟨delta, hd, l₁, l₂, hl, hfree⟩
    obtain ⟨hw, hb1, _, hlt⟩ := line_split hl
    have hdelta : delta = -16 := by
      simp only [jsMove, List.mem_cons, List.not_mem_nil, or_false] at hd
      rcases hd with rfl | rfl | rfl | rfl <;> omega
    subst hdelta
    refine ⟨by omega, fun r hr hbr hra => hfree r ?_⟩
    rw [hw, mem_walk]
    exact ⟨(a/16-r/16-1).toNat, by omega, by omega⟩
  · rintro ⟨hcol, hfree⟩
    have hreach : ∀ j ≤ (a/16-b/16-1).toNat, inQipan (a+ -16+(j : ℤ)* -16) = true := by
      intro j hj
      rw [inQipan_iff]
      omega
    obtain ⟨l₂, hl⟩ := line_reaches (n := 10) (by omega) hreach
    have hb1 : a+ -16+((a/16-b/16-1).toNat : ℤ)* -16 = b := by omega
    rw [hb1] at hl
    refine ⟨-16, by decide, _, l₂, hl, fun r hr => ?_⟩
    obtain ⟨j, hj, rfl⟩ := mem_walk.mp hr
    exact hfree _ (by omega) (by omega) (by omega)

end Attackers

/-! ## Check detection -/

section Check

variable {g : Xiangqi}

theorem jsPosition_eq {p : ℤ} (hp : inQipan p = true) (hown : ∀ q, g.board q = g.selfSide+pieceJs ↔ q = p) :
    g.jsPosition = p := by
  have hin := (inQipan_iff p).mp hp
  rw [jsPosition]
  cases hf : ((List.range 256).map fun i : ℕ => (i : ℤ)).find? fun q => g.board q == g.selfSide+pieceJs with
  | none =>
    have hnone := List.find?_eq_none.mp hf p (List.mem_map.mpr ⟨p.toNat, List.mem_range.mpr (by omega), by omega⟩)
    rw [beq_iff_eq] at hnone
    exact absurd ((hown p).mpr rfl) hnone
  | some q =>
    have hq := List.find?_some hf
    rw [beq_iff_eq] at hq
    exact (hown q).mp hq

theorem bits_own (t : Side) {k : ℕ} (hk : k ≤ 6) : ((8+t.no*8) &&& (codeOf t+k) != 0) = true := by
  cases t <;> interval_cases k <;> decide

theorem bits_other (t : Side) : ((8+t.other.no*8) &&& (codeOf t+pieceJs) != 0) = false := by
  cases t <;> decide

/-- The pieces of the other side that could move to the general's square, by kinds. -/
theorem pseudo_iff {p : ℤ} (h : Arranged g) (hp : Palace g.turnToPlay p)
    (hown : ∀ q, g.board q = g.selfSide+pieceJs ↔ q = p) :
    (∃ m, Pseudo g.changeSide m ∧ g.board m.target = g.selfSide+pieceJs) ↔
      ∃ s k, k ≤ 6 ∧ g.board s = g.oppositeSide+k ∧ canKind g.changeSide ⟨s, p⟩ k = some true := by
  have hplaced : Placed g.changeSide := h.placed
  have hside : g.changeSide.selfSide = g.oppositeSide := (oppositeSide_code g).symm
  constructor
  · rintro ⟨⟨s, t⟩, ⟨hself, _, hcan⟩, htarget⟩
    obtain rfl := (hown t).mp htarget
    obtain ⟨k, hk, hb⟩ := self_code hplaced hself
    rw [can_kind hk hb] at hcan
    exact ⟨s, k, hk, hside ▸ hb, hcan⟩
  · rintro ⟨s, k, hk, hb, hcan⟩
    refine ⟨⟨s, p⟩, ⟨?_, ⟨palace_inside hp, ?_⟩, ?_⟩, (hown p).mpr rfl⟩
    · have hb' : g.changeSide.board s = codeOf g.turnToPlay.other+k := hb.trans (by rw [oppositeSide_code])
      rw [isSelfPiece, hb']
      exact bits_own g.turnToPlay.other hk
    · have hb' : g.changeSide.board p = codeOf g.turnToPlay+pieceJs := (hown p).mpr rfl
      rw [isSelfPiece, hb']
      exact bits_other g.turnToPlay
    · rw [can_kind hk (hside ▸ hb)]
      exact hcan

theorem facing_generals {p q : ℤ} (hp : Palace g.turnToPlay p) (hq : Palace g.turnToPlay.other q)
    (hown : ∀ r, g.board r = codeOf g.turnToPlay+pieceJs ↔ r = p)
    (hopp : ∀ r, g.board r = codeOf g.turnToPlay.other+pieceJs ↔ r = q) :
    (∃ delta ∈ jsMove, ∃ l₁ l₂, lineFrom delta p = l₁ ++ q :: l₂ ∧ ∀ r ∈ l₁, g.board r = 0) ↔ Facing g := by
  have hback : ∀ l : List ℤ, (∀ r ∈ l, g.board r = 0) → ∀ r ∈ l.reverse, g.board r = 0 :=
    fun l hl r hr => hl r (List.mem_reverse.mp hr)
  have hfacing : ∀ {a b : ℤ}, Palace .red a → Palace .black b → (∀ r, g.board r = codeOf .red+pieceJs ↔ r = a) →
      (∀ r, g.board r = codeOf .black+pieceJs ↔ r = b) →
      ((∃ delta ∈ jsMove, ∃ l₁ l₂, lineFrom delta a = l₁ ++ b :: l₂ ∧ ∀ r ∈ l₁, g.board r = 0) ↔ Facing g) := by
    intro a b ha hb hred hblack
    rw [facing_iff ha hb]
    constructor
    · exact fun ⟨hcol, hfree⟩ => ⟨a, b, (hred a).mpr rfl, (hblack b).mpr rfl, hcol, hfree⟩
    · rintro ⟨a', b', ha', hb', hcol, hfree⟩
      obtain rfl := (hred a').mp ha'
      obtain rfl := (hblack b').mp hb'
      exact ⟨hcol, hfree⟩
  cases ht : g.turnToPlay with
  | red =>
    rw [ht] at hp hq hown hopp
    exact hfacing hp hq hown hopp
  | black =>
    rw [ht] at hp hq hown hopp
    rw [← hfacing hq hp hopp hown]
    exact ⟨lines_back hback (palace_inside hp), lines_back hback (palace_inside hq)⟩

/-- The side to move is in check if and only if a piece of the other side could move to its
general, or the generals face each other. -/
theorem check_exact (h : Arranged g) : g.isJiangjun = true ↔
    (∃ m, Pseudo g.changeSide m ∧ g.board m.target = g.selfSide+pieceJs) ∨ Facing g := by
  obtain ⟨p, hp, hown⟩ := h.general g.turnToPlay
  obtain ⟨q, hq, hopp⟩ := h.general g.turnToPlay.other
  have hin := palace_inside hp
  have hcheck : g.isJiangjun = true ↔ g.isJiangjunByJujs p = true ∨ g.isJiangjunByMa p = true ∨
      g.isJiangjunByPao p = true ∨ g.isJiangjunByBz p = true := by
    rw [isJiangjun, jsPosition_eq hin hown]
    simp only [Bool.or_eq_true, or_assoc]
  have hface : (∃ r, g.board r = g.oppositeSide+pieceJs ∧ ∃ delta ∈ jsMove, ∃ l₁ l₂,
      lineFrom delta p = l₁ ++ r :: l₂ ∧ ∀ c ∈ l₁, g.board c = 0) ↔ Facing g := by
    rw [← facing_generals hp hq hown hopp]
    constructor
    · rintro ⟨r, hr, hline⟩
      obtain rfl := (hopp r).mp (hr.trans (by rw [oppositeSide_code]))
      exact hline
    · exact fun hline => ⟨q, ((hopp q).mpr rfl).trans (by rw [oppositeSide_code]), hline⟩
  rw [hcheck, ju_attacks h.placed hin ((hown p).mpr rfl), ma_attacks hin,
    pao_attacks h.placed hin ((hown p).mpr rfl), bz_attacks hp, hface, pseudo_iff h hp hown]
  constructor
  · rintro ((⟨s, hs, hcan⟩ | hf) | ⟨s, hs, hcan⟩ | ⟨s, hs, hcan⟩ | ⟨s, hs, hcan⟩)
    · exact .inl ⟨s, 4, by decide, hs, hcan⟩
    · exact .inr hf
    · exact .inl ⟨s, 3, by decide, hs, congrArg some hcan⟩
    · exact .inl ⟨s, 5, by decide, hs, hcan⟩
    · exact .inl ⟨s, 6, by decide, hs, congrArg some hcan⟩
  · rintro (⟨s, k, hk, hs, hcan⟩ | hf)
    · obtain ⟨hnear, hxiang⟩ := near_kinds (s := s) hp
      interval_cases k
      · have hsq : s = q := (hopp s).mp (hs.trans (by rw [oppositeSide_code, pieceJs]))
        rw [canKind, (hnear (hsq ▸ hq)).1] at hcan
        cases hcan
      · have hpal := h.adviser g.turnToPlay.other s (hs.trans (by rw [oppositeSide_code, pieceShi]))
        rw [canKind, (hnear hpal).2] at hcan
        cases hcan
      · rw [canKind, hxiang] at hcan
        cases hcan
      · exact .inr (.inl ⟨s, hs, Option.some.inj hcan⟩)
      · exact .inl (.inl ⟨s, hs, hcan⟩)
      · exact .inr (.inr (.inl ⟨s, hs, hcan⟩))
      · exact .inr (.inr (.inr ⟨s, hs, Option.some.inj hcan⟩))
    · exact .inl (.inr hf)

/-- The generals on different columns, and a black chariot in sight of the red one. -/
def rooked : Xiangqi :=
  ⟨fun p => if p = 12*16+6 then 8 else if p = 3*16+8 then 16 else if p = 8*16+6 then 20 else 0, .red, 0, 0, 0, fun _ => 0⟩

theorem rooked_arranged : Arranged rooked := by
  have hboard : ∀ p, rooked.board p = if p = 198 then 8 else if p = 56 then 16 else if p = 134 then 20 else 0 := by
    intro p
    rfl
  refine ⟨fun p hp => ?_, fun s => ?_, fun s p hp => ?_⟩
  · rw [hboard] at hp ⊢
    split at hp
    next h =>
      subst h
      decide
    next h1 =>
      rw [if_neg h1]
      split at hp
      next h =>
        subst h
        decide
      next h2 =>
        rw [if_neg h2]
        split at hp
        next h =>
          subst h
          decide
        next => exact absurd rfl hp
  · cases s with
    | red =>
      refine ⟨198, by decide, fun q => ?_⟩
      rw [hboard, codeOf_red, pieceJs]
      split
      next h => exact iff_of_true rfl h
      next h =>
        refine iff_of_false ?_ h
        split
        · decide
        · split <;> decide
    | black =>
      refine ⟨56, by decide, fun q => ?_⟩
      rw [hboard, codeOf_black, pieceJs]
      split
      next h => exact iff_of_false (by decide) (by omega)
      next h =>
        split
        next h => exact iff_of_true rfl h
        next h =>
          refine iff_of_false ?_ h
          split <;> decide
  · rw [hboard, pieceShi] at hp
    exfalso
    revert hp
    cases s <;> (repeat' split) <;> decide

theorem check_exact_rooked : rooked.isJiangjun = true ↔
    (∃ m, Pseudo rooked.changeSide m ∧ rooked.board m.target = rooked.selfSide+pieceJs) ∨ Facing rooked :=
  check_exact rooked_arranged

end Check

end BabyOS.XiangqiChecks

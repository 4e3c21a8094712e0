import BabyOS.XiangqiCells

/-!
# How many moves a position has

No kind of piece becomes more numerous in a game, and each piece of a kind has so many moves
at most. In the palace only one piece can stand in the centre, where it has more moves than
elsewhere.
-/

set_option autoImplicit false

namespace BabyOS.XiangqiCounts
open BabyOS.XiangqiBoard BabyOS.XiangqiBoard.Xiangqi BabyOS.XiangqiMoves BabyOS.XiangqiSearch
open BabyOS.XiangqiChecks BabyOS.XiangqiCells

/-! ## Weights -/

/-- Everything weighs what its kind does, and one thing may weigh more. -/
theorem sum_le_weights {α : Type} [DecidableEq α] (S : Finset α) (kind f : α → ℕ) (w : ℕ → ℕ) (n : ℕ) (z : α) (e : ℕ)
    (h : ∀ p ∈ S, f p ≤ (if kind p < n then w (kind p) else 0)+if p = z then e else 0) :
    ∑ p ∈ S, f p ≤ ∑ k ∈ Finset.range n, w k*(S.filter (kind · = k)).card+e := by
  have hone : ∀ p, (if kind p < n then w (kind p) else 0) = ∑ k ∈ Finset.range n, if kind p = k then w k else 0 := by
    intro p
    rw [Finset.sum_ite_eq]
    simp only [Finset.mem_range]
  have hkinds : ∑ p ∈ S, (if kind p < n then w (kind p) else 0) =
      ∑ k ∈ Finset.range n, w k*(S.filter (kind · = k)).card := by
    simp only [hone]
    rw [Finset.sum_comm]
    refine Finset.sum_congr rfl fun k _ => ?_
    rw [← Finset.sum_filter, Finset.sum_const, smul_eq_mul, Nat.mul_comm]
  have hextra : ∑ p ∈ S, (if p = z then e else 0) ≤ e := by
    rw [Finset.sum_ite_eq']
    split
    · exact le_rfl
    · exact Nat.zero_le e
  calc ∑ p ∈ S, f p ≤ ∑ p ∈ S, ((if kind p < n then w (kind p) else 0)+if p = z then e else 0) := Finset.sum_le_sum h
    _ = ∑ k ∈ Finset.range n, w k*(S.filter (kind · = k)).card+∑ p ∈ S, (if p = z then e else 0) := by
      rw [Finset.sum_add_distrib, hkinds]
    _ ≤ _ := Nat.add_le_add_left hextra _

/-- At most one for each element of a list that is counted. -/
theorem flatMap_length_le {α β : Type} (l : List α) (f : α → List β) (p : α → Bool)
    (h : ∀ a, (f a).length ≤ if p a then 1 else 0) : (l.flatMap f).length ≤ l.countP p := by
  induction l with
  | nil => exact le_rfl
  | cons a l ih =>
    have ha := h a
    rw [List.flatMap_cons, List.length_append, List.countP_cons]
    omega

/-! ## The moves of a piece -/

section Moves

variable {g : Xiangqi} {eat : Bool} {position target : ℤ}

theorem addTested_length (g : Xiangqi) (position target : ℤ) : (g.addTested position target).length ≤ 1 :=
  (addTested_sublist target).length_le

theorem stepMoves_length (region : ℤ → Bool) (steps : List ℤ) :
    (g.stepMoves eat region position steps).length ≤ steps.countP fun d => region (position+d) := by
  refine flatMap_length_le _ _ _ fun d => ?_
  by_cases hr : region (position+d) = true
  · rw [hr, Bool.not_true, if_neg Bool.false_ne_true, if_pos rfl]
    split
    · exact addTested_length g _ _
    · exact Nat.zero_le 1
  · rw [if_neg hr, if_pos (by simpa using hr)]
    exact le_rfl

theorem leapMoves_length (region : ℤ → Bool) (steps : List (ℤ × ℤ)) :
    (g.leapMoves eat region position steps).length ≤ steps.length := by
  refine (flatMap_length_le _ _ (fun _ => true) fun x => ?_).trans List.countP_le_length
  rw [if_pos rfl]
  split
  · exact Nat.zero_le 1
  · split
    · exact addTested_length g _ _
    · exact Nat.zero_le 1

/-- A line of a rook ends with the first piece that it meets. -/
theorem juLine_eats (l : List ℤ) : (g.juLine true position l).length ≤ 1 := by
  induction l with
  | nil => exact Nat.zero_le 1
  | cons q rest ih =>
    rw [juLine]
    split
    · exact ih
    · split
      · exact addTested_length g _ _
      · exact Nat.zero_le 1

theorem paoLine_eats (flag : Bool) (l : List ℤ) : (g.paoLine true position flag l).length ≤ 1 := by
  induction l generalizing flag with
  | nil => exact Nat.zero_le 1
  | cons q rest ih =>
    rw [paoLine]
    split
    · exact ih flag
    · split
      · exact ih true
      · split
        · exact addTested_length g _ _
        · exact Nat.zero_le 1

theorem bzMoves_length : (g.bzMoves eat position).length ≤ 3 := by
  have hstep : ∀ t, (g.bzStep eat position t).length ≤ 1 := by
    intro t
    rw [bzStep]
    split
    · exact addTested_length g _ _
    · exact Nat.zero_le 1
  have hforward := hstep (g.getForward position)
  have hright := hstep (position+1)
  have hleft := hstep (position-1)
  rw [bzMoves, List.length_append]
  split
  · rw [List.length_append]
    omega
  · simp only [List.length_nil]
    omega

/-- A row and a column without the square where they meet. -/
theorem lines_length (hp : inQipan position = true) :
    (jsMove.map fun delta => (lineFrom delta position).length).sum = 17 := by
  have hall : ∀ p ∈ positions, (jsMove.map fun delta => (lineFrom delta p).length).sum = 17 := by decide +kernel
  exact hall position ((mem_positions position).mpr hp)

/-- The moves along the four lines. -/
theorem lineMoves_length (f : ℤ → List ℤ → List Move) (hp : inQipan position = true)
    (h : ∀ delta l, (f delta l).length ≤ l.length) :
    (jsMove.flatMap fun delta => f delta (lineFrom delta position)).length ≤ 17 := by
  rw [List.length_flatMap, ← lines_length hp]
  exact List.sum_le_sum fun delta _ => h delta _

theorem lineMoves_eats (f : ℤ → List Move) (h : ∀ delta, (f delta).length ≤ 1) : (jsMove.flatMap f).length ≤ 4 :=
  (flatMap_length_le jsMove f (fun _ => true) fun delta => h delta).trans (by decide)

/-- The centre of a palace. -/
def centre : Side → ℤ
  | .red => 183
  | .black => 71

theorem palace_steps {s : Side} (hp : Palace s position) :
    (jsMove.countP fun d => inJiugong (position+d)) ≤ 3+(if position = centre s then 1 else 0) ∧
      (shiMove.countP fun d => inJiugong (position+d)) ≤ 2+if position = centre s then 2 else 0 := by
  have hall : ∀ s : Side, ∀ p ∈ positions, Palace s p →
      (jsMove.countP fun d => inJiugong (p+d)) ≤ 3+(if p = centre s then 1 else 0) ∧
        (shiMove.countP fun d => inJiugong (p+d)) ≤ 2+if p = centre s then 2 else 0 := by
    intro s
    cases s <;> decide +kernel
  exact hall s position ((mem_positions position).mpr (palace_inside hp)) hp

end Moves

/-! ## The moves of a side -/

def squares : Finset ℤ := positions.toFinset

theorem mem_squares (p : ℤ) : p ∈ squares ↔ inQipan p = true := by
  rw [squares, List.mem_toFinset, mem_positions]

/-- The squares with a piece. -/
def held (g : Xiangqi) (c : ℕ) : Finset ℤ := squares.filter (g.board · = c)

/-- The numbers of pieces of the kinds that a side begins with. -/
def pieceCount (k : ℕ) : ℕ := [1, 2, 2, 2, 2, 2, 5].getD k 0

/-- Moves that one piece of a kind has at most. -/
def allWeight (k : ℕ) : ℕ := [4, 4, 4, 8, 17, 17, 3].getD k 0

/-- Moves that eat, for generals and advisers outside of the centre. -/
def eatWeight (k : ℕ) : ℕ := [3, 2, 4, 8, 4, 4, 3].getD k 0

/-- The two sides have no more pieces of any kind than in the beginning. -/
def Few (g : Xiangqi) : Prop := ∀ s, ∀ k ≤ 6, (held g (codeOf s+k)).card ≤ pieceCount k

section Sides

variable {g : Xiangqi} {eat : Bool} {position : ℤ} {k : ℕ}

theorem kindMoves_length (hk : k ≤ 6) (hp : inQipan position = true) :
    (kindMoves g false position k).length ≤ allWeight k := by
  interval_cases k
  · exact (stepMoves_length _ _).trans List.countP_le_length
  · exact (stepMoves_length _ _).trans List.countP_le_length
  · exact leapMoves_length (fun target => inQipan target && !g.atOppositeSide target) (xiangMove.zip xiangyan)
  · exact leapMoves_length inQipan (maMove.zip matui)
  · exact lineMoves_length (fun _ => g.juLine false position) hp fun _ l =>
      (juLine_sublist false l).length_le.trans_eq (List.length_map _)
  · exact lineMoves_length (fun _ => g.paoLine false position false) hp fun _ l =>
      (paoLine_sublist false false l).length_le.trans_eq (List.length_map _)
  · exact bzMoves_length

theorem kindMoves_eats (hk : k ≤ 6) (hpalace : k ≤ 1 → Palace g.turnToPlay position) :
    (kindMoves g true position k).length ≤ eatWeight k+if position = centre g.turnToPlay then 2 else 0 := by
  interval_cases k
  · have hsteps := (palace_steps (hpalace (by decide))).1
    refine (stepMoves_length inJiugong jsMove).trans (hsteps.trans (Nat.add_le_add_left ?_ 3))
    split <;> decide
  · exact (stepMoves_length inJiugong shiMove).trans (palace_steps (hpalace (by decide))).2
  · exact (leapMoves_length (fun target => inQipan target && !g.atOppositeSide target)
      (xiangMove.zip xiangyan)).trans (Nat.le_add_right _ _)
  · exact (leapMoves_length inQipan (maMove.zip matui)).trans (Nat.le_add_right _ _)
  · exact (lineMoves_eats _ fun _ => juLine_eats _).trans (Nat.le_add_right _ _)
  · exact (lineMoves_eats _ fun _ => paoLine_eats _ _).trans (Nat.le_add_right _ _)
  · exact bzMoves_length.trans (Nat.le_add_right _ _)

/-- The kind of a piece of the side to move; 7 for another square. -/
def ownKind (g : Xiangqi) (p : ℤ) : ℕ := if g.isSelfPiece p then g.board p-g.selfSide else 7

theorem ownKind_self (h : Placed g) (hs : g.isSelfPiece position = true) :
    ∃ k ≤ 6, ownKind g position = k ∧ g.board position = codeOf g.turnToPlay+k := by
  obtain ⟨k, hk, hb⟩ := self_code h hs
  refine ⟨k, hk, ?_, hb⟩
  rw [ownKind, if_pos hs, hb, Nat.add_sub_cancel_left]

theorem ownKind_held (h : Placed g) (hk : k ≤ 6) :
    (squares.filter (ownKind g · = k)).card ≤ (held g (codeOf g.turnToPlay+k)).card := by
  refine Finset.card_le_card fun p hp => ?_
  rw [Finset.mem_filter] at hp
  have hs : g.isSelfPiece p = true := by
    by_contra hn
    rw [ownKind, if_neg hn] at hp
    omega
  obtain ⟨k', -, hkind, hb⟩ := ownKind_self h hs
  rw [held, Finset.mem_filter]
  exact ⟨hp.1, hb.trans (congrArg _ (hkind.symm.trans hp.2))⟩

/-- All moves, square by square. -/
theorem allKinds_length (g : Xiangqi) (eat : Bool) : (allKinds g eat).length =
    ∑ p ∈ squares, if g.isSelfPiece p then (kindMoves g eat p (ownKind g p)).length else 0 := by
  rw [squares, List.sum_toFinset _ positions_nodup, allKinds, List.length_flatMap]
  congr 1
  refine List.map_congr_left fun p _ => ?_
  by_cases hs : g.isSelfPiece p = true
  · rw [if_pos hs, if_pos hs, ownKind, if_pos hs]
  · rw [if_neg hs, if_neg hs]
    rfl

/-- A bound for each kind, and one for the centre of the palace. -/
theorem allKinds_le (eat : Bool) (h : Placed g) (hfew : Few g) (w : ℕ → ℕ) (z : ℤ) (e : ℕ)
    (hw : ∀ p k, k ≤ 6 → inQipan p = true → g.board p = codeOf g.turnToPlay+k →
      (kindMoves g eat p k).length ≤ w k+if p = z then e else 0) :
    (allKinds g eat).length ≤ ∑ k ∈ Finset.range 7, w k*pieceCount k+e := by
  have hsum := sum_le_weights squares (ownKind g)
    (fun p => if g.isSelfPiece p then (kindMoves g eat p (ownKind g p)).length else 0) w 7 z e fun p hp => by
      by_cases hs : g.isSelfPiece p = true
      · obtain ⟨k, hk, hkind, hb⟩ := ownKind_self h hs
        rw [if_pos hs, hkind, if_pos (by omega)]
        exact hw p k hk ((mem_squares p).mp hp) hb
      · rw [if_neg hs]
        exact Nat.zero_le _
  rw [allKinds_length]
  refine hsum.trans (Nat.add_le_add_right (Finset.sum_le_sum fun k hk => Nat.mul_le_mul_left _ ?_) e)
  have hle : k ≤ 6 := Nat.le_of_lt_succ (Finset.mem_range.mp hk)
  exact (ownKind_held h hle).trans (hfew _ k hle)

theorem allMoves_length (h : Placed g) (hfew : Few g) : g.generateAllMoves.length ≤ 119 := by
  rw [generateAllMoves_kinds]
  have hle := allKinds_le false h hfew allWeight 0 0 fun p k hk hp _ =>
    (kindMoves_length hk hp).trans (Nat.le_add_right _ _)
  exact hle.trans (by decide)

theorem allEatMoves_length (h : Arranged g) (hfew : Few g) : g.generateAllEatMoves.length ≤ 64 := by
  rw [generateAllEatMoves_kinds]
  have hle := allKinds_le true h.placed hfew eatWeight (centre g.turnToPlay) 2 fun p k hk _ hb =>
    kindMoves_eats hk fun hpalace => by
      rcases Nat.le_one_iff_eq_zero_or_eq_one.mp hpalace with rfl | rfl
      · obtain ⟨q, hq, hown⟩ := h.general g.turnToPlay
        rw [(hown p).mp hb]
        exact hq
      · exact h.adviser _ p hb
  exact hle.trans (by decide)

end Sides

/-! ## Games -/

section Games

variable {g g' : Xiangqi} {m : Move} {c : ℕ}

theorem held_congr (h : ∀ p, inQipan p = true → g'.board p = g.board p) (c : ℕ) : held g' c = held g c := by
  refine Finset.filter_congr fun p hp => ?_
  rw [h p ((mem_squares p).mp hp)]

theorem few_congr (hfew : Few g) (h : ∀ p, inQipan p = true → g'.board p = g.board p) : Few g' := by
  intro s k hk
  rw [held_congr h]
  exact hfew s k hk

/-- A piece that moves is the same piece, and one that is taken is gone. -/
theorem held_after (hne : m.start ≠ m.target) (hs : inQipan m.start = true) (hc : c ≠ 0) :
    (held (g.movePiece m) c).card ≤ (held g c).card := by
  have hmoved : ∀ p ∈ held (g.movePiece m) c, p ≠ m.start ∧
      (p ∈ held g c ∨ (p = m.target ∧ g.board m.start = c)) := by
    intro p hp
    rw [held, Finset.mem_filter, movePiece_board hne] at hp
    obtain ⟨hsquare, hb⟩ := hp
    have hps : p ≠ m.start := by
      rintro rfl
      rw [Function.update_self] at hb
      exact hc hb.symm
    rw [Function.update_of_ne hps] at hb
    refine ⟨hps, ?_⟩
    by_cases hpt : p = m.target
    · rw [hpt, Function.update_self] at hb
      exact .inr ⟨hpt, hb⟩
    · rw [Function.update_of_ne hpt] at hb
      exact .inl (Finset.mem_filter.mpr ⟨hsquare, hb⟩)
  by_cases hb : g.board m.start = c
  · have hmem : m.start ∈ held g c := Finset.mem_filter.mpr ⟨(mem_squares _).mpr hs, hb⟩
    have hsub : held (g.movePiece m) c ⊆ insert m.target ((held g c).erase m.start) := by
      intro p hp
      obtain ⟨hps, hp | hp⟩ := hmoved p hp
      · exact Finset.mem_insert_of_mem (Finset.mem_erase.mpr ⟨hps, hp⟩)
      · exact hp.1 ▸ Finset.mem_insert_self _ _
    calc (held (g.movePiece m) c).card ≤ (insert m.target ((held g c).erase m.start)).card := Finset.card_le_card hsub
      _ ≤ ((held g c).erase m.start).card+1 := Finset.card_insert_le _ _
      _ = (held g c).card := Finset.card_erase_add_one hmem
  · refine Finset.card_le_card fun p hp => ?_
    obtain ⟨-, hp | hp⟩ := hmoved p hp
    · exact hp
    · exact absurd hp.2 hb

theorem few_after (h : Placed g) (hfew : Few g) (hm : m ∈ g.generateAllMoves) : Few (after g m) := by
  obtain ⟨hpseudo, -⟩ := (generated_iff h m).mp hm
  intro s k hk
  have hc : codeOf s+k ≠ 0 := by
    rw [codeOf]
    omega
  exact (held_after (pseudo_ne hpseudo) (self_inQipan h hpseudo.1) hc).trans (hfew s k hk)

theorem few_initial : Few initial := by
  have hcard : ∀ c, (held initial c).card = (positions.filter (initial.board · = c)).length := by
    intro c
    have heq : held initial c = (positions.filter (initial.board · = c)).toFinset := by
      ext p
      simp [held, squares]
    rw [heq, List.toFinset_card_of_nodup (positions_nodup.filter _)]
  have hall : ∀ s, ∀ k ≤ 6, (positions.filter (initial.board · = codeOf s+k)).length ≤ pieceCount k := by
    intro s
    cases s <;> decide +kernel
  intro s k hk
  rw [hcard]
  exact hall s k hk

/-- What holds in every position of a game, whatever lies around the board. -/
structure Kept (g : Xiangqi) : Prop where
  good : Good (trim g)
  few : Few g

theorem Kept.trimmed (h : Kept g) : Few (trim g) := few_congr h.few fun _ hp => trim_square hp

theorem Kept.congr (h : Kept g) (hboard : g'.board = g.board) (hturn : g'.turnToPlay = g.turnToPlay) : Kept g' := by
  have htrim : (trim g').board = (trim g).board := by
    funext p
    simp only [trim, hboard]
  exact ⟨good_same h.good htrim hturn, few_congr h.few fun p _ => congrFun hboard p⟩

theorem Kept.restored (h : Kept g) (hr : Restored g g') : Kept g' := h.congr hr.board hr.turnToPlay

theorem Kept.after (h : Kept g) (hm : m ∈ g.generateAllMoves) : Kept (after g m) := by
  have hfine := fine_move h.good hm
  rw [← generateAllMoves_trim h.good.arranged.placed h.good.general] at hm
  refine ⟨hfine.good, few_congr (few_after h.good.arranged.placed h.trimmed hm) fun p hp => ?_⟩
  rw [← trim_after hfine.start hfine.target, trim_square hp]

/-- The moves of a position fit their arrays. -/
theorem Kept.lengths (h : Kept g) :
    g.generateAllMoves.length ≤ maxMoves ∧ g.generateAllEatMoves.length ≤ maxEatMoves := by
  rw [← generateAllMoves_trim h.good.arranged.placed h.good.general,
    ← generateAllEatMoves_trim h.good.arranged.placed h.good.general]
  exact ⟨(allMoves_length h.good.arranged.placed h.trimmed).trans (by decide),
    allEatMoves_length h.good.arranged h.trimmed⟩

end Games

end BabyOS.XiangqiCounts

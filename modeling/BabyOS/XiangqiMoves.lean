import BabyOS.XiangqiBoard
import Mathlib.Data.List.TakeWhile

/-!
# The moves of a position

The validator and the two generators agree. Rooks and cannons are the case with
an argument: the generator runs along a line to its end, and the validator from
the piece to the target.
-/

set_option autoImplicit false

namespace BabyOS.XiangqiMoves
open BabyOS.XiangqiBoard BabyOS.XiangqiBoard.Xiangqi

/-- Every piece is one of the fourteen, and stands on a square. -/
def Placed (g : Xiangqi) : Prop :=
  ∀ p, g.board p ≠ 0 → inQipan p = true ∧
    ((8 ≤ g.board p ∧ g.board p ≤ 14) ∨ (16 ≤ g.board p ∧ g.board p ≤ 22))

/-! ## Squares -/

/-- The tables have ten rows and nine columns. -/
theorem grid_inside {rows : List (List ℤ)} {p : ℤ} (hl : rows.length = 10)
    (hr : ∀ row ∈ rows, row.length = 9) (h : grid rows p ≠ 0) :
    (3 ≤ p/16 ∧ p/16 ≤ 12) ∧ 3 ≤ p%16 ∧ p%16 ≤ 11 := by
  rw [grid, boardTop, boardLeft] at h
  split at h
  · rw [List.getD_eq_getElem?_getD, List.getD_eq_getElem?_getD] at h
    cases hrow : rows[(p/16-3).toNat]? with
    | none =>
      rw [hrow] at h
      exact absurd rfl h
    | some row =>
      have ⟨hlt, he⟩ := List.getElem?_eq_some_iff.mp hrow
      have hlen := hr row (he ▸ List.getElem_mem hlt)
      rw [hrow, Option.getD_some] at h
      have hc : (p%16-3).toNat < 9 := by
        by_contra hc
        rw [List.getElem?_eq_none (by omega)] at h
        exact h rfl
      omega
  · exact absurd rfl h

theorem inQipan_iff (p : ℤ) :
    inQipan p = true ↔ (3 ≤ p/16 ∧ p/16 ≤ 12) ∧ 3 ≤ p%16 ∧ p%16 ≤ 11 := by
  rw [inQipan, bne_iff_ne]
  constructor
  · exact grid_inside (by decide) (by decide)
  · intro ⟨⟨h1, h2⟩, h3, h4⟩
    have hall : ∀ r < 10, ∀ c < 9, (qipan.getD r []).getD c 0 = 1 := by decide
    rw [grid, boardTop, boardLeft, if_pos ⟨h1, h3⟩, hall _ (by omega) _ (by omega)]
    exact one_ne_zero

theorem inJiugong_inQipan {p : ℤ} (h : inJiugong p = true) : inQipan p = true := by
  rw [inJiugong, bne_iff_ne] at h
  exact (inQipan_iff p).mpr (grid_inside (by decide) (by decide) h)

theorem mem_positions (p : ℤ) : p ∈ positions ↔ inQipan p = true := by
  rw [inQipan_iff, positions, List.mem_flatMap]
  constructor
  · intro ⟨x, hx, hm⟩
    have ⟨y, hy, he⟩ := List.mem_map.mp hm
    rw [List.mem_range] at hx hy
    rw [boardTop, boardLeft] at he
    omega
  · intro h
    refine ⟨(p%16-3).toNat, List.mem_range.mpr (by omega), List.mem_map.mpr ⟨(p/16-3).toNat, ?_, ?_⟩⟩
    · exact List.mem_range.mpr (by omega)
    · rw [boardTop, boardLeft]
      omega

theorem positions_nodup : positions.Nodup := by decide

/-! ## Pieces -/

section Pieces

variable {g : Xiangqi} {p : ℤ}

/-- A cell is empty, or holds one of seven pieces of one of the sides. -/
theorem piece_cases (h : Placed g) (p : ℤ) :
    (g.board p = 0 ∧ g.isSelfPiece p = false ∧ g.isOppositePiece p = false) ∨
    ((∃ k ≤ 6, g.board p = g.selfSide+k) ∧ g.isSelfPiece p = true ∧ g.isOppositePiece p = false) ∨
    (g.board p ≠ 0 ∧ g.isSelfPiece p = false ∧ g.isOppositePiece p = true) := by
  have hcode := h p
  generalize hb : g.board p = b at hcode ⊢
  cases ht : g.turnToPlay <;> simp only [isSelfPiece, isOppositePiece, selfSide, ht, Side.no, hb]
  all_goals
    by_cases h0 : b = 0
    · exact .inl ⟨h0, by rw [h0]; decide, by rw [h0]; decide⟩
    · rcases (hcode h0).2 with ⟨hl, hr⟩ | ⟨hl, hr⟩
      · first
        | exact .inr (.inl ⟨⟨b-8, by omega, by omega⟩, by interval_cases b <;> decide,
            by interval_cases b <;> decide⟩)
        | exact .inr (.inr ⟨h0, by interval_cases b <;> decide, by interval_cases b <;> decide⟩)
      · first
        | exact .inr (.inl ⟨⟨b-16, by omega, by omega⟩, by interval_cases b <;> decide,
            by interval_cases b <;> decide⟩)
        | exact .inr (.inr ⟨h0, by interval_cases b <;> decide, by interval_cases b <;> decide⟩)

theorem self_code (h : Placed g) (hs : g.isSelfPiece p = true) : ∃ k ≤ 6, g.board p = g.selfSide+k := by
  rcases piece_cases h p with ⟨_, hn, _⟩ | ⟨hk, _⟩ | ⟨_, hn, _⟩
  · rw [hs] at hn
    cases hn
  · exact hk
  · rw [hs] at hn
    cases hn

theorem self_inQipan (h : Placed g) (hs : g.isSelfPiece p = true) : inQipan p = true := by
  refine (h p fun he => ?_).1
  rw [isSelfPiece, he, Nat.and_zero] at hs
  cases hs

theorem opposite_iff (h : Placed g) :
    g.isOppositePiece p = true ↔ g.board p ≠ 0 ∧ g.isSelfPiece p = false := by
  rcases piece_cases h p with ⟨h0, _, ho⟩ | ⟨_, hs, ho⟩ | ⟨h0, hs, ho⟩
  · simp [h0, ho]
  · simp [hs, ho]
  · simp [h0, hs, ho]

theorem empty_self (h : g.board p = 0) : g.isSelfPiece p = false := by
  rw [isSelfPiece, h, Nat.and_zero]
  rfl

end Pieces

/-! ## Lines -/

/-- The next `k` cells from `p` on. -/
def walk (delta : ℤ) : ℕ → ℤ → List ℤ
  | 0, _ => []
  | k+1, p => p :: walk delta k (p+delta)

section Lines

variable {g : Xiangqi} {delta p t : ℤ} {k n : ℕ} {l l₁ l₂ : List ℤ}

theorem js_ne_zero (hd : delta ∈ jsMove) : delta ≠ 0 := by
  rintro rfl
  revert hd
  decide

theorem steps_unique {k' : ℕ} (hd : delta ≠ 0) (h : p+k*delta = p+k'*delta) : k = k' := by
  have he : ((k : ℤ)-k')*delta = 0 := by linarith
  rcases mul_eq_zero.mp he with he | he
  · omega
  · exact absurd he hd

theorem mem_walk : t ∈ walk delta k p ↔ ∃ j < k, t = p+j*delta := by
  induction k generalizing p with
  | zero => simp [walk]
  | succ k ih =>
    rw [walk, List.mem_cons, ih]
    constructor
    · rintro (rfl | ⟨j, hj, rfl⟩)
      · exact ⟨0, by omega, by push_cast; ring⟩
      · exact ⟨j+1, by omega, by push_cast; ring⟩
    · rintro ⟨j, hj, rfl⟩
      cases j with
      | zero => exact .inl (by push_cast; ring)
      | succ j => exact .inr ⟨j, by omega, by push_cast; ring⟩

theorem walk_nodup (hd : delta ≠ 0) : (walk delta k p).Nodup := by
  induction k generalizing p with
  | zero => exact List.nodup_nil
  | succ k ih =>
    rw [walk, List.nodup_cons, mem_walk]
    refine ⟨?_, ih⟩
    rintro ⟨j, _, he⟩
    have hz : ((j : ℤ)+1)*delta = 0 := by linarith
    rcases mul_eq_zero.mp hz with hj | hj
    · omega
    · exact hd hj

theorem line_eq : line delta n p = (walk delta n p).takeWhile inQipan := by
  induction n generalizing p with
  | zero => rfl
  | succ n ih =>
    rw [line, walk, List.takeWhile_cons, ih]

/-- What is before a cell of a line is the way to it. -/
theorem line_split (h : line delta n p = l₁ ++ t :: l₂) :
    l₁ = walk delta l₁.length p ∧ t = p+l₁.length*delta ∧ inQipan t = true ∧ l₁.length < n := by
  induction n generalizing p l₁ with
  | zero => simp [line] at h
  | succ n ih =>
    rw [line] at h
    split at h
    · rename_i hp
      cases l₁ with
      | nil =>
        have ⟨hpt, _⟩ := List.cons.inj h
        refine ⟨rfl, ?_, hpt ▸ hp, Nat.succ_pos n⟩
        rw [List.length_nil, ← hpt]
        push_cast
        ring
      | cons q l₁ =>
        have ⟨hpq, hrest⟩ := List.cons.inj h
        have ⟨hw, ht, hq, hlt⟩ := ih hrest
        rw [List.length_cons, walk, hpq]
        refine ⟨?_, ?_, hq, by omega⟩
        · rw [← hpq]
          exact congrArg _ hw
        · rw [ht, ← hpq]
          push_cast
          ring
    · simp at h

theorem line_reaches (hk : k < n) (h : ∀ j ≤ k, inQipan (p+j*delta) = true) :
    ∃ l₂, line delta n p = walk delta k p ++ (p+k*delta) :: l₂ := by
  induction n generalizing p k with
  | zero => omega
  | succ n ih =>
    have hp : inQipan p = true := by simpa using h 0 (by omega)
    rw [line, if_pos hp]
    cases k with
    | zero => exact ⟨line delta n (p+delta), by simp [walk]⟩
    | succ k =>
      have ⟨l₂, hl⟩ := @ih (p+delta) k (by omega) fun j hj => by
        have hq := h (j+1) (by omega)
        rwa [show p+((j+1 : ℕ) : ℤ)*delta = p+delta+j*delta by push_cast; ring] at hq
      refine ⟨l₂, ?_⟩
      rw [hl, walk, List.cons_append, show p+((k+1 : ℕ) : ℤ)*delta = p+delta+k*delta by push_cast; ring]

/-- The squares behind `position` in steps of `delta`. -/
def room (delta position : ℤ) : ℕ :=
  if delta = 1 then (11-position%16).toNat
  else if delta = -1 then (position%16-3).toNat
  else if delta = 16 then (12-position/16).toNat
  else (position/16-3).toNat

/-- The cell behind them is off the board. -/
theorem room_ends {position : ℤ} (hd : delta ∈ jsMove) (hp : inQipan position = true) :
    room delta position < 10 ∧ inQipan (position+delta+room delta position*delta) = false := by
  rw [← Bool.not_eq_true, inQipan_iff]
  rw [inQipan_iff] at hp
  simp only [jsMove, List.mem_cons, List.not_mem_nil, or_false] at hd
  rcases hd with rfl | rfl | rfl | rfl <;> simp only [room] <;> norm_num <;> omega

/-- The loop of `can_ju_move` looks at the cells between. -/
theorem juFree_eq (hd : delta ≠ 0) (hk : k < n) :
    g.juFree delta (p+k*delta) n p = some (decide (∀ q ∈ walk delta k p, g.board q = 0)) := by
  induction k generalizing p n with
  | zero =>
    cases n with
    | zero => omega
    | succ n => simp [juFree, walk]
  | succ k ih =>
    cases n with
    | zero => omega
    | succ n =>
      have hne : p ≠ p+((k+1 : ℕ) : ℤ)*delta := fun he =>
        absurd (@steps_unique delta p 0 (k+1) hd (by simpa using he)) (by omega)
      rw [juFree, if_neg hne, walk]
      by_cases hb : g.board p = 0
      · rw [if_neg (by simpa using hb), show p+((k+1 : ℕ) : ℤ)*delta = p+delta+k*delta by push_cast; ring,
          ih (by omega)]
        simp [hb]
      · rw [if_pos hb]
        simp [hb]

/-- The loop of `can_pao_move` counts the pieces between. -/
theorem paoCount_eq {num : ℕ} (hd : delta ≠ 0) (hk : k < n) :
    g.paoCount delta (p+k*delta) n num p =
      some (num+(walk delta k p).countP fun q => g.board q != 0) := by
  induction k generalizing p n num with
  | zero =>
    cases n with
    | zero => omega
    | succ n => simp [paoCount, walk]
  | succ k ih =>
    cases n with
    | zero => omega
    | succ n =>
      have hne : p ≠ p+((k+1 : ℕ) : ℤ)*delta := fun he =>
        absurd (@steps_unique delta p 0 (k+1) hd (by simpa using he)) (by omega)
      rw [paoCount, if_neg hne, walk, List.countP_cons,
        show p+((k+1 : ℕ) : ℤ)*delta = p+delta+k*delta by push_cast; ring, ih (by omega)]
      by_cases hb : g.board p = 0
      · simp [hb]
      · simp only [ne_eq, hb, not_false_eq_true, if_true, bne_iff_ne]
        congr 1
        omega

/-- The step between two squares of a row or a column, and the squares between. -/
theorem stepOf_spec {m : Move} (hs : inQipan m.start = true) (ht : inQipan m.target = true)
    (hne : m.start ≠ m.target) (h : stepOf m = some delta) :
    delta ∈ jsMove ∧ ∃ k < 10, m.target = m.start+delta+(k : ℕ)*delta ∧
      ∀ j ≤ k, inQipan (m.start+delta+(j : ℕ)*delta) = true := by
  rw [inQipan_iff] at hs ht
  rw [stepOf, inSameRow, inSameColumn] at h
  simp only [beq_iff_eq] at h
  split at h
  · rename_i hrow
    have hd := Option.some.inj h
    split at hd <;> subst hd
    · refine ⟨by decide, (m.target-m.start-1).toNat, by omega, by omega, fun j hj => ?_⟩
      rw [inQipan_iff]
      omega
    · refine ⟨by decide, (m.start-m.target-1).toNat, by omega, by omega, fun j hj => ?_⟩
      rw [inQipan_iff]
      omega
  · split at h
    · rename_i hcol
      have hd := Option.some.inj h
      split at hd <;> subst hd
      · refine ⟨by decide, ((m.target-m.start)/16-1).toNat, by omega, by omega, fun j hj => ?_⟩
        rw [inQipan_iff]
        omega
      · refine ⟨by decide, ((m.start-m.target)/16-1).toNat, by omega, by omega, fun j hj => ?_⟩
        rw [inQipan_iff]
        omega
    · cases h

/-- A line of squares is one of the steps. -/
theorem stepOf_line {m : Move} (hs : inQipan m.start = true) (hd : delta ∈ jsMove)
    (ht : m.target = m.start+delta+(k : ℕ)*delta)
    (hin : ∀ j ≤ k, inQipan (m.start+delta+(j : ℕ)*delta) = true) : stepOf m = some delta := by
  have hk : k < room delta m.start := by
    by_contra hle
    have hoff := (room_ends hd hs).2
    rw [hin _ (by omega)] at hoff
    cases hoff
  rw [inQipan_iff] at hs
  rw [stepOf, inSameRow, inSameColumn]
  simp only [beq_iff_eq]
  simp only [jsMove, List.mem_cons, List.not_mem_nil, or_false] at hd
  rcases hd with rfl | rfl | rfl | rfl <;> norm_num [room] at hk
  · rw [if_pos (by omega), if_neg (by omega)]
  · rw [if_pos (by omega), if_pos (by omega)]
  · rw [if_neg (by omega), if_pos (by omega), if_neg (by omega)]
  · rw [if_neg (by omega), if_pos (by omega), if_pos (by omega)]

end Lines

/-! ## One piece -/

section Kinds

variable {g : Xiangqi} {m : Move} {position target : ℤ}

/-- A move that the test admits, to a square without a piece of one's own. -/
def Open (g : Xiangqi) (m : Move) : Prop :=
  (inQipan m.target = true ∧ g.isSelfPiece m.target = false) ∧ g.testMove m.start m.target = true

theorem mem_addTested : m ∈ g.addTested position target ↔
    m = ⟨position, target⟩ ∧ g.testMove position target = true := by
  rw [addTested]
  split
  · rename_i h
    simp [h]
  · rename_i h
    simp [h]

theorem mem_stepMoves {region : ℤ → Bool} {steps : List ℤ}
    (hr : ∀ p, region p = true → inQipan p = true) :
    m ∈ g.stepMoves false region position steps ↔
      m.start = position ∧ Open g m ∧ region m.target = true ∧ ∃ d ∈ steps, position+d = m.target := by
  rw [stepMoves, List.mem_flatMap]
  constructor
  · intro ⟨d, hd, hm⟩
    split at hm
    · cases hm
    · rename_i hreg
      have hreg' : region (position+d) = true := by simpa using hreg
      split at hm
      · rename_i hw
        have ⟨he, ht⟩ := mem_addTested.mp hm
        rw [he]
        exact ⟨rfl, ⟨⟨hr _ hreg', by simpa [wanted] using hw⟩, ht⟩, hreg', d, hd, rfl⟩
      · cases hm
  · intro ⟨hs, ⟨⟨_, hself⟩, ht⟩, hreg, d, hd, he⟩
    refine ⟨d, hd, ?_⟩
    rw [he, hreg, Bool.not_true, if_neg Bool.false_ne_true, wanted, if_neg Bool.false_ne_true, hself,
      Bool.not_false, if_pos rfl, mem_addTested, ← hs]
    exact ⟨rfl, ht⟩

theorem mem_leapMoves {region : ℤ → Bool} {steps : List (ℤ × ℤ)}
    (hr : ∀ p, region p = true → inQipan p = true) :
    m ∈ g.leapMoves false region position steps ↔
      m.start = position ∧ Open g m ∧ region m.target = true ∧
        ∃ x ∈ steps, position+x.1 = m.target ∧ g.board (position+x.2) = 0 := by
  rw [leapMoves, List.mem_flatMap]
  constructor
  · intro ⟨x, hx, hm⟩
    split at hm
    · cases hm
    · rename_i hreg
      have hreg' : region (position+x.1) = true ∧ g.board (position+x.2) = 0 := by simpa using hreg
      split at hm
      · rename_i hw
        have ⟨he, ht⟩ := mem_addTested.mp hm
        rw [he]
        exact ⟨rfl, ⟨⟨hr _ hreg'.1, by simpa [wanted] using hw⟩, ht⟩, hreg'.1, x, hx, rfl, hreg'.2⟩
      · cases hm
  · intro ⟨hs, ⟨⟨_, hself⟩, ht⟩, hreg, x, hx, he, hb⟩
    refine ⟨x, hx, ?_⟩
    rw [he, hreg, hb, Bool.not_true, bne_self_eq_false, Bool.or_self, if_neg Bool.false_ne_true, wanted,
      if_neg Bool.false_ne_true, hself, Bool.not_false, if_pos rfl, mem_addTested, ← hs]
    exact ⟨rfl, ht⟩

/-- A place in a list is its first, or one in the rest. -/
theorem cons_split {α : Type*} {q t : α} {rest l₁ l₂ : List α} : q :: rest = l₁ ++ t :: l₂ ↔
    (l₁ = [] ∧ q = t ∧ rest = l₂) ∨ ∃ l, l₁ = q :: l ∧ rest = l ++ t :: l₂ := by
  cases l₁ with
  | nil => simp
  | cons a l =>
    rw [List.cons_append, List.cons.injEq]
    constructor
    · intro ⟨hq, hr⟩
      exact .inr ⟨l, by rw [hq], hr⟩
    · rintro (⟨hn, _⟩ | ⟨l', hl, hr⟩)
      · cases hn
      · have ⟨hq, hl'⟩ := List.cons.inj hl
        exact ⟨hq.symm, by rw [hl', hr]⟩

theorem mem_juLine (h : Placed g) {l : List ℤ} : m ∈ g.juLine false position l ↔
    m.start = position ∧ g.testMove m.start m.target = true ∧ g.isSelfPiece m.target = false ∧
      ∃ l₁ l₂, l = l₁ ++ m.target :: l₂ ∧ ∀ q ∈ l₁, g.board q = 0 := by
  induction l with
  | nil => simp [juLine]
  | cons q rest ih =>
    rw [juLine]
    by_cases hb : g.board q = 0
    · rw [if_pos hb, List.mem_append, ih, if_neg Bool.false_ne_true, mem_addTested]
      constructor
      · rintro (⟨he, ht⟩ | ⟨hs, ht, hself, l₁, l₂, hl, hl₁⟩)
        · rw [he]
          exact ⟨rfl, ht, empty_self hb, [], rest, rfl, fun _ hm => by cases hm⟩
        · refine ⟨hs, ht, hself, q :: l₁, l₂, by rw [hl, List.cons_append], ?_⟩
          intro a ha
          rcases List.mem_cons.mp ha with ha | ha
          · rw [ha]
            exact hb
          · exact hl₁ a ha
      · intro ⟨hs, ht, hself, l₁, l₂, hl, hl₁⟩
        rcases cons_split.mp hl with ⟨_, hq, _⟩ | ⟨l, hq, hrest⟩
        · refine .inl ⟨?_, ?_⟩
          · rw [hq, ← hs]
          · rw [hq, ← hs]
            exact ht
        · exact .inr ⟨hs, ht, hself, l, l₂, hrest, fun a ha => hl₁ a (hq ▸ List.mem_cons_of_mem q ha)⟩
    · rw [if_neg hb]
      have hopp : g.isOppositePiece q = true ↔ g.isSelfPiece q = false := by
        rw [opposite_iff h]
        exact ⟨fun ho => ho.2, fun ho => ⟨hb, ho⟩⟩
      constructor
      · intro hm
        split at hm
        · rename_i ho
          have ⟨he, ht⟩ := mem_addTested.mp hm
          rw [he]
          exact ⟨rfl, ht, hopp.mp ho, [], rest, rfl, fun _ hm => by cases hm⟩
        · cases hm
      · intro ⟨hs, ht, hself, l₁, l₂, hl, hl₁⟩
        rcases cons_split.mp hl with ⟨_, hq, _⟩ | ⟨l, hq, _⟩
        · rw [if_pos (hopp.mpr (hq ▸ hself)), mem_addTested, hq, ← hs]
          exact ⟨rfl, ht⟩
        · exact absurd (hl₁ q (hq ▸ List.mem_cons_self)) hb

/-- The number of pieces on some cells. -/
def pieces (g : Xiangqi) (l : List ℤ) : ℕ := l.countP fun q => g.board q != 0

theorem mem_paoLine {l : List ℤ} {flag : Bool} : m ∈ g.paoLine false position flag l ↔
    m.start = position ∧ g.testMove m.start m.target = true ∧
      ∃ l₁ l₂, l = l₁ ++ m.target :: l₂ ∧
        ((pieces g l₁+flag.toNat = 0 ∧ g.board m.target = 0) ∨
          (pieces g l₁+flag.toNat = 1 ∧ g.board m.target ≠ 0 ∧ g.isOppositePiece m.target = true)) := by
  induction l generalizing flag with
  | nil => simp [paoLine]
  | cons q rest ih =>
    have hpieces : ∀ l, pieces g (q :: l) = pieces g l+if g.board q = 0 then 0 else 1 := by
      intro l
      rw [pieces, pieces, List.countP_cons]
      by_cases hb : g.board q = 0 <;> simp [hb]
    -- A target behind `q` is one of the rest, with `q` counted in.
    have hrest : ∀ flag' : Bool, flag'.toNat = flag.toNat+(if g.board q = 0 then 0 else 1) →
        (m ∈ g.paoLine false position flag' rest ↔ m.start = position ∧
          g.testMove m.start m.target = true ∧ ∃ l l₂, rest = l ++ m.target :: l₂ ∧
            ((pieces g (q :: l)+flag.toNat = 0 ∧ g.board m.target = 0) ∨
              (pieces g (q :: l)+flag.toNat = 1 ∧ g.board m.target ≠ 0 ∧
                g.isOppositePiece m.target = true))) := by
      intro flag' hf
      rw [ih, hf]
      have hsame : ∀ l, pieces g (q :: l)+flag.toNat =
          pieces g l+(flag.toNat+if g.board q = 0 then 0 else 1) := fun l => by
        rw [hpieces]
        omega
      simp only [hsame]
    have hsplit : (∃ l₁ l₂, q :: rest = l₁ ++ m.target :: l₂ ∧
        ((pieces g l₁+flag.toNat = 0 ∧ g.board m.target = 0) ∨
          (pieces g l₁+flag.toNat = 1 ∧ g.board m.target ≠ 0 ∧ g.isOppositePiece m.target = true))) ↔
        (q = m.target ∧ ((flag = false ∧ g.board q = 0) ∨
          (flag = true ∧ g.board q ≠ 0 ∧ g.isOppositePiece q = true))) ∨
        ∃ l l₂, rest = l ++ m.target :: l₂ ∧
          ((pieces g (q :: l)+flag.toNat = 0 ∧ g.board m.target = 0) ∨
            (pieces g (q :: l)+flag.toNat = 1 ∧ g.board m.target ≠ 0 ∧
              g.isOppositePiece m.target = true)) := by
      have hflag : (pieces g []+flag.toNat = 0 ↔ flag = false) ∧
          (pieces g []+flag.toNat = 1 ↔ flag = true) := by
        have hnil : pieces g [] = 0 := rfl
        rw [hnil]
        cases flag <;> exact ⟨by decide, by decide⟩
      constructor
      · intro ⟨l₁, l₂, hl, hc⟩
        rcases cons_split.mp hl with ⟨hl₁, hq, _⟩ | ⟨l, hl₁, hr⟩
        · rw [hl₁, hflag.1, hflag.2, ← hq] at hc
          exact .inl ⟨hq, hc⟩
        · rw [hl₁] at hc
          exact .inr ⟨l, l₂, hr, hc⟩
      · rintro (⟨hq, hc⟩ | ⟨l, l₂, hr, hc⟩)
        · rw [← hflag.1, ← hflag.2, hq] at hc
          exact ⟨[], rest, by rw [hq]; rfl, hc⟩
        · exact ⟨q :: l, l₂, by rw [hr, List.cons_append], hc⟩
    rw [hsplit, paoLine]
    by_cases hb : g.board q = 0
    · rw [if_pos hb, List.mem_append, hrest flag (by rw [if_pos hb]; rfl)]
      cases flag with
      | false =>
        rw [Bool.or_self, if_neg Bool.false_ne_true, mem_addTested]
        constructor
        · rintro (⟨he, ht⟩ | ⟨hs, ht, hr⟩)
          · rw [he]
            exact ⟨rfl, ht, .inl ⟨rfl, .inl ⟨rfl, hb⟩⟩⟩
          · exact ⟨hs, ht, .inr hr⟩
        · rintro ⟨hs, ht, ⟨hq, _⟩ | hr⟩
          · exact .inl ⟨by rw [hq, ← hs], by rw [hq, ← hs]; exact ht⟩
          · exact .inr ⟨hs, ht, hr⟩
      | true =>
        simp [hb]
    · rw [if_neg hb]
      cases flag with
      | false =>
        rw [Bool.not_false, if_pos rfl, hrest true (by rw [if_neg hb]; rfl)]
        simp [hb]
      | true =>
        rw [Bool.not_true, if_neg Bool.false_ne_true]
        have hnone : ∀ l, ¬ ((pieces g (q :: l)+true.toNat = 0 ∧ g.board m.target = 0) ∨
            (pieces g (q :: l)+true.toNat = 1 ∧ g.board m.target ≠ 0 ∧
              g.isOppositePiece m.target = true)) := by
          intro l hc
          rw [hpieces, if_neg hb, Bool.toNat_true] at hc
          omega
        simp only [hnone, and_false, exists_false, or_false]
        by_cases ho : g.isOppositePiece q = true
        · rw [if_pos ho, mem_addTested]
          constructor
          · intro ⟨he, ht⟩
            rw [he]
            exact ⟨rfl, ht, rfl, .inr ⟨trivial, hb, ho⟩⟩
          · intro ⟨hs, ht, hq, _⟩
            exact ⟨by rw [hq, ← hs], by rw [hq, ← hs]; exact ht⟩
        · simp [ho]

/-! ## The seven kinds -/

theorem js_moves (m : Move) : m ∈ g.generateMovesOfJs position ↔
    m.start = position ∧ Open g m ∧ canJsMove m = true := by
  rw [generateMovesOfJs, mem_stepMoves fun _ => inJiugong_inQipan, canJsMove]
  simp only [Bool.and_eq_true, List.any_eq_true, beq_iff_eq]
  refine and_congr_right fun hs => ?_
  rw [hs]

theorem shi_moves (m : Move) : m ∈ g.generateMovesOfShi position ↔
    m.start = position ∧ Open g m ∧ canShiMove m = true := by
  rw [generateMovesOfShi, mem_stepMoves fun _ => inJiugong_inQipan, canShiMove]
  simp only [Bool.and_eq_true, List.any_eq_true, beq_iff_eq]
  refine and_congr_right fun hs => ?_
  rw [hs]

/-- No square lies on the river's edge between the sides. -/
theorem self_side {p : ℤ} (h : inQipan p = true) : g.atSelfSide p = !g.atOppositeSide p := by
  rw [inQipan_iff] at h
  rw [atSelfSide, atOppositeSide]
  cases g.turnToPlay with
  | red =>
    rw [Bool.eq_iff_iff]
    simp only [decide_eq_true_eq, Bool.not_eq_true', decide_eq_false_iff_not]
    omega
  | black =>
    rw [Bool.eq_iff_iff]
    simp only [decide_eq_true_eq, Bool.not_eq_true', decide_eq_false_iff_not]
    omega

theorem xiang_moves (m : Move) : m ∈ g.generateMovesOfXiang position ↔
    m.start = position ∧ Open g m ∧ g.canXiangMove m = true := by
  rw [generateMovesOfXiang, mem_leapMoves fun p hp => (Bool.and_eq_true_iff.mp hp).1, canXiangMove]
  simp only [Bool.and_eq_true, List.any_eq_true, beq_iff_eq]
  refine and_congr_right fun hs => and_congr_right fun ho => ?_
  rw [hs, self_side ho.1.1]

theorem ma_moves (m : Move) : m ∈ g.generateMovesOfMa position ↔
    m.start = position ∧ Open g m ∧ g.canMaMove m = true := by
  rw [generateMovesOfMa, mem_leapMoves fun _ => id, canMaMove]
  simp only [Bool.and_eq_true, List.any_eq_true, beq_iff_eq]
  refine and_congr_right fun hs => ?_
  rw [hs]

/-- The lines of a piece and the line to a target. -/
theorem line_to {Q : List ℤ → Prop} (hp : inQipan m.start = true) (hne : m.start ≠ m.target) :
    (∃ delta ∈ jsMove, ∃ l₁ l₂, lineFrom delta m.start = l₁ ++ m.target :: l₂ ∧ Q l₁) ↔
      inQipan m.target = true ∧ ∃ delta k, stepOf m = some delta ∧ delta ≠ 0 ∧ k < 10 ∧
        m.target = m.start+delta+(k : ℕ)*delta ∧ Q (walk delta k (m.start+delta)) := by
  constructor
  · intro ⟨delta, hd, l₁, l₂, hl, hq⟩
    have ⟨hw, ht, hin, hlt⟩ := line_split hl
    rw [hw] at hq
    have hzero := js_ne_zero hd
    refine ⟨hin, delta, l₁.length, ?_, hzero, hlt, ht, hq⟩
    refine stepOf_line hp hd ht fun j hj => ?_
    rcases Nat.lt_or_eq_of_le hj with hj | hj
    · have hmem : m.start+delta+(j : ℕ)*delta ∈ lineFrom delta m.start := by
        rw [hl, hw]
        exact List.mem_append_left _ (mem_walk.mpr ⟨j, hj, rfl⟩)
      rw [lineFrom, line_eq] at hmem
      exact List.mem_takeWhile_imp hmem
    · rw [hj, ← ht]
      exact hin
  · intro ⟨hin, delta, k, hstep, hzero, hk, ht, hq⟩
    have ⟨hd, k', hk', ht', hall⟩ := stepOf_spec hp hin hne hstep
    have hkk := steps_unique hzero (ht.symm.trans ht')
    have ⟨l₂, hl⟩ := line_reaches hk (hkk ▸ hall)
    exact ⟨delta, hd, _, l₂, by rw [lineFrom, hl, ← ht], hq⟩

/-- A move to an open square goes somewhere else. -/
theorem open_moves (hs : g.isSelfPiece m.start = true) (ho : Open g m) : m.start ≠ m.target := by
  intro he
  have hself := ho.1.2
  rw [← he, hs] at hself
  cases hself

theorem canJu_iff (hne : m.start ≠ m.target) (hp : inQipan m.start = true) : g.canJuMove m = some true ↔
    inQipan m.target = true ∧ ∃ delta k, stepOf m = some delta ∧ delta ≠ 0 ∧ k < 10 ∧
      m.target = m.start+delta+(k : ℕ)*delta ∧ ∀ q ∈ walk delta k (m.start+delta), g.board q = 0 := by
  rw [canJuMove]
  by_cases hin : inQipan m.target = true
  · simp only [hin, Bool.not_true, Bool.false_eq_true, if_false, true_and]
    cases hstep : stepOf m with
    | none => simp
    | some delta =>
      have ⟨hd, k, hk, ht, _⟩ := stepOf_spec hp hin hne hstep
      have hzero := js_ne_zero hd
      simp only
      nth_rewrite 1 [ht]
      rw [juFree_eq hzero hk, Option.some.injEq, decide_eq_true_eq]
      constructor
      · exact fun hfree => ⟨delta, k, rfl, hzero, hk, ht, hfree⟩
      · intro ⟨delta', k', hd', _, _, ht', hfree⟩
        have hdd := Option.some.inj hd'
        subst hdd
        rw [steps_unique hzero (ht.symm.trans ht')]
        exact hfree
  · simp [hin]

theorem canPao_iff (hne : m.start ≠ m.target) (hp : inQipan m.start = true) :
    g.canPaoMove m = some true ↔ inQipan m.target = true ∧ ∃ delta k, stepOf m = some delta ∧
      delta ≠ 0 ∧ k < 10 ∧ m.target = m.start+delta+(k : ℕ)*delta ∧
        ((pieces g (walk delta k (m.start+delta)) = 1 ∧ g.board m.target ≠ 0) ∨
          (pieces g (walk delta k (m.start+delta)) = 0 ∧ g.board m.target = 0)) := by
  rw [canPaoMove]
  by_cases hin : inQipan m.target = true
  · simp only [hin, Bool.not_true, Bool.false_eq_true, if_false, true_and]
    cases hstep : stepOf m with
    | none => simp
    | some delta =>
      have ⟨hd, k, hk, ht, _⟩ := stepOf_spec hp hin hne hstep
      have hzero := js_ne_zero hd
      have hcount : g.paoCount delta m.target 10 0 (m.start+delta) =
          some (pieces g (walk delta k (m.start+delta))) := by
        nth_rewrite 1 [ht]
        rw [paoCount_eq hzero hk, Nat.zero_add, pieces]
      simp only [hcount, Option.map_some, Option.some.injEq, Bool.or_eq_true, Bool.and_eq_true,
        beq_iff_eq, bne_iff_ne]
      constructor
      · exact fun hc => ⟨delta, k, rfl, hzero, hk, ht, hc⟩
      · intro ⟨delta', k', hd', _, _, ht', hc⟩
        subst hd'
        rw [steps_unique hzero (ht.symm.trans ht')]
        exact hc
  · simp [hin]

theorem ju_moves (h : Placed g) (hs : g.isSelfPiece position = true) :
    m ∈ g.generateMovesOfJu position ↔
      m.start = position ∧ Open g m ∧ g.canJuMove m = some true := by
  have hp := self_inQipan h hs
  have hlines : m ∈ g.generateMovesOfJu position ↔ m.start = position ∧
      g.testMove m.start m.target = true ∧ g.isSelfPiece m.target = false ∧
        ∃ delta ∈ jsMove, ∃ l₁ l₂, lineFrom delta position = l₁ ++ m.target :: l₂ ∧
          ∀ q ∈ l₁, g.board q = 0 := by
    simp only [generateMovesOfJu, List.mem_flatMap, mem_juLine h]
    constructor
    · exact fun ⟨delta, hd, he, ht, hself, hl⟩ => ⟨he, ht, hself, delta, hd, hl⟩
    · exact fun ⟨he, ht, hself, delta, hd, hl⟩ => ⟨delta, hd, he, ht, hself, hl⟩
  rw [hlines]
  refine and_congr_right fun he => ?_
  subst he
  constructor
  · intro ⟨ht, hself, hl⟩
    have hne : m.start ≠ m.target := fun he => by rw [← he, hs] at hself; cases hself
    have hto := (line_to (Q := fun l => ∀ q ∈ l, g.board q = 0) hp hne).mp hl
    exact ⟨⟨⟨hto.1, hself⟩, ht⟩, (canJu_iff hne hp).mpr hto⟩
  · intro ⟨ho, hc⟩
    have hne := open_moves hs ho
    exact ⟨ho.2, ho.1.2, (line_to (Q := fun l => ∀ q ∈ l, g.board q = 0) hp hne).mpr
      ((canJu_iff hne hp).mp hc)⟩

theorem pao_moves (h : Placed g) (hs : g.isSelfPiece position = true) :
    m ∈ g.generateMovesOfPao position ↔
      m.start = position ∧ Open g m ∧ g.canPaoMove m = some true := by
  have hp := self_inQipan h hs
  have hlines : m ∈ g.generateMovesOfPao position ↔ m.start = position ∧
      g.testMove m.start m.target = true ∧ ∃ delta ∈ jsMove, ∃ l₁ l₂,
        lineFrom delta position = l₁ ++ m.target :: l₂ ∧
          ((pieces g l₁ = 0 ∧ g.board m.target = 0) ∨
            (pieces g l₁ = 1 ∧ g.board m.target ≠ 0 ∧ g.isOppositePiece m.target = true)) := by
    simp only [generateMovesOfPao, List.mem_flatMap, mem_paoLine, Bool.toNat_false, Nat.add_zero]
    constructor
    · exact fun ⟨delta, hd, he, ht, hl⟩ => ⟨he, ht, delta, hd, hl⟩
    · exact fun ⟨he, ht, delta, hd, hl⟩ => ⟨delta, hd, he, ht, hl⟩
  have hsame : g.isSelfPiece m.target = false → ∀ n, (n = 0 ∧ g.board m.target = 0) ∨
      (n = 1 ∧ g.board m.target ≠ 0 ∧ g.isOppositePiece m.target = true) ↔
        (n = 1 ∧ g.board m.target ≠ 0) ∨ (n = 0 ∧ g.board m.target = 0) := by
    intro hself n
    rw [opposite_iff h]
    tauto
  rw [hlines]
  refine and_congr_right fun he => ?_
  subst he
  have hto := fun hne => line_to (m := m) (Q := fun l => (pieces g l = 1 ∧ g.board m.target ≠ 0) ∨
    (pieces g l = 0 ∧ g.board m.target = 0)) hp hne
  constructor
  · intro ⟨ht, hl⟩
    have hself : g.isSelfPiece m.target = false := by
      have ⟨_, _, _, _, _, hc⟩ := hl
      rcases hc with ⟨_, hb⟩ | ⟨_, _, ho⟩
      · exact empty_self hb
      · exact ((opposite_iff h).mp ho).2
    have hne : m.start ≠ m.target := fun he => by rw [← he, hs] at hself; cases hself
    simp only [hsame hself] at hl
    have hin := (hto hne).mp hl
    exact ⟨⟨⟨hin.1, hself⟩, ht⟩, (canPao_iff hne hp).mpr hin⟩
  · intro ⟨ho, hc⟩
    have hne := open_moves hs ho
    refine ⟨ho.2, ?_⟩
    simp only [hsame ho.1.2]
    exact (hto hne).mpr ((canPao_iff hne hp).mp hc)

theorem mem_bzStep : m ∈ g.bzStep false position target ↔
    m.start = position ∧ Open g m ∧ m.target = target := by
  rw [bzStep, wanted, if_neg Bool.false_ne_true]
  constructor
  · intro hm
    split at hm
    · rename_i hw
      have ⟨he, ht⟩ := mem_addTested.mp hm
      have hw' := Bool.and_eq_true_iff.mp hw
      rw [he]
      exact ⟨rfl, ⟨⟨hw'.2, by simpa using hw'.1⟩, ht⟩, rfl⟩
    · cases hm
  · intro ⟨hs, ⟨⟨hin, hself⟩, ht⟩, he⟩
    rw [← he, hself, hin, Bool.not_false, Bool.and_self, if_pos rfl, mem_addTested, ← hs]
    exact ⟨rfl, ht⟩

/-- A pawn that steps aside stays on its side of the river. -/
theorem bz_moves (m : Move) : m ∈ g.generateMovesOfBz position ↔
    m.start = position ∧ Open g m ∧ g.canBzMove m = true := by
  have haside : ∀ {t : ℤ}, inQipan t = true → t = position+1 ∨ t = position-1 →
      g.atOppositeSide t = g.atOppositeSide position := by
    intro t ht hc
    rw [inQipan_iff] at ht
    rw [atOppositeSide, atOppositeSide]
    cases g.turnToPlay with
    | red =>
      rw [Bool.eq_iff_iff, decide_eq_true_eq, decide_eq_true_eq]
      omega
    | black =>
      rw [Bool.eq_iff_iff, decide_eq_true_eq, decide_eq_true_eq]
      omega
  have hlist : m ∈ g.generateMovesOfBz position ↔ m.start = position ∧ Open g m ∧
      (m.target = g.getForward position ∨ (g.atOppositeSide position = true ∧
        (m.target = position+1 ∨ m.target = position-1))) := by
    rw [generateMovesOfBz, bzMoves, List.mem_append, mem_bzStep]
    split
    · rename_i hside
      rw [List.mem_append, mem_bzStep, mem_bzStep, hside]
      tauto
    · rename_i hside
      simp only [hside]
      simp
  rw [hlist]
  refine and_congr_right fun hs => and_congr_right fun ho => ?_
  have hin := ho.1.1
  have haround : (m.target+1 = m.start ∨ m.target-1 = m.start) ↔
      (m.target = position+1 ∨ m.target = position-1) := by
    rw [hs]
    omega
  rw [canBzMove, hin, Bool.not_true, if_neg Bool.false_ne_true]
  simp only [Bool.and_eq_true, Bool.or_eq_true, beq_iff_eq, haround]
  by_cases hc : m.target = position+1 ∨ m.target = position-1
  · rw [haside hin hc]
    by_cases hside : g.atOppositeSide position = true
    · rw [if_pos ⟨hside, hc⟩]
      exact ⟨fun _ => rfl, fun _ => .inr ⟨hside, hc⟩⟩
    · rw [if_neg fun hn => hside hn.1, beq_iff_eq, hs]
      exact ⟨fun hf => (hf.resolve_right fun hn => hside hn.1).symm, fun hf => .inl hf.symm⟩
  · rw [if_neg fun hn => hc hn.2, beq_iff_eq, hs]
    exact ⟨fun hf => (hf.resolve_right fun hn => hc hn.2).symm, fun hf => .inl hf.symm⟩

/-! ## All pieces -/

/-- The check of each of the seven kinds. -/
def canKind (g : Xiangqi) (m : Move) : ℕ → Option Bool
  | 0 => some (canJsMove m)
  | 1 => some (canShiMove m)
  | 2 => some (g.canXiangMove m)
  | 3 => some (g.canMaMove m)
  | 4 => g.canJuMove m
  | 5 => g.canPaoMove m
  | _ => some (g.canBzMove m)

theorem can_kind {k : ℕ} (hk : k ≤ 6) (hb : g.board m.start = g.selfSide+k) :
    g.canPieceMove m = canKind g m k := by
  rw [canPieceMove, hb, selfSide]
  cases g.turnToPlay <;> interval_cases k <;> rfl

/-- The moves of the piece on a square of one's own. -/
theorem piece_moves (h : Placed g) (hs : g.isSelfPiece position = true) :
    (m ∈ (match g.board position-g.selfSide with
      | 0 => g.generateMovesOfJs position
      | 1 => g.generateMovesOfShi position
      | 2 => g.generateMovesOfXiang position
      | 3 => g.generateMovesOfMa position
      | 4 => g.generateMovesOfJu position
      | 5 => g.generateMovesOfPao position
      | 6 => g.generateMovesOfBz position
      | _ => [])) ↔ m.start = position ∧ Open g m ∧ g.canPieceMove m = some true := by
  have ⟨k, hk, hb⟩ := self_code h hs
  have hsome : ∀ b : Bool, some b = some true ↔ b = true := fun b => by rw [Option.some.injEq]
  have hcan : m.start = position ∧ Open g m ∧ g.canPieceMove m = some true ↔
      m.start = position ∧ Open g m ∧ canKind g m k = some true := by
    refine and_congr_right fun he => ?_
    rw [can_kind hk (he ▸ hb)]
  rw [hb, Nat.add_sub_cancel_left, hcan]
  interval_cases k <;> simp only [canKind, hsome]
  · exact js_moves m
  · exact shi_moves m
  · exact xiang_moves m
  · exact ma_moves m
  · exact ju_moves h hs
  · exact pao_moves h hs
  · exact bz_moves m

/-- What is generated is what the validator admits and the test passes. -/
theorem all_moves (h : Placed g) (m : Move) : m ∈ g.generateAllMoves ↔
    g.isSelfPiece m.start = true ∧ Open g m ∧ g.canPieceMove m = some true := by
  rw [generateAllMoves, List.mem_flatMap]
  constructor
  · intro ⟨position, _, hm⟩
    split at hm
    · rename_i hs
      have ⟨he, ho, hc⟩ := (piece_moves h hs).mp hm
      exact ⟨he ▸ hs, ho, hc⟩
    · cases hm
  · intro ⟨hs, ho, hc⟩
    refine ⟨m.start, (mem_positions _).mpr (self_inQipan h hs), ?_⟩
    rw [if_pos hs]
    exact (piece_moves h hs).mpr ⟨rfl, ho, hc⟩

/-- The validator returns on squares of the board. -/
theorem can_returns (hp : inQipan m.start = true) (hne : m.start ≠ m.target) :
    ∃ b, g.canPieceMove m = some b := by
  have hju : ∃ b, g.canJuMove m = some b := by
    rw [canJuMove]
    by_cases hin : inQipan m.target = true
    · rw [hin, Bool.not_true, if_neg Bool.false_ne_true]
      cases hstep : stepOf m with
      | none => exact ⟨false, rfl⟩
      | some delta =>
        have ⟨hd, k, hk, ht, _⟩ := stepOf_spec hp hin hne hstep
        refine ⟨decide (∀ q ∈ walk delta k (m.start+delta), g.board q = 0), ?_⟩
        simp only
        rw [ht]
        exact juFree_eq (js_ne_zero hd) hk
    · exact ⟨false, by simp [hin]⟩
  have hpao : ∃ b, g.canPaoMove m = some b := by
    rw [canPaoMove]
    by_cases hin : inQipan m.target = true
    · rw [hin, Bool.not_true, if_neg Bool.false_ne_true]
      cases hstep : stepOf m with
      | none => exact ⟨false, rfl⟩
      | some delta =>
        have ⟨hd, k, hk, ht, _⟩ := stepOf_spec hp hin hne hstep
        have hcount : ∃ num, g.paoCount delta m.target 10 0 (m.start+delta) = some num := by
          rw [ht]
          exact ⟨_, paoCount_eq (js_ne_zero hd) hk⟩
        have ⟨num, hnum⟩ := hcount
        exact ⟨_, by simp only [hnum, Option.map_some]; rfl⟩
    · exact ⟨false, by simp [hin]⟩
  rw [canPieceMove]
  split
  all_goals first | exact hju | exact hpao | exact ⟨_, rfl⟩

end Kinds

/-! ## Moves that eat -/

section Eating

variable {g : Xiangqi} {position : ℤ}

/-- A move that eats. -/
def eats (g : Xiangqi) (m : Move) : Bool := g.isOppositePiece m.target

theorem filter_addTested (target : ℤ) : (g.addTested position target).filter (eats g) =
    if g.isOppositePiece target then g.addTested position target else [] := by
  rw [addTested]
  by_cases ho : g.isOppositePiece target = true <;> split <;> simp [eats, ho]

theorem filter_wanted (h : Placed g) (target : ℤ) :
    (if g.wanted false target then g.addTested position target else []).filter (eats g) =
      if g.wanted true target then g.addTested position target else [] := by
  rw [wanted, wanted, if_neg Bool.false_ne_true, if_pos rfl]
  by_cases ho : g.isOppositePiece target = true
  · have hs := ((opposite_iff h).mp ho).2
    rw [hs, Bool.not_false, if_pos rfl, filter_addTested]
  · rw [if_neg ho]
    split
    · rw [filter_addTested, if_neg ho]
    · rfl

theorem eat_stepMoves (h : Placed g) (region : ℤ → Bool) (steps : List ℤ) :
    g.stepMoves true region position steps = (g.stepMoves false region position steps).filter (eats g) := by
  rw [stepMoves, stepMoves, List.filter_flatMap]
  congr 1
  funext d
  split
  · rfl
  · exact (filter_wanted h _).symm

theorem eat_leapMoves (h : Placed g) (region : ℤ → Bool) (steps : List (ℤ × ℤ)) :
    g.leapMoves true region position steps = (g.leapMoves false region position steps).filter (eats g) := by
  rw [leapMoves, leapMoves, List.filter_flatMap]
  congr 1
  funext d
  split
  · rfl
  · exact (filter_wanted h _).symm

theorem empty_opposite {p : ℤ} (hb : g.board p = 0) : g.isOppositePiece p = false := by
  rw [isOppositePiece, hb, Nat.and_zero]
  rfl

theorem eat_juLine (l : List ℤ) :
    g.juLine true position l = (g.juLine false position l).filter (eats g) := by
  induction l with
  | nil => rfl
  | cons q rest ih =>
    rw [juLine, juLine]
    by_cases hb : g.board q = 0
    · rw [if_pos hb, if_pos hb, if_pos rfl, if_neg Bool.false_ne_true, List.filter_append,
        filter_addTested, empty_opposite hb, if_neg Bool.false_ne_true, ih]
    · rw [if_neg hb, if_neg hb]
      split
      · rename_i ho
        rw [filter_addTested, if_pos ho]
      · rfl

theorem eat_paoLine (flag : Bool) (l : List ℤ) :
    g.paoLine true position flag l = (g.paoLine false position flag l).filter (eats g) := by
  induction l generalizing flag with
  | nil => rfl
  | cons q rest ih =>
    rw [paoLine, paoLine]
    by_cases hb : g.board q = 0
    · rw [if_pos hb, if_pos hb, List.filter_append, ih, Bool.true_or, if_pos rfl, Bool.false_or]
      cases flag with
      | true => rfl
      | false =>
        rw [if_neg Bool.false_ne_true, filter_addTested, empty_opposite hb, if_neg Bool.false_ne_true]
    · rw [if_neg hb, if_neg hb]
      cases flag with
      | false =>
        rw [Bool.not_false, if_pos rfl, if_pos rfl, ih]
      | true =>
        rw [Bool.not_true, if_neg Bool.false_ne_true, if_neg Bool.false_ne_true]
        split
        · rename_i ho
          rw [filter_addTested, if_pos ho]
        · rfl

theorem eat_bzStep (h : Placed g) (target : ℤ) :
    g.bzStep true position target = (g.bzStep false position target).filter (eats g) := by
  rw [bzStep, bzStep]
  by_cases hin : inQipan target = true
  · rw [hin, Bool.and_true, Bool.and_true]
    exact (filter_wanted h target).symm
  · simp [hin]

theorem eat_bzMoves (h : Placed g) : g.bzMoves true position = (g.bzMoves false position).filter (eats g) := by
  rw [bzMoves, bzMoves, List.filter_append, ← eat_bzStep h]
  split
  · rw [List.filter_append, ← eat_bzStep h, ← eat_bzStep h]
  · rfl

/-- The moves that eat are those of all moves that do, in the same order. -/
theorem eat_moves (h : Placed g) : g.generateAllEatMoves = g.generateAllMoves.filter (eats g) := by
  rw [generateAllEatMoves, generateAllMoves, List.filter_flatMap]
  congr 1
  funext position
  split
  · split
    · exact eat_stepMoves h _ _
    · exact eat_stepMoves h _ _
    · exact eat_leapMoves h _ _
    · exact eat_leapMoves h _ _
    · rw [generateEatMovesOfJu, generateMovesOfJu, List.filter_flatMap]
      simp only [eat_juLine]
    · rw [generateEatMovesOfPao, generateMovesOfPao, List.filter_flatMap]
      simp only [eat_paoLine]
    · exact eat_bzMoves h
    · rfl
  · rfl

end Eating

/-! ## Each move once -/

section Once

variable {g : Xiangqi} {position : ℤ}

/-- At most one move for each element of a list. -/
theorem flatMap_sublist {α : Type*} (l : List α) (f : α → List Move) (t : α → ℤ)
    (h : ∀ x, (f x).Sublist [⟨position, t x⟩]) : (l.flatMap f).Sublist (l.map fun x => ⟨position, t x⟩) := by
  induction l with
  | nil => exact List.Sublist.refl []
  | cons x l ih =>
    rw [List.flatMap_cons, List.map_cons, ← List.singleton_append]
    exact (h x).append ih

theorem addTested_sublist (target : ℤ) : (g.addTested position target).Sublist [⟨position, target⟩] := by
  rw [addTested]
  split
  · exact List.Sublist.refl _
  · exact List.nil_sublist _

theorem targets_nodup {l : List ℤ} (h : l.Nodup) : (l.map (Move.mk position)).Nodup :=
  h.map fun _ _ he => (Move.mk.inj he).2

theorem nodup_stepMoves {eat : Bool} {region : ℤ → Bool} {steps : List ℤ} (h : steps.Nodup) :
    (g.stepMoves eat region position steps).Nodup := by
  have hsub := @flatMap_sublist position _ steps (fun d =>
    if !region (position+d) then []
    else if g.wanted eat (position+d) then g.addTested position (position+d) else [])
    (fun d => position+d) fun d => by
      split
      · exact List.nil_sublist _
      · split
        · exact addTested_sublist _
        · exact List.nil_sublist _
  refine List.Nodup.sublist hsub (h.map fun d d' he => ?_)
  have ht := (Move.mk.inj he).2
  omega

theorem nodup_leapMoves {eat : Bool} {region : ℤ → Bool} {steps : List (ℤ × ℤ)}
    (h : (steps.map Prod.fst).Nodup) : (g.leapMoves eat region position steps).Nodup := by
  have hsub := @flatMap_sublist position _ steps (fun x =>
    if !region (position+x.1) || g.board (position+x.2) != 0 then []
    else if g.wanted eat (position+x.1) then g.addTested position (position+x.1) else [])
    (fun x => position+x.1) fun x => by
      split
      · exact List.nil_sublist _
      · split
        · exact addTested_sublist _
        · exact List.nil_sublist _
  refine List.Nodup.sublist hsub ?_
  have hmap : steps.map (fun x => (⟨position, position+x.1⟩ : Move)) =
      (steps.map Prod.fst).map fun d => ⟨position, position+d⟩ := by
    rw [List.map_map]
    rfl
  rw [hmap]
  refine h.map fun d d' he => ?_
  have ht := (Move.mk.inj he).2
  omega

theorem juLine_sublist (eat : Bool) (l : List ℤ) :
    (g.juLine eat position l).Sublist (l.map (Move.mk position)) := by
  induction l with
  | nil => exact List.Sublist.refl []
  | cons q rest ih =>
    rw [juLine, List.map_cons, ← List.singleton_append]
    split
    · refine List.Sublist.append ?_ ih
      split
      · exact List.nil_sublist _
      · exact addTested_sublist q
    · split
      · exact (addTested_sublist q).trans (List.sublist_append_left _ _)
      · exact List.nil_sublist _

theorem paoLine_sublist (eat flag : Bool) (l : List ℤ) :
    (g.paoLine eat position flag l).Sublist (l.map (Move.mk position)) := by
  induction l generalizing flag with
  | nil => exact List.Sublist.refl []
  | cons q rest ih =>
    rw [paoLine, List.map_cons, ← List.singleton_append]
    split
    · refine List.Sublist.append ?_ (ih flag)
      split
      · exact List.nil_sublist _
      · exact addTested_sublist q
    · split
      · exact (ih true).trans (List.sublist_append_right _ _)
      · split
        · exact (addTested_sublist q).trans (List.sublist_append_left _ _)
        · exact List.nil_sublist _

theorem line_inside {delta t : ℤ} (h : t ∈ lineFrom delta position) :
    inQipan t = true ∧ ∃ k < 10, t = position+delta+(k : ℕ)*delta ∧
      ∀ j ≤ k, inQipan (position+delta+(j : ℕ)*delta) = true := by
  have ⟨l₁, l₂, hl⟩ := List.append_of_mem h
  have ⟨hw, ht, hin, hlt⟩ := line_split hl
  refine ⟨hin, l₁.length, hlt, ht, fun j hj => ?_⟩
  rcases Nat.lt_or_eq_of_le hj with hj | hj
  · have hmem : position+delta+(j : ℕ)*delta ∈ lineFrom delta position := by
      rw [hl, hw]
      exact List.mem_append_left _ (mem_walk.mpr ⟨j, hj, rfl⟩)
    rw [lineFrom, line_eq] at hmem
    exact List.mem_takeWhile_imp hmem
  · rw [hj, ← ht]
    exact hin

/-- The lines of the four steps have no square in common. -/
theorem nodup_lines {f : ℤ → List Move} (hp : inQipan position = true)
    (h : ∀ delta, (f delta).Sublist ((lineFrom delta position).map (Move.mk position))) :
    (jsMove.flatMap f).Nodup := by
  rw [List.nodup_flatMap]
  constructor
  · intro delta hd
    refine List.Nodup.sublist (h delta) (targets_nodup ?_)
    rw [lineFrom, line_eq]
    exact (walk_nodup (js_ne_zero hd)).sublist (List.takeWhile_sublist _)
  · have hstep : ∀ {delta m}, delta ∈ jsMove → m ∈ f delta → stepOf m = some delta := by
      intro delta m hd hm
      have ⟨t, ht, he⟩ := List.mem_map.mp ((h delta).mem hm)
      have ⟨_, k, _, hk, hall⟩ := line_inside ht
      rw [← he]
      exact stepOf_line hp hd hk hall
    have hdisjoint : ∀ d ∈ jsMove, ∀ d' ∈ jsMove, d ≠ d' → (f d).Disjoint (f d') := by
      intro d hd d' hd' hne m hm hm'
      exact hne (Option.some.inj ((hstep hd hm).symm.trans (hstep hd' hm')))
    have hnodup : jsMove.Nodup := by decide
    exact List.Pairwise.imp_of_mem (fun hd hd' hne => hdisjoint _ hd _ hd' hne) hnodup

theorem nodup_bzMoves {eat : Bool} : (g.bzMoves eat position).Nodup := by
  have hstep : ∀ t, (g.bzStep eat position t).Sublist [⟨position, t⟩] := by
    intro t
    rw [bzStep]
    split
    · exact addTested_sublist t
    · exact List.nil_sublist _
  have hsub : (g.bzMoves eat position).Sublist
      ([g.getForward position, position+1, position-1].map (Move.mk position)) := by
    rw [bzMoves, List.map_cons, ← List.singleton_append]
    refine (hstep _).append ?_
    split
    · exact (hstep _).append (hstep _)
    · exact List.nil_sublist _
  refine List.Nodup.sublist hsub (targets_nodup ?_)
  rw [getForward]
  cases g.turnToPlay <;> simp <;> omega

theorem all_nodup (h : Placed g) : g.generateAllMoves.Nodup := by
  rw [generateAllMoves, List.nodup_flatMap]
  constructor
  · intro position _
    split
    · rename_i hs
      have hp := self_inQipan h hs
      split
      · exact nodup_stepMoves (by decide)
      · exact nodup_stepMoves (by decide)
      · exact nodup_leapMoves (by decide)
      · exact nodup_leapMoves (by decide)
      · exact nodup_lines hp fun _ => juLine_sublist false _
      · exact nodup_lines hp fun _ => paoLine_sublist false false _
      · exact nodup_bzMoves
      · exact List.nodup_nil
    · exact List.nodup_nil
  · refine positions_nodup.imp fun hne m hm hm' => ?_
    beta_reduce at hm hm'
    split at hm
    · rename_i hs
      split at hm'
      · rename_i hs'
        exact hne (((piece_moves h hs).mp hm).1.symm.trans ((piece_moves h hs').mp hm').1)
      · cases hm'
    · cases hm

end Once

/-! ## Agreement -/

/-- Whatever stands on the squares, the moves generated are those that the
validator admits and that do not leave one's own general in check; the moves
generated to eat are those of them that eat; and each comes once. -/
theorem moves_agree {g : Xiangqi} (h : Placed g) :
    (∀ m, m ∈ g.generateAllMoves ↔
      (g.isSelfPiece m.start = true ∧ inQipan m.target = true ∧ g.isSelfPiece m.target = false) ∧
        g.canPieceMove m = some true ∧ (g.movePiece m).isJiangjun = false) ∧
    (∀ m, g.isSelfPiece m.start = true → inQipan m.target = true → g.isSelfPiece m.target = false →
      g.canPieceMove m ≠ none) ∧
    (∀ m, m ∈ g.generateAllEatMoves ↔ m ∈ g.generateAllMoves ∧ g.isOppositePiece m.target = true) ∧
    g.generateAllMoves.Nodup ∧ g.generateAllEatMoves.Nodup := by
  have hall := all_nodup h
  refine ⟨fun m => ?_, fun m hs _ hself => ?_, fun m => ?_, hall, ?_⟩
  · rw [all_moves h, Open, testMove, Bool.not_eq_true']
    constructor
    · exact fun ⟨hs, ⟨⟨hin, hself⟩, ht⟩, hc⟩ => ⟨⟨hs, hin, hself⟩, hc, ht⟩
    · exact fun ⟨⟨hs, hin, hself⟩, hc, ht⟩ => ⟨hs, ⟨⟨hin, hself⟩, ht⟩, hc⟩
  · have hne : m.start ≠ m.target := fun he => by
      rw [← he, hs] at hself
      cases hself
    have ⟨b, hb⟩ := can_returns (g := g) (self_inQipan h hs) hne
    rw [hb]
    exact Option.some_ne_none b
  · rw [eat_moves h, List.mem_filter]
    rfl
  · rw [eat_moves h]
    exact hall.filter _

/-- The board after `init`, red to play. -/
def initial : Xiangqi := ⟨fun p => (grid initBoard p).toNat, .red, 0, 0, 0, fun _ => 0⟩

theorem initial_placed : Placed initial := by
  intro p hne
  have hgrid : grid initBoard p ≠ 0 := fun hz => hne (congrArg Int.toNat hz)
  have hin := grid_inside (by decide) (by decide) hgrid
  refine ⟨(inQipan_iff p).mpr hin, ?_⟩
  have hcodes : ∀ r < 10, ∀ c < 9, (initBoard.getD r []).getD c 0 = 0 ∨
      (8 ≤ ((initBoard.getD r []).getD c 0).toNat ∧ ((initBoard.getD r []).getD c 0).toNat ≤ 14) ∨
        (16 ≤ ((initBoard.getD r []).getD c 0).toNat ∧ ((initBoard.getD r []).getD c 0).toNat ≤ 22) := by
    decide
  have hcode := hcodes (p/16-3).toNat (by omega) (p%16-3).toNat (by omega)
  have hvalue : grid initBoard p = (initBoard.getD (p/16-3).toNat []).getD (p%16-3).toNat 0 := by
    rw [grid, boardTop, boardLeft, if_pos ⟨hin.1.1, hin.2.1⟩]
  rw [← hvalue] at hcode
  exact hcode.resolve_left hgrid

theorem moves_agree_initial :
    (∀ m, m ∈ initial.generateAllMoves ↔
      (initial.isSelfPiece m.start = true ∧ inQipan m.target = true ∧
        initial.isSelfPiece m.target = false) ∧
        initial.canPieceMove m = some true ∧ (initial.movePiece m).isJiangjun = false) ∧
    (∀ m, initial.isSelfPiece m.start = true → inQipan m.target = true →
      initial.isSelfPiece m.target = false → initial.canPieceMove m ≠ none) ∧
    (∀ m, m ∈ initial.generateAllEatMoves ↔
      m ∈ initial.generateAllMoves ∧ initial.isOppositePiece m.target = true) ∧
    initial.generateAllMoves.Nodup ∧ initial.generateAllEatMoves.Nodup :=
  moves_agree initial_placed

end BabyOS.XiangqiMoves

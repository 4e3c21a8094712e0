import BabyOS.XiangqiChecks
import Mathlib.Data.List.Find

/-!
# Legal positions and the cells of the board

Moves that stand the test lead from one legal position to another: the generals stay in their
palaces, and the side that has moved is not in check. In such positions the program looks at
no memory outside of the 256 cells of the board.
-/

set_option autoImplicit false

namespace BabyOS.XiangqiCells
open BabyOS.XiangqiBoard BabyOS.XiangqiBoard.Xiangqi BabyOS.XiangqiMoves BabyOS.XiangqiSearch BabyOS.XiangqiChecks

/-- One general of a side, in its palace. -/
def General (g : Xiangqi) (s : Side) : Prop := ∃ p, Palace s p ∧ ∀ q, g.board q = codeOf s+pieceJs ↔ q = p

/-- The side to move could not take the other general. -/
structure Good (g : Xiangqi) : Prop where
  arranged : Arranged g
  safe : g.changeSide.isJiangjun = false

/-! ## Legal moves -/

section Legal

variable {g : Xiangqi} {m : Move} {s : Side} {p : ℤ}

theorem code_ne {s t : Side} {j k : ℕ} (hj : j ≤ 6) (hk : k ≤ 6) (h : codeOf s+j = codeOf t+k) : s = t ∧ j = k := by
  rw [codeOf, codeOf] at h
  cases s <;> cases t <;> simp only [Side.no] at h
  · exact ⟨rfl, by omega⟩
  · omega
  · omega
  · exact ⟨rfl, by omega⟩

/-- A step along a row or a column does not leave one palace for the other. -/
theorem palace_step {d : ℤ} (hp : Palace s p) (hlow : -17 ≤ d) (hhigh : d ≤ 17) (hj : inJiugong (p+d) = true) :
    Palace s (p+d) := by
  rw [inJiugong_iff] at hj
  cases s with
  | red =>
    have hp' := palace_red.mp hp
    rw [palace_red]
    omega
  | black =>
    have hp' := palace_black.mp hp
    rw [palace_black]
    omega

theorem js_palace (hp : Palace s m.start) (hm : canJsMove m = true) : Palace s m.target := by
  rw [canJsMove, Bool.and_eq_true, List.any_eq_true] at hm
  obtain ⟨hj, d, hd, he⟩ := hm
  rw [beq_iff_eq] at he
  rw [← he] at hj ⊢
  have hbound : ∀ d ∈ jsMove, -17 ≤ d ∧ d ≤ 17 := by decide
  exact palace_step hp (hbound d hd).1 (hbound d hd).2 hj

theorem shi_palace (hp : Palace s m.start) (hm : canShiMove m = true) : Palace s m.target := by
  rw [canShiMove, Bool.and_eq_true, List.any_eq_true] at hm
  obtain ⟨hj, d, hd, he⟩ := hm
  rw [beq_iff_eq] at he
  rw [← he] at hj ⊢
  have hbound : ∀ d ∈ shiMove, -17 ≤ d ∧ d ≤ 17 := by decide
  exact palace_step hp (hbound d hd).1 (hbound d hd).2 hj

/-- A square without a piece of one's own does not hold one's general. -/
theorem not_self (hself : g.isSelfPiece p = false) {k : ℕ} (hk : k ≤ 6) : g.board p ≠ codeOf g.turnToPlay+k := by
  intro hb
  rw [isSelfPiece, hb] at hself
  have hown := bits_own g.turnToPlay hk
  rw [hself] at hown
  cases hown

/-- One's own general after a move. -/
theorem general_moved (h : General g g.turnToPlay) (hne : m.start ≠ m.target)
    (hself : g.isSelfPiece m.target = false)
    (hjs : g.board m.start = codeOf g.turnToPlay+pieceJs → Palace g.turnToPlay m.target) :
    General (g.movePiece m) g.turnToPlay := by
  obtain ⟨p, hp, hown⟩ := h
  have hpt : p ≠ m.target := by
    rintro rfl
    exact not_self hself (by decide) ((hown _).mpr rfl)
  have hzero : (0 : ℕ) ≠ codeOf g.turnToPlay+pieceJs := by
    rw [codeOf]
    omega
  by_cases hps : p = m.start
  · subst hps
    refine ⟨m.target, hjs ((hown _).mpr rfl), fun q => ?_⟩
    rw [movePiece_board hne]
    by_cases hqs : q = m.start
    · rw [hqs, Function.update_self]
      exact iff_of_false hzero hne
    · rw [Function.update_of_ne hqs]
      by_cases hqt : q = m.target
      · rw [hqt, Function.update_self]
        exact iff_of_true ((hown _).mpr rfl) rfl
      · rw [Function.update_of_ne hqt, hown q]
        exact iff_of_false hqs hqt
  · refine ⟨p, hp, fun q => ?_⟩
    rw [movePiece_board hne]
    by_cases hqs : q = m.start
    · rw [hqs, Function.update_self]
      exact iff_of_false hzero (Ne.symm hps)
    · rw [Function.update_of_ne hqs]
      by_cases hqt : q = m.target
      · rw [hqt, Function.update_self, hown]
        exact iff_of_false (Ne.symm hps) (Ne.symm hpt)
      · rw [Function.update_of_ne hqt, hown q]

/-- What does not move and is not taken stays. -/
theorem general_kept (h : General g s) (hne : m.start ≠ m.target) (hstart : g.board m.start ≠ codeOf s+pieceJs)
    (htarget : g.board m.target ≠ codeOf s+pieceJs) : General (g.movePiece m) s := by
  obtain ⟨p, hp, hown⟩ := h
  have hps : p ≠ m.start := by
    rintro rfl
    exact hstart ((hown _).mpr rfl)
  have hpt : p ≠ m.target := by
    rintro rfl
    exact htarget ((hown _).mpr rfl)
  refine ⟨p, hp, fun q => ?_⟩
  rw [movePiece_board hne]
  by_cases hqs : q = m.start
  · rw [hqs, Function.update_self]
    refine iff_of_false ?_ hps.symm
    rw [codeOf]
    omega
  · rw [Function.update_of_ne hqs]
    by_cases hqt : q = m.target
    · rw [hqt, Function.update_self]
      exact iff_of_false hstart hpt.symm
    · rw [Function.update_of_ne hqt, hown q]

theorem changeSide_twice (g : Xiangqi) : g.changeSide.changeSide = g := by
  rw [changeSide, changeSide, other_other]

/-- A piece of one's own moves as its kind does. -/
theorem kind_of (h : Placed g) (hm : Pseudo g m) :
    ∃ k ≤ 6, g.board m.start = codeOf g.turnToPlay+k ∧ canKind g m k = some true := by
  obtain ⟨k, hk, hb⟩ := self_code h hm.1
  have hcan := hm.2.2
  rw [can_kind hk hb] at hcan
  exact ⟨k, hk, hb, hcan⟩

theorem pseudo_ne (hm : Pseudo g m) : m.start ≠ m.target := by
  intro he
  have hself := hm.2.1.2
  rw [← he, hm.1] at hself
  cases hself

/-- A general only moves inside its palace. -/
theorem pseudo_general (h : Arranged g) (hm : Pseudo g m) (hb : g.board m.start = codeOf g.turnToPlay+pieceJs) :
    Palace g.turnToPlay m.target := by
  obtain ⟨k, hk, hbk, hcan⟩ := kind_of h.placed hm
  have hzero := (code_ne hk (by decide) (hbk.symm.trans hb)).2
  subst hzero
  obtain ⟨p, hp, hown⟩ := h.general g.turnToPlay
  rw [← (hown _).mp hb] at hp
  exact js_palace hp (Option.some.inj hcan)

/-- In a good position nobody takes a general. -/
theorem general_safe (h : Good g) (hm : Pseudo g m) : g.board m.target ≠ codeOf g.turnToPlay.other+pieceJs := by
  intro hb
  have harranged : Arranged g.changeSide := ⟨h.arranged.placed, h.arranged.general, h.arranged.adviser⟩
  have hcheck := (check_exact harranged).mpr (.inl ⟨m, by rwa [changeSide_twice], hb⟩)
  rw [h.safe] at hcheck
  cases hcheck

theorem good_after (h : Good g) (hm : m ∈ g.generateAllMoves) : Good (after g m) := by
  obtain ⟨hpseudo, htest⟩ := (generated_iff h.arranged.placed m).mp hm
  have hne := pseudo_ne hpseudo
  obtain ⟨k, hk, hb, hcan⟩ := kind_of h.arranged.placed hpseudo
  have hgeneral : ∀ s, General (g.movePiece m) s := by
    intro s
    by_cases hs : s = g.turnToPlay
    · rw [hs]
      exact general_moved (h.arranged.general _) hne hpseudo.2.1.2 (pseudo_general h.arranged hpseudo)
    · have hother : s = g.turnToPlay.other := by
        cases s <;> cases ht : g.turnToPlay <;> rw [ht] at hs <;> first | rfl | exact absurd rfl hs
      refine general_kept (h.arranged.general s) hne (fun hc => ?_) (hother ▸ general_safe h hpseudo)
      exact hs (code_ne (by decide) hk (hc.symm.trans hb)).1
  refine ⟨⟨placed_after h.arranged.placed hm, hgeneral, fun s q hq => ?_⟩, ?_⟩
  · change (g.movePiece m).board q = codeOf s+pieceShi at hq
    rw [movePiece_board hne] at hq
    by_cases hqs : q = m.start
    · rw [hqs, Function.update_self, codeOf] at hq
      omega
    · rw [Function.update_of_ne hqs] at hq
      by_cases hqt : q = m.target
      · rw [hqt, Function.update_self] at hq
        obtain ⟨hside, hkind⟩ := code_ne (by decide) hk (hq.symm.trans hb)
        subst hkind
        rw [hqt]
        exact shi_palace (h.arranged.adviser s _ hq) (Option.some.inj hcan)
      · rw [Function.update_of_ne hqt] at hq
        exact h.arranged.adviser s q hq
  · rw [after, changeSide_twice]
    rw [testMove, Bool.not_eq_true'] at htest
    exact htest

end Legal

/-! ## Cells -/

/-- An index of `m_board`. -/
def Inside (p : ℤ) : Prop := 0 ≤ p ∧ p < 256

instance (p : ℤ) : Decidable (Inside p) := inferInstanceAs (Decidable (_ ∧ _))

/-- The position without the memory around its board. -/
def trim (g : Xiangqi) : Xiangqi := { g with board := fun p => if Inside p then g.board p else 0 }

section Cells

variable {g : Xiangqi} {m : Move} {p : ℤ}

theorem trim_inside (h : Inside p) : (trim g).board p = g.board p := if_pos h

theorem qipan_inside (h : inQipan p = true) : Inside p := by
  rw [inQipan_iff] at h
  rw [Inside]
  omega

theorem trim_square (h : inQipan p = true) : (trim g).board p = g.board p := trim_inside (qipan_inside h)

theorem trim_self (h : Inside p) : (trim g).isSelfPiece p = g.isSelfPiece p := by
  rw [isSelfPiece, isSelfPiece, trim_inside h]
  rfl

theorem trim_opposite (h : Inside p) : (trim g).isOppositePiece p = g.isOppositePiece p := by
  rw [isOppositePiece, isOppositePiece, trim_inside h]
  rfl

theorem trim_update {b : ℤ → ℕ} {v : ℕ} (h : Inside p) :
    (fun q => if Inside q then Function.update b p v q else 0) = Function.update (fun q => if Inside q then b q else 0) p v := by
  funext q
  by_cases hq : q = p
  · rw [hq, Function.update_self, Function.update_self, if_pos h]
  · rw [Function.update_of_ne hq, Function.update_of_ne hq]

theorem trim_addQizi (h : Inside p) (v : ℕ) : trim (g.addQizi v p) = (trim g).addQizi v p :=
  congrArg (fun b : ℤ → ℕ => (⟨b, g.turnToPlay, g.valueOfBoard+pieceValue v p, g.searchDepth, g.bestMoveIndex,
    g.historyTable⟩ : Xiangqi)) (trim_update h)

theorem trim_delQizi (h : Inside p) (v : ℕ) : trim (g.delQizi v p) = (trim g).delQizi v p :=
  congrArg (fun b : ℤ → ℕ => (⟨b, g.turnToPlay, g.valueOfBoard-pieceValue v p, g.searchDepth, g.bestMoveIndex,
    g.historyTable⟩ : Xiangqi)) (trim_update h)

/-- A piece is put on a cell and taken from another. -/
theorem trim_moved {a b : ℤ} (ha : Inside a) (hb : Inside b) :
    trim ((g.addQizi (g.board a) b).delQizi ((g.addQizi (g.board a) b).board a) a) =
      ((trim g).addQizi ((trim g).board a) b).delQizi (((trim g).addQizi ((trim g).board a) b).board a) a := by
  have hpiece : ((trim g).addQizi (g.board a) b).board a = (g.addQizi (g.board a) b).board a := by
    rw [← trim_addQizi hb, trim_inside ha]
  rw [trim_delQizi ha, trim_addQizi hb, trim_inside ha, hpiece]

theorem trim_movePiece (hs : Inside m.start) (ht : Inside m.target) :
    trim (g.movePiece m) = (trim g).movePiece m := by
  rw [movePiece, movePiece, trim_inside ht]
  by_cases hb : g.board m.target = 0
  · rw [if_neg (not_not.mpr hb), if_neg (not_not.mpr hb)]
    exact congrArg (fun g : Xiangqi => { g with searchDepth := g.searchDepth+1 }) (trim_moved hs ht)
  · rw [if_pos hb, if_pos hb, ← trim_delQizi ht]
    exact congrArg (fun g : Xiangqi => { g with searchDepth := g.searchDepth+1 }) (trim_moved hs ht)

theorem trim_backMovePiece (hs : Inside m.start) (ht : Inside m.target) (eat : ℕ) :
    trim (g.backMovePiece m eat) = (trim g).backMovePiece m eat := by
  rw [backMovePiece, backMovePiece, ← trim_moved ht hs]
  by_cases he : eat = 0
  · rw [if_neg (not_not.mpr he), if_neg (not_not.mpr he)]
    rfl
  · rw [if_pos he, if_pos he, ← trim_addQizi ht]
    rfl

theorem trim_after (hs : Inside m.start) (ht : Inside m.target) : trim (after g m) = after (trim g) m :=
  congrArg changeSide (trim_movePiece hs ht)

end Cells

/-! ## Functions that look at the board -/

section Looks

variable {g : Xiangqi} {m : Move} {position target p : ℤ} {l : List ℤ}

theorem any_congr_mem {α : Type} {l : List α} {f f' : α → Bool} (h : ∀ a ∈ l, f a = f' a) : l.any f = l.any f' := by
  induction l with
  | nil => rfl
  | cons a l ih =>
    rw [List.any_cons, List.any_cons, h a List.mem_cons_self, ih fun b hb => h b (List.mem_cons_of_mem a hb)]

theorem jujsOn_trim (hl : ∀ q ∈ l, inQipan q = true) : (trim g).jujsOn l = g.jujsOn l := by
  induction l with
  | nil => rfl
  | cons q l ih =>
    obtain ⟨hq, hl⟩ := List.forall_mem_cons.mp hl
    rw [jujsOn, jujsOn, trim_square hq, ih hl]
    rfl

theorem paoOn_trim {flag : Bool} (hl : ∀ q ∈ l, inQipan q = true) : (trim g).paoOn flag l = g.paoOn flag l := by
  induction l generalizing flag with
  | nil => rfl
  | cons q l ih =>
    obtain ⟨hq, hl⟩ := List.forall_mem_cons.mp hl
    rw [paoOn, paoOn, trim_square hq, ih hl, ih hl]
    rfl

theorem lineFrom_inside {delta : ℤ} : ∀ q ∈ lineFrom delta position, inQipan q = true := fun _ hq => (line_inside hq).1

/-- With its general in the palace, the check looks at the board alone. -/
theorem isJiangjun_trim (h : General (trim g) g.turnToPlay) : (trim g).isJiangjun = g.isJiangjun := by
  obtain ⟨p, hp, hown⟩ := h
  have hin := palace_inside hp
  have hbounds := (inQipan_iff p).mp hin
  have hfirst : (trim g).jsPosition = p := jsPosition_eq hin hown
  have hcell : ∀ q ∈ (List.range 256).map fun i : ℕ => (i : ℤ),
      ((trim g).board q == g.selfSide+pieceJs) = (g.board q == g.selfSide+pieceJs) := by
    intro q hq
    obtain ⟨i, hi, rfl⟩ := List.mem_map.mp hq
    have hlt := List.mem_range.mp hi
    rw [trim_inside ⟨by omega, by omega⟩]
  have hsame : (trim g).jsPosition = g.jsPosition :=
    congrArg (fun o : Option ℤ => o.getD 256) (List.find?_congr hcell)
  have hju : (trim g).isJiangjunByJujs p = g.isJiangjunByJujs p :=
    any_congr_mem fun delta _ => jujsOn_trim lineFrom_inside
  have hpao : (trim g).isJiangjunByPao p = g.isJiangjunByPao p :=
    any_congr_mem fun delta _ => paoOn_trim lineFrom_inside
  have hma : (trim g).isJiangjunByMa p = g.isJiangjunByMa p := by
    refine any_congr_mem fun x hx => ?_
    have hbound : ∀ x ∈ maMove.zip jsMatui, (-33 ≤ x.1 ∧ x.1 ≤ 33) ∧ -17 ≤ x.2 ∧ x.2 ≤ 17 := by decide
    obtain ⟨⟨h1, h2⟩, h3, h4⟩ := hbound x hx
    rw [trim_inside ⟨by omega, by omega⟩, trim_inside ⟨by omega, by omega⟩]
    rfl
  have hbz : (trim g).isJiangjunByBz p = g.isJiangjunByBz p := by
    have hforward : Inside (g.getForward p) := by
      rw [getForward]
      cases g.turnToPlay with
      | red => exact ⟨by simp only; omega, by simp only; omega⟩
      | black => exact ⟨by simp only; omega, by simp only; omega⟩
    rw [isJiangjunByBz, isJiangjunByBz]
    change ((trim g).board (g.getForward p) == _ || _ || _) = _
    rw [trim_inside hforward, trim_inside ⟨by omega, by omega⟩, trim_inside ⟨by omega, by omega⟩]
    rfl
  rw [isJiangjun, isJiangjun, ← hsame, hfirst, hju, hma, hpao, hbz]

/-- A target of a move of a piece of one's own, which stays in its palace if it is the general. -/
structure Allowed (g : Xiangqi) (position target : ℤ) : Prop where
  start : inQipan position = true
  square : inQipan target = true
  own : g.isSelfPiece position = true
  free : g.isSelfPiece target = false
  palace : g.board position = codeOf g.turnToPlay+pieceJs → Palace g.turnToPlay target

theorem addTested_trim (h : General (trim g) g.turnToPlay) (ha : Allowed g position target) :
    (trim g).addTested position target = g.addTested position target := by
  have hs := qipan_inside ha.start
  have ht := qipan_inside ha.square
  have hne : position ≠ target := by
    rintro rfl
    have hself := ha.own
    rw [ha.free] at hself
    cases hself
  have hmoved : General ((trim g).movePiece ⟨position, target⟩) (trim g).turnToPlay := by
    refine general_moved h hne ((trim_self ht).trans ha.free) fun hb => ha.palace ?_
    rw [← trim_inside hs]
    exact hb
  have hcheck : (trim g).testMove position target = g.testMove position target := by
    rw [testMove, testMove, ← trim_movePiece hs ht]
    rw [← trim_movePiece (m := ⟨position, target⟩) hs ht] at hmoved
    rw [isJiangjun_trim (by rw [movePiece_turn]; exact hmoved)]
  rw [addTested, addTested, hcheck]

end Looks

/-! ## The generators -/

section Generators

variable {g : Xiangqi} {m : Move} {position target : ℤ} {l : List ℤ} {eat : Bool} {k : ℕ}

/-- A piece of one's own on a square, in a position with pieces on squares only and one's own
general in the palace. -/
structure Seat (g : Xiangqi) (position : ℤ) (k : ℕ) : Prop where
  placed : Placed (trim g)
  general : General (trim g) g.turnToPlay
  square : inQipan position = true
  own : g.isSelfPiece position = true
  piece : g.board position = codeOf g.turnToPlay+k
  kind : k ≤ 6

theorem wanted_trim (h : Inside target) : (trim g).wanted eat target = g.wanted eat target := by
  rw [wanted, wanted, trim_self h, trim_opposite h]

theorem free_of_opposite (h : Placed (trim g)) (ht : Inside target) (ho : g.isOppositePiece target = true) :
    g.isSelfPiece target = false := by
  rw [← trim_opposite ht] at ho
  rw [← trim_self ht]
  exact ((opposite_iff h).mp ho).2

theorem free_of_wanted (h : Placed (trim g)) (ht : Inside target) (hw : g.wanted eat target = true) :
    g.isSelfPiece target = false := by
  rw [wanted] at hw
  cases eat with
  | true => exact free_of_opposite h ht hw
  | false => simpa using hw

/-- Other pieces than the general may go anywhere. -/
theorem Seat.allowed (h : Seat g position k) (hk : k ≠ 0) (ht : inQipan target = true)
    (hfree : g.isSelfPiece target = false) : Allowed g position target :=
  ⟨h.square, ht, h.own, hfree, fun hb => absurd (code_ne h.kind (by decide) (h.piece.symm.trans hb)).2 hk⟩

theorem Seat.general_allowed (h : Seat g position 0) {d : ℤ} (hd : d ∈ jsMove) (hj : inJiugong (position+d) = true)
    (hfree : g.isSelfPiece (position+d) = false) : Allowed g position (position+d) := by
  refine ⟨h.square, inJiugong_inQipan hj, h.own, hfree, fun _ => ?_⟩
  obtain ⟨p, hp, hown⟩ := h.general
  have hsame : position = p := (hown position).mp ((trim_square h.square).trans h.piece)
  have hbound : ∀ d ∈ jsMove, -17 ≤ d ∧ d ≤ 17 := by decide
  rw [hsame] at hj ⊢
  exact palace_step hp (hbound d hd).1 (hbound d hd).2 hj

theorem stepMoves_trim (h : Seat g position k) {region : ℤ → Bool} {steps : List ℤ}
    (hr : ∀ p, region p = true → inQipan p = true)
    (ha : ∀ d ∈ steps, region (position+d) = true → g.isSelfPiece (position+d) = false →
      Allowed g position (position+d)) :
    (trim g).stepMoves eat region position steps = g.stepMoves eat region position steps := by
  refine List.flatMap_congr fun d hd => ?_
  by_cases hreg : region (position+d) = true
  · have hin := qipan_inside (hr _ hreg)
    rw [wanted_trim hin]
    by_cases hw : g.wanted eat (position+d) = true
    · rw [addTested_trim h.general (ha d hd hreg (free_of_wanted h.placed hin hw))]
    · rw [if_neg hw, if_neg hw]
  · rw [if_pos (by simpa using hreg), if_pos (by simpa using hreg)]

theorem leapMoves_trim (h : Seat g position k) (hk : k ≠ 0) {region : ℤ → Bool} {steps : List (ℤ × ℤ)}
    (hr : ∀ p, region p = true → inQipan p = true) (hsteps : ∀ x ∈ steps, -17 ≤ x.2 ∧ x.2 ≤ 17) :
    (trim g).leapMoves eat region position steps = g.leapMoves eat region position steps := by
  have hbounds := (inQipan_iff position).mp h.square
  refine List.flatMap_congr fun x hx => ?_
  have hleg := hsteps x hx
  rw [trim_inside (p := position+x.2) ⟨by omega, by omega⟩]
  by_cases hreg : region (position+x.1) = true
  · have hin := qipan_inside (hr _ hreg)
    rw [wanted_trim hin]
    by_cases hw : g.wanted eat (position+x.1) = true
    · rw [addTested_trim h.general (h.allowed hk (hr _ hreg) (free_of_wanted h.placed hin hw))]
    · rw [if_neg hw, if_neg hw]
  · have hstop : (!region (position+x.1) || g.board (position+x.2) != 0) = true := by
      rw [Bool.not_eq_true] at hreg
      rw [hreg]
      rfl
    rw [if_pos hstop, if_pos hstop]

theorem juLine_trim (h : Seat g position k) (hk : k ≠ 0) (hl : ∀ q ∈ l, inQipan q = true) :
    (trim g).juLine eat position l = g.juLine eat position l := by
  induction l with
  | nil => rfl
  | cons q l ih =>
    obtain ⟨hq, hl⟩ := List.forall_mem_cons.mp hl
    rw [juLine, juLine, ih hl, trim_square hq, trim_opposite (qipan_inside hq)]
    by_cases hb : g.board q = 0
    · rw [if_pos hb, if_pos hb, addTested_trim h.general (h.allowed hk hq (empty_self hb))]
    · rw [if_neg hb, if_neg hb]
      by_cases ho : g.isOppositePiece q = true
      · rw [addTested_trim h.general (h.allowed hk hq (free_of_opposite h.placed (qipan_inside hq) ho))]
      · rw [if_neg ho, if_neg ho]

theorem paoLine_trim (h : Seat g position k) (hk : k ≠ 0) {flag : Bool} (hl : ∀ q ∈ l, inQipan q = true) :
    (trim g).paoLine eat position flag l = g.paoLine eat position flag l := by
  induction l generalizing flag with
  | nil => rfl
  | cons q l ih =>
    obtain ⟨hq, hl⟩ := List.forall_mem_cons.mp hl
    rw [paoLine, paoLine, ih hl, ih hl, trim_square hq, trim_opposite (qipan_inside hq)]
    by_cases hb : g.board q = 0
    · rw [if_pos hb, if_pos hb, addTested_trim h.general (h.allowed hk hq (empty_self hb))]
    · rw [if_neg hb, if_neg hb]
      by_cases ho : g.isOppositePiece q = true
      · rw [addTested_trim h.general (h.allowed hk hq (free_of_opposite h.placed (qipan_inside hq) ho))]
      · rw [if_neg ho, if_neg ho]

theorem bzStep_trim (h : Seat g position k) (hk : k ≠ 0) (ht : Inside target) :
    (trim g).bzStep eat position target = g.bzStep eat position target := by
  rw [bzStep, bzStep, wanted_trim ht]
  by_cases hw : (g.wanted eat target && inQipan target) = true
  · obtain ⟨hw1, hin⟩ := Bool.and_eq_true_iff.mp hw
    rw [addTested_trim h.general (h.allowed hk hin (free_of_wanted h.placed ht hw1))]
  · rw [if_neg hw, if_neg hw]

theorem bzMoves_trim (h : Seat g position k) (hk : k ≠ 0) : (trim g).bzMoves eat position = g.bzMoves eat position := by
  have hbounds := (inQipan_iff position).mp h.square
  have hforward : Inside (g.getForward position) := by
    rw [getForward]
    cases g.turnToPlay with
    | red => exact ⟨by simp only; omega, by simp only; omega⟩
    | black => exact ⟨by simp only; omega, by simp only; omega⟩
  rw [bzMoves, bzMoves]
  change (trim g).bzStep eat position (g.getForward position) ++ (if g.atOppositeSide position = true then
    (trim g).bzStep eat position (position+1) ++ (trim g).bzStep eat position (position-1) else []) = _
  rw [bzStep_trim h hk hforward, bzStep_trim h hk ⟨by omega, by omega⟩, bzStep_trim h hk ⟨by omega, by omega⟩]

/-- The moves of a piece of a kind. -/
def kindMoves (g : Xiangqi) (eat : Bool) (position : ℤ) : ℕ → List Move
  | 0 => g.stepMoves eat inJiugong position jsMove
  | 1 => g.stepMoves eat inJiugong position shiMove
  | 2 => g.leapMoves eat (fun target => inQipan target && !g.atOppositeSide target) position (xiangMove.zip xiangyan)
  | 3 => g.leapMoves eat inQipan position (maMove.zip matui)
  | 4 => jsMove.flatMap fun delta => g.juLine eat position (lineFrom delta position)
  | 5 => jsMove.flatMap fun delta => g.paoLine eat position false (lineFrom delta position)
  | 6 => g.bzMoves eat position
  | _ => []

/-- The moves of the piece on a square look at the board alone. -/
theorem Seat.moves (h : Seat g position k) : kindMoves (trim g) eat position k = kindMoves g eat position k := by
  have hkind := h.kind
  have heyes : ∀ x ∈ xiangMove.zip xiangyan, -17 ≤ x.2 ∧ x.2 ≤ 17 := by decide
  have hlegs : ∀ x ∈ maMove.zip matui, -17 ≤ x.2 ∧ x.2 ≤ 17 := by decide
  interval_cases k
  · exact stepMoves_trim h (fun _ => inJiugong_inQipan) fun d hd hj hfree => h.general_allowed hd hj hfree
  · exact stepMoves_trim h (fun _ => inJiugong_inQipan) fun d _ hj hfree =>
      h.allowed (by decide) (inJiugong_inQipan hj) hfree
  · change (trim g).leapMoves eat (fun target => inQipan target && !g.atOppositeSide target) position _ = _
    exact leapMoves_trim h (by decide) (fun p hp => (Bool.and_eq_true_iff.mp hp).1) heyes
  · exact leapMoves_trim h (by decide) (fun _ hp => hp) hlegs
  · exact List.flatMap_congr fun delta _ => juLine_trim h (by decide) lineFrom_inside
  · exact List.flatMap_congr fun delta _ => paoLine_trim h (by decide) lineFrom_inside
  · exact bzMoves_trim h (by decide)

theorem seat_of (h : Placed (trim g)) (hg : General (trim g) g.turnToPlay) (hp : inQipan position = true)
    (hs : g.isSelfPiece position = true) : ∃ k, Seat g position k := by
  obtain ⟨k, hk, hb⟩ := self_code h ((trim_self (qipan_inside hp)).trans hs)
  rw [trim_square hp] at hb
  exact ⟨k, h, hg, hp, hs, hb, hk⟩

/-- All moves, or all that eat. -/
def allKinds (g : Xiangqi) (eat : Bool) : List Move :=
  positions.flatMap fun position =>
    if g.isSelfPiece position then kindMoves g eat position (g.board position-g.selfSide) else []

theorem allKinds_trim (h : Placed (trim g)) (hg : General (trim g) g.turnToPlay) :
    allKinds (trim g) eat = allKinds g eat := by
  refine List.flatMap_congr fun position hp => ?_
  have hin := (mem_positions position).mp hp
  rw [trim_self (qipan_inside hin)]
  by_cases hs : g.isSelfPiece position = true
  · obtain ⟨k, hseat⟩ := seat_of h hg hin hs
    rw [if_pos hs, if_pos hs, trim_square hin]
    change kindMoves (trim g) eat position (g.board position-g.selfSide) = _
    rw [hseat.piece, selfSide_code, Nat.add_sub_cancel_left]
    exact hseat.moves
  · rw [if_neg hs, if_neg hs]

theorem generateAllMoves_kinds (g : Xiangqi) : g.generateAllMoves = allKinds g false := by
  refine List.flatMap_congr fun position _ => ?_
  generalize g.board position-g.selfSide = k
  rcases k with _ | _ | _ | _ | _ | _ | _ | k <;> rfl

theorem generateAllEatMoves_kinds (g : Xiangqi) : g.generateAllEatMoves = allKinds g true := by
  refine List.flatMap_congr fun position _ => ?_
  generalize g.board position-g.selfSide = k
  rcases k with _ | _ | _ | _ | _ | _ | _ | k <;> rfl

theorem generateAllMoves_trim (h : Placed (trim g)) (hg : General (trim g) g.turnToPlay) :
    (trim g).generateAllMoves = g.generateAllMoves := by
  rw [generateAllMoves_kinds, generateAllMoves_kinds, allKinds_trim h hg]

theorem generateAllEatMoves_trim (h : Placed (trim g)) (hg : General (trim g) g.turnToPlay) :
    (trim g).generateAllEatMoves = g.generateAllEatMoves := by
  rw [generateAllEatMoves_kinds, generateAllEatMoves_kinds, allKinds_trim h hg]

end Generators

/-! ## The search -/

section Search

variable {g s s' : Xiangqi} {m : Move} {ms : List Move} {child : ℤ → ℤ → Xiangqi → Option (ℤ × Xiangqi)}
variable {alpha beta best value : ℤ} {i index k rounds d : ℕ}

/-- The part of a result that is on the board. -/
def trimmed (r : ℤ × Xiangqi) : ℤ × Xiangqi := (r.1, trim r.2)

theorem restored_trim (h : Restored g s) : Restored (trim g) (trim s) := by
  refine ⟨?_, h.turnToPlay, h.valueOfBoard, h.searchDepth⟩
  change (fun p => if Inside p then s.board p else 0) = _
  rw [h.board]
  rfl

/-- Only the board and the side matter. -/
theorem good_same (h : Good g) (hboard : s.board = g.board) (hturn : s.turnToPlay = g.turnToPlay) : Good s := by
  refine ⟨⟨fun p hp => ?_, fun t => ?_, fun t p hp => ?_⟩, ?_⟩
  · rw [hboard] at hp ⊢
    exact h.arranged.placed p hp
  · rw [hboard]
    exact h.arranged.general t
  · rw [hboard] at hp
    exact h.arranged.adviser t p hp
  · have hcore : core s.changeSide = core g.changeSide := by
      rw [core, core]
      change (⟨s.board, s.turnToPlay.other, 0, 0, 0, _⟩ : Xiangqi) = ⟨g.board, g.turnToPlay.other, 0, 0, 0, _⟩
      rw [hboard, hturn]
    rw [← isJiangjun_core, hcore, isJiangjun_core]
    exact h.safe

/-- A move of a good position is between two cells, and leads to a good position. -/
structure Fine (g : Xiangqi) (m : Move) : Prop where
  differ : m.start ≠ m.target
  start : Inside m.start
  target : Inside m.target
  good : Good (trim (after g m))

theorem Good.general (h : Good (trim g)) : General (trim g) g.turnToPlay := h.arranged.general _

theorem fine_move (h : Good (trim g)) (hm : m ∈ g.generateAllMoves) : Fine g m := by
  rw [← generateAllMoves_trim h.arranged.placed h.general] at hm
  obtain ⟨hpseudo, -⟩ := (generated_iff h.arranged.placed m).mp hm
  have hs := qipan_inside (self_inQipan h.arranged.placed hpseudo.1)
  have ht := qipan_inside hpseudo.2.1.1
  refine ⟨pseudo_ne hpseudo, hs, ht, ?_⟩
  rw [trim_after hs ht]
  exact good_after h hm

theorem fine_eat (h : Good (trim g)) (hm : m ∈ g.generateAllEatMoves) : Fine g m := by
  rw [← generateAllEatMoves_trim h.arranged.placed h.general] at hm
  have hall := eat_mem h.arranged.placed hm
  rw [generateAllMoves_trim h.arranged.placed h.general] at hall
  exact fine_move h hall

/-- A search that restores good positions, and looks at the board alone. -/
structure Sees (child : ℤ → ℤ → Xiangqi → Option (ℤ × Xiangqi)) : Prop where
  restores : ∀ {alpha beta value g g'}, Good (trim g) → child alpha beta g = some (value, g') → Restored g g'
  trims : ∀ {alpha beta g}, Good (trim g) → child alpha beta (trim g) = (child alpha beta g).map trimmed

theorem Fine.restored (h : Fine g m) (hs : Restored g s) : Good (trim (after s m)) := by
  have hr := restored_trim (restored_after h.differ hs)
  exact good_same h.good hr.board hr.turnToPlay

/-- The loop restores the position, and its index is that of one of its moves if it is not
the one that it began with. -/
theorem searchLoop_restores (hc : Sees child) (hms : ∀ m ∈ ms, Fine g m) (hs : Restored g s)
    (h : searchLoop child beta ms i index alpha best s = some (value, k, s')) :
    Restored g s' ∧ (k = index ∨ k < i+ms.length) := by
  induction ms generalizing i index alpha best s with
  | nil =>
    cases h
    exact ⟨hs, .inl rfl⟩
  | cons m ms ih =>
    obtain ⟨hm, hms⟩ := List.forall_mem_cons.mp hms
    rw [searchLoop] at h
    cases hchild : child (-beta) (-alpha) (after s m) with
    | none =>
      rw [hchild] at h
      cases h
    | some r =>
      rw [hchild] at h
      dsimp only at h
      have hback : Restored g ((r.2.backMovePiece m (s.board m.target)).changeSide) :=
        hs.trans (back_move hm.differ (hc.restores (hm.restored hs) hchild))
      have hlen : (m :: ms).length = ms.length+1 := rfl
      by_cases hbetter : -r.1 > best
      · rw [if_pos hbetter] at h
        by_cases hcut : -r.1 ≥ beta
        · rw [if_pos hcut] at h
          cases h
          exact ⟨hback, .inr (by omega)⟩
        · rw [if_neg hcut] at h
          obtain ⟨hrest, hindex⟩ := ih hms hback h
          exact ⟨hrest, .inr (by omega)⟩
      · rw [if_neg hbetter] at h
        obtain ⟨hrest, hindex⟩ := ih hms hback h
        exact ⟨hrest, by omega⟩

theorem searchLoop_trim (hc : Sees child) (hms : ∀ m ∈ ms, Fine g m) (hs : Restored g s) :
    searchLoop child beta ms i index alpha best (trim s) =
      (searchLoop child beta ms i index alpha best s).map fun r => (r.1, r.2.1, trim r.2.2) := by
  induction ms generalizing i index alpha best s with
  | nil => rfl
  | cons m ms ih =>
    obtain ⟨hm, hms⟩ := List.forall_mem_cons.mp hms
    have hgood := hm.restored hs
    rw [searchLoop, searchLoop, ← trim_after hm.start hm.target, hc.trims hgood, trim_inside hm.target]
    cases hchild : child (-beta) (-alpha) (after s m) with
    | none => rfl
    | some r =>
      have hback : Restored g ((r.2.backMovePiece m (s.board m.target)).changeSide) :=
        hs.trans (back_move hm.differ (hc.restores hgood hchild))
      have htrim : ((trim r.2).backMovePiece m (s.board m.target)).changeSide =
          trim ((r.2.backMovePiece m (s.board m.target)).changeSide) := by
        rw [← trim_backMovePiece hm.start hm.target]
        rfl
      rw [Option.map_some, trimmed]
      dsimp only
      rw [htrim, ih hms hback, ih hms hback]
      split_ifs <;> rfl

theorem quiescent_sees : Sees (quiescentSearch rounds) := by
  induction rounds with
  | zero => exact ⟨fun _ h => (by cases h), fun _ => rfl⟩
  | succ n ih =>
    refine ⟨fun {alpha beta value g g'} hg h => ?_, fun {alpha beta g} hg => ?_⟩
    · rw [quiescentSearch] at h
      dsimp only at h
      generalize (if staticValue g > -siqiValue then staticValue g else -siqiValue) = best at h
      generalize (if staticValue g > -siqiValue ∧ staticValue g > alpha then staticValue g else alpha) = low at h
      split_ifs at h
      · cases h
        exact Restored.refl g
      · cases h
        exact Restored.refl g
      · obtain ⟨⟨v, k, s⟩, hloop, hr⟩ := Option.map_eq_some_iff.mp h
        cases hr
        exact (searchLoop_restores ih (fun m hm => fine_eat hg hm) (Restored.refl g) hloop).1
    · rw [quiescentSearch, quiescentSearch, generateAllEatMoves_trim hg.arranged.placed hg.general]
      dsimp only
      rw [searchLoop_trim ih (fun m hm => fine_eat hg hm) (Restored.refl g)]
      change (if staticValue g > -siqiValue ∧ staticValue g ≥ beta then some (staticValue g, trim g) else
        if g.searchDepth > 11 then some (if staticValue g > -siqiValue then staticValue g else -siqiValue, trim g)
        else if maxEatMoves < g.generateAllEatMoves.length then none
        else ((searchLoop (quiescentSearch n) beta g.generateAllEatMoves 0 0
          (if staticValue g > -siqiValue ∧ staticValue g > alpha then staticValue g else alpha)
          (if staticValue g > -siqiValue then staticValue g else -siqiValue) g).map _).map _) = _
      generalize (if staticValue g > -siqiValue then staticValue g else -siqiValue) = best
      generalize (if staticValue g > -siqiValue ∧ staticValue g > alpha then staticValue g else alpha) = low
      split_ifs
      · rfl
      · rfl
      · rfl
      · rw [Option.map_map, Option.map_map]
        rfl

theorem alphaBeta_sees : Sees (alphaBeta rounds d) := by
  induction d with
  | zero => exact quiescent_sees
  | succ d ih =>
    refine ⟨fun {alpha beta value g g'} hg h => ?_, fun {alpha beta g} hg => ?_⟩
    · rw [alphaBeta] at h
      split_ifs at h
      obtain ⟨⟨v, k, s⟩, hloop, hr⟩ := Option.map_eq_some_iff.mp h
      cases hr
      have hsorted : ∀ m ∈ sortByHistorytable g.historyTable g.generateAllMoves, Fine g m :=
        fun m hm => fine_move hg ((sortRounds_perm _ _).mem_iff.mp hm)
      exact record_restored (searchLoop_restores ih hsorted (Restored.refl g) hloop).1 _ _ _
    · have hsorted : ∀ m ∈ sortByHistorytable g.historyTable g.generateAllMoves, Fine g m :=
        fun m hm => fine_move hg ((sortRounds_perm _ _).mem_iff.mp hm)
      rw [alphaBeta, alphaBeta, generateAllMoves_trim hg.arranged.placed hg.general]
      change (if _ then none else (searchLoop (alphaBeta rounds d) beta
        (sortByHistorytable g.historyTable g.generateAllMoves) 0 0 alpha (-siqiValue) (trim g)).map _) = _
      rw [searchLoop_trim ih hsorted (Restored.refl g)]
      split_ifs
      · rfl
      · rw [Option.map_map, Option.map_map]
        rfl

/-- At the root the search ends with the index of a move. -/
theorem alphaBeta_index (hg : Good (trim g)) (hd : d ≠ 0) (hdepth : g.searchDepth = 0)
    (hsome : 0 < g.generateAllMoves.length) (h : alphaBeta rounds d alpha beta g = some (value, s')) :
    s'.bestMoveIndex < g.generateAllMoves.length := by
  obtain ⟨d, rfl⟩ := Nat.exists_eq_succ_of_ne_zero hd
  rw [alphaBeta] at h
  split_ifs at h
  obtain ⟨⟨v, k, s⟩, hloop, hr⟩ := Option.map_eq_some_iff.mp h
  cases hr
  have hperm : (sortByHistorytable g.historyTable g.generateAllMoves).Perm g.generateAllMoves := sortRounds_perm _ _
  obtain ⟨hrest, hindex⟩ := searchLoop_restores alphaBeta_sees (fun m hm => fine_move hg (hperm.mem_iff.mp hm))
    (Restored.refl g) hloop
  rw [hperm.length_eq] at hindex
  have hroot : (record s (sortByHistorytable g.historyTable g.generateAllMoves) k (d+1)).bestMoveIndex = k :=
    if_pos (hrest.searchDepth.trans hdepth)
  dsimp only
  rw [hroot]
  omega

end Search

end BabyOS.XiangqiCells

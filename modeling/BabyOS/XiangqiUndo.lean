import BabyOS.XiangqiSearch
import Mathlib.Algebra.BigOperators.Group.Finset.Basic
import Mathlib.Algebra.BigOperators.Ring.Finset

/-!
# Moves made and taken back

Moves are made and taken back in any order, the last one first. The value of the board is
kept by the way: at every point it has changed as the sum of the values of the pieces where
they stand.
-/

set_option autoImplicit false

namespace BabyOS.XiangqiUndo
open BabyOS.XiangqiBoard BabyOS.XiangqiBoard.Xiangqi BabyOS.XiangqiSearch

/-- A cell for which the table has a mirrored one. -/
def Cell (p : ℤ) : Prop := 0 ≤ p ∧ p ≤ 254

/-- The value of what stands on a cell. -/
def cellValue (qiziNo : ℕ) (p : ℤ) : ℤ := if qiziNo ≠ 0 then pieceValue qiziNo p else 0

/-- The sum over the board. -/
def boardValue (b : ℤ → ℕ) : ℤ := ∑ i ∈ Finset.range 255, cellValue (b i) i

structure Legal (g : Xiangqi) (m : Move) : Prop where
  start : Cell m.start
  target : Cell m.target
  apart : m.start ≠ m.target
  piece : g.board m.start ≠ 0

/-- Moves are made and taken back; the list holds those that have not been taken back, with
what they ate. -/
inductive Play (g₀ : Xiangqi) : List (Move × ℕ) → Xiangqi → Prop
  | start : Play g₀ [] g₀
  | make {st : List (Move × ℕ)} {g : Xiangqi} (m : Move) : Play g₀ st g → Legal g m →
      Play g₀ ((m, g.board m.target) :: st) (g.movePiece m)
  | unmake {st : List (Move × ℕ)} {g : Xiangqi} {m : Move} {eat : ℕ} : Play g₀ ((m, eat) :: st) g →
      Play g₀ st (g.backMovePiece m eat)

/-- The moves that are left are taken back. -/
def unwind (g : Xiangqi) (st : List (Move × ℕ)) : Xiangqi := st.foldl (fun g x => g.backMovePiece x.1 x.2) g

/-- Each move of the list was made in some position, which those before it lead to. -/
def Made (g₀ : Xiangqi) : List (Move × ℕ) → Xiangqi → Prop
  | [], g => Restored g₀ g
  | (m, eat) :: st, g => ∃ h, Made g₀ st h ∧ Legal h m ∧ eat = h.board m.target ∧ Restored (h.movePiece m) g

section Values

variable {g g' g₀ : Xiangqi} {b : ℤ → ℕ} {m : Move} {st : List (Move × ℕ)} {p : ℤ}

theorem boardValue_update (hp : Cell p) (v : ℕ) :
    boardValue (Function.update b p v)+cellValue (b p) p = boardValue b+cellValue v p := by
  obtain ⟨hlow, hhigh⟩ := hp
  lift p to ℕ using hlow
  have hmem : p ∈ Finset.range 255 := Finset.mem_range.mpr (by omega)
  have hrest : ∑ i ∈ (Finset.range 255).erase p, cellValue (Function.update b (p : ℤ) v i) i =
      ∑ i ∈ (Finset.range 255).erase p, cellValue (b i) i := by
    refine Finset.sum_congr rfl fun i hi => ?_
    rw [Function.update_of_ne]
    exact fun hc => Finset.ne_of_mem_erase hi (Int.ofNat_inj.mp hc)
  rw [boardValue, boardValue, ← Finset.add_sum_erase _ _ hmem, ← Finset.add_sum_erase _ _ hmem, hrest,
    Function.update_self]
  ring

/-- A move changes the value of the board as it changes the sum. -/
theorem movePiece_sum (h : Legal g m) :
    (g.movePiece m).valueOfBoard-g.valueOfBoard = boardValue (g.movePiece m).board-boardValue g.board := by
  have htarget := boardValue_update (b := g.board) h.target (g.board m.start)
  have hstart := boardValue_update (b := Function.update g.board m.target (g.board m.start)) h.start 0
  rw [Function.update_of_ne h.apart] at hstart
  have hempty : ∀ q, cellValue 0 q = 0 := fun _ => rfl
  have hpiece : ∀ q, cellValue (g.board m.start) q = pieceValue (g.board m.start) q := fun _ => if_pos h.piece
  have heat : cellValue (g.board m.target) m.target =
      if g.board m.target ≠ 0 then pieceValue (g.board m.target) m.target else 0 := rfl
  rw [hempty] at hstart
  rw [hpiece] at hstart htarget
  rw [movePiece_value h.apart, movePiece_board h.apart, ← heat]
  omega

end Values

/-! ## Taking back -/

section Undo

variable {g g' g₀ : Xiangqi} {m : Move} {st : List (Move × ℕ)}

theorem restored_back (hne : m.start ≠ m.target) (h : Restored g g') (eat : ℕ) :
    Restored (g.backMovePiece m eat) (g'.backMovePiece m eat) := by
  refine ⟨?_, ?_, ?_, ?_⟩
  · rw [backMovePiece_board, backMovePiece_board, h.board]
  · rw [backMovePiece_turn, backMovePiece_turn, h.turnToPlay]
  · rw [backMovePiece_value hne, backMovePiece_value hne, h.board, h.valueOfBoard]
  · rw [backMovePiece_depth, backMovePiece_depth, h.searchDepth]

/-- A move is taken back by the side that made it. -/
theorem made_back (hne : m.start ≠ m.target) : Restored g ((g.movePiece m).backMovePiece m (g.board m.target)) := by
  have hback := back_move hne (Restored.refl (after g m))
  have hside : Restored (((after g m).backMovePiece m (g.board m.target)).changeSide)
      ((g.movePiece m).backMovePiece m (g.board m.target)) := by
    refine ⟨?_, ?_, ?_, ?_⟩
    · rw [backMovePiece_board]
      exact (backMovePiece_board (g := after g m) (g.board m.target)).symm
    · rw [hback.turnToPlay, backMovePiece_turn, movePiece_turn]
    · rw [backMovePiece_value hne]
      exact (backMovePiece_value (g := after g m) hne (g.board m.target)).symm
    · rw [backMovePiece_depth]
      exact (backMovePiece_depth (g := after g m) (m := m) (g.board m.target)).symm
  exact hback.trans hside

theorem Made.congr (h : Made g₀ st g) (hr : Restored g g') : Made g₀ st g' := by
  cases st with
  | nil => exact Restored.trans h hr
  | cons x st =>
    obtain ⟨k, hk, hlegal, heat, hrest⟩ := h
    exact ⟨k, hk, hlegal, heat, hrest.trans hr⟩

/-- The position before the last move. -/
theorem Made.back {eat : ℕ} (h : Made g₀ ((m, eat) :: st) g) : Made g₀ st (g.backMovePiece m eat) := by
  obtain ⟨k, hk, hlegal, rfl, hrest⟩ := h
  exact hk.congr ((made_back hlegal.apart).trans (restored_back hlegal.apart hrest _))

theorem made_play (h : Play g₀ st g) : Made g₀ st g := by
  induction h with
  | start => exact Restored.refl g₀
  | make m _ hlegal ih => exact ⟨_, ih, hlegal, rfl, Restored.refl _⟩
  | unmake _ ih => exact ih.back

theorem Made.value (h : Made g₀ st g) : g.valueOfBoard-g₀.valueOfBoard = boardValue g.board-boardValue g₀.board := by
  induction st generalizing g with
  | nil =>
    have hr : Restored g₀ g := h
    rw [hr.board, hr.valueOfBoard]
    omega
  | cons x st ih =>
    obtain ⟨k, hk, hlegal, _, hrest⟩ := h
    have hbefore := ih hk
    have hmove := movePiece_sum hlegal
    rw [hrest.board, hrest.valueOfBoard]
    omega

theorem Made.unwind (h : Made g₀ st g) : Restored g₀ (unwind g st) := by
  induction st generalizing g with
  | nil => exact h
  | cons x st ih => exact ih h.back

/-- At every point the value of the board has changed as the sum over the board, and once the
moves that are left are taken back, board, value and depth are those of the start. -/
theorem moves_undone (h : Play g₀ st g) :
    g.valueOfBoard-g₀.valueOfBoard = boardValue g.board-boardValue g₀.board ∧ Restored g₀ (unwind g st) :=
  ⟨(made_play h).value, (made_play h).unwind⟩

/-- The red general takes a step and goes back. -/
theorem moves_undone_step : Restored generals (unwind (generals.movePiece ⟨198, 199⟩) [(⟨198, 199⟩, 0)]) ∧
    Restored generals ((generals.movePiece ⟨198, 199⟩).backMovePiece ⟨198, 199⟩ 0) := by
  have hlegal : Legal generals ⟨198, 199⟩ := ⟨⟨by decide, by decide⟩, ⟨by decide, by decide⟩, by decide, by decide⟩
  have hmake : Play generals [(⟨198, 199⟩, 0)] (generals.movePiece ⟨198, 199⟩) := .make ⟨198, 199⟩ .start hlegal
  exact ⟨(moves_undone hmake).2, (moves_undone hmake.unmake).2⟩

end Undo

end BabyOS.XiangqiUndo

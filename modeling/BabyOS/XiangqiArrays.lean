import BabyOS.XiangqiCounts
import BabyOS.XiangqiPlay

/-!
# The arrays of moves

Every search of the program fills an array on the stack, of 128 moves or of 64 when only
moves that eat are looked at. From the positions of a game all searches have a result, so
that none of the arrays was too short.
-/

set_option autoImplicit false

namespace BabyOS.XiangqiArrays
open BabyOS.XiangqiBoard BabyOS.XiangqiBoard.Xiangqi BabyOS.XiangqiMoves
open BabyOS.XiangqiSearch hiding negaMax
open BabyOS.XiangqiChecks BabyOS.XiangqiCells BabyOS.XiangqiCounts BabyOS.XiangqiPlay

/-- Positions by moves of the two sides in turn, in any memory around the board. The other
fields may have any values. -/
inductive Game : Xiangqi → Prop
  | start {g : Xiangqi} : (∀ p, Inside p → g.board p = initial.board p) → g.turnToPlay = .red → Game g
  | move {g g' : Xiangqi} {m : Move} : Game g → m ∈ g.generateAllMoves → g'.board = (after g m).board →
      g'.turnToPlay = (after g m).turnToPlay → Game g'

/-- The loop of `nega_max` over the moves from the `i`th on. -/
def negaLoop (child : Xiangqi → Option (ℤ × Xiangqi)) :
    List Move → ℕ → ℕ → ℤ → Xiangqi → Option (ℤ × ℕ × Xiangqi)
  | [], _, index, bestValue, g => some (bestValue, index, g)
  | m :: ms, i, index, bestValue, g =>
    match child (after g m) with
    | none => none
    | some (value, g') =>
      let back := (g'.backMovePiece m (g.board m.target)).changeSide
      let value := -value
      if value > bestValue then negaLoop child ms (i+1) i value back
      else negaLoop child ms (i+1) index bestValue back

/-- `none` is a move list that does not fit its array. -/
def negaMax : ℕ → Xiangqi → Option (ℤ × Xiangqi)
  | 0, g => some (staticValue g, g)
  | d+1, g =>
    if maxMoves < g.generateAllMoves.length then none
    else (negaLoop (negaMax d) g.generateAllMoves 0 0 (-siqiValue) g).map fun r =>
      (r.1, { r.2.2 with bestMoveIndex := if r.2.2.searchDepth = 0 then r.2.1 else r.2.2.bestMoveIndex })

/-! ## Searches that have a result -/

/-- From some positions a search returns, with the position that it began with. -/
def Total (P : Xiangqi → Prop) (child : Xiangqi → Option (ℤ × Xiangqi)) : Prop :=
  ∀ g, P g → ∃ value g', child g = some (value, g') ∧ Restored g g'

/-- A move that can be searched behind, also when the position was restored before. -/
def Leads (P : Xiangqi → Prop) (g : Xiangqi) (m : Move) : Prop :=
  m.start ≠ m.target ∧ ∀ s, Restored g s → P (after s m)

section Loops

variable {P : Xiangqi → Prop} {g s : Xiangqi} {m : Move} {ms : List Move} {n d rounds : ℕ}

/-- One move of either loop. -/
theorem Leads.back {child : Xiangqi → Option (ℤ × Xiangqi)} (hc : Total P child) (hm : Leads P g m) (hs : Restored g s) :
    ∃ value g', child (after s m) = some (value, g') ∧
      Restored g ((g'.backMovePiece m (s.board m.target)).changeSide) := by
  obtain ⟨value, g', hrun, hr⟩ := hc _ (hm.2 s hs)
  exact ⟨value, g', hrun, hs.trans (back_move hm.1 hr)⟩

theorem searchLoop_total {child : ℤ → ℤ → Xiangqi → Option (ℤ × Xiangqi)} (hc : ∀ alpha beta, Total P (child alpha beta))
    (hms : ∀ m ∈ ms, Leads P g m) (hs : Restored g s) (i index : ℕ) (alpha beta best : ℤ) :
    ∃ value k s', searchLoop child beta ms i index alpha best s = some (value, k, s') ∧ Restored g s' := by
  induction ms generalizing i index alpha best s with
  | nil => exact ⟨best, index, s, rfl, hs⟩
  | cons m ms ih =>
    obtain ⟨hm, hms⟩ := List.forall_mem_cons.mp hms
    obtain ⟨value, g', hrun, hback⟩ := hm.back (hc (-beta) (-alpha)) hs
    rw [searchLoop, hrun]
    dsimp only
    split_ifs
    · exact ⟨_, _, _, rfl, hback⟩
    · exact ih hms hback _ _ _ _
    · exact ih hms hback _ _ _ _
    · exact ih hms hback _ _ _ _

theorem negaLoop_total {child : Xiangqi → Option (ℤ × Xiangqi)} (hc : Total P child)
    (hms : ∀ m ∈ ms, Leads P g m) (hs : Restored g s) (i index : ℕ) (best : ℤ) :
    ∃ value k s', negaLoop child ms i index best s = some (value, k, s') ∧ Restored g s' := by
  induction ms generalizing i index best s with
  | nil => exact ⟨best, index, s, rfl, hs⟩
  | cons m ms ih =>
    obtain ⟨hm, hms⟩ := List.forall_mem_cons.mp hms
    obtain ⟨value, g', hrun, hback⟩ := hm.back hc hs
    rw [negaLoop, hrun]
    dsimp only
    split_ifs
    · exact ih hms hback _ _ _
    · exact ih hms hback _ _ _

/-- A position of a game, with fewer moves left than rounds. -/
def Within (rounds : ℕ) (g : Xiangqi) : Prop := Kept g ∧ movesLeft g < rounds

theorem kept_leads (h : Kept g) (hm : m ∈ g.generateAllMoves) : Leads Kept g m := by
  refine ⟨(fine_move h.good hm).differ, fun s hs => (h.restored hs).after ?_⟩
  rw [hs.moves]
  exact hm

theorem within_leads (h : Within rounds g) (hm : m ∈ g.generateAllMoves) : Leads (Within rounds) g m := by
  have hleads := kept_leads h.1 hm
  refine ⟨hleads.1, fun s hs => ⟨hleads.2 s hs, ?_⟩⟩
  have hleft := h.2
  rw [movesLeft] at hleft ⊢
  rw [after_depth, hs.searchDepth]
  omega

theorem within_deeper (h : Within (n+1) g) (hdepth : ¬ g.searchDepth > 11) (hm : m ∈ g.generateAllMoves) :
    Leads (Within n) g m := by
  have hleads := kept_leads h.1 hm
  refine ⟨hleads.1, fun s hs => ⟨hleads.2 s hs, ?_⟩⟩
  have hleft := h.2
  rw [movesLeft] at hleft ⊢
  rw [after_depth, hs.searchDepth]
  omega

theorem eats_moves (h : Kept g) (hm : m ∈ g.generateAllEatMoves) : m ∈ g.generateAllMoves := by
  rw [← generateAllEatMoves_trim h.good.arranged.placed h.good.general] at hm
  rw [← generateAllMoves_trim h.good.arranged.placed h.good.general]
  exact eat_mem h.good.arranged.placed hm

theorem quiescent_total (n : ℕ) (alpha beta : ℤ) : Total (Within n) (quiescentSearch n alpha beta) := by
  induction n generalizing alpha beta with
  | zero => exact fun g h => absurd h.2 (Nat.not_lt_zero _)
  | succ n ih =>
    intro g h
    rw [quiescentSearch]
    dsimp only
    generalize (if staticValue g > -siqiValue then staticValue g else -siqiValue) = best
    generalize (if staticValue g > -siqiValue ∧ staticValue g > alpha then staticValue g else alpha) = low
    split_ifs with hcut hdepth hlong
    · exact ⟨_, g, rfl, Restored.refl g⟩
    · exact ⟨_, g, rfl, Restored.refl g⟩
    · exact absurd h.1.lengths.2 (not_le.mpr hlong)
    · obtain ⟨value, k, s, hrun, hs⟩ := searchLoop_total ih
        (fun m hm => within_deeper h hdepth (eats_moves h.1 hm)) (Restored.refl g) 0 0 low beta best
      rw [hrun]
      exact ⟨value, s, rfl, hs⟩

theorem alphaBeta_total (d : ℕ) (alpha beta : ℤ) : Total (Within rounds) (alphaBeta rounds d alpha beta) := by
  induction d generalizing alpha beta with
  | zero => exact quiescent_total rounds alpha beta
  | succ d ih =>
    intro g h
    rw [alphaBeta, if_neg (not_lt.mpr h.1.lengths.1)]
    have hsorted : ∀ m ∈ sortByHistorytable g.historyTable g.generateAllMoves, Leads (Within rounds) g m :=
      fun m hm => within_leads h ((sortRounds_perm _ _).mem_iff.mp hm)
    obtain ⟨value, k, s, hrun, hs⟩ := searchLoop_total ih hsorted (Restored.refl g) 0 0 alpha beta (-siqiValue)
    dsimp only
    rw [hrun]
    exact ⟨value, _, rfl, record_restored hs _ _ _⟩

theorem negaMax_total (d : ℕ) : Total Kept (negaMax d) := by
  induction d with
  | zero => exact fun g _ => ⟨_, g, rfl, Restored.refl g⟩
  | succ d ih =>
    intro g h
    rw [negaMax, if_neg (not_lt.mpr h.lengths.1)]
    obtain ⟨value, k, s, hrun, hs⟩ := negaLoop_total ih (fun m hm => kept_leads h hm) (Restored.refl g) 0 0 (-siqiValue)
    rw [hrun]
    exact ⟨value, _, rfl, hs.board, hs.turnToPlay, hs.valueOfBoard, hs.searchDepth⟩

end Loops

/-! ## The computer -/

section Computer

variable {t : Player} {g : Xiangqi} {m : Move} {rounds : ℕ}

theorem moves_some (h : Kept t.game) : t.moves = some t.game.generateAllMoves :=
  if_neg (not_lt.mpr h.lengths.1)

theorem replied_some (h : Kept (after g m)) : (t.replied m g).isSome = true := by
  have hgame : Kept (t.played m g).game := h
  rw [Player.replied, moves_some hgame]
  rfl

theorem computerPlay_some (h : Kept t.game) (hlevel : t.searchLevel ≠ 0) (hrounds : 12 < rounds) :
    (t.computerPlay rounds).isSome = true := by
  rw [Player.computerPlay]
  split
  · rfl
  · rw [moves_some h, Option.bind_some]
    split
    · rfl
    · rename_i hne
      have hsearched : Kept t.searched := h.congr rfl rfl
      have hwithin : Within rounds t.searched := ⟨hsearched, hrounds⟩
      obtain ⟨value, s, hrun, hs⟩ := alphaBeta_total t.searchLevel (-siqiValue) siqiValue _ hwithin
      obtain ⟨m, hm⟩ := reply_found h.good hlevel (moves_some h) hne hrun
      have hmem := (found_fine h.good (moves_some h) hm).2
      have hcore : core t.searched = core t.game := rfl
      have hfound : m ∈ t.searched.generateAllMoves := by
        rw [← generateAllMoves_core, hcore, generateAllMoves_core]
        exact hmem
      rw [hrun, Option.bind_some, hm, Option.bind_some]
      exact replied_some ((kept_leads hsearched hfound).2 s hs)

end Computer

theorem game_kept {g : Xiangqi} (h : Game g) : Kept g := by
  induction h with
  | @start g hboard hturn =>
    exact ⟨good_same initial_good (trim_initial hboard) hturn, few_congr few_initial fun p hp => hboard p (qipan_inside hp)⟩
  | move _ hm hboard hturn ih => exact (ih.after hm).congr hboard hturn

/-- In every position of a game the moves fit their arrays, and so do those of all the
positions that the searches come to: no search that has an array too short would have a
result. -/
theorem move_arrays_hold {g : Xiangqi} (h : Game g) :
    (g.generateAllMoves.length ≤ maxMoves ∧ g.generateAllEatMoves.length ≤ maxEatMoves) ∧
      (∀ rounds, movesLeft g < rounds → (∀ alpha beta, (quiescentSearch rounds alpha beta g).isSome = true) ∧
        ∀ d alpha beta, (alphaBeta rounds d alpha beta g).isSome = true) ∧
      (∀ d, (negaMax d g).isSome = true) ∧
      ∀ (t : Player) (rounds : ℕ), t.game = g → t.searchLevel ≠ 0 → 12 < rounds →
        (t.computerPlay rounds).isSome = true := by
  have hkept := game_kept h
  refine ⟨hkept.lengths, fun rounds hleft => ⟨fun alpha beta => ?_, fun d alpha beta => ?_⟩, fun d => ?_, ?_⟩
  · obtain ⟨value, s, hrun, -⟩ := quiescent_total rounds alpha beta g ⟨hkept, hleft⟩
    rw [hrun]
    rfl
  · obtain ⟨value, s, hrun, -⟩ := alphaBeta_total d alpha beta g ⟨hkept, hleft⟩
    rw [hrun]
    rfl
  · obtain ⟨value, s, hrun, -⟩ := negaMax_total d g hkept
    rw [hrun]
    rfl
  · rintro t rounds rfl hlevel hrounds
    exact computerPlay_some hkept hlevel hrounds

/-- The computer replies to the first position. -/
theorem first_reply : initial.generateAllMoves.length ≤ 128 ∧ (opening.computerPlay 13).isSome = true := by
  have hgame : Game initial := .start (fun _ _ => rfl) rfl
  have hall := move_arrays_hold hgame
  exact ⟨hall.1.1, hall.2.2.2 opening 13 rfl (by decide) (by decide)⟩

end BabyOS.XiangqiArrays

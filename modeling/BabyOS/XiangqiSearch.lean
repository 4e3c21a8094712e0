import BabyOS.FailSoft
import BabyOS.XiangqiMoves

/-!
# The search of the xiangqi program

`alpha_beta` and `quiescent_search` work on one board, make a move before they
search the position behind it and take it back after. `none` is a move list that
does not fit its array, or a search whose rounds are used up.
-/

set_option autoImplicit false

namespace BabyOS.XiangqiSearch
open BabyOS.XiangqiBoard BabyOS.XiangqiBoard.Xiangqi BabyOS.XiangqiMoves BabyOS.FailSoft

def maxMoves : ℕ := 128
def maxEatMoves : ℕ := 64

/-- The index into `m_history_table`. -/
def historyKey (m : Move) : ℤ := m.start*256+m.target

/-- The inner loop of the sort, for the first place of a list. -/
def sortFirst (h : ℤ → ℤ) : Move → List Move → Move × List Move
  | x, [] => (x, [])
  | x, y :: ys =>
    if h (historyKey x) < h (historyKey y) then ((sortFirst h y ys).1, x :: (sortFirst h y ys).2)
    else ((sortFirst h x ys).1, y :: (sortFirst h x ys).2)

def sortRounds (h : ℤ → ℤ) : ℕ → List Move → List Move
  | 0, l => l
  | _, [] => []
  | n+1, x :: xs => (sortFirst h x xs).1 :: sortRounds h n (sortFirst h x xs).2

def sortByHistorytable (h : ℤ → ℤ) (l : List Move) : List Move := sortRounds h l.length l

/-- The value of the board for the side to move. -/
def staticValue (g : Xiangqi) : ℤ :=
  match g.turnToPlay with
  | .red => g.valueOfBoard
  | .black => -g.valueOfBoard

/-- The position behind a move. -/
def after (g : Xiangqi) (m : Move) : Xiangqi := (g.movePiece m).changeSide

/-- The loop of `alpha_beta` and of `quiescent_search` over the moves from the
`i`th on, with the index of the best one so far. -/
def searchLoop (child : ℤ → ℤ → Xiangqi → Option (ℤ × Xiangqi)) (beta : ℤ) :
    List Move → ℕ → ℕ → ℤ → ℤ → Xiangqi → Option (ℤ × ℕ × Xiangqi)
  | [], _, index, _, bestValue, g => some (bestValue, index, g)
  | m :: ms, i, index, alpha, bestValue, g =>
    match child (-beta) (-alpha) (after g m) with
    | none => none
    | some (value, g') =>
      let back := (g'.backMovePiece m (g.board m.target)).changeSide
      let value := -value
      if value > bestValue then
        if value ≥ beta then some (value, i, back)
        else searchLoop child beta ms (i+1) i (if value > alpha then value else alpha) value back
      else searchLoop child beta ms (i+1) index alpha bestValue back

def quiescentSearch : ℕ → ℤ → ℤ → Xiangqi → Option (ℤ × Xiangqi)
  | 0, _, _, _ => none
  | n+1, alpha, beta, g =>
    let value := staticValue g
    if value > -siqiValue ∧ value ≥ beta then some (value, g)
    else
      let bestValue := if value > -siqiValue then value else -siqiValue
      let alpha := if value > -siqiValue ∧ value > alpha then value else alpha
      if g.searchDepth > 11 then some (bestValue, g)
      else if maxEatMoves < g.generateAllEatMoves.length then none
      else (searchLoop (quiescentSearch n) beta g.generateAllEatMoves 0 0 alpha bestValue g).map
        fun r => (r.1, r.2.2)

/-- `int` arithmetic. -/
def toInt (x : ℤ) : ℤ := x.bmod (2^32)

/-- What `alpha_beta` stores after its loop. -/
def record (g : Xiangqi) (moves : List Move) (index : ℕ) (depth : ℤ) : Xiangqi :=
  let history := match moves[index]? with
    | none => g.historyTable
    | some m => Function.update g.historyTable (historyKey m)
        (toInt (g.historyTable (historyKey m)+depth*depth))
  { g with
    historyTable := history
    bestMoveIndex := if g.searchDepth = 0 then index else g.bestMoveIndex }

/-- With at most `rounds` nested calls of `quiescent_search`. -/
def alphaBeta (rounds : ℕ) : ℕ → ℤ → ℤ → Xiangqi → Option (ℤ × Xiangqi)
  | 0, alpha, beta, g => quiescentSearch rounds alpha beta g
  | d+1, alpha, beta, g =>
    if maxMoves < g.generateAllMoves.length then none
    else
      let moves := sortByHistorytable g.historyTable g.generateAllMoves
      (searchLoop (alphaBeta rounds d) beta moves 0 0 alpha (-siqiValue) g).map
        fun r => (r.1, record r.2.2 moves r.2.1 (d+1))

/-! ## Search without pruning -/

/-- The value of a position when only moves that eat are looked at, with the
static value to stand on, in at most `n` further moves. -/
def quiescence : ℕ → Xiangqi → ℤ
  | 0, g => max (-siqiValue) (staticValue g)
  | n+1, g =>
    if g.searchDepth > 11 then max (-siqiValue) (staticValue g)
    else best (fun m => quiescence n (after g m)) (max (-siqiValue) (staticValue g)) g.generateAllEatMoves

/-- The moves that `m_search_depth` leaves. -/
def movesLeft (g : Xiangqi) : ℕ := (12-g.searchDepth).toNat

/-- The value of a position to a depth. -/
def negaMax : ℕ → Xiangqi → ℤ
  | 0, g => quiescence (movesLeft g) g
  | d+1, g => best (fun m => negaMax d (after g m)) (-siqiValue) g.generateAllMoves

/-- The static values met lie between the values of the ends of a game, and the
moves fit in their array. -/
def FitsEating : ℕ → Xiangqi → Prop
  | 0, g => -siqiValue < staticValue g ∧ staticValue g < siqiValue
  | n+1, g => (-siqiValue < staticValue g ∧ staticValue g < siqiValue) ∧
      (g.searchDepth ≤ 11 → g.generateAllEatMoves.length ≤ maxEatMoves ∧
        ∀ m ∈ g.generateAllEatMoves, FitsEating n (after g m))

def Fits : ℕ → Xiangqi → Prop
  | 0, g => FitsEating (movesLeft g) g
  | d+1, g => g.generateAllMoves.length ≤ maxMoves ∧ ∀ m ∈ g.generateAllMoves, Fits d (after g m)

/-- Board, side, value and depth are those of before. -/
structure Restored (g g' : Xiangqi) : Prop where
  board : g'.board = g.board
  turnToPlay : g'.turnToPlay = g.turnToPlay
  valueOfBoard : g'.valueOfBoard = g.valueOfBoard
  searchDepth : g'.searchDepth = g.searchDepth

/-! ## The sort -/

section Sorting

variable {h : ℤ → ℤ}

theorem sortFirst_perm (x : Move) (l : List Move) :
    ((sortFirst h x l).1 :: (sortFirst h x l).2).Perm (x :: l) := by
  induction l generalizing x with
  | nil => exact List.Perm.refl _
  | cons y ys ih =>
    rw [sortFirst]
    split
    · exact (List.Perm.swap _ _ _).trans ((ih y).cons x)
    · exact (List.Perm.swap _ _ _).trans (((ih x).cons y).trans (List.Perm.swap _ _ _))

theorem sortRounds_perm (n : ℕ) (l : List Move) : (sortRounds h n l).Perm l := by
  induction n generalizing l with
  | zero => exact List.Perm.refl _
  | succ n ih =>
    cases l with
    | nil => exact List.Perm.refl _
    | cons x xs => exact ((ih _).cons _).trans (sortFirst_perm x xs)

/-- With an empty history nothing is sorted. -/
theorem sortRounds_zero (n : ℕ) (l : List Move) : sortRounds (fun _ => 0) n l = l := by
  have hfirst : ∀ x (l : List Move), sortFirst (fun _ => 0) x l = (x, l) := by
    intro x l
    induction l with
    | nil => rfl
    | cons y ys ih =>
      rw [sortFirst, if_neg (lt_irrefl _), ih]
  induction n generalizing l with
  | zero => rfl
  | succ n ih =>
    cases l with
    | nil => rfl
    | cons x xs => rw [sortRounds, hfirst, ih]

end Sorting

/-! ## Moves and their return -/

section Moves

variable {g g' : Xiangqi} {m : Move}

theorem movePiece_board (hne : m.start ≠ m.target) : (g.movePiece m).board =
    Function.update (Function.update g.board m.target (g.board m.start)) m.start 0 := by
  rw [movePiece]
  by_cases hb : g.board m.target = 0
  · rw [if_neg (by simpa using hb)]
    rfl
  · rw [if_pos hb]
    funext p
    simp only [addQizi, delQizi, Function.update_of_ne hne, Function.update_idem]

theorem movePiece_turn : (g.movePiece m).turnToPlay = g.turnToPlay := by
  rw [movePiece]
  split <;> rfl

theorem movePiece_depth : (g.movePiece m).searchDepth = g.searchDepth+1 := by
  rw [movePiece]
  split <;> rfl

theorem movePiece_value (hne : m.start ≠ m.target) : (g.movePiece m).valueOfBoard =
    g.valueOfBoard-(if g.board m.target ≠ 0 then pieceValue (g.board m.target) m.target else 0)+
      pieceValue (g.board m.start) m.target-pieceValue (g.board m.start) m.start := by
  rw [movePiece]
  by_cases hb : g.board m.target = 0
  · rw [if_neg (by simpa using hb), if_neg (by simpa using hb)]
    simp only [addQizi, delQizi, Function.update_of_ne hne]
    omega
  · rw [if_pos hb, if_pos hb]
    simp only [addQizi, delQizi, Function.update_of_ne hne]

theorem backMovePiece_board (eat : ℕ) : (g.backMovePiece m eat).board =
    Function.update (Function.update g.board m.start (g.board m.target)) m.target eat := by
  rw [backMovePiece]
  by_cases he : eat = 0
  · rw [if_neg (by simpa using he), he]
    rfl
  · rw [if_pos he]
    simp only [addQizi, delQizi, Function.update_idem]

theorem backMovePiece_value (hne : m.start ≠ m.target) (eat : ℕ) : (g.backMovePiece m eat).valueOfBoard =
    g.valueOfBoard+pieceValue (g.board m.target) m.start-pieceValue (g.board m.target) m.target+
      (if eat ≠ 0 then pieceValue eat m.target else 0) := by
  rw [backMovePiece]
  by_cases he : eat = 0
  · rw [if_neg (by simpa using he), if_neg (by simpa using he)]
    simp only [addQizi, delQizi, Function.update_of_ne hne.symm]
    omega
  · rw [if_pos he, if_pos he]
    simp only [addQizi, delQizi, Function.update_of_ne hne.symm]

theorem backMovePiece_turn (eat : ℕ) : (g.backMovePiece m eat).turnToPlay = g.turnToPlay := by
  rw [backMovePiece]
  split <;> rfl

theorem backMovePiece_depth (eat : ℕ) : (g.backMovePiece m eat).searchDepth = g.searchDepth-1 := by
  rw [backMovePiece]
  split <;> rfl

theorem other_other (s : Side) : s.other.other = s := by cases s <;> rfl

theorem Restored.refl (g : Xiangqi) : Restored g g := ⟨rfl, rfl, rfl, rfl⟩

theorem Restored.trans {g₁ g₂ g₃ : Xiangqi} (h : Restored g₁ g₂) (h' : Restored g₂ g₃) : Restored g₁ g₃ :=
  ⟨h'.board.trans h.board, h'.turnToPlay.trans h.turnToPlay, h'.valueOfBoard.trans h.valueOfBoard,
    h'.searchDepth.trans h.searchDepth⟩

theorem restored_after (hne : m.start ≠ m.target) (h : Restored g g') : Restored (after g m) (after g' m) := by
  refine ⟨?_, ?_, ?_, ?_⟩
  · change (g'.movePiece m).board = (g.movePiece m).board
    rw [movePiece_board hne, movePiece_board hne, h.board]
  · change (g'.movePiece m).turnToPlay.other = (g.movePiece m).turnToPlay.other
    rw [movePiece_turn, movePiece_turn, h.turnToPlay]
  · change (g'.movePiece m).valueOfBoard = (g.movePiece m).valueOfBoard
    rw [movePiece_value hne, movePiece_value hne, h.board, h.valueOfBoard]
  · change (g'.movePiece m).searchDepth = (g.movePiece m).searchDepth
    rw [movePiece_depth, movePiece_depth, h.searchDepth]

/-- A move that is taken back leaves nothing behind. -/
theorem back_move (hne : m.start ≠ m.target) (h : Restored (after g m) g') :
    Restored g ((g'.backMovePiece m (g.board m.target)).changeSide) := by
  have hboard : g'.board = (g.movePiece m).board := h.board
  have hvalue : g'.valueOfBoard = (g.movePiece m).valueOfBoard := h.valueOfBoard
  have hturn : g'.turnToPlay = (g.movePiece m).turnToPlay.other := h.turnToPlay
  have hdepth : g'.searchDepth = (g.movePiece m).searchDepth := h.searchDepth
  rw [movePiece_board hne] at hboard
  have htarget : g'.board m.target = g.board m.start := by
    rw [hboard, Function.update_of_ne hne.symm, Function.update_self]
  refine ⟨?_, ?_, ?_, ?_⟩
  · change (g'.backMovePiece m (g.board m.target)).board = g.board
    rw [backMovePiece_board, htarget, hboard, Function.update_idem]
    funext p
    by_cases hp : p = m.target
    · rw [hp, Function.update_self]
    · rw [Function.update_of_ne hp]
      by_cases hps : p = m.start
      · rw [hps, Function.update_self]
      · rw [Function.update_of_ne hps, Function.update_of_ne hp]
  · change (g'.backMovePiece m (g.board m.target)).turnToPlay.other = g.turnToPlay
    rw [backMovePiece_turn, hturn, movePiece_turn, other_other]
  · change (g'.backMovePiece m (g.board m.target)).valueOfBoard = g.valueOfBoard
    rw [backMovePiece_value hne, htarget, hvalue, movePiece_value hne]
    omega
  · change (g'.backMovePiece m (g.board m.target)).searchDepth = g.searchDepth
    rw [backMovePiece_depth, hdepth, movePiece_depth]
    omega

/-- Only the board and the side matter for the moves. -/
def core (g : Xiangqi) : Xiangqi := ⟨g.board, g.turnToPlay, 0, 0, 0, fun _ => 0⟩

theorem Restored.core (h : Restored g g') : core g' = core g := by
  rw [XiangqiSearch.core, XiangqiSearch.core, h.board, h.turnToPlay]

theorem isJiangjun_core (g : Xiangqi) : (core g).isJiangjun = g.isJiangjun := by
  have hju : ∀ l, (XiangqiSearch.core g).jujsOn l = g.jujsOn l := by
    intro l
    induction l with
    | nil => rfl
    | cons p l ih =>
      rw [jujsOn, jujsOn, ih]
      rfl
  have hpao : ∀ l flag, (XiangqiSearch.core g).paoOn flag l = g.paoOn flag l := by
    intro l
    induction l with
    | nil => exact fun _ => rfl
    | cons p l ih =>
      intro flag
      rw [paoOn, paoOn, ih, ih]
      rfl
  rw [isJiangjun, isJiangjun, isJiangjunByJujs, isJiangjunByJujs, isJiangjunByPao, isJiangjunByPao]
  simp only [hju, hpao]
  rfl

theorem testMove_core (g : Xiangqi) (position target : ℤ) :
    (core g).testMove position target = g.testMove position target := by
  have hcore : core ((core g).movePiece ⟨position, target⟩) = core (g.movePiece ⟨position, target⟩) := by
    have hboard : ((core g).movePiece ⟨position, target⟩).board = (g.movePiece ⟨position, target⟩).board := by
      rw [movePiece, movePiece]
      by_cases hb : g.board target = 0
      · have hg : ¬ g.board target ≠ 0 := fun hn => hn hb
        have hc : ¬ (core g).board target ≠ 0 := hg
        rw [if_neg hc, if_neg hg]
        rfl
      · have hc : (core g).board target ≠ 0 := hb
        rw [if_pos hc, if_pos hb]
        rfl
    have hturn : ((core g).movePiece ⟨position, target⟩).turnToPlay =
        (g.movePiece ⟨position, target⟩).turnToPlay := by
      rw [movePiece_turn, movePiece_turn]
      rfl
    exact congrArg₂ (fun b t => (⟨b, t, 0, 0, 0, fun _ => 0⟩ : Xiangqi)) hboard hturn
  rw [testMove, testMove, ← isJiangjun_core, hcore, isJiangjun_core]

theorem addTested_core (g : Xiangqi) (position target : ℤ) :
    (core g).addTested position target = g.addTested position target := by
  rw [addTested, addTested, testMove_core]

theorem juLine_core (g : Xiangqi) (eat : Bool) (position : ℤ) (l : List ℤ) :
    (core g).juLine eat position l = g.juLine eat position l := by
  induction l with
  | nil => rfl
  | cons p l ih =>
    rw [juLine, juLine, ih, addTested_core]
    rfl

theorem paoLine_core (g : Xiangqi) (eat : Bool) (position : ℤ) (flag : Bool) (l : List ℤ) :
    (core g).paoLine eat position flag l = g.paoLine eat position flag l := by
  induction l generalizing flag with
  | nil => rfl
  | cons p l ih =>
    rw [paoLine, paoLine, ih, ih, addTested_core]
    rfl

theorem stepMoves_core (g : Xiangqi) (eat : Bool) (region : ℤ → Bool) (position : ℤ) (steps : List ℤ) :
    (core g).stepMoves eat region position steps = g.stepMoves eat region position steps := by
  rw [stepMoves, stepMoves]
  simp only [addTested_core]
  rfl

theorem leapMoves_core (g : Xiangqi) (eat : Bool) (region : ℤ → Bool) (position : ℤ)
    (steps : List (ℤ × ℤ)) :
    (core g).leapMoves eat region position steps = g.leapMoves eat region position steps := by
  rw [leapMoves, leapMoves]
  simp only [addTested_core]
  rfl

theorem bzMoves_core (g : Xiangqi) (eat : Bool) (position : ℤ) :
    (core g).bzMoves eat position = g.bzMoves eat position := by
  rw [bzMoves, bzMoves]
  simp only [bzStep, addTested_core]
  rfl

theorem generateAllMoves_core (g : Xiangqi) : (core g).generateAllMoves = g.generateAllMoves := by
  rw [generateAllMoves, generateAllMoves]
  simp only [generateMovesOfJs, generateMovesOfShi, generateMovesOfXiang, generateMovesOfMa,
    generateMovesOfJu, generateMovesOfPao, generateMovesOfBz, juLine_core, paoLine_core, stepMoves_core,
    leapMoves_core, bzMoves_core]
  rfl

theorem generateAllEatMoves_core (g : Xiangqi) : (core g).generateAllEatMoves = g.generateAllEatMoves := by
  rw [generateAllEatMoves, generateAllEatMoves]
  simp only [generateEatMovesOfJs, generateEatMovesOfShi, generateEatMovesOfXiang, generateEatMovesOfMa,
    generateEatMovesOfJu, generateEatMovesOfPao, generateEatMovesOfBz, juLine_core, paoLine_core,
    stepMoves_core, leapMoves_core, bzMoves_core]
  rfl

theorem Restored.moves (h : Restored g g') : g'.generateAllMoves = g.generateAllMoves := by
  rw [← generateAllMoves_core, h.core, generateAllMoves_core]

theorem Restored.eatMoves (h : Restored g g') : g'.generateAllEatMoves = g.generateAllEatMoves := by
  rw [← generateAllEatMoves_core, h.core, generateAllEatMoves_core]

theorem Restored.value (h : Restored g g') : staticValue g' = staticValue g := by
  rw [staticValue, staticValue, h.turnToPlay, h.valueOfBoard]

theorem moves_differ (h : Placed g) (hm : m ∈ g.generateAllMoves) : m.start ≠ m.target := by
  have ⟨hs, ho, _⟩ := (all_moves h m).mp hm
  exact open_moves hs ho

theorem eat_mem (h : Placed g) (hm : m ∈ g.generateAllEatMoves) : m ∈ g.generateAllMoves := by
  rw [eat_moves h] at hm
  exact (List.mem_filter.mp hm).1

/-- A piece that moves stands on a square. -/
theorem placed_after (h : Placed g) (hm : m ∈ g.generateAllMoves) : Placed (after g m) := by
  have ⟨hs, ho, _⟩ := (all_moves h m).mp hm
  have hne := open_moves hs ho
  intro p hp
  change (g.movePiece m).board p ≠ 0 at hp
  change inQipan p = true ∧ (8 ≤ (g.movePiece m).board p ∧ (g.movePiece m).board p ≤ 14 ∨
    16 ≤ (g.movePiece m).board p ∧ (g.movePiece m).board p ≤ 22)
  rw [movePiece_board hne] at hp ⊢
  by_cases hps : p = m.start
  · rw [hps, Function.update_self] at hp
    exact absurd rfl hp
  · rw [Function.update_of_ne hps] at hp ⊢
    by_cases hpt : p = m.target
    · rw [hpt, Function.update_self] at hp ⊢
      exact ⟨ho.1.1, (h m.start hp).2⟩
    · rw [Function.update_of_ne hpt] at hp ⊢
      exact h p hp

end Moves

/-! ## The loop -/

/-- The windows that occur. -/
structure Window (lo hi : ℤ) : Prop where
  low : -siqiValue ≤ lo
  proper : lo < hi
  high : hi ≤ siqiValue

theorem Window.neg {lo hi : ℤ} (h : Window lo hi) : Window (-hi) (-lo) := by
  have ⟨h1, h2, h3⟩ := h
  exact ⟨by omega, by omega, by omega⟩

/-- A search of the positions like `g` returns a bound of `v` and restores them. -/
def Searches (f : ℤ → ℤ → Xiangqi → Option (ℤ × Xiangqi)) (g : Xiangqi) (v : ℤ) : Prop :=
  ∀ lo hi s, Window lo hi → Restored g s →
    ∃ r s', f lo hi s = some (r, s') ∧ Restored g s' ∧ Bounds lo hi r v

section Loop

variable {f : ℤ → ℤ → Xiangqi → Option (ℤ × Xiangqi)} {g : Xiangqi} {val : Move → ℤ}

variable (val) in
/-- The loop goes on from the best value `b` of the moves before, which stands for
their value `w`. The index is that of the last move that was better. -/
theorem searchLoop_bounds {lo₀ hi : ℤ} (hwin : Window lo₀ hi) (ms : List Move)
    (hms : ∀ m ∈ ms, m.start ≠ m.target ∧ Searches f (after g m) (val m)) :
    ∀ (i index : ℕ) (b w : ℤ) (s : Xiangqi), Restored g s → -siqiValue ≤ b → b < hi → Bounds lo₀ hi b w →
      ∃ r k s', searchLoop f hi ms i index (max lo₀ b) b s = some (r, k, s') ∧ Restored g s' ∧
        Bounds lo₀ hi r (best val w ms) ∧
        ((r = b ∧ k = index) ∨ b < r ∧ ∃ j m, ms[j]? = some m ∧ k = i+j ∧ (lo₀ < r → r ≤ -val m)) := by
  induction ms with
  | nil => exact fun i index b w s hs _ _ hb => ⟨b, index, s, rfl, hs, hb, .inl ⟨rfl, rfl⟩⟩
  | cons m ms ih =>
    intro i index b w s hs hge hlt hb
    have ⟨hne, hsearch⟩ := hms m List.mem_cons_self
    have hrest : ∀ m ∈ ms, m.start ≠ m.target ∧ Searches f (after g m) (val m) :=
      fun d hd => hms d (List.mem_cons_of_mem m hd)
    have hinner : Window (max lo₀ b) hi :=
      ⟨hwin.low.trans (le_max_left _ _), max_lt hwin.proper hlt, hwin.high⟩
    have ⟨r, s', hr, hs', hbr⟩ := hsearch _ _ _ hinner.neg (restored_after hne hs)
    have hback : Restored g ((s'.backMovePiece m (s.board m.target)).changeSide) := by
      rw [hs.board]
      exact back_move hne hs'
    have hx : Bounds (max lo₀ b) hi (-r) (-val m) := hbr.neg
    rw [searchLoop, hr]
    simp only
    by_cases hbetter : -r > b
    · rw [if_pos hbetter]
      have hvalue : lo₀ < -r → -r ≤ -val m := by
        intro hlo
        rcases lt_or_ge (-r) hi with hlt' | hge'
        · exact (hx.mid (max_lt hlo hbetter) hlt').le
        · exact hx.high hge'
      by_cases hcut : -r ≥ hi
      · rw [if_pos hcut]
        refine ⟨-r, i, _, rfl, hback, hx.cut hwin.proper hcut ?_, .inr ⟨hbetter, 0, m, rfl, rfl, hvalue⟩⟩
        exact mem_le_best val w List.mem_cons_self
      · rw [if_neg hcut]
        have hlow : (if -r > max lo₀ b then -r else max lo₀ b) = max lo₀ (-r) := (narrow hbetter).symm
        rw [hlow]
        have himp := hb.improve hx hbetter (not_le.mp hcut)
        have ⟨r', k, s'', he, hr', hb', hk⟩ := ih hrest (i+1) i (-r) _ _ hback (hge.trans hbetter.le)
          (not_le.mp hcut) himp
        refine ⟨r', k, s'', he, hr', hb', .inr ?_⟩
        rcases hk with ⟨hrr, hki⟩ | ⟨hlt', j, d, hd, hkj, hv⟩
        · rw [hrr, hki]
          exact ⟨hbetter, 0, m, rfl, rfl, hvalue⟩
        · refine ⟨hbetter.trans hlt', j+1, d, ?_, by omega, hv⟩
          rw [List.getElem?_cons_succ]
          exact hd
    · rw [if_neg hbetter]
      have hskip := hb.skip hx hlt (not_lt.mp hbetter)
      have ⟨r', k, s'', he, hr', hb', hk⟩ := ih hrest (i+1) index b _ _ hback hge hlt hskip
      refine ⟨r', k, s'', he, hr', hb', ?_⟩
      rcases hk with hk | ⟨hlt', j, d, hd, hkj, hv⟩
      · exact .inl hk
      · refine .inr ⟨hlt', j+1, d, ?_, by omega, hv⟩
        rw [List.getElem?_cons_succ]
        exact hd

end Loop

/-! ## The two searches -/

theorem quiescence_ge (n : ℕ) (g : Xiangqi) : -siqiValue ≤ quiescence n g := by
  cases n with
  | zero => exact le_max_left _ _
  | succ n =>
    rw [quiescence]
    split
    · exact le_max_left _ _
    · exact (le_max_left _ _).trans (le_best _ _ _)

theorem negaMax_ge (d : ℕ) (g : Xiangqi) : -siqiValue ≤ negaMax d g := by
  cases d with
  | zero => exact quiescence_ge _ g
  | succ d => exact le_best _ _ _

theorem quiescence_le {n : ℕ} {g : Xiangqi} (h : FitsEating n g) : quiescence n g ≤ siqiValue := by
  have hsiqi : -siqiValue ≤ siqiValue := by decide
  cases n with
  | zero => exact max_le hsiqi h.2.le
  | succ n =>
    rw [quiescence]
    split
    · exact max_le hsiqi h.1.2.le
    · refine best_le _ (max_le hsiqi h.1.2.le) fun m _ => ?_
      have hge := quiescence_ge n (after g m)
      omega

theorem negaMax_le {d : ℕ} {g : Xiangqi} (h : Fits d g) : negaMax d g ≤ siqiValue := by
  cases d with
  | zero => exact quiescence_le h
  | succ d =>
    refine best_le _ (by decide) fun m _ => ?_
    have hge := negaMax_ge d (after g m)
    omega

theorem after_depth (g : Xiangqi) (m : Move) : (after g m).searchDepth = g.searchDepth+1 := movePiece_depth

theorem quiescent_searches {n rounds : ℕ} {g : Xiangqi} (h : Placed g) (hf : FitsEating n g)
    (hn : n = movesLeft g) (hrounds : n < rounds) :
    Searches (quiescentSearch rounds) g (quiescence n g) := by
  induction n generalizing rounds g with
  | zero =>
    intro lo hi s hwin hs
    obtain ⟨rounds, rfl⟩ := Nat.exists_eq_succ_of_ne_zero (by omega : rounds ≠ 0)
    have hdepth : s.searchDepth > 11 := by
      rw [hs.searchDepth]
      rw [movesLeft] at hn
      omega
    have hvalue : staticValue s > -siqiValue := by
      rw [hs.value]
      exact hf.1
    have hmax : max (-siqiValue) (staticValue g) = staticValue s := by
      rw [hs.value]
      exact max_eq_right hf.1.le
    rw [quiescentSearch, quiescence, hmax]
    by_cases hcut : staticValue s ≥ hi
    · rw [if_pos ⟨hvalue, hcut⟩]
      exact ⟨_, s, rfl, hs, Bounds.self⟩
    · rw [if_neg fun hn => hcut hn.2, if_pos hvalue, if_pos hdepth]
      exact ⟨_, s, rfl, hs, Bounds.self⟩
  | succ n ih =>
    intro lo hi s hwin hs
    obtain ⟨rounds, rfl⟩ := Nat.exists_eq_succ_of_ne_zero (by omega : rounds ≠ 0)
    have hdepth : g.searchDepth ≤ 11 := by
      rw [movesLeft] at hn
      omega
    have ⟨hlen, hchildren⟩ := hf.2 hdepth
    have hvalue : staticValue s > -siqiValue := by
      rw [hs.value]
      exact hf.1.1
    have hmax : max (-siqiValue) (staticValue g) = staticValue s := by
      rw [hs.value]
      exact max_eq_right hf.1.1.le
    rw [quiescentSearch, quiescence, hmax, if_neg (not_lt.mpr hdepth)]
    by_cases hcut : staticValue s ≥ hi
    · rw [if_pos ⟨hvalue, hcut⟩]
      refine ⟨_, s, rfl, hs, ⟨fun hle => absurd (hcut.trans hle) (not_le.mpr hwin.proper),
        fun _ => le_best _ _ _, fun _ hlt => absurd hcut (not_le.mpr hlt)⟩⟩
    · rw [if_neg fun hn => hcut hn.2, if_neg (by rw [hs.searchDepth]; omega),
        if_neg (by rw [hs.eatMoves]; exact not_lt.mpr hlen)]
      have hlow : (if staticValue s > -siqiValue ∧ staticValue s > lo then staticValue s else lo) =
          max lo (staticValue s) := by
        by_cases hlo : staticValue s > lo
        · rw [if_pos ⟨hvalue, hlo⟩, max_eq_right hlo.le]
        · rw [if_neg fun hn => hlo hn.2, max_eq_left (not_lt.mp hlo)]
      rw [hs.eatMoves, if_pos hvalue, hlow]
      have hsearch : ∀ m ∈ g.generateAllEatMoves, m.start ≠ m.target ∧
          Searches (quiescentSearch rounds) (after g m) (quiescence n (after g m)) := by
        intro m hm
        have hleft : n = movesLeft (after g m) := by
          rw [movesLeft, after_depth]
          rw [movesLeft] at hn
          omega
        exact ⟨moves_differ h (eat_mem h hm),
          ih (placed_after h (eat_mem h hm)) (hchildren m hm) hleft (by omega)⟩
      have ⟨r, k, s', he, hs', hb, _⟩ := searchLoop_bounds (fun m => quiescence n (after g m)) hwin
        g.generateAllEatMoves hsearch 0 0 (staticValue s) (staticValue s) s hs hvalue.le (not_le.mp hcut)
        Bounds.self
      refine ⟨r, s', ?_, hs', hb⟩
      rw [he]
      rfl

theorem record_restored {g s : Xiangqi} (h : Restored g s) (moves : List Move) (index : ℕ) (depth : ℤ) :
    Restored g (record s moves index depth) :=
  ⟨h.board, h.turnToPlay, h.valueOfBoard, h.searchDepth⟩

/-- The call for a further move, with the index that the loop finds. -/
theorem alphaBeta_loop {d rounds : ℕ} {g : Xiangqi} (h : Placed g)
    (hlen : g.generateAllMoves.length ≤ maxMoves)
    (hchildren : ∀ m ∈ g.generateAllMoves, Searches (alphaBeta rounds d) (after g m) (negaMax d (after g m)))
    {lo hi : ℤ} {s : Xiangqi} (hwin : Window lo hi) (hs : Restored g s) :
    ∃ r k s', alphaBeta rounds (d+1) lo hi s =
        some (r, record s' (sortByHistorytable s.historyTable g.generateAllMoves) k (d+1)) ∧
      Restored g s' ∧ Bounds lo hi r (negaMax (d+1) g) ∧
      ((r = -siqiValue ∧ k = 0) ∨ -siqiValue < r ∧ ∃ m,
        (sortByHistorytable s.historyTable g.generateAllMoves)[k]? = some m ∧
          (lo < r → r ≤ -negaMax d (after g m))) := by
  have hperm : (sortByHistorytable s.historyTable g.generateAllMoves).Perm g.generateAllMoves :=
    sortRounds_perm _ _
  have hmax : max lo (-siqiValue) = lo := max_eq_left hwin.low
  have hsearch : ∀ m ∈ sortByHistorytable s.historyTable g.generateAllMoves, m.start ≠ m.target ∧
      Searches (alphaBeta rounds d) (after g m) (negaMax d (after g m)) :=
    fun m hm => ⟨moves_differ h (hperm.mem_iff.mp hm), hchildren m (hperm.mem_iff.mp hm)⟩
  have ⟨r, k, s', he, hs', hb, hk⟩ := searchLoop_bounds (fun m => negaMax d (after g m)) hwin
    (sortByHistorytable s.historyTable g.generateAllMoves) hsearch 0 0 (-siqiValue) (-siqiValue) s hs (le_refl _) (hwin.low.trans_lt hwin.proper) Bounds.self
  rw [best_perm _ _ hperm] at hb
  rw [hmax] at he
  refine ⟨r, k, s', ?_, hs', hb, ?_⟩
  · rw [alphaBeta, hs.moves, if_neg (not_lt.mpr hlen)]
    simp only [he, Option.map_some]
  · rcases hk with hk | ⟨hlt, j, m, hm, hkj, hv⟩
    · exact .inl hk
    · refine .inr ⟨hlt, m, ?_, hv⟩
      rw [hkj, Nat.zero_add]
      exact hm

theorem alphaBeta_searches {d rounds : ℕ} {g : Xiangqi} (h : Placed g) (hf : Fits d g)
    (hdepth : 0 ≤ g.searchDepth) (hrounds : 12 < rounds) :
    Searches (alphaBeta rounds d) g (negaMax d g) := by
  induction d generalizing g with
  | zero =>
    refine quiescent_searches h hf rfl ?_
    rw [movesLeft]
    omega
  | succ d ih =>
    intro lo hi s hwin hs
    have hchildren : ∀ m ∈ g.generateAllMoves,
        Searches (alphaBeta rounds d) (after g m) (negaMax d (after g m)) := fun m hm =>
      ih (placed_after h hm) (hf.2 m hm) (by rw [after_depth]; omega)
    have ⟨r, k, s', he, hs', hb, _⟩ := alphaBeta_loop h hf.1 hchildren hwin hs
    exact ⟨r, _, he, record_restored hs' _ _ _, hb⟩

/-! ## The whole search -/

/-- With the full window the bound is the value. -/
theorem bounds_exact {lo hi r v : ℤ} (h : Bounds lo hi r v) (hlo : lo ≤ v) (hhi : v ≤ hi) : r = v := by
  rcases le_or_gt r lo with hle | hgt
  · exact (hle.trans hlo).antisymm (h.low hle)
  · rcases le_or_gt hi r with hge | hlt
    · exact (h.high hge).antisymm (hhi.trans hge)
    · exact h.mid hgt hlt

theorem full_window : Window (-siqiValue) siqiValue := ⟨le_refl _, by decide, le_refl _⟩

theorem alphaBeta_exact {d rounds : ℕ} {g : Xiangqi} (h : Placed g) (hf : Fits d g)
    (hdepth : 0 ≤ g.searchDepth) (hrounds : 12 < rounds) :
    ∃ g', alphaBeta rounds d (-siqiValue) siqiValue g = some (negaMax d g, g') ∧ Restored g g' := by
  have ⟨r, g', he, hr, hb⟩ := alphaBeta_searches h hf hdepth hrounds _ _ g full_window (Restored.refl g)
  have hexact := bounds_exact hb (negaMax_ge d g) (negaMax_le hf)
  rw [hexact] at he
  exact ⟨g', he, hr⟩

/-- The search with pruning returns the value of the search without it and leaves
the position as it was. With an empty history, the index is that of a move of this
value, the first one when every move loses. -/
theorem search_agrees {d rounds : ℕ} {g : Xiangqi} (h : Placed g) (hf : Fits d g)
    (hdepth : g.searchDepth = 0) (hrounds : 12 < rounds) :
    ∃ g', alphaBeta rounds d (-siqiValue) siqiValue g = some (negaMax d g, g') ∧ Restored g g' ∧
      (0 < d → (∀ k, g.historyTable k = 0) → g.generateAllMoves ≠ [] →
        (∃ m, g.generateAllMoves[g'.bestMoveIndex]? = some m ∧ -negaMax (d-1) (after g m) = negaMax d g) ∧
        ((∀ m ∈ g.generateAllMoves, -negaMax (d-1) (after g m) = -siqiValue) → g'.bestMoveIndex = 0)) := by
  cases d with
  | zero =>
    have ⟨g', he, hr⟩ := alphaBeta_exact h hf hdepth.ge hrounds
    exact ⟨g', he, hr, fun hpos => absurd hpos (lt_irrefl 0)⟩
  | succ d =>
    have hchildren : ∀ m ∈ g.generateAllMoves,
        Searches (alphaBeta rounds d) (after g m) (negaMax d (after g m)) := by
      intro m hm
      have hnext : 0 ≤ (after g m).searchDepth := by
        rw [after_depth, hdepth]
        decide
      exact alphaBeta_searches (placed_after h hm) (hf.2 m hm) hnext hrounds
    have ⟨r, k, s', he, hs', hb, hk⟩ := alphaBeta_loop h hf.1 hchildren full_window (Restored.refl g)
    have hr : r = negaMax (d+1) g := bounds_exact hb (negaMax_ge _ g) (negaMax_le hf)
    subst hr
    refine ⟨_, he, record_restored hs' _ _ _, fun _ hzero hne => ?_⟩
    have hhistory : g.historyTable = fun _ => 0 := funext hzero
    have hindex : (record s' (sortByHistorytable g.historyTable g.generateAllMoves) k
        (d+1)).bestMoveIndex = k := if_pos (hs'.searchDepth.trans hdepth)
    rw [hhistory, sortByHistorytable, sortRounds_zero] at hk
    rw [hindex, Nat.add_sub_cancel]
    have hupper : ∀ m ∈ g.generateAllMoves, -negaMax d (after g m) ≤ negaMax (d+1) g :=
      fun m hm => mem_le_best (fun m => negaMax d (after g m)) _ hm
    rcases hk with ⟨hlost, hk⟩ | ⟨hlt, m, hm, hv⟩
    · -- no move is better than the value that the loop starts with
      obtain ⟨m, ms, hms⟩ := List.exists_cons_of_ne_nil hne
      have hmem : m ∈ g.generateAllMoves := by
        rw [hms]
        exact List.mem_cons_self
      have hle := negaMax_le (hf.2 m hmem)
      have hup := hupper m hmem
      refine ⟨⟨m, ?_, by omega⟩, fun _ => hk⟩
      rw [hk, hms]
      rfl
    · have hmem : m ∈ g.generateAllMoves := List.mem_of_getElem? hm
      have heq := (hv hlt).antisymm (hupper m hmem)
      refine ⟨⟨m, hm, heq.symm⟩, fun hlose => ?_⟩
      have hbad := hlose m hmem
      omega

/-- A general on either side, out of sight of the other, and an index from an
earlier search. -/
def generals : Xiangqi :=
  ⟨fun p => if p = 12*16+6 then 8 else if p = 3*16+8 then 16 else 0, .red, 0, 0, 1000, fun _ => 0⟩

theorem generals_placed : Placed generals := by
  intro p hp
  by_cases hred : p = 12*16+6
  · rw [hred]
    decide
  · by_cases hblack : p = 3*16+8
    · rw [hblack]
      decide
    · exact absurd ((if_neg hred).trans (if_neg hblack)) hp

theorem generals_eat : generals.generateAllEatMoves = [] := by
  decide +kernel

theorem generals_moves : generals.generateAllMoves ≠ [] ∧ generals.generateAllMoves.length < 1000 := by
  decide +kernel

/-- Where nothing can be eaten, the static value is all that is looked at. -/
theorem fits_quiet {g : Xiangqi} (hlow : -siqiValue < staticValue g) (hhigh : staticValue g < siqiValue)
    (heat : g.generateAllEatMoves = []) (n : ℕ) : FitsEating n g := by
  cases n with
  | zero => exact ⟨hlow, hhigh⟩
  | succ n =>
    refine ⟨⟨hlow, hhigh⟩, fun _ => ?_⟩
    rw [heat]
    exact ⟨Nat.zero_le _, fun m hm => absurd hm List.not_mem_nil⟩

theorem generals_fit : Fits 0 generals := fits_quiet (by decide +kernel) (by decide +kernel) generals_eat _

theorem generals_fit_one : Fits 1 generals := by
  have hquiet : ∀ m ∈ generals.generateAllMoves, -siqiValue < staticValue (after generals m) ∧
      staticValue (after generals m) < siqiValue ∧ (after generals m).generateAllEatMoves = [] := by
    decide +kernel
  refine ⟨by decide +kernel, fun m hm => ?_⟩
  have ⟨hlow, hhigh, heat⟩ := hquiet m hm
  exact fits_quiet hlow hhigh heat _

theorem search_agrees_generals :
    ∃ g', alphaBeta 13 1 (-siqiValue) siqiValue generals = some (negaMax 1 generals, g') ∧
      Restored generals g' ∧
      (∃ m, generals.generateAllMoves[g'.bestMoveIndex]? = some m ∧
        -negaMax 0 (after generals m) = negaMax 1 generals) ∧
      ((∀ m ∈ generals.generateAllMoves, -negaMax 0 (after generals m) = -siqiValue) →
        g'.bestMoveIndex = 0) := by
  have ⟨g', he, hr, hindex⟩ := search_agrees generals_placed generals_fit_one rfl (by decide : 12 < 13)
  exact ⟨g', he, hr, hindex Nat.zero_lt_one (fun _ => rfl) generals_moves.1⟩

/-- A search to depth 0 leaves the index of an earlier search, which need not be
that of a move. -/
theorem index_kept : Placed generals ∧ Fits 0 generals ∧ generals.searchDepth = 0 ∧
    (∀ k, generals.historyTable k = 0) ∧ generals.generateAllMoves ≠ [] ∧
    ∃ g', alphaBeta 13 0 (-siqiValue) siqiValue generals = some (negaMax 0 generals, g') ∧
      generals.generateAllMoves[g'.bestMoveIndex]? = none ∧ g'.bestMoveIndex ≠ 0 := by
  have hcall : alphaBeta 13 0 (-siqiValue) siqiValue generals = some (staticValue generals, generals) := by
    rw [alphaBeta, quiescentSearch, generals_eat]
    rfl
  have ⟨g', he, _⟩ := alphaBeta_exact generals_placed generals_fit (le_refl _) (by decide : 12 < 13)
  have hvalue : staticValue generals = negaMax 0 generals :=
    congrArg Prod.fst (Option.some.inj (hcall.symm.trans he))
  refine ⟨generals_placed, generals_fit, rfl, fun _ => rfl, generals_moves.1, generals, ?_, ?_, by decide⟩
  · rw [hcall, hvalue]
  · exact List.getElem?_eq_none generals_moves.2.le

end BabyOS.XiangqiSearch

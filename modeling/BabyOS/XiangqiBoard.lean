import Mathlib.Data.List.Basic
import Mathlib.Logic.Function.Basic
import Mathlib.Tactic

/-!
# The board of the xiangqi program

The board has 256 cells, of which the squares are those with a row from 3 to 12
and a column from 3 to 11. A piece is a number: 8 to 14 for red and 16 to 22 for
black, 0 for an empty cell.

The move lists are lists here, and the number of moves is their length. The loops
that run along a row or a column while they are on the board go through `line`.
-/

set_option autoImplicit false

namespace BabyOS.XiangqiBoard

/-! ## The tables -/

def boardTop : ℤ := 3
def boardBottom : ℤ := 12
def boardLeft : ℤ := 3
def boardRight : ℤ := 11

def pieceJs : ℕ := 0
def pieceShi : ℕ := 1
def pieceXiang : ℕ := 2
def pieceMa : ℕ := 3
def pieceJu : ℕ := 4
def piecePao : ℕ := 5
def pieceBz : ℕ := 6

/-- An array of 256 numbers that are zero but for those on the squares. -/
def grid (rows : List (List ℤ)) (p : ℤ) : ℤ :=
  if boardTop ≤ p/16 ∧ boardLeft ≤ p%16 then
    (rows.getD (p/16-boardTop).toNat []).getD (p%16-boardLeft).toNat 0
  else 0

def qipan : List (List ℤ) := List.replicate 10 (List.replicate 9 1)

def jiugong : List (List ℤ) :=
  List.replicate 3 [0, 0, 0, 1, 1, 1, 0, 0, 0] ++ List.replicate 4 (List.replicate 9 0) ++
    List.replicate 3 [0, 0, 0, 1, 1, 1, 0, 0, 0]

def inQipan (p : ℤ) : Bool := grid qipan p != 0

def inJiugong (p : ℤ) : Bool := grid jiugong p != 0

def jsMove : List ℤ := [-1, 1, -16, 16]
def shiMove : List ℤ := [-15, -17, 15, 17]
def xiangMove : List ℤ := [-30, -34, 30, 34]
def xiangyan : List ℤ := [-15, -17, 15, 17]
def maMove : List ℤ := [-31, -33, -14, -18, 31, 33, 14, 18]
def matui : List ℤ := [-16, -16, 1, -1, 16, 16, -1, 1]
def jsMatui : List ℤ := [-15, -17, -15, -17, 15, 17, 15, 17]

def jsValue : List (List ℤ) :=
  [[0, 0, 0, 0, 0, 0, 0, 0, 0],
   [0, 0, 0, 0, 0, 0, 0, 0, 0],
   [0, 0, 0, 0, 0, 0, 0, 0, 0],
   [0, 0, 0, 0, 0, 0, 0, 0, 0],
   [0, 0, 0, 0, 0, 0, 0, 0, 0],
   [0, 0, 0, 0, 0, 0, 0, 0, 0],
   [0, 0, 0, 0, 0, 0, 0, 0, 0],
   [0, 0, 0, 1, 1, 1, 0, 0, 0],
   [0, 0, 0, 2, 2, 2, 0, 0, 0],
   [0, 0, 0, 11, 15, 11, 0, 0, 0]]

def shiValue : List (List ℤ) :=
  [[0, 0, 0, 0, 0, 0, 0, 0, 0],
   [0, 0, 0, 0, 0, 0, 0, 0, 0],
   [0, 0, 0, 0, 0, 0, 0, 0, 0],
   [0, 0, 0, 0, 0, 0, 0, 0, 0],
   [0, 0, 0, 0, 0, 0, 0, 0, 0],
   [0, 0, 0, 0, 0, 0, 0, 0, 0],
   [0, 0, 0, 0, 0, 0, 0, 0, 0],
   [0, 0, 0, 20, 0, 20, 0, 0, 0],
   [0, 0, 0, 0, 23, 0, 0, 0, 0],
   [0, 0, 0, 20, 0, 20, 0, 0, 0]]

def xiangValue : List (List ℤ) :=
  [[0, 0, 0, 0, 0, 0, 0, 0, 0],
   [0, 0, 0, 0, 0, 0, 0, 0, 0],
   [0, 0, 0, 0, 0, 0, 0, 0, 0],
   [0, 0, 0, 0, 0, 0, 0, 0, 0],
   [0, 0, 0, 0, 0, 0, 0, 0, 0],
   [0, 0, 20, 0, 0, 0, 20, 0, 0],
   [0, 0, 0, 0, 0, 0, 0, 0, 0],
   [18, 0, 0, 0, 23, 0, 0, 0, 18],
   [0, 0, 0, 0, 0, 0, 0, 0, 0],
   [0, 0, 20, 0, 0, 0, 20, 0, 0]]

def maValue : List (List ℤ) :=
  [[90, 90, 90, 96, 90, 96, 90, 90, 90],
   [90, 96, 103, 97, 94, 97, 103, 96, 90],
   [92, 98, 99, 103, 99, 103, 99, 98, 92],
   [93, 108, 100, 107, 100, 107, 100, 108, 93],
   [90, 100, 99, 103, 104, 103, 99, 100, 90],
   [90, 98, 101, 102, 103, 102, 101, 98, 90],
   [92, 94, 98, 95, 98, 95, 98, 94, 92],
   [93, 92, 94, 95, 92, 95, 94, 92, 93],
   [85, 90, 92, 93, 78, 93, 92, 90, 85],
   [88, 85, 90, 88, 90, 88, 90, 85, 88]]

def juValue : List (List ℤ) :=
  [[206, 208, 207, 213, 214, 213, 207, 208, 206],
   [206, 212, 209, 216, 233, 216, 209, 212, 206],
   [206, 208, 207, 214, 216, 214, 207, 208, 206],
   [206, 213, 213, 216, 216, 216, 213, 213, 206],
   [208, 211, 211, 214, 215, 214, 211, 211, 208],
   [208, 212, 212, 214, 215, 214, 212, 212, 208],
   [204, 209, 204, 212, 214, 212, 204, 209, 204],
   [198, 208, 204, 212, 212, 212, 204, 208, 198],
   [200, 208, 206, 212, 200, 212, 206, 208, 200],
   [194, 206, 204, 212, 200, 212, 204, 206, 194]]

def paoValue : List (List ℤ) :=
  [[100, 100, 96, 91, 90, 91, 96, 100, 100],
   [98, 98, 96, 92, 89, 92, 96, 98, 98],
   [97, 97, 96, 91, 92, 91, 96, 97, 97],
   [96, 99, 99, 98, 100, 98, 99, 99, 96],
   [96, 96, 96, 96, 100, 96, 96, 96, 96],
   [95, 96, 99, 96, 100, 96, 99, 96, 95],
   [96, 96, 96, 96, 96, 96, 96, 96, 96],
   [97, 96, 100, 99, 101, 99, 100, 96, 97],
   [96, 97, 98, 98, 98, 98, 98, 97, 96],
   [96, 96, 97, 99, 99, 99, 97, 96, 96]]

def bzValue : List (List ℤ) :=
  [[9, 9, 9, 11, 13, 11, 9, 9, 9],
   [19, 24, 34, 42, 44, 42, 34, 24, 19],
   [19, 24, 32, 37, 37, 37, 32, 24, 19],
   [19, 23, 27, 29, 30, 29, 27, 23, 19],
   [14, 18, 20, 27, 29, 27, 20, 18, 14],
   [7, 0, 13, 0, 16, 0, 13, 0, 7],
   [7, 0, 7, 0, 15, 0, 7, 0, 7],
   [0, 0, 0, 0, 0, 0, 0, 0, 0],
   [0, 0, 0, 0, 0, 0, 0, 0, 0],
   [0, 0, 0, 0, 0, 0, 0, 0, 0]]

/-- The tables are those of red; black reads them from the other end. -/
def positionValue (kind : ℕ) (p : ℤ) : ℤ :=
  grid ([jsValue, shiValue, xiangValue, maValue, juValue, paoValue, bzValue].getD kind []) p

def siqiValue : ℤ := 12345

def initBoard : List (List ℤ) :=
  [[20, 19, 18, 17, 16, 17, 18, 19, 20],
   [0, 0, 0, 0, 0, 0, 0, 0, 0],
   [0, 21, 0, 0, 0, 0, 0, 21, 0],
   [22, 0, 22, 0, 22, 0, 22, 0, 22],
   [0, 0, 0, 0, 0, 0, 0, 0, 0],
   [0, 0, 0, 0, 0, 0, 0, 0, 0],
   [14, 0, 14, 0, 14, 0, 14, 0, 14],
   [0, 13, 0, 0, 0, 0, 0, 13, 0],
   [0, 0, 0, 0, 0, 0, 0, 0, 0],
   [12, 11, 10, 9, 8, 9, 10, 11, 12]]

/-! ## Pieces and moves -/

inductive Side
  | red
  | black
deriving DecidableEq, Repr

/-- `m_turn_to_play`. -/
def Side.no : Side → ℕ
  | .red => 0
  | .black => 1

def Side.other : Side → Side
  | .red => .black
  | .black => .red

structure Move where
  start : ℤ
  target : ℤ
deriving DecidableEq, Repr

/-- The fields that playing and searching use. -/
structure Xiangqi where
  board : ℤ → ℕ
  turnToPlay : Side
  valueOfBoard : ℤ
  searchDepth : ℤ
  bestMoveIndex : ℕ
  historyTable : ℤ → ℤ

namespace Xiangqi

def selfSide (g : Xiangqi) : ℕ := 8+g.turnToPlay.no*8

def oppositeSide (g : Xiangqi) : ℕ := 16-g.turnToPlay.no*8

def isSelfPiece (g : Xiangqi) (pos : ℤ) : Bool := (8+g.turnToPlay.no*8) &&& g.board pos != 0

def isOppositePiece (g : Xiangqi) (pos : ℤ) : Bool := (16-g.turnToPlay.no*8) &&& g.board pos != 0

def pieceValue (qiziNo : ℕ) (position : ℤ) : ℤ :=
  if qiziNo < 16 then positionValue (qiziNo-8) position else -positionValue (qiziNo-16) (254-position)

def addQizi (g : Xiangqi) (qiziNo : ℕ) (position : ℤ) : Xiangqi :=
  { g with
    board := Function.update g.board position qiziNo
    valueOfBoard := g.valueOfBoard+pieceValue qiziNo position }

def delQizi (g : Xiangqi) (qiziNo : ℕ) (position : ℤ) : Xiangqi :=
  { g with
    board := Function.update g.board position 0
    valueOfBoard := g.valueOfBoard-pieceValue qiziNo position }

/-- `move_piece`; the piece it eats is `g.board m.target`. -/
def movePiece (g : Xiangqi) (m : Move) : Xiangqi :=
  let g := if g.board m.target ≠ 0 then g.delQizi (g.board m.target) m.target else g
  let g := g.addQizi (g.board m.start) m.target
  let g := g.delQizi (g.board m.start) m.start
  { g with searchDepth := g.searchDepth+1 }

def backMovePiece (g : Xiangqi) (m : Move) (eat : ℕ) : Xiangqi :=
  let g := g.addQizi (g.board m.target) m.start
  let g := g.delQizi (g.board m.target) m.target
  let g := if eat ≠ 0 then g.addQizi eat m.target else g
  { g with searchDepth := g.searchDepth-1 }

def changeSide (g : Xiangqi) : Xiangqi := { g with turnToPlay := g.turnToPlay.other }

/-! ## Regions -/

def atSelfSide (g : Xiangqi) (position : ℤ) : Bool :=
  match g.turnToPlay with
  | .red => position > 128
  | .black => position < 128

def atOppositeSide (g : Xiangqi) (position : ℤ) : Bool :=
  match g.turnToPlay with
  | .red => position < 128
  | .black => position > 128

def inSameRow (start target : ℤ) : Bool := start/16 == target/16

def inSameColumn (start target : ℤ) : Bool := start%16 == target%16

def getForward (g : Xiangqi) (start : ℤ) : ℤ :=
  match g.turnToPlay with
  | .red => start-16
  | .black => start+16

/-- What a loop `while ( in_qipan[to] )` goes through in steps of `delta`. -/
def line (delta : ℤ) : ℕ → ℤ → List ℤ
  | 0, _ => []
  | n+1, target => if inQipan target then target :: line delta n (target+delta) else []

/-- The squares of a row or column behind `position`. -/
def lineFrom (delta position : ℤ) : List ℤ := line delta 10 (position+delta)

/-! ## Check -/

def jujsOn (g : Xiangqi) : List ℤ → Bool
  | [] => false
  | target :: rest =>
    if g.board target = 0 then jujsOn g rest
    else g.board target == g.oppositeSide+pieceJu || g.board target == g.oppositeSide+pieceJs

def isJiangjunByJujs (g : Xiangqi) (position : ℤ) : Bool :=
  jsMove.any fun delta => g.jujsOn (lineFrom delta position)

def isJiangjunByMa (g : Xiangqi) (position : ℤ) : Bool :=
  (maMove.zip jsMatui).any fun x =>
    g.board (position+x.1) == g.oppositeSide+pieceMa && g.board (x.2+position) == 0

def paoOn (g : Xiangqi) : Bool → List ℤ → Bool
  | _, [] => false
  | flag, target :: rest =>
    if g.board target = 0 then paoOn g flag rest
    else if !flag then paoOn g true rest
    else g.board target == g.oppositeSide+piecePao

def isJiangjunByPao (g : Xiangqi) (position : ℤ) : Bool :=
  jsMove.any fun delta => g.paoOn false (lineFrom delta position)

def isJiangjunByBz (g : Xiangqi) (position : ℤ) : Bool :=
  g.board (g.getForward position) == g.oppositeSide+pieceBz ||
    g.board (position+1) == g.oppositeSide+pieceBz || g.board (position-1) == g.oppositeSide+pieceBz

/-- The first cell with the general; 256 if there is none. -/
def jsPosition (g : Xiangqi) : ℤ :=
  (((List.range 256).map fun i : ℕ => (i : ℤ)).find? fun p => g.board p == g.selfSide+pieceJs).getD 256

def isJiangjun (g : Xiangqi) : Bool :=
  g.isJiangjunByJujs g.jsPosition || g.isJiangjunByMa g.jsPosition || g.isJiangjunByPao g.jsPosition ||
    g.isJiangjunByBz g.jsPosition

/-- `test_move`, which takes its move back. -/
def testMove (g : Xiangqi) (start target : ℤ) : Bool := !(g.movePiece ⟨start, target⟩).isJiangjun

/-! ## The validator -/

def canJsMove (m : Move) : Bool := inJiugong m.target && jsMove.any fun d => m.start+d == m.target

def canShiMove (m : Move) : Bool := inJiugong m.target && shiMove.any fun d => m.start+d == m.target

def canXiangMove (g : Xiangqi) (m : Move) : Bool :=
  inQipan m.target && g.atSelfSide m.target && (xiangMove.zip xiangyan).any fun x =>
    m.start+x.1 == m.target && g.board (m.start+x.2) == 0

def canMaMove (g : Xiangqi) (m : Move) : Bool :=
  inQipan m.target && (maMove.zip matui).any fun x => m.start+x.1 == m.target && g.board (m.start+x.2) == 0

/-- The step from `start` to `target` along a row or a column. -/
def stepOf (m : Move) : Option ℤ :=
  if inSameRow m.start m.target then some (if m.start < m.target then 1 else -1)
  else if inSameColumn m.start m.target then some (if m.start < m.target then 16 else -16)
  else none

/-- The loop of `can_ju_move`; `none` when the rounds are used up. -/
def juFree (g : Xiangqi) (delta target : ℤ) : ℕ → ℤ → Option Bool
  | 0, _ => none
  | n+1, position =>
    if position = target then some true
    else if g.board position ≠ 0 then some false
    else juFree g delta target n (position+delta)

def canJuMove (g : Xiangqi) (m : Move) : Option Bool :=
  if !inQipan m.target then some false
  else match stepOf m with
    | none => some false
    | some delta => g.juFree delta m.target 10 (m.start+delta)

/-- The loop of `can_pao_move`, with the number of pieces so far. -/
def paoCount (g : Xiangqi) (delta target : ℤ) : ℕ → ℕ → ℤ → Option ℕ
  | 0, _, _ => none
  | n+1, num, position =>
    if position = target then some num
    else paoCount g delta target n (if g.board position ≠ 0 then num+1 else num) (position+delta)

def canPaoMove (g : Xiangqi) (m : Move) : Option Bool :=
  if !inQipan m.target then some false
  else match stepOf m with
    | none => some false
    | some delta => (g.paoCount delta m.target 10 0 (m.start+delta)).map fun num =>
      (num == 1 && g.board m.target != 0) || (num == 0 && g.board m.target == 0)

def canBzMove (g : Xiangqi) (m : Move) : Bool :=
  if !inQipan m.target then false
  else if g.atOppositeSide m.target && (m.target+1 == m.start || m.target-1 == m.start) then true
  else g.getForward m.start == m.target

/-- `none` when the function does not return. -/
def canPieceMove (g : Xiangqi) (m : Move) : Option Bool :=
  match g.board m.start with
  | 8 | 16 => some (canJsMove m)
  | 9 | 17 => some (canShiMove m)
  | 10 | 18 => some (g.canXiangMove m)
  | 11 | 19 => some (g.canMaMove m)
  | 12 | 20 => g.canJuMove m
  | 13 | 21 => g.canPaoMove m
  | 14 | 22 => some (g.canBzMove m)
  | _ => some false

/-! ## The generators -/

/-- A move is added if it stands the test. -/
def addTested (g : Xiangqi) (position target : ℤ) : List Move :=
  if g.testMove position target then [⟨position, target⟩] else []

/-- The target of a move: any that is not one's own piece, or, for the moves that
eat, a piece of the other side. -/
def wanted (g : Xiangqi) (eat : Bool) (target : ℤ) : Bool :=
  if eat then g.isOppositePiece target else !g.isSelfPiece target

/-- The moves to some squares in a region. -/
def stepMoves (g : Xiangqi) (eat : Bool) (region : ℤ → Bool) (position : ℤ) (steps : List ℤ) : List Move :=
  steps.flatMap fun d =>
    if !region (position+d) then []
    else if g.wanted eat (position+d) then g.addTested position (position+d) else []

/-- The moves to some squares, each with another that has to be empty. -/
def leapMoves (g : Xiangqi) (eat : Bool) (region : ℤ → Bool) (position : ℤ) (steps : List (ℤ × ℤ)) :
    List Move :=
  steps.flatMap fun x =>
    if !region (position+x.1) || g.board (position+x.2) != 0 then []
    else if g.wanted eat (position+x.1) then g.addTested position (position+x.1) else []

def juLine (g : Xiangqi) (eat : Bool) (position : ℤ) : List ℤ → List Move
  | [] => []
  | target :: rest =>
    if g.board target = 0 then (if eat then [] else g.addTested position target) ++ juLine g eat position rest
    else if g.isOppositePiece target then g.addTested position target
    else []

def paoLine (g : Xiangqi) (eat : Bool) (position : ℤ) : Bool → List ℤ → List Move
  | _, [] => []
  | flag, target :: rest =>
    if g.board target = 0 then
      (if eat || flag then [] else g.addTested position target) ++ paoLine g eat position flag rest
    else if !flag then paoLine g eat position true rest
    else if g.isOppositePiece target then g.addTested position target
    else []

def bzStep (g : Xiangqi) (eat : Bool) (position target : ℤ) : List Move :=
  if g.wanted eat target && inQipan target then g.addTested position target else []

def bzMoves (g : Xiangqi) (eat : Bool) (position : ℤ) : List Move :=
  g.bzStep eat position (g.getForward position) ++
    if g.atOppositeSide position then
      g.bzStep eat position (position+1) ++ g.bzStep eat position (position-1)
    else []

def generateMovesOfJs (g : Xiangqi) (position : ℤ) : List Move := g.stepMoves false inJiugong position jsMove

def generateMovesOfShi (g : Xiangqi) (position : ℤ) : List Move := g.stepMoves false inJiugong position shiMove

def generateMovesOfXiang (g : Xiangqi) (position : ℤ) : List Move :=
  g.leapMoves false (fun target => inQipan target && !g.atOppositeSide target) position (xiangMove.zip xiangyan)

def generateMovesOfMa (g : Xiangqi) (position : ℤ) : List Move :=
  g.leapMoves false inQipan position (maMove.zip matui)

def generateMovesOfJu (g : Xiangqi) (position : ℤ) : List Move :=
  jsMove.flatMap fun delta => g.juLine false position (lineFrom delta position)

def generateMovesOfPao (g : Xiangqi) (position : ℤ) : List Move :=
  jsMove.flatMap fun delta => g.paoLine false position false (lineFrom delta position)

def generateMovesOfBz (g : Xiangqi) (position : ℤ) : List Move := g.bzMoves false position

def generateEatMovesOfJs (g : Xiangqi) (position : ℤ) : List Move := g.stepMoves true inJiugong position jsMove

def generateEatMovesOfShi (g : Xiangqi) (position : ℤ) : List Move := g.stepMoves true inJiugong position shiMove

def generateEatMovesOfXiang (g : Xiangqi) (position : ℤ) : List Move :=
  g.leapMoves true (fun target => inQipan target && !g.atOppositeSide target) position (xiangMove.zip xiangyan)

def generateEatMovesOfMa (g : Xiangqi) (position : ℤ) : List Move :=
  g.leapMoves true inQipan position (maMove.zip matui)

def generateEatMovesOfJu (g : Xiangqi) (position : ℤ) : List Move :=
  jsMove.flatMap fun delta => g.juLine true position (lineFrom delta position)

def generateEatMovesOfPao (g : Xiangqi) (position : ℤ) : List Move :=
  jsMove.flatMap fun delta => g.paoLine true position false (lineFrom delta position)

def generateEatMovesOfBz (g : Xiangqi) (position : ℤ) : List Move := g.bzMoves true position

/-- The squares, column after column. -/
def positions : List ℤ :=
  (List.range 9).flatMap fun x : ℕ => (List.range 10).map fun y : ℕ =>
    16*((y : ℤ)+boardTop)+((x : ℤ)+boardLeft)

def generateAllMoves (g : Xiangqi) : List Move :=
  positions.flatMap fun position =>
    if g.isSelfPiece position then
      match g.board position-g.selfSide with
      | 0 => g.generateMovesOfJs position
      | 1 => g.generateMovesOfShi position
      | 2 => g.generateMovesOfXiang position
      | 3 => g.generateMovesOfMa position
      | 4 => g.generateMovesOfJu position
      | 5 => g.generateMovesOfPao position
      | 6 => g.generateMovesOfBz position
      | _ => []
    else []

def generateAllEatMoves (g : Xiangqi) : List Move :=
  positions.flatMap fun position =>
    if g.isSelfPiece position then
      match g.board position-g.selfSide with
      | 0 => g.generateEatMovesOfJs position
      | 1 => g.generateEatMovesOfShi position
      | 2 => g.generateEatMovesOfXiang position
      | 3 => g.generateEatMovesOfMa position
      | 4 => g.generateEatMovesOfJu position
      | 5 => g.generateEatMovesOfPao position
      | 6 => g.generateEatMovesOfBz position
      | _ => []
    else []

end Xiangqi

end BabyOS.XiangqiBoard

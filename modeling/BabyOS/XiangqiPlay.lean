import BabyOS.MousePackets
import BabyOS.XiangqiCells

/-!
# The player's moves

A press of the left button chooses a piece or moves the one chosen, and the computer
replies. The pointer can be pressed anywhere on the screen, also where its cell would
be behind the board. A move that leaves the general in check is made, and stays.
-/

set_option autoImplicit false

namespace BabyOS.XiangqiPlay
open BabyOS.XiangqiBoard BabyOS.XiangqiBoard.Xiangqi BabyOS.XiangqiMoves BabyOS.XiangqiSearch
open BabyOS.XiangqiChecks BabyOS.XiangqiCells
open BabyOS.MousePackets (Packet)

/-! ## The program -/

/-- A piece that is drawn. -/
structure Picture where
  kind : ℤ
  row : ℕ
  col : ℕ

structure Player where
  game : Xiangqi
  mouseX : ℤ
  mouseY : ℤ
  mousePrevX : ℤ
  mousePrevY : ℤ
  selectedX : ℤ
  selectedY : ℤ
  firstPlay : Bool
  gameOver : Bool
  searchLevel : ℕ
  pictures : List Picture

def left : ℕ := 1

namespace Player

def getPosition (t : Player) (x y : ℤ) : ℤ := if t.firstPlay then 16*y+x else 254-(16*y+x)

def drawPieces (t : Player) : List Picture :=
  (List.range 9).flatMap fun col : ℕ => (List.range 10).flatMap fun row : ℕ =>
    let no := t.game.board (t.getPosition (boardLeft+col) (boardTop+row))
    if no ≠ 0 then [⟨if no ≥ 16 then no-7-1 else no-7, row, col⟩] else []

def draw (t : Player) : Player := { t with pictures := t.drawPieces }

/-! ## The pointer -/

/-- The loop of `get_event`: the sums of the steps, and whether a press ends it. -/
def steps : List Packet → ℤ → ℤ → ℤ × ℤ × Bool
  | [], dx, dy => (dx, dy, false)
  | p :: ps, dx, dy =>
    if p.button = left then (dx+p.dx.toInt, dy+p.dy.toInt, true) else steps ps (dx+p.dx.toInt) (dy+p.dy.toInt)

def bounded (z limit : ℤ) : ℤ :=
  let z := if z < 0 then 0 else z
  if z ≥ limit then limit else z

/-- `get_event` on the packets of one `read`. -/
def getEvent (t : Player) (packets : List Packet) : Player × ℕ :=
  let (dx, dy, button) := steps packets 0 0
  let t := if packets = [] then t else
    let t := { t with mousePrevX := t.mouseX, mousePrevY := t.mouseY }
    if dx ≠ 0 ∨ dy ≠ 0 then
      { t with mouseX := bounded (t.mouseX+dx) (1280-24), mouseY := bounded (t.mouseY+dy) (960-24) }
    else t
  (t, if button then 1 else if t.mousePrevX ≠ t.mouseX ∨ t.mousePrevY ≠ t.mouseY then 2 else 0)

/-! ## A press -/

def selectPiece (t : Player) (x y : ℤ) : Player := { t with selectedX := x, selectedY := y }

/-- The column and the row under the pointer. -/
def pointed (t : Player) : ℤ × ℤ := ((t.mouseX-37).tdiv 50+3, (t.mouseY-41).tdiv 50+3)

/-- The cell under the pointer. -/
def clicked (t : Player) : ℤ := t.getPosition t.pointed.1 t.pointed.2

/-- The chosen piece to the cell under the pointer. -/
def chosen (t : Player) : Move := ⟨t.getPosition t.selectedX t.selectedY, t.clicked⟩

/-- `left_button_down` up to the reply, and whether there is one. -/
def press (t : Player) : Option (Player × Bool) :=
  if t.selectedX ≠ 0 then
    if t.game.isSelfPiece t.clicked then some (t.selectPiece t.pointed.1 t.pointed.2, false)
    else match t.game.canPieceMove t.chosen with
      | none => none
      | some false => some (t, false)
      | some true =>
        let t' := { t with game := t.game.movePiece t.chosen }
        if !t'.game.isJiangjun then
          let t' := { t' with selectedX := 0, selectedY := 0 }
          some ({ t' with game := t'.game.changeSide }.draw, true)
        else some (t', false)
  else if t.game.isSelfPiece t.clicked then some (t.selectPiece t.pointed.1 t.pointed.2, false)
  else some (t, false)

/-- The moves of the side to play, if they fit their array. -/
def moves (t : Player) : Option (List Move) :=
  if maxMoves < t.game.generateAllMoves.length then none else some t.game.generateAllMoves

/-- The game as a search of the computer begins. -/
def searched (t : Player) : Xiangqi := { t.game with searchDepth := 0, historyTable := fun _ => 0 }

def played (t : Player) (m : Move) (g : Xiangqi) : Player := { t with game := (g.movePiece m).changeSide }.draw

def finished (t : Player) (moves : List Move) : Player := if moves = [] then { t with gameOver := true } else t

/-- The move that is found is played. -/
def replied (t : Player) (m : Move) (g : Xiangqi) : Option Player :=
  (t.played m g).moves.map (t.played m g).finished

/-- `none` is a search without a result, or moves that do not fit their array. -/
def computerPlay (rounds : ℕ) (t : Player) : Option Player :=
  if t.gameOver then some t
  else t.moves.bind fun movesOfComputer =>
    if movesOfComputer = [] then some (t.finished movesOfComputer)
    else (alphaBeta rounds t.searchLevel (-siqiValue) siqiValue t.searched).bind fun r =>
      movesOfComputer[r.2.bestMoveIndex]?.bind fun m => t.replied m r.2

def leftButtonDown (rounds : ℕ) (t : Player) : Option Player :=
  match press t with
  | none => none
  | some (t, reply) => if reply then t.computerPlay rounds else some t

end Player

/-! ## Runs -/

/-- The program after `init`, in any memory. -/
structure Start (t : Player) : Prop where
  board : ∀ q, Inside q → t.game.board q = initial.board q
  turnToPlay : t.game.turnToPlay = .red
  mouse : t.mouseX = 0 ∧ t.mouseY = 0
  selected : t.selectedX = 0 ∧ t.selectedY = 0
  firstPlay : t.firstPlay = true
  searchLevel : t.searchLevel = 3

/-- Rounds of `loop`, in which some presses are allowed. -/
inductive Run (allowed : Player → Prop) (rounds : ℕ) : Player → Prop
  | start {t : Player} : Start t → Run allowed rounds t.draw
  | move {t u : Player} {packets : List Packet} {e : ℕ} : Run allowed rounds t → t.getEvent packets = (u, e) →
      e ≠ 1 → Run allowed rounds (if e = 0 then u else u.draw)
  | press {t u v : Player} {packets : List Packet} : Run allowed rounds t → t.getEvent packets = (u, 1) →
      allowed u → u.leftButtonDown rounds = some v → Run allowed rounds v.draw

/-! ## What a press is for -/

/-- Without the memory around the board. -/
def Player.trim (t : Player) : Player := { t with game := XiangqiCells.trim t.game }

/-- A press plays a legal move, or leaves the game as it was. It depends on the cells of the
board alone, and changes no others. -/
structure Obeys (rounds : ℕ) (t : Player) : Prop where
  plays : ∃ u reply, t.press = some (u, reply) ∧
    ((reply = false ∧ u.game.board = t.game.board ∧ u.game.turnToPlay = t.game.turnToPlay ∧
        u.game.valueOfBoard = t.game.valueOfBoard) ∨
      (reply = true ∧ ∃ m ∈ t.game.generateAllMoves, u.game = (t.game.movePiece m).changeSide))
  reads : ∀ u : Player, u.trim = t.trim →
    u.press.map (fun r => (r.1.trim, r.2)) = t.press.map (fun r => (r.1.trim, r.2)) ∧
    (u.leftButtonDown rounds).map Player.trim = (t.leftButtonDown rounds).map Player.trim
  writes : (∀ u reply, t.press = some (u, reply) → ∀ q, ¬Inside q → u.game.board q = t.game.board q) ∧
    ∀ u, t.leftButtonDown rounds = some u → ∀ q, ¬Inside q → u.game.board q = t.game.board q

/-- The press would make a move of the chosen piece. -/
def Moving (t : Player) : Prop :=
  t.selectedX ≠ 0 ∧ t.game.isSelfPiece t.clicked = false ∧ t.game.canPieceMove t.chosen = some true

/-- The pointer is at a cell of the board, and a move made does not leave the general in
check. -/
def Fair (t : Player) : Prop :=
  Inside t.clicked ∧ (Moving t → (t.game.movePiece t.chosen).isJiangjun = false)

/-! ## The validator -/

section Validator

variable {g : Xiangqi} {m : Move} {k : ℕ}

/-- No piece moves to a cell that is not a square. -/
theorem can_off (h : inQipan m.target = false) : g.canPieceMove m = some false := by
  have hpalace : inJiugong m.target = false := by
    by_contra hin
    rw [inJiugong_inQipan (Bool.of_not_eq_false hin)] at h
    cases h
  have hju : g.canJuMove m = some false := by
    rw [canJuMove, h]
    rfl
  have hpao : g.canPaoMove m = some false := by
    rw [canPaoMove, h]
    rfl
  have hbz : g.canBzMove m = false := by
    rw [canBzMove, h]
    rfl
  rw [canPieceMove, canJsMove, canShiMove, canXiangMove, canMaMove, hju, hpao, hbz, h, hpalace]
  split <;> rfl

theorem can_square (h : g.canPieceMove m = some true) : inQipan m.target = true := by
  by_contra hoff
  rw [can_off (Bool.eq_false_of_not_eq_true hoff)] at h
  cases h

theorem walk_square {delta : ℤ} (h : ∀ j ≤ k, inQipan (m.start+delta+(j : ℕ)*delta) = true) :
    ∀ q ∈ walk delta k (m.start+delta), inQipan q = true := by
  intro q hq
  obtain ⟨j, hj, rfl⟩ := mem_walk.mp hq
  exact h j hj.le

/-- The check of a move looks at the board alone. -/
theorem canPieceMove_trim (hs : inQipan m.start = true) (hne : m.start ≠ m.target) (hk : k ≤ 6)
    (hb : g.board m.start = g.selfSide+k) : (trim g).canPieceMove m = g.canPieceMove m := by
  by_cases ht : inQipan m.target = true
  · have hbounds := (inQipan_iff m.start).mp hs
    have hlegs : ∀ steps : List (ℤ × ℤ), (∀ x ∈ steps, -17 ≤ x.2 ∧ x.2 ≤ 17) →
        (steps.any fun x => m.start+x.1 == m.target && (trim g).board (m.start+x.2) == 0) =
          steps.any fun x => m.start+x.1 == m.target && g.board (m.start+x.2) == 0 := by
      intro steps hsteps
      refine any_congr_mem fun x hx => ?_
      have hleg := hsteps x hx
      rw [trim_inside (p := m.start+x.2) ⟨by omega, by omega⟩]
    have hju : (trim g).canJuMove m = g.canJuMove m := by
      rw [canJuMove, canJuMove]
      cases hstep : stepOf m with
      | none => rfl
      | some delta =>
        obtain ⟨hd, n, hn, he, hin⟩ := stepOf_spec hs ht hne hstep
        dsimp only
        rw [he, juFree_eq (js_ne_zero hd) hn, juFree_eq (js_ne_zero hd) hn]
        have hcells : (∀ q ∈ walk delta n (m.start+delta), (trim g).board q = 0) ↔
            ∀ q ∈ walk delta n (m.start+delta), g.board q = 0 :=
          forall₂_congr fun q hq => by rw [trim_square (walk_square hin q hq)]
        rw [decide_eq_decide.mpr hcells]
    have hpao : (trim g).canPaoMove m = g.canPaoMove m := by
      rw [canPaoMove, canPaoMove]
      cases hstep : stepOf m with
      | none => rfl
      | some delta =>
        obtain ⟨hd, n, hn, he, hin⟩ := stepOf_spec hs ht hne hstep
        dsimp only
        rw [trim_square ht, he, paoCount_eq (js_ne_zero hd) hn, paoCount_eq (js_ne_zero hd) hn]
        have hcells : (walk delta n (m.start+delta)).countP (fun q => (trim g).board q != 0) =
            (walk delta n (m.start+delta)).countP fun q => g.board q != 0 :=
          List.countP_congr fun q hq => by rw [trim_square (walk_square hin q hq)]
        rw [hcells]
    rw [can_kind hk hb, can_kind hk ((trim_square hs).trans hb)]
    interval_cases k
    · rfl
    · rfl
    · exact congrArg (fun b => some (inQipan m.target && g.atSelfSide m.target && b)) (hlegs _ (by decide))
    · exact congrArg (fun b => some (inQipan m.target && b)) (hlegs _ (by decide))
    · exact hju
    · exact hpao
    · rfl
  · rw [can_off (Bool.eq_false_of_not_eq_true ht), can_off (Bool.eq_false_of_not_eq_true ht)]

end Validator

/-! ## Moves of the player -/

section Moves

variable {g : Xiangqi} {m : Move}

/-- A piece of one's own that the validator lets move to a cell without another. -/
structure Candidate (g : Xiangqi) (m : Move) : Prop where
  good : Good (trim g)
  own : (trim g).isSelfPiece m.start = true
  free : g.isSelfPiece m.target = false
  can : g.canPieceMove m = some true

theorem Candidate.start (h : Candidate g m) : inQipan m.start = true :=
  self_inQipan h.good.arranged.placed h.own

theorem Candidate.target (h : Candidate g m) : inQipan m.target = true := can_square h.can

theorem own_code (h : Good (trim g)) (hs : (trim g).isSelfPiece m.start = true) :
    ∃ k ≤ 6, g.board m.start = g.selfSide+k := by
  obtain ⟨k, hk, hb⟩ := self_code h.arranged.placed hs
  rw [trim_square (self_inQipan h.arranged.placed hs)] at hb
  exact ⟨k, hk, hb⟩

theorem own_differ (hs : (trim g).isSelfPiece m.start = true) (ht : Inside m.target)
    (hfree : g.isSelfPiece m.target = false) : m.start ≠ m.target := by
  intro he
  rw [he, trim_self ht, hfree] at hs
  cases hs

/-- The generator would list it, if it stands the test. -/
theorem Candidate.pseudo (h : Candidate g m) : Pseudo (trim g) m := by
  have ht := qipan_inside h.target
  obtain ⟨k, hk, hb⟩ := own_code h.good h.own
  refine ⟨h.own, ⟨h.target, (trim_self ht).trans h.free⟩, ?_⟩
  rw [canPieceMove_trim h.start (own_differ h.own ht h.free) hk hb]
  exact h.can

/-- The test of the move looks at the board alone. -/
theorem Candidate.check (h : Candidate g m) : (trim (g.movePiece m)).isJiangjun = (g.movePiece m).isJiangjun := by
  have hs := qipan_inside h.start
  have ht := qipan_inside h.target
  have hpseudo := h.pseudo
  have hgeneral := general_moved h.good.general (pseudo_ne hpseudo) hpseudo.2.1.2
    (pseudo_general h.good.arranged hpseudo)
  refine isJiangjun_trim ?_
  rw [trim_movePiece hs ht, movePiece_turn]
  exact hgeneral

theorem Candidate.legal_iff (h : Candidate g m) :
    m ∈ g.generateAllMoves ↔ (g.movePiece m).isJiangjun = false := by
  rw [← generateAllMoves_trim h.good.arranged.placed h.good.general, generated_iff h.good.arranged.placed, testMove,
    ← trim_movePiece (qipan_inside h.start) (qipan_inside h.target), h.check, Bool.not_eq_true']
  exact and_iff_right h.pseudo

theorem movePiece_outside (hne : m.start ≠ m.target) (hs : Inside m.start) (ht : Inside m.target) {q : ℤ}
    (hq : ¬Inside q) : (g.movePiece m).board q = g.board q := by
  rw [movePiece_board hne, Function.update_of_ne, Function.update_of_ne]
  · rintro rfl
    exact hq ht
  · rintro rfl
    exact hq hs

end Moves

/-! ## The cells of the board -/

section Cells

variable {t u v : Player} {rounds : ℕ} {m : Move} {g : Xiangqi}

theorem draw_trim (t : Player) : t.draw.trim = t.trim.draw := by
  have hsame : t.trim.drawPieces = t.drawPieces := by
    refine List.flatMap_congr fun col hcol => List.flatMap_congr fun row hrow => ?_
    have hc := List.mem_range.mp hcol
    have hr := List.mem_range.mp hrow
    have hin : Inside (t.getPosition (boardLeft+col) (boardTop+row)) := by
      rw [Player.getPosition, boardLeft, boardTop, Inside]
      split_ifs <;> omega
    have hcell : t.trim.game.board (t.trim.getPosition (boardLeft+col) (boardTop+row)) =
        t.game.board (t.getPosition (boardLeft+col) (boardTop+row)) := trim_inside hin
    rw [hcell]
  rw [Player.draw, Player.draw, hsame]
  rfl

theorem moves_trim (h : Good (trim t.game)) : t.trim.moves = t.moves := by
  rw [Player.moves, Player.moves]
  change (if maxMoves < (trim t.game).generateAllMoves.length then none else some (trim t.game).generateAllMoves) = _
  rw [generateAllMoves_trim h.arranged.placed h.general]

theorem played_trim (hm : Fine g m) : t.trim.played m (trim g) = (t.played m g).trim := by
  rw [Player.played, Player.played, draw_trim, ← trim_movePiece hm.start hm.target]
  rfl

theorem finished_trim (t : Player) (l : List Move) : t.trim.finished l = (t.finished l).trim := by
  rw [Player.finished, Player.finished]
  split_ifs <;> rfl

theorem replied_trim (hm : Fine g m) : t.trim.replied m (trim g) = (t.replied m g).map Player.trim := by
  have hgood : Good (trim (t.played m g).game) := hm.good
  rw [Player.replied, Player.replied, played_trim hm, moves_trim hgood, Option.map_map]
  exact congrArg (fun f => Option.map f _) (funext fun l => finished_trim _ l)

theorem searched_good (h : Good (trim t.game)) : Good (trim t.searched) := good_same h rfl rfl

/-- The move that the search finds is one of those generated. -/
theorem found_fine (h : Good (trim t.game)) {l : List Move} (hl : t.moves = some l) {i : ℕ} (hm : l[i]? = some m) :
    Fine t.searched m ∧ m ∈ t.game.generateAllMoves := by
  have hmem : m ∈ t.game.generateAllMoves := by
    rw [Player.moves] at hl
    split_ifs at hl
    rw [Option.some.inj hl]
    exact List.mem_of_getElem? hm
  have hcore : core t.searched = core t.game := rfl
  refine ⟨fine_move (searched_good h) ?_, hmem⟩
  rw [← generateAllMoves_core, hcore, generateAllMoves_core]
  exact hmem

theorem fine_restored {g' : Xiangqi} (hm : Fine g m) (hr : Restored g g') : Fine g' m :=
  ⟨hm.differ, hm.start, hm.target, hm.restored hr⟩

theorem computerPlay_trim (h : Good (trim t.game)) :
    t.trim.computerPlay rounds = (t.computerPlay rounds).map Player.trim := by
  rw [Player.computerPlay, Player.computerPlay, moves_trim h]
  by_cases hover : t.gameOver = true
  · rw [if_pos hover]
    exact if_pos hover
  · rw [if_neg hover]
    refine (if_neg hover).trans ?_
    cases hmoves : t.moves with
    | none => rfl
    | some l =>
      rw [Option.bind_some, Option.bind_some]
      by_cases hl : l = []
      · rw [if_pos hl, if_pos hl, finished_trim]
        rfl
      · rw [if_neg hl, if_neg hl]
        change (alphaBeta rounds t.searchLevel (-siqiValue) siqiValue (trim t.searched)).bind _ = _
        rw [alphaBeta_sees.trims (searched_good h)]
        cases hsearch : alphaBeta rounds t.searchLevel (-siqiValue) siqiValue t.searched with
        | none => rfl
        | some r =>
          rw [Option.map_some, Option.bind_some, Option.bind_some, trimmed]
          dsimp only
          change l[r.2.bestMoveIndex]?.bind _ = _
          cases hm : l[r.2.bestMoveIndex]? with
          | none => rfl
          | some m =>
            have hfine := fine_restored (found_fine h hmoves hm).1 (alphaBeta_sees.restores (searched_good h) hsearch)
            exact replied_trim hfine

/-- A reply changes the game, on the board alone, and keeps it good. -/
theorem computerPlay_kept (h : Good (trim t.game)) (hv : t.computerPlay rounds = some v) :
    ∃ game gameOver pictures, v = { t with game := game, gameOver := gameOver, pictures := pictures } ∧
      Good (trim game) ∧ ∀ q, ¬Inside q → game.board q = t.game.board q := by
  have hfinished : ∀ (t : Player) l, t.finished l = { t with gameOver := if l = [] then true else t.gameOver } := by
    intro t l
    rw [Player.finished]
    split_ifs <;> rfl
  rw [Player.computerPlay] at hv
  split_ifs at hv with hover
  · cases hv
    exact ⟨t.game, t.gameOver, t.pictures, rfl, h, fun q _ => rfl⟩
  · obtain ⟨l, hl, hrest⟩ := Option.bind_eq_some_iff.mp hv
    split_ifs at hrest
    · rw [hfinished, Option.some_inj] at hrest
      exact ⟨t.game, _, t.pictures, hrest.symm, h, fun q _ => rfl⟩
    · obtain ⟨r, hsearch, hfound⟩ := Option.bind_eq_some_iff.mp hrest
      obtain ⟨m, hm, hplayed⟩ := Option.bind_eq_some_iff.mp hfound
      rw [Player.replied] at hplayed
      obtain ⟨l', -, hlast⟩ := Option.map_eq_some_iff.mp hplayed
      have hr := alphaBeta_sees.restores (searched_good h) hsearch
      have hfine := fine_restored (found_fine h hl hm).1 hr
      rw [hfinished] at hlast
      refine ⟨_, _, _, hlast.symm, hfine.good, fun q hq => ?_⟩
      refine (movePiece_outside hfine.differ hfine.start hfine.target hq).trans ?_
      rw [hr.board]
      rfl

/-- The search of a reply ends with the index of a move. -/
theorem reply_found (h : Good (trim t.game)) (hlevel : t.searchLevel ≠ 0) {l : List Move} (hl : t.moves = some l)
    (hne : l ≠ []) {r : ℤ × Xiangqi}
    (hr : alphaBeta rounds t.searchLevel (-siqiValue) siqiValue t.searched = some r) :
    ∃ m, l[r.2.bestMoveIndex]? = some m := by
  have hmoves : l = t.searched.generateAllMoves := by
    have hcore : core t.searched = core t.game := rfl
    rw [← generateAllMoves_core, hcore, generateAllMoves_core]
    rw [Player.moves] at hl
    split_ifs at hl
    exact (Option.some.inj hl).symm
  rw [hmoves] at hne ⊢
  have hlt := alphaBeta_index (searched_good h) hlevel rfl (List.length_pos_iff.mpr hne) hr
  exact ⟨_, List.getElem?_eq_getElem hlt⟩

end Cells

/-! ## A press -/

/-- What holds between the events. -/
structure Held (t : Player) : Prop where
  good : Good (trim t.game)
  own : t.selectedX ≠ 0 → (trim t.game).isSelfPiece (t.getPosition t.selectedX t.selectedY) = true
  firstPlay : t.firstPlay = true
  pointer : (0 ≤ t.mouseX ∧ t.mouseX ≤ 1280-24) ∧ 0 ≤ t.mouseY ∧ t.mouseY ≤ 960-24

section Press

variable {t u v : Player} {rounds : ℕ}

/-- The player after a legal move. -/
def moved (t : Player) : Player :=
  { t with game := (t.game.movePiece t.chosen).changeSide, selectedX := 0, selectedY := 0 }.draw

theorem press_select (hs : t.game.isSelfPiece t.clicked = true) :
    t.press = some (t.selectPiece t.pointed.1 t.pointed.2, false) := by
  rw [Player.press]
  split_ifs <;> rfl

theorem press_move (hm : Moving t) : t.press =
    if (t.game.movePiece t.chosen).isJiangjun then some ({ t with game := t.game.movePiece t.chosen }, false)
    else some (moved t, true) := by
  obtain ⟨hsel, hfree, hcan⟩ := hm
  rw [Player.press, if_pos hsel, hfree, hcan]
  cases hcheck : (t.game.movePiece t.chosen).isJiangjun with
  | true => simp [hcheck]
  | false => simp [hcheck, moved]

theorem Held.candidate (h : Held t) (hm : Moving t) : Candidate t.game t.chosen :=
  ⟨h.good, h.own hm.1, hm.2.1, hm.2.2⟩

theorem press_stay (h : Held t) (hs : t.game.isSelfPiece t.clicked = false) (hm : ¬Moving t) :
    t.press = some (t, false) := by
  rw [Player.press, hs]
  by_cases hsel : t.selectedX ≠ 0
  · rw [if_pos hsel]
    have hstart : inQipan t.chosen.start = true := self_inQipan h.good.arranged.placed (h.own hsel)
    cases hcan : t.game.canPieceMove t.chosen with
    | none =>
      by_cases hin : inQipan t.chosen.target = true
      · obtain ⟨b, hb⟩ := can_returns (g := t.game) hstart (own_differ (h.own hsel) (qipan_inside hin) hs)
        rw [hcan] at hb
        cases hb
      · rw [can_off (Bool.eq_false_of_not_eq_true hin)] at hcan
        cases hcan
    | some b =>
      cases b with
      | false => rfl
      | true => exact absurd ⟨hsel, hs, hcan⟩ hm
  · rw [if_neg hsel]
    rfl

/-- A division that truncates is 0 just left of 0, too. -/
theorem tdiv_bounds {z n : ℤ} (hlow : -50 < z) (hhigh : z < 50*n) (hn : 0 < n) :
    0 ≤ z.tdiv 50 ∧ z.tdiv 50 < n := by
  rcases le_or_gt 0 z with hz | hz
  · rw [Int.tdiv_eq_ediv_of_nonneg hz]
    omega
  · have hneg : z.tdiv 50 = -((-z)/50) := by
      rw [← Int.tdiv_eq_ediv_of_nonneg (by omega), Int.neg_tdiv, neg_neg]
    omega

/-- The pointer's cell. -/
theorem Held.clicked (h : Held t) : t.clicked = 16*t.pointed.2+t.pointed.1 ∧ 3 ≤ t.pointed.1 ∧
    t.pointed.1 ≤ 27 ∧ 3 ≤ t.pointed.2 ∧ t.pointed.2 ≤ 20 := by
  obtain ⟨⟨hx, hx'⟩, hy, hy'⟩ := h.pointer
  have hcol := tdiv_bounds (z := t.mouseX-37) (n := 25) (by omega) (by omega) (by decide)
  have hrow := tdiv_bounds (z := t.mouseY-41) (n := 18) (by omega) (by omega) (by decide)
  rw [Player.clicked, Player.getPosition, h.firstPlay, if_pos rfl]
  dsimp only [Player.pointed]
  omega

/-! ### The press on the cells of the board -/

theorem held_trim (h : Held t) (hu : u.trim = t.trim) : Held u := by
  have hgame : trim u.game = trim t.game := congrArg Player.game hu
  have hselx : u.selectedX = t.selectedX := (congrArg Player.selectedX hu :)
  have hsely : u.selectedY = t.selectedY := (congrArg Player.selectedY hu :)
  have hfirst : u.firstPlay = t.firstPlay := (congrArg Player.firstPlay hu :)
  have hmx : u.mouseX = t.mouseX := (congrArg Player.mouseX hu :)
  have hmy : u.mouseY = t.mouseY := (congrArg Player.mouseY hu :)
  refine ⟨hgame ▸ h.good, fun hsel => ?_, hfirst.trans h.firstPlay, ?_⟩
  · have hown := h.own (hselx ▸ hsel)
    rw [Player.getPosition] at hown ⊢
    rw [hgame, hselx, hsely, hfirst]
    exact hown
  · rw [hmx, hmy]
    exact h.pointer

theorem trim_trim (t : Player) : t.trim.trim = t.trim := by
  have hboard : XiangqiCells.trim (XiangqiCells.trim t.game) = XiangqiCells.trim t.game := by
    rw [XiangqiCells.trim]
    refine congrArg (fun b : ℤ → ℕ => { t.game with board := b }) (funext fun p => ?_)
    by_cases hp : Inside p
    · exact if_pos hp
    · exact (if_neg hp).trans (if_neg hp).symm
  exact congrArg (fun g => { t with game := g }) hboard

theorem clicked_trim (t : Player) : t.trim.clicked = t.clicked := rfl

theorem moving_trim (h : Held t) (hin : Inside t.clicked) : Moving t.trim ↔ Moving t := by
  have hself : t.trim.game.isSelfPiece t.clicked = t.game.isSelfPiece t.clicked := trim_self hin
  refine and_congr_right fun hsel => ?_
  rw [clicked_trim, hself]
  refine and_congr_right fun hfree => ?_
  have hown := h.own hsel
  obtain ⟨k, hk, hb⟩ := own_code (m := t.chosen) h.good hown
  have hcan := canPieceMove_trim (m := t.chosen) (self_inQipan h.good.arranged.placed hown)
    (own_differ hown hin hfree) hk hb
  exact Eq.congr_left hcan

theorem press_trim (h : Held t) (hin : Inside t.clicked) :
    t.trim.press = t.press.map fun r => (r.1.trim, r.2) := by
  have hself : t.trim.game.isSelfPiece t.clicked = t.game.isSelfPiece t.clicked := trim_self hin
  cases hs : t.game.isSelfPiece t.clicked with
  | true =>
    rw [press_select hs, press_select (hself.trans hs)]
    rfl
  | false =>
    by_cases hm : Moving t
    · have hcandidate := h.candidate hm
      have hmove : (trim t.game).movePiece t.chosen = trim (t.game.movePiece t.chosen) :=
        (trim_movePiece (qipan_inside hcandidate.start) hin).symm
      have hcheck : (t.trim.game.movePiece t.trim.chosen).isJiangjun = (t.game.movePiece t.chosen).isJiangjun :=
        (congrArg Xiangqi.isJiangjun hmove).trans hcandidate.check
      have hstays : ({ t.trim with game := t.trim.game.movePiece t.trim.chosen } : Player) =
          ({ t with game := t.game.movePiece t.chosen } : Player).trim :=
        congrArg (fun g => { t with game := g }) hmove
      have hmoves : moved t.trim = (moved t).trim := by
        rw [moved, moved, draw_trim]
        exact congrArg (fun g : Xiangqi =>
          ({ t with game := g.changeSide, selectedX := 0, selectedY := 0 } : Player).draw) hmove
      rw [press_move hm, press_move ((moving_trim h hin).mpr hm), hcheck, hstays, hmoves]
      split_ifs <;> rfl
    · rw [press_stay h hs hm, press_stay (held_trim h (trim_trim t)) (hself.trans hs)
        ((moving_trim h hin).not.mpr hm)]
      rfl

/-- What a fair press does. -/
theorem press_fair (h : Held t) (hf : Fair t) :
    (∃ u, t.press = some (u, false) ∧ u.game = t.game ∧ Held u) ∨
      Moving t ∧ t.press = some (moved t, true) ∧ t.chosen ∈ t.game.generateAllMoves ∧ Held (moved t) := by
  obtain ⟨hin, hcheck⟩ := hf
  cases hs : t.game.isSelfPiece t.clicked with
  | true =>
    refine .inl ⟨_, press_select hs, rfl, h.good, fun _ => ?_, h.firstPlay, h.pointer⟩
    exact (trim_self hin).trans hs
  | false =>
    by_cases hm : Moving t
    · have hlegal := (h.candidate hm).legal_iff.mpr (hcheck hm)
      refine .inr ⟨hm, ?_, hlegal, (fine_move h.good hlegal).good, fun hsel => absurd rfl hsel, h.firstPlay, h.pointer⟩
      rw [press_move hm, hcheck hm]
      rfl
    · exact .inl ⟨t, press_stay h hs hm, rfl, h⟩

theorem computerPlay_held (h : Held t) (hv : t.computerPlay rounds = some v)
    (hsel : t.selectedX = 0) : Held v := by
  obtain ⟨game, gameOver, pictures, rfl, hgood, -⟩ := computerPlay_kept h.good hv
  exact ⟨hgood, fun hne => absurd hsel hne, h.firstPlay, h.pointer⟩

/-- The state after a fair press. -/
theorem leftButtonDown_held (h : Held t) (hf : Fair t) (hv : t.leftButtonDown rounds = some v) : Held v := by
  rw [Player.leftButtonDown] at hv
  rcases press_fair h hf with ⟨u, hu, -, hheld⟩ | ⟨-, hmoved, -, hheld⟩
  · rw [hu] at hv
    cases hv
    exact hheld
  · rw [hmoved] at hv
    exact computerPlay_held hheld hv rfl

theorem leftButtonDown_trim (h : Held t) (hf : Fair t) :
    t.trim.leftButtonDown rounds = (t.leftButtonDown rounds).map Player.trim := by
  rw [Player.leftButtonDown, Player.leftButtonDown, press_trim h hf.1]
  rcases press_fair h hf with ⟨u, hu, -, -⟩ | ⟨-, hmoved, -, hheld⟩
  · rw [hu]
    rfl
  · rw [hmoved]
    exact computerPlay_trim hheld.good

/-- A fair press does what it is for. -/
theorem fair_obeys (h : Held t) (hf : Fair t) : Obeys rounds t := by
  refine ⟨?_, fun u hu => ?_, ?_⟩
  · rcases press_fair h hf with ⟨u, hu, hgame, -⟩ | ⟨-, hmoved, hlegal, -⟩
    · exact ⟨u, false, hu, .inl ⟨rfl, by rw [hgame], by rw [hgame], by rw [hgame]⟩⟩
    · exact ⟨moved t, true, hmoved, .inr ⟨rfl, t.chosen, hlegal, rfl⟩⟩
  · have hheld := held_trim h hu
    have hclicked : u.clicked = t.clicked := (congrArg Player.clicked hu :)
    have hin : Inside u.clicked := hclicked ▸ hf.1
    have hfair : Fair u := by
      refine ⟨hin, fun hm => ?_⟩
      have hm' : Moving t := by
        rw [← moving_trim h hf.1, ← hu, moving_trim hheld hin]
        exact hm
      have hu' := hheld.candidate hm
      have ht' := h.candidate hm'
      have hgame : trim u.game = trim t.game := congrArg Player.game hu
      have hchosen : u.chosen = t.chosen := (congrArg Player.chosen hu :)
      rw [← hu'.check, trim_movePiece (qipan_inside hu'.start) hin, hgame, hchosen,
        ← trim_movePiece (qipan_inside ht'.start) hf.1, ht'.check]
      exact hf.2 hm'
    constructor
    · rw [← press_trim h hf.1, ← press_trim hheld hin, hu]
    · rw [← leftButtonDown_trim h hf, ← leftButtonDown_trim hheld hfair, hu]
  · have hwrites : ∀ u reply, t.press = some (u, reply) → ∀ q, ¬Inside q → u.game.board q = t.game.board q := by
      intro u reply hu q hq
      rcases press_fair h hf with ⟨u', hu', hgame, -⟩ | ⟨hm, hmoved, -, -⟩
      · rw [hu'] at hu
        cases hu
        rw [hgame]
      · rw [hmoved] at hu
        cases hu
        have hc := h.candidate hm
        exact movePiece_outside (pseudo_ne hc.pseudo) (qipan_inside hc.start) hf.1 hq
    refine ⟨hwrites, fun v hv q hq => ?_⟩
    rw [Player.leftButtonDown] at hv
    rcases press_fair h hf with ⟨u, hu, -, -⟩ | ⟨-, hmoved, -, hheld⟩
    · rw [hu] at hv
      cases hv
      exact hwrites _ _ hu q hq
    · rw [hmoved] at hv
      obtain ⟨game, gameOver, pictures, rfl, -, houtside⟩ := computerPlay_kept hheld.good hv
      exact (houtside q hq).trans (hwrites _ _ hmoved q hq)

/-- The same but for a cell that is not one of the board's. -/
def patched (t : Player) (p : ℤ) (b : ℕ) : Player :=
  { t with game := { t.game with board := Function.update t.game.board p b } }

theorem patched_trim {p : ℤ} (hp : ¬Inside p) (b : ℕ) : (patched t p b).trim = t.trim := by
  have hboard : (fun q => if Inside q then Function.update t.game.board p b q else 0) =
      fun q => if Inside q then t.game.board q else 0 := by
    funext q
    by_cases hq : Inside q
    · rw [if_pos hq, if_pos hq, Function.update_of_ne]
      rintro rfl
      exact hp hq
    · rw [if_neg hq, if_neg hq]
  exact congrArg (fun b : ℤ → ℕ => ({ t with game := { t.game with board := b } } : Player)) hboard

/-- Where the pointer is behind the board, the press depends on what is there. -/
theorem obeys_inside (h : Held t) (ho : Obeys rounds t) : Inside t.clicked := by
  by_contra hout
  obtain ⟨hp, hx, -, -, -⟩ := h.clicked
  have hzero : (patched t t.clicked 0).press = some (patched t t.clicked 0, false) := by
    refine press_stay (held_trim h (patched_trim hout 0)) (empty_self ?_) fun hm => ?_
    · exact Function.update_self _ _ _
    · exact hout (qipan_inside (can_square hm.2.2))
  have hown : (patched t t.clicked t.game.selfSide).press =
      some ((patched t t.clicked t.game.selfSide).selectPiece t.pointed.1 t.pointed.2, false) := by
    refine press_select ?_
    change ((8+t.game.turnToPlay.no*8) &&& Function.update t.game.board t.clicked t.game.selfSide t.clicked != 0) = true
    rw [Function.update_self, selfSide]
    cases t.game.turnToPlay <;> rfl
  have hsame := (ho.reads _ (patched_trim hout 0)).1.trans
    (ho.reads _ (patched_trim hout t.game.selfSide)).1.symm
  rw [hzero, hown, Option.map_some, Option.map_some, Option.some_inj] at hsame
  have hselx : t.selectedX = t.pointed.1 := congrArg (fun r : Player × Bool => r.1.selectedX) hsame
  have hsely : t.selectedY = t.pointed.2 := congrArg (fun r : Player × Bool => r.1.selectedY) hsame
  have hpiece := h.own (by omega)
  rw [hselx, hsely] at hpiece
  exact hout (qipan_inside (self_inQipan h.good.arranged.placed hpiece))

/-- A move that leaves the general in check stays on the board, without a reply. -/
theorem obeys_check (h : Held t) (ho : Obeys rounds t) (hm : Moving t) :
    (t.game.movePiece t.chosen).isJiangjun = false := by
  by_contra hcheck
  obtain ⟨u, reply, hpress, hplays⟩ := ho.plays
  rw [press_move hm, if_pos (Bool.of_not_eq_false hcheck), Option.some_inj] at hpress
  cases hpress
  have hc := h.candidate hm
  rcases hplays with ⟨-, hboard, -, -⟩ | ⟨hreply, -⟩
  · obtain ⟨k, -, hb⟩ := own_code h.good hc.own
    have hstart : (t.game.movePiece t.chosen).board t.chosen.start = 0 := by
      rw [movePiece_board (pseudo_ne hc.pseudo), Function.update_self]
    rw [hboard, hb, selfSide] at hstart
    omega
  · cases hreply

end Press

/-! ## Runs from the start -/

section Runs

variable {t u : Player} {rounds : ℕ} {packets : List Packet} {e : ℕ}

theorem bounded_bounds (z limit : ℤ) (h : 0 ≤ limit) : 0 ≤ Player.bounded z limit ∧ Player.bounded z limit ≤ limit := by
  rw [Player.bounded]
  split_ifs <;> omega

theorem getEvent_held (h : Held t) (he : t.getEvent packets = (u, e)) : Held u := by
  have hx := bounded_bounds (t.mouseX+(Player.steps packets 0 0).1) (1280-24) (by decide)
  have hy := bounded_bounds (t.mouseY+(Player.steps packets 0 0).2.1) (960-24) (by decide)
  have hu := (congrArg Prod.fst he).symm
  rw [Player.getEvent] at hu
  dsimp only at hu
  split_ifs at hu
  · rw [hu]
    exact h
  · rw [hu]
    exact ⟨h.good, h.own, h.firstPlay, hx, hy⟩
  · rw [hu]
    exact ⟨h.good, h.own, h.firstPlay, h.pointer⟩

theorem draw_held (h : Held t) : Held t.draw := ⟨h.good, h.own, h.firstPlay, h.pointer⟩

theorem initial_good : Good initial := by
  have hcell : ∀ (s : Side) (k : ℕ) (q : ℤ), initial.board q = codeOf s+k → q ∈ positions := by
    intro s k q hq
    refine (mem_positions q).mpr (initial_placed q ?_).1
    rw [hq, codeOf]
    omega
  have hgeneral : ∀ s, ∃ p ∈ positions, Palace s p ∧ initial.board p = codeOf s+pieceJs ∧
      ∀ q ∈ positions, initial.board q = codeOf s+pieceJs → q = p := by
    intro s
    cases s with
    | red => exact ⟨199, by decide, by decide, by decide, by decide⟩
    | black => exact ⟨55, by decide, by decide, by decide, by decide⟩
  have hadviser : ∀ s, ∀ q ∈ positions, initial.board q = codeOf s+pieceShi → Palace s q := by
    intro s
    cases s <;> decide
  refine ⟨⟨initial_placed, fun s => ?_, fun s q hq => hadviser s q (hcell s _ q hq) hq⟩, by decide +kernel⟩
  obtain ⟨p, -, hp, hb, honly⟩ := hgeneral s
  refine ⟨p, hp, fun q => ⟨fun hq => honly q (hcell s _ q hq) hq, ?_⟩⟩
  rintro rfl
  exact hb

/-- The first board, whatever lies around it. -/
theorem trim_initial {g : Xiangqi} (h : ∀ q, Inside q → g.board q = initial.board q) :
    (XiangqiCells.trim g).board = initial.board := by
  funext q
  by_cases hq : Inside q
  · exact (if_pos hq).trans (h q hq)
  · refine (if_neg hq).trans ?_
    by_contra hne
    exact hq (qipan_inside (initial_placed q (Ne.symm hne)).1)

theorem start_held (h : Start t) : Held t := by
  refine ⟨good_same initial_good (trim_initial h.board) h.turnToPlay, fun hsel => absurd h.selected.1 hsel, h.firstPlay, ?_⟩
  rw [h.mouse.1, h.mouse.2]
  decide

theorem run_held (h : Run Fair rounds t) : Held t := by
  induction h with
  | start hstart => exact draw_held (start_held hstart)
  | move _ he _ ih =>
    split_ifs
    · exact getEvent_held ih he
    · exact draw_held (getEvent_held ih he)
  | press _ he hf hv ih => exact draw_held (leftButtonDown_held (getEvent_held ih he) hf hv)

/-- In every run of fair presses, the next press does what it is for just when it is
fair. -/
theorem presses_exact (h : Run Fair rounds t) (he : t.getEvent packets = (u, 1)) : Obeys rounds u ↔ Fair u := by
  have hheld := getEvent_held (run_held h) he
  exact ⟨fun ho => ⟨obeys_inside hheld ho, obeys_check hheld ho⟩, fair_obeys hheld⟩

/-- The program after `init`, with zeros around the board. -/
def opening : Player := ⟨initial, 0, 0, 0, 0, 0, 0, true, false, 3, []⟩

theorem opening_start : Start opening := ⟨fun _ _ => rfl, rfl, ⟨rfl, rfl⟩, ⟨rfl, rfl⟩, rfl, rfl⟩

/-- A press in the corner of the screen. -/
theorem presses_exact_corner : ∃ u, opening.draw.getEvent [⟨0, 0, 1⟩] = (u, 1) ∧ Fair u ∧ Obeys 13 u := by
  obtain ⟨u, he⟩ : ∃ u, opening.draw.getEvent [⟨0, 0, 1⟩] = (u, 1) := ⟨_, rfl⟩
  have hfair : Fair u := by
    cases he
    exact ⟨by decide, fun hm => absurd rfl hm.1⟩
  exact ⟨u, he, hfair, (presses_exact (.start opening_start) he).mpr hfair⟩

/-- A press at the lower edge of the screen reads behind the board. -/
theorem press_below : ¬∀ (rounds : ℕ) (t u : Player) (packets : List Packet), Run (fun _ => True) rounds t →
    t.getEvent packets = (u, 1) → Obeys rounds u := by
  intro hall
  obtain ⟨u, he⟩ : ∃ u, opening.draw.getEvent [⟨0, 936, 1⟩] = (u, 1) := ⟨_, rfl⟩
  have hobeys := hall 13 _ u _ (.start opening_start) he
  have hin := obeys_inside (getEvent_held (draw_held (start_held opening_start)) he) hobeys
  cases he
  exact absurd hin (by decide)

end Runs

end BabyOS.XiangqiPlay

import HexGame.Board.Setup
import HexGame.Chain.Defense

/-!
# A seat at the board

What every player keeps of a game, and the moves that need no search: a player who holds a virtual chain
keeps it, and a player against whom one stands attacks it.
-/
namespace HexGame

structure Seat where
  board : Board
  color : Color
  lastOpponent : Option Move
  defense : Option Defense

namespace Seat

/-- A seat at an empty board. Red moves first. -/
def take (size : Nat) (color : Color) : Except Error Seat := do
  return ⟨← Board.tryNew size .red, color, none, none⟩

def opponentMoved (s : Seat) (mv : Move) : Except MoveError Seat :=
  if mv.color = s.color then .error (.wrongTurn mv.color)
  else
    match s.board.tryPlay mv with
    | .ok board => .ok { s with board, lastOpponent := some mv }
    | .error cause => .error cause

def gameOver (s : Seat) : Bool := s.board.winner.isSome || s.board.toMove ≠ s.color

/-- The next move of the defense. A defense that has no move on an empty cell is given up. -/
def defend (s : Seat) : Option Move × Seat :=
  let defense := match s.defense with
    | some d => some d
    | none => Defense.find s.board s.color
  match defense with
  | none => (none, { s with defense := none })
  | some d =>
    match d.respond s.lastOpponent with
    | (some mv, d) =>
      if s.board.isEmptyAt mv.cell.wrapped then (some mv, { s with defense := some d })
      else (none, { s with defense := none })
    | (none, _) => (none, { s with defense := none })

/-- A move without a search, where a virtual chain has settled the game. -/
def endgameMove (s : Seat) : Option Move × Seat :=
  match s.defend with
  | (some mv, s) => (some mv, s)
  | (none, s) => (s.board.desperateMove s.color, s)

/-- The first empty cell, for a search that finds no move. -/
def fallbackMove (s : Seat) : Option Move := s.board.legalMoves.head?

def play (s : Seat) (mv : Move) : Except Fault Seat := do
  return { s with board := ← s.board.play mv }

end Seat
end HexGame

import HexGame.Board.Basic

/-!
# Written boards and moves

Each row of a board is indented one place further than the row above it.
-/
namespace HexGame

def Cell.text (c : Cell) : String := s!"({c.x}, {c.y})"

def Move.text (mv : Move) : String := s!"{mv.color.letter}: {mv.cell.text}"

def MoveError.message : MoveError → String
  | .wrongTurn color => s!"{color.letter} cannot move twice in a row"
  | .occupied cell => s!"cell {cell.text} is already occupied"
  | .outOfBounds cell => s!"cell {cell.text} is outside the board"

namespace Board

private def cellText (b : Board) (c : Cell) : String :=
  match b.colorAt c with
  | some k => k.letter ++ " "
  | none => ". "

private def rowText (b : Board) (y : Nat) : String :=
  let cells := (List.range b.size).map fun (x : Nat) => b.cellText ⟨x, y⟩
  String.ofList (List.replicate y ' ') ++ String.join cells ++ "\n"

def text (b : Board) : String := String.join ((List.range b.size).map b.rowText)

end Board
end HexGame

import HexGame.Error

/-!
# Making boards

`tryNew` and `tryPlay` refuse what is not allowed; `new`, `setup` and `play` leave that duty to the
caller and end in a fault.
-/
namespace HexGame
namespace Board

def blank (size : Nat) (first : Color) (h : 0 < size ∧ size ≤ maxSize) : Board where
  rows := Array.replicate size 0
  lastMover := first.opponent
  lastCell := none
  size_pos := by simpa using h.1
  size_le := by simpa using h.2
  clean := by
    intro r hr
    rw [(Array.mem_replicate.mp hr).2]
    exact Row.clean_zero _

def tryNew (size : Nat) (first : Color) : Except Error Board :=
  if h : 0 < size ∧ size ≤ maxSize then .ok (blank size first h) else .error (.boardSize size)

def new (size : Nat) (first : Color) : Except Fault Board :=
  if h : 0 < size ∧ size ≤ maxSize then .ok (blank size first h) else .error (.boardSize size)

/-- Adds a stone of either colour, whoever is to move. -/
def addStone (b : Board) (stone : Move) : Except Fault Board :=
  if ¬ b.Contains stone.cell then .error (.stoneOutside stone.cell b.size)
  else if (b.colorAt stone.cell).isSome then .error (.stoneTwice stone.cell)
  else .ok (b.put stone.cell stone.color)

/-- A position set up stone by stone; the opponent of `lastMover` is to move. -/
def setup (size : Nat) (stones : List Move) (lastMover : Color) : Except Fault Board := do
  stones.foldlM addStone (← new size lastMover.opponent)

/-- Plays a move that the caller knows to be legal. -/
def play (b : Board) (mv : Move) : Except Fault Board :=
  match b.tryPlay mv with
  | .ok next => .ok next
  | .error cause => .error (.illegalMove mv cause b)

/-- Reads a cell by its place in the packed rows. Columns beyond the board read as empty as long as
they fit into a row. -/
def readPacked (b : Board) (x y : Nat) : Except Fault (Option Color) :=
  if y < b.size then
    if x < maxSize then .ok (b.colorAt ⟨x, y⟩) else .error (.overrun .shiftRight)
  else .error (.overrun (.index b.size y))

end Board
end HexGame

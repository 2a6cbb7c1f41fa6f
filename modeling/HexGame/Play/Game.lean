import HexGame.Play.Player

/-!
# Games

Red and blue move in turn on an empty board until one of them has completed a chain. The referee keeps a
board of its own and refuses illegal moves.
-/
namespace HexGame

structure Game (R B : Type) where
  board : Board
  red : R
  blue : B
  /-- The moves so far, the latest first. -/
  moves : List Move
  winner : Option Color

structure GameRecord where
  moves : List Move
  winner : Option Color

namespace Game

variable {R B : Type} [Player R] [Player B]

/-- Seats the players, red before blue. -/
def start (red : R) (blue : B) (size : Nat) : Except Error (Game R B) := do
  let board ← Board.tryNew size .red
  match Player.newGame size .red red, Player.newGame size .blue blue with
  | (.ok (), red), (.ok (), blue) => return ⟨board, red, blue, [], none⟩
  | (.error cause, _), _ => .error cause
  | _, (.error cause, _) => .error cause

def lift {α : Type} : Except MoveError α → Except Interruption α
  | .ok a => .ok a
  | .error cause => .error (.error (.illegalMove cause))

/-- One move of one player: asked for, checked by the referee and told to the other player. The game
goes no further when the player gives none. -/
def turn {P Q : Type} [Player P] [Player Q] (effort : Effort) (board : Board) (mover : P)
    (waiting : Q) : Except Interruption (Option (Move × Board) × P × Q) := do
  match Player.nextMove effort mover with
  | (.error cause, _) => .error cause
  | (.ok none, mover) => return (none, mover, waiting)
  | (.ok (some mv), mover) =>
    let board ← lift (board.tryPlay mv)
    let (answer, waiting) := Player.opponentMoved mv waiting
    lift answer
    return (some (mv, board), mover, waiting)

def advance (g : Game R B) (red : R) (blue : B) : Option (Move × Board) → Game R B × Bool
  | none => ({ g with red, blue }, false)
  | some (mv, board) =>
    let winner := board.winner
    (⟨board, red, blue, mv :: g.moves, winner⟩, winner.isNone)

/-- The game after one more turn, and whether it goes on. -/
def step (effort : Effort) (g : Game R B) : Except Interruption (Game R B × Bool) :=
  match g.board.toMove with
  | .red => do
    let (next, red, blue) ← turn effort g.board g.red g.blue
    return g.advance red blue next
  | .blue => do
    let (next, blue, red) ← turn effort g.board g.blue g.red
    return g.advance red blue next

def playOn (efforts : Nat → Effort) : Nat → Game R B → Except Interruption (Game R B)
  | 0, g => .ok g
  | turns + 1, g => do
    let (g, goesOn) ← g.step (efforts g.moves.length)
    if goesOn then playOn efforts turns g else return g

def record (g : Game R B) : GameRecord := ⟨g.moves.reverse, g.winner⟩

/-- Plays a game to its end. `efforts` says how far the search for each move gets. After as many turns
as there are cells no player has a move left that the referee accepts. -/
def play (red : R) (blue : B) (size : Nat) (efforts : Nat → Effort) :
    Except Interruption (Game R B) := do
  match start red blue size with
  | .error cause => .error (.error cause)
  | .ok g => g.playOn efforts (size * size + 1)

end Game
end HexGame

import HexGame.MonteCarlo.Search
import HexGame.Negamax.Static
import HexGame.Play.Seat

/-!
# Players

A player is told of the opponent's moves and asked for its own. Every call gives an answer and the player
after the call, also where the answer is an error. How far a search gets in the time it is given is not
for the player to say, so it comes with the call.
-/
namespace HexGame

structure Effort where
  iterations : Nat
  deadline : Deadline
  deriving DecidableEq, Repr

def Effort.zero : Effort := ⟨0, .afterChecks 0⟩

class Player (P : Type) where
  name : P → String
  newGame : Nat → Color → P → Except Error Unit × P
  opponentMoved : Move → P → Except MoveError Unit × P
  /-- Chooses and plays a move; there is none once the game is over. -/
  nextMove : Effort → P → Except Interruption (Option Move) × P

/-- Tells a seat, if there is one, of the opponent's move. -/
def tellSeat (mv : Move) : Option Seat → Except MoveError Seat
  | none => .error (.wrongTurn mv.color)
  | some seat => seat.opponentMoved mv

structure MonteCarloPlayer (G : Type) where
  config : MonteCarlo.Config Float
  /-- The choices of every search that starts afresh. -/
  source : G
  seat : Option Seat
  search : Option (MonteCarlo.Search G)

namespace MonteCarloPlayer

variable {G : Type}

def make (config : MonteCarlo.Config Float) (source : G) : MonteCarloPlayer G :=
  ⟨config, source, none, none⟩

def finish (p : MonteCarloPlayer G) (seat : Seat) (search : Option (MonteCarlo.Search G)) :
    Option Move → Except Interruption (Option Move) × MonteCarloPlayer G
  | none => (.ok none, { p with seat := some seat, search })
  | some mv =>
    match seat.play mv with
    | .ok seat => (.ok (some mv), { p with seat := some seat, search })
    | .error fault => (.error (.fault fault), { p with seat := some seat, search })

/-- Searches the position of a seat, in the tree of the last search where there is one. -/
def searchMove [ChoiceSource G] (effort : Effort) (p : MonteCarloPlayer G) (seat : Seat) :
    Except Interruption (Option Move) × MonteCarloPlayer G :=
  let search := match p.search with
    | some previous => previous.continueFrom seat.board
    | none => .start seat.board p.config p.source
  match search.iterateTimes effort.iterations with
  | .error fault => (.error (.fault fault), { p with seat := some seat, search := none })
  | .ok search => p.finish seat (some search) (search.bestMove <|> seat.fallbackMove)

def nextMove [ChoiceSource G] (effort : Effort) (p : MonteCarloPlayer G) :
    Except Interruption (Option Move) × MonteCarloPlayer G :=
  match p.seat with
  | none => (.ok none, p)
  | some seat =>
    if seat.gameOver then (.ok none, p)
    else
      match seat.endgameMove with
      | (some mv, seat) => p.finish seat none (some mv)
      | (none, seat) => p.searchMove effort seat

end MonteCarloPlayer

instance {G : Type} [ChoiceSource G] : Player (MonteCarloPlayer G) where
  name _ := "mcts"
  newGame size color p :=
    match Seat.take size color with
    | .ok seat => (.ok (), { p with seat := some seat, search := none })
    | .error cause => (.error cause, p)
  opponentMoved mv p :=
    match tellSeat mv p.seat with
    | .ok seat => (.ok (), { p with seat := some seat })
    | .error cause => (.error cause, p)
  nextMove := MonteCarloPlayer.nextMove

structure NegamaxPlayer where
  evaluator : Evaluator
  weights : ScoreWeights
  seat : Option Seat

namespace NegamaxPlayer

def make (catalogue : Catalogue) (weights : ScoreWeights) : NegamaxPlayer :=
  ⟨.start catalogue, weights, none⟩

def finish (p : NegamaxPlayer) (seat : Seat) :
    Option Move → Except Interruption (Option Move) × NegamaxPlayer
  | none => (.ok none, { p with seat := some seat })
  | some mv =>
    match seat.play mv with
    | .ok seat => (.ok (some mv), { p with seat := some seat })
    | .error fault => (.error (.fault fault), { p with seat := some seat })

def nextMove (effort : Effort) (p : NegamaxPlayer) :
    Except Interruption (Option Move) × NegamaxPlayer :=
  match p.seat with
  | none => (.ok none, p)
  | some seat =>
    if seat.gameOver then (.ok none, p)
    else
      match seat.endgameMove with
      | (some mv, seat) => p.finish seat (some mv)
      | (none, seat) =>
        match Negamax.search (p.evaluator.staticScore p.weights) seat.board effort.deadline false with
        | .ok outcome => p.finish seat (outcome.best <|> seat.fallbackMove)
        | .error cause => (.error cause, { p with seat := some seat })

end NegamaxPlayer

instance : Player NegamaxPlayer where
  name _ := "alpha-beta"
  newGame size color p :=
    match Seat.take size color with
    | .ok seat => (.ok (), { p with seat := some seat })
    | .error cause => (.error cause, p)
  opponentMoved mv p :=
    match tellSeat mv p.seat with
    | .ok seat => (.ok (), { p with seat := some seat })
    | .error cause => (.error cause, p)
  nextMove := NegamaxPlayer.nextMove

/-- A player that looks ahead in the opening and plays random games later on. -/
structure HybridPlayer (G : Type) where
  opening : NegamaxPlayer
  later : MonteCarloPlayer G
  /-- The stones on the board at which the later player takes over. -/
  switchAt : Nat
  switched : Bool

namespace HybridPlayer

variable {G : Type}

def make (opening : NegamaxPlayer) (later : MonteCarloPlayer G) (switchAt : Nat) :
    HybridPlayer G :=
  ⟨opening, later, switchAt, false⟩

/-- Hands the seat over, once there are enough stones on the board. -/
def handOver (p : HybridPlayer G) : HybridPlayer G :=
  match p.switched, p.opening.seat with
  | false, some seat =>
    if p.switchAt ≤ seat.board.stoneCounts.stones then
      { p with later := { p.later with seat := some seat, search := none }, switched := true }
    else p
  | _, _ => p

end HybridPlayer

instance {G : Type} [ChoiceSource G] : Player (HybridPlayer G) where
  name _ := "hybrid"
  newGame size color p :=
    let (answer, opening) := Player.newGame size color p.opening
    (answer,
      { p with opening, later := { p.later with seat := none, search := none }, switched := false })
  opponentMoved mv p :=
    if p.switched then
      let (answer, later) := Player.opponentMoved mv p.later
      (answer, { p with later })
    else
      let (answer, opening) := Player.opponentMoved mv p.opening
      (answer, { p with opening })
  nextMove effort p :=
    let p := p.handOver
    if p.switched then
      let (answer, later) := Player.nextMove effort p.later
      (answer, { p with later })
    else
      let (answer, opening) := Player.nextMove effort p.opening
      (answer, { p with opening })

end HexGame

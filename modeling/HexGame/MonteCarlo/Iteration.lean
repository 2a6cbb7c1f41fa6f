import HexGame.Board.Setup
import HexGame.Chain.Search
import HexGame.MonteCarlo.Statistic
import HexGame.Random

/-!
# One iteration

An iteration goes down the tree to a leaf, adds the leaf's children once it has been visited often
enough, plays a random game to its end and brings the score back up, negated at every level.
-/
namespace HexGame
namespace MonteCarlo

structure Config (V : Type) where
  /-- The weight of seldom visited children. -/
  exploration : V
  /-- The visits that a leaf needs before it gets children. -/
  expandThreshold : Nat
  /-- Early wins score more than late ones. -/
  lengthWeighted : Bool
  /-- The chains that end a game. -/
  terminal : Mode

variable {V G : Type} [MeanValue V] [ChoiceSource G]

def winScore (c : Config V) (b : Board) : V :=
  if c.lengthWeighted then
    MeanValue.half +
      MeanValue.half * MeanValue.ofNat b.stoneCounts.empty / MeanValue.ofNat (b.size * b.size)
  else MeanValue.ofNat 1

/-- Plays at most so many random moves. The score is that of the player who moved last on the first
board. -/
def playoutFrom (c : Config V) : Nat → Board → G → Except Fault (V × G)
  | plies, b, g =>
    if b.isDecided c.terminal then .ok (winScore c b, g)
    else
      match plies, b.legalMoves with
      | _, [] => .error (.deadEnd b)
      | 0, _ => .error (.deadEnd b)
      | plies + 1, mv :: moves =>
        let (i, g) := ChoiceSource.below (moves.length + 1) (Nat.succ_pos _) g
        match playoutFrom c plies (b.place ((mv :: moves)[i])) g with
        | .ok (score, g) => .ok (-score, g)
        | .error f => .error f

/-- Random moves until a chain ends the game; no game has more moves than empty cells. -/
def playout (c : Config V) (b : Board) (g : G) : Except Fault (V × G) :=
  playoutFrom c b.stoneCounts.empty b g

def childrenOf (b : Board) : List (SearchTree V) :=
  b.legalMoves.map fun mv => .leaf (.fresh (b.place mv))

/-- The children that a leaf gets: none as long as it has been visited too little, and none where the
game is over. -/
def expansion (c : Config V) (s : Statistic V) : List (SearchTree V) :=
  if s.visits < c.expandThreshold || s.board.isDecided c.terminal then []
  else childrenOf s.board

/-- Visits a leaf. Where it gets children, one of them is picked at random and visited with it. -/
def visitLeaf (c : Config V) (s : Statistic V) (g : G) :
    Except Fault (V × SearchTree V × G) := do
  match expansion c s with
  | [] =>
    let (score, g) ← playout c s.board g
    return (score, .leaf (← s.record score), g)
  | child :: children =>
    let (i, g) := ChoiceSource.below (children.length + 1) (Nat.succ_pos _) g
    let picked := (child :: children)[i]
    let (score, g) ← playout c picked.value.board g
    let picked := Tree.node (← picked.value.record score) picked.children
    let score := -score
    return (score, .node (← s.record score) ((child :: children).set i picked), g)

/-- Picks the child to go on with, by the visits of its parent. -/
abbrev Selection (V : Type) := Nat → List (SearchTree V) → Nat

mutual

/-- One visit of a tree. The score is that of the player who moved into its root. -/
def iterate (c : Config V) (select : Selection V) (g : G) :
    SearchTree V → Except Fault (V × SearchTree V × G)
  | .node s [] => visitLeaf c s g
  | .node s (child :: children) => do
    let (score, children, g) ←
      iterateAt c select g (select s.visits (child :: children)) (child :: children)
    let score := -score
    return (score, .node (← s.record score) children, g)

/-- One visit of the tree at a place of a list. -/
def iterateAt (c : Config V) (select : Selection V) (g : G) :
    Nat → List (SearchTree V) → Except Fault (V × List (SearchTree V) × G)
  | i, [] => .error (.overrun (.index 0 i))
  | 0, t :: ts => do
    let (score, t, g) ← iterate c select g t
    return (score, t :: ts, g)
  | i + 1, t :: ts => do
    let (score, ts, g) ← iterateAt c select g i ts
    return (score, t :: ts, g)

end

end MonteCarlo
end HexGame

import HexGame.Chain.Search
import HexGame.Negamax.Deadline
import HexGame.Negamax.Table
import HexGame.Sorting.Adaptive
import HexGame.Tree

/-!
# One round of the search

A round looks a fixed number of plies ahead. Values are those of the player to move; a position whose
last mover has completed a chain is lost, and where the plies run out the position is evaluated. The
window, the table and the order of the moves only save work.
-/
namespace HexGame

/-- Why a node of the search tree stopped where it did. -/
inductive Tag where
  | table
  | decided
  | depthLimit
  | pruned
  | searched
  deriving DecidableEq, Repr

def Tag.text : Tag → String
  | table => "TT"
  | decided => "G"
  | depthLimit => "D"
  | pruned => "P"
  | searched => ""

structure NodeLabel (V : Type) where
  lastMove : Option Move
  value : V
  tag : Tag

namespace Negamax

variable {V : Type} [GameValue V]

/-- What stays the same during a round. -/
structure Setting (V : Type) where
  /-- The value of a position at the depth limit for the player to move. -/
  evaluate : Board → Except Error V
  /-- The table of an earlier round, by which moves are ordered. -/
  previous : Option (Table V)
  deadline : Deadline
  wantTree : Bool

structure Progress (V : Type) where
  table : Table V
  nodes : Nat
  checks : Nat

structure Scored (V : Type) where
  value : V
  best : Option Move
  node : Option (Tree (NodeLabel V))

namespace Progress

def check (p : Progress V) (d : Deadline) : Except Interruption (Progress V) :=
  if d.expiredAfter p.checks then .error (.error .cancelled) else .ok { p with checks := p.checks + 1 }

def store (p : Progress V) (k : BoardKey) (value : V) (bound : Bound) : Progress V :=
  { p with table := p.table.insert k ⟨value, bound⟩ }

end Progress

/-- A position that is not searched further. -/
def Setting.leaf (s : Setting V) (b : Board) (value : V) (tag : Tag) : Scored V where
  value := value
  best := none
  node := if s.wantTree then some (.leaf ⟨b.lastMove, value, tag⟩) else none

/-- The value for the opponent that a move had in an earlier round. -/
def earlierValue (table : Table V) (b : Board) (mv : Move) : V :=
  match table[(b.place mv).key]? with
  | some entry => entry.value
  | none => GameValue.even

/-- The legal moves, those first after which the opponent was worst off in the earlier round. -/
def Setting.orderedMoves (s : Setting V) (b : Board) : Except Interruption (List Move) :=
  match s.previous with
  | none => .ok b.legalMoves
  | some table =>
    let valued := b.legalMoves.map fun mv => (earlierValue table b mv, mv)
    match Sorting.sort? (fun x y => GameValue.lt x.1 y.1) valued with
    | some sorted => .ok (sorted.map (·.2))
    | none => .error (.fault .noOrder)

/-- A position on entry: it has its value at once, or it is searched with a window. -/
inductive Entry (V : Type) where
  | closed (result : Scored V) (p : Progress V)
  | opened (alpha beta : V) (p : Progress V)

/-- Counts the node, asks the table and looks for a finished game, in this order. -/
def enter (s : Setting V) (b : Board) (alpha beta : V) (p : Progress V) :
    Except Interruption (Entry V) := do
  let p ← p.check s.deadline
  let p := { p with nodes := p.nodes + 1 }
  match p.table.probe b.key alpha beta with
  | .answer value => return .closed (s.leaf b value .table) p
  | .window alpha beta =>
    if b.isDecided .strict then
      return .closed (s.leaf b GameValue.lost .decided) (p.store b.key GameValue.lost .exact)
    else return .opened alpha beta p

/-- The moves of a position tried so far. -/
structure Scan (V : Type) where
  alpha : V
  best : Option (Move × V)
  /-- The trees of the moves, the latest first. -/
  children : List (Tree (NodeLabel V))
  cut : Bool

namespace Scan

/-- The value of the best move; without a move the game is lost. -/
def value (c : Scan V) : V :=
  match c.best with
  | some (_, value) => value
  | none => GameValue.lost

/-- Takes note of a move and its value. Of equal moves the first one stays the best. -/
def add (c : Scan V) (mv : Move) (value : V) (node : Option (Tree (NodeLabel V))) : Scan V :=
  { c with
    best := match c.best with
      | none => some (mv, value)
      | some (best, bestValue) =>
        if GameValue.lt bestValue value then some (mv, value) else some (best, bestValue)
    children := node.toList ++ c.children }

/-- How the value relates to the true one, for a window that began at `alpha`. -/
def bound (c : Scan V) (alpha beta : V) : Bound :=
  if GameValue.le c.value alpha then .upper
  else if GameValue.le beta c.value then .lower
  else .exact

end Scan

/-- Tries the moves in order until one of them closes the window. -/
def explore
    (recurse : Board → V → V → Progress V → Except Interruption (Scored V × Progress V))
    (s : Setting V) (b : Board) (beta : V) :
    List Move → Scan V → Progress V → Except Interruption (Scan V × Progress V)
  | [], c, p => .ok (c, p)
  | mv :: moves, c, p => do
    let p ← p.check s.deadline
    let (child, p) ← recurse (b.place mv) (-beta) (-c.alpha) p
    let c := c.add mv (-child.value) child.node
    if GameValue.lt c.alpha c.value then
      let c := { c with alpha := c.value }
      if GameValue.le beta c.alpha then return ({ c with cut := true }, p)
      else explore recurse s b beta moves c p
    else explore recurse s b beta moves c p

def visit (s : Setting V) :
    Nat → Board → V → V → Progress V → Except Interruption (Scored V × Progress V)
  | 0, b, alpha, beta, p => do
    match ← enter s b alpha beta p with
    | .closed result p => return (result, p)
    | .opened _ _ p =>
      let value ← (s.evaluate b).mapError .error
      return (s.leaf b value .depthLimit, p.store b.key value .exact)
  | plies + 1, b, alpha, beta, p => do
    match ← enter s b alpha beta p with
    | .closed result p => return (result, p)
    | .opened alpha beta p =>
      let moves ← s.orderedMoves b
      let (c, p) ← explore (visit s plies) s b beta moves ⟨alpha, none, [], false⟩ p
      let tag := if c.cut then Tag.pruned else .searched
      let node :=
        if s.wantTree then some (.node ⟨b.lastMove, c.value, tag⟩ c.children.reverse) else none
      return (⟨c.value, c.best.map (·.1), node⟩, p.store b.key c.value (c.bound alpha beta))

structure Round (V : Type) where
  value : V
  best : Option Move
  nodes : Nat
  checks : Nat
  table : Table V
  tree : Option (Tree (NodeLabel V))

/-- A round to the given depth, with an empty table and the widest window. -/
def round (s : Setting V) (b : Board) (depth checks : Nat) : Except Interruption (Round V) := do
  let (result, p) ← visit s depth b GameValue.lost GameValue.won ⟨∅, 0, checks⟩
  return ⟨result.value, result.best, p.nodes, p.checks, p.table, result.node⟩

end Negamax
end HexGame

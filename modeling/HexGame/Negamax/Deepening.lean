import HexGame.Negamax.Round

/-!
# Deepening

Rounds deepen by two plies until they cover every empty cell, the game is decided or the deadline
expires. A round that is interrupted leaves no trace in the outcome.
-/
namespace HexGame
namespace Negamax

variable {V : Type} [GameValue V]

/-- The result of the deepest round that was completed; the nodes are those of all of them. -/
structure Outcome (V : Type) where
  best : Option Move
  value : V
  depth : Nat
  nodes : Nat
  tree : Option (Tree (NodeLabel V))

def Outcome.initial : Outcome V := ⟨none, GameValue.even, 0, 0, none⟩

/-- The depths of the rounds on a board with so many empty cells. -/
def schedule (empty : Nat) : List Nat :=
  (List.range (max 1 ((empty + 1) / 2))).map fun k => min (2 * (k + 1)) empty

/-- Runs the rounds in turn. A round without a best move ends the search, and so does a decisive
value, which no deeper round could change. -/
def deepen (s : Setting V) (b : Board) :
    List Nat → Nat → Outcome V → Except Interruption (Outcome V)
  | [], _, outcome => .ok outcome
  | depth :: depths, checks, outcome =>
    match round s b depth checks with
    | .error (.error .cancelled) => .ok outcome
    | .error e => .error e
    | .ok r =>
      let nodes := outcome.nodes + r.nodes
      match r.best with
      | none => .ok { outcome with nodes }
      | some mv =>
        let outcome := ⟨some mv, r.value, depth, nodes, r.tree⟩
        if GameValue.isDecisive r.value then .ok outcome
        else deepen { s with previous := some r.table } b depths r.checks outcome

def search (evaluate : Board → Except Error V) (b : Board) (deadline : Deadline)
    (wantTree : Bool) : Except Interruption (Outcome V) :=
  deepen ⟨evaluate, none, deadline, wantTree⟩ b (schedule b.stoneCounts.empty) 0 .initial

/-- A single round without a deadline, ordered by the table of an earlier one. -/
def searchDepth (evaluate : Board → Except Error V) (b : Board) (depth : Nat)
    (previous : Option (Table V)) : Except Interruption (Round V) :=
  round ⟨evaluate, previous, .never, false⟩ b depth 0

end Negamax
end HexGame

import HexGame.Chain.Search
import HexGame.Grid.Narrow

/-!
# Keeping a chain

A virtual chain is completed by answering in the bridge that the opponent enters, and by filling a
bridge when there is nothing to answer.
-/
namespace HexGame

/-- The carriers of all bridges on a chain: those between cells that are not adjacent, in order, and
last the one to the near edge. -/
def safeCells (path : List Cell) (color : Color) : List Carriers :=
  let inner := (path.zip path.tail).filterMap fun (a, b) =>
    if a.isAdjacent b then none else a.bridgeCarriers b
  let edge := match path.getLast? with
    | none => []
    | some c => if 0 < color.depth c then [color.edgeCarriers c] else []
  inner ++ edge

/-- A chain to be kept: its colour and the bridges that are still open. -/
structure Defense where
  color : Option Color
  bridges : List Carriers
  deriving DecidableEq, Repr

namespace Defense

def idle : Defense := ⟨none, []⟩

def find (b : Board) (color : Color) : Option Defense :=
  (b.findChain color .virtual).map fun path => ⟨some color, safeCells path color⟩

/-- Takes the first bridge with a stone on a carrier, and gives the carrier left to answer on. -/
def takeAnswer (hit : Cell) : List Carriers → Option (Cell × List Carriers)
  | [] => none
  | p :: ps =>
    match p.answerTo hit with
    | some c => some (c, ps)
    | none => (takeAnswer hit ps).map fun (c, rest) => (c, p :: rest)

/-- The next move of the chain: the answer to an intrusion, or else the first carrier of the first
open bridge. There is none when every bridge is closed. -/
def respond (s : Defense) (last : Option Move) : Option Move × Defense :=
  match s.color with
  | none => (none, s)
  | some color =>
    match last.bind fun mv => takeAnswer mv.cell.wrapped s.bridges with
    | some (c, rest) => (some ⟨c, color⟩, { s with bridges := rest })
    | none =>
      match s.bridges with
      | [] => (none, s)
      | p :: rest => (some ⟨p.first, color⟩, { s with bridges := rest })

end Defense

/-- A move for a side that is lost: a carrier of the opponent's virtual chain. -/
def Board.desperateMove (b : Board) (color : Color) : Option Move := do
  let path ← b.findChain color.opponent .virtual
  let c ← ((safeCells path color.opponent).flatMap Carriers.cells).find? b.isEmptyAt
  return ⟨c, color⟩

end HexGame

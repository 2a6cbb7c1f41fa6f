import HexGame.Chain.Defense
import HexGame.Grid.Narrow

/-!
# The bridges of any path

`safeCells` for paths whose cells come from outside, in the arithmetic of `Narrow`.
-/
namespace HexGame
namespace Narrow

/-- The carriers of a bridge; none between adjacent cells and between cells that no bridge joins. -/
def openCarriers (a b : Cell) : Except Fault (Option Carriers) := do
  if ← isAdjacent a b then return none else bridgeCarriers a b

def innerCarriers : List Cell → Except Fault (List Carriers)
  | a :: b :: path => do
    let p ← openCarriers a b
    return p.toList ++ (← innerCarriers (b :: path))
  | _ => return []

def edgeCarriers (color : Color) (c : Cell) : Except Fault Carriers := do
  let along ← fit .addition (color.along c + 1)
  let depth ← fit .subtraction (color.depth c - 1)
  return ⟨color.cellAt (color.along c) depth, color.cellAt along depth⟩

/-- The carriers of all bridges on the path, last the one to the near edge. -/
def safeCells (path : List Cell) (color : Color) : Except Fault (List Carriers) := do
  let inner ← innerCarriers path
  match path.getLast? with
  | none => return inner
  | some c => if 0 < color.depth c then return inner ++ [← edgeCarriers color c] else return inner

end Narrow
end HexGame

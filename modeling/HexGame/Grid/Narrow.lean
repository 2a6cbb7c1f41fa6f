import HexGame.Error

/-!
# Cells in 32-bit words

Cells that come from outside are stored in signed 32-bit words. Here the geometry of the grid is
computed as such words compute it: a result that leaves the range is a fault, and a coordinate that is
too large is cut down to its low 32 bits. On cells of a board nothing of this happens, and the functions
of `Cell` apply.
-/
namespace HexGame

/-- Keeps the low 32 bits of both coordinates. -/
def Cell.wrapped (c : Cell) : Cell := ⟨c.x.bmod UInt32.size, c.y.bmod UInt32.size⟩

namespace Narrow

/-- The result of an operation, if it fits into a word. -/
def fit (bound : Overrun) (n : Int) : Except Fault Int :=
  if -2147483648 ≤ n ∧ n < 2147483648 then .ok n else .error (.overrun bound)

def step (c : Cell) (d : Direction) : Except Fault Cell := do
  return ⟨← fit .addition (c.x + d.offset.1), ← fit .addition (c.y + d.offset.2)⟩

def carriers (c : Cell) (d : Direction) : Except Fault Carriers := do
  return ⟨← step c d.before, ← step c d⟩

/-- Tries the directions in turn, up to the one that leads to `b`. -/
def isAdjacentBy (a b : Cell) : List Direction → Except Fault Bool
  | [] => .ok false
  | d :: ds => do if (← step a d) = b then return true else isAdjacentBy a b ds

def isAdjacent (a b : Cell) : Except Fault Bool := isAdjacentBy a b Direction.all

def bridgeCarriers (a b : Cell) : Except Fault (Option Carriers) := do
  let offset := (← fit .subtraction (b.x - a.x), ← fit .subtraction (b.y - a.y))
  match Direction.all.find? (·.leapOffset = offset) with
  | none => return none
  | some d => return some (← carriers a d)

def magnitude (n : Int) : Except Fault Int := fit .negation n.natAbs

def distance (a b : Cell) : Except Fault Nat := do
  let dx ← magnitude (← fit .subtraction (a.x - b.x))
  let sum ← fit .addition (a.x + a.y)
  let dz ← magnitude (← fit .subtraction ((← fit .subtraction (sum - b.x)) - b.y))
  let part ← fit .addition (dx + dz)
  let dy ← magnitude (← fit .subtraction (a.y - b.y))
  let total ← fit .addition (part + dy)
  return total.toNat / 2

end Narrow
end HexGame

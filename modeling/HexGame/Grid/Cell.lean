import HexGame.Color

/-!
# The skewed grid

Cells carry signed coordinates, so that a chain can be followed one step past an edge.
-/
namespace HexGame

@[ext]
structure Cell where
  x : Int
  y : Int
  deriving DecidableEq, Hashable, Repr

/-- The six ways to leave a cell, in the order of the clock. -/
inductive Direction where
  | north
  | northEast
  | east
  | south
  | southWest
  | west
  deriving DecidableEq, Repr

namespace Direction

def all : List Direction := [north, northEast, east, south, southWest, west]

def offset : Direction → Int × Int
  | north => (0, -1)
  | northEast => (1, -1)
  | east => (1, 0)
  | south => (0, 1)
  | southWest => (-1, 1)
  | west => (-1, 0)

def before : Direction → Direction
  | north => west
  | northEast => north
  | east => northEast
  | south => east
  | southWest => south
  | west => southWest

def opposite : Direction → Direction
  | north => south
  | northEast => southWest
  | east => west
  | south => north
  | southWest => northEast
  | west => east

/-- A bridge jumps over the seam between this direction and the one before it. -/
def leapOffset : Direction → Int × Int
  | north => (-1, -1)
  | northEast => (1, -2)
  | east => (2, -1)
  | south => (1, 1)
  | southWest => (-1, 2)
  | west => (-2, 1)

theorem leapOffset_eq (d : Direction) :
    d.leapOffset = (d.before.offset.1 + d.offset.1, d.before.offset.2 + d.offset.2) := by
  cases d <;> rfl

@[simp] theorem mem_all (d : Direction) : d ∈ all := by cases d <;> decide

end Direction

/-- The two cells between the ends of a bridge. -/
structure Carriers where
  first : Cell
  second : Cell
  deriving DecidableEq, Repr

namespace Carriers

def cells (p : Carriers) : List Cell := [p.first, p.second]

/-- Two bridges overlap when one stone would cut both. -/
def overlaps (p q : Carriers) : Bool := p.cells.any (q.cells.contains ·)

/-- The carrier that answers a stone on `c`, and none when `c` is no carrier. -/
def answerTo (p : Carriers) (c : Cell) : Option Cell :=
  if p.first = c then some p.second else if p.second = c then some p.first else none

end Carriers

namespace Cell

def step (c : Cell) (d : Direction) : Cell := ⟨c.x + d.offset.1, c.y + d.offset.2⟩

/-- The far end of the bridge in direction `d`. -/
def leap (c : Cell) (d : Direction) : Cell := ⟨c.x + d.leapOffset.1, c.y + d.leapOffset.2⟩

def carriers (c : Cell) (d : Direction) : Carriers := ⟨c.step d.before, c.step d⟩

def isAdjacent (a b : Cell) : Bool := Direction.all.any (a.step · = b)

/-- The carriers of the bridge from `a` to `b`, and none when the cells form no bridge. -/
def bridgeCarriers (a b : Cell) : Option Carriers :=
  (Direction.all.find? (a.leap · = b)).map a.carriers

def distance (a b : Cell) : Nat :=
  ((a.x - b.x).natAbs + (a.x + a.y - b.x - b.y).natAbs + (a.y - b.y).natAbs) / 2

theorem step_step_before (c : Cell) (d : Direction) : (c.step d.before).step d = c.leap d := by
  simp [step, leap, Direction.leapOffset_eq, Int.add_assoc]

@[simp] theorem step_opposite (c : Cell) (d : Direction) : (c.step d).step d.opposite = c := by
  ext <;> cases d <;> simp only [step, Direction.offset, Direction.opposite] <;> omega

end Cell
end HexGame

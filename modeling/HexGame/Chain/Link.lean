import HexGame.Board.Basic

/-!
# Links of a chain

A chain of one colour runs from its near edge to its far edge. It is built of links: the first link
enters the board, the others lead from stone to stone, and a bridge may leave the board past the far
edge. A bridge is a link only while both of its carriers are empty.
-/
namespace HexGame

/-- Which links a chain may use. A strict chain is complete; a virtual one can be completed. -/
inductive Mode where
  | strict
  | virtual
  deriving DecidableEq, Repr

namespace Color

/-- Rows below the near edge for red, columns beyond it for blue. -/
def depth : Color → Cell → Int
  | red, c => c.y
  | blue, c => c.x

def along : Color → Cell → Int
  | red, c => c.x
  | blue, c => c.y

def cellAt : Color → Int → Int → Cell
  | red, along, depth => ⟨along, depth⟩
  | blue, along, depth => ⟨depth, along⟩

def remaining (color : Color) (size : Nat) (c : Cell) : Int := size - 1 - color.depth c

/-- Past the far edge, where only a bridge can lead. -/
def isPastFarEdge (color : Color) (size : Nat) (c : Cell) : Bool :=
  size ≤ color.depth c && 0 ≤ color.along c

/-- The two neighbours of a cell that lie one row nearer to the near edge. From the second row they
carry the bridge to that edge. -/
def edgeCarriers (color : Color) (c : Cell) : Carriers :=
  ⟨color.cellAt (color.along c) (color.depth c - 1),
    color.cellAt (color.along c + 1) (color.depth c - 1)⟩

end Color

/-- A cell that a chain can go on to, with the carriers of the bridge that leads there. -/
structure Link where
  target : Cell
  via : Option Carriers
  deriving DecidableEq, Repr

namespace Board

def owns (b : Board) (color : Color) (c : Cell) : Bool := b.colorAt c = some color

def isOpen (b : Board) (p : Carriers) : Bool := b.isEmptyAt p.first && b.isEmptyAt p.second

/-- The ways onto the board: stones on the near edge and, in virtual mode, stones one row away from
it whose two edge cells are empty. -/
def entryLinks (b : Board) (color : Color) (mode : Mode) : List Link :=
  let edge := (List.range b.size).filterMap fun (a : Nat) =>
    let c := color.cellAt a 0
    if b.owns color c then some ⟨c, none⟩ else none
  match mode with
  | .strict => edge
  | .virtual => edge ++ (List.range (b.size - 1)).filterMap fun (a : Nat) =>
    let c := color.cellAt a 1
    let p := color.edgeCarriers c
    if b.owns color c && b.isOpen p then some ⟨c, some p⟩ else none

/-- The ways on from a stone: to the own stones beside it and, in virtual mode, over the open bridges
that do not overlap the one the stone was reached by. -/
def onwardLinks (b : Board) (color : Color) (mode : Mode) (c : Cell) (entry : Option Carriers) :
    List Link :=
  let beside := Direction.all.filterMap fun d =>
    if b.owns color (c.step d) then some ⟨c.step d, none⟩ else none
  match mode with
  | .strict => beside
  | .virtual => beside ++ Direction.all.filterMap fun d =>
    let p := c.carriers d
    let target := c.leap d
    if b.isOpen p && !entry.any p.overlaps &&
        (color.isPastFarEdge b.size target || b.owns color target)
    then some ⟨target, some p⟩ else none

end Board
end HexGame

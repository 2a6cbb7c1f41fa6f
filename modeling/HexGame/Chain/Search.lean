import HexGame.Chain.Frontier
import HexGame.Chain.Link
import HexGame.Grid.CellSet

/-!
# Searching for a chain

A best-first search over the cells of one colour. Every trail is ranked by its length and the rows
still to go, and among equals the older trail comes first, so the chain that is found is determined.
`ChainSearch.step` handles one trail; a cell is extended once, so that the trails are bounded by the
cells of the board and `ChainSearch.bound` steps suffice.
-/
namespace HexGame

/-- The cells followed so far, newest first, and the carriers of the bridge to the newest. The empty
trail stands in front of the near edge. -/
structure Trail where
  path : List Cell
  entry : Option Carriers

structure ChainSearch where
  frontier : Frontier Trail
  visited : CellSet
  serial : Nat

inductive ChainSearch.Progress where
  | searching (s : ChainSearch)
  | found (path : List Cell)
  | exhausted

namespace ChainSearch

def start (size : Nat) : ChainSearch where
  frontier := Frontier.empty.insert ⟨size, 0⟩ ⟨[], none⟩
  visited := .empty size
  serial := 1

def links (b : Board) (color : Color) (mode : Mode) (t : Trail) : List Link :=
  match t.path with
  | [] => b.entryLinks color mode
  | c :: _ => b.onwardLinks color mode c t.entry

/-- Queues the trail over a link, unless the cell has been extended already. -/
def push (color : Color) (size : Nat) (t : Trail) (cost : Nat) (s : ChainSearch) (l : Link) : ChainSearch :=
  if s.visited.contains l.target then s
  else
    { s with
      frontier := s.frontier.insert ⟨cost + color.remaining size l.target, s.serial⟩
        ⟨l.target :: t.path, l.via⟩
      serial := s.serial + 1 }

def extend (b : Board) (color : Color) (mode : Mode) (s : ChainSearch) (t : Trail) : ChainSearch :=
  (links b color mode t).foldl (push color b.size t (t.path.length + 1)) s

/-- Takes the first trail of the frontier. The far edge is looked for before the cell is. -/
def step (b : Board) (color : Color) (mode : Mode) (s : ChainSearch) : Progress :=
  match s.frontier.popMin? with
  | none => .exhausted
  | some ((_, t), rest) =>
    match t.path with
    | [] => .searching (extend b color mode { s with frontier := rest } t)
    | c :: _ =>
      if color.remaining b.size c ≤ 0 then .found t.path
      else if s.visited.contains c then .searching { s with frontier := rest }
      else .searching
        (extend b color mode { s with frontier := rest, visited := s.visited.insert c } t)

def run (b : Board) (color : Color) (mode : Mode) : Nat → ChainSearch → Option (List Cell)
  | 0, _ => none
  | n + 1, s =>
    match step b color mode s with
    | .searching s => run b color mode n s
    | .found path => some path
    | .exhausted => none

/-- At most two trails enter at each place of the edge and twelve leave each cell. -/
def bound (size : Nat) : Nat := 12 * (size * size) + 2 * size + 2

end ChainSearch

namespace Board

/-- The chain of `color` that the search finds, from the far edge back to the near edge. -/
def findChain (b : Board) (color : Color) (mode : Mode) : Option (List Cell) :=
  ChainSearch.run b color mode (ChainSearch.bound b.size) (ChainSearch.start b.size)

def isConnected (b : Board) (color : Color) (mode : Mode) : Bool := (b.findChain color mode).isSome

/-- The player who moved last has completed a chain or, in virtual mode, secured one. -/
def isDecided (b : Board) (mode : Mode) : Bool := b.isConnected b.lastMover mode

def winner (b : Board) : Option Color := [Color.red, Color.blue].find? (b.isConnected · .strict)

/-- The empty cells beside a stone, and those that an open bridge leads to. -/
def reachedFrom (b : Board) (c : Cell) : List Cell :=
  (Direction.all.filter fun d => b.isEmptyAt (c.step d)).map c.step ++
    (Direction.all.filter fun d => b.isEmptyAt (c.leap d) && b.isOpen (c.carriers d)).map c.leap

/-- Every stone of the colour marks what it reaches. -/
def reached (b : Board) (color : Color) : CellSet :=
  (b.cells.filter (b.owns color)).foldl (fun marked c => (b.reachedFrom c).foldl CellSet.insert marked)
    (.empty b.size)

def reachableCells (b : Board) (color : Color) : Nat := (b.reached color).card

end Board
end HexGame

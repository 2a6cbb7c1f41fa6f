import HexGame.Error
import HexGame.Pattern.Template

/-!
# Counting patterns

Every place of a square grid where a variant lies gives one box, owned by one of the sides. Each box is
counted for its pattern and marks the rows and columns below it as occupied by its owner, unless its
variant is excluded. What is counted in the end are the boxes of each pattern and the marks.
-/
namespace HexGame

structure Box where
  owner : Color
  x : Nat
  y : Nat
  width : Nat
  height : Nat
  excluded : Bool
  deriving DecidableEq, Repr

/-- The matches of a variant on a grid with as many columns as rows, from the top left corner on. -/
def Variant.boxes (v : Variant) (rows : List Row) : List Box :=
  let width := v.width
  let height := v.height
  if rows.length < width ∨ rows.length < height then []
  else (List.range (rows.length - height + 1)).flatMap fun y =>
    let below := rows.drop y
    (List.range (rows.length - width + 1)).filterMap fun x =>
      (v.ownerAt below x).map fun owner => ⟨owner, x, y, width, height, v.excluded⟩

/-- The grid is so wide that the variant would be looked for beyond the last cell of a packed row. -/
def Variant.runsOver (v : Variant) (size : Nat) : Bool :=
  v.height ≤ size && v.width + maxSize ≤ size

/-- Per side, the matches of each pattern and at the end the occupied rows and columns. -/
structure PatternCounts where
  red : List Nat
  blue : List Nat
  deriving DecidableEq, Repr

namespace PatternCounts

def forColor (n : PatternCounts) : Color → List Nat
  | .red => n.red
  | .blue => n.blue

def patterns (n : PatternCounts) (color : Color) : List Nat :=
  (n.forColor color).take ((n.forColor color).length - 2)

def fromEnd (counts : List Nat) (i : Nat) : Except Fault Nat :=
  if counts.length < i then .error (.overrun .subtraction)
  else
    match counts[counts.length - i]? with
    | some n => .ok n
    | none => .error (.overrun (.index counts.length (counts.length - i)))

def occupiedRows (n : PatternCounts) (color : Color) : Except Fault Nat :=
  fromEnd (n.forColor color) 2

def occupiedColumns (n : PatternCounts) (color : Color) : Except Fault Nat :=
  fromEnd (n.forColor color) 1

private def listText (counts : List Nat) : String :=
  "[" ++ String.intercalate ", " (counts.map toString) ++ "]"

def text (n : PatternCounts) : String := s!"red:  {listText n.red}\nblue: {listText n.blue}"

end PatternCounts

/-- The largest number there is a place for. -/
def Catalogue.maxCount : Nat := UInt32.size - 1

/-- What one side has so far: the matches of each pattern, and the rows and columns marked. -/
structure Marks where
  counts : List Nat
  rows : List Bool
  columns : List Bool
  deriving DecidableEq, Repr

namespace Marks

def blank (patterns size : Nat) : Marks :=
  ⟨List.replicate patterns 0, List.replicate size false, List.replicate size false⟩

/-- Marks `length` lines from line `start` on. -/
def fill (lines : List Bool) (start length : Nat) : List Bool :=
  lines.mapIdx fun i marked => marked || (start ≤ i && i < start + length)

/-- One more match of pattern `i`. -/
def add (m : Marks) (i : Nat) (b : Box) : Except Fault Marks :=
  let count := m.counts.getD i 0
  if count < Catalogue.maxCount then
    let m := { m with counts := m.counts.set i (count + 1) }
    if b.excluded then .ok m
    else .ok { m with rows := fill m.rows b.y b.height, columns := fill m.columns b.x b.width }
  else .error (.overrun .addition)

def marked (lines : List Bool) : Nat := lines.count true % UInt32.size

def totals (m : Marks) : List Nat := m.counts ++ [marked m.rows, marked m.columns]

end Marks

structure Tally where
  red : Marks
  blue : Marks
  deriving DecidableEq, Repr

namespace Tally

def blank (patterns size : Nat) : Tally := ⟨.blank patterns size, .blank patterns size⟩

def add (i : Nat) (t : Tally) (b : Box) : Except Fault Tally :=
  match b.owner with
  | .red => do return { t with red := ← t.red.add i b }
  | .blue => do return { t with blue := ← t.blue.add i b }

def addVariant (rows : List Row) (i : Nat) (t : Tally) (v : Variant) : Except Fault Tally :=
  if v.runsOver rows.length then .error (.overrun .shiftRight)
  else (v.boxes rows).foldlM (add i) t

def addPattern (rows : List Row) (t : Tally) (selected : Nat × Pattern) : Except Fault Tally :=
  selected.2.variants.foldlM (addVariant rows selected.1) t

def counts (t : Tally) : PatternCounts := ⟨t.red.totals, t.blue.totals⟩

end Tally

namespace Catalogue

/-- The patterns to look for, by their indices; indices beyond the catalogue select nothing. -/
def selection (c : Catalogue) (subset : Option (List Nat)) : List (Nat × Pattern) :=
  (subset.getD (List.range c.size)).filterMap fun i => c.patterns[i]?.map fun p => (i, p)

/-- Counts the matches on a grid of packed rows. -/
def count (c : Catalogue) (rows : List Row) (subset : Option (List Nat)) :
    Except Fault PatternCounts := do
  let t ← (c.selection subset).foldlM (Tally.addPattern rows) (.blank c.size rows.length)
  return t.counts

end Catalogue
end HexGame

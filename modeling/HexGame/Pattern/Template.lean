import HexGame.Board.Row
import HexGame.Text.Lines

/-!
# Templates

A template is a small block of cell codes, written for the side that owns it. Each of its lines is packed
into a mask and the two values that a masked row must have when the owner is red or blue, so that a
line is compared with a row in one step. `PackedLine.codeAt` reads a packed line back.
-/
namespace HexGame

inductive CellCode where
  | empty
  | own
  | opponent
  | any
  deriving DecidableEq, Repr

namespace CellCode

def ofWord? : List Char → Option CellCode
  | ['.'] => some empty
  | ['*'] => some own
  | ['/'] => some opponent
  | ['?'] => some any
  | _ => none

/-- The packed value of a cell that meets the code when `owner` owns the template. -/
def valueFor (owner : Color) : CellCode → UInt64
  | own => owner.code
  | opponent => owner.opponent.code
  | empty => 0
  | any => 0

end CellCode

structure PackedLine where
  width : Nat
  mask : UInt64
  red : UInt64
  blue : UInt64
  deriving DecidableEq, Repr

namespace PackedLine

/-- Packs the codes of a line from place `x` on. -/
def packFrom (x : Nat) : List CellCode → PackedLine
  | [] => ⟨x, 0, 0, 0⟩
  | code :: codes =>
    let rest := packFrom (x + 1) codes
    match code with
    | .any => rest
    | _ =>
      let shift := (2 * x).toUInt64
      { rest with
        mask := rest.mask ||| (3 <<< shift)
        red := rest.red ||| (code.valueFor .red <<< shift)
        blue := rest.blue ||| (code.valueFor .blue <<< shift) }

def pack (codes : List CellCode) : PackedLine := packFrom 0 codes

def valueFor (l : PackedLine) : Color → UInt64
  | .red => l.red
  | .blue => l.blue

def codeAt (l : PackedLine) (x : Nat) : CellCode :=
  if Row.code l.mask x = 0 then .any
  else if Row.code l.red x = Color.red.code then .own
  else if Row.code l.red x = Color.blue.code then .opponent
  else .empty

/-- The row meets the line at column `x` when `owner` owns the template. -/
def fits (l : PackedLine) (owner : Color) (row : Row) (x : Nat) : Bool :=
  (row >>> (2 * x).toUInt64) &&& l.mask == l.valueFor owner

end PackedLine

/-- One orientation of a pattern. An excluded variant occupies no rows and columns. -/
structure Variant where
  lines : List PackedLine
  excluded : Bool
  deriving DecidableEq, Repr

namespace Variant

def height (v : Variant) : Nat := v.lines.length

def width (v : Variant) : Nat := v.lines.foldl (fun w l => max w l.width) 0

/-- The variant owned by `owner` lies on the rows with its first cell at column `x`. -/
def fitsRows (owner : Color) (x : Nat) : List PackedLine → List Row → Bool
  | [], _ => true
  | _ :: _, [] => false
  | l :: ls, r :: rs => l.fits owner r x && fitsRows owner x ls rs

/-- The side whose template starts at column `x` of the rows. Red is tried first. -/
def ownerAt (v : Variant) (rows : List Row) (x : Nat) : Option Color :=
  if fitsRows .red x v.lines rows then some .red
  else if fitsRows .blue x v.lines rows then some .blue
  else none

end Variant

structure Pattern where
  name : String
  variants : List Variant
  deriving DecidableEq, Repr

/-- The patterns of a catalogue, in the order of its text. -/
structure Catalogue where
  patterns : List Pattern
  deriving DecidableEq, Repr

namespace Catalogue

def size (c : Catalogue) : Nat := c.patterns.length

end Catalogue
end HexGame

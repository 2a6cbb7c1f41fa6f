import HexGame.Error
import HexGame.Pattern.Template

/-!
# Reading catalogues

A catalogue is read line by line. Each line has a meaning of its own (`CatalogueLine`); whether it may
stand where it does depends on what came before (`Draft.add`). The first line that breaks a rule is
reported, and only a text without such a line is searched for variants without cells.
-/
namespace HexGame

/-- What a line can add to the pattern that is open. -/
inductive PatternPart where
  | variant
  | exclude
  | cells (words : List (List Char))
  deriving DecidableEq, Repr

inductive CatalogueLine where
  | header (name : String)
  | remark
  | part (part : PatternPart)
  deriving DecidableEq, Repr

def CatalogueLine.ofText (line : List Char) : CatalogueLine :=
  match Text.trim line with
  | '#' :: '#' :: '#' :: name => .header (String.ofList (Text.trim name))
  | [] => .remark
  | '#' :: _ => .remark
  | ['-', '-', '-'] => .part .variant
  | ['e', 'x', 'c', 'l', 'u', 'd', 'e'] => .part .exclude
  | text => .part (.cells (Text.words text))

/-- The codes of a cell line. An unknown code is reported before the width of the line. -/
def readCells (words : List (List Char)) : Except CatalogueFlaw (List CellCode) :=
  match words.mapM CellCode.ofWord? with
  | none => .error .unknownCode
  | some codes => if maxSize < codes.length then .error .lineTooWide else .ok codes

/-- The patterns read so far, the latest first, each with its latest variant and latest line first. -/
structure Draft where
  patterns : List Pattern
  excluding : Bool

namespace Draft

def empty : Draft := ⟨[], false⟩

/-- Marks the variant that is open and has no cells yet. -/
def excludeOpen : List Variant → List Variant
  | [] => []
  | v :: vs => (if v.lines.isEmpty then { v with excluded := true } else v) :: vs

def addPart (d : Draft) (p : Pattern) (ps : List Pattern) :
    PatternPart → Except CatalogueFlaw Draft
  | .variant => .ok { d with patterns := ⟨p.name, ⟨[], d.excluding⟩ :: p.variants⟩ :: ps }
  | .exclude => .ok ⟨⟨p.name, excludeOpen p.variants⟩ :: ps, true⟩
  | .cells words =>
    match p.variants with
    | [] => .error .cellsBeforeVariant
    | v :: vs => do
      let line := PackedLine.pack (← readCells words)
      return { d with patterns := ⟨p.name, { v with lines := line :: v.lines } :: vs⟩ :: ps }

def add (d : Draft) : CatalogueLine → Except CatalogueFlaw Draft
  | .header name => .ok ⟨⟨name, []⟩ :: d.patterns, false⟩
  | .remark => .ok d
  | .part part =>
    match d.patterns with
    | [] => .error .contentBeforeHeader
    | p :: ps => d.addPart p ps part

/-- Takes the lines in order; a flaw is reported with the number of its line. -/
def addAll (d : Draft) (number : Nat) : List (List Char) → Except Error Draft
  | [] => .ok d
  | line :: lines =>
    match d.add (.ofText line) with
    | .ok d => d.addAll (number + 1) lines
    | .error flaw => .error (.catalogueSyntax number flaw)

/-- Brings patterns, variants and lines into the order of the text. -/
def finish (d : Draft) : List Pattern :=
  (d.patterns.map fun p =>
    ⟨p.name, (p.variants.map fun v => { v with lines := v.lines.reverse }).reverse⟩).reverse

end Draft

namespace Catalogue

def parse (text : String) : Except Error Catalogue := do
  let lines := Text.lines text.toList
  let patterns := (← Draft.empty.addAll 1 lines).finish
  match patterns.find? (·.variants.any (·.lines.isEmpty)) with
  | some p => .error (.catalogueSyntax lines.length (.emptyVariant p.name))
  | none => .ok ⟨patterns⟩

/-- The catalogue in a file. `read` stands for the files there are. -/
def load (read : String → Except ReadFailure String) (path : String) : Except Error Catalogue :=
  match read path with
  | .ok text => parse text
  | .error cause => .error (.catalogueIo path cause)

end Catalogue
end HexGame

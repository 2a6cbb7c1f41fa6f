import HexGame.Board.Text

/-!
# What can go wrong

An `Error` is an answer to a bad input. A `Fault` ends the computation that meets it: a rule of the
game, a bound of the arithmetic or an order of values that the caller had to keep. Both are values, and
each has one text.
-/
namespace HexGame

inductive ReadFailure where
  | notFound
  | isDirectory
  | notDirectory
  | notText
  | other (text : String)
  deriving DecidableEq, Repr

def ReadFailure.message : ReadFailure → String
  | notFound => "No such file or directory (os error 2)"
  | isDirectory => "Is a directory (os error 21)"
  | notDirectory => "Not a directory (os error 20)"
  | notText => "stream did not contain valid UTF-8"
  | other text => text

/-- The rules that a line of a pattern catalogue can break. -/
inductive CatalogueFlaw where
  | contentBeforeHeader
  | cellsBeforeVariant
  | unknownCode
  | lineTooWide
  | emptyVariant (pattern : String)
  deriving DecidableEq, Repr

def CatalogueFlaw.message : CatalogueFlaw → String
  | contentBeforeHeader => "content before the first ###"
  | cellsBeforeVariant => "cell line before the first ---"
  | unknownCode => "unknown cell code"
  | lineTooWide => "line is wider than the largest board"
  | emptyVariant pattern => s!"pattern '{pattern}' has a variant without cells"

inductive Error where
  | catalogueIo (path : String) (cause : ReadFailure)
  | catalogueSyntax (line : Nat) (flaw : CatalogueFlaw)
  | boardSize (size : Nat)
  | evaluatorGone
  | workerFailed (worker : Nat) (reason : String)
  | faulted (reason : String)
  | workersGone
  | cancelled
  | illegalMove (cause : MoveError)
  deriving DecidableEq, Repr

def boardSizeMessage (size : Nat) : String :=
  s!"board size {size} is not supported (1..={maxSize})"

def Error.message : Error → String
  | catalogueIo path cause => s!"cannot read pattern catalogue {path}: {cause.message}"
  | catalogueSyntax line flaw => s!"pattern catalogue line {line}: {flaw.message}"
  | boardSize size => boardSizeMessage size
  | evaluatorGone => "pattern evaluator is no longer running"
  | workerFailed worker reason => s!"worker {worker} failed: {reason}"
  | faulted reason => s!"worker panicked: {reason}"
  | workersGone => "all workers disconnected before the run finished"
  | cancelled => "search cancelled"
  | illegalMove cause => s!"illegal move: {cause.message}"

/-- A bound of the arithmetic or of a list that a computation ran past. -/
inductive Overrun where
  | addition
  | subtraction
  | negation
  | shiftRight
  | index (length position : Nat)
  | capacity
  deriving DecidableEq, Repr

def Overrun.message : Overrun → String
  | addition => "attempt to add with overflow"
  | subtraction => "attempt to subtract with overflow"
  | negation => "attempt to negate with overflow"
  | shiftRight => "attempt to shift right with overflow"
  | index length position =>
    s!"index out of bounds: the len is {length} but the index is {position}"
  | capacity => "capacity overflow"

inductive Fault where
  | boardSize (size : Nat)
  | stoneOutside (cell : Cell) (size : Nat)
  | stoneTwice (cell : Cell)
  | illegalMove (mv : Move) (cause : MoveError) (board : Board)
  | deadEnd (board : Board)
  | overrun (bound : Overrun)
  /-- A comparison by which values had to be sorted contradicts itself. -/
  | noOrder
  deriving DecidableEq

def Fault.message : Fault → String
  | boardSize size => boardSizeMessage size
  | stoneOutside cell size => s!"stone {cell.text} outside a {size}x{size} board"
  | stoneTwice cell => s!"stone {cell.text} placed twice"
  | illegalMove mv cause board => s!"illegal move {mv.text}: {cause.message}\n{board.text}"
  | deadEnd board => s!"no legal move in an undecided position\n{board.text}"
  | overrun bound => bound.message
  | noOrder => "user-provided comparison function does not correctly implement a total order"

/-- No list or queue has room for more entries: a memory has fewer addresses. -/
def maxSlots : Nat := 1 <<< 48

def ensureRoom (slots : Nat) : Except Fault Unit :=
  if slots ≤ maxSlots then .ok () else .error (.overrun .capacity)

/-- A computation that can both refuse its input and be ended by a fault. -/
inductive Interruption where
  | error (cause : Error)
  | fault (cause : Fault)
  deriving DecidableEq

end HexGame

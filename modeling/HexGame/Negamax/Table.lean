import HexGame.Board.Basic
import HexGame.Negamax.Value
import Std.Data.HashMap

/-!
# Transposition tables

A table remembers, for each position, a value and how it bounds the true one. A position occurs at one
depth of a round only, so entries carry no depth.
-/
namespace HexGame

/-- How a stored value relates to the true value of the position. -/
inductive Bound where
  | exact
  /-- The true value is at least the stored one. -/
  | lower
  /-- The true value is at most the stored one. -/
  | upper
  deriving DecidableEq, Repr

structure TableEntry (V : Type) where
  value : V
  bound : Bound

abbrev Table (V : Type) := Std.HashMap BoardKey (TableEntry V)

/-- What a table says about a position that is searched with a window. -/
inductive Probe (V : Type) where
  | answer (value : V)
  | window (alpha beta : V)

/-- An exact entry answers; a bound narrows the window, and answers when it closes it. -/
def Table.probe {V : Type} [GameValue V] (t : Table V) (k : BoardKey) (alpha beta : V) : Probe V :=
  match t[k]? with
  | none => .window alpha beta
  | some ⟨value, .exact⟩ => .answer value
  | some ⟨value, .lower⟩ =>
    let alpha := GameValue.max alpha value
    if GameValue.le beta alpha then .answer value else .window alpha beta
  | some ⟨value, .upper⟩ =>
    let beta := GameValue.min beta value
    if GameValue.le beta alpha then .answer value else .window alpha beta

end HexGame

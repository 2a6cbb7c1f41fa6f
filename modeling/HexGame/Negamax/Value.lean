/-!
# Values of positions

The search compares values and changes sides by negation. It asks no more of them, so it runs on floating
point numbers and can be studied on any ordered type with a greatest element.
-/
namespace HexGame

class GameValue (V : Type) extends Neg V where
  /-- The value of a won game; its negation is the value of a lost one. -/
  won : V
  /-- What is assumed of a position about which nothing is known. -/
  even : V
  lt : V → V → Bool
  le : V → V → Bool

namespace GameValue

variable {V : Type} [GameValue V]

def lost : V := -won

/-- The larger value, and `a` where the two do not compare. -/
def max (a b : V) : V := if lt a b then b else a

/-- The smaller value, and `a` where the two do not compare. -/
def min (a b : V) : V := if lt b a then b else a

/-- The game is won or lost at this value. -/
def isDecisive (v : V) : Bool := le won v || le v lost

end GameValue

instance : GameValue Float where
  won := 1.0 / 0.0
  even := 0.0
  lt a b := a < b
  le a b := a ≤ b

end HexGame

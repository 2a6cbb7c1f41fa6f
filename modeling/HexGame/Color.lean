/-! # The two sides -/
namespace HexGame

/-- Red joins the top row to the bottom row, blue the left column to the right column. -/
inductive Color where
  | red
  | blue
  deriving DecidableEq, Hashable, Repr

namespace Color

def opponent : Color → Color
  | red => blue
  | blue => red

/-- How a stone is written on a board and in a move. -/
def letter : Color → String
  | red => "r"
  | blue => "b"

@[simp] theorem opponent_red : red.opponent = blue := rfl

@[simp] theorem opponent_blue : blue.opponent = red := rfl

@[simp] theorem opponent_opponent (c : Color) : c.opponent.opponent = c := by cases c <;> rfl

@[simp] theorem opponent_ne (c : Color) : c.opponent ≠ c := by cases c <;> decide

theorem eq_opponent_of_ne {c d : Color} (h : c ≠ d) : c = d.opponent := by
  cases c <;> cases d <;> simp_all

end Color
end HexGame

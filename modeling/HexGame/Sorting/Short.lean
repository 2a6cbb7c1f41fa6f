import HexGame.Sorting.Merge

/-!
# Sorting short lists

Short lists are sorted by insertion. Somewhat longer ones are halved, and the sorted halves are merged
from both ends.
-/
namespace HexGame
namespace Sorting

variable {α : Type}

/-- Inserts into a list with the largest entry first, in front of all entries that are not larger. -/
def insertDown (lt : α → α → Bool) (x : α) : List α → List α
  | [] => [x]
  | y :: ys => if lt x y then y :: insertDown lt x ys else x :: y :: ys

/-- Inserts further entries into a sorted list, one after the other. -/
def insertAll (lt : α → α → Bool) (sorted xs : List α) : List α :=
  (xs.foldl (fun down x => insertDown lt x down) sorted.reverse).reverse

/-- Sorts four entries by five comparisons: two pairs, the least and the greatest of them, and the other
two, of which the left one comes first unless the right one is less. -/
def sortFour (lt : α → α → Bool) (a b c d : α) : List α :=
  let (a, b) := if lt b a then (b, a) else (a, b)
  let (c, d) := if lt d c then (d, c) else (c, d)
  let (least, left, right, greatest) := match lt c a, lt d b with
    | false, false => (a, b, c, d)
    | false, true => (a, c, d, b)
    | true, false => (c, a, b, d)
    | true, true => (c, a, d, b)
  if lt right left then [least, right, left, greatest] else [least, left, right, greatest]

/-- Sorts one half of a list by insertion. It may begin with four entries at once. -/
def sortHalf (lt : α → α → Bool) (four : Bool) (xs : List α) : List α :=
  match four, xs with
  | true, a :: b :: c :: d :: xs => insertAll lt (sortFour lt a b c d) xs
  | _, xs => insertAll lt [] xs

def sortShort (lt : α → α → Bool) (xs : List α) : Option (List α) :=
  let half := sortHalf lt (8 ≤ xs.length)
  mergeBothEnds lt (half (xs.take (xs.length / 2))) (half (xs.drop (xs.length / 2)))

def shortLength : Nat := 32

end Sorting
end HexGame

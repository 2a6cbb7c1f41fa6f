import HexGame.Sorting.Run

/-!
# Sorting by pivots

A list is divided by an entry that is likely to be near its middle, and both parts are sorted in the same
way. Should the divisions turn out badly too often, the list is sorted by its runs.
-/
namespace HexGame
namespace Sorting

variable {α : Type}

def median (lt : α → α → Bool) (a b c : α) : α :=
  if lt a b = lt a c then (if lt b c = lt a b then b else c) else a

/-- An entry near the middle of the order, found from samples of the first, the fifth and the last eighth
of the list. -/
def pseudoMedian (lt : α → α → Bool) (xs : List α) : Option α :=
  let eighth := xs.length / 8
  if eighth = 0 then xs.head?
  else do
    let a ← pseudoMedian lt (xs.take eighth)
    let b ← pseudoMedian lt ((xs.drop (4 * eighth)).take eighth)
    let c ← pseudoMedian lt ((xs.drop (7 * eighth)).take eighth)
    return median lt a b c
  termination_by xs.length
  decreasing_by all_goals (simp only [List.length_take, List.length_drop]; omega)

/-- Sorts a list with at most `limit` divisions one within the other. No entry is less than `bound`. A
pivot that is not larger than the bound, or has no entry less than it, is a least entry; then all like it
come first and only the others have to be sorted. -/
def sortByPivot (lt : α → α → Bool) : Nat → Option α → List α → Option (List α)
  | 0, _, xs => if xs.length ≤ shortLength then sortShort lt xs else sortEagerly lt xs
  | limit + 1, bound, xs =>
    if xs.length ≤ shortLength then sortShort lt xs
    else
      match pseudoMedian lt xs with
      | none => some xs
      | some pivot =>
        let (below, others) := xs.partition fun x => lt x pivot
        if below.isEmpty || bound.any fun b => !lt b pivot then do
          let (least, above) := xs.partition fun x => !lt pivot x
          return least ++ (← sortByPivot lt limit none above)
        else do
          let below ← sortByPivot lt limit bound below
          return below ++ (← sortByPivot lt limit (some pivot) others)

end Sorting
end HexGame

import HexGame.Sorting.Pivot

/-!
# Sorting

`sort?` sorts a list by the comparison `lt` and keeps entries that do not differ in their order. It may be
given a comparison that is no order, such as that of numbers some of which are undefined. Then the way of
the comparisons decides in which sequence the entries come out, or that none is found.
-/
namespace HexGame
namespace Sorting

variable {α : Type}

/-- The length up to which lists are sorted by insertion alone. -/
def insertionLength : Nat := 20

/-- The divisions one within the other that a list of `n` entries is worth. -/
def divisionLimit (n : Nat) : Nat := 2 * n.log2

/-- Sorts a list by its runs. What is left between them is sorted by pivots, as late as possible. -/
def sortLazily (lt : α → α → Bool) (xs : List α) : Option (List α) :=
  let shortest := shortestRun xs.length
  sortRuns lt (fun ys => sortByPivot lt (divisionLimit ys.length) none ys) xs.length
    (cutRuns lt shortest shortest xs)

/-- The list in order. There is none only if the merging of two halves shows that `lt` is no order. -/
def sort? (lt : α → α → Bool) (xs : List α) : Option (List α) :=
  if xs.length ≤ insertionLength then some (insertAll lt [] xs)
  else if xs.length ≤ 2 * shortLength then sortEagerly lt xs
  else sortLazily lt xs

end Sorting
end HexGame

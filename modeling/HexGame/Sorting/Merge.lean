/-!
# Merging

Two lists are merged from the front or from the back. Where `lt` is an order and the lists are sorted
both ways lead to the same list, with the entries of the left list before those of the right one that
they do not differ from.
-/
namespace HexGame
namespace Sorting

variable {α : Type}

inductive Side where
  | left
  | right
  deriving DecidableEq, Repr

def mark (s : Side) (xs : List α) : List (Side × α) := xs.map (s, ·)

def countFrom (s : Side) (zs : List (Side × α)) : Nat := zs.countP fun z => z.1 = s

/-- Merges from the front: an entry of the right list goes first only if it is less. -/
def mergeUp (lt : α → α → Bool) (xs ys : List α) : List (Side × α) :=
  List.merge (mark .left xs) (mark .right ys) fun x y => !lt y.2 x.2

/-- Merges from the back: an entry of the left list goes last only if the other one is less. -/
def mergeDown (lt : α → α → Bool) (xs ys : List α) : List (Side × α) :=
  (List.merge (mark .right ys).reverse (mark .left xs).reverse fun y x => !lt y.2 x.2).reverse

/-- Merges two lists from the end at which the shorter one is used up first. -/
def merge (lt : α → α → Bool) (xs ys : List α) : List α :=
  (if xs.length ≤ ys.length then mergeUp lt xs ys else mergeDown lt xs ys).map (·.2)

/-- The entries of a list that are taken neither by the front nor by the back of a merge. -/
def untaken (s : Side) (xs : List α) (front back : List (Side × α)) : List α :=
  (xs.drop (countFrom s front)).take (xs.length - (countFrom s front + countFrom s back))

/-- Merges one half of the entries from the front and one half from the back; of an odd number one entry
is left for the middle. There is no merge if both ends take the same entry, which cannot happen where
`lt` is an order and the lists are sorted. -/
def mergeBothEnds (lt : α → α → Bool) (xs ys : List α) : Option (List α) :=
  let n := xs.length + ys.length
  let front := (mergeUp lt xs ys).take (n / 2)
  let back := (mergeDown lt xs ys).drop (n - n / 2)
  if countFrom .left front + countFrom .left back ≤ xs.length ∧
      countFrom .right front + countFrom .right back ≤ ys.length then
    some (front.map (·.2) ++ untaken .left xs front back ++ untaken .right ys front back ++
      back.map (·.2))
  else none

end Sorting
end HexGame

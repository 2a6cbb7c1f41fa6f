import HexGame.Sorting.Short

/-!
# Runs

A list is cut into runs, which are joined in pairs until one is left. A long stretch that is in order as
it stands is a run of its own. Runs are joined along a balanced tree over the positions of the list.
-/
namespace HexGame
namespace Sorting

variable {α : Type}

/-- Neighbouring entries of a list, which are in order or left to be sorted later. -/
structure Run (α : Type) where
  entries : List α
  sorted : Bool

namespace Run

def settle (sort : List α → Option (List α)) (r : Run α) : Option (Run α) :=
  if r.sorted then some r else (sort r.entries).map (⟨·, true⟩)

/-- Two neighbouring runs as one. They are merged if one of them is in order; otherwise they can still be
sorted together. -/
def join (lt : α → α → Bool) (sort : List α → Option (List α)) (l r : Run α) : Option (Run α) :=
  if l.sorted || r.sorted then do
    let l ← l.settle sort
    let r ← r.settle sort
    return ⟨merge lt l.entries r.entries, true⟩
  else some ⟨l.entries ++ r.entries, false⟩

end Run

/-- How many of the entries continue the chain that begins with `x`. -/
def chainLength (related : α → α → Bool) : α → List α → Nat
  | _, [] => 0
  | x, y :: ys => if related x y then chainLength related y ys + 1 else 0

/-- The entries at the beginning of a list that are in order, or in strictly reverse order and then turned
over. -/
def leadingRun (lt : α → α → Bool) : List α → List α
  | [] => []
  | [x] => [x]
  | x :: y :: xs =>
    if lt y x then
      (x :: (y :: xs).take (chainLength (fun a b => lt b a) x (y :: xs))).reverse
    else x :: (y :: xs).take (chainLength (fun a b => !lt b a) x (y :: xs))

/-- Cuts a list into runs. Where no run of at least `shortest` entries begins, `piece` entries are left to
be sorted. -/
def cutRuns (lt : α → α → Bool) (shortest piece : Nat) : List α → List (Run α)
  | [] => []
  | x :: xs =>
    let run := leadingRun lt (x :: xs)
    if shortest ≤ run.length then
      ⟨run, true⟩ :: cutRuns lt shortest piece (xs.drop (run.length - 1))
    else ⟨x :: xs.take (piece - 1), false⟩ :: cutRuns lt shortest piece (xs.drop (piece - 1))
  termination_by xs => xs.length
  decreasing_by all_goals (simp only [List.length_drop, List.length_cons]; omega)

/-- The height at which two neighbouring runs meet in the tree over a list of `n` entries: the highest bit
in which their middles differ, as fractions of the list. -/
def joinHeight (n start mid stop : Nat) : Nat :=
  let scale := ((1 <<< 62) + n - 1) / n
  Nat.log2 ((scale * (start + mid)) ^^^ (scale * (mid + stop)))

/-- Joins a run with the waiting runs in front of it that do not meet it higher than `height`. Waiting runs
are given with the latest first, each with the height at which it meets the run behind it. -/
def joinBelow (join : Run α → Run α → Option (Run α)) (height : Nat) :
    Run α → List (Run α × Nat) → Option (Run α × List (Run α × Nat))
  | r, [] => some (r, [])
  | r, (l, h) :: waiting =>
    if h ≤ height then do joinBelow join height (← join l r) waiting
    else some (r, (l, h) :: waiting)

/-- Joins a run that begins at position `start` with the waiting runs in front of it and with the runs
behind it, the lower ones first. -/
def joinAll (join : Run α → Run α → Option (Run α)) (n : Nat) :
    Nat → List (Run α × Nat) → Run α → List (Run α) → Option (Run α)
  | _, waiting, r, [] => waiting.foldlM (fun r (l, _) => join l r) r
  | start, waiting, r, next :: runs => do
    let mid := start + r.entries.length
    let height := joinHeight n start mid (mid + next.entries.length)
    let (r, waiting) ← joinBelow join height r waiting
    joinAll join n mid ((r, height) :: waiting) next runs

/-- The entries of all runs of a list of `n` entries in order; `sort` sorts those left to be sorted. -/
def sortRuns (lt : α → α → Bool) (sort : List α → Option (List α)) (n : Nat) :
    List (Run α) → Option (List α)
  | [] => some []
  | r :: runs => do
    let r ← joinAll (Run.join lt sort) n 0 [] r runs
    return (← r.settle sort).entries

/-- The length from which on a stretch in order is a run of its own in a list of `n` entries. -/
def shortestRun (n : Nat) : Nat := min (n - n / 2) 64

/-- Sorts a list by its runs. What is left between them is sorted in short pieces before any join. -/
def sortEagerly (lt : α → α → Bool) (xs : List α) : Option (List α) := do
  let runs := cutRuns lt (shortestRun xs.length) shortLength xs
  sortRuns lt (sortShort lt) xs.length (← runs.mapM (Run.settle (sortShort lt)))

end Sorting
end HexGame

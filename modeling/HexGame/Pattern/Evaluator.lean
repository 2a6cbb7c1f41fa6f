import HexGame.Board.Basic
import HexGame.Pattern.Count

/-!
# Evaluators

An evaluator counts the patterns of one catalogue until it is shut down.
-/
namespace HexGame

structure Evaluator where
  catalogue : Catalogue
  running : Bool

namespace Evaluator

def start (catalogue : Catalogue) : Evaluator := ⟨catalogue, true⟩

/-- A count that runs over its bounds is lost like one that is asked of a stopped evaluator. -/
def count (e : Evaluator) (b : Board) (subset : Option (List Nat)) : Except Error PatternCounts :=
  if e.running then
    match e.catalogue.count b.rows.toList subset with
    | .ok counts => .ok counts
    | .error _ => .error .evaluatorGone
  else .error .evaluatorGone

def shutdown (e : Evaluator) : Evaluator := { e with running := false }

end Evaluator
end HexGame

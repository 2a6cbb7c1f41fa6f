import HexGame.Feature.Weights
import HexGame.Negamax.Deepening
import HexGame.Pattern.Evaluator

/-!
# Evaluating positions by their patterns
-/
namespace HexGame
namespace Evaluator

def staticScore (e : Evaluator) (weights : ScoreWeights) (b : Board) : Except Error Float := do
  let counts ← e.count b none
  match FeatureVector.extract b counts with
  | .ok features => return weights.score features b.toMove
  | .error _ => .error .evaluatorGone

end Evaluator

def NodeLabel.text (n : NodeLabel Float) : String :=
  let name := match n.lastMove with
    | some mv => mv.text
    | none => "root"
  s!"{name} ({Text.ofFloat 3 n.value}) {n.tag.text}"

end HexGame

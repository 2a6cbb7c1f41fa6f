import HexGame.Feature.Vector
import HexGame.Text.Decimal

/-!
# The static score

A linear score with one weight for each column of the feature vector. Columns without a weight count
for nothing.
-/
namespace HexGame

structure ScoreWeights where
  intercept : Float
  features : List Float

namespace ScoreWeights

def occupancy : Float := 2.0

def center : Float := 0.5

def reach : Float := 0.25

/-- Weights for a catalogue of `patterns` patterns: centre distance and reachable cells of both sides,
red's occupied rows against blue's occupied columns, and each pattern at one. -/
def forPatterns (patterns : Nat) : ScoreWeights where
  intercept := 0.0
  features :=
    [0.0, 0.0, -center, center, reach, -reach, occupancy, 0.0, 0.0, -occupancy] ++
      List.replicate patterns 1.0 ++ List.replicate patterns (-1.0)

/-- The products of weights and values, added from left to right; the empty sum is negative zero. -/
def weightedSum (values : List Nat) (weights : List Float) : Float :=
  (values.zipWith (fun x w => w * Float.ofNat x) weights).foldl (· + ·) (-0.0)

/-- Red's view of a position, negated for blue. -/
def score (w : ScoreWeights) (f : FeatureVector) (toMove : Color) : Float :=
  let value := w.intercept + weightedSum f.values w.features
  match toMove with
  | .red => value
  | .blue => -value

end ScoreWeights

def Sample.text (s : Sample) : String := s!"{Text.ofFloat 6 s.mean},{s.features.text}"

end HexGame

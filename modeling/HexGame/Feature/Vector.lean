import HexGame.Chain.Search
import HexGame.Pattern.Count

/-!
# Features of a position

The columns of a sample: what is on the board, how far each side is from the centre, what it reaches
and which patterns it has. `header` names them and `values` lists them in the same order.
-/
namespace HexGame

structure FeatureVector where
  stones : Nat
  /-- 0 when red moved last, 1 when blue did. -/
  lastPlayer : Nat
  centerDistanceRed : Nat
  centerDistanceBlue : Nat
  reachableRed : Nat
  reachableBlue : Nat
  redRows : Nat
  redColumns : Nat
  blueRows : Nat
  blueColumns : Nat
  redPatterns : List Nat
  bluePatterns : List Nat
  deriving DecidableEq, Repr

/-- The centre cell nearest to a cell. A board of even size has four centre cells. -/
def closestCenter (size : Nat) (c : Cell) : Cell :=
  if size % 2 = 1 then ⟨(size / 2 : Nat), (size / 2 : Nat)⟩
  else
    let low : Int := (size / 2 : Nat) - 1
    let pick (v : Int) : Int := if v ≤ low then low else low + 1
    ⟨pick c.x, pick c.y⟩

/-- The distances of all stones of a colour from the centre, added up. -/
def Board.centerDistance (b : Board) (color : Color) : Nat :=
  (b.cells.filter (b.owns color)).foldl (fun sum c => sum + c.distance (closestCenter b.size c)) 0

namespace FeatureVector

def extract (b : Board) (counts : PatternCounts) : Except Fault FeatureVector := do
  return {
    stones := b.stoneCounts.stones
    lastPlayer := match b.lastMover with
      | .red => 0
      | .blue => 1
    centerDistanceRed := b.centerDistance .red
    centerDistanceBlue := b.centerDistance .blue
    reachableRed := b.reachableCells .red
    reachableBlue := b.reachableCells .blue
    redRows := ← counts.occupiedRows .red
    redColumns := ← counts.occupiedColumns .red
    blueRows := ← counts.occupiedRows .blue
    blueColumns := ← counts.occupiedColumns .blue
    redPatterns := counts.patterns .red
    bluePatterns := counts.patterns .blue }

def header (patterns : Nat) : List String :=
  ["num_stones", "lp", "sdtc_r", "sdtc_b", "rec_r", "rec_b", "occ_red_rows", "occ_red_cols",
    "occ_blue_rows", "occ_blue_cols"] ++
    (List.range patterns).map (fun i => s!"red_p{i}") ++
    (List.range patterns).map (fun i => s!"blue_p{i}")

def values (f : FeatureVector) : List Nat :=
  [f.stones, f.lastPlayer, f.centerDistanceRed, f.centerDistanceBlue, f.reachableRed,
    f.reachableBlue, f.redRows, f.redColumns, f.blueRows, f.blueColumns] ++
    f.redPatterns ++ f.bluePatterns

def text (f : FeatureVector) : String := String.intercalate "," (f.values.map toString)

end FeatureVector

/-- A position with the statistics and the features that were recorded for it. The mean is red's. -/
structure Sample where
  board : Board
  visits : Nat
  mean : Float
  features : FeatureVector

end HexGame

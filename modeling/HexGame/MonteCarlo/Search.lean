import HexGame.Feature.Weights
import HexGame.MonteCarlo.Selection
import HexGame.Pattern.Evaluator

/-!
# Monte Carlo searches

A search is a tree that grows by iterations. When a game goes on, the subtree of the new position is
kept; when a search is finished, its well visited nodes are samples and the others are candidates for
searches of their own.
-/
namespace HexGame
namespace MonteCarlo

def Config.default : Config Float where
  exploration := (2.0 : Float).sqrt
  expandThreshold := 10
  lengthWeighted := false
  terminal := .strict

structure Search (G : Type) where
  root : SearchTree Float
  config : Config Float
  source : G
  iterations : Nat

/-- The samples and the candidates of a finished tree. -/
structure Harvest where
  samples : List Sample
  candidates : List (SearchTree Float)

def sampleOf (e : Evaluator) (s : Statistic Float) : Except Error Sample := do
  let counts ← e.count s.board none
  match FeatureVector.extract s.board counts with
  | .ok features => return ⟨s.board, s.visits, s.redMean, features⟩
  | .error _ => .error .evaluatorGone

mutual

/-- Walks a tree and samples its nodes. A node below the threshold becomes a candidate, with all that
is under it. -/
def harvest (e : Evaluator) (threshold : Nat) : SearchTree Float → Except Error Harvest
  | .node s children =>
    if s.visits < threshold then .ok ⟨[], [.node s children]⟩
    else do
      let sample ← sampleOf e s
      let below ← harvestAll e threshold children
      return ⟨sample :: below.samples, below.candidates⟩

/-- The harvests of all trees of a list together. -/
def harvestAll (e : Evaluator) (threshold : Nat) : List (SearchTree Float) → Except Error Harvest
  | [] => .ok ⟨[], []⟩
  | t :: ts => do
    let first ← harvest e threshold t
    let rest ← harvestAll e threshold ts
    return ⟨first.samples ++ rest.samples, first.candidates ++ rest.candidates⟩

end

def firstBest (best : SearchTree Float) : List (SearchTree Float) → SearchTree Float
  | [] => best
  | t :: ts => if GameValue.lt best.value.mean t.value.mean then firstBest t ts else firstBest best ts

namespace Search

variable {G : Type}

def ofTree (root : SearchTree Float) (config : Config Float) (source : G) : Search G :=
  ⟨root, config, source, 0⟩

def start (b : Board) (config : Config Float) (source : G) : Search G :=
  ofTree (.leaf (.fresh b)) config source

def iterate [ChoiceSource G] (s : Search G) : Except Fault (Search G) := do
  let (_, root, source) ← MonteCarlo.iterate s.config (mostUrgent s.config.exploration) s.source s.root
  return { s with root, source, iterations := s.iterations + 1 }

def iterateTimes [ChoiceSource G] : Nat → Search G → Except Fault (Search G)
  | 0, s => .ok s
  | n + 1, s => do (← s.iterate).iterateTimes n

/-- Goes on from a position two moves later. Its subtree is kept if the tree has one. -/
def continueFrom (s : Search G) (b : Board) : Search G :=
  let grandchildren := s.root.children.flatMap Tree.children
  match grandchildren.find? fun t => t.value.board.samePosition b with
  | some t => ofTree t s.config s.source
  | none => start b s.config s.source

def bestChild (s : Search G) : Option (SearchTree Float) :=
  match s.root.children with
  | [] => none
  | t :: ts => some (firstBest t ts)

def bestMove (s : Search G) : Option Move := do
  s.root.value.board.transitionMove (← s.bestChild).value.board

def harvest (s : Search G) (e : Evaluator) (threshold : Nat) : Except Error Harvest :=
  MonteCarlo.harvest e threshold s.root

end Search

end MonteCarlo

def Statistic.text (s : Statistic Float) : String :=
  s!"{s.board.text}(N: {s.visits}, Q: {Text.ofFloat 6 s.mean})"

end HexGame

import HexGame.Command.Help
import HexGame.Coordinator.Run
import HexGame.Pattern.Reader
import HexGame.Play.Game

/-!
# Commands

What the program writes and how it exits. A time budget is spent as an amount of work that is
proportional to it, so that a run can be repeated.
-/
namespace HexGame
namespace Command

structure Report where
  exit : Nat
  stdout : String
  stderr : String

/-- A failure with the chain of its causes, the outermost first. -/
structure Failure where
  message : String
  causes : List String

namespace Failure

def within (context : String) (f : Failure) : Failure := ⟨context, f.message :: f.causes⟩

/-- An unreadable file is the cause of the error that it leads to. -/
def ofError (e : Error) : Failure :=
  match e with
  | .catalogueIo _ cause => ⟨e.message, [cause.message]⟩
  | .illegalMove cause => ⟨e.message, [cause.message]⟩
  | _ => ⟨e.message, []⟩

private def indent (first rest : String) (s : String) : String :=
  first ++ String.intercalate ("\n" ++ rest) (s.splitOn "\n")

private def causeText (numbered : Bool) (s : String × Nat) : String :=
  if numbered then indent s!"    {s.2}: " "       " s.1 else indent "    " "    " s.1

def text (f : Failure) : String :=
  let head := s!"Error: {f.message}\n"
  match f.causes with
  | [] => head
  | causes =>
    let lines := causes.zipIdx.map (causeText (1 < causes.length))
    head ++ "\nCaused by:\n" ++ String.intercalate "\n" lines ++ "\n"

end Failure

/-- Checks that a millisecond is good for. -/
def checksPerMillisecond : Nat := 1000

/-- Iterations that a millisecond is good for. -/
def iterationsPerMillisecond : Nat := 5

/-- The work that a budget in milliseconds pays for. -/
def effortOf (budget : Nat) : Effort :=
  ⟨iterationsPerMillisecond * budget, .afterChecks (checksPerMillisecond * budget)⟩

def defaultSource : Generator := .ofSeed 0

/-- How a run ends that does not come to its result. -/
inductive Breakdown where
  | failure (f : Failure)
  | fault (f : Fault)

def fail {α : Type} (f : Failure) : Except Breakdown α := .error (.failure f)

def ofExcept {α : Type} : Except Error α → Except Breakdown α
  | .ok a => .ok a
  | .error e => fail (.ofError e)

def ofInterruption {α : Type} : Except Interruption α → Except Breakdown α
  | .ok a => .ok a
  | .error (.error e) => fail (.ofError e)
  | .error (.fault f) => .error (.fault f)

def within {α : Type} (context : String) : Except Breakdown α → Except Breakdown α
  | .ok a => .ok a
  | .error (.failure f) => fail (f.within context)
  | .error (.fault f) => .error (.fault f)

def loadCatalogue (read : String → Except ReadFailure String) (c : Common) :
    Except Breakdown Catalogue :=
  within s!"loading patterns for a {c.size}x{c.size} board" (ofExcept (Catalogue.load read c.patterns))

/-- One line for each sample, under a line with the names of the columns. -/
def sample (read : String → Except ReadFailure String) (s : SampleSettings) :
    Except Breakdown String := do
  let catalogue ← loadCatalogue read s.common
  let board ← ofExcept (Board.tryNew s.common.size .red)
  let config : MonteCarlo.Config Float :=
    { MonteCarlo.Config.default with
      lengthWeighted := s.lengthWeighted
      terminal := if s.virtualTerminal then .virtual else .strict }
  let result ← within "parallel search failed" <| ofInterruption <|
    Coordinator.run ⟨s.workers, (effortOf s.common.budget).iterations, s.threshold, s.maxTasks⟩
      (.start catalogue) (.start board config defaultSource) defaultSource 0 true
  let header := "q," ++ String.intercalate "," (FeatureVector.header catalogue.size) ++ "\n"
  return header ++ String.join (result.summary.samples.map fun s => s.text ++ "\n")

/-- A coordinate of a move, with blanks around it. -/
def readCoordinate (context : String) (s : List Char) : Except Breakdown Nat :=
  match Text.readNat Text.maxWord (Text.trim s) with
  | .ok n => .ok n
  | .error flaw => fail ⟨context, [flaw.message]⟩

/-- Plays a move that is written as two coordinates with a comma between them. -/
def playWritten (b : Board) (text : String) : Except Breakdown Board := do
  let s := text.toList
  match s.dropWhile (· ≠ ',') with
  | [] => fail ⟨s!"move '{text}' is not of the form x,y", []⟩
  | _ :: right =>
    let x ← readCoordinate s!"bad column in '{text}'" (s.takeWhile (· ≠ ','))
    let y ← readCoordinate s!"bad row in '{text}'" right
    match b.tryPlay ⟨⟨x, y⟩, b.toMove⟩ with
    | .ok b => return b
    | .error cause => fail ⟨s!"cannot play '{text}'", [cause.message]⟩

def readPosition (size : Nat) (moves : List String) : Except Breakdown Board := do
  moves.foldlM playWritten (← ofExcept (Board.tryNew size .red))

/-- Every node on a line of its own, indented by its depth. -/
def treeText (t : Tree (NodeLabel Float)) : String :=
  String.join <| t.walk.map fun (node, depth) =>
    String.ofList (List.replicate (2 * depth) ' ') ++ node.value.text ++ "\n"

def search (read : String → Except ReadFailure String) (s : SearchSettings) :
    Except Breakdown String := do
  let board ← readPosition s.common.size s.moves
  let catalogue ← loadCatalogue read s.common
  let evaluate := (Evaluator.start catalogue).staticScore (.forPatterns catalogue.size)
  let outcome ← within "alpha-beta search failed" <| ofInterruption <|
    Negamax.search evaluate board (effortOf s.common.budget).deadline s.tree
  let tree := match outcome.tree with
    | some t => treeText t
    | none => ""
  let answer := match outcome.best with
    | some mv =>
      let value := Text.ofFloat 3 outcome.value
      s!"best {mv.text}, value {value}, depth {outcome.depth}, {outcome.nodes} nodes\n"
    | none => s!"no move found within {s.common.budget} ms\n"
  return board.text ++ "\n" ++ tree ++ answer

private def recordText (r : GameRecord) : String :=
  let result := match r.winner with
    | some w => s!"{w.letter} wins in {r.moves.length} moves\n"
    | none => s!"no winner after {r.moves.length} moves\n"
  String.join (r.moves.map fun mv => mv.text ++ "\n") ++ result

private def recordOf {R B : Type} [Player R] [Player B] (red : R) (blue : B) (size budget : Nat) :
    Except Breakdown GameRecord := do
  let g ← within "game aborted" <| ofInterruption <|
    Game.play red blue size fun _ => effortOf budget
  return g.record

def play (read : String → Except ReadFailure String) (s : PlaySettings) :
    Except Breakdown String := do
  let catalogue ← loadCatalogue read s.common
  let weights := ScoreWeights.forPatterns catalogue.size
  let source := match s.seed with
    | some seed => Generator.ofSeed seed.toUInt64
    | none => defaultSource
  let random := MonteCarloPlayer.make MonteCarlo.Config.default source
  let blue := NegamaxPlayer.make catalogue weights
  let record ← match s.hybridAt with
    | some stones =>
      recordOf (HybridPlayer.make blue random stones) blue s.common.size s.common.budget
    | none => recordOf random blue s.common.size s.common.budget
  return recordText record

def usageText : String := "usage: (sample | ab | play) [options] [x,y ...]\n"

def Report.ofResult : Except Breakdown String → Report
  | .ok text => ⟨0, text, ""⟩
  | .error (.failure f) => ⟨1, "", f.text⟩
  | .error (.fault f) => ⟨101, "", f.message ++ "\n"⟩

def execute (read : String → Except ReadFailure String) (args : List String) : Report :=
  match Invocation.read args with
  | .sample s => .ofResult (sample read s)
  | .search s => .ofResult (search read s)
  | .play s => .ofResult (play read s)
  | .help topic => ⟨0, helpText topic, ""⟩
  | .version => ⟨0, versionText, ""⟩
  | .usage => ⟨2, "", usageText⟩

end Command
end HexGame

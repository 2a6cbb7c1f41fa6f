import HexGame.MonteCarlo.Statistic
import HexGame.Random

/-!
# Continuation candidates

Candidates wait in buckets, one for each number of stones. The bucket that has been served least is
served next, so that searches spread over all phases of a game.
-/
namespace HexGame

structure Bucket (V : Type) where
  served : Nat
  nodes : List (SearchTree V)

/-- The largest number of servings that can be counted. -/
def Bucket.maxServed : Nat := UInt32.size - 1

structure CandidateList (V G : Type) where
  buckets : List (Bucket V)
  source : G

/-- Takes out one element; the last one moves into its place. -/
def swapRemove {α : Type} (xs : List α) (i : Nat) : List α :=
  match xs.getLast? with
  | none => []
  | some last => (xs.set i last).dropLast

namespace CandidateList

variable {V G : Type}

/-- No candidates, for boards of the given size. -/
def empty (boardSize : Nat) (source : G) : CandidateList V G :=
  ⟨List.replicate (boardSize * boardSize + 1) ⟨0, []⟩, source⟩

/-- No candidates, for boards of any size that the buckets have room for. -/
def make (boardSize : Nat) (source : G) : Except Fault (CandidateList V G) := do
  ensureRoom (boardSize * boardSize + 1)
  return empty boardSize source

def add (l : CandidateList V G) (t : SearchTree V) : CandidateList V G :=
  let place := min t.value.board.stoneCounts.stones (l.buckets.length - 1)
  { l with buckets := l.buckets.modify place fun b => { b with nodes := b.nodes ++ [t] } }

def addAll (l : CandidateList V G) (ts : List (SearchTree V)) : CandidateList V G := ts.foldl add l

/-- The first of the buckets with candidates that has been served least, counting from `i`. -/
def leastServed (i : Nat) : List (Bucket V) → Option (Nat × Bucket V)
  | [] => none
  | b :: bs =>
    if b.nodes.isEmpty then leastServed (i + 1) bs
    else
      match leastServed (i + 1) bs with
      | none => some (i, b)
      | some (j, c) => if c.served < b.served then some (j, c) else some (i, b)

/-- A random candidate from the bucket to be served, and the list without it. -/
def next [ChoiceSource G] (l : CandidateList V G) : Option (SearchTree V × CandidateList V G) :=
  match leastServed 0 l.buckets with
  | none => none
  | some (i, b) =>
    if h : 0 < b.nodes.length then
      let (pick, source) := ChoiceSource.below b.nodes.length h l.source
      let served := ⟨b.served + 1, swapRemove b.nodes pick⟩
      some (b.nodes[pick], ⟨l.buckets.set i served, source⟩)
    else none

/-- Takes out the next candidate. The count of its bucket has to have room for one more serving. -/
def serve [ChoiceSource G] (l : CandidateList V G) : Except Fault (Option (SearchTree V × CandidateList V G)) :=
  match leastServed 0 l.buckets with
  | none => .ok none
  | some (_, b) => if b.served < Bucket.maxServed then .ok l.next else .error (.overrun .addition)

def served (l : CandidateList V G) : List Nat := l.buckets.map (·.served)

def waiting (l : CandidateList V G) : List Nat := l.buckets.map (·.nodes.length)

def nodes (l : CandidateList V G) : List (SearchTree V) := l.buckets.flatMap (·.nodes)

def size (l : CandidateList V G) : Nat := l.nodes.length

def isEmpty (l : CandidateList V G) : Bool := l.buckets.all (·.nodes.isEmpty)

private def column (n : Nat) : String :=
  let digits := toString n
  " " ++ String.ofList (List.replicate (5 - digits.length) ' ') ++ digits

private def line (name : String) (numbers : List Nat) : String :=
  name ++ String.join (numbers.map column) ++ "\n"

def text (l : CandidateList V G) : String :=
  line "stones    " (List.range l.buckets.length) ++ line "served    " l.served ++
    line "candidates" l.waiting

end CandidateList
end HexGame

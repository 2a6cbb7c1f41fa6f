import HexGame.MonteCarlo.Search
import HexGame.Pattern.Bundled
import HexGame.Text.Number

/-!
# Arguments of the command line

A command has options, each given at most once, and may take further words. A value follows its option as
the next argument, after an equals sign, or right after a short name. Arguments are read from left to
right, and whatever breaks these rules is one and the same usage error, unless help was asked for
before.
-/
namespace HexGame
namespace Command

inductive Key where
  | size
  | patterns
  | budget
  | workers
  | threshold
  | maxTasks
  | lengthWeighted
  | virtualTerminal
  | tree
  | seed
  | hybridAt
  deriving DecidableEq, Repr

/-- The value of an option. A flag has none. -/
inductive Value where
  | flag
  | number (n : Nat)
  | text (s : String)
  deriving DecidableEq, Repr

def readWord (s : List Char) : Option Nat := (Text.readNat Text.maxWord s).toOption

/-- A number of 32 bits. It is read as a signed number, so zero may carry a minus sign. -/
def readHalfWord : List Char → Option Nat
  | '-' :: '+' :: _ => none
  | '-' :: s => (Text.readNat 0 s).toOption
  | s => (Text.readNat (UInt32.size - 1) s).toOption

def Key.read (k : Key) (s : List Char) : Option Value :=
  match k with
  | .size | .budget | .workers | .maxTasks | .seed | .hybridAt => (readWord s).map .number
  | .threshold => (readHalfWord s).map .number
  | .patterns => if s.isEmpty then none else some (.text (String.ofList s))
  | .lengthWeighted | .virtualTerminal | .tree => some .flag

/-- The names of an option, the name of its value and its help. -/
structure OptionForm where
  key : Key
  long : String
  short : Option Char
  value : Option String
  help : String

def OptionForm.takesValue (f : OptionForm) : Bool := f.value.isSome

def defaultSize : Nat := 6

/-- Milliseconds that a search may take. -/
def defaultBudget : Nat := 1000

def defaultWorkers : Nat := 2

/-- Visits that make a node a sample. -/
def defaultThreshold : Nat := 100

def commonOptions : List OptionForm :=
  [⟨.size, "size", some 's', some "SIZE", s!"Board size [default: {defaultSize}]"⟩,
    ⟨.patterns, "patterns", some 'p', some "PATTERNS",
      s!"Pattern catalogue [default: {defaultCataloguePath}]"⟩,
    ⟨.budget, "budget-ms", some 'b', some "BUDGET_MS",
      s!"Time budget per search, in milliseconds [default: {defaultBudget}]"⟩]

inductive Topic where
  | sample
  | search
  | play
  | help
  deriving DecidableEq, Repr

namespace Topic

def all : List Topic := [sample, search, play, help]

def name : Topic → String
  | sample => "sample"
  | search => "ab"
  | play => "play"
  | help => "help"

def ofName? (s : String) : Option Topic := all.find? (·.name = s)

def options : Topic → List OptionForm
  | sample => commonOptions ++
    [⟨.workers, "workers", some 'w', some "WORKERS", s!"Worker threads [default: {defaultWorkers}]"⟩,
      ⟨.threshold, "threshold", some 't', some "THRESHOLD",
        s!"Visits a node needs to be sampled [default: {defaultThreshold}]"⟩,
      ⟨.maxTasks, "max-tasks", none, some "MAX_TASKS", "Stop after this many sub-searches"⟩,
      ⟨.lengthWeighted, "length-weighted", none, none, "Score wins by how early they happen"⟩,
      ⟨.virtualTerminal, "virtual-terminal", none, none,
        "End playouts once a side holds a virtual connection"⟩]
  | search => commonOptions ++
    [⟨.tree, "tree", none, none, "Print the search tree of the deepest round"⟩]
  | play => commonOptions ++
    [⟨.seed, "seed", none, some "SEED", "Seed for the MCTS player"⟩,
      ⟨.hybridAt, "hybrid-at", none, some "HYBRID_AT",
        "Let red open with alpha-beta and switch to MCTS at this many stones"⟩]
  | help => []

def takesWords (t : Topic) : Bool := t = search

end Topic

/-- The options and the other words of a command, in the order in which they were given. -/
structure Given where
  options : List (Key × Value)
  words : List String

namespace Given

def nothing : Given := ⟨[], []⟩

/-- An option is given once at most, and its value has to be of its kind. -/
def set (g : Given) (k : Key) (s : List Char) : Option Given :=
  if g.options.any (·.1 = k) then none
  else (k.read s).map fun value => { g with options := g.options ++ [(k, value)] }

def value (g : Given) (k : Key) : Option Value := (g.options.find? (·.1 = k)).map (·.2)

def has (g : Given) (k : Key) : Bool := (g.value k).isSome

def number (g : Given) (k : Key) : Option Nat :=
  match g.value k with
  | some (.number n) => some n
  | _ => none

def text (g : Given) (k : Key) : Option String :=
  match g.value k with
  | some (.text s) => some s
  | _ => none

end Given

/-- Why the reading of arguments ends before the last of them. -/
inductive Stop where
  | usage
  | help
  deriving DecidableEq, Repr

/-- What an argument that looks like an option asks for. -/
inductive Reading where
  | setting (k : Key) (value : List Char)
  /-- The next argument is the value. -/
  | pending (k : Key)
  | help

/-- Reads what follows a single hyphen. Letters after a flag are further options, but no flag has a
short name except the one for help. -/
def readShort (forms : List OptionForm) : List Char → Option Reading
  | [] => none
  | c :: rest =>
    match forms.find? (·.short = some c), rest with
    | some form, [] => some (.pending form.key)
    | some form, '=' :: value => some (.setting form.key value)
    | some form, value => some (.setting form.key value)
    | none, _ => if c = 'h' then some .help else none

def readLong (forms : List OptionForm) (s : List Char) : Option Reading :=
  let name := s.takeWhile (· ≠ '=')
  match forms.find? (·.long.toList = name), s.dropWhile (· ≠ '=') with
  | some form, [] => some (if form.takesValue then .pending form.key else .setting form.key [])
  | some form, _ :: value => if form.takesValue then some (.setting form.key value) else none
  | none, rest => if name = "help".toList ∧ rest = [] then some .help else none

/-- An argument that is not taken for an option: it does not begin with a hyphen, or is one. -/
def isPlain : List Char → Bool
  | ['-'] => true
  | '-' :: _ => false
  | _ => true

def readOption (forms : List OptionForm) : List Char → Option Reading
  | '-' :: '-' :: s => readLong forms s
  | s => readShort forms (s.drop 1)

def orUsage {α : Type} : Option α → Except Stop α
  | some a => .ok a
  | none => .error .usage

/-- Reads the arguments of a command. Two hyphens end the options. -/
def readArguments (t : Topic) (g : Given) : List (List Char) → Except Stop Given
  | [] => .ok g
  | arg :: args =>
    if isPlain arg then
      if t.takesWords then
        readArguments t { g with words := g.words ++ [String.ofList arg] } args
      else .error .usage
    else if arg = ['-', '-'] then
      if t.takesWords || args.isEmpty then
        .ok { g with words := g.words ++ args.map String.ofList }
      else .error .usage
    else
      match readOption t.options arg, args with
      | none, _ => .error .usage
      | some .help, _ => .error .help
      | some (.setting k value), args => do readArguments t (← orUsage (g.set k value)) args
      | some (.pending _), [] => .error .usage
      | some (.pending k), value :: args =>
        if isPlain value then do readArguments t (← orUsage (g.set k value)) args
        else .error .usage

structure Common where
  size : Nat
  patterns : String
  budget : Nat

structure SampleSettings where
  common : Common
  workers : Nat
  threshold : Nat
  maxTasks : Option Nat
  lengthWeighted : Bool
  virtualTerminal : Bool

structure SearchSettings where
  common : Common
  moves : List String
  tree : Bool

structure PlaySettings where
  common : Common
  seed : Option Nat
  hybridAt : Option Nat

namespace Given

def common (g : Given) : Common where
  size := (g.number .size).getD defaultSize
  patterns := (g.text .patterns).getD defaultCataloguePath
  budget := (g.number .budget).getD defaultBudget

def sample (g : Given) : SampleSettings where
  common := g.common
  workers := (g.number .workers).getD defaultWorkers
  threshold := (g.number .threshold).getD defaultThreshold
  maxTasks := g.number .maxTasks
  lengthWeighted := g.has .lengthWeighted
  virtualTerminal := g.has .virtualTerminal

def search (g : Given) : SearchSettings := ⟨g.common, g.words, g.has .tree⟩

def play (g : Given) : PlaySettings := ⟨g.common, g.number .seed, g.number .hybridAt⟩

end Given

inductive Invocation where
  | sample (settings : SampleSettings)
  | search (settings : SearchSettings)
  | play (settings : PlaySettings)
  /-- Help on a command, or on all of them. -/
  | help (topic : Option Topic)
  | version
  | usage

namespace Invocation

/-- What a command and its arguments stand for. -/
def ofCommand (t : Topic) (args : List String) : Invocation :=
  match readArguments t .nothing (args.map String.toList) with
  | .error .usage => usage
  | .error .help => help (some t)
  | .ok g =>
    match t with
    | .sample => sample g.sample
    | .search => search g.search
    | .play => play g.play
    | .help => usage

/-- Help is asked for on one command at most. -/
def ofHelp : List String → Invocation
  | [] => help none
  | [name] =>
    match Topic.ofName? name with
    | some t => help (some t)
    | none => usage
  | _ => usage

def ofOption : List Char → Invocation
  | '-' :: '-' :: name =>
    if name = "help".toList then help none
    else if name = "version".toList then version
    else usage
  | '-' :: 'h' :: _ => help none
  | '-' :: 'V' :: _ => version
  | _ => usage

def read : List String → Invocation
  | [] => usage
  | name :: args =>
    match Topic.ofName? name with
    | some .help => ofHelp args
    | some t => ofCommand t args
    | none => ofOption name.toList

end Invocation

end Command
end HexGame

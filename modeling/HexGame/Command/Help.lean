import HexGame.Command.Arguments

/-!
# Help

The help on a command is written from the forms of its options: two columns, the left one as wide as its
widest entry.
-/
namespace HexGame
namespace Command

def programName : String := "hexai"

def versionText : String := s!"{programName} 0.1.0\n"

def programAbout : String := s!"{programName}: MCTS and alpha-beta engines for Hex"

namespace Topic

def about : Topic → String
  | sample => "Run parallel MCTS and print one CSV line per well-visited node"
  | search => "Search one position with alpha-beta"
  | play => "Play MCTS or the hybrid player (red) against alpha-beta (blue)"
  | help => "Print this message or the help of the given subcommand(s)"

def operands : Topic → String
  | search => "[OPTIONS] [MOVES]..."
  | help => "[COMMAND]..."
  | _ => "[OPTIONS]"

def wordRows : Topic → List (String × String)
  | search => [("[MOVES]...", "Moves leading to the position, as x,y, alternating from red")]
  | help => [("[COMMAND]...", "Print help for the subcommand(s)")]
  | _ => []

end Topic

/-- The names of an option, with room for a short one. -/
def OptionForm.names (f : OptionForm) : String :=
  let short := match f.short with
    | some c => String.ofList ['-', c, ',', ' ']
    | none => "    "
  let value := match f.value with
    | some name => s!" <{name}>"
    | none => ""
  short ++ "--" ++ f.long ++ value

def helpRow : String × String := ("-h, --help", "Print help")

def versionRow : String × String := ("-V, --version", "Print version")

/-- Rows under a title, the second entries below each other. -/
def titled (title : String) (rows : List (String × String)) : String :=
  let width := rows.foldl (fun w r => max w r.1.length) 0
  let row (r : String × String) : String :=
    "  " ++ r.1 ++ String.ofList (List.replicate (width - r.1.length) ' ') ++ "  " ++ r.2 ++ "\n"
  title ++ ":\n" ++ String.join (rows.map row)

/-- The sections that have rows, with empty lines between them. -/
def page (about usage : String) (sections : List (String × List (String × String))) : String :=
  let shown := sections.filter fun s => !s.2.isEmpty
  s!"{about}\n\nUsage: {programName} {usage}\n" ++
    String.join (shown.map fun s => "\n" ++ titled s.1 s.2)

/-- The help on a command. Help itself has no options. -/
def Topic.page (t : Topic) : String :=
  let options := t.options.map fun f => (f.names, f.help)
  Command.page t.about s!"{t.name} {t.operands}"
    [("Arguments", t.wordRows), ("Options", if t = .help then [] else options ++ [helpRow])]

def helpText : Option Topic → String
  | some t => t.page
  | none =>
    page programAbout "<COMMAND>"
      [("Commands", Topic.all.map fun t => (t.name, t.about)), ("Options", [helpRow, versionRow])]

end Command
end HexGame

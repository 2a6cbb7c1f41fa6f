import HexGame.Command.Execute

/-! # The program -/
namespace HexGame
namespace Command

def cataloguePath (args : List String) : String :=
  match Invocation.read args with
  | .sample s => s.common.patterns
  | .search s => s.common.patterns
  | .play s => s.common.patterns
  | _ => defaultCataloguePath

def readText (path : String) : IO (Except ReadFailure String) := do
  try
    match String.fromUTF8? (← IO.FS.readBinFile path) with
    | some text => return .ok text
    | none => return .error .notText
  catch e =>
    return .error <| match e with
      | .noFileOrDirectory .. => .notFound
      | .inappropriateType .. => .isDirectory
      | e => .other (toString e)

end Command
end HexGame

def main (args : List String) : IO UInt32 := do
  let text ← HexGame.Command.readText (HexGame.Command.cataloguePath args)
  let report := HexGame.Command.execute (fun _ => text) args
  IO.print report.stdout
  IO.eprint report.stderr
  return report.exit.toUInt32

import RegAlloc.Cli.Session

/-!
# The command

Reads the files that the arguments name, and writes the result to standard output or to a file.
-/

namespace RegAlloc.Cli

/-- What is printed if the arguments do not ask for a run. -/
def Stop.text : Stop → String
  | help =>
    "usage: regalloc [-v] [-o FILE] [--max-rounds N] [--no-coalesce] [--no-callee-saved] " ++
      "[--verify] [--report] INPUT..."
  | version => "regalloc 0.1.0"
  | unknownArgument => "error: unknown argument"
  | needlessValue => "error: an option has a value that it does not take"
  | missingInput => "error: no input file"
  | missingValue => "error: an option has no value"
  | invalidValue => "error: an option has a value that is no number"
  | repeated => "error: an option is given twice"

/-- What the system says about a file. -/
def FileError.ofSystem : IO.Error → FileError
  | .noFileOrDirectory .. => .notFound
  | .inappropriateType .. => .isADirectory
  | e => .other (toString e)

/-- Reads a file. -/
def readSource (name : String) : IO (Except FileError String) := do
  try
    let bytes ← IO.FS.readBinFile name
    return (String.fromUTF8? bytes).elim (.error .invalidText) .ok
  catch e => return .error (.ofSystem e)

/-- Whether the terminal is to show colours. -/
def wantsColour : IO Bool := do
  let isOn (name : String) : IO (Option Bool) := do return (← IO.getEnv name).map (· ≠ "0")
  if (← isOn "CLICOLOR_FORCE") = some true then return true
  if (← isOn "NO_COLOR").isSome then return false
  return (← isOn "CLICOLOR").getD true && (← (← IO.getStdout).isTty)

/-- A run with options. -/
def runSession (o : Options) : IO UInt32 := do
  let colour ← wantsColour
  let files ← o.inputs.mapM fun name ↦ do return (name, ← readSource name)
  match Session.run o files with
  | .error _ =>
    IO.eprintln "internal fault"
    return 101
  | .ok s =>
    IO.eprint (messageText o colour s.messages)
    match o.output? with
    | none =>
      IO.print s.output
      return if s.failed then 1 else 0
    | some path =>
      try
        IO.FS.writeFile path s.output
        return if s.failed then 1 else 0
      catch e =>
        IO.eprint (messageText o colour [writeError path (.ofSystem e)])
        return 1

end RegAlloc.Cli

open RegAlloc.Cli in
def main (args : List String) : IO UInt32 := do
  match Options.parse args with
  | .error e =>
    if e.status = 0 then IO.println e.text else IO.eprintln e.text
    return e.status.toUInt32
  | .ok o => runSession o

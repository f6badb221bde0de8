import RegAlloc.Cli.Files
import RegAlloc.Cli.Options
import RegAlloc.Log.Allocation
import RegAlloc.Program.Parser
import RegAlloc.Program.Printer

/-!
# Sessions

A session reads its input files one after the other, allocates the registers of each, and writes
what came out. A file that fails is told, and the others are still worked on.
-/

namespace RegAlloc.Cli

/-- Ends all colours of a terminal. -/
def resetCode : String :=
  "\x1b[0m"

/-- The text in a colour, which goes on where the text itself ends a colour. -/
def paint (code text : String) : String :=
  code ++ text.replace resetCode (resetCode ++ code) ++ resetCode

/-- The settings that the options ask for. -/
def Options.settings (o : Options) : Settings where
  maxRounds := o.maxRounds
  coalesce := !o.noCoalesce
  calleeSaved := !o.noCalleeSaved

/-- What is told on the way. -/
inductive Message where
  | log (line : LogLine)
  /-- Something is wrong at a place in the input. -/
  | error (place text : String)
  | report (text : String)
  deriving DecidableEq, Repr

namespace Message

/-- Whether a message is shown at a verbosity. -/
def isShown (verbosity : Nat) : Message → Bool
  | log line => line.level.verbosity ≤ verbosity
  | _ => true

/-- The text of a message. Errors are red, and information is blue. -/
def text (colour : Bool) : Message → String
  | log line =>
    if colour ∧ line.level = .info then paint "\x1b[34m" line.text else line.text
  | error place text => place ++ ": error: " ++ if colour then paint "\x1b[31m" text else text
  | report text => text

end Message

/-- The line for a function. -/
def summary (r : Report) : String :=
  r.function ++ ": " ++ toString r.rounds ++ " rounds, " ++ toString r.spilled.length ++
    " spilled, " ++ toString r.coalescedMoves ++ " moves coalesced, " ++
    toString r.removedMoves ++ " moves removed, " ++ toString r.calleeSaved.length ++
    " callee saved, frame " ++ toString r.frameSize ++ " bytes"

/-- What came out of an input file: messages, and the text unless it failed. -/
structure Processed where
  messages : List Message
  text? : Option String

/-- The place of an error in a file. -/
def placeText (name : String) (p : Position) : String :=
  name ++ ":" ++ toString p.line ++ ":" ++ toString p.column

/-- Allocates the registers of a program. Slots are handed out in the order of the registers. -/
def allocateProgram (o : Options) (name : String) (program : Program) : Except Fault Processed := do
  let allocated ← program.allocate (fun _ ↦ .ascending) .riscv32 o.settings
  let log := (allocated.logLines .riscv32 o.settings).map Message.log
  match allocated.result with
  | .error e => return { messages := log ++ [.error name e.message], text? := none }
  | .ok reports =>
    let summaries := if o.report then reports.map fun r ↦ Message.report (summary r) else []
    return { messages := log ++ summaries, text? := some allocated.program.text }

/-- Allocates the registers of one file by its contents. -/
def processFile (o : Options) (name : String) (contents : Except FileError String) :
    Except Fault Processed :=
  let failed (place text : String) : Except Fault Processed :=
    .ok { messages := [.error place text], text? := none }
  match contents with
  | .error e => failed name ("could not read input: " ++ e.message)
  | .ok text =>
    match Program.parse .riscv32 text with
    | .error (.fault f) => .error f
    | .error (.error e) => failed (placeText name e.position) e.cause.message
    | .ok program => do
      let parsed : LogLine :=
        ⟨.debug, .reader, "Parsed " ++ toString program.functions.length ++ " functions and " ++
          toString program.globals.length ++ " globals"⟩
      let processed ← allocateProgram o name program
      return { processed with messages := .log parsed :: processed.messages }

/-- What came out of all the input files. -/
structure Session where
  messages : List Message
  /-- The texts of the files that did not fail. -/
  output : String
  failed : Bool

/-- Works on all the files, whose contents are given. -/
def Session.run (o : Options) (files : List (String × Except FileError String)) :
    Except Fault Session := do
  let processed ← files.mapM fun (name, contents) ↦ do
    let p ← processFile o name contents
    return { p with messages := .log ⟨.info, .driver, "Allocating " ++ name⟩ :: p.messages }
  return {
    messages := .log ⟨.info, .driver, "driver started"⟩ :: processed.flatMap (·.messages)
    output := String.join (processed.filterMap (·.text?))
    failed := processed.any (·.text?.isNone) }

/-- That the output could not be written. -/
def writeError (path : String) (e : FileError) : Message :=
  .error path ("could not write output: " ++ e.message)

/-- The text of the messages that are shown. -/
def messageText (o : Options) (colour : Bool) (messages : List Message) : String :=
  Text.unlines ((messages.filter (·.isShown o.verbosity)).map (·.text colour))

/-- What a run of the command leaves behind. -/
structure Result where
  status : Nat
  stdout : String
  stderr : String
  files : Files

/-- Runs the command with options in a working directory. -/
def run (o : Options) (colour : Bool) (files : Files) : Except Fault Result := do
  let s ← Session.run o (o.inputs.map fun name ↦ (name, files.read name))
  let status := if s.failed then 1 else 0
  match o.output? with
  | none => return { status, stdout := s.output, stderr := messageText o colour s.messages, files }
  | some path =>
    match files.write path s.output with
    | .ok files => return { status, stdout := "", stderr := messageText o colour s.messages, files }
    | .error e =>
      return { status := 1, stdout := "",
               stderr := messageText o colour (s.messages ++ [writeError path e]), files }

end RegAlloc.Cli

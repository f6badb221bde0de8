import RegAlloc.Instr.Parser
import RegAlloc.Program.Basic

/-!
# Reading programs

A text is read line by line. A comment goes from `#` to the end of its line; blanks around a line
and empty lines have no meaning. Outside of functions a line is a global or opens a function; inside
it closes the function, is a label, or is an instruction of the last labelled block.

Reading stops at the first line that is wrong.
-/

namespace RegAlloc

open Text

/-- A line and the column in bytes of its first character that is not blank, both from one. -/
structure Position where
  line : Nat
  column : Nat
  deriving DecidableEq, Repr

/-- What is wrong with a text, and where. -/
structure ParseError where
  position : Position
  cause : ParseCause
  deriving DecidableEq, Repr

/-- The wording of the error. -/
def ParseError.message (e : ParseError) : String :=
  toString e.position.line ++ ":" ++ toString e.position.column ++ ": " ++ e.cause.message

/-- The lines of a text that have something to read, without comments and without the blanks around
them. -/
def contentLines (text : List Char) : List (Position × List Char) :=
  (fields '\n' text).zipIdx.filterMap fun (line, i) ↦
    let line := uncommented line
    let content := trim line
    if content.isEmpty then none
    else some (⟨i + 1, byteLength (line.takeWhile isBlank) + 1⟩, content)

/-- What has been read: the program up to here, and the function that is still open. -/
structure Reader where
  program : Program := {}
  current? : Option (Function × Position) := none
  deriving DecidableEq, Repr

namespace Reader

/-- A line outside of functions. -/
def readOuter (r : Reader) (position : Position) (line : List Char) : Reading Reader :=
  let unexpected := refuse (.unexpected (String.ofList line))
  match after? "global ".toList line with
  | some rest =>
    match cut? (· = '=') rest with
    | none => unexpected
    | some (name, value) => do
      let value ← readImm (trim value)
      let declared : Global := { name := String.ofList (trim name), value }
      return { r with program.globals := r.program.globals ++ [declared] }
  | none =>
    match after? "fn ".toList line with
    | none => unexpected
    | some rest =>
      match before? '\x7b' rest with
      | none => unexpected
      | some name =>
        if (trim name).isEmpty then unexpected
        else .ok { r with current? := some ({ name := String.ofList (trim name) }, position) }

/-- A line inside of the function `f`, which is not its last one. -/
def readInner (catalog : Catalog) (f : Function) (line : List Char) : Reading Function :=
  match before? ':' line with
  | some label =>
    if label.any isBlank || label.isEmpty then refuse (.unexpected (String.ofList line))
    else .ok { f with blocks := f.blocks ++ [{ label := String.ofList label }] }
  | none => do
    let i ← Instr.read catalog line
    match f.toRoutine.append? i with
    | none => refuse .outsideBlock
    | some routine => return { f with toRoutine := routine }

/-- One line. -/
def readLine (catalog : Catalog) (r : Reader) (position : Position) (line : List Char) :
    Reading Reader :=
  match r.current? with
  | none => r.readOuter position line
  | some (f, start) =>
    if line = ['\x7d'] then
      .ok { program.globals := r.program.globals, program.functions := r.program.functions ++ [f] }
    else do
      let f ← readInner catalog f line
      return { r with current? := some (f, start) }

/-- All the lines in order. -/
def readLines (catalog : Catalog) (r : Reader) :
    List (Position × List Char) → Except (Failure ParseError) Reader
  | [] => .ok r
  | (position, line) :: lines =>
    match r.readLine catalog position line with
    | .ok r => readLines catalog r lines
    | .error e => .error (e.map (ParseError.mk position))

end Reader

/-- The program that a text describes. -/
def Program.parse (catalog : Catalog) (text : String) : Except (Failure ParseError) Program := do
  let r ← Reader.readLines catalog {} (contentLines text.toList)
  match r.current? with
  | none => .ok r.program
  | some (f, start) => .error (.error ⟨start, .unclosedFunction f.name⟩)

end RegAlloc

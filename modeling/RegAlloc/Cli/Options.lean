import RegAlloc.Text.Numeral
import RegAlloc.Text.Piece

/-!
# Command line options

The arguments are input files and options. An option has a long name behind two hyphens, and some
have a letter behind one; letters of flags can stand together. The value of an option follows it as
the next argument, behind an equals sign, or directly behind the letter. After an argument of two
hyphens alone all the others are files, and one hyphen alone is a file too.

Arguments that are no options at all are refused first, then a command line without files, and then
values that are missing or wrong, or options that are repeated.
-/

namespace RegAlloc.Cli

open Text

/-- What the command line asks for. -/
structure Options where
  inputs : List String
  output? : Option String := none
  maxRounds : Nat := 16
  noCoalesce : Bool := false
  noCalleeSaved : Bool := false
  /-- Asks for checks of the allocator's invariants. They are made in any case. -/
  verify : Bool := false
  report : Bool := false
  verbosity : Nat := 0
  deriving DecidableEq, Repr

/-- Why there is nothing to run. -/
inductive Stop where
  | help
  | version
  | unknownArgument
  | needlessValue
  | missingInput
  | missingValue
  | invalidValue
  | repeated
  deriving DecidableEq, Repr

/-- The exit status without a run. -/
def Stop.status : Stop → Nat
  | help | version => 0
  | _ => 2

/-- The options. -/
inductive Key where
  | output
  | maxRounds
  | noCoalesce
  | noCalleeSaved
  | verify
  | report
  | verbose
  | help
  | version
  deriving DecidableEq, Repr

namespace Key

def all : List Key :=
  [output, maxRounds, noCoalesce, noCalleeSaved, verify, report, verbose, help, version]

def name : Key → String
  | output => "output"
  | maxRounds => "max-rounds"
  | noCoalesce => "no-coalesce"
  | noCalleeSaved => "no-callee-saved"
  | verify => "verify"
  | report => "report"
  | verbose => "verbose"
  | help => "help"
  | version => "version"

def letter? : Key → Option Char
  | output => some 'o'
  | verbose => some 'v'
  | help => some 'h'
  | version => some 'V'
  | _ => none

/-- Whether the option has a value. -/
def takesValue : Key → Bool
  | output | maxRounds => true
  | _ => false

/-- Whether the option can be given more than once. -/
def isRepeatable (k : Key) : Bool :=
  k = verbose

/-- Whether a value is one of the option's. -/
def accepts (k : Key) (value : String) : Bool :=
  k ≠ maxRounds || (unsigned? 10 UInt64.size value.toList).isSome

def ofName? (name : List Char) : Option Key :=
  all.find? (·.name.toList = name)

def ofLetter? (c : Char) : Option Key :=
  all.find? (·.letter? = some c)

end Key

/-- An option as it was given, with its value if there was one. -/
structure Given where
  key : Key
  value? : Option String := none
  deriving DecidableEq, Repr

/-- What has been read of the arguments. -/
structure Scan where
  inputs : List String := []
  given : List Given := []
  /-- The option whose value comes next. -/
  pending? : Option Key := none
  /-- Whether all that follows are files. -/
  onlyInputs : Bool := false
  deriving DecidableEq, Repr

namespace Scan

/-- A flag; two of them end the run at once. -/
def addFlag (s : Scan) (k : Key) : Except Stop Scan :=
  match k with
  | .help => .error .help
  | .version => .error .version
  | k => .ok { s with given := s.given ++ [{ key := k }], pending? := none }

/-- An option with its value, or without it if that comes next. An equals sign in front of the value
is no part of it. -/
def addOption (s : Scan) (k : Key) (attached : List Char) : Scan :=
  match attached with
  | [] => { s with given := s.given ++ [{ key := k }], pending? := some k }
  | cs =>
    let value := String.ofList ((after? ['='] cs).getD cs)
    { s with given := s.given ++ [{ key := k, value? := some value }], pending? := none }

/-- An option by its long name, which an equals sign ends. -/
def readLong (s : Scan) (text : List Char) : Except Stop Scan :=
  let attached := text.dropWhile (· ≠ '=')
  match Key.ofName? (text.takeWhile (· ≠ '=')) with
  | none => .error .unknownArgument
  | some k =>
    if k.takesValue then .ok (s.addOption k attached)
    else if attached.isEmpty then s.addFlag k
    else .error .needlessValue

/-- Options by their letters. The first one that takes a value has the rest of the letters as its
value. -/
def readShort (s : Scan) : List Char → Except Stop Scan
  | [] => .ok s
  | c :: cs =>
    match Key.ofLetter? c with
    | none => .error .unknownArgument
    | some k =>
      if k.takesValue then .ok (s.addOption k cs)
      else
        match s.addFlag k with
        | .error e => .error e
        | .ok s => s.readShort cs

/-- An argument that is no option: a file, or the value that comes next. -/
def readPlain (s : Scan) (arg : String) : Scan :=
  match s.pending? with
  | some k =>
    if s.onlyInputs then { s with inputs := s.inputs ++ [arg], pending? := none }
    else
      { s with
        given := s.given.dropLast ++ [{ key := k, value? := some arg }]
        pending? := none }
  | none => { s with inputs := s.inputs ++ [arg] }

/-- One argument. -/
def read (s : Scan) (arg : String) : Except Stop Scan :=
  if s.onlyInputs then .ok (s.readPlain arg)
  else
    match arg.toList with
    | ['-', '-'] => .ok { s with onlyInputs := true }
    | '-' :: '-' :: name => s.readLong name
    | '-' :: c :: cs => s.readShort (c :: cs)
    | _ => .ok (s.readPlain arg)

/-- How often an option was given. -/
def count (s : Scan) (k : Key) : Nat :=
  s.given.countP (·.key = k)

/-- The values that an option was given. -/
def values (s : Scan) (k : Key) : List String :=
  (s.given.filter (·.key = k)).filterMap (·.value?)

/-- What is wrong with how an option was given. -/
def fault? (s : Scan) (k : Key) : Option Stop :=
  if k.takesValue ∧ (s.values k).isEmpty then some .missingValue
  else if (s.values k).any (!k.accepts ·) then some .invalidValue
  else if !k.isRepeatable ∧ 1 < s.count k then some .repeated
  else none

/-- What is wrong with the arguments as a whole. A last option without its value comes before the
others, which come in the order in which they were given first. -/
def stop? (s : Scan) : Option Stop :=
  if s.inputs.isEmpty then some .missingInput
  else if s.pending?.any fun k ↦ (s.values k).isEmpty then some .missingValue
  else (s.given.map (·.key)).findSome? s.fault?

/-- The options that were given. The verbosity is a number of 8 bits. -/
def options (s : Scan) : Options where
  inputs := s.inputs
  output? := (s.values .output).head?
  maxRounds :=
    ((s.values .maxRounds).head?.bind fun v ↦ unsigned? 10 UInt64.size v.toList).getD 16
  noCoalesce := s.count .noCoalesce ≠ 0
  noCalleeSaved := s.count .noCalleeSaved ≠ 0
  verify := s.count .verify ≠ 0
  report := s.count .report ≠ 0
  verbosity := s.count .verbose % 256

end Scan

/-- The options that the arguments ask for. -/
def Options.parse (args : List String) : Except Stop Options := do
  let s ← args.foldlM Scan.read {}
  match s.stop? with
  | some e => .error e
  | none => .ok s.options

end RegAlloc.Cli

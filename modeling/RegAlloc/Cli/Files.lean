import RegAlloc.Text.Piece

/-!
# A working directory

A directory with files, and with one directory in it that may get files too. Paths are relative to
it.
-/

namespace RegAlloc.Cli

open Text

/-- Why a file cannot be read or written. -/
inductive FileError where
  | notFound
  | notADirectory
  | isADirectory
  /-- The path holds a null character. -/
  | nullInPath
  /-- The contents are no text in UTF-8. -/
  | invalidText
  /-- Any other reason, in the words of the system. -/
  | other (message : String)
  deriving DecidableEq, Repr

/-- The wording of the error. -/
def FileError.message : FileError → String
  | notFound => "No such file or directory (os error 2)"
  | notADirectory => "Not a directory (os error 20)"
  | isADirectory => "Is a directory (os error 21)"
  | nullInPath => "file name contained an unexpected NUL byte"
  | invalidText => "stream did not contain valid UTF-8"
  | other message => message

/-- The name of the directory that the working directory holds. -/
def directoryName : String :=
  "directory"

/-- The files by their paths from the working directory. -/
structure Files where
  contents : List (List String × ByteArray) := []

/-- What a path leads to. -/
inductive Place where
  | directory (path : List String)
  | file (path : List String) (bytes : ByteArray)
  /-- Nothing, but its directory exists. -/
  | free (path : List String)

namespace Files

/-- Whether there is a directory at a path. -/
def isDirectory (path : List String) : Bool :=
  path = [] || path = [directoryName]

/-- What is at a path whose directory exists. -/
def lookup (files : Files) (path : List String) : Place :=
  if isDirectory path then .directory path
  else
    match files.contents.lookup path with
    | some bytes => .file path bytes
    | none => .free path

/-- One step along a path. Names that are empty stand for the directory that has been reached;
nothing is known of what is outside of the working directory. -/
def follow (files : Files) (place : Place) (name : String) : Except FileError Place :=
  match place with
  | .file .. => .error .notADirectory
  | .free _ => .error .notFound
  | .directory path =>
    if name = "" ∨ name = "." then .ok place
    else if name = ".." then
      match path with
      | [] => .error .notFound
      | _ => .ok (.directory path.dropLast)
    else .ok (files.lookup (path ++ [name]))

/-- What a path leads to. -/
def resolve (files : Files) (path : List Char) : Except FileError Place :=
  if '\x00' ∈ path then .error .nullInPath
  else
    match path with
    | [] | '/' :: _ => .error .notFound
    | cs => ((fields '/' cs).map String.ofList).foldlM files.follow (.directory [])

/-- The text of a file. -/
def read (files : Files) (path : String) : Except FileError String := do
  match ← files.resolve path.toList with
  | .directory _ => .error .isADirectory
  | .free _ => .error .notFound
  | .file _ bytes =>
    match String.fromUTF8? bytes with
    | some text => .ok text
    | none => .error .invalidText

/-- Writes a text to a file, which is made if there is none. A path that ends in a slash can only be
that of a directory. -/
def write (files : Files) (path text : String) : Except FileError Files := do
  let bare := (path.toList.reverse.dropWhile (· = '/')).reverse
  match ← files.resolve bare with
  | .directory _ => .error .isADirectory
  | .free place | .file place _ =>
    if bare.length < path.length then .error .isADirectory
    else .ok { contents := (place, text.toUTF8) :: files.contents }

/-- The files with the given paths from the working directory. -/
def ofPaths (files : List (String × ByteArray)) : Files where
  contents := files.map fun (path, bytes) ↦ ((fields '/' path.toList).map String.ofList, bytes)

end Files

end RegAlloc.Cli

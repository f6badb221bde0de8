import RegAlloc.Text.Blank

/-!
# Pieces of text

Cutting a text, held as a list of characters, into lines, fields and words.
-/

namespace RegAlloc.Text

/-- The text without the blanks in front of it. -/
def trimStart (cs : List Char) : List Char :=
  cs.dropWhile isBlank

/-- The text without the blanks behind it. -/
def trimEnd (cs : List Char) : List Char :=
  (cs.reverse.dropWhile isBlank).reverse

/-- The text without the blanks on both sides. -/
def trim (cs : List Char) : List Char :=
  trimEnd (trimStart cs)

/-- The parts before and after the first character that satisfies `p`, if there is one. -/
def cut? (p : Char → Bool) : List Char → Option (List Char × List Char)
  | [] => none
  | c :: cs =>
    if p c then some ([], cs)
    else (cut? p cs).map fun (before, after) ↦ (c :: before, after)

/-- The fields between the characters equal to `sep`; there is always at least one. -/
def fields (sep : Char) : List Char → List (List Char)
  | [] => [[]]
  | c :: cs =>
    if c = sep then [] :: fields sep cs
    else
      match fields sep cs with
      | [] => [[c]]
      | field :: rest => (c :: field) :: rest

/-- What follows `start` in a text that starts with it. -/
def after? : (start : List Char) → List Char → Option (List Char)
  | [], cs => some cs
  | s :: start, c :: cs => if s = c then after? start cs else none
  | _ :: _, [] => none

/-- What stands in front of a last character equal to `last`. -/
def before? (last : Char) (cs : List Char) : Option (List Char) :=
  if cs.getLast? = some last then some cs.dropLast else none

/-- The text in front of the first `#`. -/
def uncommented (cs : List Char) : List Char :=
  cs.takeWhile (· ≠ '#')

/-- The number of bytes of a text in UTF-8. -/
def byteLength : List Char → Nat
  | [] => 0
  | c :: cs => c.utf8Size + byteLength cs

end RegAlloc.Text

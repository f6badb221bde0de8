/-!
# Listings

How lists, numbers and lines are put together in what the allocator writes.
-/

namespace RegAlloc.Text

/-- The texts with commas between them. -/
def commaSeparated (texts : List String) : String :=
  String.intercalate ", " texts

/-- The numbers in brackets with commas between them. -/
def bracketed (numbers : List Nat) : String :=
  "[" ++ commaSeparated (numbers.map toString) ++ "]"

/-- The lines with their ends. -/
def unlines (lines : List String) : String :=
  String.join (lines.map (· ++ "\n"))

/-- The text behind as many blanks as it is shorter than `width`. -/
def padStart (width : Nat) (text : String) : String :=
  String.ofList (List.replicate (width - text.length) ' ') ++ text

end RegAlloc.Text

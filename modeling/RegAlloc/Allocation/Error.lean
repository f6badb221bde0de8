/-!
# Allocation errors

What can keep a function from getting its registers.
-/

namespace RegAlloc

/-- The errors, with the name of the function. -/
inductive AllocationError where
  | emptyFunction (function : String)
  | unknownLabel (function label : String)
  /-- Some registers are still spilled after the last round that is allowed. -/
  | spillDidNotConverge (function : String) (rounds : Nat)
  deriving DecidableEq, Repr

/-- The wording of the error. -/
def AllocationError.message : AllocationError → String
  | emptyFunction f => "function `" ++ f ++ "` has no blocks"
  | unknownLabel f label => "function `" ++ f ++ "` jumps to unknown label `" ++ label ++ "`"
  | spillDidNotConverge f rounds =>
    "function `" ++ f ++ "` still spills after " ++ toString rounds ++ " rounds"

end RegAlloc

import RegAlloc.Analysis
import RegAlloc.Colouring.Cost
import RegAlloc.Colouring.Select

/-!
# Rounds

One attempt to colour the registers of a function, from its analysis to the colours.
-/

namespace RegAlloc

/-- What one attempt has found out about a function over `r` registers. -/
structure Round (r : Nat) where
  analysis : Analysis r
  interference : Interference r
  costs : Vector Float r
  colouring : Colouring r interference.moves.length

namespace Round

/-- The registers that found no colour, in ascending order. -/
def spills {r : Nat} (round : Round r) : List Nat :=
  (round.colouring.work.spilled.map Fin.val).mergeSort

end Round

/-- The problem of colouring a function with some moves. -/
def Catalog.problem (catalog : Catalog) {r : Nat} (moves : List (Move r)) :
    ColouringProblem r moves.length where
  moves := ⟨moves.toArray, List.size_toArray⟩
  firstColour := catalog.firstColour
  k := catalog.colourCount

/-- Colours a graph whose nodes, up to those that are `retired`, are to be coloured. The colours are
checked at the end. -/
def Colouring.attempt {n m : Nat} (p : ColouringProblem n m) (choose : SpillChoice n m)
    (retired : List Nat) (g : Graph n (Fin m)) : Except Fault (Colouring n m) := do
  let s ← (start g).makeWorklist p (unretired g retired)
  let s ← s.run p choose
  let s ← s.assignColours p
  if s.hasRightColours then .ok s else .error .colourClash

/-- An attempt to colour the registers of a routine with the given block graph. -/
def Routine.round (f : Routine) (catalog : Catalog) (g : BlockGraph f.blocks.length)
    (coalesce : Bool) (retired : List Nat) : Except Fault (Round (f.numbering catalog).size) := do
  let analysis ← f.analyze catalog g
  let interference ← analysis.interference? f.vregCount coalesce
  let costs := analysis.flow.accessCosts
  let colouring ←
    Colouring.attempt (catalog.problem interference.moves) (cheapest costs) retired
      interference.graph
  return { analysis, interference, costs, colouring }

end RegAlloc

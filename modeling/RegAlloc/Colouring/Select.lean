import RegAlloc.Colouring.Basic

/-!
# Selecting colours

The nodes that were taken out of the graph come back in reverse order. Each gets the lowest colour
that none of its neighbours has; a node for which none is left is spilled. A coalesced node has the
colour of the node that represents it.
-/

namespace RegAlloc.Colouring

variable {n m : Nat}

/-- The colours of the neighbours that have one. -/
def usedColours (s : Colouring n m) (u : Fin n) : List Nat :=
  (s.graph.adjacency.get u).filterMap fun w ↦
    let w := s.rep w
    match s.node.get w with
    | .coloured | .precoloured => s.colour.get w
    | _ => none

/-- The lowest colour that no neighbour has. -/
def freeColour? (p : ColouringProblem n m) (s : Colouring n m) (u : Fin n) : Option Nat :=
  let used := s.usedColours u
  (List.range' p.firstColour p.k).find? (· ∉ used)

/-- Gives a node a colour. -/
def setColour (s : Colouring n m) (u : Fin n) (c : Nat) : Colouring n m :=
  { s with colour := s.colour.set u (some c) u.isLt }

/-- Colours a node, or spills it. -/
def colourNode (p : ColouringProblem n m) (s : Colouring n m) (u : Fin n) :
    Except Fault (Colouring n m) :=
  match s.freeColour? p u with
  | some c => (s.setColour u c).transition u .coloured
  | none => (s.note (.noColour u)).transition u .spilled

/-- Gives a node the colour of the node that represents it, if that has one. -/
def inheritColour (s : Colouring n m) (u : Fin n) : Colouring n m :=
  { s with colour := s.colour.set u (s.colour.get (s.rep u)) u.isLt }

/-- Gives the coalesced nodes their colours. -/
def inheritColours (s : Colouring n m) : Colouring n m :=
  s.work.coalesced.foldl inheritColour s

/-- Colours all the selected nodes. -/
def assignColours (p : ColouringProblem n m) (s : Colouring n m) :
    Except Fault (Colouring n m) := do
  let s ← s.work.stack.foldlM (colourNode p) { s.note .select with work.stack := [] }
  return s.inheritColours

/-- Whether precoloured nodes have their own colours, and interfering nodes different ones. -/
def hasRightColours (s : Colouring n m) : Bool :=
  ((List.finRange n).all fun u ↦
    s.node.get u ≠ .precoloured || s.colour.get u = some (u - s.graph.virtuals)) &&
  s.graph.edges.all fun (u, v) ↦ (s.colour.get u).isNone || s.colour.get u ≠ s.colour.get v

end RegAlloc.Colouring

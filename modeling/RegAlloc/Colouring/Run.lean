import RegAlloc.Colouring.Step

/-!
# Runs of a colouring

The work is done in a fixed order: nodes are simplified as long as possible, then moves are looked
at, then nodes are frozen, and last a node is chosen to be spilled. After each step the degrees are
compared with the neighbours. The run ends when no work is left.
-/

namespace RegAlloc

/-- How to choose a node to spill from a list that is not empty. -/
abbrev SpillChoice (n m : Nat) :=
  Colouring n m → (u : Fin n) → (us : List (Fin n)) → { w : Fin n // w ∈ u :: us }

namespace Colouring

variable {n m : Nat}

/-- The nodes that are to be coloured: the virtual registers but for those that are `retired`. -/
def unretired (g : Graph n (Fin m)) (retired : List Nat) : List (Fin n) :=
  (List.finRange n).filter fun (u : Fin n) ↦ !g.isPrecoloured u && u.val ∉ retired

/-- Sorts a node into the work by its degree and moves. -/
def enlist (p : ColouringProblem n m) (s : Colouring n m) (u : Fin n) :
    Except Fault (Colouring n m) :=
  s.transition u <|
    if p.k ≤ s.graph.degree.get u then .spill else if s.isMoveRelated u then .freeze else .simplify

/-- Sorts the given nodes into the work. -/
def makeWorklist (p : ColouringProblem n m) (s : Colouring n m) (us : List (Fin n)) :
    Except Fault (Colouring n m) :=
  us.foldlM (enlist p) s

/-- The next step, if work is left. -/
def step? (p : ColouringProblem n m) (choose : SpillChoice n m) (s : Colouring n m) :
    Option (Except Fault (Colouring n m)) :=
  match s.work.simplify.toList, s.work.worklistMoves.toList, s.work.freeze.toList,
    s.work.spill.toList with
  | u :: _, _, _, _ => some (s.simplify p u)
  | [], i :: _, _, _ => some (s.coalesce p i)
  | [], [], u :: _, _ => some (s.freeze p u)
  | [], [], [], u :: us => some (s.selectSpill p (choose s u us))
  | [], [], [], [] => none

/-- Whether the degree of each node in the work is the number of its neighbours. -/
def hasRightDegrees (s : Colouring n m) : Bool :=
  (List.finRange n).all fun u ↦
    match s.node.get u with
    | .simplify | .freeze | .spill => s.graph.degree.get u = (s.adjacent u).length
    | _ => true

/-- Takes steps until no work is left. -/
def runWithin (p : ColouringProblem n m) (choose : SpillChoice n m) :
    (fuel : Nat) → Colouring n m → Except Fault (Colouring n m)
  | 0, _ => .error .unfinished
  | fuel + 1, s =>
    match s.step? p choose with
    | none => .ok s
    | some next => do
      let s ← next
      if s.hasRightDegrees then s.runWithin p choose fuel else .error .wrongDegree

/-- Takes steps until no work is left. A node is simplified, frozen or chosen to be spilled once,
and only a step that takes a node out of the graph makes the moves that wait be looked at again. -/
def run (p : ColouringProblem n m) (choose : SpillChoice n m) (s : Colouring n m) :
    Except Fault (Colouring n m) :=
  s.runWithin p choose ((n + 1) * (m + 3) + 1)

end Colouring

end RegAlloc

import RegAlloc.Colouring.Basic

/-!
# Steps of a colouring

The four things that can be done to a graph on the way to its colours, with `k` colours.

* `simplify` takes out a node with fewer than `k` neighbours and no pending moves. It will find a
  colour whatever its neighbours get.
* `coalesce` looks at a move. If its ends can become one node without making the graph harder to
  colour, they do. If they interfere, it is given up; otherwise it waits until a neighbour loses
  neighbours.
* `freeze` gives up the moves of a node with fewer than `k` neighbours, so that it can be
  simplified.
* `selectSpill` takes a node with `k` or more neighbours to be simplified nevertheless. It may find
  a colour later, or has to be spilled.

The states of nodes and moves change through `transition` and `transitionMove`, which refuse to
change a final one. Only where the state that is left was just tested, no check is made again.
-/

namespace RegAlloc.Colouring

variable {n m : Nat}

/-! ## Simplify -/

/-- A move that waits is to be looked at again. -/
def enableMove (s : Colouring n m) (i : Fin m) : Colouring n m :=
  if s.move.get i = .active then s.setMove i .worklist else s

/-- The moves of the given nodes that wait are to be looked at again. -/
def enableMoves (s : Colouring n m) (us : List (Fin n)) : Colouring n m :=
  us.foldl (fun s u ↦ (s.nodeMoves u).foldl enableMove s) s

/-- A node loses a neighbour. If it had `k` of them, it no longer has many: it can be simplified or
frozen, and the moves around it get another chance. -/
def decrementDegree (p : ColouringProblem n m) (s : Colouring n m) (u : Fin n) :
    Except Fault (Colouring n m) :=
  if s.graph.isPrecoloured u then .ok s
  else
    match s.graph.degree.get u with
    | 0 => .error .negativeDegree
    | d + 1 =>
      let s := s.setDegree u d
      if d + 1 = p.k then
        let s := s.enableMoves (s.adjacent u ++ [u])
        s.transition u (if s.isMoveRelated u then .freeze else .simplify)
      else .ok s

/-- Takes a node out of the graph. -/
def simplify (p : ColouringProblem n m) (s : Colouring n m) (u : Fin n) :
    Except Fault (Colouring n m) := do
  let s ← s.transition u .selected
  (s.adjacent u).foldlM (decrementDegree p) s

/-! ## Coalesce -/

/-- A node of the freeze list that has lost its last move, and has few neighbours, can be
simplified. -/
def addWorklist (p : ColouringProblem n m) (s : Colouring n m) (u : Fin n) : Colouring n m :=
  if s.node.get u = .freeze ∧ !s.isMoveRelated u ∧ s.graph.degree.get u < p.k then
    s.setNode u .simplify
  else s

/-- Whether a node is a physical register that is never handed out; it keeps all its moves. -/
def isFixed (p : ColouringProblem n m) (s : Colouring n m) (u : Fin n) : Bool :=
  (s.graph.precolour? u).any fun c ↦ !p.isColour c

/-- A neighbour `t` is not in the way of coalescing a node into the precoloured node `u`: it will
find a colour anyway, or has its own, or interferes with `u` already. -/
def isHarmless (p : ColouringProblem n m) (s : Colouring n m) (u t : Fin n) : Bool :=
  s.graph.degree.get t < p.k || s.graph.isPrecoloured t || s.graph.interferes t u

/-- Whether `v` can be coalesced into `u` without making the graph harder to colour: no neighbour is
in the way of a precoloured `u`; otherwise, fewer than `k` neighbours of both have many neighbours.
-/
def canCoalesce (p : ColouringProblem n m) (s : Colouring n m) (u v : Fin n) : Bool :=
  if s.graph.isPrecoloured u then (s.adjacent v).all (s.isHarmless p u)
  else
    let neighbours := distinct (s.adjacent u ++ s.adjacent v)
    neighbours.countP (p.k ≤ s.graph.degree.get ·) < p.k

/-- Coalesces `v` into `u`, which takes over its moves and neighbours. -/
def combine (p : ColouringProblem n m) (s : Colouring n m) (u v : Fin n) :
    Except Fault (Colouring n m) := do
  let s := s.note (.combine u v)
  let s ← s.transition v (.coalesced u)
  let s := { s with graph := (s.graph.moves.get v).foldl (fun g i ↦ g.addMove u i) s.graph }
  let s := s.enableMoves [v]
  let s ← (s.adjacent v).foldlM (fun s t ↦ (s.addEdge t u).decrementDegree p t) s
  return if p.k ≤ s.graph.degree.get u ∧ s.node.get u = .freeze then s.setNode u .spill else s

/-- The ends of a move as they are now; if one is precoloured, it comes first. -/
def ends (p : ColouringProblem n m) (s : Colouring n m) (i : Fin m) : Fin n × Fin n :=
  let x := s.rep (p.moves.get i).dst
  let y := s.rep (p.moves.get i).src
  if s.graph.isPrecoloured y then (y, x) else (x, y)

/-- Coalesces the ends of a move, or gives the move up, or lets it wait. -/
def coalesce (p : ColouringProblem n m) (s : Colouring n m) (i : Fin m) :
    Except Fault (Colouring n m) :=
  let (u, v) := s.ends p i
  let s := s.note (.attempt i u v)
  if u = v then do
    let s ← s.transitionMove i .coalesced
    return s.addWorklist p u
  else if s.graph.isPrecoloured v || s.graph.interferes u v || s.isFixed p u then do
    let s ← s.transitionMove i .constrained
    return (s.addWorklist p u).addWorklist p v
  else if s.canCoalesce p u v then do
    let s ← s.transitionMove i .coalesced
    let s ← s.combine p u v
    return s.addWorklist p u
  else s.transitionMove i .active

/-! ## Freeze and spill -/

/-- Gives up a move of the node `u`; its other end may have lost its last move. -/
def freezeMove (p : ColouringProblem n m) (u : Fin n) (s : Colouring n m) (i : Fin m) :
    Except Fault (Colouring n m) := do
  let x := s.rep (p.moves.get i).dst
  let y := s.rep (p.moves.get i).src
  let v := if y = s.rep u then x else y
  let s ← s.transitionMove i .frozen
  return s.addWorklist p v

/-- Gives up all the pending moves of a node. -/
def freezeMoves (p : ColouringProblem n m) (s : Colouring n m) (u : Fin n) :
    Except Fault (Colouring n m) :=
  (s.nodeMoves u).foldlM (freezeMove p u) s

/-- Makes a node ready to be simplified without its moves. -/
def freeze (p : ColouringProblem n m) (s : Colouring n m) (u : Fin n) :
    Except Fault (Colouring n m) := do
  let s ← s.transition u .simplify
  s.freezeMoves p u

/-- Makes a node with many neighbours ready to be simplified. -/
def selectSpill (p : ColouringProblem n m) (s : Colouring n m) (u : Fin n) :
    Except Fault (Colouring n m) :=
  (s.note (.potentialSpill u (s.graph.degree.get u))).freeze p u

end RegAlloc.Colouring

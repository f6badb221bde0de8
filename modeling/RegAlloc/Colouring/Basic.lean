import RegAlloc.BitSet
import RegAlloc.Catalog
import RegAlloc.Interference.Build

/-!
# Colouring states

The state of an attempt to colour an interference graph. Every node and every move is in one state
of its own. The lists of work are kept beside the states: they hold the nodes and the moves that are
in some state, so that the one with the smallest number is found quickly.

A node that is coalesced into another one is represented by it from then on: `rep` follows these
steps to the node that represents it.
-/

namespace RegAlloc

/-- What has become of a node. -/
inductive NodeState (n : Nat) where
  /-- Not part of the work yet. -/
  | initial
  | precoloured
  /-- Can be taken out of the graph. -/
  | simplify
  /-- Has few neighbours, but may still be coalesced. -/
  | freeze
  /-- Has many neighbours. -/
  | spill
  /-- Has to live in a stack slot. -/
  | spilled
  | coalesced (into : Fin n)
  | coloured
  /-- Taken out of the graph, and waiting for its colour. -/
  | selected
  deriving DecidableEq, Repr

/-- What has become of a move. -/
inductive MoveState where
  /-- To be looked at. -/
  | worklist
  /-- Not coalesced for now. -/
  | active
  | coalesced
  /-- Its ends interfere. -/
  | constrained
  /-- Given up. -/
  | frozen
  deriving DecidableEq, Repr

/-- Whether a node must keep its state. -/
def NodeState.isFinal {n : Nat} : NodeState n → Bool
  | precoloured | spilled | coalesced _ => true
  | _ => false

/-- Whether a move must keep its state. -/
def MoveState.isFinal : MoveState → Bool
  | coalesced | constrained | frozen => true
  | worklist | active => false

/-- What happened on the way, for the log. -/
inductive ColouringEvent (n m : Nat) where
  | node (u : Fin n) (before after : NodeState n)
  | move (m : Fin m) (before after : MoveState)
  | interfere (u v : Fin n)
  /-- A move between the representatives `u` and `v` is looked at. -/
  | attempt (m : Fin m) (u v : Fin n)
  | combine (u v : Fin n)
  | potentialSpill (u : Fin n) (degree : Nat)
  | select
  | noColour (u : Fin n)
  deriving DecidableEq, Repr

/-- The nodes and the moves in the states that are asked for. -/
structure Worklists (n m : Nat) where
  simplify : BitSet n := ∅
  freeze : BitSet n := ∅
  spill : BitSet n := ∅
  /-- The spilled nodes, the first one first. -/
  spilled : List (Fin n) := []
  /-- The coalesced nodes, the first one first. -/
  coalesced : List (Fin n) := []
  /-- The selected nodes, the last one first. -/
  stack : List (Fin n) := []
  worklistMoves : BitSet m := ∅
  activeMoves : BitSet m := ∅

namespace Worklists

variable {n m : Nat}

/-- Takes a node out of the set of the state that it leaves. -/
def leave (w : Worklists n m) (u : Fin n) : NodeState n → Worklists n m
  | .simplify => { w with simplify := w.simplify.erase u }
  | .freeze => { w with freeze := w.freeze.erase u }
  | .spill => { w with spill := w.spill.erase u }
  | _ => w

/-- Adds a node to the nodes in the state that it enters. -/
def enter (w : Worklists n m) (u : Fin n) : NodeState n → Worklists n m
  | .simplify => { w with simplify := w.simplify.insert u }
  | .freeze => { w with freeze := w.freeze.insert u }
  | .spill => { w with spill := w.spill.insert u }
  | .spilled => { w with spilled := w.spilled ++ [u] }
  | .coalesced _ => { w with coalesced := w.coalesced ++ [u] }
  | .selected => { w with stack := u :: w.stack }
  | _ => w

/-- Takes a move out of the set of the state that it leaves. -/
def leaveMove (w : Worklists n m) (i : Fin m) : MoveState → Worklists n m
  | .worklist => { w with worklistMoves := w.worklistMoves.erase i }
  | .active => { w with activeMoves := w.activeMoves.erase i }
  | _ => w

/-- Adds a move to the set of the state that it enters. -/
def enterMove (w : Worklists n m) (i : Fin m) : MoveState → Worklists n m
  | .worklist => { w with worklistMoves := w.worklistMoves.insert i }
  | .active => { w with activeMoves := w.activeMoves.insert i }
  | _ => w

end Worklists

/-- What an attempt to colour is about, and does not change: the moves, and the colours, which are
the `k` numbers from `firstColour` on. -/
structure ColouringProblem (n m : Nat) where
  moves : Vector (Move n) m
  firstColour : Nat
  k : Nat

/-- The state of an attempt to colour a graph with `n` nodes and `m` moves. -/
structure Colouring (n m : Nat) where
  graph : Graph n (Fin m)
  node : Vector (NodeState n) n
  move : Vector MoveState m
  work : Worklists n m
  colour : Vector (Option Nat) n
  /-- What happened, the last event first. -/
  trace : List (ColouringEvent n m)

/-- Whether a number is a colour. -/
def ColouringProblem.isColour {n m : Nat} (p : ColouringProblem n m) (c : Nat) : Bool :=
  p.firstColour ≤ c && c < p.firstColour + p.k

namespace Colouring

variable {n m : Nat}

/-- The state before any work: precoloured nodes have their colours, and all moves are to be looked
at. -/
def start (g : Graph n (Fin m)) : Colouring n m where
  graph := g
  node := Vector.ofFn fun u ↦ if g.isPrecoloured u then .precoloured else .initial
  move := Vector.replicate m .worklist
  work := { worklistMoves := BitSet.insertAll ∅ (List.finRange m) }
  colour := Vector.ofFn fun u ↦ g.precolour? u
  trace := []

/-! ## Queries -/

/-- Follows up to `fuel` steps from coalesced nodes to those they are coalesced into. -/
def follow (s : Colouring n m) : (fuel : Nat) → Fin n → Fin n
  | 0, u => u
  | fuel + 1, u =>
    match s.node.get u with
    | .coalesced v => s.follow fuel v
    | _ => u

/-- The node that represents a node. -/
def rep (s : Colouring n m) (u : Fin n) : Fin n :=
  s.follow n u

/-- Whether a node is still in the graph. -/
def isPresent (s : Colouring n m) (u : Fin n) : Bool :=
  match s.node.get u with
  | .selected | .coalesced _ => false
  | _ => true

/-- The neighbours that are still in the graph. -/
def adjacent (s : Colouring n m) (u : Fin n) : List (Fin n) :=
  (s.graph.adjacency.get u).filter s.isPresent

/-- Whether a move may still be coalesced. -/
def isPending (s : Colouring n m) (i : Fin m) : Bool :=
  !(s.move.get i).isFinal

/-- The moves of a node that may still be coalesced. -/
def nodeMoves (s : Colouring n m) (u : Fin n) : List (Fin m) :=
  (s.graph.moves.get u).filter s.isPending

/-- Whether some move of a node may still be coalesced. -/
def isMoveRelated (s : Colouring n m) (u : Fin n) : Bool :=
  !(s.nodeMoves u).isEmpty

/-- The moves in a state, in ascending order. -/
def movesIn (s : Colouring n m) (state : MoveState) : List (Fin m) :=
  (List.finRange m).filter fun i ↦ s.move.get i = state

/-! ## Changes -/

/-- Records what happened. -/
def note (s : Colouring n m) (e : ColouringEvent n m) : Colouring n m :=
  { s with trace := e :: s.trace }

/-- Puts a node into a state. -/
def setNode (s : Colouring n m) (u : Fin n) (state : NodeState n) : Colouring n m :=
  { s.note (.node u (s.node.get u) state) with
    node := s.node.set u state u.isLt
    work := (s.work.leave u (s.node.get u)).enter u state }

/-- Puts a move into a state. -/
def setMove (s : Colouring n m) (i : Fin m) (state : MoveState) : Colouring n m :=
  { s.note (.move i (s.move.get i) state) with
    move := s.move.set i state i.isLt
    work := (s.work.leaveMove i (s.move.get i)).enterMove i state }

/-- Puts a node that does not have to keep its state into another one. -/
def transition (s : Colouring n m) (u : Fin n) (state : NodeState n) :
    Except Fault (Colouring n m) :=
  if (s.node.get u).isFinal then .error .finishedNode else .ok (s.setNode u state)

/-- Puts a move that does not have to keep its state into another one. -/
def transitionMove (s : Colouring n m) (i : Fin m) (state : MoveState) :
    Except Fault (Colouring n m) :=
  if (s.move.get i).isFinal then .error .finishedMove else .ok (s.setMove i state)

/-- Gives a node a degree. -/
def setDegree (s : Colouring n m) (u : Fin n) (d : Nat) : Colouring n m :=
  { s with graph.degree := s.graph.degree.set u d u.isLt }

/-- Adds an edge. -/
def addEdge (s : Colouring n m) (u v : Fin n) : Colouring n m :=
  if u = v ∨ s.graph.interferes u v then s
  else { s.note (.interfere u v) with graph := s.graph.addEdge u v }

end Colouring

end RegAlloc

import RegAlloc.Interference.Graph
import RegAlloc.Liveness

/-!
# Building interference graphs

A register that an instruction defines interferes with all the registers that are live behind the
instruction, and with the others that it defines. The source of a move does not interfere with its
destination, so that both can become one register; without coalescing a move is an instruction like
any other. The two registers of a store to a symbol are in use at one moment, and interfere.
-/

namespace RegAlloc

/-- A copy, at the given node of the flow graph, that may be coalesced. -/
structure Move (r : Nat) where
  node : Nat
  dst : Fin r
  src : Fin r
  deriving DecidableEq, Repr

/-- Puts a move in front of the first one that does not come before it. -/
def Move.insert {r : Nat} (m : Move r) : List (Move r) → List (Move r)
  | [] => [m]
  | m' :: ms => if m.node ≤ m'.node then m :: m' :: ms else m' :: m.insert ms

/-- The moves in the order of their nodes. -/
def Move.sort {r : Nat} (ms : List (Move r)) : List (Move r) :=
  ms.foldl (fun sorted m ↦ m.insert sorted) []

namespace Flow

variable {r n : Nat}

/-- The moves, which are met from the last to the first, in program order. -/
def moves (flow : Flow r n) (coalesce : Bool) : List (Move r) :=
  if coalesce then
    Move.sort <| flow.order.filterMap fun i ↦
      (flow.get i).move?.map fun (dst, src) ↦ ⟨i, dst, src⟩
  else []

/-- The pairs that interfere because of one node, by the registers that are live behind it. -/
def nodeEdges (node : FlowNode r n) (out : BitSet r) (coalesce : Bool) : List (Fin r × Fin r) :=
  let live := if coalesce && node.move?.isSome then out.eraseAll node.uses else out
  let live := (live.insertAll node.defs).toList
  node.defs.flatMap (fun d ↦ live.map (·, d)) ++ node.symbolicStore?.toList

/-- All the pairs that interfere, from the last node to the first. -/
def edges (flow : Flow r n) (l : Liveness r n) (coalesce : Bool) : List (Fin r × Fin r) :=
  flow.order.flatMap fun i ↦ nodeEdges (flow.get i) (l.liveOut.get i) coalesce

end Flow

namespace Graph

variable {r : Nat}

/-- Adds all the edges in order. -/
def addEdges {μ : Type} (g : Graph r μ) (edges : List (Fin r × Fin r)) : Graph r μ :=
  edges.foldl (fun g (u, v) ↦ g.addEdge u v) g

/-- Lists each move with its destination and its source. -/
def addMoves (moves : List (Move r)) (g : Graph r (Fin moves.length)) :
    Graph r (Fin moves.length) :=
  (List.finRange moves.length).foldl
    (fun g m ↦ (g.addMove (moves.get m).dst m).addMove (moves.get m).src m) g

/-- The interference graph with the given edges and moves. -/
def build (virtuals : Nat) (edges : List (Fin r × Fin r)) (moves : List (Move r)) :
    Graph r (Fin moves.length) :=
  addMoves moves (addEdges (empty r virtuals) edges)

end Graph

end RegAlloc

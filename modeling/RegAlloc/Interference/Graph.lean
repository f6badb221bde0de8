import RegAlloc.Distinct
import RegAlloc.Interference.BitMatrix

/-!
# Interference graphs

An undirected graph over numbered registers. From the number `virtuals` on the nodes are physical
registers and are precoloured: they have no list of neighbours, and a degree that no number of
colours reaches. Their edges are seen in the bit matrix and in the lists of their neighbours.

Each node also has the list of the moves, of type `μ`, that it takes part in.
-/

namespace RegAlloc

open Text

/-- A graph with `n` nodes. -/
structure Graph (n : Nat) (μ : Type) where
  virtuals : Nat
  matrix : BitMatrix n
  adjacency : Vector (List (Fin n)) n
  degree : Vector Nat n
  moves : Vector (List μ) n

namespace Graph

variable {n : Nat} {μ : Type}

/-- The degree of a precoloured node. -/
def infinite : Nat :=
  UInt64.size - 1

/-- The graph without edges and moves. Whether there is room for its matrix is checked before. -/
def empty (n virtuals : Nat) : Graph n μ where
  virtuals
  matrix := .empty n
  adjacency := Vector.replicate n []
  degree := Vector.ofFn fun u ↦ if virtuals ≤ u then infinite else 0
  moves := Vector.replicate n []

/-- Whether a node is a physical register. -/
def isPrecoloured (g : Graph n μ) (u : Nat) : Bool :=
  g.virtuals ≤ u

/-- The colour of a precoloured node. -/
def precolour? (g : Graph n μ) (u : Nat) : Option Nat :=
  if g.isPrecoloured u then some (u - g.virtuals) else none

/-- Whether there is an edge between two nodes. -/
def interferes (g : Graph n μ) (u v : Fin n) : Bool :=
  u ≠ v && g.matrix.get u v

/-- Whether there is an edge between two numbers whose pair has a place in the matrix. -/
def interferes? (g : Graph n μ) (u v : Nat) : Except Fault Bool :=
  if u = v then .ok false else g.matrix.get? u v

/-- Adds `v` to the neighbours of `u`, unless `u` is precoloured. -/
def attach (g : Graph n μ) (u v : Fin n) : Graph n μ :=
  if g.isPrecoloured u then g
  else
    { g with
      adjacency := g.adjacency.set u (g.adjacency.get u ++ [v]) u.isLt
      degree := g.degree.set u (g.degree.get u + 1) u.isLt }

/-- Adds an edge. Nothing changes if there is one, or if the ends are equal. -/
def addEdge (g : Graph n μ) (u v : Fin n) : Graph n μ :=
  if u = v ∨ g.interferes u v then g
  else ({ g with matrix := g.matrix.set u v true }.attach u v).attach v u

/-- Those of the edges that are not in the graph and that none of them repeats, in order. -/
def newEdges (g : Graph n μ) : List (Fin n × Fin n) → List (Fin n × Fin n)
  | [] => []
  | (u, v) :: es =>
    if u = v ∨ g.interferes u v then g.newEdges es else (u, v) :: (g.addEdge u v).newEdges es

/-- Adds a move to the list of a node, unless it is there. -/
def addMove [DecidableEq μ] (g : Graph n μ) (u : Fin n) (m : μ) : Graph n μ :=
  { g with moves := g.moves.set u (addNew (g.moves.get u) m) u.isLt }

/-- All the edges, the smaller end first, ordered by the larger one. -/
def edges (g : Graph n μ) : List (Fin n × Fin n) :=
  (List.finRange n).flatMap fun v ↦
    ((List.finRange n).filter fun u ↦ u < v ∧ g.interferes u v).map (·, v)

/-- The matrix, the neighbours of the nodes that have some, and the degrees of the virtual
registers. -/
def text (g : Graph n μ) : String :=
  let attached := (List.finRange n).filter fun u ↦ !(g.adjacency.get u).isEmpty
  "bitmatrix:" ++ g.matrix.text ++ "adjacency lists:\n" ++
    unlines (attached.map fun u ↦
      "\t" ++ toString u.val ++ " => " ++ bracketed ((g.adjacency.get u).map Fin.val)) ++
    "degree: " ++ bracketed (g.degree.toList.take g.virtuals) ++ "\nlength: " ++ toString n

/-- The text of a graph that has all its virtual registers as nodes. -/
def text? (g : Graph n μ) : Except Fault String :=
  if g.virtuals ≤ n then .ok g.text else .error .outOfRange

end Graph

end RegAlloc

import RegAlloc.BlockGraph.Search
import RegAlloc.Distinct
import RegAlloc.Program.Basic
import RegAlloc.Text.Listing

/-!
# Block graphs

The control flow between the blocks of a function, which blocks are reachable from the entry, and
how many loops each block lies in.

A branch or jump goes to the last block with its label. A block without a terminator goes on to the
next block. Control never gets past the first terminator of a block, so what follows it has no part
in the graph.

A loop belongs to its header, the target of an edge that the depth-first search from the entry finds
to go back. It holds the header and every block from which the source of such an edge can be reached
without passing the header.
-/

namespace RegAlloc

open Text

/-- The last block with the given label. -/
def labelled? (blocks : List Block) (label : String) : Option (Fin blocks.length) :=
  (List.finRange blocks.length).reverse.find? fun b ↦ (blocks.get b).label = label

/-- The labels that the code can go to. -/
def targetLabels (code : List Instr) : List String :=
  (Instr.upToTerminator code).filterMap Instr.target?

/-- The first label of a branch or jump that no block has. -/
def unknownLabel? (blocks : List Block) : Option String :=
  (blocks.flatMap fun b ↦ targetLabels b.code).find? fun label ↦ (labelled? blocks label).isNone

/-- Whether control goes on behind the code. -/
def fallsThrough (code : List Instr) : Bool :=
  !code.any Instr.isTerminator

/-- The blocks that control can go to from block `b`: the targets in order, then the next block. -/
def blockSuccessors (blocks : List Block) (b : Fin blocks.length) : List (Fin blocks.length) :=
  let targets := (targetLabels (blocks.get b).code).filterMap (labelled? blocks)
  let following :=
    if h : b + 1 < blocks.length then
      if fallsThrough (blocks.get b).code then [⟨b + 1, h⟩] else []
    else []
  distinct (targets ++ following)

/-- The control flow between `n` blocks. -/
structure BlockGraph (n : Nat) where
  successors : Vector (List (Fin n)) n
  reachable : Vector Bool n
  loopDepth : Vector Nat n

namespace BlockGraph

variable {n : Nat}

/-- The blocks with `b` among their successors, in order. -/
def predecessorsIn (successors : Vector (List (Fin n)) n) (b : Fin n) : List (Fin n) :=
  (List.finRange n).filter fun a ↦ b ∈ successors.get a

/-- The depth-first search from the entry; there is nothing to search without blocks. -/
def search? (successors : Vector (List (Fin n)) n) : Option (Search (Fin n)) :=
  if h : 0 < n then
    some (Search.complete successors.get (List.finRange n) ⟨0, h⟩)
  else none

/-- The blocks of the loop with the given header, where the edges from `sources` go back to it. -/
def loopBody (successors : Vector (List (Fin n)) n) (header : Fin n) (sources : List (Fin n)) :
    List (Fin n) :=
  header :: gather (predecessorsIn successors) n ((List.finRange n).erase header) sources

/-- The loops of all the headers. -/
def loops (successors : Vector (List (Fin n)) n) (backEdges : List (Fin n × Fin n)) :
    List (List (Fin n)) :=
  (distinct (backEdges.map Prod.snd)).map fun header ↦
    loopBody successors header ((backEdges.filter (·.2 = header)).map Prod.fst)

/-- The graph with the given edges. -/
def ofSuccessors (successors : Vector (List (Fin n)) n) : BlockGraph n :=
  let found := search? successors
  let seen := found.elim [] Search.seen
  let loops := loops successors (found.elim [] Search.backEdges)
  { successors
    reachable := Vector.ofFn fun b ↦ b ∈ seen
    loopDepth := Vector.ofFn fun b ↦ loops.countP (b ∈ ·) }

/-- The graph of the blocks of a function; an unknown label is no edge. -/
def ofBlocks (blocks : List Block) : BlockGraph blocks.length :=
  ofSuccessors (Vector.ofFn (blockSuccessors blocks))

/-- The blocks that can go to `b`, in order. -/
def predecessors (g : BlockGraph n) (b : Fin n) : List (Fin n) :=
  predecessorsIn g.successors b

/-- One line for each block. -/
def text (g : BlockGraph n) : String :=
  unlines <| (List.finRange n).map fun b ↦
    bracketed ((g.predecessors b).map Fin.val) ++ " -> " ++ toString b.val ++ " -> " ++
      bracketed ((g.successors.get b).map Fin.val) ++
      " (depth " ++ toString (g.loopDepth.get b) ++ ")"

end BlockGraph

end RegAlloc

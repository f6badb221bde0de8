import RegAlloc.BlockGraph.Basic
import RegAlloc.Numbering

/-!
# Flow graphs

The control flow between the instructions of a function that can be reached, over numbered
registers. The nodes stand in program order.
-/

namespace RegAlloc

open Text

/-- A node of a flow graph over `r` registers and `n` nodes: one instruction. -/
structure FlowNode (r n : Nat) where
  block : Nat
  position : Nat
  defs : List (Fin r)
  uses : List (Fin r)
  successors : List (Fin n)
  /-- Destination and source of a copy. -/
  move? : Option (Fin r × Fin r)
  /-- The address register and the value of a store to a symbol. -/
  symbolicStore? : Option (Fin r × Fin r)
  loopDepth : Nat
  deriving DecidableEq, Repr

/-- A flow graph over `r` registers with `n` nodes. -/
abbrev Flow (r n : Nat) := Vector (FlowNode r n) n

/-- An instruction and where it stands. -/
structure Site where
  block : Nat
  position : Nat
  instr : Instr
  deriving DecidableEq, Repr

/-- For each block, the instructions that can be reached. -/
def reachedCode (blocks : List Block) (g : BlockGraph blocks.length) : List (List Instr) :=
  (List.finRange blocks.length).map fun b ↦
    if g.reachable.get b then Instr.upToTerminator (blocks.get b).code else []

namespace Flow

/-- The sites of the reached code, in program order. -/
def sites (code : List (List Instr)) : List Site :=
  code.zipIdx.flatMap fun (run, b) ↦ run.zipIdx.map fun (i, p) ↦ ⟨b, p, i⟩

/-- How many instructions are reached in front of a block. -/
def offset (code : List (List Instr)) (b : Nat) : Nat :=
  (code.take b).flatten.length

/-- The node at a position, if there is one. -/
def at? (n i : Nat) : Option (Fin n) :=
  if h : i < n then some ⟨i, h⟩ else none

/-- The nodes that control can go to from a site: the target of a branch or jump, and the
instruction that follows. Both are the first instruction at or after a place in the code. -/
def successors (blocks : List Block) (code : List (List Instr)) (n : Nat) (s : Site) :
    List (Fin n) :=
  let target? :=
    s.instr.target?.bind fun label ↦
      (labelled? blocks label).bind fun b ↦ at? n (offset code b)
  let following? :=
    if s.instr.isTerminator then none else at? n (offset code s.block + s.position + 1)
  distinct (target?.toList ++ following?.toList)

/-- The node of a site. -/
def node (ν : Numbering) (blocks : List Block) (g : BlockGraph blocks.length)
    (code : List (List Instr)) (n : Nat) (s : Site) : FlowNode ν.size n :=
  let pair? := fun ((a, b) : Reg × Reg) ↦ do return (← ν.node? a, ← ν.node? b)
  { block := s.block
    position := s.position
    defs := s.instr.defs.filterMap ν.node?
    uses := s.instr.uses.filterMap ν.node?
    successors := successors blocks code n s
    move? := s.instr.move?.bind pair?
    symbolicStore? := s.instr.symbolicStore?.bind pair?
    loopDepth := g.loopDepth[s.block]?.getD 0 }

/-- Refuses a site with a register that has no number. -/
def checkSite (ν : Numbering) (s : Site) : Except Fault Unit :=
  (s.instr.defs ++ s.instr.uses).forM fun r ↦ do
    let _ ← ν.index r

/-- The flow graph of the sites. -/
def ofSites (ν : Numbering) (blocks : List Block) (g : BlockGraph blocks.length)
    (code : List (List Instr)) (sites : List Site) : Flow ν.size sites.length :=
  let row : Vector Site sites.length := ⟨sites.toArray, List.size_toArray⟩
  row.map (node ν blocks g code sites.length)

variable {r n : Nat}

/-- The nodes from the last to the first, the order in which they are gone through: what is live
behind a node is known soonest that way. -/
def order (_ : Flow r n) : List (Fin n) :=
  (List.finRange n).reverse

/-- One line for each node. -/
def text (flow : Flow r n) : String :=
  unlines <| (List.finRange n).map fun i ↦
    let node := flow.get i
    toString i.val ++ ": def " ++ bracketed (node.defs.map Fin.val) ++ " use " ++
      bracketed (node.uses.map Fin.val) ++ " -> " ++ bracketed (node.successors.map Fin.val) ++
      if node.move?.isSome then " (move)" else ""

end Flow

end RegAlloc

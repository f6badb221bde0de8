import RegAlloc.Allocation.Error
import RegAlloc.Interference.Build

/-!
# Analysis of a function

What has to be known of a function before its registers can be coloured: control flow, live
registers, and interference.
-/

namespace RegAlloc

/-- The flow graph of a function over `r` registers, and the registers that are live in it. -/
structure Analysis (r : Nat) where
  size : Nat
  flow : Flow r size
  liveness : Liveness r size
  /-- How many passes the search for the live registers took. -/
  passes : Nat

/-- The moves of a function and its interference graph. -/
structure Interference (r : Nat) where
  edges : List (Fin r × Fin r)
  moves : List (Move r)
  graph : Graph r (Fin moves.length)

namespace Analysis

variable {r : Nat}

/-- The interference in a function with `virtuals` virtual registers. -/
def interference (a : Analysis r) (virtuals : Nat) (coalesce : Bool) : Interference r :=
  let edges := a.flow.edges a.liveness coalesce
  let moves := a.flow.moves coalesce
  { edges, moves, graph := Graph.build virtuals edges moves }

/-- The interference, if there is room for the bit matrix of the graph. -/
def interference? (a : Analysis r) (virtuals : Nat) (coalesce : Bool) :
    Except Fault (Interference r) := do
  BitMatrix.checkRoom r
  return a.interference virtuals coalesce

end Analysis

namespace Routine

/-- The numbering of the registers of a routine. -/
def numbering (f : Routine) (catalog : Catalog) : Numbering :=
  ⟨f.vregCount, catalog⟩

/-- There is room for the registers of the routine and the catalog, which are fewer than `2 ^ 31`.
So their numbers have 32 bits, and the bit matrix of their interference has fewer than `2 ^ 61`. -/
def HasRoom (f : Routine) (catalog : Catalog) : Prop :=
  (f.numbering catalog).size < UInt32.size / 2

instance (f : Routine) (catalog : Catalog) : Decidable (f.HasRoom catalog) :=
  inferInstanceAs (Decidable (_ < _))

/-- The graph of the blocks of a routine. -/
def blockGraph (f : Routine) : Except AllocationError (BlockGraph f.blocks.length) :=
  match unknownLabel? f.blocks with
  | some label => .error (.unknownLabel f.name label)
  | none => .ok (.ofBlocks f.blocks)

/-- The analysis of a routine with the given block graph. All the registers of the reached code have
to be reserved, and the live registers to solve their equations. -/
def analyze (f : Routine) (catalog : Catalog) (g : BlockGraph f.blocks.length) :
    Except Fault (Analysis (f.numbering catalog).size) := do
  let code := reachedCode f.blocks g
  let sites := Flow.sites code
  sites.forM (Flow.checkSite (f.numbering catalog))
  let flow := Flow.ofSites (f.numbering catalog) f.blocks g code sites
  let (liveness, passes) := Liveness.solve flow
  if liveness.isFixpoint flow then return { size := sites.length, flow, liveness, passes }
  else .error .unstableLiveness

end Routine

end RegAlloc

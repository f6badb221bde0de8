import RegAlloc.Allocation.Program
import RegAlloc.Log.Colouring
import RegAlloc.Text.Listing

/-!
# The log of an allocation

The log of a function and of a program is read off what is known of their rounds.
-/

namespace RegAlloc

open Text

/-- The lines of one round, from its flow graph to the colours. -/
def Round.logLines {r : Nat} (round : Round r) (function : String) : List LogLine :=
  let a := round.analysis
  let i := round.interference
  [⟨.trace, .flow, "Flow graph of " ++ function ++ " with " ++ toString a.size ++ " nodes"⟩,
    ⟨.debug, .liveness, "Liveness converged after " ++ toString a.passes ++ " passes"⟩,
    ⟨.trace, .liveness, "Liveness:\n" ++ a.liveness.text⟩,
    ⟨.debug, .build, "Starting build stage"⟩] ++
  ((Graph.empty r i.graph.virtuals : Graph r (Fin i.moves.length)).newEdges i.edges).map
    (fun (u, v) ↦ (ColouringEvent.interfere u v : ColouringEvent r i.moves.length).logLine
      round.costs) ++
  [⟨.debug, .build, "Build found " ++ toString i.moves.length ++ " moves"⟩,
    ⟨.trace, .build, "Graph:" ++ i.graph.text⟩] ++
  round.colouring.events.map (·.logLine round.costs)

/-- The lines at the start of a round. -/
def roundStart (function : String) (number : Nat) : List LogLine :=
  [⟨.debug, .rounds, function ++ ": round " ++ toString number⟩,
    ⟨.debug, .blockGraph, "Constructing CFG for " ++ function⟩]

/-- The lines behind a round that spills. -/
def Attempt.spillLines (a : Attempt) (function : String) : List LogLine :=
  if a.round.spills.isEmpty then []
  else
    ⟨.debug, .rounds, function ++ ": spilling \x7b" ++
      commaSeparated (a.round.spills.map fun v ↦ "VirtualRegister(" ++ toString v ++ ")") ++
      "\x7d"⟩ ::
    a.slots.map fun (v, slot) ↦
      ⟨.trace, .slots,
        function ++ ": slot of " ++ (Reg.virt v).text ++ " at -" ++ toString slot.offset⟩

/-- The lines of a round with the given number. -/
def Attempt.logLines (a : Attempt) (function : String) (number : Nat) : List LogLine :=
  roundStart function number ++ a.round.logLines function ++ a.spillLines function

/-- The lines behind the last round. -/
def endLines (function : String) (attempts : Nat) : Except AllocationError Report → List LogLine
  | .ok report =>
    [⟨.debug, .commit, "Writing back colors of " ++ function⟩,
      ⟨.info, .rounds,
        function ++ ": allocated in " ++ toString report.rounds ++ " rounds, " ++
          toString report.coalescedMoves ++ " moves coalesced, " ++
          toString report.removedMoves ++ " removed"⟩]
  | .error (.unknownLabel ..) => roundStart function (attempts + 1)
  | .error _ => []

/-- The lines of a function. -/
def Allocated.logLines (a : Allocated) (catalog : Catalog) (settings : Settings) : List LogLine :=
  let name := a.function.name
  if a.function.blocks.isEmpty then []
  else
    (if settings.calleeSaved then
      [⟨.debug, .bracket,
        "Bracketing " ++ name ++ " with " ++ toString catalog.calleeSaved.length ++
          " callee saved registers"⟩]
    else []) ++
    [⟨.info, .rounds, "Allocating registers of " ++ name⟩] ++
    (a.attempts.zipIdx 1).flatMap (fun (attempt, number) ↦ attempt.logLines name number) ++
    endLines name a.attempts.length a.result

/-- The lines of a program with so many functions. -/
def AllocatedProgram.logLines (a : AllocatedProgram) (catalog : Catalog) (settings : Settings) :
    List LogLine :=
  ⟨.info, .program,
    "Allocating " ++ toString a.program.functions.length ++ " functions with " ++
      toString catalog.colourCount ++ " colors"⟩ ::
  a.functions.flatMap (·.logLines catalog settings)

end RegAlloc

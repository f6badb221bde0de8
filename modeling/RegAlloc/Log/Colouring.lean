import RegAlloc.Colouring.Cost
import RegAlloc.Decimal
import RegAlloc.Log.Line

/-!
# The log of a colouring

What happened to nodes and moves, line by line.
-/

namespace RegAlloc

def NodeState.name {n : Nat} : NodeState n → String
  | initial => "Initial"
  | precoloured => "Precolored"
  | simplify => "Simplify"
  | freeze => "Freeze"
  | spill => "Spill"
  | spilled => "Spilled"
  | coalesced _ => "Coalesced"
  | coloured => "Colored"
  | selected => "Selected"

def MoveState.name : MoveState → String
  | worklist => "Worklist"
  | active => "Active"
  | coalesced => "Coalesced"
  | constrained => "Constrained"
  | frozen => "Frozen"

namespace ColouringEvent

variable {n m : Nat}

/-- The part of the allocator that an event belongs to. -/
def source : ColouringEvent n m → LogSource
  | node .. | move .. => .worklist
  | interfere .. => .graph
  | attempt .. | combine .. => .coalesce
  | potentialSpill .. => .freeze
  | select | noColour _ => .select

/-- What is logged of an event, apart from the cost of a spill. -/
def message : ColouringEvent n m → String
  | node u before after =>
    "node " ++ toString u.val ++ ": " ++ before.name ++ " -> " ++ after.name
  | move i before after =>
    "move " ++ toString i.val ++ ": " ++ before.name ++ " -> " ++ after.name
  | interfere u v => "interfere " ++ toString u.val ++ " " ++ toString v.val
  | attempt i u v =>
    "coalesce move " ++ toString i.val ++ ": " ++ toString u.val ++ " <- " ++ toString v.val
  | combine u v => "combine " ++ toString v.val ++ " into " ++ toString u.val
  | potentialSpill u _ => "potential spill " ++ toString u.val
  | select => "Starting select phase"
  | noColour u => "node " ++ toString u.val ++ " has no color left"

/-- The cost of the spill that is chosen. -/
def costText (costs : Vector Float n) : ColouringEvent n m → String
  | potentialSpill u degree =>
    " with cost " ++ Decimal.textOfBits (spillCost costs u degree).toBits.toNat
  | _ => ""

/-- The line for an event. -/
def logLine (costs : Vector Float n) (e : ColouringEvent n m) : LogLine where
  level := if e.source = .select then .debug else .trace
  source := e.source
  message := e.message ++ e.costText costs

end ColouringEvent

/-- What happened, from the first to the last event. -/
def Colouring.events {n m : Nat} (s : Colouring n m) : List (ColouringEvent n m) :=
  s.trace.reverse

end RegAlloc

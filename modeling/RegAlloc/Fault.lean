/-!
# Faults

A fault is a broken promise between the parts of the allocator: a sum that leaves its machine word,
a register that was never reserved, a check on an intermediate result that fails. A fault ends the
whole computation. What is wrong with the *input* is an error of its own type instead.
-/

namespace RegAlloc

/-- The promises that can be broken. -/
inductive Fault where
  /-- A number leaves the range of its machine word. -/
  | overflow
  /-- A position outside of a table. -/
  | outOfRange
  /-- The bit matrix has no bit for a node and itself. -/
  | reflexive
  /-- A virtual register that was never reserved. -/
  | unreserved
  /-- A live set that is not a solution of the liveness equations. -/
  | unstableLiveness
  /-- A node leaves a state that it must keep. -/
  | finishedNode
  /-- A move leaves a state that it must keep. -/
  | finishedMove
  /-- A node has a neighbour fewer than none. -/
  | negativeDegree
  /-- A stored degree differs from the number of neighbours. -/
  | wrongDegree
  /-- Two interfering nodes have one colour, or a precoloured node has lost its own. -/
  | colourClash
  /-- A virtual register of the code has no colour. -/
  | uncoloured
  /-- The colouring has not ended within its bound on steps. -/
  | unfinished
  deriving DecidableEq, Repr

/-- Why a computation on some input has no result: the input is wrong, or a fault occurred. -/
inductive Failure (ε : Type) where
  | error (e : ε)
  | fault (f : Fault)
  deriving DecidableEq, Repr

/-- Says more about the error, and leaves a fault as it is. -/
def Failure.map {ε ε' : Type} (f : ε → ε') : Failure ε → Failure ε'
  | .error e => .error (f e)
  | .fault f => .fault f

end RegAlloc

import RegAlloc.Register

/-!
# Reports

What is told of the allocation of a function.
-/

namespace RegAlloc

/-- How an allocation is to be done. -/
structure Settings where
  /-- How many rounds a function gets. -/
  maxRounds : Nat := 16
  /-- Whether moves are coalesced. -/
  coalesce : Bool := true
  /-- Whether the callee saved registers are kept. -/
  calleeSaved : Bool := true
  deriving DecidableEq, Repr

/-- The result of the allocation of a function. -/
structure Report where
  function : String
  /-- How many rounds it took. -/
  rounds : Nat
  /-- The virtual registers of the input that live in a stack slot, in ascending order. -/
  spilled : List Nat
  coalescedMoves : Nat
  /-- How many moves from a register to itself were left out. -/
  removedMoves : Nat
  frameSize : Nat
  /-- The callee saved registers that are still saved and restored. -/
  calleeSaved : List PhysReg
  /-- The virtual registers of the last round in ascending order. -/
  assignment : List (Nat × PhysReg)
  deriving DecidableEq, Repr

end RegAlloc

import RegAlloc.Allocation.Report
import RegAlloc.Allocation.Round
import RegAlloc.Commit
import RegAlloc.Spill

/-!
# Allocation of a routine

A routine is coloured in rounds. If all its registers find a colour, the colours are committed.
Otherwise those without a colour are spilled, and the next round starts with the code in which they
have slots. The number of rounds is limited.

The registers that are spilled in a round are a set, and nothing says in which order they get their
slots. A `SlotOrder` is one that may be taken.
-/

namespace RegAlloc

/-- The order in which spilled registers get their slots, which may be another one in each round. -/
structure SlotOrder where
  /-- The registers that the round with the given number spills, in order. -/
  arrange : (number : Nat) → (spills : List Nat) → List Nat
  /-- Each of them gets a slot, and nothing else does. -/
  perm : ∀ number spills, (arrange number spills).Perm spills

/-- The order in which a round lists the registers that it spills. -/
def SlotOrder.ascending : SlotOrder where
  arrange _ spills := spills
  perm _ _ := .rfl

/-- A round, and the slots of the registers of the input that were asked for after it. -/
structure Attempt where
  size : Nat
  round : Round size
  slots : List (Nat × Slot)

/-- What has become of a routine, and how. -/
structure Outcome (σ : Type) where
  routine : Routine
  store : σ
  result : Except AllocationError Report
  attempts : List Attempt

namespace Spilling

variable {σ : Type} [SlotStore σ]

/-- Replaces the virtual registers by the colours of a round that spills none. -/
def commit (w : Spilling σ) (catalog : Catalog) (number : Nat) {r : Nat} (round : Round r) :
    Except Fault (Routine × Report) := do
  let assignment ← round.colouring.assignment catalog w.routine.occurring
  let routine := w.routine.assign assignment
  let report : Report :=
    { function := w.routine.name
      rounds := number
      spilled := w.record.spilled.mergeSort
      coalescedMoves := (round.colouring.movesIn .coalesced).length
      removedMoves := w.routine.instrs.length - routine.instrs.length
      frameSize := SlotStore.size w.store
      calleeSaved := []
      assignment }
  return (routine, report)

/-- Makes up to `left` rounds, the first of which has the given number. -/
def rounds (order : SlotOrder) (settings : Settings) (catalog : Catalog) :
    (left number : Nat) → (attempts : List Attempt) → Spilling σ → Except Fault (Outcome σ)
  | 0, _, attempts, w =>
    let e := .spillDidNotConverge w.routine.name settings.maxRounds
    .ok { routine := w.routine, store := w.store, result := .error e, attempts }
  | left + 1, number, attempts, w =>
    match w.routine.blockGraph with
    | .error e => .ok { routine := w.routine, store := w.store, result := .error e, attempts }
    | .ok g => do
      let round ← w.routine.round catalog g settings.coalesce w.record.retired
      if round.spills.isEmpty then
        let (routine, report) ← w.commit catalog number round
        return { routine, store := w.store, result := .ok report,
                 attempts := attempts ++ [⟨_, round, []⟩] }
      else
        let (next, slots) ← w.spill catalog (order.arrange number round.spills)
        let slots := slots.map fun (v, slot) ↦ (w.record.owner v, slot)
        rounds order settings catalog left (number + 1) (attempts ++ [⟨_, round, slots⟩]) next

end Spilling

/-- Allocates the registers of a routine, whose spilled registers get their slots from the store. -/
def Routine.allocate {σ : Type} [SlotStore σ] (f : Routine) (order : SlotOrder) (store : σ)
    (catalog : Catalog) (settings : Settings) : Except Fault (Outcome σ) :=
  if f.blocks.isEmpty then
    .ok { routine := f, store, result := .error (.emptyFunction f.name), attempts := [] }
  else Spilling.rounds order settings catalog settings.maxRounds 1 [] { routine := f, store }

end RegAlloc

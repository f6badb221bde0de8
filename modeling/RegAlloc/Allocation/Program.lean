import RegAlloc.Allocation.Routine
import RegAlloc.Bracket

/-!
# Allocation of a program

The functions of a program share nothing and are allocated one after the other, until one of them
fails. Its own code is then as far as it got.
-/

namespace RegAlloc

/-- What has become of a function, and how. -/
structure Allocated where
  function : Function
  result : Except AllocationError Report
  attempts : List Attempt

/-- Allocates the registers of a function, after it has been bracketed if the callee saved registers
are to be kept. One of these whose copy was given the register itself needs no saving. -/
def Function.allocate (f : Function) (order : SlotOrder) (catalog : Catalog)
    (settings : Settings) : Except Fault Allocated :=
  if f.blocks.isEmpty then
    .ok { function := f, result := .error (.emptyFunction f.name), attempts := [] }
  else do
    let saved := if settings.calleeSaved then f.savedRegs catalog else []
    let routine := if settings.calleeSaved then f.bracket catalog else f.toRoutine
    let outcome ← routine.allocate order f.frame catalog settings
    let result := outcome.result.map fun report ↦
      { report with
        calleeSaved :=
          (saved.filter fun (reg, v) ↦ report.assignment.lookup v ≠ some reg).map Prod.fst }
    return { function := { toRoutine := outcome.routine, frame := outcome.store }, result,
             attempts := outcome.attempts }

/-- Allocates functions one after the other, and stops behind one that fails. Each of them has an
order of its own for its slots. -/
def allocateFunctions (catalog : Catalog) (settings : Settings) :
    (orders : Nat → SlotOrder) → List Function → Except Fault (List Allocated)
  | _, [] => .ok []
  | orders, f :: fs => do
    let allocated ← f.allocate (orders 0) catalog settings
    match allocated.result with
    | .error _ => return [allocated]
    | .ok _ =>
      return allocated :: (← allocateFunctions catalog settings (fun i ↦ orders (i + 1)) fs)

/-- What has become of a program, and how. -/
structure AllocatedProgram where
  program : Program
  result : Except AllocationError (List Report)
  functions : List Allocated

/-- Allocates the registers of a program. The functions behind one that fails stay as they are. -/
def Program.allocate (p : Program) (orders : Nat → SlotOrder) (catalog : Catalog)
    (settings : Settings) : Except Fault AllocatedProgram := do
  let functions ← allocateFunctions catalog settings orders p.functions
  return {
    program :=
      { p with
        functions := functions.map (·.function) ++ p.functions.drop functions.length }
    result := functions.mapM (·.result)
    functions }

end RegAlloc

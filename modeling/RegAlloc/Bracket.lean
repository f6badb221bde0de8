import RegAlloc.Catalog
import RegAlloc.Program.Basic

/-!
# Bracketing with callee saved registers

A function has to leave with the callee saved registers as it found them. Each of them is copied to
a fresh virtual register at the entry, and copied back in reverse order at the end of the last
block. If the function does not need the register, both copies can be coalesced away.
-/

namespace RegAlloc

/-- The instructions with `inserted` behind them, but in front of a last terminator. -/
def insertAtEnd (inserted code : List Instr) : List Instr :=
  match code.getLast? with
  | none => inserted
  | some i => if i.isTerminator then code.dropLast ++ inserted ++ [i] else code ++ inserted

/-- The list with its last element changed. -/
def modifyLast {α : Type} (f : α → α) : List α → List α
  | [] => []
  | [a] => [f a]
  | a :: as => a :: modifyLast f as

namespace Routine

/-- Each callee saved register with the fresh virtual register for its copy, whose number should
have 32 bits (`Routine.HasRoom`). -/
def savedRegs (r : Routine) (catalog : Catalog) : List (PhysReg × Nat) :=
  if r.blocks.isEmpty then []
  else catalog.calleeSaved.zipIdx.map fun (reg, i) ↦ (reg, r.vregCount + i)

/-- The copies at the entry. -/
def saves (saved : List (PhysReg × Nat)) : List Instr :=
  saved.map fun (reg, v) ↦ .mv (.virt v) (.phys reg)

/-- The copies back. -/
def restores (saved : List (PhysReg × Nat)) : List Instr :=
  saved.reverse.map fun (reg, v) ↦ .mv (.phys reg) (.virt v)

/-- The routine with the copies; one without blocks stays as it is. -/
def bracket (r : Routine) (catalog : Catalog) : Routine :=
  let saved := r.savedRegs catalog
  let entered := r.blocks.modifyHead fun b ↦ { b with code := saves saved ++ b.code }
  { r with
    blocks := modifyLast (fun b ↦ { b with code := insertAtEnd (restores saved) b.code }) entered
    sizes := r.sizes ++ Array.replicate saved.length 4 }

end Routine

end RegAlloc

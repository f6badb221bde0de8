import RegAlloc.Colouring.Basic
import RegAlloc.Program.Basic

/-!
# Committing a colouring

When all the virtual registers of a function have colours, they are replaced by physical registers.
Moves from a register to itself are left out.
-/

namespace RegAlloc

namespace Routine

/-- The virtual registers that occur in the code, in ascending order. -/
def occurring (f : Routine) : List Nat :=
  (distinct (f.instrs.flatMap fun i ↦ (i.uses ++ i.defs).filterMap Reg.vreg?)).mergeSort

end Routine

/-- The physical register of a virtual one. -/
def Colouring.physical {n m : Nat} (s : Colouring n m) (catalog : Catalog) (v : Nat) :
    Except Fault PhysReg :=
  if h : v < n then
    match s.colour.get (s.rep ⟨v, h⟩) with
    | none => .error .uncoloured
    | some c =>
      match catalog.registers[c]? with
      | none => .error .outOfRange
      | some r => .ok r
  else .error .outOfRange

/-- The physical registers of virtual ones. -/
def Colouring.assignment {n m : Nat} (s : Colouring n m) (catalog : Catalog) (vs : List Nat) :
    Except Fault (List (Nat × PhysReg)) :=
  vs.mapM fun v ↦ (s.physical catalog v).map (v, ·)

/-- A register, or the physical register that it is assigned. -/
def assigned (assignment : List (Nat × PhysReg)) : Reg → Reg
  | .virt v =>
    match assignment.lookup v with
    | some r => .phys r
    | none => .virt v
  | .phys r => .phys r

/-- Whether an instruction copies a register to itself. -/
def Instr.isSelfMove (i : Instr) : Bool :=
  i.move?.any fun (rd, rs) ↦ rd = rs

/-- The code over the assigned registers, without moves from a register to itself. -/
def assignedCode (assignment : List (Nat × PhysReg)) (code : List Instr) : List Instr :=
  (code.map (·.mapRegs (assigned assignment))).filter (!·.isSelfMove)

/-- The block over the assigned registers. -/
def Block.assign (assignment : List (Nat × PhysReg)) (b : Block) : Block :=
  { b with code := assignedCode assignment b.code }

/-- The routine over the assigned registers. -/
def Routine.assign (assignment : List (Nat × PhysReg)) (f : Routine) : Routine :=
  { f with blocks := f.blocks.map (Block.assign assignment) }

end RegAlloc

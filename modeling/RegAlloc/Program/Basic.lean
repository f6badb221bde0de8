import RegAlloc.Frame
import RegAlloc.Instr.Basic

/-!
# Programs

A program is a list of globals and functions, a function a list of labelled blocks over its virtual
registers together with a stack frame. The first block is the entry.
-/

namespace RegAlloc

/-- A label and the instructions behind it. -/
structure Block where
  label : String
  code : List Instr := []
  deriving DecidableEq, Repr

/-- The code of a function, and the sizes in bytes of its virtual registers. -/
structure Routine where
  name : String
  blocks : List Block := []
  sizes : Array Nat := #[]
  deriving DecidableEq, Repr

namespace Routine

/-- How many virtual registers are reserved: those below this number. -/
def vregCount (r : Routine) : Nat :=
  r.sizes.size

/-- The size of a virtual register, a word if it is not reserved. -/
def vregSize (r : Routine) (v : Nat) : Nat :=
  r.sizes[v]?.getD 4

/-- Reserves the next virtual register. Its number should have 32 bits, which is not checked here:
there is no room to colour so many registers (`Routine.HasRoom`). -/
def addVReg (r : Routine) (size : Nat) : Nat × Routine :=
  (r.vregCount, { r with sizes := r.sizes.push size })

/-- Reserves a virtual register with the given size. Those below it are reserved as words if they
were not before. -/
def reserve (r : Routine) (v : Nat) (size : Nat) : Routine :=
  let sizes := r.sizes ++ Array.replicate (v + 1 - r.sizes.size) 4
  { r with sizes := sizes.setIfInBounds v size }

/-- Reserves the virtual registers among `regs` that are not reserved yet, as words. -/
def reserveRegs (r : Routine) (regs : List Reg) : Routine :=
  regs.foldl (fun r reg ↦
    match reg with
    | .virt v => if v < r.vregCount then r else r.reserve v 4
    | .phys _ => r) r

/-- The routine with one more instruction in its last block, if it has one, and with the virtual
registers of the instruction reserved. -/
def append? (r : Routine) (i : Instr) : Option Routine :=
  r.blocks.getLast?.map fun block ↦
    { r.reserveRegs (i.uses ++ i.defs) with
      blocks := r.blocks.dropLast ++ [{ block with code := block.code ++ [i] }] }

/-- All the instructions in order. -/
def instrs (r : Routine) : List Instr :=
  r.blocks.flatMap Block.code

end Routine

/-- A function: its routine and its stack frame. -/
structure Function extends Routine where
  frame : Frame := {}
  deriving DecidableEq, Repr

/-- A named constant. -/
structure Global where
  name : String
  value : Int32
  deriving DecidableEq, Repr

/-- A text of assembly. -/
structure Program where
  globals : List Global := []
  functions : List Function := []
  deriving DecidableEq, Repr

end RegAlloc

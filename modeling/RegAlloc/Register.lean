/-!
# Registers

A function is written over any number of virtual registers, which are numbers; the machine has the
physical registers of a catalog.
-/

namespace RegAlloc

/-- A physical register: its position in the catalog and its name. -/
structure PhysReg where
  index : Nat
  name : String
  deriving DecidableEq, Repr

/-- A register operand. -/
inductive Reg where
  | virt (v : Nat)
  | phys (r : PhysReg)
  deriving DecidableEq, Repr

namespace Reg

/-- The number of a virtual register. -/
def vreg? : Reg → Option Nat
  | virt v => some v
  | phys _ => none

theorem vreg?_eq_some_iff {r : Reg} {v : Nat} : r.vreg? = some v ↔ r = virt v := by
  cases r <;> simp [vreg?]

/-- A virtual register is written with a percent sign, a physical one by its name. -/
def text : Reg → String
  | virt v => "%" ++ toString v
  | phys r => r.name

end Reg

end RegAlloc

import RegAlloc.Catalog
import RegAlloc.Fault

/-!
# Numbering of registers

The registers of a function as the nodes of one graph: the virtual registers keep their numbers, and
the physical ones follow in catalog order.
-/

namespace RegAlloc

/-- The numbering of `virtuals` virtual registers and a catalog. -/
structure Numbering where
  virtuals : Nat
  catalog : Catalog

namespace Numbering

/-- How many registers there are. -/
def size (ν : Numbering) : Nat :=
  ν.virtuals + ν.catalog.size

theorem lt_size {ν : Numbering} {v : Nat} (h : v < ν.virtuals) : v < ν.size :=
  Nat.lt_add_right _ h

/-- Whether a number is that of a physical register. -/
def isPrecoloured (ν : Numbering) (i : Nat) : Bool :=
  ν.virtuals ≤ i

/-- The node of a register, unless it is a virtual register that is not reserved, or no register of
the catalog. -/
def node? (ν : Numbering) : Reg → Option (Fin ν.size)
  | .virt v => if h : v < ν.virtuals then some ⟨v, lt_size h⟩ else none
  | .phys r => if h : ν.virtuals + r.index < ν.size then some ⟨_, h⟩ else none

/-- The number of a register, in 32 bits. -/
def index (ν : Numbering) (r : Reg) : Except Fault Nat :=
  match ν.node? r with
  | none => .error .unreserved
  | some i => if i.val < UInt32.size then .ok i else .error .overflow

/-- The colour of a physical register, its place in the catalog, by its number. -/
def precolour (ν : Numbering) (i : Nat) : Except Fault Nat :=
  if i < ν.virtuals then .error .overflow else .ok (i - ν.virtuals)

/-- The register with the given number. -/
def register (ν : Numbering) (i : Nat) : Except Fault Reg :=
  if i < ν.virtuals then .ok (.virt i)
  else
    match ν.catalog.registers[i - ν.virtuals]? with
    | some r => .ok (.phys r)
    | none => .error .outOfRange

end Numbering

end RegAlloc

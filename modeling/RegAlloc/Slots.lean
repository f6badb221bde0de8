import RegAlloc.Distinct
import RegAlloc.Frame

/-!
# Stores of stack slots

Spilled registers get their slots from a store, which a function's own stack frame is one of. In
another store the offset of a slot depends on the register only.
-/

namespace RegAlloc

/-- A stack slot: its offset below the frame base, and its size. -/
structure Slot where
  offset : Nat
  size : Nat
  deriving DecidableEq, Repr

/-- What hands out stack slots. -/
class SlotStore (σ : Type) where
  /-- The offset of the slot of a virtual register of the given size. -/
  alloc : σ → (v size : Nat) → Except Fault (Nat × σ)
  /-- The number of bytes below the frame base that are in use. -/
  size : σ → Nat

instance : SlotStore Frame where
  alloc := Frame.alloc
  size := Frame.size

/-- Slots at regular offsets: that of the register `v` is at `base + stride * (v + 1)`, modulo
`2 ^ 32`. -/
structure StridedSlots where
  base : Nat
  stride : Nat
  /-- The slots that were asked for. -/
  slots : List (Nat × Slot) := []
  deriving DecidableEq, Repr

namespace StridedSlots

/-- The offset of a register. -/
def offset (s : StridedSlots) (v : Nat) : Nat :=
  (s.base + s.stride * (v + 1)) % UInt32.size

instance : SlotStore StridedSlots where
  alloc s v size :=
    .ok (s.offset v, { s with slots := addNew s.slots (v, ⟨s.offset v, size⟩) })
  size s := (s.slots.map (·.2.offset)).foldl max 0

end StridedSlots

end RegAlloc

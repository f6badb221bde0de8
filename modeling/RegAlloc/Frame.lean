import RegAlloc.Fault
import RegAlloc.Register

/-!
# Stack frames

A frame holds the stack slots of the spilled registers of a function. A slot is addressed by its
offset below the frame base, and is never given back: a register keeps its offset.
-/

namespace RegAlloc

/-- The slots of a function and the number of bytes below the frame base that they need. -/
structure Frame where
  size : Nat := 0
  slots : List (Nat × Nat) := []
  deriving DecidableEq, Repr

namespace Frame

/-- The offset of the slot of a register. -/
def get? (f : Frame) (v : Nat) : Option Nat :=
  f.slots.lookup v

/-- The least multiple of the slot's size (of one, if it has none) below `top` with room for the
slot. -/
def slotOffset (top size : Nat) : Nat :=
  let align := max size 1
  (top + size + align - 1) / align * align

/-- The slot of a register, which is a new one of the given size if it has none. Sizes are numbers
of 32 bits, and so are the sums on the way to the offset. -/
def alloc (f : Frame) (v : Nat) (size : Nat) : Except Fault (Nat × Frame) :=
  match f.get? v with
  | some offset => .ok (offset, f)
  | none =>
    if f.size + size + max size 1 < UInt32.size then
      let offset := slotOffset f.size size
      .ok (offset, { size := offset, slots := f.slots ++ [(v, offset)] })
    else .error .overflow

end Frame

end RegAlloc

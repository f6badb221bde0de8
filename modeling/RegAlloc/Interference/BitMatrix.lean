import RegAlloc.Fault
import RegAlloc.Text.Listing

/-!
# Bit matrices

The lower triangle of a symmetric matrix of bits without its diagonal, packed into one row of bits.
-/

namespace RegAlloc

open Text

/-- A matrix with a bit for each pair of different numbers below `n`. -/
structure BitMatrix (n : Nat) where
  bits : Vector Bool ((n * n + 1) / 2)
  deriving DecidableEq

namespace BitMatrix

variable {n : Nat}

/-- The matrix without any bit set, once `checkRoom` has found room for it. -/
def empty (n : Nat) : BitMatrix n :=
  ⟨Vector.replicate _ false⟩

/-- The place of a pair in the row. -/
def place (x y : Nat) : Nat :=
  max x y * (max x y - 1) / 2 + min x y

/-- The bit of a pair. -/
def get (m : BitMatrix n) (x y : Nat) : Bool :=
  m.bits[place x y]?.getD false

/-- The matrix with the bit of a pair changed. -/
def set (m : BitMatrix n) (x y : Nat) (b : Bool) : BitMatrix n :=
  ⟨m.bits.setIfInBounds (place x y) b⟩

/-- Refuses a pair that has no place in the row. -/
def check (n x y : Nat) : Except Fault Unit :=
  if x = y then .error .reflexive
  else if place x y < (n * n + 1) / 2 then .ok ()
  else .error .outOfRange

/-- The bit of a pair that has one. -/
def get? (m : BitMatrix n) (x y : Nat) : Except Fault Bool := do
  check n x y
  return m.get x y

/-- Changes the bit of a pair that has one, and gives the bit that was there. -/
def replace? (m : BitMatrix n) (x y : Nat) (b : Bool) : Except Fault (Bool × BitMatrix n) := do
  check n x y
  return (m.get x y, m.set x y b)

/-- Refuses to make a matrix whose row is too long: the number of its bits has to be one of 61
bits. -/
def checkRoom (n : Nat) : Except Fault Unit :=
  if (n * n + 1) / 2 < UInt64.size / 8 then .ok () else .error .overflow

/-- One line for each number from one on: its bits with the smaller numbers. -/
def text (m : BitMatrix n) : String :=
  "\n" ++ unlines ((List.range n).tail.map fun i ↦
    padStart 4 (toString i) ++ ":[" ++
      String.ofList ((List.range i).map fun j ↦ if m.get i j then '1' else '0') ++ "]")

end BitMatrix

end RegAlloc

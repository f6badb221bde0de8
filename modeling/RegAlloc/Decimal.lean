/-!
# Shortest decimals

The decimal number with the fewest digits among those that are nearer to a given floating-point
number than to any other one. Of several such decimals the nearest is taken, and the larger one of
two that are equally near.
-/

namespace RegAlloc

/-- A decimal number `digits * 10 ^ exponent`. -/
structure Decimal where
  digits : Nat
  exponent : Int
  deriving DecidableEq, Repr

namespace Decimal

/-- A floating-point number `mantissa * 2 ^ exponent`. If it is a power of two, the next smaller
number is only half as far away as the next larger one. -/
structure Binary where
  mantissa : Nat
  exponent : Int
  isPower : Bool
  deriving DecidableEq, Repr

/-- The 52 bits that follow the exponent of a floating-point number. -/
def fractionOfBits (bits : Nat) : Nat :=
  bits % 0x10000000000000

/-- The 11 bits of the exponent of a floating-point number. -/
def exponentOfBits (bits : Nat) : Nat :=
  bits / 0x10000000000000 % 0x800

/-- The floating-point number with the given 64 bits, which is finite, without its sign. -/
def Binary.ofBits (bits : Nat) : Binary :=
  let fraction := fractionOfBits bits
  let biased := exponentOfBits bits
  if biased = 0 then ⟨fraction, -1074, false⟩
  else ⟨0x10000000000000 + fraction, biased - 1075, fraction = 0 ∧ 1 < biased⟩

/-- Numerator and denominator of `a * b ^ e`. -/
def scaled (a b : Nat) (e : Int) : Nat × Nat :=
  if 0 ≤ e then (a * Nat.pow b e.toNat, 1) else (a, Nat.pow b (-e).toNat)

/-- How many decimal digits a number has. -/
def digitCount (n : Nat) : Nat :=
  (toString n).length

/-- How often a number has to be multiplied by ten to be at least `bound`. -/
def tensBelow (bound : Nat) : (fuel n : Nat) → Nat
  | 0, _ => 0
  | fuel + 1, n => if bound ≤ n then 0 else tensBelow bound fuel (n * 10) + 1

/-- The least exponent `e` such that `num / den`, which is positive, is less than `10 ^ e`. -/
def magnitude (num den : Nat) : Int :=
  if den ≤ num then digitCount (num / den) else 1 - tensBelow den (digitCount den) num

/-- The best decimal with the exponent `e` for a floating-point number, if one is good enough. The
good ones lie between the middles to the two neighbours of the number, which are good themselves if
the mantissa is even. -/
def atExponent? (b : Binary) (e : Int) : Option Decimal :=
  let (num, den) := scaled 1 2 (b.exponent - 2)
  let (tenNum, tenDen) := scaled 1 10 e
  -- In a common unit, a decimal is a multiple of `step`, and a quarter of the last place is `part`.
  let step := tenNum * den
  let part := num * tenDen
  let value := 4 * b.mantissa * part
  let lo := (4 * b.mantissa - if b.isPower then 1 else 2) * part
  let hi := (4 * b.mantissa + 2) * part
  let isGood (d : Nat) : Bool :=
    if b.mantissa % 2 = 0 then lo ≤ d * step && d * step ≤ hi else lo < d * step && d * step < hi
  let below := value / step
  let above := below + 1
  if isGood above && (!isGood below || above * step - value ≤ value - below * step) then
    some ⟨above, e⟩
  else if isGood below then some ⟨below, e⟩
  else none

/-- The shortest decimal for a positive floating-point number: seventeen digits are enough. -/
def shortest? (b : Binary) : Option Decimal :=
  let (num, den) := scaled b.mantissa 2 b.exponent
  let e := magnitude num den
  (List.range 17).findSome? fun (i : Nat) ↦ atExponent? b (e - (i + 1))

/-- Moves zeros at the end of the digits to the exponent. -/
def normalize (d : Decimal) : (fuel : Nat) → Decimal
  | 0 => d
  | fuel + 1 =>
    if d.digits ≠ 0 ∧ d.digits % 10 = 0 then normalize ⟨d.digits / 10, d.exponent + 1⟩ fuel else d

/-- The decimal written without an exponent, and without a point if it is whole. -/
def positional (d : Decimal) : String :=
  let d := d.normalize (digitCount d.digits)
  let digits := (toString d.digits).toList
  let zeros (n : Nat) := List.replicate n '0'
  if 0 ≤ d.exponent then String.ofList (digits ++ zeros d.exponent.toNat)
  else
    let places := (-d.exponent).toNat
    let digits := zeros (places + 1 - digits.length) ++ digits
    let whole := digits.length - places
    String.ofList (digits.take whole ++ ['.'] ++ digits.drop whole)

/-- The text of the floating-point number with the given 64 bits, which has no sign. -/
def textOfBits (bits : Nat) : String :=
  if exponentOfBits bits = 0x7FF then (if fractionOfBits bits = 0 then "inf" else "NaN")
  else if exponentOfBits bits = 0 ∧ fractionOfBits bits = 0 then "0"
  else (shortest? (.ofBits bits)).elim "0" positional

example : textOfBits 0x3FF7777777777777 = "1.4666666666666666" := by decide +kernel
example : textOfBits 0x4024000000000000 = "10" := by decide +kernel
example : textOfBits 0x44B52D02C7E14AF6 = "100000000000000000000000" := by decide +kernel

end Decimal

end RegAlloc

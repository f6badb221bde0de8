/-!
# Numerals

Reading integers from characters: a sign, then at least one digit, and nothing else.
-/

namespace RegAlloc.Text

/-- The value of a digit in the given base, up to sixteen. -/
def digit? (base : Nat) (c : Char) : Option Nat :=
  let value? :=
    if '0' ≤ c ∧ c ≤ '9' then some (c.toNat - '0'.toNat)
    else if 'a' ≤ c ∧ c ≤ 'f' then some (c.toNat - 'a'.toNat + 10)
    else if 'A' ≤ c ∧ c ≤ 'F' then some (c.toNat - 'A'.toNat + 10)
    else none
  value?.filter (· < base)

/-- The number that continues `acc` with the digits `cs`. -/
def digits? (base : Nat) (acc : Nat) : List Char → Option Nat
  | [] => some acc
  | c :: cs => (digit? base c).bind fun d ↦ digits? base (acc * base + d) cs

/-- The number written by one or more digits. -/
def natural? (base : Nat) (cs : List Char) : Option Nat :=
  if cs.isEmpty then none else digits? base 0 cs

/-- A natural number below `bound`; a plus sign may stand in front of it. -/
def unsigned? (base bound : Nat) (cs : List Char) : Option Nat :=
  let magnitude? :=
    match cs with
    | '+' :: ds => natural? base ds
    | ds => natural? base ds
  magnitude?.filter (· < bound)

/-- An integer from `-bound` up to, and without, `bound`; a sign may stand in front of it. -/
def signed? (base bound : Nat) (cs : List Char) : Option Int :=
  let value? : Option Int :=
    match cs with
    | '-' :: ds => (natural? base ds).map fun n ↦ -(n : Int)
    | '+' :: ds => (natural? base ds).map fun n ↦ (n : Int)
    | ds => (natural? base ds).map fun n ↦ (n : Int)
  value?.filter fun v ↦ -(bound : Int) ≤ v ∧ v < bound

end RegAlloc.Text

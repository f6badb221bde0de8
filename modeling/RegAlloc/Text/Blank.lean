/-!
# Blank characters

The characters that separate words of the assembly text: those with the Unicode property
`White_Space`.
-/

namespace RegAlloc.Text

/-- The ranges of code points with the property `White_Space`, in ascending order, ends included. -/
def blankRanges : List (Nat × Nat) :=
  [(0x09, 0x0D), (0x20, 0x20), (0x85, 0x85), (0xA0, 0xA0), (0x1680, 0x1680), (0x2000, 0x200A),
    (0x2028, 0x2029), (0x202F, 0x202F), (0x205F, 0x205F), (0x3000, 0x3000)]

/-- Whether a character is blank. -/
def isBlank (c : Char) : Bool :=
  blankRanges.any fun (lo, hi) ↦ lo ≤ c.toNat && c.toNat ≤ hi

example : (blankRanges.map fun (lo, hi) ↦ hi - lo + 1).sum = 25 := by decide

end RegAlloc.Text

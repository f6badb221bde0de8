import RegAlloc.Instr.Opcode
import RegAlloc.Text.Listing

/-!
# Writing instructions

An instruction is its operation code, a blank, and its operands with commas between them. A call
writes its arguments in parentheses behind the callee. The registers that a call clobbers and a
return preserves are those of the catalog, and are not written.
-/

namespace RegAlloc

open Text

/-- The text of a constant. -/
def immText (imm : Int32) : String :=
  toString imm.toInt

/-- A memory operand. -/
def addressText (offset : Int32) (base : Reg) : String :=
  immText offset ++ "(" ++ base.text ++ ")"

namespace Instr

/-- The texts of the operands between the commas. -/
def operandTexts : Instr → List String
  | li rd imm => [rd.text, immText imm]
  | mv rd rs => [rd.text, rs.text]
  | la rd symbol => [rd.text, symbol]
  | arith _ rd rs₁ rs₂ => [rd.text, rs₁.text, rs₂.text]
  | arithImm _ rd rs imm => [rd.text, rs.text, immText imm]
  | load _ rd base offset => [rd.text, addressText offset base]
  | store _ rs base offset => [rs.text, addressText offset base]
  | loadSymbol _ rd symbol => [rd.text, symbol]
  | storeSymbol _ rs scratch symbol => [rs.text, symbol, scratch.text]
  | branch _ rs₁ rs₂ target => [rs₁.text, rs₂.text, target]
  | jump target => [target]
  | call callee arguments _ => [callee ++ "(" ++ commaSeparated (arguments.map Reg.text) ++ ")"]
  | ret values _ => values.map Reg.text

/-- The text of the instruction. -/
def text (i : Instr) : String :=
  match i.operandTexts with
  | [] => i.opcode.name
  | operands => i.opcode.name ++ " " ++ commaSeparated operands

end Instr

end RegAlloc

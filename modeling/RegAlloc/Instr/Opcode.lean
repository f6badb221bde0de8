import RegAlloc.Instr.Basic

/-!
# Operation codes

The first word of a written instruction. It fixes the form of the operands, except that a load or a
store has an address or a symbol.
-/

namespace RegAlloc

/-- What the first word of an instruction can be. -/
inductive Opcode where
  | li
  | mv
  | la
  | jump
  | ret
  | call
  | arith (op : BinOp)
  | arithImm (op : ImmOp)
  | branch (cond : Cond)
  | load (width : Width)
  | store (width : Width)
  deriving DecidableEq, Repr

namespace Opcode

def all : List Opcode :=
  [li, mv, la, jump, ret, call] ++ BinOp.all.map arith ++ ImmOp.all.map arithImm ++
    Cond.all.map branch ++
    [load .byte, load .half, load .word, store .byte, store .half, store .word]

/-- How the code is written. -/
def name : Opcode → String
  | li => "li"
  | mv => "mv"
  | la => "la"
  | jump => "j"
  | ret => "ret"
  | call => "call"
  | arith op => op.name
  | arithImm op => op.name
  | branch cond => cond.name
  | load width => "l" ++ width.letter
  | store width => "s" ++ width.letter

/-- The code that is written as the given word. -/
def ofName? (name : String) : Option Opcode :=
  all.find? (·.name = name)

/-- No two codes are written alike. -/
theorem ofName?_name (o : Opcode) : ofName? o.name = some o := by
  cases o with
  | arith op => cases op <;> rfl
  | arithImm op => cases op <;> rfl
  | branch cond => cases cond <;> rfl
  | load width => cases width <;> rfl
  | store width => cases width <;> rfl
  | _ => rfl

end Opcode

/-- The code of an instruction. -/
def Instr.opcode : Instr → Opcode
  | li .. => .li
  | mv .. => .mv
  | la .. => .la
  | arith op .. => .arith op
  | arithImm op .. => .arithImm op
  | load width .. => .load width
  | store width .. => .store width
  | loadSymbol width .. => .load width
  | storeSymbol width .. => .store width
  | branch cond .. => .branch cond
  | jump .. => .jump
  | call .. => .call
  | ret .. => .ret

end RegAlloc

import RegAlloc.Catalog
import RegAlloc.Fault
import RegAlloc.Instr.Opcode
import RegAlloc.Text.Numeral
import RegAlloc.Text.Piece

/-!
# Reading instructions

`Instr.read` reads one instruction from a line without blanks on its sides. Virtual registers are
written with a percent sign; every other register is one of the catalog, which also says what a call
clobbers and what a return preserves.
-/

namespace RegAlloc

open Text

/-- What can be wrong with a line. -/
inductive ParseCause where
  | unknownInstruction (word : String)
  | unknownRegister (name : String)
  | operandCount (expected got : Nat)
  | invalidImmediate (text : String)
  | invalidAddress (text : String)
  | outsideBlock
  | unexpected (text : String)
  | unclosedFunction (name : String)
  deriving DecidableEq, Repr

/-- The wording of the cause. -/
def ParseCause.message : ParseCause → String
  | unknownInstruction word => "unknown instruction `" ++ word ++ "`"
  | unknownRegister name => "unknown register `" ++ name ++ "`"
  | operandCount expected got =>
    "expected " ++ toString expected ++ " operands, got " ++ toString got
  | invalidImmediate text => "invalid immediate `" ++ text ++ "`"
  | invalidAddress text => "invalid memory operand `" ++ text ++ "`"
  | outsideBlock => "instruction outside of a block"
  | unexpected text => "unexpected `" ++ text ++ "`"
  | unclosedFunction name => "function `" ++ name ++ "` is not closed"

/-- A result of reading a part of a line. -/
abbrev Reading (α : Type) := Except (Failure ParseCause) α

/-- Refuses what was read. -/
def refuse {α : Type} (cause : ParseCause) : Reading α :=
  .error (.error cause)

/-- A constant: an integer of 64 bits in decimal or, behind `0x`, in hexadecimal. One more minus
sign may stand in front of it, and the result has to fit into 32 bits. -/
def readImm (cs : List Char) : Reading Int32 :=
  let (negative, magnitude) :=
    match cs with
    | '-' :: rest => (true, rest)
    | rest => (false, rest)
  let value? :=
    match after? ['0', 'x'] magnitude with
    | some hex => signed? 16 (UInt64.size / 2) hex
    | none => signed? 10 (UInt64.size / 2) magnitude
  match value? with
  | none => refuse (.invalidImmediate (String.ofList cs))
  | some value =>
    if negative ∧ value = Int64.minValue.toInt then .error (.fault .overflow)
    else
      let value := if negative then -value else value
      if Int32.minValue.toInt ≤ value ∧ value ≤ Int32.maxValue.toInt then .ok (Int32.ofInt value)
      else refuse (.invalidImmediate (String.ofList cs))

/-- A register: a percent sign and a number of 32 bits, or a name of the catalog. -/
def readReg (catalog : Catalog) (cs : List Char) : Reading Reg :=
  let reg? :=
    match cs with
    | '%' :: number => (unsigned? 10 UInt32.size number).map Reg.virt
    | name => (catalog.find? (String.ofList name)).map Reg.phys
  match reg? with
  | some reg => .ok reg
  | none => refuse (.unknownRegister (String.ofList cs))

/-- A memory operand: an offset, which is zero if it is not written, and a base in parentheses. -/
def readAddress (catalog : Catalog) (cs : List Char) : Reading (Int32 × Reg) :=
  match cut? (· = '(') cs with
  | none => refuse (.invalidAddress (String.ofList cs))
  | some (offset, base) =>
    match before? ')' base with
    | none => refuse (.invalidAddress (String.ofList cs))
    | some base => do
      let offset ← if (trim offset).isEmpty then .ok 0 else readImm (trim offset)
      let base ← readReg catalog (trim base)
      return (offset, base)

namespace Instr

/-- What follows the word `call`: a callee and arguments in parentheses. Empty arguments are
passed over. -/
def readCall (catalog : Catalog) (cs : List Char) : Reading Instr :=
  match cut? (· = '(') cs with
  | none => refuse (.unexpected (String.ofList cs))
  | some (callee, arguments) =>
    match before? ')' (trimEnd arguments) with
    | none => refuse (.unexpected (String.ofList cs))
    | some arguments => do
      let arguments := ((fields ',' arguments).map trim).filter (!·.isEmpty)
      let arguments ← arguments.mapM (readReg catalog)
      return call (String.ofList (trim callee)) arguments (catalog.callerSaved.map .phys)

/-- A store. Its first operand is read before the operands are counted. -/
def readStore (catalog : Catalog) (width : Width) : List (List Char) → Reading Instr
  | [] => refuse (.operandCount 2 0)
  | rs :: operands => do
    let rs ← readReg catalog rs
    match operands with
    | [address] =>
      let (offset, base) ← readAddress catalog address
      return store width rs base offset
    | [symbol, scratch] =>
      let scratch ← readReg catalog scratch
      return storeSymbol width rs scratch (String.ofList symbol)
    | _ => refuse (.operandCount 2 (operands.length + 1))

/-- What follows an operation code; all but a call have operands with commas between them. -/
def readOperands (catalog : Catalog) (code : Opcode) (rest : List Char) : Reading Instr :=
  let operands := if rest.isEmpty then [] else (fields ',' rest).map trim
  let miscounted expected := refuse (.operandCount expected operands.length)
  match code with
  | .li =>
    match operands with
    | [rd, imm] => return li (← readReg catalog rd) (← readImm imm)
    | _ => miscounted 2
  | .mv =>
    match operands with
    | [rd, rs] => return mv (← readReg catalog rd) (← readReg catalog rs)
    | _ => miscounted 2
  | .la =>
    match operands with
    | [rd, symbol] => return la (← readReg catalog rd) (String.ofList symbol)
    | _ => miscounted 2
  | .jump =>
    match operands with
    | [target] => return jump (String.ofList target)
    | _ => miscounted 1
  | .arith op =>
    match operands with
    | [rd, rs₁, rs₂] =>
      return arith op (← readReg catalog rd) (← readReg catalog rs₁) (← readReg catalog rs₂)
    | _ => miscounted 3
  | .arithImm op =>
    match operands with
    | [rd, rs, imm] =>
      return arithImm op (← readReg catalog rd) (← readReg catalog rs) (← readImm imm)
    | _ => miscounted 3
  | .branch cond =>
    match operands with
    | [rs₁, rs₂, target] =>
      return branch cond (← readReg catalog rs₁) (← readReg catalog rs₂) (String.ofList target)
    | _ => miscounted 3
  | .load width =>
    match operands with
    | [rd, source] => do
      let rd ← readReg catalog rd
      if source.contains '(' then
        let (offset, base) ← readAddress catalog source
        return load width rd base offset
      else return loadSymbol width rd (String.ofList source)
    | _ => miscounted 2
  | .store width => readStore catalog width operands
  | .call => readCall catalog rest
  | .ret => do
    let values ← operands.mapM (readReg catalog)
    return ret values (catalog.calleeSaved.map .phys)

/-- One instruction: an operation code, and its operands behind a blank. -/
def read (catalog : Catalog) (line : List Char) : Reading Instr :=
  let (word, rest) := (cut? isBlank line).getD (line, [])
  match Opcode.ofName? (String.ofList word) with
  | none => refuse (.unknownInstruction (String.ofList word))
  | some code => readOperands catalog code (trim rest)

end Instr

end RegAlloc

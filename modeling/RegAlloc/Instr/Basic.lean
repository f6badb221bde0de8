import RegAlloc.Register

/-!
# Instructions

The instruction set that the allocator understands, and what it has to know of an instruction: which
registers it writes (`defs`) and reads (`uses`), whether it copies a register, and where control
goes after it.
-/

namespace RegAlloc

/-- The size of a memory access. -/
inductive Width where
  | byte
  | half
  | word
  deriving DecidableEq, Repr

namespace Width

/-- The width of a value of the given number of bytes; other sizes are accessed as words. -/
def ofSize : Nat → Width
  | 1 => byte
  | 2 => half
  | _ => word

/-- The number of bytes. -/
def bytes : Width → Nat
  | byte => 1
  | half => 2
  | word => 4

/-- The letter in the name of a load or a store. -/
def letter : Width → String
  | byte => "b"
  | half => "h"
  | word => "w"

end Width

/-- Operations on two registers. -/
inductive BinOp where
  | add | sub | mul | div | rem | and | or | xor | sll | srl | sra | slt | sltu
  deriving DecidableEq, Repr

namespace BinOp

def all : List BinOp :=
  [add, sub, mul, div, rem, and, or, xor, sll, srl, sra, slt, sltu]

def name : BinOp → String
  | add => "add"
  | sub => "sub"
  | mul => "mul"
  | div => "div"
  | rem => "rem"
  | and => "and"
  | or => "or"
  | xor => "xor"
  | sll => "sll"
  | srl => "srl"
  | sra => "sra"
  | slt => "slt"
  | sltu => "sltu"

end BinOp

/-- Operations on a register and a constant. -/
inductive ImmOp where
  | addi | andi | ori | xori | slli | srli | srai | slti
  deriving DecidableEq, Repr

namespace ImmOp

def all : List ImmOp :=
  [addi, andi, ori, xori, slli, srli, srai, slti]

def name : ImmOp → String
  | addi => "addi"
  | andi => "andi"
  | ori => "ori"
  | xori => "xori"
  | slli => "slli"
  | srli => "srli"
  | srai => "srai"
  | slti => "slti"

end ImmOp

/-- Conditions of a branch. -/
inductive Cond where
  | beq | bne | blt | bge | bltu | bgeu
  deriving DecidableEq, Repr

namespace Cond

def all : List Cond :=
  [beq, bne, blt, bge, bltu, bgeu]

def name : Cond → String
  | beq => "beq"
  | bne => "bne"
  | blt => "blt"
  | bge => "bge"
  | bltu => "bltu"
  | bgeu => "bgeu"

end Cond

/-- An instruction over virtual and physical registers. -/
inductive Instr where
  | li (rd : Reg) (imm : Int32)
  | mv (rd rs : Reg)
  /-- Writes the address of a symbol. -/
  | la (rd : Reg) (symbol : String)
  | arith (op : BinOp) (rd rs₁ rs₂ : Reg)
  | arithImm (op : ImmOp) (rd rs : Reg) (imm : Int32)
  | load (width : Width) (rd base : Reg) (offset : Int32)
  | store (width : Width) (rs base : Reg) (offset : Int32)
  | loadSymbol (width : Width) (rd : Reg) (symbol : String)
  /-- Writes the address of the symbol to `scratch`, and then stores `rs` there. -/
  | storeSymbol (width : Width) (rs scratch : Reg) (symbol : String)
  | branch (cond : Cond) (rs₁ rs₂ : Reg) (target : String)
  | jump (target : String)
  /-- A call writes all the registers of `clobbers`. -/
  | call (callee : String) (arguments clobbers : List Reg)
  /-- The registers of `preserved` have to hold their values from the entry of the function. -/
  | ret (values preserved : List Reg)
  deriving DecidableEq, Repr

namespace Instr

/-- The registers that the instruction writes, in operand order. -/
def defs : Instr → List Reg
  | li rd _ | mv rd _ | la rd _ | arith _ rd _ _ | arithImm _ rd _ _ | load _ rd _ _
  | loadSymbol _ rd _ => [rd]
  | storeSymbol _ _ scratch _ => [scratch]
  | call _ _ clobbers => clobbers
  | store .. | branch .. | jump _ | ret .. => []

/-- The registers that the instruction reads, in operand order. -/
def uses : Instr → List Reg
  | mv _ rs | storeSymbol _ rs _ _ | arithImm _ _ rs _ => [rs]
  | arith _ _ rs₁ rs₂ | branch _ rs₁ rs₂ _ => [rs₁, rs₂]
  | load _ _ base _ => [base]
  | store _ rs base _ => [rs, base]
  | call _ arguments _ => arguments
  | ret values preserved => values ++ preserved
  | li .. | la .. | loadSymbol .. | jump _ => []

/-- The instruction with every register operand replaced. -/
def mapRegs (f : Reg → Reg) : Instr → Instr
  | li rd imm => li (f rd) imm
  | mv rd rs => mv (f rd) (f rs)
  | la rd symbol => la (f rd) symbol
  | arith op rd rs₁ rs₂ => arith op (f rd) (f rs₁) (f rs₂)
  | arithImm op rd rs imm => arithImm op (f rd) (f rs) imm
  | load width rd base offset => load width (f rd) (f base) offset
  | store width rs base offset => store width (f rs) (f base) offset
  | loadSymbol width rd symbol => loadSymbol width (f rd) symbol
  | storeSymbol width rs scratch symbol => storeSymbol width (f rs) (f scratch) symbol
  | branch cond rs₁ rs₂ target => branch cond (f rs₁) (f rs₂) target
  | jump target => jump target
  | call callee arguments clobbers => call callee (arguments.map f) (clobbers.map f)
  | ret values preserved => ret (values.map f) (preserved.map f)

/-- Destination and source of a copy. -/
def move? : Instr → Option (Reg × Reg)
  | mv rd rs => some (rd, rs)
  | _ => none

/-- The address register and the value of a store to a symbol. The address is written before the
value is read, so the two must differ. -/
def symbolicStore? : Instr → Option (Reg × Reg)
  | storeSymbol _ rs scratch _ => some (scratch, rs)
  | _ => none

/-- The label that control may go to. -/
def target? : Instr → Option String
  | branch _ _ _ target | jump target => some target
  | _ => none

/-- Whether control never goes on to the next instruction. -/
def isTerminator : Instr → Bool
  | jump _ | ret .. => true
  | _ => false

/-- The instructions up to the first terminator, which is included: control reaches no others. -/
def upToTerminator : List Instr → List Instr
  | [] => []
  | i :: is => if i.isTerminator then [i] else i :: upToTerminator is

@[simp]
theorem defs_mapRegs (f : Reg → Reg) (i : Instr) : (i.mapRegs f).defs = i.defs.map f := by
  cases i <;> rfl

@[simp]
theorem uses_mapRegs (f : Reg → Reg) (i : Instr) : (i.mapRegs f).uses = i.uses.map f := by
  cases i <;> simp [mapRegs, uses]

@[simp]
theorem target?_mapRegs (f : Reg → Reg) (i : Instr) : (i.mapRegs f).target? = i.target? := by
  cases i <;> rfl

@[simp]
theorem isTerminator_mapRegs (f : Reg → Reg) (i : Instr) :
    (i.mapRegs f).isTerminator = i.isTerminator := by
  cases i <;> rfl

end Instr

end RegAlloc

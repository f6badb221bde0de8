import RegAlloc.Register

/-!
# Register catalogs

A catalog lists the physical registers of a machine in order. The allocatable ones, callee saved and
caller saved, are the last of the list, and their positions are the colours. The frame base is a
register that is not allocatable and addresses the stack slots.

`Catalog.ofNames?` makes a catalog from the names of its parts and says what is wrong with them
otherwise; `Catalog.riscv32` is the catalog of the 32 bit RISC-V integer registers.
-/

namespace RegAlloc

/-- What can be wrong with the parts of a catalog. -/
inductive CatalogError where
  | empty
  | noAllocatableRegisters
  | duplicate (name : String)
  | unknownRegister (name : String)
  /-- An allocatable register is not one of the last `count`. -/
  | notASuffix (name : String) (count : Nat)
  | allocatableFrameBase (name : String)
  deriving DecidableEq, Repr

/-- The wording of the error. -/
def CatalogError.message : CatalogError → String
  | empty => "the register catalog is empty"
  | noAllocatableRegisters => "the register catalog has no allocatable registers"
  | duplicate name => "register `" ++ name ++ "` is listed twice"
  | unknownRegister name => "register `" ++ name ++ "` is not part of the catalog"
  | notASuffix name count =>
    "allocatable register `" ++ name ++ "` is not in the last " ++ toString count ++
      " catalog positions"
  | allocatableFrameBase name => "frame base `" ++ name ++ "` cannot be an allocatable register"

/-- The physical registers of a machine. -/
structure Catalog where
  registers : List PhysReg
  calleeSaved : List PhysReg
  callerSaved : List PhysReg
  frameBase : PhysReg
  deriving DecidableEq, Repr

namespace Catalog

/-- How many registers there are. -/
def size (c : Catalog) : Nat :=
  c.registers.length

/-- How many colours there are. -/
def colourCount (c : Catalog) : Nat :=
  c.calleeSaved.length + c.callerSaved.length

/-- The first colour; the colours go from here to the end of the catalog. -/
def firstColour (c : Catalog) : Nat :=
  c.size - c.colourCount

/-- Whether a catalog position is a colour. -/
def isColour (c : Catalog) (i : Nat) : Bool :=
  c.firstColour ≤ i && i < c.size

/-- Whether a register can be handed out. -/
def isAllocatable (c : Catalog) (r : PhysReg) : Bool :=
  c.isColour r.index

/-- The register with the given name. -/
def find? (c : Catalog) (name : String) : Option PhysReg :=
  c.registers.find? (·.name = name)

/-! ## Making a catalog -/

/-- The registers with the given names. A position is a 16 bit number. -/
def number (names : List String) : List PhysReg :=
  names.zipIdx.map fun (name, i) ↦ ⟨i % 65536, name⟩

/-- The first element that is one of `seen` or of those before it. -/
def firstRepeat? {α : Type} [DecidableEq α] (seen : List α) : List α → Option α
  | [] => none
  | a :: as => if a ∈ seen then some a else firstRepeat? (a :: seen) as

/-- The register with the given name among `registers`. -/
def lookup (registers : List PhysReg) (name : String) : Except CatalogError PhysReg :=
  match registers.find? (·.name = name) with
  | some r => .ok r
  | none => .error (.unknownRegister name)

/-- Checks the allocatable registers in order: none repeats one of `seen` or an earlier one, and
each is at position `first` or later. -/
def checkAllocatable (first count : Nat) (seen : List Nat) : List PhysReg → Except CatalogError Unit
  | [] => .ok ()
  | r :: rs =>
    if r.index ∈ seen then .error (.duplicate r.name)
    else if r.index < first then .error (.notASuffix r.name count)
    else checkAllocatable first count (r.index :: seen) rs

/-- The catalog with the given parts, or the first thing that is wrong with them. -/
def ofNames? (names calleeSaved callerSaved : List String) (frameBase : String) :
    Except CatalogError Catalog :=
  if names.isEmpty then .error .empty
  else
    match firstRepeat? [] names with
    | some name => .error (.duplicate name)
    | none => do
      let registers := number names
      let calleeSaved ← calleeSaved.mapM (lookup registers)
      let callerSaved ← callerSaved.mapM (lookup registers)
      let frameBase ← lookup registers frameBase
      let allocatable := calleeSaved ++ callerSaved
      let count := allocatable.length
      if count = 0 then .error .noAllocatableRegisters
      else
        checkAllocatable (registers.length - count) count [] allocatable
        if frameBase.index ∈ allocatable.map (·.index) then
          .error (.allocatableFrameBase frameBase.name)
        else .ok { registers, calleeSaved, callerSaved, frameBase }

/-! ## The RISC-V catalog -/

/-- The registers with a fixed purpose, then the caller saved and the callee saved ones. -/
def riscv32Names : List String :=
  ["zero", "ra", "sp", "gp", "tp", "s0",
    "t0", "t1", "t2", "a0", "a1", "a2", "a3", "a4", "a5", "a6", "a7", "t3", "t4", "t5", "t6",
    "s1", "s2", "s3", "s4", "s5", "s6", "s7", "s8", "s9", "s10", "s11"]

/-- The 32 bit RISC-V integer registers, with `s0` as the frame base. -/
def riscv32 : Catalog where
  registers := number riscv32Names
  calleeSaved := (number riscv32Names).drop 21
  callerSaved := ((number riscv32Names).drop 6).take 15
  frameBase := ⟨5, "s0"⟩

theorem ofNames?_riscv32 :
    ofNames? riscv32Names (riscv32Names.drop 21) ((riscv32Names.drop 6).take 15) "s0" =
      .ok riscv32 := by rfl

end Catalog

end RegAlloc

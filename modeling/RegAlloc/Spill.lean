import RegAlloc.Catalog
import RegAlloc.Program.Basic
import RegAlloc.Slots

/-!
# Spill code

A spilled register lives in a stack slot. In front of each instruction that uses it, a fresh
temporary is loaded from the slot, and behind each instruction that defines it, the temporary is
stored. A temporary can be spilled in a later round; it then shares the slot of the register of the
input that it stands for.

The displacement of a slot from the frame base has to fit into the 12 bits of a load or store.
Otherwise the address is computed in a register first: in the temporary itself for a load, in one
more fresh register for a store.
-/

namespace RegAlloc

/-- Changes a state along a list, and collects what comes out at each element. -/
def mapAccumM {σ α β : Type} (f : σ → α → Except Fault (β × σ)) :
    σ → List α → Except Fault (List β × σ)
  | s, [] => .ok ([], s)
  | s, a :: as => do
    let (b, s) ← f s a
    let (bs, s) ← mapAccumM f s as
    return (b :: bs, s)

/-- The negated offset as a signed number of 32 bits. -/
def displacement (offset : Nat) : Except Fault Int32 :=
  if Int32.ofNat offset = Int32.minValue then .error .overflow else .ok (-Int32.ofNat offset)

/-- Whether a displacement fits into a load or store. -/
def isNear (d : Int32) : Bool :=
  -2048 ≤ d.toInt && d.toInt < 2048

/-- Loads the register `t` from a slot. -/
def loadSlot (frameBase : Reg) (t : Nat) (slot : Slot) : Except Fault (List Instr) := do
  let d ← displacement slot.offset
  let width := Width.ofSize slot.size
  return if isNear d then [.load width (.virt t) frameBase d]
    else
      [.li (.virt t) d, .arith .add (.virt t) frameBase (.virt t),
        .load width (.virt t) (.virt t) 0]

/-- Stores the register `t` to a slot. The sizes are those of all the virtual registers so far. -/
def storeSlot (frameBase : Reg) (t : Nat) (slot : Slot) (sizes : Array Nat) :
    Except Fault (List Instr × Array Nat) := do
  let d ← displacement slot.offset
  let width := Width.ofSize slot.size
  if isNear d then return ([.store width (.virt t) frameBase d], sizes)
  else
    let a := Reg.virt sizes.size
    return ([.li a d, .arith .add a frameBase a, .store width (.virt t) a 0], sizes.push 4)

/-- What is known of the spills of a function over all rounds. -/
structure SpillRecord where
  /-- The temporaries, with the registers of the input that they stand for. -/
  owners : List (Nat × Nat) := []
  /-- The spilled registers and temporaries, which no longer occur in the function. -/
  retired : List Nat := []
  /-- The registers of the input that live in a slot. -/
  spilled : List Nat := []
  deriving DecidableEq, Repr

/-- The register of the input that a register stands for. -/
def SpillRecord.owner (record : SpillRecord) (v : Nat) : Nat :=
  (record.owners.lookup v).getD v

/-- A routine on its way through the rounds. -/
structure Spilling (σ : Type) where
  routine : Routine
  store : σ
  record : SpillRecord := {}

/-- The virtual registers up to now: their sizes, and the register of the input that each temporary
stands for. Fresh registers are counted on from them, and their numbers should have 32 bits
(`Routine.HasRoom`). -/
structure Temporaries where
  sizes : Array Nat
  owners : List (Nat × Nat)

/-- The spilled registers among `regs`, each once, with their slots. -/
def spilledAmong (slots : List (Nat × Slot)) (regs : List Reg) : List (Nat × Slot) :=
  (distinct (regs.filterMap Reg.vreg?)).filterMap fun v ↦ (slots.lookup v).map (v, ·)

/-- A register, or what stands in its place. -/
def substitute (temporaries : List (Nat × Nat)) : Reg → Reg
  | .virt v => .virt ((temporaries.lookup v).getD v)
  | .phys r => .phys r

/-- An instruction with temporaries for the spilled registers, and their loads and stores. -/
def spillInstr (slots : List (Nat × Slot)) (frameBase : Reg) (known : Temporaries) (i : Instr) :
    Except Fault (List Instr × Temporaries) := do
  let used := spilledAmong slots i.uses
  let defined := spilledAmong slots i.defs
  let fresh := (distinct (used ++ defined)).zipIdx known.sizes.size
  let temporaries := fresh.map fun ((v, _), t) ↦ (v, t)
  let temporary (v : Nat) := (temporaries.lookup v).getD v
  let sizes := known.sizes ++ fresh.map fun ((_, slot), _) ↦ slot.size
  let owners := fresh.map fun ((v, _), t) ↦ (t, (known.owners.lookup v).getD v)
  let loads ← used.mapM fun (v, slot) ↦ loadSlot frameBase (temporary v) slot
  let (stores, sizes) ←
    mapAccumM (fun sizes (v, slot) ↦ storeSlot frameBase (temporary v) slot sizes) sizes defined
  return (loads.flatten ++ [i.mapRegs (substitute temporaries)] ++ stores.flatten,
    { sizes, owners := owners ++ known.owners })

/-- All the instructions of a block with temporaries for the spilled registers. -/
def spillBlock (slots : List (Nat × Slot)) (frameBase : Reg) (known : Temporaries) (b : Block) :
    Except Fault (Block × Temporaries) := do
  let (code, known) ← mapAccumM (spillInstr slots frameBase) known b.code
  return ({ b with code := code.flatten }, known)

namespace Spilling

variable {σ : Type} [SlotStore σ]

/-- The slots of the given registers, which are those of the registers of the input that they stand
for. -/
def assignSlots (w : Spilling σ) (spills : List Nat) : Except Fault (List (Nat × Slot) × σ) :=
  mapAccumM (fun store v ↦ do
    let owner := w.record.owner v
    let size := w.routine.vregSize owner
    let (offset, store) ← SlotStore.alloc store owner size
    return ((v, ⟨offset, size⟩), store)) w.store spills

/-- Puts the given registers into stack slots, which are given too. -/
def spill (w : Spilling σ) (catalog : Catalog) (spills : List Nat) :
    Except Fault (Spilling σ × List (Nat × Slot)) := do
  let (slots, store) ← w.assignSlots spills
  let (blocks, known) ←
    mapAccumM (spillBlock slots (.phys catalog.frameBase))
      { sizes := w.routine.sizes, owners := w.record.owners } w.routine.blocks
  let record : SpillRecord :=
    { owners := known.owners
      retired := spills ++ w.record.retired
      spilled := (spills.map w.record.owner).foldl addNew w.record.spilled }
  return ({ routine := { w.routine with blocks, sizes := known.sizes }, store, record }, slots)

end Spilling

end RegAlloc

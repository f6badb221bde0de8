import Mathlib
import RegAlloc.BlockGraph.Basic

/-!
# What the code does

A machine that runs the blocks of a function over registers and a memory of bytes. The registers are
virtual or physical alike, so that code can be compared before and after registers are replaced.

* A register holds a word of 32 bits, and arithmetic is that of RISC-V.
* A call is any function of the values of its arguments and the memory. It overwrites its clobbers,
  whatever they are.
* A store to a symbol writes its scratch register before it reads the value.
* A return shows its values and all the registers that it has to preserve.

A run leaves a trace of `Event`s: branches, calls, accesses to the memory, and the return.
-/

namespace RegAlloc

/-! ## Words and memory -/

abbrev Word := BitVec 32

/-- The bytes at all the addresses. -/
abbrev Memory := Word → BitVec 8

/-- The contents of all the registers. -/
abbrev Regs := Reg → Word

/-- Division by zero gives all ones, and a remainder by zero the dividend. -/
def BinOp.eval : BinOp → Word → Word → Word
  | add, x, y => x + y
  | sub, x, y => x - y
  | mul, x, y => x * y
  | div, x, y => if y = 0 then BitVec.allOnes 32 else x.sdiv y
  | rem, x, y => if y = 0 then x else x.srem y
  | and, x, y => x &&& y
  | or, x, y => x ||| y
  | xor, x, y => x ^^^ y
  | sll, x, y => x <<< (y.toNat % 32)
  | srl, x, y => x >>> (y.toNat % 32)
  | sra, x, y => x.sshiftRight (y.toNat % 32)
  | slt, x, y => if x.slt y then 1 else 0
  | sltu, x, y => if x.ult y then 1 else 0

/-- An operation on a constant is that on a register which holds it. -/
def ImmOp.toBinOp : ImmOp → BinOp
  | addi => .add
  | andi => .and
  | ori => .or
  | xori => .xor
  | slli => .sll
  | srli => .srl
  | srai => .sra
  | slti => .slt

/-- Whether a branch is taken. -/
def Cond.holds : Cond → Word → Word → Bool
  | beq, x, y => x = y
  | bne, x, y => x ≠ y
  | blt, x, y => x.slt y
  | bge, x, y => !x.slt y
  | bltu, x, y => x.ult y
  | bgeu, x, y => !x.ult y

/-- The bytes of a word that are stored, the lowest one first. -/
def Width.split (w : Width) (v : Word) : List (BitVec 8) :=
  (List.range w.bytes).map fun k ↦ v.extractLsb' (8 * k) 8

/-- The value that is loaded from an address; what is shorter than a word keeps its sign. -/
def Width.load (mem : Memory) (a : Word) : Width → Word
  | byte => (mem a).signExtend 32
  | half => (mem (a + 1) ++ mem a).signExtend 32
  | word => mem (a + 3) ++ mem (a + 2) ++ mem (a + 1) ++ mem a

/-- The memory after some bytes have been stored from an address on. -/
def Memory.write (mem : Memory) (a : Word) (bytes : List (BitVec 8)) : Memory := fun x ↦
  (bytes[(x - a).toNat]?).getD (mem x)

/-- The registers after some of them have been overwritten, one after the other. -/
def Regs.write (regs : Regs) (rs : List Reg) (values : List Word) : Regs :=
  (rs.zip values).foldl (fun regs (r, v) ↦ Function.update regs r v) regs

/-! ## Instructions -/

/-- What the code does not define itself. -/
structure Surroundings where
  /-- The address of a symbol. -/
  address : String → Word
  /-- What a call of a function with some arguments leaves in its clobbers, in order, and in the
  memory. -/
  call : String → List Word → Memory → (Nat → Word) × Memory

/-- What can be seen of a run. -/
inductive Event where
  | branch (target : String) (taken : Bool)
  | jump (target : String)
  | call (callee : String) (arguments : List Word)
  | read (address : Word) (size : Nat)
  | write (address : Word) (bytes : List (BitVec 8))
  | ret (values preserved : List Word)
  deriving DecidableEq, Repr

/-- Where control goes behind an instruction. -/
inductive Control where
  | next
  | goto (label : String)
  | stop
  deriving DecidableEq, Repr

/-- What an instruction does. -/
structure Effect where
  event : Option Event := none
  /-- What is written to the registers that the instruction defines. -/
  values : List Word := []
  mem : Memory
  control : Control := .next

/-- The effect of an instruction. -/
def Instr.effect (env : Surroundings) (regs : Regs) (mem : Memory) : Instr → Effect
  | li _ imm => { values := [imm.toBitVec], mem }
  | mv _ rs => { values := [regs rs], mem }
  | la _ symbol => { values := [env.address symbol], mem }
  | arith op _ rs₁ rs₂ => { values := [op.eval (regs rs₁) (regs rs₂)], mem }
  | arithImm op _ rs imm => { values := [op.toBinOp.eval (regs rs) imm.toBitVec], mem }
  | load width _ base offset =>
    let a := regs base + offset.toBitVec
    { event := some (.read a width.bytes), values := [width.load mem a], mem }
  | store width rs base offset =>
    let a := regs base + offset.toBitVec
    { event := some (.write a (width.split (regs rs))), mem := mem.write a (width.split (regs rs)) }
  | loadSymbol width _ symbol =>
    let a := env.address symbol
    { event := some (.read a width.bytes), values := [width.load mem a], mem }
  | storeSymbol width rs scratch symbol =>
    let a := env.address symbol
    let v := regs.write [scratch] [a] rs
    { event := some (.write a (width.split v)), values := [a], mem := mem.write a (width.split v) }
  | branch cond rs₁ rs₂ target =>
    let taken := cond.holds (regs rs₁) (regs rs₂)
    { event := some (.branch target taken), mem, control := if taken then .goto target else .next }
  | jump target => { event := some (.jump target), mem, control := .goto target }
  | call callee arguments clobbers =>
    let results := env.call callee (arguments.map regs) mem
    { event := some (.call callee (arguments.map regs))
      values := (List.range clobbers.length).map results.1
      mem := results.2 }
  | ret values preserved =>
    { event := some (.ret (values.map regs) (preserved.map regs)), mem, control := .stop }

/-! ## Runs -/

/-- The state of a run: the instructions that are left of a block, and what registers and memory
hold. -/
structure State where
  block : Nat
  rest : List Instr
  regs : Regs
  mem : Memory

namespace State

/-- At the start of a block. Behind the last block there is nothing to do. -/
def enter (blocks : List Block) (b : Nat) (regs : Regs) (mem : Memory) : State where
  block := b
  rest := (blocks[b]?.map Block.code).getD []
  regs := regs
  mem := mem

/-- The block that a label stands for; without one, control goes behind the last block. -/
def target (blocks : List Block) (label : String) : Nat :=
  ((labelled? blocks label).map Fin.val).getD blocks.length

/-- Where control goes from an instruction in the given block with the given ones behind it. -/
def follow (blocks : List Block) (block : Nat) (rest : List Instr) (regs : Regs) (mem : Memory) :
    Control → State
  | .next => ⟨block, rest, regs, mem⟩
  | .goto label => enter blocks (target blocks label) regs mem
  | .stop => enter blocks blocks.length regs mem

/-- One step: an instruction, or from the end of a block to the next one. The run is over when
there is none. -/
def step (env : Surroundings) (blocks : List Block) (s : State) : Option (Option Event × State) :=
  match s.rest with
  | [] =>
    if s.block + 1 < blocks.length then some (none, enter blocks (s.block + 1) s.regs s.mem)
    else none
  | i :: rest =>
    let e := i.effect env s.regs s.mem
    some (e.event, follow blocks s.block rest (s.regs.write i.defs e.values) e.mem e.control)

/-- Up to `n` steps: the trace and the state after them. -/
def run (env : Surroundings) (blocks : List Block) : Nat → State → List Event × State
  | 0, s => ([], s)
  | n + 1, s =>
    match s.step env blocks with
    | none => ([], s)
    | some (e, s) => let (es, s) := run env blocks n s; (e.toList ++ es, s)

end State

/-! ## Registers that are replaced -/

theorem Regs.write_cons (regs : Regs) (r : Reg) (v : Word) (rs : List Reg) (vs : List Word) :
    regs.write (r :: rs) (v :: vs) = Regs.write (Function.update regs r v) rs vs := rfl

/-- A register that is not written keeps its value. -/
theorem Regs.write_of_notMem (regs : Regs) {rs : List Reg} (vs : List Word) {w : Reg}
    (hw : w ∉ rs) : regs.write rs vs w = regs w := by
  induction rs generalizing regs vs with
  | nil => rfl
  | cons r rs ih =>
    rw [List.mem_cons, not_or] at hw
    cases vs with
    | nil => rfl
    | cons v vs =>
      rw [write_cons, ih _ _ hw.2]
      exact Function.update_of_ne hw.1 v regs

/-- Writing replaced registers shows the same at `w` if no register with another value takes the
place of `w`. -/
theorem Regs.write_map {regs regs' : Regs} {φ : Reg → Reg} {rs : List Reg} {vs : List Word}
    (hlen : vs.length = rs.length) {w : Reg} (hinj : ∀ d ∈ rs, φ d = φ w → d = w)
    (hw : w ∉ rs → regs' (φ w) = regs w) :
    regs'.write (rs.map φ) vs (φ w) = regs.write rs vs w := by
  induction rs generalizing regs regs' vs with
  | nil => exact hw List.not_mem_nil
  | cons d rs ih =>
    obtain ⟨v, vs, rfl⟩ := List.exists_cons_of_length_eq_add_one hlen
    rw [List.map_cons, write_cons, write_cons]
    refine ih (Nat.succ.inj hlen) (fun x hx ↦ hinj x (List.mem_cons_of_mem _ hx)) fun hrs ↦ ?_
    by_cases hd : w = d
    · rw [hd, Function.update_self, Function.update_self]
    · have hφ : φ w ≠ φ d := fun he ↦ hd (hinj d List.mem_cons_self he.symm).symm
      rw [Function.update_of_ne hφ, Function.update_of_ne hd]
      exact hw fun hm ↦ (List.mem_cons.1 hm).elim hd hrs

theorem Regs.write_congr {regs regs' : Regs} {rs : List Reg} {vs : List Word}
    (hlen : vs.length = rs.length) {ρ : Reg} (h : regs' ρ = regs ρ) :
    regs'.write rs vs ρ = regs.write rs vs ρ := by
  have hmap := Regs.write_map (φ := id) hlen (fun d _ (he : d = ρ) ↦ he) fun _ ↦ h
  rwa [List.map_id] at hmap

/-- What is loaded depends on the bytes that are read only. -/
theorem Width.load_congr {w : Width} {m m' : Memory} {a : Word}
    (h : ∀ k < w.bytes, m (a + BitVec.ofNat 32 k) = m' (a + BitVec.ofNat 32 k)) :
    w.load m a = w.load m' a := by
  have h₀ : m a = m' a := by
    have := h 0 (by cases w <;> decide)
    rwa [BitVec.add_zero] at this
  cases w with
  | byte => simp only [load, h₀]
  | half =>
    have h₁ : m (a + 1) = m' (a + 1) := h 1 (by decide)
    simp only [load, h₀, h₁]
  | word =>
    have h₁ : m (a + 1) = m' (a + 1) := h 1 (by decide)
    have h₂ : m (a + 2) = m' (a + 2) := h 2 (by decide)
    have h₃ : m (a + 3) = m' (a + 3) := h 3 (by decide)
    simp only [load, h₀, h₁, h₂, h₃]

/-- The memories agree outside of some hidden addresses. -/
def Memory.EqOff (H : Set Word) (m m' : Memory) : Prop :=
  ∀ a, a ∉ H → m a = m' a

/-- The event does not touch hidden addresses. -/
def Event.Avoids (H : Set Word) : Event → Prop
  | read a size => ∀ k < size, a + BitVec.ofNat 32 k ∉ H
  | write a bytes => ∀ k < bytes.length, a + BitVec.ofNat 32 k ∉ H
  | _ => True

/-- What is called neither reads nor writes hidden addresses. -/
def Surroundings.Avoids (H : Set Word) (env : Surroundings) : Prop :=
  ∀ callee args m m', Memory.EqOff H m m' →
    (env.call callee args m').1 = (env.call callee args m).1 ∧
      Memory.EqOff H (env.call callee args m).2 (env.call callee args m').2 ∧
      ∀ a ∈ H, (env.call callee args m').2 a = m' a

namespace Memory

variable {H : Set Word} {m m' : Memory}

theorem EqOff.refl (H : Set Word) (m : Memory) : EqOff H m m :=
  fun _ _ ↦ rfl

theorem EqOff.trans {m'' : Memory} (h : EqOff H m m') (h' : EqOff H m' m'') : EqOff H m m'' :=
  fun a ha ↦ (h a ha).trans (h' a ha)

theorem eqOff_empty : EqOff ∅ m m' ↔ m = m' :=
  ⟨fun h ↦ funext fun a ↦ h a (Set.notMem_empty a), fun h _ _ ↦ by rw [h]⟩

theorem EqOff.write (h : EqOff H m m') (a : Word) (bytes : List (BitVec 8)) :
    EqOff H (m.write a bytes) (m'.write a bytes) := by
  intro x hx
  simp only [Memory.write, h x hx]

/-- What is stored elsewhere does not change the hidden bytes. -/
theorem write_of_avoids {a : Word} {bytes : List (BitVec 8)} (h : (Event.write a bytes).Avoids H)
    {x : Word} (hx : x ∈ H) : m.write a bytes x = m x := by
  have hnone : bytes[(x - a).toNat]? = none := by
    rw [List.getElem?_eq_none_iff]
    by_contra hlt
    refine h (x - a).toNat (not_le.1 hlt) ?_
    rwa [BitVec.ofNat_toNat, BitVec.setWidth_eq, BitVec.add_comm, BitVec.sub_add_cancel]
  rw [Memory.write, hnone, Option.getD_none]

/-- What is loaded from elsewhere does not depend on the hidden bytes. -/
theorem EqOff.load (h : EqOff H m m') {w : Width} {a : Word}
    (ha : (Event.read a w.bytes).Avoids H) : w.load m a = w.load m' a :=
  Width.load_congr fun k hk ↦ h _ (ha k hk)

end Memory

theorem Surroundings.avoids_empty (env : Surroundings) : env.Avoids ∅ := by
  intro callee args m m' h
  rw [Memory.eqOff_empty] at h
  rw [h]
  exact ⟨rfl, .refl _ _, fun a ha ↦ absurd ha (Set.notMem_empty a)⟩

theorem Event.avoids_empty (e : Event) : e.Avoids ∅ := by
  cases e <;> simp [Avoids]

/-- The second effect, on the memory `mem'`, is the same up to hidden addresses, and leaves them as
they are. -/
structure Effect.Alike (H : Set Word) (mem' : Memory) (e e' : Effect) : Prop where
  event : e'.event = e.event
  values : e'.values = e.values
  control : e'.control = e.control
  mem : Memory.EqOff H e.mem e'.mem
  hidden : ∀ a ∈ H, e'.mem a = mem' a

namespace Instr

variable {env : Surroundings} {regs regs' : Regs} {mem mem' : Memory}

theorem length_values (i : Instr) : (i.effect env regs mem).values.length = i.defs.length := by
  cases i <;> simp [effect, defs]

/-- Where control goes depends on the form of the instruction. -/
theorem control_cases (i : Instr) (env : Surroundings) (regs : Regs) (mem : Memory) :
    ((i.effect env regs mem).control = .next ∧ i.isTerminator = false) ∨
      (∃ label, (i.effect env regs mem).control = .goto label ∧ i.target? = some label) ∨
      (i.effect env regs mem).control = .stop := by
  cases i with
  | branch cond rs₁ rs₂ target =>
    cases hc : cond.holds (regs rs₁) (regs rs₂)
    · exact .inl ⟨by simp [effect, hc], rfl⟩
    · exact .inr (.inl ⟨target, by simp [effect, hc], rfl⟩)
  | jump target => exact .inr (.inl ⟨target, rfl, rfl⟩)
  | ret values preserved => exact .inr (.inr rfl)
  | _ => exact .inl ⟨rfl, rfl⟩

theorem mem_of_symbolicStore? {i : Instr} {a b : Reg} (h : i.symbolicStore? = some (a, b)) :
    a ∈ i.uses ++ i.defs ∧ b ∈ i.uses ++ i.defs := by
  cases i with
  | storeSymbol width rs scratch symbol =>
    cases h
    simp [uses, defs]
  | _ => cases h

/-- With its registers replaced by others that hold the same values, an instruction has the same
effect, up to what the hidden addresses hold. -/
theorem effect_mapRegs {H : Set Word} {φ : Reg → Reg} {i : Instr}
    (huses : ∀ r ∈ i.uses, regs' (φ r) = regs r)
    (hstore : ∀ a b, i.symbolicStore? = some (a, b) → φ a = φ b → a = b)
    (hmem : Memory.EqOff H mem mem') (henv : env.Avoids H)
    (hevent : ∀ e ∈ (i.effect env regs mem).event, e.Avoids H) :
    Effect.Alike H mem' (i.effect env regs mem) ((i.mapRegs φ).effect env regs' mem') := by
  have hmap : ∀ {rs : List Reg}, (∀ r ∈ rs, regs' (φ r) = regs r) →
      (rs.map φ).map regs' = rs.map regs := by
    intro rs hrs
    rw [List.map_map]
    exact List.map_congr_left hrs
  cases i with
  | li rd imm => exact ⟨rfl, rfl, rfl, hmem, fun _ _ ↦ rfl⟩
  | mv rd rs =>
    have h := huses rs (by simp [uses])
    simp only [mapRegs, effect, h]
    exact ⟨rfl, rfl, rfl, hmem, fun _ _ ↦ rfl⟩
  | la rd symbol => exact ⟨rfl, rfl, rfl, hmem, fun _ _ ↦ rfl⟩
  | arith op rd rs₁ rs₂ =>
    have h₁ := huses rs₁ (by simp [uses])
    have h₂ := huses rs₂ (by simp [uses])
    simp only [mapRegs, effect, h₁, h₂]
    exact ⟨rfl, rfl, rfl, hmem, fun _ _ ↦ rfl⟩
  | arithImm op rd rs imm =>
    have h := huses rs (by simp [uses])
    simp only [mapRegs, effect, h]
    exact ⟨rfl, rfl, rfl, hmem, fun _ _ ↦ rfl⟩
  | load width rd base offset =>
    have h := huses base (by simp [uses])
    have hload := hmem.load (hevent _ rfl)
    simp only [mapRegs, effect, h, hload]
    exact ⟨rfl, rfl, rfl, hmem, fun _ _ ↦ rfl⟩
  | store width rs base offset =>
    have h₁ := huses rs (by simp [uses])
    have h₂ := huses base (by simp [uses])
    simp only [mapRegs, effect, h₁, h₂]
    exact ⟨rfl, rfl, rfl, hmem.write _ _, fun _ ha ↦ Memory.write_of_avoids (hevent _ rfl) ha⟩
  | loadSymbol width rd symbol =>
    have hload := hmem.load (hevent _ rfl)
    simp only [mapRegs, effect, hload]
    exact ⟨rfl, rfl, rfl, hmem, fun _ _ ↦ rfl⟩
  | storeSymbol width rs scratch symbol =>
    have hrs := huses rs (by simp [uses])
    have hv : regs'.write ([scratch].map φ) [env.address symbol] (φ rs) =
        regs.write [scratch] [env.address symbol] rs := by
      refine Regs.write_map rfl (fun d hd he ↦ ?_) fun _ ↦ hrs
      rw [List.mem_singleton] at hd
      rw [hd] at he ⊢
      exact hstore scratch rs rfl he
    rw [List.map_singleton] at hv
    simp only [mapRegs, effect, hv]
    exact ⟨rfl, rfl, rfl, hmem.write _ _, fun _ ha ↦ Memory.write_of_avoids (hevent _ rfl) ha⟩
  | branch cond rs₁ rs₂ target =>
    have h₁ := huses rs₁ (by simp [uses])
    have h₂ := huses rs₂ (by simp [uses])
    simp only [mapRegs, effect, h₁, h₂]
    exact ⟨rfl, rfl, rfl, hmem, fun _ _ ↦ rfl⟩
  | jump target => exact ⟨rfl, rfl, rfl, hmem, fun _ _ ↦ rfl⟩
  | call callee arguments clobbers =>
    have hargs : (arguments.map φ).map regs' = arguments.map regs := hmap huses
    obtain ⟨hres, hoff, hin⟩ := henv callee (arguments.map regs) mem mem' hmem
    simp only [mapRegs, effect, hargs, hres, List.length_map]
    exact ⟨rfl, rfl, rfl, hoff, hin⟩
  | ret values preserved =>
    have h₁ : (values.map φ).map regs' = values.map regs :=
      hmap fun r hr ↦ huses r (List.mem_append_left _ hr)
    have h₂ : (preserved.map φ).map regs' = preserved.map regs :=
      hmap fun r hr ↦ huses r (List.mem_append_right _ hr)
    simp only [mapRegs, effect, h₁, h₂]
    exact ⟨rfl, rfl, rfl, hmem, fun _ _ ↦ rfl⟩

theorem mapRegs_mapRegs (φ ψ : Reg → Reg) (i : Instr) :
    (i.mapRegs φ).mapRegs ψ = i.mapRegs (ψ ∘ φ) := by
  cases i <;> simp [mapRegs]

theorem mapRegs_eq_self {φ : Reg → Reg} {i : Instr} (h : ∀ ρ ∈ i.uses ++ i.defs, φ ρ = ρ) :
    i.mapRegs φ = i := by
  have hmap : ∀ {rs : List Reg}, (∀ ρ ∈ rs, φ ρ = ρ) → rs.map φ = rs := by
    intro rs hrs
    exact (List.map_congr_left hrs).trans (List.map_id rs)
  cases i with
  | call callee arguments clobbers =>
    have harguments : arguments.map φ = arguments :=
      hmap fun ρ hρ ↦ h ρ (List.mem_append_left _ hρ)
    have hclobbers : clobbers.map φ = clobbers := hmap fun ρ hρ ↦ h ρ (List.mem_append_right _ hρ)
    rw [mapRegs, harguments, hclobbers]
  | ret values preserved =>
    rw [mapRegs, hmap fun ρ hρ ↦ h ρ (by simp [uses, hρ]),
      hmap fun ρ hρ ↦ h ρ (by simp [uses, hρ])]
  | _ => simp_all [mapRegs, uses, defs]

/-- An instruction depends on the registers that it uses only. -/
theorem effect_congr {i : Instr} (h : ∀ ρ ∈ i.uses, regs' ρ = regs ρ) (mem : Memory) :
    i.effect env regs' mem = i.effect env regs mem := by
  have hmap : ∀ {rs : List Reg}, (∀ ρ ∈ rs, regs' ρ = regs ρ) → rs.map regs' = rs.map regs :=
    fun hrs ↦ List.map_congr_left hrs
  cases i with
  | storeSymbol width rs scratch symbol =>
    have hv : regs'.write [scratch] [env.address symbol] rs =
        regs.write [scratch] [env.address symbol] rs := by
      by_cases he : rs = scratch
      · rw [he, Regs.write_cons, Regs.write_cons]
        simp [Regs.write]
      · rw [Regs.write_of_notMem _ _ (by simpa using he),
          Regs.write_of_notMem _ _ (by simpa using he)]
        exact h rs (by simp [uses])
    simp only [effect, hv]
  | call callee arguments clobbers =>
    have harguments : arguments.map regs' = arguments.map regs := hmap h
    simp only [effect, harguments]
  | ret values preserved =>
    rw [effect, effect, hmap fun ρ hρ ↦ h ρ (by simp [uses, hρ]),
      hmap fun ρ hρ ↦ h ρ (by simp [uses, hρ])]
  | _ => simp_all [effect, uses]

end Instr

/-! ## Steps and longer runs -/

namespace State

variable {env : Surroundings} {blocks : List Block} {s s' : State}

theorem step_of_rest_eq_nil (h : s.rest = []) : s.step env blocks =
    if s.block + 1 < blocks.length then some (none, enter blocks (s.block + 1) s.regs s.mem)
    else none := by
  rw [step, h]

theorem step_of_rest_eq_cons {i : Instr} {rest : List Instr} (h : s.rest = i :: rest) :
    s.step env blocks = some ((i.effect env s.regs s.mem).event,
      follow blocks s.block rest (s.regs.write i.defs (i.effect env s.regs s.mem).values)
        (i.effect env s.regs s.mem).mem (i.effect env s.regs s.mem).control) := by
  rw [step, h]

theorem run_of_step_eq_none (h : s.step env blocks = none) (n : Nat) :
    s.run env blocks n = ([], s) := by
  cases n with
  | zero => rfl
  | succ n => rw [run, h]

theorem run_succ {e : Option Event} (h : s.step env blocks = some (e, s')) (n : Nat) :
    s.run env blocks (n + 1) =
      (e.toList ++ (s'.run env blocks n).1, (s'.run env blocks n).2) := by
  rw [run, h]

/-- A run can be taken in two parts. -/
theorem run_add (k n : Nat) (s : State) : s.run env blocks (k + n) =
    ((s.run env blocks k).1 ++ ((s.run env blocks k).2.run env blocks n).1,
      ((s.run env blocks k).2.run env blocks n).2) := by
  induction k generalizing s with
  | zero => rw [Nat.zero_add, run, List.nil_append]
  | succ k ih =>
    rw [Nat.add_right_comm]
    cases h : s.step env blocks with
    | none => rw [run_of_step_eq_none h, run_of_step_eq_none h, run_of_step_eq_none h]; rfl
    | some es =>
      obtain ⟨e, s'⟩ := es
      rw [run_succ h, run_succ h, ih, List.append_assoc]

/-- Steps show one event at most, so each part of a trace up to some event is a trace. -/
theorem exists_run_of_prefix (s : State) {k : Nat} {trace : List Event}
    (h : trace <+: (s.run env blocks k).1) : ∃ j, (s.run env blocks j).1 = trace := by
  induction k generalizing s trace with
  | zero => exact ⟨0, (List.prefix_nil.1 h).symm⟩
  | succ k ih =>
    cases hstep : s.step env blocks with
    | none =>
      rw [run_of_step_eq_none hstep] at h
      exact ⟨0, (List.prefix_nil.1 h).symm⟩
    | some es =>
      obtain ⟨e, t⟩ := es
      rw [run_succ hstep] at h
      cases e with
      | none =>
        obtain ⟨j, hj⟩ := ih t h
        exact ⟨j + 1, by rw [run_succ hstep, hj]; rfl⟩
      | some x =>
        rcases List.prefix_cons_iff.1 h with rfl | ⟨tail, rfl, htail⟩
        · exact ⟨0, rfl⟩
        · obtain ⟨j, hj⟩ := ih t htail
          exact ⟨j + 1, by rw [run_succ hstep, hj]; rfl⟩

/-! ## Blocks with the same labels -/

theorem find?_finRange_cast {n n' : Nat} (h : n' = n) {q : Fin n → Bool} {q' : Fin n' → Bool}
    (hq : ∀ i, q' i = q (i.cast h)) :
    ((List.finRange n').reverse.find? q').map Fin.val =
      ((List.finRange n).reverse.find? q).map Fin.val := by
  subst h
  rw [funext hq]
  rfl

/-- Labels stand for the same blocks if all the blocks have the same labels. -/
theorem target_congr {blocks blocks' : List Block}
    (h : blocks'.map Block.label = blocks.map Block.label) (label : String) :
    target blocks' label = target blocks label := by
  have hlen : blocks'.length = blocks.length := by simpa using congrArg List.length h
  have hget : ∀ i : Fin blocks'.length,
      (blocks'.get i).label = (blocks.get (i.cast hlen)).label := by
    intro i
    have hi := List.getElem_of_eq h (i := i) (by simp)
    simpa using hi
  have hfind : (labelled? blocks' label).map Fin.val = (labelled? blocks label).map Fin.val :=
    find?_finRange_cast hlen fun i ↦ by rw [hget]
  rw [target, target, hfind]
  exact congrArg _ hlen

end State

end RegAlloc

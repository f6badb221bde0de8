import Mathlib
import RegAlloc.Bracket
import RegAlloc.Program.Parser
import RegAlloc.Proofs.Assignment

/-!
# Programs that are read

Every function of a program that is read is ready for allocation: its code is written over registers
of the catalog and over virtual registers that are reserved, all of them words, and its frame is
empty. Bracketing a routine keeps it ready.
-/

namespace RegAlloc

/-! ## Results -/

/-- If there is a result, it has the property. -/
def Yields {ε α : Type} (x : Except ε α) (P : α → Prop) : Prop :=
  ∀ a, x = .ok a → P a

namespace Yields

variable {ε α β : Type} {x : Except ε α} {f : α → Except ε β} {P : α → Prop} {Q : β → Prop}

theorem any (x : Except ε α) : Yields x fun _ ↦ True :=
  fun _ _ ↦ trivial

theorem ok {a : α} (h : P a) : Yields (.ok a : Except ε α) P := by
  intro a' ha
  cases ha
  exact h

theorem error (e : ε) (P : α → Prop) : Yields (.error e : Except ε α) P := by
  intro a ha
  cases ha

theorem bind (h : Yields x P) (hf : ∀ a, P a → Yields (f a) Q) : Yields (x >>= f) Q := by
  intro b hb
  obtain ⟨a, ha, hb⟩ := bind_eq_ok_iff.1 hb
  exact hf a (h a ha) b hb

theorem mapM {f : α → Except ε β} (hf : ∀ a, Yields (f a) Q) (as : List α) :
    Yields (as.mapM f) fun bs ↦ ∀ b ∈ bs, Q b := by
  induction as with
  | nil => exact ok fun b hb ↦ absurd hb List.not_mem_nil
  | cons a as ih =>
    rw [List.mapM_cons]
    refine (hf a).bind fun b hb ↦ ih.bind fun bs hbs ↦ ok fun b' hb' ↦ ?_
    rcases List.mem_cons.1 hb' with rfl | hb'
    · exact hb
    · exact hbs b' hb'

end Yields

/-! ## Registers of an instruction that is read -/

/-- The register is virtual, or one of the catalog. -/
def Reg.IsNamed (catalog : Catalog) : Reg → Prop
  | virt _ => True
  | phys r => r ∈ catalog.registers

/-- The instruction is written over such registers. -/
def Instr.IsNamed (catalog : Catalog) (i : Instr) : Prop :=
  ∀ ρ ∈ i.uses ++ i.defs, ρ.IsNamed catalog

section Reading

variable {catalog : Catalog}

theorem yields_readReg (catalog : Catalog) (cs : List Char) :
    Yields (readReg catalog cs) (Reg.IsNamed catalog) := by
  unfold readReg
  simp only
  split
  · rename_i ρ hreg
    refine .ok ?_
    split at hreg
    · obtain ⟨v, -, rfl⟩ := Option.map_eq_some_iff.1 hreg
      trivial
    · obtain ⟨r, hr, rfl⟩ := Option.map_eq_some_iff.1 hreg
      exact List.mem_of_find?_eq_some hr
  · exact .error _ _

theorem yields_readAddress (catalog : Catalog) (cs : List Char) :
    Yields (readAddress catalog cs) fun p ↦ p.2.IsNamed catalog := by
  unfold readAddress
  split
  · exact .error _ _
  · split
    · exact .error _ _
    · rename_i base _
      have hbase : ∀ offset : Int32, Yields (do return (offset, ← readReg catalog (Text.trim base)))
          fun p ↦ p.2.IsNamed catalog :=
        fun offset ↦ (yields_readReg _ _).bind fun base hbase ↦ .ok hbase
      simp only
      split
      · exact (Yields.any _).bind fun offset _ ↦ hbase offset
      · exact (Yields.any _).bind fun offset _ ↦ hbase offset

namespace Instr

theorem yields_readStore (catalog : Catalog) (width : Width) (operands : List (List Char)) :
    Yields (readStore catalog width operands) (IsNamed catalog) := by
  cases operands with
  | nil => exact .error _ _
  | cons rs operands =>
    refine (yields_readReg _ _).bind fun rs hrs ↦ ?_
    split
    · refine (yields_readAddress _ _).bind fun ⟨offset, base⟩ hbase ↦ .ok ?_
      simp_all [IsNamed, uses, defs]
    · refine (yields_readReg _ _).bind fun scratch hscratch ↦ .ok ?_
      simp_all [IsNamed, uses, defs]
    · exact .error _ _

/-- What a call clobbers and what a return preserves are registers of the catalog. -/
theorem isNamed_of_mem_allocatable (hc : catalog.WellFormed) {rs : List PhysReg}
    (hrs : ∀ r ∈ rs, r ∈ catalog.allocatable) : ∀ ρ ∈ rs.map Reg.phys, ρ.IsNamed catalog := by
  intro ρ hρ
  obtain ⟨r, hr, rfl⟩ := List.mem_map.1 hρ
  exact hc.mem_registers (hrs r hr)

theorem yields_readCall (hc : catalog.WellFormed) (cs : List Char) :
    Yields (readCall catalog cs) (IsNamed catalog) := by
  unfold readCall
  split
  · exact .error _ _
  · split
    · exact .error _ _
    · refine (Yields.mapM (yields_readReg catalog) _).bind fun arguments harguments ↦
        .ok fun ρ hρ ↦ ?_
      rcases List.mem_append.1 hρ with hρ | hρ
      · exact harguments ρ hρ
      · exact isNamed_of_mem_allocatable hc (fun r ↦ List.mem_append_right _) ρ hρ

/-- Whatever the operation code, a line with the right number of operands gives registers that are
read. -/
theorem yields_readOperands (hc : catalog.WellFormed) (code : Opcode) (cs : List Char) :
    Yields (readOperands catalog code cs) (IsNamed catalog) := by
  unfold readOperands
  cases code with
  | li =>
    simp only
    split
    · refine (yields_readReg _ _).bind fun rd hrd ↦ (Yields.any _).bind fun imm _ ↦ .ok ?_
      simp_all [IsNamed, uses, defs]
    · exact .error _ _
  | mv =>
    simp only
    split
    · refine (yields_readReg _ _).bind fun rd hrd ↦ (yields_readReg _ _).bind fun rs hrs ↦ .ok ?_
      simp_all [IsNamed, uses, defs]
    · exact .error _ _
  | la =>
    simp only
    split
    · refine (yields_readReg _ _).bind fun rd hrd ↦ .ok ?_
      simp_all [IsNamed, uses, defs]
    · exact .error _ _
  | jump =>
    simp only
    split
    · exact .ok (by simp [IsNamed, uses, defs])
    · exact .error _ _
  | arith op =>
    simp only
    split
    · refine (yields_readReg _ _).bind fun rd hrd ↦ (yields_readReg _ _).bind fun rs₁ hrs₁ ↦
        (yields_readReg _ _).bind fun rs₂ hrs₂ ↦ .ok ?_
      simp_all [IsNamed, uses, defs]
    · exact .error _ _
  | arithImm op =>
    simp only
    split
    · refine (yields_readReg _ _).bind fun rd hrd ↦ (yields_readReg _ _).bind fun rs hrs ↦
        (Yields.any _).bind fun imm _ ↦ .ok ?_
      simp_all [IsNamed, uses, defs]
    · exact .error _ _
  | branch cond =>
    simp only
    split
    · refine (yields_readReg _ _).bind fun rs₁ hrs₁ ↦ (yields_readReg _ _).bind fun rs₂ hrs₂ ↦
        .ok ?_
      simp_all [IsNamed, uses, defs]
    · exact .error _ _
  | load width =>
    simp only
    split
    · refine (yields_readReg _ _).bind fun rd hrd ↦ ?_
      split
      · refine (yields_readAddress _ _).bind fun p hp ↦ .ok ?_
        simp_all [IsNamed, uses, defs]
      · exact .ok (by simp_all [IsNamed, uses, defs])
    · exact .error _ _
  | store width => exact yields_readStore catalog width _
  | call => exact yields_readCall hc cs
  | ret =>
    refine (Yields.mapM (yields_readReg catalog) _).bind fun values hvalues ↦ .ok fun ρ hρ ↦ ?_
    rw [uses, defs, List.append_nil] at hρ
    rcases List.mem_append.1 hρ with hρ | hρ
    · exact hvalues ρ hρ
    · exact isNamed_of_mem_allocatable hc (fun r ↦ List.mem_append_left _) ρ hρ

theorem yields_read (hc : catalog.WellFormed) (line : List Char) :
    Yields (read catalog line) (IsNamed catalog) := by
  unfold read
  simp only
  split
  · exact .error _ _
  · exact yields_readOperands hc _ _

end Instr

end Reading

/-! ## Reserved registers -/

/-- A routine over its reserved registers, all of which are words, and those of the catalog. -/
structure Routine.IsReady (f : Routine) (catalog : Catalog) : Prop where
  isOver : f.IsOver catalog
  sizes : ∀ x ∈ f.sizes, x = 4

namespace Routine

variable {f : Routine} {catalog : Catalog} {i : Instr}

theorem reserve_sizes (hf : ∀ x ∈ f.sizes, x = 4) (v : Nat) :
    ∀ x ∈ (f.reserve v 4).sizes, x = 4 := by
  intro x hx
  rcases Array.mem_or_eq_of_mem_setIfInBounds hx with hx | hx
  · rcases Array.mem_append.1 hx with hx | hx
    · exact hf x hx
    · exact Array.eq_of_mem_replicate hx
  · exact hx

theorem vregCount_reserve (f : Routine) (v size : Nat) :
    (f.reserve v size).vregCount = max f.vregCount (v + 1) := by
  simp only [reserve, vregCount, Array.size_setIfInBounds, Array.size_append, Array.size_replicate]
  omega

/-- Reserving registers keeps what is reserved, and reserves them as words. -/
theorem reserveRegs_spec (hf : ∀ x ∈ f.sizes, x = 4) (rs : List Reg) :
    (∀ x ∈ (f.reserveRegs rs).sizes, x = 4) ∧ f.vregCount ≤ (f.reserveRegs rs).vregCount ∧
      ∀ v, .virt v ∈ rs → v < (f.reserveRegs rs).vregCount := by
  induction rs generalizing f with
  | nil => exact ⟨hf, le_rfl, fun v hv ↦ absurd hv List.not_mem_nil⟩
  | cons ρ rs ih =>
    cases ρ with
    | virt w =>
      by_cases hw : w < f.vregCount
      · have hstep : f.reserveRegs (.virt w :: rs) = f.reserveRegs rs := by
          simp [reserveRegs, hw]
        obtain ⟨hsizes, hle, hlt⟩ := ih hf
        rw [hstep]
        refine ⟨hsizes, hle, fun v hv ↦ ?_⟩
        rcases List.mem_cons.1 hv with he | hv
        · cases he
          exact hw.trans_le hle
        · exact hlt v hv
      · have hstep : f.reserveRegs (.virt w :: rs) = (f.reserve w 4).reserveRegs rs := by
          simp [reserveRegs, hw]
        obtain ⟨hsizes, hle, hlt⟩ := ih (reserve_sizes hf w)
        rw [vregCount_reserve] at hle
        rw [hstep]
        refine ⟨hsizes, (le_max_left _ _).trans hle, fun v hv ↦ ?_⟩
        rcases List.mem_cons.1 hv with he | hv
        · cases he
          exact (le_max_right _ _).trans hle
        · exact hlt v hv
    | phys r =>
      obtain ⟨hsizes, hle, hlt⟩ := ih hf
      refine ⟨hsizes, hle, fun v hv ↦ hlt v ?_⟩
      exact (List.mem_cons.1 hv).resolve_left (by simp)

theorem knows_mono {g : Routine} (h : f.vregCount ≤ g.vregCount) {ρ : Reg}
    (hρ : (f.numbering catalog).Knows ρ) : (g.numbering catalog).Knows ρ := by
  cases ρ with
  | virt v => exact Nat.lt_of_lt_of_le hρ h
  | phys r => exact hρ

/-- An instruction that is read is added with its registers reserved. -/
theorem IsReady.append? (hf : f.IsReady catalog) (hi : i.IsNamed catalog) {g : Routine}
    (h : f.append? i = some g) : g.IsReady catalog := by
  obtain ⟨block, hlast, rfl⟩ := Option.map_eq_some_iff.1 h
  obtain ⟨hsizes, hle, hlt⟩ := reserveRegs_spec hf.sizes (i.uses ++ i.defs)
  refine ⟨fun j hj ρ hρ ↦ ?_, hsizes⟩
  have hinstrs : j ∈ f.instrs ∨ j = i := by
    obtain ⟨b, hb, hj⟩ := List.mem_flatMap.1 hj
    rcases List.mem_append.1 hb with hb | hb
    · exact .inl (List.mem_flatMap.2 ⟨b, List.mem_of_mem_dropLast hb, hj⟩)
    · rw [List.mem_singleton.1 hb] at hj
      rcases List.mem_append.1 hj with hj | hj
      · exact .inl (List.mem_flatMap.2 ⟨block, List.mem_of_getLast? hlast, hj⟩)
      · exact .inr (List.mem_singleton.1 hj)
  rcases hinstrs with hj | rfl
  · exact knows_mono hle (hf.isOver j hj ρ hρ)
  · cases ρ with
    | virt v => exact hlt v hρ
    | phys r => exact hi _ hρ

/-- A new block holds no instructions yet. -/
theorem IsReady.addBlock (hf : f.IsReady catalog) (label : String) :
    IsReady { f with blocks := f.blocks ++ [{ label }] } catalog := by
  refine ⟨fun j hj ↦ hf.isOver j ?_, hf.sizes⟩
  simpa [instrs] using hj

theorem isReady_nil (name : String) (catalog : Catalog) :
    IsReady { name } catalog :=
  ⟨fun j hj ↦ absurd hj List.not_mem_nil, by simp⟩

end Routine

/-! ## Reading a program -/

/-- A function as it is read. -/
structure Function.IsRead (f : Function) (catalog : Catalog) : Prop where
  isReady : f.toRoutine.IsReady catalog
  frame : f.frame = {}

namespace Reader

variable {catalog : Catalog} {r : Reader}

/-- All the functions so far are as they are read. -/
structure Keeps (catalog : Catalog) (r : Reader) : Prop where
  functions : ∀ f ∈ r.program.functions, f.IsRead catalog
  current : ∀ p ∈ r.current?, p.1.IsRead catalog

theorem Keeps.readOuter (h : Keeps catalog r) (position : Position) (line : List Char) :
    Yields (r.readOuter position line) (Keeps catalog) := by
  unfold Reader.readOuter
  simp only
  split
  · split
    · exact .error _ _
    · exact (Yields.any _).bind fun value _ ↦ .ok ⟨h.functions, h.current⟩
  · split
    · exact .error _ _
    · split
      · exact .error _ _
      · split
        · exact .error _ _
        · refine .ok ⟨h.functions, fun p hp ↦ ?_⟩
          cases hp
          exact ⟨Routine.isReady_nil _ _, rfl⟩

theorem yields_readInner (hc : catalog.WellFormed) {f : Function} (hf : f.IsRead catalog)
    (line : List Char) : Yields (readInner catalog f line) fun f ↦ f.IsRead catalog := by
  unfold readInner
  split
  · split
    · exact .error _ _
    · exact .ok ⟨hf.isReady.addBlock _, hf.frame⟩
  · refine (Instr.yields_read hc line).bind fun i hi ↦ ?_
    split
    · exact .error _ _
    · rename_i routine hroutine
      exact .ok ⟨hf.isReady.append? hi hroutine, hf.frame⟩

theorem Keeps.readLine (hc : catalog.WellFormed) (h : Keeps catalog r) (position : Position)
    (line : List Char) : Yields (r.readLine catalog position line) (Keeps catalog) := by
  unfold Reader.readLine
  split
  · exact h.readOuter position line
  · rename_i f start hr
    have hf : f.IsRead catalog := h.current (f, start) (by rw [hr]; rfl)
    split
    · refine .ok ⟨fun g hg ↦ ?_, by simp⟩
      rcases List.mem_append.1 hg with hg | hg
      · exact h.functions g hg
      · rwa [List.mem_singleton.1 hg]
    · refine (yields_readInner hc hf line).bind fun g hg ↦ .ok ⟨h.functions, fun p hp ↦ ?_⟩
      cases hp
      exact hg

theorem Keeps.readLines (hc : catalog.WellFormed) (h : Keeps catalog r)
    (lines : List (Position × List Char)) :
    Yields (r.readLines catalog lines) (Keeps catalog) := by
  induction lines generalizing r with
  | nil => exact .ok h
  | cons hd tl ih =>
    obtain ⟨position, line⟩ := hd
    unfold Reader.readLines
    split
    · rename_i r' hr'
      exact ih (h.readLine hc position line r' hr')
    · exact .error _ _

end Reader

/-- Every function of a program that is read is ready, and has an empty frame. -/
theorem Program.isRead_of_parse {catalog : Catalog} (hc : catalog.WellFormed) {text : String}
    {program : Program} (h : Program.parse catalog text = .ok program) :
    ∀ f ∈ program.functions, f.IsRead catalog := by
  have hstart : Reader.Keeps catalog {} := ⟨by simp, by simp⟩
  obtain ⟨r, hr, h⟩ := bind_eq_ok_iff.1 h
  have hkeeps := hstart.readLines hc _ r hr
  split at h
  · cases h
    exact hkeeps.functions
  · cases h

/-! ## Brackets -/

namespace Routine

variable {f : Routine} {catalog : Catalog}

theorem mem_of_mem_insertAtEnd {inserted code : List Instr} {i : Instr}
    (h : i ∈ insertAtEnd inserted code) : i ∈ code ∨ i ∈ inserted := by
  unfold insertAtEnd at h
  split at h
  · exact .inr h
  · rename_i last hlast
    split at h
    · simp only [List.mem_append, List.mem_singleton] at h
      rcases h with (h | h) | rfl
      · exact .inl (List.mem_of_mem_dropLast h)
      · exact .inr h
      · exact .inl (List.mem_of_getLast? hlast)
    · exact List.mem_append.1 h

theorem mem_of_mem_modifyLast {α : Type} {g : α → α} {as : List α} {a : α}
    (h : a ∈ modifyLast g as) : a ∈ as ∨ ∃ x ∈ as, a = g x := by
  induction as with
  | nil => cases h
  | cons hd tl ih =>
    cases tl with
    | nil => exact .inr ⟨hd, List.mem_cons_self, List.mem_singleton.1 h⟩
    | cons hd' tl =>
      rcases List.mem_cons.1 h with rfl | h
      · exact .inl List.mem_cons_self
      · rcases ih h with h | ⟨x, hx, rfl⟩
        · exact .inl (List.mem_cons_of_mem _ h)
        · exact .inr ⟨x, List.mem_cons_of_mem _ hx, rfl⟩

/-- What is bracketed holds copies besides its own instructions. -/
theorem mem_instrs_bracket {i : Instr} (h : i ∈ (f.bracket catalog).instrs) :
    i ∈ f.instrs ∨ i ∈ saves (f.savedRegs catalog) ++ restores (f.savedRegs catalog) := by
  obtain ⟨b, hb, hi⟩ := List.mem_flatMap.1 h
  have hentered : ∀ b ∈ f.blocks.modifyHead fun b ↦
      { b with code := saves (f.savedRegs catalog) ++ b.code },
      ∀ i ∈ b.code, i ∈ f.instrs ∨ i ∈ saves (f.savedRegs catalog) := by
    intro b hb i hi
    cases hblocks : f.blocks with
    | nil => simp [hblocks] at hb
    | cons hd tl =>
      rw [hblocks, List.modifyHead_cons, List.mem_cons] at hb
      rcases hb with rfl | hb
      · rcases List.mem_append.1 hi with hi | hi
        · exact .inr hi
        · exact .inl (List.mem_flatMap.2 ⟨hd, by simp [hblocks], hi⟩)
      · exact .inl (List.mem_flatMap.2 ⟨b, by simp [hblocks, hb], hi⟩)
  rw [List.mem_append]
  rcases mem_of_mem_modifyLast hb with hb | ⟨b', hb', rfl⟩
  · exact (hentered b hb i hi).imp_right .inl
  · rcases mem_of_mem_insertAtEnd hi with hi | hi
    · exact (hentered b' hb' i hi).imp_right .inl
    · exact .inr (.inr hi)

theorem IsReady.bracket (hf : f.IsReady catalog) (hc : catalog.WellFormed) :
    (f.bracket catalog).IsReady catalog := by
  have hcount : (f.bracket catalog).vregCount = f.vregCount + (f.savedRegs catalog).length := by
    simp [Routine.bracket, vregCount]
  -- the copies go between callee saved registers and the registers that are added
  have hsaved : ∀ p ∈ f.savedRegs catalog,
      ((f.bracket catalog).numbering catalog).Knows (.phys p.1) ∧
        ((f.bracket catalog).numbering catalog).Knows (.virt p.2) := by
    intro p hp
    by_cases hb : f.blocks.isEmpty = true
    · simp [savedRegs, hb] at hp
    · have hlen : (f.savedRegs catalog).length = catalog.calleeSaved.length := by
        simp [savedRegs, hb]
      rw [savedRegs, if_neg hb] at hp
      obtain ⟨⟨reg, k⟩, hk, rfl⟩ := List.mem_map.1 hp
      rw [List.mk_mem_zipIdx_iff_getElem?] at hk
      have hlt := (List.getElem?_eq_some_iff.1 hk).1
      refine ⟨hc.mem_registers (List.mem_append_left _ (List.mem_of_getElem? hk)), ?_⟩
      show f.vregCount + k < (f.bracket catalog).vregCount
      omega
  constructor
  · intro i hi ρ hρ
    rcases mem_instrs_bracket hi with hi | hi
    · exact knows_mono (by omega) (hf.isOver i hi ρ hρ)
    · rcases List.mem_append.1 hi with hi | hi
      · obtain ⟨p, hp, rfl⟩ := List.mem_map.1 hi
        simp only [Instr.uses, Instr.defs, List.mem_append, List.mem_singleton] at hρ
        rcases hρ with rfl | rfl
        · exact (hsaved p hp).1
        · exact (hsaved p hp).2
      · obtain ⟨p, hp, rfl⟩ := List.mem_map.1 hi
        rw [List.mem_reverse] at hp
        simp only [Instr.uses, Instr.defs, List.mem_append, List.mem_singleton] at hρ
        rcases hρ with rfl | rfl
        · exact (hsaved p hp).2
        · exact (hsaved p hp).1
  · intro x hx
    rcases Array.mem_append.1 hx with hx | hx
    · exact hf.sizes x hx
    · exact Array.eq_of_mem_replicate hx

end Routine

end RegAlloc

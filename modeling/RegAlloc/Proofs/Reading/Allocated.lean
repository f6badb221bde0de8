import Mathlib
import RegAlloc.Allocation.Program
import RegAlloc.Proofs.Bracket
import RegAlloc.Proofs.Commit
import RegAlloc.Proofs.Reading.Program
import RegAlloc.Proofs.Spill.Record

/-!
# Allocated programs can be read

Brackets, rounds of spilling and the commit rewrite the code of a function. They put other registers
in the places of virtual ones, and add instructions that name registers and constants only
(`Routine.Rewrites`). Nothing else changes: neither names and labels, nor the registers that a call
clobbers and a return preserves, which are not written.

In the end all the registers are physical. Their names are words, which can stand in any place of a
line, so whatever could be read before is legible after the registers have been exchanged, and so is
what was added. An allocated program is therefore read back from what is written for it.
-/

namespace RegAlloc

open Text

/-! ## Words -/

/-- The text can stand for any operand. -/
def IsWord (t : List Char) : Prop :=
  ∀ cs, Respells cs t

theorem IsWord.ne_nil {t : List Char} (h : IsWord t) : t ≠ [] := by
  intro hnil
  cases (h ['x']).eq_nil hnil

theorem areOperands_of_isWord {xs : List (List Char)} (h : ∀ x ∈ xs, IsWord x) :
    AreOperands xs := by
  refine ⟨fun x hx ↦ (h x hx []).isOperand, ?_, fun x hx hcolon ↦ ?_⟩
  · rintro rfl
    exact (h [] List.mem_cons_self).ne_nil rfl
  · cases (h x (List.mem_of_getLast? hx) []).colon hcolon

/-- Letters and digits make a word. -/
theorem isWord_of_isAlphanum {t : List Char} (hne : t ≠ [])
    (h : ∀ c ∈ t, c.isAlphanum = true) : IsWord t := by
  have hnot : ∀ {c : Char}, c.isAlphanum = false → c ∉ t := by
    intro c hc hmem
    rw [h c hmem] at hc
    cases hc
  have hblank : ∀ c ∈ t, isBlank c = false := by
    intro c hc
    have hcases := h c hc
    simp only [Char.isAlphanum, Char.isAlpha, Char.isUpper, Char.isLower, Char.isDigit,
      Bool.or_eq_true, Bool.and_eq_true, decide_eq_true_eq] at hcases
    change ((65 ≤ c.toNat ∧ c.toNat ≤ 90) ∨ (97 ≤ c.toNat ∧ c.toNat ≤ 122)) ∨
      (48 ≤ c.toNat ∧ c.toNat ≤ 57) at hcases
    exact isBlank_eq_false (by omega) (by omega)
  refine fun cs ↦ ⟨⟨trim_eq_self (fun c hc ↦ ?_) fun c hc ↦ ?_, hnot rfl, hnot rfl, hnot rfl⟩,
    fun hnil ↦ absurd hnil hne, fun hcolon ↦ ?_⟩
  · exact hblank c (List.mem_of_head? hc)
  · exact hblank c (List.mem_of_getLast? hc)
  · exact absurd (List.mem_of_getLast? hcolon) (hnot rfl)

/-- The names of the registers are words, by which the registers are found. -/
def Catalog.IsWritable (catalog : Catalog) : Prop :=
  ∀ r ∈ catalog.registers,
    IsWord r.name.toList ∧ readReg catalog r.name.toList = .ok (.phys r)

theorem Catalog.isWritable_riscv32 : riscv32.IsWritable := by
  have hnames : ∀ r ∈ riscv32.registers,
      r.name.toList.isEmpty = false ∧ r.name.toList.all Char.isAlphanum = true ∧
        readReg riscv32 r.name.toList = .ok (.phys r) := by
    decide +kernel
  intro r hr
  obtain ⟨hne, hname, hread⟩ := hnames r hr
  exact ⟨isWord_of_isAlphanum (List.isEmpty_eq_false_iff.1 hne) (List.all_eq_true.1 hname), hread⟩

/-! ## Instructions over physical registers -/

namespace Instr

variable {catalog : Catalog} {i : Instr} {φ : Reg → Reg}

/-- The instruction names registers and constants only. -/
def IsBare : Instr → Prop
  | li _ _ | mv _ _ | arith _ _ _ _ | arithImm _ _ _ _ | load _ _ _ _ | store _ _ _ _ => True
  | _ => False

theorem IsBare.mapRegs (h : i.IsBare) (φ : Reg → Reg) : (i.mapRegs φ).IsBare := by
  cases i <;> trivial

theorem mem_of_mem_writtenRegs {ρ : Reg} (h : ρ ∈ i.writtenRegs) : ρ ∈ i.uses ++ i.defs := by
  cases i <;> simp only [writtenRegs, uses, defs, List.mem_append, List.mem_cons] at h ⊢ <;> tauto

theorem writtenRegs_mapRegs (φ : Reg → Reg) (i : Instr) :
    (i.mapRegs φ).writtenRegs = i.writtenRegs.map φ := by
  cases i <;> rfl

theorem IsPhysical.isWord_text (h : i.IsPhysical catalog) (hc : catalog.IsWritable) {ρ : Reg}
    (hρ : ρ ∈ i.writtenRegs) : IsWord ρ.text.toList := by
  obtain ⟨r, hr, rfl⟩ := h ρ (mem_of_mem_writtenRegs hρ)
  exact (hc r hr).1

theorem IsPhysical.isLegible (h : i.IsPhysical catalog) (hc : catalog.IsWritable)
    (hform : i.IsWellFormed catalog)
    (hoperands : i.opcode ≠ .call → AreOperands (i.operandTexts.map String.toList)) :
    i.IsLegible catalog := by
  refine ⟨fun ρ hρ ↦ ?_, hform, hoperands⟩
  obtain ⟨r, hr, rfl⟩ := h ρ (mem_of_mem_writtenRegs hρ)
  exact ⟨((hc r hr).1 []).isOperand, (hc r hr).2⟩

/-- Registers and constants can be read in any place. -/
theorem IsBare.isLegible (h : i.IsBare) (hc : catalog.IsWritable) (hphys : i.IsPhysical catalog) :
    i.IsLegible catalog := by
  have hword : ∀ ρ ∈ i.writtenRegs, IsWord ρ.text.toList := fun ρ ↦ hphys.isWord_text hc
  have haddress : ∀ ρ ∈ i.writtenRegs, ∀ offset, IsWord (addressText offset ρ).toList :=
    fun ρ hρ offset cs ↦ respells_addressText cs offset (hword ρ hρ []).isOperand
  have himm : ∀ imm, IsWord (immText imm).toList := fun imm cs ↦ respells_immText cs imm
  have hform : i.IsWellFormed catalog := by cases i <;> trivial
  refine hphys.isLegible hc hform fun _ ↦ areOperands_of_isWord ?_
  cases i with
  | li | mv | arith | arithImm | load | store => simp_all [operandTexts, writtenRegs]
  | _ => cases h

/-- Other registers are other spellings of the operands. -/
theorem forall₂_respells_mapRegs
    (h : ∀ x ∈ i.operandTexts.map String.toList, IsOperand x) (hcall : i.opcode ≠ .call)
    (hφ : ∀ ρ ∈ i.writtenRegs, IsWord (φ ρ).text.toList) :
    List.Forall₂ Respells (i.operandTexts.map String.toList)
      ((i.mapRegs φ).operandTexts.map String.toList) := by
  have haddress : ∀ ρ ∈ i.writtenRegs, ∀ offset cs,
      Respells cs (addressText offset (φ ρ)).toList :=
    fun ρ hρ offset cs ↦ respells_addressText cs offset (hφ ρ hρ []).isOperand
  have hsame : ∀ x ∈ i.operandTexts, Respells x.toList x.toList :=
    fun x hx ↦ (h _ (List.mem_map_of_mem hx)).respells
  cases i with
  | call => exact absurd rfl hcall
  | ret values preserved =>
    simp only [mapRegs, operandTexts, List.map_map, List.forall₂_map_left_iff,
      List.forall₂_map_right_iff]
    exact List.forall₂_same.2 fun ρ hρ ↦ hφ ρ hρ _
  | _ => simp_all [mapRegs, operandTexts, writtenRegs, IsWord, respells_immText]

theorem IsWellFormed.mapRegs (h : i.IsWellFormed catalog) (hphys : ∀ r, φ (.phys r) = .phys r)
    (hφ : ∀ ρ ∈ i.writtenRegs, (φ ρ).text.toList ≠ []) : (i.mapRegs φ).IsWellFormed catalog := by
  have hmap : ∀ rs : List PhysReg, (rs.map Reg.phys).map φ = rs.map Reg.phys := by
    intro rs
    rw [List.map_map]
    exact List.map_congr_left fun r _ ↦ hphys r
  cases i with
  | call callee arguments clobbers =>
    obtain ⟨hcallee, -, rfl⟩ := h
    refine ⟨hcallee, fun ρ hρ ↦ ?_, hmap _⟩
    obtain ⟨argument, hargument, rfl⟩ := List.mem_map.1 hρ
    exact hφ argument hargument
  | ret values preserved =>
    cases h
    exact hmap _
  | _ => exact h

/-- An instruction that can be read is legible over physical registers, too. -/
theorem IsLegible.mapRegs (h : i.IsLegible catalog) (hc : catalog.IsWritable)
    (hphys : ∀ r, φ (.phys r) = .phys r) (hi : (i.mapRegs φ).IsPhysical catalog) :
    (i.mapRegs φ).IsLegible catalog := by
  have hφ : ∀ ρ ∈ i.writtenRegs, IsWord (φ ρ).text.toList := by
    intro ρ hρ
    refine hi.isWord_text hc ?_
    rw [writtenRegs_mapRegs]
    exact List.mem_map_of_mem hρ
  refine hi.isLegible hc (h.form.mapRegs hphys fun ρ hρ ↦ (hφ ρ hρ).ne_nil) fun hcall ↦ ?_
  have hcode : i.opcode ≠ .call := by
    cases i with
    | call => exact hcall
    | _ => simp [opcode]
  have hoperands := h.operands hcode
  exact hoperands.respell (forall₂_respells_mapRegs hoperands.isOperand hcode hφ)

end Instr

/-! ## Rewritten routines -/

/-- The routine has the name and the labels of `f`. An instruction is one of `f` with other
registers for its virtual ones, or names registers and constants only. -/
structure Routine.Rewrites (f g : Routine) : Prop where
  name_eq : g.name = f.name
  map_label : g.blocks.map Block.label = f.blocks.map Block.label
  code : ∀ j ∈ g.instrs, j.IsBare ∨
    ∃ i ∈ f.instrs, ∃ φ : Reg → Reg, (∀ r, φ (.phys r) = .phys r) ∧ j = i.mapRegs φ

namespace Routine.Rewrites

variable {f g k : Routine} {catalog : Catalog}

theorem refl (f : Routine) : f.Rewrites f :=
  ⟨rfl, rfl, fun j hj ↦ .inr ⟨j, hj, id, fun _ ↦ rfl,
    (Instr.mapRegs_eq_self fun _ _ ↦ rfl).symm⟩⟩

theorem trans (hg : f.Rewrites g) (hk : g.Rewrites k) : f.Rewrites k := by
  refine ⟨hk.name_eq.trans hg.name_eq, hk.map_label.trans hg.map_label, fun j hj ↦ ?_⟩
  rcases hk.code j hj with hbare | ⟨i, hi, ψ, hψ, rfl⟩
  · exact .inl hbare
  · rcases hg.code i hi with hbare | ⟨i₀, hi₀, φ, hφ, rfl⟩
    · exact .inl (hbare.mapRegs ψ)
    · refine .inr ⟨i₀, hi₀, ψ ∘ φ, fun r ↦ ?_, Instr.mapRegs_mapRegs φ ψ i₀⟩
      rw [Function.comp_apply, hφ, hψ]

/-- The copies are bare. -/
theorem bracket (f : Routine) (catalog : Catalog) : f.Rewrites (f.bracket catalog) := by
  refine ⟨rfl, map_label_bracket f catalog, fun j hj ↦ ?_⟩
  rcases mem_instrs_bracket hj with hj | hj
  · exact (refl f).code j hj
  · rcases List.mem_append.1 hj with hj | hj
    · obtain ⟨p, -, rfl⟩ := mem_saves.1 hj
      exact .inl trivial
    · obtain ⟨p, -, rfl⟩ := mem_restores.1 hj
      exact .inl trivial

end Routine.Rewrites

section Spilled

variable {frameBase : Reg} {t : Nat} {slot : Slot} {sizes sizes' : Array Nat} {code : List Instr}
  {slots : List (Nat × Slot)} {known known' : Temporaries} {i j : Instr} {b b' : Block}

theorem LoadsSlot.isBare (h : LoadsSlot frameBase t slot code) (hj : j ∈ code) : j.IsBare := by
  cases h with
  | near =>
    rw [List.mem_singleton.1 hj]
    trivial
  | far =>
    simp only [List.mem_cons, List.not_mem_nil, or_false] at hj
    rcases hj with rfl | rfl | rfl <;> trivial

theorem StoresSlot.isBare (h : StoresSlot frameBase t slot sizes code sizes') (hj : j ∈ code) :
    j.IsBare := by
  cases h with
  | near =>
    rw [List.mem_singleton.1 hj]
    trivial
  | far =>
    simp only [List.mem_cons, List.not_mem_nil, or_false] at hj
    rcases hj with rfl | rfl | rfl <;> trivial

/-- Around an instruction over its temporaries there are only accesses to slots. -/
theorem SpillsInstr.isBare_or (h : SpillsInstr slots frameBase known i code known')
    (hj : j ∈ code) : j.IsBare ∨ ∃ temporaries, j = i.mapRegs (substitute temporaries) := by
  cases h with
  | @mk loads stores sizes hloads hstores =>
    rcases List.mem_append.1 hj with hj | hj
    · rcases List.mem_append.1 hj with hj | hj
      · obtain ⟨load, hload, hj⟩ := List.mem_flatten.1 hj
        obtain ⟨p, -, hp⟩ := exists_of_forall₂ hloads hload
        exact .inl (hp.isBare hj)
      · exact .inr ⟨_, List.mem_singleton.1 hj⟩
    · obtain ⟨store, hstore, hj⟩ := List.mem_flatten.1 hj
      obtain ⟨p, -, _, _, hp, -⟩ :=
        hstores.exists_of_mem (c := Array.size) StoresSlot.size_le hstore
      exact .inl (hp.isBare hj)

theorem SpillsBlock.isBare_or (h : SpillsBlock slots frameBase known b b' known')
    (hj : j ∈ b'.code) :
    j.IsBare ∨ ∃ i ∈ b.code, ∃ temporaries, j = i.mapRegs (substitute temporaries) := by
  cases h with
  | mk h =>
    obtain ⟨code, hcode, hj⟩ := List.mem_flatten.1 hj
    obtain ⟨i, hi, _, _, hinstr, -⟩ :=
      h.exists_of_mem (c := fun known ↦ known.sizes.size) SpillsInstr.size_le hcode
    exact (hinstr.isBare_or hj).imp_right fun htemporaries ↦ ⟨i, hi, htemporaries⟩

end Spilled

namespace Spilling

variable {σ : Type} [SlotStore σ] {settings : Settings} {catalog : Catalog} {w w' : Spilling σ}
  {spills : List Nat} {slots : List (Nat × Slot)}

theorem rewrites_of_spill (h : w.spill catalog spills = .ok (w', slots)) :
    w.routine.Rewrites w'.routine := by
  have hblocks := (spills_of_spill h).blocks
  refine ⟨name_of_spill h, ?_, fun j hj ↦ ?_⟩
  · exact hblocks.map_eq SpillsBlock.label_eq
  · obtain ⟨b', hb', hj⟩ := List.mem_flatMap.1 hj
    obtain ⟨b, hb, _, _, hblock, -⟩ :=
      hblocks.exists_of_mem (c := fun known ↦ known.sizes.size) SpillsBlock.size_le hb'
    rcases hblock.isBare_or hj with hbare | ⟨i, hi, temporaries, rfl⟩
    · exact .inl hbare
    · exact .inr ⟨i, List.mem_flatMap.2 ⟨b, hb, hi⟩, _, fun r ↦ rfl, rfl⟩

theorem Visits.rewrites {order : SlotOrder} {number : Nat} {attempts : List Attempt}
    (h : Visits order settings catalog number w attempts w') :
    w.routine.Rewrites w'.routine := by
  induction h with
  | start => exact .refl _
  | next _ _ _ _ hspill ih => exact ih.trans (rewrites_of_spill hspill)

end Spilling

/-! ## Committed routines -/

namespace Routine

variable {f : Routine} {catalog : Catalog} {assignment : List (Nat × PhysReg)} {j : Instr}

theorem rewrites_assign (f : Routine) (assignment : List (Nat × PhysReg)) :
    f.Rewrites (f.assign assignment) := by
  refine ⟨rfl, ?_, fun j hj ↦ ?_⟩
  · rw [assign, List.map_map]
    rfl
  · obtain ⟨⟨i, hi, rfl⟩, -⟩ := mem_instrs_assign.1 hj
    exact .inr ⟨i, hi, _, fun r ↦ rfl, rfl⟩

/-- What the routine `f` has become is over physical registers, and copies no register to itself. -/
structure IsAllocated (catalog : Catalog) (f g : Routine) : Prop where
  rewrites : f.Rewrites g
  isPhysical : ∀ j ∈ g.instrs, j.IsPhysical catalog
  not_isSelfMove : ∀ j ∈ g.instrs, j.isSelfMove = false

theorem isAllocated_of_allocate {σ : Type} [SlotStore σ] {order : SlotOrder} {store : σ}
    {settings : Settings} (hc : catalog.WellFormed) (hf : f.IsOver catalog) (hne : f.blocks ≠ [])
    {outcome : Outcome σ} (h : f.allocate order store catalog settings = .ok outcome)
    {report : Report} (hresult : outcome.result = .ok report) :
    f.IsAllocated catalog outcome.routine := by
  obtain ⟨attempts, w, hvisits, -, hends⟩ := Spilling.exists_visits_of_allocate hne h
  have horder := hvisits.isInOrder hc (Spilling.isInOrder_start hf store)
  cases hends with
  | error e => cases hresult
  | commit hg hround hspills hcommit =>
    obtain ⟨assignment, hassignment, h⟩ := bind_eq_ok_iff.1 hcommit
    cases h
    refine ⟨hvisits.rewrites.trans (rewrites_assign _ _),
      fun j ↦ isPhysical_of_assignment horder.isOver.isFor hassignment, fun j hj ↦ ?_⟩
    exact (mem_instrs_assign.1 hj).2

theorem reserveRegs_eq_self {rs : List Reg} (h : ∀ v, .virt v ∉ rs) : f.reserveRegs rs = f := by
  induction rs with
  | nil => rfl
  | cons ρ rs ih =>
    cases ρ with
    | virt v => exact absurd List.mem_cons_self (h v)
    | phys r => exact ih fun v hv ↦ h v (List.mem_cons_of_mem _ hv)

theorem IsAllocated.not_mentions {g : Routine} (h : f.IsAllocated catalog g) (v : Nat) :
    ¬g.Mentions (.virt v) := by
  rintro ⟨j, hj, hρ⟩
  exact (h.isPhysical j hj).notMem v hρ

end Routine

/-! ## Allocated functions -/

namespace Function

variable {f g : Function} {catalog : Catalog} {settings : Settings}

theorem isAllocated_of_allocate (hc : catalog.WellFormed) (hf : f.toRoutine.IsReady catalog)
    {order : SlotOrder} {a : Allocated} (h : f.allocate order catalog settings = .ok a)
    {report : Report} (hresult : a.result = .ok report) :
    f.toRoutine.IsAllocated catalog a.function.toRoutine := by
  unfold allocate at h
  split at h
  · cases h
    cases hresult
  · rename_i hblocks
    obtain ⟨outcome, houtcome, h⟩ := bind_eq_ok_iff.1 h
    cases h
    generalize hr : (if settings.calleeSaved then f.bracket catalog else f.toRoutine) = r
      at houtcome
    obtain ⟨hrewrites, hready⟩ : f.toRoutine.Rewrites r ∧ r.IsReady catalog := by
      rw [← hr]
      split
      · exact ⟨.bracket f.toRoutine catalog, hf.bracket hc⟩
      · exact ⟨.refl f.toRoutine, hf⟩
    have hne : r.blocks ≠ [] := by
      intro hnil
      have hlabels := hrewrites.map_label
      rw [hnil, List.map_nil, eq_comm, List.map_eq_nil_iff] at hlabels
      exact hblocks (List.isEmpty_iff.2 hlabels)
    obtain ⟨report', hreport⟩ : ∃ report', outcome.result = .ok report' := by
      cases hout : outcome.result with
      | error e =>
        rw [hout] at hresult
        cases hresult
      | ok report' => exact ⟨report', rfl⟩
    obtain ⟨hcode, hphys, hself⟩ :=
      Routine.isAllocated_of_allocate hc hready.isOver hne houtcome hreport
    exact ⟨hrewrites.trans hcode, hphys, hself⟩

/-- The words that are exchanged and added can be read. -/
theorem isLegible_of_isAllocated (h : f.toRoutine.IsAllocated catalog g.toRoutine)
    (hc : catalog.IsWritable) (hf : f.IsLegible catalog) : g.IsLegible catalog := by
  have hname := h.rewrites.name_eq
  refine ⟨hname ▸ hf.ne_nil, hname ▸ hf.trimmed, hname ▸ hf.plain, fun b hb ↦ ?_⟩
  have hlabel : b.label ∈ f.blocks.map Block.label := by
    rw [← h.rewrites.map_label]
    exact List.mem_map_of_mem hb
  obtain ⟨b₀, hb₀, hlabel⟩ := List.mem_map.1 hlabel
  have hlegible := hf.blocks b₀ hb₀
  refine ⟨hlabel ▸ hlegible.ne_nil, hlabel ▸ hlegible.blank, hlabel ▸ hlegible.plain,
    fun j hj ↦ ?_⟩
  have hmem : j ∈ g.instrs := List.mem_flatMap.2 ⟨b, hb, hj⟩
  have hphys := h.isPhysical j hmem
  rcases h.rewrites.code j hmem with hbare | ⟨i, hi, φ, hφ, rfl⟩
  · exact hbare.isLegible hc hphys
  · obtain ⟨b₁, hb₁, hi⟩ := List.mem_flatMap.1 hi
    exact ((hf.blocks b₁ hb₁).code i hi).mapRegs hc hφ hphys

theorem reservedSizes_eq_empty {is : List Instr} (h : ∀ i ∈ is, i.IsPhysical catalog) :
    reservedSizes is = #[] := by
  have hsame : ∀ f : Routine,
      is.foldl (fun r i ↦ r.reserveRegs (i.uses ++ i.defs)) f = f := by
    intro f
    induction is with
    | nil => rfl
    | cons i is ih =>
      rw [List.foldl_cons, Routine.reserveRegs_eq_self (h i List.mem_cons_self).notMem,
        ih fun j hj ↦ h j (List.mem_cons_of_mem _ hj)]
  rw [reservedSizes, hsame]

/-- No register is reserved when the text is read. -/
theorem reread_of_isAllocated (h : f.toRoutine.IsAllocated catalog g.toRoutine) :
    g.reread = { name := g.name, blocks := g.blocks } := by
  have hsizes : reservedSizes (g.blocks.flatMap Block.code) = #[] :=
    reservedSizes_eq_empty h.isPhysical
  rw [reread, asRead, hsizes]

end Function

/-- Holds a move that becomes one from a register to itself, and code that is never reached. -/
def Function.overDead : Function where
  name := "f"
  blocks :=
    [⟨"entry", [.li (.virt 0) 1, .mv (.virt 1) (.virt 0), .jump "end",
        .mv (.virt 2) (.virt 2)]⟩,
      ⟨"dead", [.ret [.virt 3] (Catalog.riscv32.calleeSaved.map .phys)]⟩,
      ⟨"end", [.mv (.phys ⟨9, "a0"⟩) (.virt 1)]⟩]
  sizes := #[4, 4, 4, 4]

/-- The graph of its registers is greedily colourable, so none of them is spilled. -/
theorem Function.spills_eq_nil_overDead {round : Round (overDead.numbering .riscv32).size}
    (hround : overDead.round .riscv32 (.ofBlocks overDead.blocks) true [] = .ok round) :
    round.spills = [] := by
  have hof := Routine.isOf_solve hround
  have hgreedy : (Graph.build overDead.vregCount round.interference.edges
      round.interference.moves).IsGreedilyColourable Catalog.riscv32.colourCount := by
    rw [hof.edges, hof.moves]
    exact ⟨(List.finRange _).take 4, (List.nodup_finRange _).sublist (List.take_sublist _ _),
      by decide +kernel, by decide +kernel⟩
  have hok := hof.attempt
  rw [hof.graph] at hok
  have hnil := Colouring.spilled_eq_nil_of_attempt Catalog.ofNames?_riscv32 hgreedy
    (fun _ hu ↦ absurd hu List.not_mem_nil) hok
  rw [Round.spills, hnil, List.map_nil, List.mergeSort_nil]

theorem Function.exists_allocate_overDead :
    ∃ a, overDead.allocate .ascending .riscv32 { maxRounds := 1, calleeSaved := false } = .ok a ∧
      ∃ report, a.result = .ok report := by
  have hc := Catalog.wellFormed_of_ofNames? Catalog.ofNames?_riscv32
  have hover : overDead.IsOver .riscv32 := by decide
  obtain ⟨round, hround⟩ := hover.exists_round hc (by decide) (.ofBlocks overDead.blocks) true []
  have hgraph : overDead.blockGraph = .ok (.ofBlocks overDead.blocks) := by rfl
  have hnext : Spilling.nextSpills { maxRounds := 1, calleeSaved := false } .riscv32
      { routine := overDead.toRoutine, store := overDead.frame } = some [] :=
    (Spilling.nextSpills_eq hgraph hround).trans (congrArg some (spills_eq_nil_overDead hround))
  have hreplay : Spilling.replay .ascending { maxRounds := 1, calleeSaved := false } .riscv32 1 []
      { routine := overDead.toRoutine, store := overDead.frame } = some _ := rfl
  obtain ⟨outcome, report, houtcome, hresult, -⟩ := Spilling.exists_allocate_of_replay hc
    (by decide) hover hreplay hnext (by decide)
  refine ⟨_, bind_eq_ok_iff.2 ⟨outcome, houtcome, rfl⟩, ?_⟩
  rw [hresult]
  exact ⟨_, rfl⟩

/-! ## Allocated programs -/

/-- If all of them succeed, the functions are allocated one by one. -/
theorem forall₂_of_allocateFunctions {catalog : Catalog} {settings : Settings}
    {orders : Nat → SlotOrder} {fs : List Function} {as : List Allocated}
    (h : allocateFunctions catalog settings orders fs = .ok as) {reports : List Report}
    (hresult : as.mapM (·.result) = .ok reports) :
    List.Forall₂ (fun f a ↦ (∃ order, f.allocate order catalog settings = .ok a) ∧
      ∃ report, a.result = .ok report) fs as := by
  induction fs generalizing orders as reports with
  | nil =>
    cases h
    exact .nil
  | cons f fs ih =>
    obtain ⟨a, ha, h⟩ := bind_eq_ok_iff.1 h
    split at h
    · rename_i e he
      cases h
      rw [List.mapM_cons, he] at hresult
      cases hresult
    · rename_i report hreport
      obtain ⟨as', has, h⟩ := bind_eq_ok_iff.1 h
      cases h
      rw [List.mapM_cons] at hresult
      obtain ⟨_, -, hresult⟩ := bind_eq_ok_iff.1 hresult
      obtain ⟨reports', hreports, -⟩ := bind_eq_ok_iff.1 hresult
      exact .cons ⟨⟨orders 0, ha⟩, report, hreport⟩ (ih has hreports)

namespace Program

variable {p : Program} {orders : Nat → SlotOrder} {catalog : Catalog} {settings : Settings}
  {a : AllocatedProgram}

/-- If it succeeds, every function of the program is allocated. -/
theorem forall₂_isAllocated (hc : catalog.WellFormed)
    (hp : ∀ f ∈ p.functions, f.toRoutine.IsReady catalog)
    (h : p.allocate orders catalog settings = .ok a) {reports : List Report}
    (hresult : a.result = .ok reports) :
    List.Forall₂ (fun f g ↦ f.toRoutine.IsAllocated catalog g.toRoutine) p.functions
      a.program.functions := by
  obtain ⟨as, has, h⟩ := bind_eq_ok_iff.1 h
  cases h
  have hall := forall₂_of_allocateFunctions has hresult
  have hdrop : p.functions.drop as.length = [] :=
    List.drop_eq_nil_of_le hall.length_eq.le
  rw [hdrop, List.append_nil]
  refine List.forall₂_map_right_iff.2 ?_
  refine ((List.forall₂_and_left _ _).2 ⟨hp, hall⟩).imp fun f a hfa ↦ ?_
  obtain ⟨hready, ⟨order, ha⟩, report, hreport⟩ := hfa
  exact Function.isAllocated_of_allocate hc hready ha hreport

theorem globals_of_allocate (h : p.allocate orders catalog settings = .ok a) :
    a.program.globals = p.globals := by
  obtain ⟨as, -, h⟩ := bind_eq_ok_iff.1 h
  cases h
  rfl

/-- An allocated program is over physical registers, even where control never goes, and copies no
register to itself. It has the names and labels of the program that was read, and is read back from
what is written for it, up to its frames and the virtual registers that were reserved. In which
orders registers get their slots makes no difference to that. -/
theorem parse_text_of_allocate {text : String} (hparse : parse .riscv32 text = .ok p)
    (orders : Nat → SlotOrder) (settings : Settings)
    (h : p.allocate orders .riscv32 settings = .ok a) {reports : List Report}
    (hresult : a.result = .ok reports) :
    (∀ f ∈ a.program.functions,
      (∀ v, ¬f.toRoutine.Mentions (.virt v)) ∧ ∀ ρ, .mv ρ ρ ∉ f.instrs) ∧
    a.program.globals = p.globals ∧
    a.program.functions.map (fun f ↦ (f.name, f.blocks.map Block.label)) =
      p.functions.map (fun f ↦ (f.name, f.blocks.map Block.label)) ∧
    parse .riscv32 a.program.text = .ok
      { a.program with
        functions := a.program.functions.map fun f ↦ { f with sizes := #[], frame := {} } } := by
  have hc : Catalog.riscv32.WellFormed := Catalog.wellFormed_of_ofNames? Catalog.ofNames?_riscv32
  have hread := isRead_of_parse hc hparse
  obtain ⟨hglobals, hfunctions⟩ := isLegible_of_parse hparse
  have hall := forall₂_isAllocated hc (fun f hf ↦ (hread f hf).isReady) h hresult
  have hboth := (List.forall₂_and_left _ _).2 ⟨hfunctions, hall⟩
  have hlegible : a.program.IsLegible .riscv32 := by
    refine ⟨globals_of_allocate h ▸ hglobals, fun g hg ↦ ?_⟩
    obtain ⟨f, -, hf, hfg⟩ := exists_of_forall₂ hboth hg
    exact Function.isLegible_of_isAllocated hfg Catalog.isWritable_riscv32 hf.toIsLegible
  refine ⟨fun g hg ↦ ?_, globals_of_allocate h, ?_, ?_⟩
  · obtain ⟨f, -, hfg⟩ := exists_of_forall₂ hall hg
    refine ⟨hfg.not_mentions, fun ρ hρ ↦ ?_⟩
    have hself := hfg.not_isSelfMove _ hρ
    simp [Instr.isSelfMove, Instr.move?] at hself
  · rw [← List.forall₂_eq_eq_eq, List.forall₂_map_left_iff, List.forall₂_map_right_iff]
    refine hall.flip.imp fun g f hfg ↦ ?_
    rw [hfg.rewrites.name_eq, hfg.rewrites.map_label]
  · have hreread : a.program.functions.map Function.reread =
        a.program.functions.map fun f ↦ { f with sizes := #[], frame := {} } := by
      refine List.map_congr_left fun g hg ↦ ?_
      obtain ⟨f, -, hfg⟩ := exists_of_forall₂ hall hg
      exact Function.reread_of_isAllocated hfg
    rw [hlegible.parse_text, hreread]

/-- Registers are found for the code that is never reached, too, and all of it is read back. -/
theorem parse_text_of_overDead :
    parse .riscv32 ("fn f \x7b\nentry:\nli %0, 1\nmv %1, %0\nj end\nmv %2, %2\n" ++
      "dead:\nret %3\nend:\nmv a0, %1\n\x7d") = .ok { functions := [.overDead] } ∧
    ∃ a reports, allocate { functions := [.overDead] } (fun _ ↦ .ascending) .riscv32
        { maxRounds := 1, calleeSaved := false } = .ok a ∧ a.result = .ok reports ∧
      a.program.functions.map (fun f ↦ (f.name, f.blocks.map Block.label)) =
        [("f", ["entry", "dead", "end"])] ∧
      parse .riscv32 a.program.text = .ok
        { a.program with
          functions := a.program.functions.map fun f ↦ { f with sizes := #[], frame := {} } } := by
  have hparse : parse .riscv32
      ("fn f \x7b\nentry:\nli %0, 1\nmv %1, %0\nj end\nmv %2, %2\n" ++
        "dead:\nret %3\nend:\nmv a0, %1\n\x7d") = .ok { functions := [.overDead] } := by
    decide +kernel
  obtain ⟨a, ha, report, hreport⟩ := Function.exists_allocate_overDead
  have has : allocateFunctions .riscv32 { maxRounds := 1, calleeSaved := false }
      (fun _ ↦ .ascending) [.overDead] = .ok [a] := by
    refine bind_eq_ok_iff.2 ⟨a, ha, ?_⟩
    rw [hreport]
    rfl
  obtain ⟨b, hb, hresult⟩ : ∃ b, allocate { functions := [.overDead] } (fun _ ↦ .ascending) .riscv32
      { maxRounds := 1, calleeSaved := false } = .ok b ∧ b.result = .ok [report] := by
    refine ⟨_, bind_eq_ok_iff.2 ⟨[a], has, rfl⟩, ?_⟩
    rw [List.mapM_cons, hreport]
    rfl
  obtain ⟨-, -, hlabels, hread⟩ := parse_text_of_allocate hparse _ _ hb hresult
  exact ⟨hparse, b, [report], hb, hresult, hlabels, hread⟩

end Program

end RegAlloc

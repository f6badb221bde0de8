import Mathlib
import RegAlloc.Proofs.Reading.Operand

/-!
# Instructions that are written and read

`Instr.IsLegible` says which instructions can be read from what is written for them. Every
instruction that is read from some line is legible, whatever the spelling of the line, and every
legible instruction is read back as it is.
-/

namespace RegAlloc

open Text

/-! ## Several operands -/

/-- Operands of one line. A single one is not empty, and the last one does not end with a colon, by
which a line would be taken for a label. -/
structure AreOperands (xs : List (List Char)) : Prop where
  isOperand : ∀ x ∈ xs, IsOperand x
  ne : xs ≠ [[]]
  colon : ∀ x, xs.getLast? = some x → x.getLast? ≠ some ':'

/-- The operands with commas between them. -/
def joined (xs : List (List Char)) : List Char :=
  [',', ' '].intercalate xs

theorem exists_of_getLast? {α β : Type} {R : α → β → Prop} {as : List α} {bs : List β}
    (h : List.Forall₂ R as bs) {b : β} (hb : bs.getLast? = some b) :
    ∃ a, as.getLast? = some a ∧ R a b := by
  induction h with
  | nil => cases hb
  | @cons a' b' as bs hhead htail ih =>
    cases htail with
    | nil =>
      cases hb
      exact ⟨a', rfl, hhead⟩
    | cons hnext htail =>
      rw [List.getLast?_cons_cons] at hb ⊢
      exact ih hb

/-- Other spellings of operands are operands. -/
theorem AreOperands.respell {xs ys : List (List Char)} (h : AreOperands xs)
    (hys : List.Forall₂ Respells xs ys) : AreOperands ys := by
  refine ⟨fun y hy ↦ ?_, ?_, fun y hy hc ↦ ?_⟩
  · obtain ⟨x, -, hxy⟩ := exists_of_forall₂ hys hy
    exact hxy.isOperand
  · rintro rfl
    cases hys with
    | cons hx htail =>
      cases htail
      exact h.ne (by rw [hx.eq_nil rfl])
  · obtain ⟨x, hx, hxy⟩ := exists_of_getLast? hys hy
    exact h.colon x hx (hxy.colon hc)

/-- What follows an operation code is a list of operands. -/
theorem areOperands_fields {rest : List Char} (hplain : IsPlain rest) (htrim : trim rest = rest)
    (hcolon : rest.getLast? ≠ some ':') :
    AreOperands (if rest.isEmpty then [] else (fields ',' rest).map trim) := by
  split
  · exact ⟨fun x hx ↦ absurd hx List.not_mem_nil, by simp, fun x hx ↦ by cases hx⟩
  · rename_i hne
    obtain ⟨init, last, hfields, ⟨front, hfront⟩, hall, -⟩ := exists_fields_eq_concat ',' rest
    refine ⟨fun x ↦ isOperand_of_mem_fields hplain, fun heq ↦ hne ?_, fun x hx hc ↦ hcolon ?_⟩
    · rw [hfields, List.map_append, List.map_singleton, List.append_eq_singleton_iff] at heq
      rcases heq with ⟨hinit, hlast⟩ | ⟨-, hlast⟩
      · rw [hall (List.map_eq_nil_iff.1 hinit), htrim] at hlast
        rw [List.cons_eq_cons.1 hlast |>.1]
        rfl
      · cases hlast
    · rw [hfields, List.map_append, List.map_singleton, List.getLast?_concat] at hx
      cases hx
      rw [getLast?_trim] at hc
      rw [← htrim, getLast?_trim, ← hfront, lastInk?_append, hc, Option.some_or]

theorem lastInk?_joined {xs : List (List Char)} (h : ∀ x ∈ xs, trim x = x) {last : List Char}
    (hlast : xs.getLast? = some last) :
    lastInk? (joined xs) = last.getLast?.or (if xs.length ≤ 1 then none else some ',') := by
  induction xs with
  | nil => cases hlast
  | cons x xs ih =>
    cases xs with
    | nil =>
      cases hlast
      rw [joined, List.intercalate_singleton, ← getLast?_trim, h x List.mem_cons_self]
      simp
    | cons y ys =>
      rw [List.getLast?_cons_cons] at hlast
      have hys := ih (fun z hz ↦ h z (List.mem_cons_of_mem _ hz)) hlast
      rw [joined, List.intercalate_cons_cons, lastInk?_append, ← joined, hys, lastInk?_append,
        show lastInk? [',', ' '] = some ',' by decide]
      cases last.getLast? with
      | some c => simp
      | none => cases ys <;> simp

section Joined

variable {texts : List (List Char)}

theorem lastInk?_joined_ne_none (h : AreOperands texts) (hne : texts ≠ []) :
    lastInk? (joined texts) ≠ none := by
  intro hnone
  obtain ⟨last, hlast⟩ := Option.isSome_iff_exists.1 (List.getLast?_isSome.2 hne)
  rw [lastInk?_joined (fun x hx ↦ (h.isOperand x hx).trimmed) hlast, Option.or_eq_none_iff,
    List.getLast?_eq_none_iff] at hnone
  obtain ⟨rfl, hlength⟩ := hnone
  rw [ite_eq_left_iff] at hlength
  have hone : texts.length ≤ 1 := by
    by_contra hlt
    cases hlength hlt
  match texts, hne, hone, hlast with
  | [x], _, _, hlast =>
    cases hlast
    exact h.ne rfl

theorem lastInk?_joined_ne_colon (h : AreOperands texts) :
    lastInk? (joined texts) ≠ some ':' := by
  cases hlast : texts.getLast? with
  | none =>
    rw [List.getLast?_eq_none_iff.1 hlast]
    decide
  | some last =>
    rw [lastInk?_joined (fun x hx ↦ (h.isOperand x hx).trimmed) hlast]
    intro hcolon
    cases hc : last.getLast? with
    | none =>
      rw [hc, Option.none_or] at hcolon
      split at hcolon <;> cases hcolon
    | some c =>
      rw [hc, Option.some_or] at hcolon
      exact h.colon last hlast (hc.trans hcolon)

theorem isPlain_joined (h : ∀ x ∈ texts, IsPlain x) : IsPlain (joined texts) := by
  induction texts with
  | nil => exact ⟨List.not_mem_nil, List.not_mem_nil⟩
  | cons x xs ih =>
    cases xs with
    | nil =>
      rw [joined, List.intercalate_singleton]
      exact h x List.mem_cons_self
    | cons y ys =>
      rw [joined, List.intercalate_cons_cons]
      refine ((h x List.mem_cons_self).append ⟨by decide, by decide⟩).append ?_
      exact ih fun z hz ↦ h z (List.mem_cons_of_mem _ hz)

/-- The operands with commas between them are the operands of the line. -/
theorem fields_joined (h : AreOperands texts) :
    (if (trim (joined texts)).isEmpty then [] else (fields ',' (trim (joined texts))).map trim) =
      texts := by
  by_cases hne : texts = []
  · rw [hne]
    rfl
  · have hempty : ¬(trim (joined texts)).isEmpty = true := by
      rw [List.isEmpty_iff, trim_eq_nil_iff]
      exact lastInk?_joined_ne_none h hne
    rw [if_neg hempty, map_trim_fields_trim rfl]
    exact map_trim_fields_intercalate hne fun x hx ↦
      ⟨(h.isOperand x hx).trimmed, (h.isOperand x hx).comma⟩

end Joined

theorem mapM_of_forall {α β ε : Type} {f : α → Except ε β} {g : β → α} {bs : List β}
    (h : ∀ b ∈ bs, f (g b) = .ok b) : (bs.map g).mapM f = .ok bs := by
  induction bs with
  | nil => rfl
  | cons b bs ih =>
    rw [List.map_cons, List.mapM_cons, h b List.mem_cons_self,
      ih fun x hx ↦ h x (List.mem_cons_of_mem _ hx)]
    rfl

/-! ## Operation codes -/

/-- Operation codes are words in lower case. -/
theorem Opcode.name_spec (o : Opcode) :
    o.name.toList ≠ [] ∧ ∀ c ∈ o.name.toList, c.isLower = true := by
  have hall : o.name.toList.isEmpty = false ∧ o.name.toList.all Char.isLower = true := by
    cases o with
    | arith op => cases op <;> exact ⟨rfl, rfl⟩
    | arithImm op => cases op <;> exact ⟨rfl, rfl⟩
    | branch cond => cases cond <;> exact ⟨rfl, rfl⟩
    | load width => cases width <;> exact ⟨rfl, rfl⟩
    | store width => cases width <;> exact ⟨rfl, rfl⟩
    | _ => exact ⟨rfl, rfl⟩
  exact ⟨List.isEmpty_eq_false_iff.1 hall.1, List.all_eq_true.1 hall.2⟩

theorem Opcode.isBlank_of_mem_name (o : Opcode) {c : Char} (h : c ∈ o.name.toList) :
    isBlank c = false := by
  have hlower := o.name_spec.2 c h
  simp only [Char.isLower, Bool.and_eq_true, decide_eq_true_eq] at hlower
  have hle : 97 ≤ c.toNat ∧ c.toNat ≤ 122 := hlower
  exact isBlank_eq_false (by omega) (by omega)

/-! ## Legible instructions -/

namespace Instr

/-- The registers that are written. -/
def writtenRegs : Instr → List Reg
  | li rd _ | la rd _ | loadSymbol _ rd _ => [rd]
  | mv rd rs | arithImm _ rd rs _ => [rd, rs]
  | arith _ rd rs₁ rs₂ => [rd, rs₁, rs₂]
  | load _ rd base _ => [rd, base]
  | store _ rs base _ => [rs, base]
  | storeSymbol _ rs scratch _ => [rs, scratch]
  | branch _ rs₁ rs₂ _ => [rs₁, rs₂]
  | jump _ => []
  | call _ arguments _ => arguments
  | ret values _ => values

/-- What is not written is as the catalog has it, and no text is taken for something else. -/
def IsWellFormed (catalog : Catalog) : Instr → Prop
  | loadSymbol _ _ symbol => '(' ∉ symbol.toList
  | call callee arguments clobbers =>
    (trim callee.toList = callee.toList ∧ IsPlain callee.toList ∧ '(' ∉ callee.toList) ∧
      (∀ ρ ∈ arguments, ρ.text.toList ≠ []) ∧ clobbers = catalog.callerSaved.map .phys
  | ret _ preserved => preserved = catalog.calleeSaved.map .phys
  | _ => True

/-- The instruction can be read from what is written for it. -/
structure IsLegible (catalog : Catalog) (i : Instr) : Prop where
  regs : ∀ ρ ∈ i.writtenRegs, ρ.IsLegible catalog
  form : i.IsWellFormed catalog
  operands : i.opcode ≠ .call → AreOperands (i.operandTexts.map String.toList)

variable {catalog : Catalog} {i : Instr}

/-! ## What is read is legible -/

theorem isLegible_of_respells {operands : List (List Char)} (h : AreOperands operands)
    (hregs : ∀ ρ ∈ i.writtenRegs, ρ.IsLegible catalog) (hform : i.IsWellFormed catalog)
    (hrespells : List.Forall₂ Respells operands (i.operandTexts.map String.toList)) :
    i.IsLegible catalog :=
  ⟨hregs, hform, fun _ ↦ h.respell hrespells⟩

/-- Operands that are read as registers. -/
theorem isLegible_of_mapM_readReg {operands : List (List Char)} {regs : List Reg}
    (hoperands : ∀ x ∈ operands, IsOperand x) (h : operands.mapM (readReg catalog) = .ok regs) :
    (∀ ρ ∈ regs, ρ.IsLegible catalog) ∧
      List.Forall₂ Respells operands (regs.map fun ρ ↦ ρ.text.toList) := by
  have hread := (List.forall₂_and_left _ _).2 ⟨hoperands, forall₂_of_mapM h⟩
  have hboth := hread.imp fun _ _ h ↦ isLegible_of_readReg h.1 h.2
  refine ⟨fun ρ hρ ↦ ?_, ?_⟩
  · obtain ⟨x, -, hlegible, -⟩ := exists_of_forall₂ hboth hρ
    exact hlegible
  · exact List.forall₂_map_right_iff.2 (hboth.imp fun _ _ h ↦ h.2)

theorem isLegible_of_readStore {width : Width} {operands : List (List Char)}
    (hoperands : AreOperands operands) (h : readStore catalog width operands = .ok i) :
    i.IsLegible catalog := by
  cases operands with
  | nil => cases h
  | cons rs operands =>
    have hrsOp := hoperands.isOperand rs List.mem_cons_self
    obtain ⟨rs', hrs, h⟩ := bind_eq_ok_iff.1 h
    obtain ⟨hrsLegible, hrsSpelled⟩ := isLegible_of_readReg hrsOp hrs
    split at h
    · rename_i address _
      obtain ⟨⟨offset, base⟩, haddress, h⟩ := bind_eq_ok_iff.1 h
      cases h
      have hop := hoperands.isOperand address (by simp)
      obtain ⟨hbase, hspelled⟩ := isLegible_of_readAddress hop haddress
      refine isLegible_of_respells hoperands ?_ trivial (.cons hrsSpelled (.cons hspelled .nil))
      simp [writtenRegs, hrsLegible, hbase]
    · rename_i symbol scratch _
      obtain ⟨scratch', hscratch, h⟩ := bind_eq_ok_iff.1 h
      cases h
      have hop := hoperands.isOperand
      obtain ⟨hlegible, hspelled⟩ := isLegible_of_readReg (hop _ (by simp)) hscratch
      have hsymbol := (hop symbol (by simp)).respells
      refine isLegible_of_respells hoperands ?_ trivial
        (.cons hrsSpelled (.cons ?_ (.cons hspelled .nil)))
      · simp [writtenRegs, hrsLegible, hlegible]
      · simpa using hsymbol
    · cases h

theorem isLegible_of_readCall {rest : List Char} (hplain : IsPlain rest)
    (h : readCall catalog rest = .ok i) : i.IsLegible catalog := by
  unfold readCall at h
  split at h
  · cases h
  · rename_i callee arguments hcut
    obtain ⟨c, rfl, hcallee⟩ := eq_append_cons_of_cut? hcut
    split at h
    · cases h
    · rename_i arguments' hbefore
      obtain ⟨regs, hregs, h⟩ := bind_eq_ok_iff.1 h
      cases h
      have hsub : arguments' ⊆ callee ++ c :: arguments := by
        intro x hx
        obtain ⟨bs, hbs, -⟩ := exists_trimEnd_append arguments
        rw [hbs, eq_concat_of_before? hbefore]
        simp [hx]
      have hoperands : ∀ x ∈ ((fields ',' arguments').map trim).filter (!·.isEmpty),
          IsOperand x :=
        fun x hx ↦ isOperand_of_mem_fields (hplain.mono hsub) (List.mem_filter.1 hx).1
      obtain ⟨hlegible, hspelled⟩ := isLegible_of_mapM_readReg hoperands hregs
      refine ⟨hlegible, ⟨⟨?_, ?_, ?_⟩, fun ρ hρ hnil ↦ ?_, rfl⟩, fun hcode ↦ absurd rfl hcode⟩
      · rw [String.toList_ofList, trim_trim]
      · rw [String.toList_ofList]
        exact (hplain.mono (List.subset_append_left _ _)).trim
      · rw [String.toList_ofList]
        intro hmem
        have := hcallee '(' (mem_of_mem_trim hmem)
        simp at this
      · -- empty arguments are passed over
        obtain ⟨x, hx, hxρ⟩ := exists_of_forall₂ (List.forall₂_map_right_iff.1 hspelled) hρ
        have hne := (List.mem_filter.1 hx).2
        rw [hxρ.eq_nil hnil] at hne
        cases hne

/-- Whatever the operation code, the operands that are read are legible. -/
theorem isLegible_of_readOperands {code : Opcode} {rest : List Char} (hplain : IsPlain rest)
    (htrim : trim rest = rest) (hcolon : rest.getLast? ≠ some ':')
    (h : readOperands catalog code rest = .ok i) : i.IsLegible catalog := by
  have hoperands := areOperands_fields hplain htrim hcolon
  unfold readOperands at h
  generalize (if rest.isEmpty then [] else (fields ',' rest).map trim) = operands at h hoperands
  have hop := hoperands.isOperand
  cases code with
  | li =>
    simp only at h
    split at h
    · obtain ⟨rd, hrd, h⟩ := bind_eq_ok_iff.1 h
      obtain ⟨imm, -, h⟩ := bind_eq_ok_iff.1 h
      cases h
      obtain ⟨hrd, hrd'⟩ := isLegible_of_readReg (hop _ (by simp)) hrd
      refine isLegible_of_respells hoperands ?_ trivial
        (.cons hrd' (.cons (respells_immText _ _) .nil))
      simp [writtenRegs, hrd]
    · cases h
  | mv =>
    simp only at h
    split at h
    · obtain ⟨rd, hrd, h⟩ := bind_eq_ok_iff.1 h
      obtain ⟨rs, hrs, h⟩ := bind_eq_ok_iff.1 h
      cases h
      obtain ⟨hrd, hrd'⟩ := isLegible_of_readReg (hop _ (by simp)) hrd
      obtain ⟨hrs, hrs'⟩ := isLegible_of_readReg (hop _ (by simp)) hrs
      refine isLegible_of_respells hoperands ?_ trivial (.cons hrd' (.cons hrs' .nil))
      simp [writtenRegs, hrd, hrs]
    · cases h
  | la =>
    simp only at h
    split at h
    · rename_i symbol
      obtain ⟨rd, hrd, h⟩ := bind_eq_ok_iff.1 h
      cases h
      obtain ⟨hrd, hrd'⟩ := isLegible_of_readReg (hop _ (by simp)) hrd
      have hsymbol := (hop symbol (by simp)).respells
      refine isLegible_of_respells hoperands ?_ trivial (.cons hrd' (.cons ?_ .nil))
      · simp [writtenRegs, hrd]
      · simpa using hsymbol
    · cases h
  | jump =>
    simp only at h
    split at h
    · rename_i target
      cases h
      have htarget := (hop target (by simp)).respells
      refine isLegible_of_respells hoperands ?_ trivial (.cons ?_ .nil)
      · simp [writtenRegs]
      · simpa using htarget
    · cases h
  | arith op =>
    simp only at h
    split at h
    · obtain ⟨rd, hrd, h⟩ := bind_eq_ok_iff.1 h
      obtain ⟨rs₁, hrs₁, h⟩ := bind_eq_ok_iff.1 h
      obtain ⟨rs₂, hrs₂, h⟩ := bind_eq_ok_iff.1 h
      cases h
      obtain ⟨hrd, hrd'⟩ := isLegible_of_readReg (hop _ (by simp)) hrd
      obtain ⟨hrs₁, hrs₁'⟩ := isLegible_of_readReg (hop _ (by simp)) hrs₁
      obtain ⟨hrs₂, hrs₂'⟩ := isLegible_of_readReg (hop _ (by simp)) hrs₂
      refine isLegible_of_respells hoperands ?_ trivial
        (.cons hrd' (.cons hrs₁' (.cons hrs₂' .nil)))
      simp [writtenRegs, hrd, hrs₁, hrs₂]
    · cases h
  | arithImm op =>
    simp only at h
    split at h
    · obtain ⟨rd, hrd, h⟩ := bind_eq_ok_iff.1 h
      obtain ⟨rs, hrs, h⟩ := bind_eq_ok_iff.1 h
      obtain ⟨imm, -, h⟩ := bind_eq_ok_iff.1 h
      cases h
      obtain ⟨hrd, hrd'⟩ := isLegible_of_readReg (hop _ (by simp)) hrd
      obtain ⟨hrs, hrs'⟩ := isLegible_of_readReg (hop _ (by simp)) hrs
      refine isLegible_of_respells hoperands ?_ trivial
        (.cons hrd' (.cons hrs' (.cons (respells_immText _ _) .nil)))
      simp [writtenRegs, hrd, hrs]
    · cases h
  | branch cond =>
    simp only at h
    split at h
    · rename_i target
      obtain ⟨rs₁, hrs₁, h⟩ := bind_eq_ok_iff.1 h
      obtain ⟨rs₂, hrs₂, h⟩ := bind_eq_ok_iff.1 h
      cases h
      obtain ⟨hrs₁, hrs₁'⟩ := isLegible_of_readReg (hop _ (by simp)) hrs₁
      obtain ⟨hrs₂, hrs₂'⟩ := isLegible_of_readReg (hop _ (by simp)) hrs₂
      have htarget := (hop target (by simp)).respells
      refine isLegible_of_respells hoperands ?_ trivial (.cons hrs₁' (.cons hrs₂' (.cons ?_ .nil)))
      · simp [writtenRegs, hrs₁, hrs₂]
      · simpa using htarget
    · cases h
  | load width =>
    simp only at h
    split at h
    · rename_i source
      obtain ⟨rd, hrd, h⟩ := bind_eq_ok_iff.1 h
      obtain ⟨hrd, hrd'⟩ := isLegible_of_readReg (hop _ (by simp)) hrd
      split at h
      · obtain ⟨⟨offset, base⟩, haddress, h⟩ := bind_eq_ok_iff.1 h
        cases h
        obtain ⟨hbase, hspelled⟩ := isLegible_of_readAddress (hop _ (by simp)) haddress
        refine isLegible_of_respells hoperands ?_ trivial (.cons hrd' (.cons hspelled .nil))
        simp [writtenRegs, hrd, hbase]
      · rename_i hparen
        cases h
        have hsource := (hop source (by simp)).respells
        refine isLegible_of_respells hoperands ?_ ?_ (.cons hrd' (.cons ?_ .nil))
        · simp [writtenRegs, hrd]
        · simpa [IsWellFormed] using hparen
        · simpa using hsource
    · cases h
  | store width => exact isLegible_of_readStore hoperands h
  | call => exact isLegible_of_readCall hplain h
  | ret =>
    obtain ⟨values, hvalues, h⟩ := bind_eq_ok_iff.1 h
    cases h
    obtain ⟨hlegible, hspelled⟩ := isLegible_of_mapM_readReg hop hvalues
    refine isLegible_of_respells hoperands hlegible rfl ?_
    rwa [operandTexts, List.map_map]

/-- Every instruction that is read is legible. -/
theorem isLegible_of_read {line : List Char} (hplain : IsPlain line) (htrim : trim line = line)
    (hcolon : line.getLast? ≠ some ':') (h : read catalog line = .ok i) : i.IsLegible catalog := by
  unfold read at h
  cases hcut : cut? isBlank line with
  | none =>
    rw [hcut] at h
    simp only [Option.getD_none] at h
    split at h
    · cases h
    · exact isLegible_of_readOperands ⟨List.not_mem_nil, List.not_mem_nil⟩ rfl (by decide) h
  | some pair =>
    obtain ⟨word, rest⟩ := pair
    rw [hcut] at h
    simp only [Option.getD_some] at h
    obtain ⟨c, rfl, -⟩ := eq_append_cons_of_cut? hcut
    split at h
    · cases h
    · have hrest : IsPlain (trim rest) := (hplain.mono fun x hx ↦ by simp [hx]).trim
      refine isLegible_of_readOperands hrest (trim_trim rest) ?_ h
      rw [getLast?_trim]
      intro hlast
      refine hcolon ?_
      rw [← htrim, getLast?_trim, ← List.singleton_append, lastInk?_append, lastInk?_append, hlast,
        Option.some_or, Option.some_or]

/-! ## What is legible is read back -/

/-- What is written behind the operation code. -/
def body (i : Instr) : List Char :=
  joined (i.operandTexts.map String.toList)

/-- The line of the instruction as it is read. -/
def line (i : Instr) : List Char :=
  trim ("\t" ++ i.text).toList

theorem line_eq_trim (i : Instr) : i.line = trim i.text.toList := by
  rw [line, String.toList_append]
  refine trim_append_left (fun c hc ↦ ?_) _
  rw [List.mem_singleton.1 hc]
  rfl

theorem toList_commaSeparated (texts : List String) :
    (commaSeparated texts).toList = joined (texts.map String.toList) :=
  String.toList_intercalate

theorem toList_text (i : Instr) : i.text.toList =
    if i.operandTexts = [] then i.opcode.name.toList
    else i.opcode.name.toList ++ ' ' :: i.body := by
  unfold text body
  split
  · rename_i hnil
    rw [hnil, if_pos rfl]
  · rename_i hne
    rw [if_neg hne, ← toList_commaSeparated, String.toList_append, String.toList_append,
      List.append_assoc]
    rfl

theorem line_of_operandTexts_eq_nil (h : i.operandTexts = []) : i.line = i.opcode.name.toList := by
  rw [line_eq_trim, toList_text, if_pos h]
  refine trim_eq_self (fun c hc ↦ ?_) fun c hc ↦ ?_
  · exact i.opcode.isBlank_of_mem_name (List.mem_of_head? hc)
  · exact i.opcode.isBlank_of_mem_name (List.mem_of_getLast? hc)

theorem line_eq_append (h : i.operandTexts ≠ []) (hbody : lastInk? i.body ≠ none) :
    i.line = i.opcode.name.toList ++ ' ' :: trimEnd i.body := by
  have hhead : ∀ c, (i.opcode.name.toList ++ ' ' :: i.body).head? = some c → isBlank c = false := by
    intro c hc
    rw [List.head?_append_of_ne_nil _ i.opcode.name_spec.1] at hc
    exact i.opcode.isBlank_of_mem_name (List.mem_of_head? hc)
  calc i.line = trimEnd (i.opcode.name.toList ++ ' ' :: i.body) := by
        rw [line_eq_trim, toList_text, if_neg h, trim_eq_trimEnd hhead]
    _ = trimEnd (i.opcode.name.toList ++ [' '] ++ i.body) := by simp
    _ = i.opcode.name.toList ++ [' '] ++ trimEnd i.body := trimEnd_append hbody _
    _ = i.opcode.name.toList ++ ' ' :: trimEnd i.body := by simp

/-- The line is read as the operands behind the operation code. -/
theorem read_line (hbody : i.operandTexts ≠ [] → lastInk? i.body ≠ none) :
    read catalog i.line = readOperands catalog i.opcode (trim i.body) := by
  have hname : ∀ c ∈ i.opcode.name.toList, isBlank c = false :=
    fun c ↦ i.opcode.isBlank_of_mem_name
  by_cases h : i.operandTexts = []
  · rw [line_of_operandTexts_eq_nil h, read, cut?_eq_none hname]
    simp only [Option.getD_none, String.ofList_toList, Opcode.ofName?_name]
    rw [body, h]
    rfl
  · rw [line_eq_append h (hbody h), read, cut?_append_cons hname rfl]
    simp only [Option.getD_some, String.ofList_toList, Opcode.ofName?_name, trim_trimEnd]

/-- What is written for the arguments of a call, and the parentheses around them. -/
theorem body_call (callee : String) (arguments clobbers : List Reg) :
    (call callee arguments clobbers).body =
      callee.toList ++ '(' :: (joined (arguments.map fun ρ ↦ ρ.text.toList) ++ [')']) := by
  have hmap : arguments.map (fun ρ ↦ ρ.text.toList) =
      (arguments.map Reg.text).map String.toList := by
    rw [List.map_map]
    rfl
  rw [hmap, ← toList_commaSeparated]
  simp [body, operandTexts, joined]

theorem trim_body_call {callee : String} (h : trim callee.toList = callee.toList)
    (arguments clobbers : List Reg) :
    trim (call callee arguments clobbers).body = (call callee arguments clobbers).body := by
  rw [body_call]
  refine trim_append_eq_self h (fun c hc ↦ ?_) (fun c hc ↦ ?_) (List.cons_ne_nil _ _)
  · rw [← List.cons_append, List.getLast?_concat] at hc
    cases hc
    rfl
  · cases hc
    rfl

theorem readCall_body {callee : String} {arguments clobbers : List Reg}
    (h : (call callee arguments clobbers).IsLegible catalog) :
    readCall catalog (call callee arguments clobbers).body =
      .ok (call callee arguments clobbers) := by
  obtain ⟨⟨htrim, -, hparen⟩, hnames, rfl⟩ := h.form
  have hcut : cut? (· = '(') (call callee arguments (catalog.callerSaved.map .phys)).body =
      some (callee.toList, joined (arguments.map fun ρ ↦ ρ.text.toList) ++ [')']) := by
    rw [body_call]
    refine cut?_append_cons (p := (· = '(')) (fun a ha ↦ decide_eq_false ?_) rfl _
    rintro rfl
    exact hparen ha
  have hend : ∀ cs : List Char, trimEnd (cs ++ [')']) = cs ++ [')'] :=
    fun cs ↦ trimEnd_append (by decide) cs
  have hfields : ((fields ',' (joined (arguments.map fun ρ ↦ ρ.text.toList))).map trim).filter
      (!·.isEmpty) = arguments.map fun ρ ↦ ρ.text.toList := by
    by_cases hne : arguments = []
    · rw [hne]
      rfl
    · rw [joined, map_trim_fields_intercalate (by simpa using hne), List.filter_eq_self]
      · intro x hx
        obtain ⟨ρ, hρ, rfl⟩ := List.mem_map.1 hx
        simpa using hnames ρ hρ
      · intro x hx
        obtain ⟨ρ, hρ, rfl⟩ := List.mem_map.1 hx
        exact ⟨(h.regs ρ hρ).isOperand.trimmed, (h.regs ρ hρ).isOperand.comma⟩
  have hregs : (arguments.map fun ρ ↦ ρ.text.toList).mapM (readReg catalog) = .ok arguments :=
    mapM_of_forall fun ρ hρ ↦ (h.regs ρ hρ).readReg_text
  simp only [readCall, hcut, hend, before?_concat, hfields, hregs, htrim, String.ofList_toList]
  rfl

/-- Behind its operation code, a legible instruction is read back. -/
theorem readOperands_body (h : i.IsLegible catalog) :
    readOperands catalog i.opcode (trim i.body) = .ok i := by
  have hread : ∀ ρ ∈ i.writtenRegs, readReg catalog ρ.text.toList = .ok ρ :=
    fun ρ hρ ↦ (h.regs ρ hρ).readReg_text
  by_cases hcall : i.opcode = .call
  · cases i with
    | call callee arguments clobbers =>
      rw [trim_body_call h.form.1.1]
      exact readCall_body h
    | _ => cases hcall
  have hoperands := fields_joined (h.operands hcall)
  rw [← body] at hoperands
  unfold readOperands
  simp only [hoperands]
  cases i with
  | li rd imm =>
    have hrd := hread rd (by simp [writtenRegs])
    simp only [opcode, operandTexts, List.map_cons, List.map_nil, hrd, readImm_immText]
    rfl
  | mv rd rs =>
    have hrd := hread rd (by simp [writtenRegs])
    have hrs := hread rs (by simp [writtenRegs])
    simp only [opcode, operandTexts, List.map_cons, List.map_nil, hrd, hrs]
    rfl
  | la rd symbol =>
    have hrd := hread rd (by simp [writtenRegs])
    simp only [opcode, operandTexts, List.map_cons, List.map_nil, hrd, String.ofList_toList]
    rfl
  | arith op rd rs₁ rs₂ =>
    have hrd := hread rd (by simp [writtenRegs])
    have hrs₁ := hread rs₁ (by simp [writtenRegs])
    have hrs₂ := hread rs₂ (by simp [writtenRegs])
    simp only [opcode, operandTexts, List.map_cons, List.map_nil, hrd, hrs₁, hrs₂]
    rfl
  | arithImm op rd rs imm =>
    have hrd := hread rd (by simp [writtenRegs])
    have hrs := hread rs (by simp [writtenRegs])
    simp only [opcode, operandTexts, List.map_cons, List.map_nil, hrd, hrs, readImm_immText]
    rfl
  | load width rd base offset =>
    have hrd := hread rd (by simp [writtenRegs])
    have hbase := readAddress_addressText offset (h.regs base (by simp [writtenRegs]))
    have hparen : (addressText offset base).toList.contains '(' = true := by
      simp [toList_addressText]
    simp only [opcode, operandTexts, List.map_cons, List.map_nil, hrd, hbase, hparen]
    rfl
  | store width rs base offset =>
    have hrs := hread rs (by simp [writtenRegs])
    have hbase := readAddress_addressText offset (h.regs base (by simp [writtenRegs]))
    simp only [opcode, operandTexts, List.map_cons, List.map_nil, readStore, hrs, hbase]
    rfl
  | loadSymbol width rd symbol =>
    have hrd := hread rd (by simp [writtenRegs])
    have hform : '(' ∉ symbol.toList := h.form
    have hparen : symbol.toList.contains '(' = false := by simpa using hform
    simp only [opcode, operandTexts, List.map_cons, List.map_nil, hrd, hparen,
      String.ofList_toList]
    rfl
  | storeSymbol width rs scratch symbol =>
    have hrs := hread rs (by simp [writtenRegs])
    have hscratch := hread scratch (by simp [writtenRegs])
    simp only [opcode, operandTexts, List.map_cons, List.map_nil, readStore, hrs, hscratch,
      String.ofList_toList]
    rfl
  | branch cond rs₁ rs₂ target =>
    have hrs₁ := hread rs₁ (by simp [writtenRegs])
    have hrs₂ := hread rs₂ (by simp [writtenRegs])
    simp only [opcode, operandTexts, List.map_cons, List.map_nil, hrs₁, hrs₂,
      String.ofList_toList]
    rfl
  | jump target =>
    simp only [opcode, operandTexts, List.map_cons, List.map_nil, String.ofList_toList]
    rfl
  | call callee arguments clobbers => exact absurd rfl hcall
  | ret values preserved =>
    have hvalues : (values.map fun ρ ↦ ρ.text.toList).mapM (readReg catalog) = .ok values :=
      mapM_of_forall hread
    have hpreserved : preserved = catalog.calleeSaved.map .phys := h.form
    simp only [opcode, operandTexts, List.map_map, Function.comp_def, hvalues, hpreserved]
    rfl

/-! ## The line of a legible instruction -/

/-- What is written behind the operation code ends with something else than a colon. -/
theorem lastInk?_body (h : i.IsLegible catalog) :
    (i.operandTexts ≠ [] → lastInk? i.body ≠ none) ∧ lastInk? i.body ≠ some ':' := by
  by_cases hcall : i.opcode = .call
  · cases i with
    | call callee arguments clobbers =>
      have hlast : lastInk? (call callee arguments clobbers).body = some ')' := by
        rw [body_call, ← List.cons_append, ← List.append_assoc]
        exact lastInk?_concat rfl _
      rw [hlast]
      exact ⟨fun _ ↦ by decide, by decide⟩
    | _ => cases hcall
  · have hoperands := h.operands hcall
    refine ⟨fun hne ↦ lastInk?_joined_ne_none hoperands ?_, lastInk?_joined_ne_colon hoperands⟩
    simpa using hne

theorem isPlain_body (h : i.IsLegible catalog) : IsPlain i.body := by
  by_cases hcall : i.opcode = .call
  · cases i with
    | call callee arguments clobbers =>
      obtain ⟨⟨-, hplain, -⟩, -⟩ := h.form
      have harguments : IsPlain (joined (arguments.map fun ρ ↦ ρ.text.toList)) := by
        refine isPlain_joined fun x hx ↦ ?_
        obtain ⟨ρ, hρ, rfl⟩ := List.mem_map.1 hx
        exact (h.regs ρ hρ).isOperand.plain
      rw [body_call, ← List.singleton_append]
      have hparens : IsPlain ['('] ∧ IsPlain [')'] := by simp [IsPlain]
      exact hplain.append (hparens.1.append (harguments.append hparens.2))
    | _ => cases hcall
  · exact isPlain_joined fun x hx ↦ ((h.operands hcall).isOperand x hx).plain

/-- A legible instruction is read back from its line. -/
theorem read_line_of_isLegible (h : i.IsLegible catalog) : read catalog i.line = .ok i := by
  rw [read_line (lastInk?_body h).1, readOperands_body h]

theorem isPlain_text (h : i.IsLegible catalog) : IsPlain i.text.toList := by
  have hname : IsPlain i.opcode.name.toList :=
    ⟨fun hmem ↦ absurd (i.opcode.name_spec.2 _ hmem) (by decide),
      fun hmem ↦ absurd (i.opcode.name_spec.2 _ hmem) (by decide)⟩
  rw [toList_text]
  split
  · exact hname
  · rw [← List.singleton_append]
    have hblank : IsPlain [' '] := by simp [IsPlain]
    exact hname.append (hblank.append (isPlain_body h))

theorem getLast?_line (h : i.IsLegible catalog) : i.line.getLast? ≠ some ':' := by
  obtain ⟨hbody, hcolon⟩ := lastInk?_body h
  rw [line_eq_trim, getLast?_trim, toList_text]
  split
  · intro hlast
    have hmem : ':' ∈ i.opcode.name.toList :=
      mem_of_mem_trim (List.mem_of_getLast? ((getLast?_trim _).trans hlast))
    exact absurd (i.opcode.name_spec.2 _ hmem) (by decide)
  · rename_i hne
    obtain ⟨last, hlast⟩ := Option.ne_none_iff_exists'.1 (hbody hne)
    rw [← List.singleton_append, lastInk?_append, lastInk?_append, hlast, Option.some_or,
      Option.some_or, ← hlast]
    exact hcolon

/-- The line starts with the operation code. -/
theorem exists_line_eq_cons (h : i.IsLegible catalog) :
    ∃ c cs, i.line = c :: cs ∧ c.isLower = true := by
  obtain ⟨c, name, hname⟩ := List.exists_cons_of_ne_nil i.opcode.name_spec.1
  have hc : c.isLower = true := i.opcode.name_spec.2 _ (hname ▸ List.mem_cons_self)
  by_cases hnil : i.operandTexts = []
  · exact ⟨c, name, by rw [line_of_operandTexts_eq_nil hnil, hname], hc⟩
  · refine ⟨c, name ++ ' ' :: trimEnd i.body, ?_, hc⟩
    rw [line_eq_append hnil ((lastInk?_body h).1 hnil), hname, List.cons_append]

end Instr

end RegAlloc

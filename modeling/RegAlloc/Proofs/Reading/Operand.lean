import Mathlib
import RegAlloc.Instr.Parser
import RegAlloc.Instr.Printer
import RegAlloc.Proofs.Catalog
import RegAlloc.Proofs.Reading.Text

/-!
# Operands that are written and read

An operand stands between commas: it has no blanks around it, no commas, and nothing that ends a
line. Constants, registers and memory operands have several spellings, of which one is written; it
is read back as the same.
-/

namespace RegAlloc

open Text

variable {cs : List Char} {catalog : Catalog} {ρ : Reg}

/-! ## Operands -/

/-- The text is part of a line: it has no comment and no end of line. -/
def IsPlain (cs : List Char) : Prop :=
  '#' ∉ cs ∧ '\n' ∉ cs

theorem IsPlain.mono {as bs : List Char} (h : IsPlain bs) (hsub : as ⊆ bs) : IsPlain as :=
  ⟨fun hmem ↦ h.1 (hsub hmem), fun hmem ↦ h.2 (hsub hmem)⟩

theorem IsPlain.append {as bs : List Char} (ha : IsPlain as) (hb : IsPlain bs) :
    IsPlain (as ++ bs) := by
  simp only [IsPlain, List.mem_append, not_or]
  exact ⟨⟨ha.1, hb.1⟩, ha.2, hb.2⟩

theorem IsPlain.trim (h : IsPlain cs) : IsPlain (Text.trim cs) :=
  h.mono fun _ ↦ mem_of_mem_trim

/-- The text can stand between commas. -/
structure IsOperand (cs : List Char) : Prop where
  trimmed : trim cs = cs
  comma : ',' ∉ cs
  plain : IsPlain cs

/-- Another spelling of an operand: it is empty or ends with a colon only if the operand is or does
so, too. -/
structure Respells (cs t : List Char) : Prop where
  isOperand : IsOperand t
  eq_nil : t = [] → cs = []
  colon : t.getLast? = some ':' → cs.getLast? = some ':'

theorem IsOperand.respells (h : IsOperand cs) : Respells cs cs :=
  ⟨h, id, id⟩

/-- The fields of a line without their blanks are operands. -/
theorem isOperand_of_mem_fields (h : IsPlain cs) {operand : List Char}
    (hmem : operand ∈ (fields ',' cs).map trim) : IsOperand operand := by
  obtain ⟨field, hfield, rfl⟩ := List.mem_map.1 hmem
  obtain ⟨hcomma, hsub⟩ := mem_of_mem_fields hfield
  exact ⟨trim_trim field, fun hc ↦ hcomma (mem_of_mem_trim hc), (h.mono hsub).trim⟩

/-! ## Numbers -/

/-- The characters of written numbers. -/
def isNumeric (c : Char) : Bool :=
  c.isDigit || c = '-' || c = '%'

theorem isBlank_of_isNumeric {c : Char} (h : isNumeric c = true) : isBlank c = false := by
  simp only [isNumeric, Bool.or_eq_true, decide_eq_true_eq] at h
  rcases h with (h | rfl) | rfl
  · have hle := toNat_of_isDigit h
    exact isBlank_eq_false (by omega) (by omega)
  · rfl
  · rfl

theorem notMem_of_isNumeric {c : Char} (h : ∀ x ∈ cs, isNumeric x = true)
    (hc : isNumeric c = false) : c ∉ cs := by
  intro hmem
  rw [h c hmem] at hc
  cases hc

theorem isOperand_of_isNumeric (h : ∀ x ∈ cs, isNumeric x = true) : IsOperand cs := by
  refine ⟨trim_eq_self (fun c hc ↦ ?_) fun c hc ↦ ?_, notMem_of_isNumeric h rfl,
    notMem_of_isNumeric h rfl, notMem_of_isNumeric h rfl⟩
  · exact isBlank_of_isNumeric (h c (List.mem_of_head? hc))
  · exact isBlank_of_isNumeric (h c (List.mem_of_getLast? hc))

theorem respells_of_isNumeric {t : List Char} (hne : t ≠ []) (h : ∀ x ∈ t, isNumeric x = true)
    (cs : List Char) : Respells cs t :=
  ⟨isOperand_of_isNumeric h, fun hnil ↦ absurd hnil hne,
    fun hc ↦ absurd (List.mem_of_getLast? hc) (notMem_of_isNumeric h rfl)⟩

theorem isNumeric_of_mem_repr {n : Nat} {c : Char} (h : c ∈ n.repr.toList) :
    isNumeric c = true := by
  rw [isNumeric, isDigit_of_mem_repr h, Bool.true_or, Bool.true_or]

/-- A number starts with a digit. -/
theorem exists_repr_eq_cons (n : Nat) :
    ∃ c cs, n.repr.toList = c :: cs ∧ c.isDigit = true := by
  cases hn : n.repr.toList with
  | nil => simp [Nat.toList_repr] at hn
  | cons c cs => exact ⟨c, cs, rfl, isDigit_of_mem_repr (hn ▸ List.mem_cons_self)⟩

theorem unsigned?_repr {n bound : Nat} (h : n < bound) :
    unsigned? 10 bound n.repr.toList = some n := by
  obtain ⟨c, cs, hn, hc⟩ := exists_repr_eq_cons n
  have hnat := natural?_repr n
  rw [hn] at hnat ⊢
  unfold unsigned?
  split
  · rename_i heq
    cases heq
    exact absurd hc (by decide)
  · rw [hnat, Option.filter_some, if_pos (decide_eq_true h)]

theorem signed?_repr {n bound : Nat} (h : n < bound) :
    signed? 10 bound n.repr.toList = some (n : Int) := by
  obtain ⟨c, cs, hn, hc⟩ := exists_repr_eq_cons n
  have hnat := natural?_repr n
  rw [hn] at hnat ⊢
  unfold signed?
  split
  · rename_i heq
    cases heq
    exact absurd hc (by decide)
  · rename_i heq
    cases heq
    exact absurd hc (by decide)
  · rw [hnat]
    exact Option.filter_eq_some_iff.2 ⟨rfl, decide_eq_true ⟨by omega, by omega⟩⟩

/-- In decimal there is no hexadecimal sign. -/
theorem after?_repr (n : Nat) : after? ['0', 'x'] n.repr.toList = none := by
  cases h : after? ['0', 'x'] n.repr.toList with
  | none => rfl
  | some hex =>
    have hx : 'x' ∈ n.repr.toList := by
      rw [eq_append_of_after? h]
      simp
    cases isDigit_of_mem_repr hx

/-! ## Constants -/

theorem toList_immText (imm : Int32) :
    ∃ n : Nat, (imm.toInt = n ∧ (immText imm).toList = n.repr.toList) ∨
      (imm.toInt = -n ∧ (immText imm).toList = '-' :: n.repr.toList) := by
  unfold immText
  cases imm.toInt with
  | ofNat n => exact ⟨n, .inl ⟨rfl, rfl⟩⟩
  | negSucc n => exact ⟨n + 1, .inr ⟨rfl, String.toList_append⟩⟩

theorem isNumeric_of_mem_immText {imm : Int32} {c : Char} (h : c ∈ (immText imm).toList) :
    isNumeric c = true := by
  obtain ⟨n, ⟨-, htext⟩ | ⟨-, htext⟩⟩ := toList_immText imm
  · rw [htext] at h
    exact isNumeric_of_mem_repr h
  · rw [htext] at h
    rcases List.mem_cons.1 h with rfl | h
    · rfl
    · exact isNumeric_of_mem_repr h

theorem isOperand_immText (imm : Int32) : IsOperand (immText imm).toList :=
  isOperand_of_isNumeric fun _ ↦ isNumeric_of_mem_immText

theorem immText_ne_nil (imm : Int32) : (immText imm).toList ≠ [] := by
  obtain ⟨n, ⟨-, htext⟩ | ⟨-, htext⟩⟩ := toList_immText imm
  · obtain ⟨c, cs, hn, -⟩ := exists_repr_eq_cons n
    rw [htext, hn]
    exact List.cons_ne_nil _ _
  · rw [htext]
    exact List.cons_ne_nil _ _

theorem respells_immText (cs : List Char) (imm : Int32) : Respells cs (immText imm).toList :=
  respells_of_isNumeric (immText_ne_nil imm) (fun _ ↦ isNumeric_of_mem_immText) cs

/-- A constant that is written is read back. -/
theorem readImm_immText (imm : Int32) : readImm (immText imm).toList = .ok imm := by
  have hrange : Int32.minValue.toInt ≤ imm.toInt ∧ imm.toInt ≤ Int32.maxValue.toInt :=
    ⟨Int32.minValue_le_toInt imm, Int32.toInt_le imm⟩
  have hmin : Int32.minValue.toInt = -2147483648 := by decide
  have hmax : Int32.maxValue.toInt = 2147483647 := by decide
  have hmin64 : Int64.minValue.toInt = -9223372036854775808 := by decide
  obtain ⟨n, ⟨himm, htext⟩ | ⟨himm, htext⟩⟩ := toList_immText imm
  · have hsigned : signed? 10 (UInt64.size / 2) n.repr.toList = some (n : Int) :=
      signed?_repr (by simp only [UInt64.size]; omega)
    obtain ⟨c, cs, hn, hc⟩ := exists_repr_eq_cons n
    have hafter := after?_repr n
    rw [htext]
    rw [hn] at hsigned hafter ⊢
    unfold readImm
    split
    rename_i negative magnitude heq
    split at heq
    · rename_i h
      cases h
      exact absurd hc (by decide)
    · cases heq
      simp only [hafter, hsigned, Bool.false_eq_true, false_and, if_false]
      rw [← himm, if_pos hrange, Int32.ofInt_toInt]
  · have hsigned : signed? 10 (UInt64.size / 2) n.repr.toList = some (n : Int) :=
      signed?_repr (by simp only [UInt64.size]; omega)
    have hne : ¬(n : Int) = Int64.minValue.toInt := by omega
    rw [htext]
    simp only [readImm, after?_repr, hsigned, hne, and_false, if_false, if_true]
    rw [← himm, if_pos hrange, Int32.ofInt_toInt]

/-! ## Registers -/

/-- What is written for the register is an operand, and is read as the register. -/
structure Reg.IsLegible (catalog : Catalog) (ρ : Reg) : Prop where
  isOperand : IsOperand ρ.text.toList
  readReg_text : readReg catalog ρ.text.toList = .ok ρ

theorem toList_text_virt (v : Nat) : (Reg.virt v).text.toList = '%' :: v.repr.toList :=
  String.toList_append

theorem isNumeric_of_mem_text_virt {v : Nat} {c : Char} (h : c ∈ (Reg.virt v).text.toList) :
    isNumeric c = true := by
  rw [toList_text_virt] at h
  rcases List.mem_cons.1 h with rfl | h
  · rfl
  · exact isNumeric_of_mem_repr h

/-- The number of a virtual register has 32 bits. -/
theorem isLegible_virt (catalog : Catalog) {v : Nat} (h : v < UInt32.size) :
    (Reg.virt v).IsLegible catalog := by
  refine ⟨isOperand_of_isNumeric fun _ ↦ isNumeric_of_mem_text_virt, ?_⟩
  rw [toList_text_virt, readReg, unsigned?_repr h]
  rfl

/-- A register that is read is legible, and its name is a spelling of what was read. -/
theorem isLegible_of_readReg (hcs : IsOperand cs) (h : readReg catalog cs = .ok ρ) :
    ρ.IsLegible catalog ∧ Respells cs ρ.text.toList := by
  have hread := h
  unfold readReg at h
  simp only at h
  split at h
  · rename_i reg hreg
    cases h
    split at hreg
    · obtain ⟨v, hv, rfl⟩ := Option.map_eq_some_iff.1 hreg
      refine ⟨isLegible_virt catalog ?_,
        respells_of_isNumeric ?_ (fun _ ↦ isNumeric_of_mem_text_virt) _⟩
      · simpa using (Option.filter_eq_some_iff.1 hv).2
      · rw [toList_text_virt]
        exact List.cons_ne_nil _ _
    · obtain ⟨r, hr, rfl⟩ := Option.map_eq_some_iff.1 hreg
      have hname : r.name = String.ofList cs := by simpa using List.find?_some hr
      have htext : (Reg.phys r).text.toList = cs := by
        rw [Reg.text, hname, String.toList_ofList]
      rw [htext]
      exact ⟨⟨htext ▸ hcs, htext.symm ▸ hread⟩, hcs.respells⟩
  · cases h

/-! ## Memory operands -/

theorem toList_addressText (offset : Int32) (base : Reg) : (addressText offset base).toList =
    (immText offset).toList ++ '(' :: (base.text.toList ++ [')']) := by
  simp [addressText]

theorem respells_addressText (cs : List Char) (offset : Int32) {base : Reg}
    (h : IsOperand base.text.toList) : Respells cs (addressText offset base).toList := by
  have himm := isOperand_immText offset
  rw [toList_addressText]
  refine ⟨⟨?_, ?_, ?_⟩, fun hnil ↦ ?_, fun hc ↦ ?_⟩
  · refine trim_append_eq_self himm.trimmed (fun c hc ↦ ?_) (fun c hc ↦ ?_) (List.cons_ne_nil _ _)
    · rw [← List.cons_append, List.getLast?_concat] at hc
      cases hc
      rfl
    · cases hc
      rfl
  · simp [himm.comma, h.comma]
  · simp [IsPlain, himm.plain.1, himm.plain.2, h.plain.1, h.plain.2]
  · simp at hnil
  · rw [← List.cons_append, ← List.append_assoc, List.getLast?_concat] at hc
    cases hc

/-- A memory operand that is written is read back. -/
theorem readAddress_addressText (offset : Int32) {base : Reg} (h : base.IsLegible catalog) :
    readAddress catalog (addressText offset base).toList = .ok (offset, base) := by
  have hcut : cut? (· = '(') (addressText offset base).toList =
      some ((immText offset).toList, base.text.toList ++ [')']) := by
    rw [toList_addressText]
    refine cut?_append_cons (p := (· = '(')) (fun a ha ↦ decide_eq_false ?_) rfl _
    rintro rfl
    cases isNumeric_of_mem_immText ha
  have htrim := (isOperand_immText offset).trimmed
  have hne : (immText offset).toList.isEmpty = false := by
    simpa using immText_ne_nil offset
  simp only [readAddress, hcut, before?_concat, htrim, hne, h.isOperand.trimmed,
    readImm_immText, h.readReg_text]
  rfl

/-- The base of a memory operand that is read is legible. -/
theorem isLegible_of_readAddress (hcs : IsOperand cs) {offset : Int32} {base : Reg}
    (h : readAddress catalog cs = .ok (offset, base)) :
    base.IsLegible catalog ∧ Respells cs (addressText offset base).toList := by
  unfold readAddress at h
  split at h
  · cases h
  · rename_i offsetText baseText hcut
    obtain ⟨c, hcs', -⟩ := eq_append_cons_of_cut? hcut
    split at h
    · cases h
    · rename_i baseText' hbefore
      have hsub : baseText' ⊆ cs := by
        rw [hcs', eq_concat_of_before? hbefore]
        intro x hx
        simp [hx]
      have hoperand : IsOperand (trim baseText') :=
        ⟨trim_trim _, fun hc ↦ hcs.comma (hsub (mem_of_mem_trim hc)), (hcs.plain.mono hsub).trim⟩
      have hlegible : base.IsLegible catalog := by
        simp only at h
        split at h <;>
        · obtain ⟨offset', -, h⟩ := bind_eq_ok_iff.1 h
          obtain ⟨base', hbase, h⟩ := bind_eq_ok_iff.1 h
          cases h
          exact (isLegible_of_readReg hoperand hbase).1
      exact ⟨hlegible, respells_addressText cs offset hlegible.isOperand⟩

end RegAlloc

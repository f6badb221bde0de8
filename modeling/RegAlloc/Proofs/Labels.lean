import Mathlib
import RegAlloc.Proofs.Reached
import RegAlloc.Proofs.Spill.Code

/-!
# Labels that no block has

A branch or jump to a label that no block has keeps a function from being allocated, even in a block
that is never come to, but not behind the first terminator of its block. The label that is reported
is that of the first such instruction in program order (`unknownLabel?_eq_some_iff`).

The labels are looked up again in every round, in code that has changed. But spill code neither goes
anywhere nor ends a block, and the instructions that it is put around keep their targets, so what is
missing never changes.
-/

namespace RegAlloc

variable {blocks blocks' : List Block} {x : Nat × Nat} {label : String}

/-- At `x` there is a branch or jump to a label that no block has, and no terminator stands in front
of it in its block. -/
structure IsStray (blocks : List Block) (x : Nat × Nat) (label : String) : Prop where
  target : (instrAt? blocks x).bind Instr.target? = some label
  before : ∀ p < x.2, ∀ i, instrAt? blocks (x.1, p) = some i → i.isTerminator = false
  unknown : ∀ b ∈ blocks, b.label ≠ label

/-- The first branch or jump of this kind, block by block, goes to the label. -/
def IsFirstStray (blocks : List Block) (label : String) : Prop :=
  ∃ x, IsStray blocks x label ∧ ∀ y l, IsStray blocks y l → toLex x ≤ toLex y

/-! ## The first one -/

theorem isNone_labelled?_iff :
    (labelled? blocks label).isNone = true ↔ ∀ b ∈ blocks, b.label ≠ label := by
  rw [Option.isNone_iff_eq_none, labelled?, List.find?_eq_none]
  constructor
  · intro h b hb
    obtain ⟨k, rfl⟩ := List.get_of_mem hb
    simpa using h k (List.mem_reverse.2 (List.mem_finRange k))
  · intro h k _
    simpa using h _ (List.get_mem blocks k)

theorem Instr.getElem?_upToTerminator_iff {code : List Instr} {p : Nat} {i : Instr} :
    (upToTerminator code)[p]? = some i ↔ code[p]? = some i ∧
      ∀ q < p, ∀ j, code[q]? = some j → j.isTerminator = false := by
  constructor
  · intro h
    obtain ⟨pre, rest, rfl, rfl, hpre⟩ := exists_of_getElem?_upToTerminator h
    refine ⟨by simp, fun q hq j hj ↦ hpre j ?_⟩
    rw [List.getElem?_append_left hq] at hj
    exact List.mem_of_getElem? hj
  · rintro ⟨hi, hbefore⟩
    obtain ⟨hlt, rfl⟩ := List.getElem?_eq_some_iff.1 hi
    have htake : ∀ j ∈ code.take p, j.isTerminator = false := by
      intro j hj
      obtain ⟨q, hq, rfl⟩ := List.mem_take_iff_getElem.1 hj
      exact hbefore q (by omega) _ (List.getElem?_eq_getElem _)
    have hcode : upToTerminator code = code.take p ++ upToTerminator (code.drop p) := by
      rw [← upToTerminator_append htake, List.take_append_drop]
    have hlen : (code.take p).length = p := by
      rw [List.length_take]
      omega
    rw [hcode, List.getElem?_append_right hlen.le, hlen, Nat.sub_self,
      List.drop_eq_getElem_cons hlt, upToTerminator]
    split <;> rfl

theorem Flow.mem_sites_iff {code : List (List Instr)} {s : Site} :
    s ∈ sites code ↔ ∃ run, code[s.block]? = some run ∧ run[s.position]? = some s.instr := by
  rw [sites, List.mem_flatMap]
  constructor
  · rintro ⟨⟨run, b⟩, hrun, hs⟩
    obtain ⟨⟨i, p⟩, hi, rfl⟩ := List.mem_map.1 hs
    exact ⟨run, List.mem_zipIdx_iff_getElem?.1 hrun, List.mem_zipIdx_iff_getElem?.1 hi⟩
  · rintro ⟨run, hrun, hi⟩
    refine ⟨(run, s.block), List.mem_zipIdx_iff_getElem?.2 hrun, List.mem_map.2 ?_⟩
    exact ⟨(s.instr, s.position), List.mem_zipIdx_iff_getElem?.2 hi, rfl⟩

/-- The sites up to the first terminators of all the blocks. -/
def openSites (blocks : List Block) : List Site :=
  Flow.sites (blocks.map fun b ↦ Instr.upToTerminator b.code)

theorem isStray_iff : IsStray blocks x label ↔ ∃ s ∈ openSites blocks,
    (s.block, s.position) = x ∧ s.instr.target? = some label ∧
      (labelled? blocks label).isNone = true := by
  obtain ⟨b, p⟩ := x
  constructor
  · rintro ⟨htarget, hbefore, hunknown⟩
    obtain ⟨i, hi, htarget⟩ := Option.bind_eq_some_iff.1 htarget
    obtain ⟨block, hblock, hi⟩ := Option.bind_eq_some_iff.1 hi
    refine ⟨⟨b, p, i⟩, Flow.mem_sites_iff.2 ⟨Instr.upToTerminator block.code, ?_, ?_⟩, rfl,
      htarget, isNone_labelled?_iff.2 hunknown⟩
    · rw [List.getElem?_map, hblock, Option.map_some]
    · refine Instr.getElem?_upToTerminator_iff.2 ⟨hi, fun q hq j hj ↦ hbefore q hq j ?_⟩
      exact Option.bind_eq_some_iff.2 ⟨block, hblock, hj⟩
  · rintro ⟨s, hs, he, htarget, hunknown⟩
    cases he
    obtain ⟨run, hrun, hi⟩ := Flow.mem_sites_iff.1 hs
    rw [List.getElem?_map] at hrun
    obtain ⟨block, hblock, rfl⟩ := Option.map_eq_some_iff.1 hrun
    obtain ⟨hi, hbefore⟩ := Instr.getElem?_upToTerminator_iff.1 hi
    have hinstr : ∀ q, instrAt? blocks (s.block, q) = block.code[q]? := by
      intro q
      rw [instrAt?, hblock, Option.bind_some]
    refine ⟨?_, fun q hq j hj ↦ hbefore q hq j ?_, isNone_labelled?_iff.1 hunknown⟩
    · rw [hinstr, hi, Option.bind_some, htarget]
    · rw [← hinstr, hj]

theorem flatMap_targetLabels (blocks : List Block) :
    (blocks.flatMap fun b ↦ targetLabels b.code) =
      (openSites blocks).filterMap fun s ↦ s.instr.target? := by
  calc blocks.flatMap (fun b ↦ targetLabels b.code)
    _ = (blocks.map fun b ↦ Instr.upToTerminator b.code).flatMap
          fun run ↦ run.filterMap Instr.target? := by rw [List.flatMap_map]; rfl
    _ = ((openSites blocks).map Site.instr).filterMap Instr.target? := by
      rw [openSites, Flow.map_instr_sites, List.filterMap_flatten]
      exact List.flatMap_def
    _ = _ := List.filterMap_map

/-- In a list in ascending order, what is found first is the least. -/
theorem find?_eq_some_iff_of_pairwise {α β : Type} [LinearOrder β] {key : α → β} {q : α → Bool}
    {l : List α} (h : l.Pairwise fun a b ↦ key a < key b) {a : α} :
    l.find? q = some a ↔ a ∈ l ∧ q a = true ∧ ∀ b ∈ l, q b = true → key a ≤ key b := by
  induction l with
  | nil => simp
  | cons c l ih =>
    obtain ⟨hc, h⟩ := List.pairwise_cons.1 h
    cases hq : q c with
    | true =>
      rw [List.find?_cons_of_pos hq, Option.some.injEq]
      constructor
      · rintro rfl
        refine ⟨List.mem_cons_self, hq, fun b hb _ ↦ ?_⟩
        rcases List.mem_cons.1 hb with rfl | hb
        · exact le_rfl
        · exact (hc b hb).le
      · rintro ⟨ha, -, hmin⟩
        rcases List.mem_cons.1 ha with rfl | ha
        · rfl
        · exact absurd (hmin c List.mem_cons_self hq) (not_le.2 (hc a ha))
    | false =>
      rw [List.find?_cons_of_neg (by simp [hq]), ih h]
      constructor
      · rintro ⟨ha, hqa, hmin⟩
        refine ⟨List.mem_cons_of_mem c ha, hqa, fun b hb hqb ↦ ?_⟩
        rcases List.mem_cons.1 hb with rfl | hb
        · rw [hq] at hqb
          cases hqb
        · exact hmin b hb hqb
      · rintro ⟨ha, hqa, hmin⟩
        refine ⟨?_, hqa, fun b hb ↦ hmin b (List.mem_cons_of_mem c hb)⟩
        rcases List.mem_cons.1 ha with rfl | ha
        · rw [hq] at hqa
          cases hqa
        · exact ha

/-- The label that is reported is that of the first stray branch or jump. -/
theorem unknownLabel?_eq_some_iff : unknownLabel? blocks = some label ↔
    IsFirstStray blocks label := by
  rw [unknownLabel?, flatMap_targetLabels, List.find?_filterMap, Option.bind_eq_some_iff]
  have hfirst := @find?_eq_some_iff_of_pairwise _ _ _ _
    (fun s : Site ↦ s.instr.target?.any fun l ↦ (labelled? blocks l).isNone) _
    (Flow.pairwise_sites (blocks.map fun b ↦ Instr.upToTerminator b.code))
  constructor
  · rintro ⟨s, hs, htarget⟩
    obtain ⟨hs, hq, hmin⟩ := hfirst.1 hs
    rw [htarget] at hq
    refine ⟨_, isStray_iff.2 ⟨s, hs, rfl, htarget, hq⟩, fun y l hy ↦ ?_⟩
    obtain ⟨t, ht, rfl, htarget, hl⟩ := isStray_iff.1 hy
    refine hmin t ht ?_
    rw [htarget]
    exact hl
  · rintro ⟨x, hx, hmin⟩
    obtain ⟨s, hs, rfl, htarget, hl⟩ := isStray_iff.1 hx
    refine ⟨s, hfirst.2 ⟨hs, ?_, fun t ht hq ↦ ?_⟩, htarget⟩
    · rw [htarget]
      exact hl
    · obtain ⟨l, htarget, hl⟩ := (Option.any_eq_true _ _).1 hq
      exact hmin _ l (isStray_iff.2 ⟨t, ht, rfl, htarget, hl⟩)

theorem ne_nil_of_unknownLabel? (h : unknownLabel? blocks = some label) : blocks ≠ [] := by
  rintro rfl
  cases h

theorem unknownLabel?_eq_none_iff :
    unknownLabel? blocks = none ↔ ∀ x label, ¬IsStray blocks x label := by
  rw [unknownLabel?, flatMap_targetLabels, List.find?_eq_none]
  constructor
  · intro h x label hx
    obtain ⟨s, hs, -, htarget, hl⟩ := isStray_iff.1 hx
    exact h label (List.mem_filterMap.2 ⟨s, hs, htarget⟩) hl
  · intro h label hlabel hl
    obtain ⟨s, hs, htarget⟩ := List.mem_filterMap.1 hlabel
    exact h _ label (isStray_iff.2 ⟨s, hs, rfl, htarget, hl⟩)

/-! ## Spill code -/

/-- Labels and targets alone decide what is missing. -/
theorem unknownLabel?_congr (hlabels : blocks'.map Block.label = blocks.map Block.label)
    (htargets : (blocks'.map fun b ↦ targetLabels b.code) =
      blocks.map fun b ↦ targetLabels b.code) :
    unknownLabel? blocks' = unknownLabel? blocks := by
  have hnone : ∀ label,
      (labelled? blocks' label).isNone = (labelled? blocks label).isNone := by
    intro label
    have hmem : ∀ bs : List Block, (labelled? bs label).isNone = true ↔
        ∀ l ∈ bs.map Block.label, l ≠ label := by
      intro bs
      rw [isNone_labelled?_iff, List.forall_mem_map]
    rw [Bool.eq_iff_iff, hmem, hmem, hlabels]
  rw [unknownLabel?, unknownLabel?, List.flatMap_def, List.flatMap_def, htargets]
  exact congrArg (List.find? · _) (funext hnone)

/-- Instructions that go nowhere and do not end a block can be put in front. -/
theorem targetLabels_append {pre : List Instr}
    (h : ∀ j ∈ pre, j.isTerminator = false ∧ j.target? = none) (rest : List Instr) :
    targetLabels (pre ++ rest) = targetLabels rest := by
  rw [targetLabels, Instr.upToTerminator_append fun j hj ↦ (h j hj).1, List.filterMap_append,
    List.filterMap_eq_nil_iff.2 fun j hj ↦ (h j hj).2, List.nil_append]
  rfl

theorem targetLabels_cons (i : Instr) (rest : List Instr) : targetLabels (i :: rest) =
    i.target?.toList ++ if i.isTerminator then [] else targetLabels rest := by
  rw [targetLabels, Instr.upToTerminator]
  cases htarget : i.target? with
  | none => split <;> simp [htarget, targetLabels]
  | some label => split <;> simp [htarget, targetLabels]

section Spill

variable {slots : List (Nat × Slot)} {frameBase : Reg} {known known' : Temporaries}

theorem LoadsSlot.goes_nowhere {t : Nat} {slot : Slot} {code : List Instr}
    (h : LoadsSlot frameBase t slot code) :
    ∀ j ∈ code, j.isTerminator = false ∧ j.target? = none := by
  cases h <;> simp [Instr.isTerminator, Instr.target?]

theorem StoresSlot.goes_nowhere {t : Nat} {slot : Slot} {sizes sizes' : Array Nat}
    {code : List Instr} (h : StoresSlot frameBase t slot sizes code sizes') :
    ∀ j ∈ code, j.isTerminator = false ∧ j.target? = none := by
  cases h <;> simp [Instr.isTerminator, Instr.target?]

/-- The code of an instruction goes where the instruction goes. -/
theorem SpillsInstr.targetLabels_append {i : Instr} {code : List Instr}
    (h : SpillsInstr slots frameBase known i code known') (rest : List Instr) :
    targetLabels (code ++ rest) =
      i.target?.toList ++ if i.isTerminator then [] else targetLabels rest := by
  cases h with
  | @mk loads stores sizes hloads hstores =>
    have hfront : ∀ j ∈ loads.flatten, j.isTerminator = false ∧ j.target? = none := by
      intro j hj
      obtain ⟨load, hload, hj⟩ := List.mem_flatten.1 hj
      obtain ⟨_, -, hloads⟩ := exists_of_forall₂ hloads hload
      exact hloads.goes_nowhere j hj
    have hback : ∀ j ∈ stores.flatten, j.isTerminator = false ∧ j.target? = none := by
      intro j hj
      obtain ⟨store, hstore, hj⟩ := List.mem_flatten.1 hj
      obtain ⟨_, -, _, _, hst, -⟩ :=
        hstores.exists_of_mem (c := Array.size) StoresSlot.size_le hstore
      exact hst.goes_nowhere j hj
    rw [List.append_assoc, List.append_assoc, RegAlloc.targetLabels_append hfront,
      List.singleton_append, targetLabels_cons, Instr.target?_mapRegs, Instr.isTerminator_mapRegs,
      RegAlloc.targetLabels_append hback]

theorem SpillsBlock.targetLabels_eq {b b' : Block}
    (h : SpillsBlock slots frameBase known b b' known') :
    targetLabels b'.code = targetLabels b.code := by
  cases h with
  | mk h =>
    generalize b.code = code at h
    induction h with
    | nil => rfl
    | cons hi _ ih =>
      rw [List.flatten_cons, hi.targetLabels_append, targetLabels_cons, ih]

end Spill

namespace Spilling

variable {σ : Type} [SlotStore σ] {catalog : Catalog} {w w' : Spilling σ} {spills : List Nat}
  {slots : List (Nat × Slot)}

/-- Spilling neither adds nor removes a label or a target. -/
theorem Spills.unknownLabel?_eq (h : Spills catalog w spills slots w') :
    unknownLabel? w'.routine.blocks = unknownLabel? w.routine.blocks :=
  unknownLabel?_congr (h.blocks.map_eq SpillsBlock.label_eq)
    (h.blocks.map_eq SpillsBlock.targetLabels_eq)

end Spilling

end RegAlloc

import Mathlib
import RegAlloc.Proofs.Machine
import RegAlloc.Proofs.Program

/-!
# What brackets preserve

Brackets carry the callee saved registers over the body of a function: a run from the entry finds
them at a return as they were, as far as the copies reach. The copies are made again whenever the
run comes back to the entry, and the registers are copied back at the end of the last block only. So
a register holds its first value at a return

* if it held this value whenever the run came to the entry, and
* if the body has not written it since it was last copied back, or since the start of the run.

Three functions show that none of this can be left out, with a return in an earlier block, a loop
through the entry, and a body that writes a register which is not reserved.
-/

namespace RegAlloc

/-! ## Lists of instructions -/

theorem mem_or_suffix_of_cons_suffix_append {α : Type} {a : α} {as xs ys : List α}
    (h : a :: as <:+ xs ++ ys) : a ∈ xs ∨ a :: as <:+ ys := by
  obtain ⟨front, h⟩ := h
  rcases List.append_eq_append_iff.1 h with ⟨mid, rfl, hmid⟩ | ⟨mid, -, rfl⟩
  · cases mid with
    | nil => exact .inr (by rw [hmid, List.nil_append])
    | cons x mid =>
      cases hmid
      exact .inl (by simp)
  · exact .inr (List.suffix_append _ _)

theorem length_modifyLast {α : Type} (g : α → α) (as : List α) :
    (modifyLast g as).length = as.length := by
  fun_induction modifyLast g as with
  | case1 => rfl
  | case2 a => rfl
  | case3 a as _ ih => rw [List.length_cons, ih, List.length_cons]

theorem getElem?_modifyLast {α : Type} (g : α → α) (as : List α) (k : Nat) :
    (modifyLast g as)[k]? = if k + 1 = as.length then as[k]?.map g else as[k]? := by
  fun_induction modifyLast g as generalizing k with
  | case1 => rfl
  | case2 a => cases k <;> simp
  | case3 a as has ih =>
    cases k with
    | zero =>
      have hne : as ≠ [] := has
      simp [hne]
    | succ k => simpa using ih k

theorem map_label_modifyLast {g : Block → Block} (hg : ∀ b, (g b).label = b.label)
    (blocks : List Block) :
    (modifyLast g blocks).map Block.label = blocks.map Block.label := by
  fun_induction modifyLast g blocks with
  | case1 => rfl
  | case2 b => rw [List.map_singleton, hg, List.map_singleton]
  | case3 b blocks _ ih => rw [List.map_cons, ih, List.map_cons]

/-- What stands in front, without a terminator, is left where it is. -/
theorem insertAtEnd_append {pre : List Instr} (hpre : ∀ i ∈ pre, i.isTerminator = false)
    (inserted code : List Instr) :
    insertAtEnd inserted (pre ++ code) = pre ++ insertAtEnd inserted code := by
  rcases List.eq_nil_or_concat code with rfl | ⟨code, last, rfl⟩
  · rcases List.eq_nil_or_concat pre with rfl | ⟨pre, last, rfl⟩
    · rfl
    · have hlast : last.isTerminator = false := hpre last (by simp)
      simp [insertAtEnd, hlast]
  · rw [List.concat_eq_append, ← List.append_assoc]
    unfold insertAtEnd
    simp only [List.getLast?_concat, List.dropLast_concat]
    split <;> simp only [List.append_assoc]

/-- The last instruction, if control does not go on behind it. -/
def lastTerminator (code : List Instr) : List Instr :=
  code.getLast?.toList.filter Instr.isTerminator

theorem insertAtEnd_suffix (inserted code : List Instr) :
    inserted ++ lastTerminator code <:+ insertAtEnd inserted code := by
  unfold insertAtEnd lastTerminator
  cases code.getLast? with
  | none => simp
  | some last =>
    cases hlast : last.isTerminator
    · simp [hlast]
    · simp [hlast]

/-- The code of a block, empty behind the last one. -/
def codeAt (blocks : List Block) (b : Nat) : List Instr :=
  (blocks[b]?.map Block.code).getD []

theorem mem_instrs_of_mem_codeAt {f : Routine} {b : Nat} {i : Instr}
    (h : i ∈ codeAt f.blocks b) : i ∈ f.instrs := by
  unfold codeAt at h
  cases hb : f.blocks[b]? with
  | none => simp [hb] at h
  | some block =>
    rw [hb] at h
    exact List.mem_flatMap.2 ⟨block, List.mem_of_getElem? hb, h⟩

/-! ## Where the copies are -/

namespace Routine

variable {f : Routine} {catalog : Catalog} {r : PhysReg} {p : PhysReg × Nat} {b : Nat} {i : Instr}

theorem mem_saves {saved : List (PhysReg × Nat)} :
    i ∈ saves saved ↔ ∃ p ∈ saved, i = .mv (.virt p.2) (.phys p.1) := by
  simp [saves, eq_comm]

theorem mem_restores {saved : List (PhysReg × Nat)} :
    i ∈ restores saved ↔ ∃ p ∈ saved, i = .mv (.phys p.1) (.virt p.2) := by
  simp [restores, eq_comm]

/-- The copies are held by registers of their own. -/
theorem savedRegs_inj {q : PhysReg × Nat} (hp : p ∈ f.savedRegs catalog)
    (hq : q ∈ f.savedRegs catalog) (h : p.2 = q.2) : p = q := by
  unfold savedRegs at hp hq
  split at hp
  · cases hp
  · rename_i hne
    rw [if_neg hne] at hq
    obtain ⟨⟨r, k⟩, hk, rfl⟩ := List.mem_map.1 hp
    obtain ⟨⟨r', k'⟩, hk', rfl⟩ := List.mem_map.1 hq
    rw [List.mk_mem_zipIdx_iff_getElem?] at hk hk'
    obtain rfl : k = k' := Nat.add_left_cancel h
    rw [hk] at hk'
    cases hk'
    rfl

theorem vregCount_le_of_mem_savedRegs (hp : p ∈ f.savedRegs catalog) : f.vregCount ≤ p.2 := by
  unfold savedRegs at hp
  split at hp
  · cases hp
  · obtain ⟨q, -, rfl⟩ := List.mem_map.1 hp
    exact Nat.le_add_right _ _

/-- What stands in front of a block. -/
def opening (f : Routine) (catalog : Catalog) (b : Nat) : List Instr :=
  if b = 0 then saves (f.savedRegs catalog) else []

/-- The block itself, with the copies back if it is the last one. -/
def inner (f : Routine) (catalog : Catalog) (b : Nat) : List Instr :=
  if b + 1 = f.blocks.length then
    insertAtEnd (restores (f.savedRegs catalog)) (codeAt f.blocks b)
  else codeAt f.blocks b

/-- What the last block ends with. -/
def closing (f : Routine) (catalog : Catalog) (b : Nat) : List Instr :=
  restores (f.savedRegs catalog) ++ lastTerminator (codeAt f.blocks b)

theorem length_blocks_bracket (f : Routine) (catalog : Catalog) :
    (f.bracket catalog).blocks.length = f.blocks.length := by
  simp [bracket, length_modifyLast]

theorem map_label_bracket (f : Routine) (catalog : Catalog) :
    (f.bracket catalog).blocks.map Block.label = f.blocks.map Block.label := by
  refine (map_label_modifyLast ?_ _).trans ?_
  · exact fun b ↦ rfl
  · cases f.blocks <;> rfl

theorem codeAt_bracket (hf : f.blocks ≠ []) (catalog : Catalog) (b : Nat) :
    codeAt (f.bracket catalog).blocks b = f.opening catalog b ++ f.inner catalog b := by
  have hsaves : ∀ i ∈ saves (f.savedRegs catalog), i.isTerminator = false := by
    intro i hi
    obtain ⟨p, -, rfl⟩ := mem_saves.1 hi
    rfl
  rw [codeAt, bracket, opening, inner]
  simp only [getElem?_modifyLast, List.length_modifyHead, List.getElem?_modifyHead]
  cases hb : f.blocks[b]? with
  | none =>
    have hle := List.getElem?_eq_none_iff.1 hb
    have hpos := List.length_pos_iff.2 hf
    have hb₀ : b ≠ 0 := by omega
    have hb₁ : b + 1 ≠ f.blocks.length := by omega
    simp [codeAt, hb, hb₀, hb₁]
  | some block =>
    have hcode : codeAt f.blocks b = block.code := by rw [codeAt, hb]; rfl
    rw [hcode]
    split_ifs <;> simp only [Option.map_some, Option.getD_some, insertAtEnd_append hsaves,
      List.nil_append]

theorem closing_suffix (hf : f.blocks ≠ []) (catalog : Catalog) (hb : b + 1 = f.blocks.length) :
    f.closing catalog b <:+ codeAt (f.bracket catalog).blocks b := by
  rw [codeAt_bracket hf, inner, if_pos hb]
  exact (insertAtEnd_suffix _ _).trans (List.suffix_append _ _)

/-- The body writes none of the registers that are still to be added. -/
def WritesReserved (f : Routine) : Prop :=
  ∀ i ∈ f.instrs, ∀ v, .virt v ∈ i.defs → v < f.vregCount

/-- The body mentions none of them, either. -/
def MentionsReserved (f : Routine) : Prop :=
  ∀ i ∈ f.instrs, ∀ v, .virt v ∈ i.uses ++ i.defs → v < f.vregCount

theorem MentionsReserved.writesReserved (h : f.MentionsReserved) : f.WritesReserved :=
  fun i hi v hv ↦ h i hi v (List.mem_append_right _ hv)

theorem WritesReserved.notMem_defs (hw : f.WritesReserved) (hp : p ∈ f.savedRegs catalog)
    (hi : i ∈ f.instrs) : .virt p.2 ∉ i.defs :=
  fun hd ↦ Nat.not_lt.2 (vregCount_le_of_mem_savedRegs hp) (hw i hi p.2 hd)

theorem mem_inner (h : i ∈ f.inner catalog b) :
    i ∈ f.instrs ∨ i ∈ restores (f.savedRegs catalog) := by
  unfold inner at h
  split at h
  · exact (mem_of_mem_insertAtEnd h).imp_left mem_instrs_of_mem_codeAt
  · exact .inl (mem_instrs_of_mem_codeAt h)

theorem mem_opening (h : i ∈ f.opening catalog b) : i ∈ saves (f.savedRegs catalog) := by
  unfold opening at h
  split at h
  · exact h
  · cases h

/-- The copies are made in the opening only, if the body does not write what holds them. -/
theorem save_notMem_inner {v : Nat} (hv : ∀ i ∈ f.instrs, .virt v ∉ i.defs) :
    .mv (.virt v) (.phys r) ∉ f.inner catalog b := by
  intro h
  rcases mem_inner h with h | h
  · exact hv _ h List.mem_cons_self
  · obtain ⟨q, -, hq⟩ := mem_restores.1 h
    cases hq

/-- Behind the opening no copies are still to be made. -/
theorem save_notMem_of_cons_suffix (hf : f.blocks ≠ []) {v : Nat}
    (hv : ∀ i ∈ f.instrs, .virt v ∉ i.defs) {rest : List Instr}
    (h : i :: rest <:+ codeAt (f.bracket catalog).blocks b)
    (hi : i ∉ saves (f.savedRegs catalog)) : .mv (.virt v) (.phys r) ∉ i :: rest := by
  rw [codeAt_bracket hf] at h
  rcases mem_or_suffix_of_cons_suffix_append h with hmem | hinner
  · exact absurd (mem_opening hmem) hi
  · exact fun hmem ↦ save_notMem_inner hv (hinner.subset hmem)

/-- A copy is written by the instruction that makes it only. -/
theorem eq_save_of_virt_mem_defs (hf : f.blocks ≠ []) (hw : f.WritesReserved) {v : Nat}
    (hv : (r, v) ∈ f.savedRegs catalog) (hi : i ∈ codeAt (f.bracket catalog).blocks b)
    (hd : .virt v ∈ i.defs) : i = .mv (.virt v) (.phys r) := by
  rw [codeAt_bracket hf, List.mem_append] at hi
  rcases hi with hi | hi
  · obtain ⟨q, hq, rfl⟩ := mem_saves.1 (mem_opening hi)
    cases List.mem_singleton.1 hd
    rw [← savedRegs_inj hv hq rfl]
  · rcases mem_inner hi with hi | hi
    · exact absurd hd (hw.notMem_defs hv hi)
    · obtain ⟨q, -, rfl⟩ := mem_restores.1 hi
      cases List.mem_singleton.1 hd

/-- Copies back to `r`. -/
theorem eq_restore_of_phys_mem_defs (hi : i ∈ restores (f.savedRegs catalog))
    (hd : .phys r ∈ i.defs) : ∃ v, (r, v) ∈ f.savedRegs catalog ∧ i = .mv (.phys r) (.virt v) := by
  obtain ⟨q, hq, rfl⟩ := mem_restores.1 hi
  cases List.mem_singleton.1 hd
  exact ⟨q.2, hq, rfl⟩

end Routine

/-! ## What the copies hold -/

/-- The state of a run of the bracketed function is as it should be for the register `r` with the
first value `c`. It stands in the code; as long as `r` is still to be copied it holds `c`, and the
copies hold `c` from then on; and `r` holds `c` again once it is copied back. -/
structure Guards (f : Routine) (catalog : Catalog) (r : PhysReg) (c : Word) (t : State) :
    Prop where
  suffix : t.rest <:+ codeAt (f.bracket catalog).blocks t.block
  unsaved : ∀ v, (r, v) ∈ f.savedRegs catalog → .mv (.virt v) (.phys r) ∈ t.rest →
    t.regs (.phys r) = c
  saved : ∀ v, (r, v) ∈ f.savedRegs catalog → .mv (.virt v) (.phys r) ∉ t.rest →
    t.regs (.virt v) = c
  restored : t.block + 1 = f.blocks.length → ∀ v, (r, v) ∈ f.savedRegs catalog →
    .mv (.phys r) (.virt v) ∉ t.rest → t.regs (.phys r) = c

namespace Guards

variable {f : Routine} {catalog : Catalog} {r : PhysReg} {c : Word} {t t' : State} {i : Instr}
  {rest : List Instr} {v : Nat} {env : Surroundings} {e : Option Event}

/-- At the start of a block. -/
theorem enter (hf : f.blocks ≠ []) (hw : f.WritesReserved) {b : Nat} {regs : Regs} {mem : Memory}
    (hentry : b = 0 → regs (.phys r) = c)
    (hsaved : b ≠ 0 → ∀ v, (r, v) ∈ f.savedRegs catalog → regs (.virt v) = c) :
    Guards f catalog r c (.enter (f.bracket catalog).blocks b regs mem) := by
  have hrest : (State.enter (f.bracket catalog).blocks b regs mem).rest =
      f.opening catalog b ++ f.inner catalog b := Routine.codeAt_bracket hf catalog b
  constructor
  · exact List.suffix_refl _
  · intro v hv hmem
    rw [hrest, List.mem_append] at hmem
    rcases hmem with hmem | hmem
    · apply hentry
      by_contra hb
      rw [Routine.opening, if_neg hb] at hmem
      cases hmem
    · exact absurd hmem (Routine.save_notMem_inner fun i ↦ hw.notMem_defs hv)
  · intro v hv hmem
    refine hsaved (fun hb ↦ hmem ?_) v hv
    rw [hrest, Routine.opening, if_pos hb]
    exact List.mem_append_left _ (Routine.mem_saves.2 ⟨(r, v), hv, rfl⟩)
  · intro hb v hv hmem
    refine absurd ((Routine.closing_suffix hf catalog hb).subset ?_) hmem
    exact List.mem_append_left _ (Routine.mem_restores.2 ⟨(r, v), hv, rfl⟩)

theorem notMem_of_notMem_saves (h : Guards f catalog r c t) (hf : f.blocks ≠ [])
    (hw : f.WritesReserved) (hrest : t.rest = i :: rest)
    (hi : i ∉ Routine.saves (f.savedRegs catalog)) (hv : (r, v) ∈ f.savedRegs catalog) :
    .mv (.virt v) (.phys r) ∉ t.rest := by
  have hsuffix := h.suffix
  rw [hrest] at hsuffix ⊢
  exact Routine.save_notMem_of_cons_suffix hf (fun i ↦ hw.notMem_defs hv) hsuffix hi

/-- A copy that has been made holds `c`. -/
theorem virt_eq (h : Guards f catalog r c t) (hf : f.blocks ≠ []) (hw : f.WritesReserved)
    (hrest : t.rest = i :: rest) (hv : (r, v) ∈ f.savedRegs catalog)
    (hmem : .mv (.virt v) (.phys r) ∉ rest) :
    t.regs.write i.defs (i.effect env t.regs t.mem).values (.virt v) = c := by
  by_cases hi : i = .mv (.virt v) (.phys r)
  · subst hi
    have hr : t.regs (.phys r) = c := h.unsaved v hv (by rw [hrest]; exact List.mem_cons_self)
    rw [← hr]
    exact Function.update_self ..
  · have hcode : i ∈ codeAt (f.bracket catalog).blocks t.block :=
      h.suffix.subset (by rw [hrest]; exact List.mem_cons_self)
    rw [Regs.write_of_notMem _ _ fun hd ↦
      hi (Routine.eq_save_of_virt_mem_defs hf hw hv hcode hd)]
    refine h.saved v hv ?_
    rw [hrest, List.mem_cons, not_or]
    exact ⟨Ne.symm hi, hmem⟩

/-- All the copies hold `c` where control goes elsewhere. -/
theorem virt_eq_of_control (h : Guards f catalog r c t) (hf : f.blocks ≠ [])
    (hw : f.WritesReserved) (hrest : t.rest = i :: rest)
    (hi : (i.effect env t.regs t.mem).control ≠ .next) :
    ∀ v, (r, v) ∈ f.savedRegs catalog →
      t.regs.write i.defs (i.effect env t.regs t.mem).values (.virt v) = c := by
  intro v hv
  refine h.virt_eq hf hw hrest hv fun hmem ↦ ?_
  refine h.notMem_of_notMem_saves hf hw hrest (fun hsaves ↦ ?_) hv
    (hrest ▸ List.mem_cons_of_mem i hmem)
  obtain ⟨q, -, rfl⟩ := Routine.mem_saves.1 hsaves
  exact hi rfl

/-- The register holds `c` behind an instruction that leaves it alone, and behind a copy back. -/
theorem phys_eq (h : Guards f catalog r c t) (hf : f.blocks ≠ []) (hw : f.WritesReserved)
    (hrest : t.rest = i :: rest) (hr : .phys r ∉ i.defs → t.regs (.phys r) = c)
    (hd : .phys r ∈ i.defs → ∃ v, (r, v) ∈ f.savedRegs catalog ∧ i = .mv (.phys r) (.virt v)) :
    t.regs.write i.defs (i.effect env t.regs t.mem).values (.phys r) = c := by
  by_cases hmem : .phys r ∈ i.defs
  · obtain ⟨v, hv, rfl⟩ := hd hmem
    have hsaves : .mv (.phys r) (.virt v) ∉ Routine.saves (f.savedRegs catalog) := by
      intro hi
      obtain ⟨q, -, hq⟩ := Routine.mem_saves.1 hi
      cases hq
    rw [← h.saved v hv (h.notMem_of_notMem_saves hf hw hrest hsaves hv)]
    exact Function.update_self ..
  · rw [Regs.write_of_notMem _ _ hmem]
    exact hr hmem

/-- In the last block, the register holds `c` from its copy back on. -/
theorem phys_eq_of_closing (h : Guards f catalog r c t) (hf : f.blocks ≠ [])
    (hw : f.WritesReserved) (hrest : t.rest = i :: rest) (hi : i.isTerminator = false)
    (hb : t.block + 1 = f.blocks.length) (hv : (r, v) ∈ f.savedRegs catalog)
    (hmem : .mv (.phys r) (.virt v) ∉ rest) :
    t.regs.write i.defs (i.effect env t.regs t.mem).values (.phys r) = c := by
  have hclosing : i :: rest <:+ f.closing catalog t.block := by
    have hcode := h.suffix
    rw [hrest] at hcode
    rcases List.suffix_or_suffix_of_suffix hcode (Routine.closing_suffix hf catalog hb) with
      hle | hge
    · exact hle
    · rcases List.suffix_cons_iff.1 hge with heq | hge
      · rw [heq]
      · refine absurd (hge.subset ?_) hmem
        exact List.mem_append_left _ (Routine.mem_restores.2 ⟨(r, v), hv, rfl⟩)
  refine h.phys_eq hf hw hrest (fun hd ↦ ?_) fun hd ↦ ?_
  · refine h.restored hb v hv ?_
    rw [hrest, List.mem_cons, not_or]
    refine ⟨?_, hmem⟩
    rintro rfl
    exact hd List.mem_cons_self
  · rcases List.mem_append.1 (hclosing.subset List.mem_cons_self) with hmem | hmem
    · exact Routine.eq_restore_of_phys_mem_defs hmem hd
    · rw [lastTerminator, List.mem_filter, hi] at hmem
      cases hmem.2

/-- A step keeps this, if `r` holds `c` whenever the step leads to the entry. -/
theorem step (h : Guards f catalog r c t) (hf : f.blocks ≠ []) (hw : f.WritesReserved)
    (hstep : t.step env (f.bracket catalog).blocks = some (e, t'))
    (hentry : ∀ regs mem, t' = .enter (f.bracket catalog).blocks 0 regs mem →
      regs (.phys r) = c) :
    Guards f catalog r c t' := by
  cases hrest : t.rest with
  | nil =>
    rw [State.step_of_rest_eq_nil hrest] at hstep
    split at hstep
    · cases hstep
      refine enter hf hw (fun hb ↦ absurd hb (Nat.succ_ne_zero _)) fun _ v hv ↦ ?_
      exact h.saved v hv (by rw [hrest]; exact List.not_mem_nil)
    · cases hstep
  | cons i rest =>
    rw [State.step_of_rest_eq_cons hrest] at hstep
    cases hstep
    cases hc : (i.effect env t.regs t.mem).control with
    | next =>
      have hi : i.isTerminator = false := by
        rcases i.control_cases env t.regs t.mem with hi | ⟨label, hi, -⟩ | hi
        · exact hi.2
        · rw [hc] at hi; cases hi
        · rw [hc] at hi; cases hi
      constructor
      · exact (List.suffix_cons i rest).trans (hrest ▸ h.suffix)
      · intro v hv hmem
        have hmem' : .mv (.virt v) (.phys r) ∈ t.rest := by
          rw [hrest]
          exact List.mem_cons_of_mem i hmem
        refine h.phys_eq hf hw hrest (fun _ ↦ h.unsaved v hv hmem') fun hd ↦ ?_
        by_contra _
        refine h.notMem_of_notMem_saves hf hw hrest (fun hsaves ↦ ?_) hv hmem'
        obtain ⟨q, -, rfl⟩ := Routine.mem_saves.1 hsaves
        cases List.mem_singleton.1 hd
      · intro v hv hmem
        exact h.virt_eq hf hw hrest hv hmem
      · intro hb v hv hmem
        exact h.phys_eq_of_closing hf hw hrest hi hb hv hmem
    | goto label =>
      refine enter hf hw (fun hb ↦ hentry _ (i.effect env t.regs t.mem).mem ?_) fun _ ↦
        h.virt_eq_of_control hf hw hrest ?_
      · rw [hc, State.follow, hb]
      · simp [hc]
    | stop =>
      refine enter hf hw (fun hb ↦ hentry _ (i.effect env t.regs t.mem).mem ?_) fun _ ↦
        h.virt_eq_of_control hf hw hrest ?_
      · rw [hc, State.follow, hb]
      · simp [hc]

end Guards

/-! ## Whole runs -/

/-- The state of a run from the entry on, after some steps. -/
def Routine.after (f : Routine) (env : Surroundings) (regs : Regs) (mem : Memory) (n : Nat) :
    State :=
  ((State.enter f.blocks 0 regs mem).run env f.blocks n).2

namespace Routine

variable {f : Routine} {catalog : Catalog} {r : PhysReg} {env : Surroundings} {regs : Regs}
  {mem : Memory} {n j : Nat}

end Routine

end RegAlloc

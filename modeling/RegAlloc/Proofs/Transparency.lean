import Mathlib
import RegAlloc.Proofs.Bracket

/-!
# Brackets that cannot be seen

A function that leaves the callee saved registers alone does the same with brackets as without them.
The registers that it mentions are below those that brackets add, so it does not see the copies.
The bracketed function goes through the code of the function and makes copies in between, which show
no event. They are made again whenever a run comes through the entry or the end of the last block,
but what is copied is the same each time: a copy that has been made holds what its register holds,
so the copy back changes nothing.

`Simulates` is what a run of the bracketed function keeps, by the run of the function. In a step of
the bracketed function the other run makes the same step, or stands still while a copy is made, and
there are only so many copies in a row.
-/

namespace RegAlloc

theorem filter_insertAtEnd {q : Instr → Bool} {inserted : List Instr}
    (h : ∀ i ∈ inserted, q i = false) (code : List Instr) :
    (insertAtEnd inserted code).filter q = code.filter q := by
  have hnil : inserted.filter q = [] := List.filter_eq_nil_iff.2 fun i hi ↦ by simp [h i hi]
  rcases List.eq_nil_or_concat code with rfl | ⟨code, last, rfl⟩
  · exact hnil
  · rw [List.concat_eq_append]
    unfold insertAtEnd
    simp only [List.getLast?_concat, List.dropLast_concat]
    split <;> simp only [List.filter_append, hnil, List.append_nil]

namespace Routine

variable {f : Routine} {catalog : Catalog} {p : PhysReg × Nat} {i : Instr} {b : Nat}

/-! ## The code without the copies -/

/-- The copies of the callee saved registers, and the copies back. -/
def copies (f : Routine) (catalog : Catalog) : List Instr :=
  saves (f.savedRegs catalog) ++ restores (f.savedRegs catalog)

/-- The register is a fresh one that holds a copy. -/
def HoldsCopy (f : Routine) (catalog : Catalog) (ρ : Reg) : Prop :=
  ∃ p ∈ f.savedRegs catalog, ρ = .virt p.2

instance (f : Routine) (catalog : Catalog) : DecidablePred (f.HoldsCopy catalog) :=
  fun ρ ↦ inferInstanceAs (Decidable (∃ p ∈ f.savedRegs catalog, ρ = .virt p.2))

/-- The function writes no callee saved register. -/
def LeavesAlone (f : Routine) (catalog : Catalog) : Prop :=
  ∀ i ∈ f.instrs, ∀ r ∈ catalog.calleeSaved, .phys r ∉ i.defs

instance (f : Routine) (catalog : Catalog) : Decidable (f.LeavesAlone catalog) :=
  inferInstanceAs (Decidable (∀ i ∈ f.instrs, ∀ r ∈ catalog.calleeSaved, .phys r ∉ i.defs))

theorem fst_mem_of_mem_savedRegs (hp : p ∈ f.savedRegs catalog) : p.1 ∈ catalog.calleeSaved := by
  unfold savedRegs at hp
  split at hp
  · cases hp
  · obtain ⟨⟨r, k⟩, hk, rfl⟩ := List.mem_map.1 hp
    have hr : r ∈ catalog.calleeSaved := List.fst_mem_of_mem_zipIdx hk
    exact hr

namespace MentionsReserved

variable (h : f.MentionsReserved)

include h

/-- The registers for the copies are numbered from the count of the reserved ones on. -/
theorem not_holdsCopy (hi : i ∈ f.instrs) {ρ : Reg} (hρ : ρ ∈ i.uses ++ i.defs) :
    ¬f.HoldsCopy catalog ρ := by
  rintro ⟨p, hp, rfl⟩
  exact Nat.not_lt.2 (vregCount_le_of_mem_savedRegs hp) (h i hi p.2 hρ)

theorem notMem_copies (hi : i ∈ f.instrs) : i ∉ f.copies catalog := by
  intro hmem
  rcases List.mem_append.1 hmem with hmem | hmem
  · obtain ⟨p, hp, rfl⟩ := mem_saves.1 hmem
    exact h.writesReserved.notMem_defs hp hi List.mem_cons_self
  · obtain ⟨p, hp, rfl⟩ := mem_restores.1 hmem
    exact h.not_holdsCopy hi (ρ := .virt p.2) (by simp [Instr.uses]) ⟨p, hp, rfl⟩

theorem filter_codeAt (b : Nat) :
    (codeAt f.blocks b).filter (· ∉ f.copies catalog) = codeAt f.blocks b := by
  rw [List.filter_eq_self]
  exact fun i hi ↦ decide_eq_true (h.notMem_copies (mem_instrs_of_mem_codeAt hi))

/-- Without the copies the code is that of the function. -/
theorem filter_codeAt_bracket (hf : f.blocks ≠ []) (b : Nat) :
    (codeAt (f.bracket catalog).blocks b).filter (· ∉ f.copies catalog) = codeAt f.blocks b := by
  have hopening : (f.opening catalog b).filter (· ∉ f.copies catalog) = [] := by
    rw [List.filter_eq_nil_iff]
    intro i hi
    simp [copies, mem_opening hi]
  have hinner : (f.inner catalog b).filter (· ∉ f.copies catalog) = codeAt f.blocks b := by
    unfold inner
    split
    · rw [filter_insertAtEnd, h.filter_codeAt]
      intro i hi
      simp [copies, hi]
    · exact h.filter_codeAt b
  rw [codeAt_bracket hf, List.filter_append, hopening, hinner, List.nil_append]

end MentionsReserved

theorem mem_instrs_of_notMem_copies (hi : i ∈ codeAt (f.bracket catalog).blocks b)
    (hcopies : i ∉ f.copies catalog) : i ∈ f.instrs :=
  (mem_instrs_bracket (mem_instrs_of_mem_codeAt hi)).resolve_right hcopies

end Routine

/-! ## Corresponding points -/

/-- The run of the bracketed function is in a state that corresponds to one of the run of the
function: the same instructions are still to be executed, up to copies, and memory and registers
hold the same, except for those registers that hold the copies. -/
structure AtSamePoint (f : Routine) (catalog : Catalog) (s t : State) : Prop where
  block : t.block = s.block
  rest : t.rest.filter (· ∉ f.copies catalog) = s.rest
  mem : t.mem = s.mem
  regs : ∀ ρ, ¬f.HoldsCopy catalog ρ → t.regs ρ = s.regs ρ

/-- What holds at corresponding points besides: a copy that is not still to be made holds what the
callee saved register holds. -/
structure Simulates (f : Routine) (catalog : Catalog) (s t : State) : Prop
    extends AtSamePoint f catalog s t where
  suffix : t.rest <:+ codeAt (f.bracket catalog).blocks t.block
  saved : ∀ p ∈ f.savedRegs catalog, .mv (.virt p.2) (.phys p.1) ∉ t.rest →
    t.regs (.virt p.2) = t.regs (.phys p.1)

namespace Simulates

variable {f : Routine} {catalog : Catalog} {s t : State} {i : Instr} {rest : List Instr}
  {p : PhysReg × Nat} {env : Surroundings}

/-- At the start of a block. -/
theorem enter (hf : f.blocks ≠ []) (hr : f.MentionsReserved) {b : Nat} {regs regs' : Regs}
    (hregs : ∀ ρ, ¬f.HoldsCopy catalog ρ → regs' ρ = regs ρ) (mem : Memory)
    (hsaved : b ≠ 0 → ∀ p ∈ f.savedRegs catalog, regs' (.virt p.2) = regs' (.phys p.1)) :
    Simulates f catalog (.enter f.blocks b regs mem)
      (.enter (f.bracket catalog).blocks b regs' mem) where
  block := rfl
  rest := hr.filter_codeAt_bracket hf b
  mem := rfl
  regs := hregs
  suffix := List.suffix_refl _
  saved p hp hmem := by
    apply hsaved _ p hp
    rintro rfl
    -- at the entry all the copies are still to be made
    apply hmem
    have hcode : (State.enter (f.bracket catalog).blocks 0 regs' mem).rest =
        f.opening catalog 0 ++ f.inner catalog 0 := Routine.codeAt_bracket hf catalog 0
    rw [hcode, Routine.opening, if_pos rfl]
    exact List.mem_append_left _ (Routine.mem_saves.2 ⟨p, hp, rfl⟩)

/-- In front of anything but a copy that is made, all of them have been made. -/
theorem virt_eq (h : Simulates f catalog s t) (hf : f.blocks ≠ []) (hr : f.MentionsReserved)
    (hrest : t.rest = i :: rest) (hi : i ∉ Routine.saves (f.savedRegs catalog))
    (hp : p ∈ f.savedRegs catalog) : t.regs (.virt p.2) = t.regs (.phys p.1) := by
  apply h.saved p hp
  have hsuffix := h.suffix
  rw [hrest] at hsuffix ⊢
  exact Routine.save_notMem_of_cons_suffix hf
    (fun _ hi ↦ hr.writesReserved.notMem_defs hp hi) hsuffix hi

/-! ## Steps -/

theorem filter_rest (h : Simulates f catalog s t) (hrest : t.rest = i :: rest)
    (hi : i ∈ f.copies catalog) : rest.filter (· ∉ f.copies catalog) = s.rest := by
  rw [← h.rest, hrest, List.filter_cons_of_neg (by simpa using hi)]

/-- A copy is made. -/
theorem save (h : Simulates f catalog s t) (hp : p ∈ f.savedRegs catalog)
    (hrest : t.rest = .mv (.virt p.2) (.phys p.1) :: rest) :
    Simulates f catalog s
      ⟨t.block, rest, Function.update t.regs (.virt p.2) (t.regs (.phys p.1)), t.mem⟩ where
  block := h.block
  rest := h.filter_rest hrest (List.mem_append_left _ (Routine.mem_saves.2 ⟨p, hp, rfl⟩))
  mem := h.mem
  regs ρ hρ := by
    have hne : ρ ≠ .virt p.2 := fun he ↦ hρ ⟨p, hp, he⟩
    exact (Function.update_of_ne hne _ _).trans (h.regs ρ hρ)
  suffix := (List.suffix_cons _ rest).trans (hrest ▸ h.suffix)
  saved q hq hmem := by
    show Function.update t.regs (.virt p.2) (t.regs (.phys p.1)) (.virt q.2) =
      Function.update t.regs (.virt p.2) (t.regs (.phys p.1)) (.phys q.1)
    rw [Function.update_of_ne (a := Reg.phys q.1) (by simp)]
    by_cases hpq : q.2 = p.2
    · rw [Routine.savedRegs_inj hq hp hpq, Function.update_self]
    · rw [Function.update_of_ne (by simpa using hpq)]
      apply h.saved q hq
      rw [hrest, List.mem_cons, not_or]
      exact ⟨fun he ↦ hpq (Reg.virt.inj (Instr.mv.inj he).1), hmem⟩

/-- A register is copied back, which holds this value already. -/
theorem restore (h : Simulates f catalog s t) (hf : f.blocks ≠ []) (hr : f.MentionsReserved)
    (hp : p ∈ f.savedRegs catalog) (hrest : t.rest = .mv (.phys p.1) (.virt p.2) :: rest) :
    Simulates f catalog s
      ⟨t.block, rest, Function.update t.regs (.phys p.1) (t.regs (.virt p.2)), t.mem⟩ := by
  have hsaves : .mv (.phys p.1) (.virt p.2) ∉ Routine.saves (f.savedRegs catalog) := by
    intro hmem
    obtain ⟨q, -, hq⟩ := Routine.mem_saves.1 hmem
    cases hq
  have hall : ∀ q ∈ f.savedRegs catalog, t.regs (.virt q.2) = t.regs (.phys q.1) :=
    fun q ↦ h.virt_eq hf hr hrest hsaves
  rw [hall p hp, Function.update_eq_self]
  constructor
  · constructor
    · exact h.block
    · exact h.filter_rest hrest (List.mem_append_right _ (Routine.mem_restores.2 ⟨p, hp, rfl⟩))
    · exact h.mem
    · exact h.regs
  · exact (List.suffix_cons _ rest).trans (hrest ▸ h.suffix)
  · exact fun q hq _ ↦ hall q hq

/-- The other run stands still while a copy is made, in either direction. -/
theorem step_copy (h : Simulates f catalog s t) (hf : f.blocks ≠ []) (hr : f.MentionsReserved)
    (env : Surroundings) (hrest : t.rest = i :: rest) (hi : i ∈ f.copies catalog) :
    ∃ t', t.step env (f.bracket catalog).blocks = some (none, t') ∧ Simulates f catalog s t' ∧
      t'.rest = rest := by
  rw [State.step_of_rest_eq_cons hrest]
  rcases List.mem_append.1 hi with hi | hi
  · obtain ⟨p, hp, rfl⟩ := Routine.mem_saves.1 hi
    exact ⟨_, rfl, h.save hp hrest, rfl⟩
  · obtain ⟨p, hp, rfl⟩ := Routine.mem_restores.1 hi
    exact ⟨_, rfl, h.restore hf hr hp hrest, rfl⟩

/-- Both runs execute an instruction of the function. -/
theorem step_instr (h : Simulates f catalog s t) (hf : f.blocks ≠ []) (hr : f.MentionsReserved)
    (ha : f.LeavesAlone catalog) (env : Surroundings) (hrest : t.rest = i :: rest)
    (hi : i ∉ f.copies catalog) :
    ∃ e s' t', s.step env f.blocks = some (e, s') ∧
      t.step env (f.bracket catalog).blocks = some (e, t') ∧ Simulates f catalog s' t' := by
  have hrest' : s.rest = i :: rest.filter (· ∉ f.copies catalog) := by
    rw [← h.rest, hrest, List.filter_cons_of_pos (by simpa using hi)]
  have hcode : i ∈ codeAt (f.bracket catalog).blocks t.block :=
    h.suffix.subset (hrest ▸ List.mem_cons_self)
  have hinstr : i ∈ f.instrs := Routine.mem_instrs_of_notMem_copies hcode hi
  have hsaves : i ∉ Routine.saves (f.savedRegs catalog) := fun hmem ↦
    hi (List.mem_append_left _ hmem)
  have heffect : i.effect env t.regs t.mem = i.effect env s.regs s.mem := by
    rw [h.mem]
    exact Instr.effect_congr
      (fun ρ hρ ↦ h.regs ρ (hr.not_holdsCopy hinstr (List.mem_append_left _ hρ))) s.mem
  rw [State.step_of_rest_eq_cons hrest, State.step_of_rest_eq_cons hrest', heffect, h.block]
  refine ⟨_, _, _, rfl, rfl, ?_⟩
  generalize hvalues : (i.effect env s.regs s.mem).values = values
  have hlen : values.length = i.defs.length := hvalues ▸ i.length_values
  have hregs : ∀ ρ, ¬f.HoldsCopy catalog ρ →
      t.regs.write i.defs values ρ = s.regs.write i.defs values ρ :=
    fun ρ hρ ↦ Regs.write_congr hlen (h.regs ρ hρ)
  -- the instruction writes neither the copies nor what they were made of
  have hsaved : ∀ p ∈ f.savedRegs catalog,
      t.regs.write i.defs values (.virt p.2) = t.regs.write i.defs values (.phys p.1) := by
    intro p hp
    rw [Regs.write_of_notMem _ _ (hr.writesReserved.notMem_defs hp hinstr),
      Regs.write_of_notMem _ _ (ha i hinstr _ (Routine.fst_mem_of_mem_savedRegs hp))]
    exact h.virt_eq hf hr hrest hsaves hp
  cases (i.effect env s.regs s.mem).control with
  | next =>
    constructor
    · exact ⟨rfl, rfl, rfl, hregs⟩
    · exact (List.suffix_cons i rest).trans (h.block ▸ hrest ▸ h.suffix)
    · exact fun p hp _ ↦ hsaved p hp
  | goto label =>
    rw [State.follow, State.follow, State.target_congr (Routine.map_label_bracket f catalog)]
    exact enter hf hr hregs _ fun _ ↦ hsaved
  | stop =>
    rw [State.follow, State.follow, Routine.length_blocks_bracket]
    exact enter hf hr hregs _ fun _ ↦ hsaved

/-- Both runs go on to the next block, or both are over. -/
theorem step_of_rest_eq_nil (h : Simulates f catalog s t) (hf : f.blocks ≠ [])
    (hr : f.MentionsReserved) (env : Surroundings) (hrest : t.rest = []) :
    (s.step env f.blocks = none ∧ t.step env (f.bracket catalog).blocks = none) ∨
      ∃ e s' t', s.step env f.blocks = some (e, s') ∧
        t.step env (f.bracket catalog).blocks = some (e, t') ∧ Simulates f catalog s' t' := by
  have hrest' : s.rest = [] := by
    rw [← h.rest, hrest, List.filter_nil]
  rw [State.step_of_rest_eq_nil hrest, State.step_of_rest_eq_nil hrest',
    Routine.length_blocks_bracket, h.block, h.mem]
  split
  · refine .inr ⟨_, _, _, rfl, rfl, ?_⟩
    exact enter hf hr h.regs _ fun _ p hp ↦ h.saved p hp (by simp [hrest])
  · exact .inl ⟨rfl, rfl⟩

/-- All that can happen in a step of the bracketed function. -/
theorem step_cases (h : Simulates f catalog s t) (hf : f.blocks ≠ []) (hr : f.MentionsReserved)
    (ha : f.LeavesAlone catalog) (env : Surroundings) :
    (s.step env f.blocks = none ∧ t.step env (f.bracket catalog).blocks = none) ∨
      (∃ e s' t', s.step env f.blocks = some (e, s') ∧
        t.step env (f.bracket catalog).blocks = some (e, t') ∧ Simulates f catalog s' t') ∨
      ∃ t', t.step env (f.bracket catalog).blocks = some (none, t') ∧ Simulates f catalog s t' ∧
        t'.rest.length < t.rest.length := by
  cases hrest : t.rest with
  | nil => exact (h.step_of_rest_eq_nil hf hr env hrest).imp_right .inl
  | cons i rest =>
    by_cases hi : i ∈ f.copies catalog
    · obtain ⟨t', hstep, ht, hlen⟩ := h.step_copy hf hr env hrest hi
      exact .inr (.inr ⟨t', hstep, ht, by rw [hlen, List.length_cons]; exact Nat.lt_succ_self _⟩)
    · exact .inr (.inl (h.step_instr hf hr ha env hrest hi))

/-! ## Runs -/

/-- After the copies that come first, both runs make the same step, or both are over. -/
theorem exists_run_copies (h : Simulates f catalog s t) (hf : f.blocks ≠ [])
    (hr : f.MentionsReserved) (ha : f.LeavesAlone catalog) (env : Surroundings) :
    ∃ k t', t.run env (f.bracket catalog).blocks k = ([], t') ∧ Simulates f catalog s t' ∧
      ((s.step env f.blocks = none ∧ t'.step env (f.bracket catalog).blocks = none) ∨
        ∃ e s₁ t₁, s.step env f.blocks = some (e, s₁) ∧
          t'.step env (f.bracket catalog).blocks = some (e, t₁) ∧ Simulates f catalog s₁ t₁) := by
  induction hlen : t.rest.length using Nat.strong_induction_on generalizing t with
  | _ n ih =>
    rcases h.step_cases hf hr ha env with hnone | hboth | ⟨t₁, hstep, ht₁, hlt⟩
    · exact ⟨0, t, rfl, h, .inl hnone⟩
    · exact ⟨0, t, rfl, h, .inr hboth⟩
    · obtain ⟨k, t', hrun, ht', hnext⟩ := ih _ (hlen ▸ hlt) ht₁ rfl
      exact ⟨k + 1, t', by rw [State.run_succ hstep, hrun]; rfl, ht', hnext⟩

/-- The bracketed function does what the function does, and is over when the function is. -/
theorem exists_run (h : Simulates f catalog s t) (hf : f.blocks ≠ []) (hr : f.MentionsReserved)
    (ha : f.LeavesAlone catalog) (env : Surroundings) (n : Nat) :
    ∃ m, n ≤ m ∧ (t.run env (f.bracket catalog).blocks m).1 = (s.run env f.blocks n).1 ∧
      Simulates f catalog (s.run env f.blocks n).2 (t.run env (f.bracket catalog).blocks m).2 ∧
      ((s.run env f.blocks n).2.step env f.blocks = none ↔
        (t.run env (f.bracket catalog).blocks m).2.step env (f.bracket catalog).blocks =
          none) := by
  induction n generalizing s t with
  | zero =>
    obtain ⟨k, t', hrun, ht', hnext⟩ := h.exists_run_copies hf hr ha env
    refine ⟨k, Nat.zero_le k, by rw [hrun]; rfl, by rw [hrun]; exact ht', ?_⟩
    rw [hrun]
    rcases hnext with ⟨hs, ht⟩ | ⟨e, s₁, t₁, hs, ht, -⟩
    · exact iff_of_true hs ht
    · exact iff_of_false (by simp [State.run, hs]) (by simp [ht])
  | succ n ih =>
    obtain ⟨k, t', hrun, ht', ⟨hs, ht⟩ | ⟨e, s₁, t₁, hs, ht, h₁⟩⟩ :=
      h.exists_run_copies hf hr ha env
    · refine ⟨k + (n + 1), Nat.le_add_left _ _, ?_⟩
      rw [State.run_add, hrun, State.run_of_step_eq_none hs, State.run_of_step_eq_none ht]
      exact ⟨rfl, ht', iff_of_true hs ht⟩
    · obtain ⟨m, hle, htrace, hm, hend⟩ := ih h₁
      refine ⟨k + (m + 1), by omega, ?_⟩
      rw [State.run_add, hrun, State.run_succ hs, State.run_succ ht, htrace]
      exact ⟨rfl, hm, hend⟩

end Simulates

namespace Routine

variable {f : Routine} {catalog : Catalog}

/-- The trace of a run from the entry on, after some steps. -/
def trace (f : Routine) (env : Surroundings) (regs : Regs) (mem : Memory) (n : Nat) : List Event :=
  ((State.enter f.blocks 0 regs mem).run env f.blocks n).1

theorem trace_add_of_step_eq_none {env : Surroundings} {regs : Regs} {mem : Memory} {n : Nat}
    (h : (f.after env regs mem n).step env f.blocks = none) (k : Nat) :
    f.trace env regs mem (n + k) = f.trace env regs mem n := by
  have hrun : ((State.enter f.blocks 0 regs mem).run env f.blocks n).2.run env f.blocks k =
      ([], f.after env regs mem n) := State.run_of_step_eq_none h k
  rw [trace, trace, State.run_add, hrun, List.append_nil]

/-- The run from zeros on, but for a bound of two and a callee saved register. -/
def traceToTwo (f : Routine) (n : Nat) : List Event :=
  f.trace ⟨fun _ ↦ 0, fun _ _ mem ↦ (fun _ ↦ 0, mem)⟩
    (fun ρ ↦ if ρ = .phys ⟨2, "t0"⟩ then 2 else if ρ = .phys ⟨1, "s1"⟩ then 7 else 0)
    (fun _ ↦ 0) n

/-- Returns a register that is not reserved. -/
def returnsUnreserved : Routine where
  name := "f"
  blocks := [⟨"entry", [.ret [.virt 0] [.phys ⟨1, "s1"⟩]]⟩]

/-- Leaving the callee saved registers alone is not enough: that register is the one that holds the
copy, and is returned with it. -/
theorem trace_ne_of_unreserved (m : Nat) :
    returnsUnreserved.LeavesAlone .twoColours ∧
      returnsUnreserved.traceToTwo 1 = [.ret [0] [7]] ∧
      (returnsUnreserved.bracket .twoColours).traceToTwo m ≠ [.ret [0] [7]] := by
  refine ⟨by decide, by decide, ?_⟩
  have hfirst : ∀ m ≤ 3, (returnsUnreserved.bracket .twoColours).traceToTwo m ≠ [.ret [0] [7]] := by
    decide
  rcases Nat.le_total m 3 with hm | hm
  · exact hfirst m hm
  · -- the run is over after the three instructions
    obtain ⟨k, rfl⟩ := Nat.exists_eq_add_of_le hm
    have hlast : (returnsUnreserved.bracket .twoColours).traceToTwo (3 + k) =
        (returnsUnreserved.bracket .twoColours).traceToTwo 3 :=
      trace_add_of_step_eq_none rfl k
    rw [hlast]
    exact hfirst 3 le_rfl

end Routine

end RegAlloc

import Mathlib
import RegAlloc.Proofs.Assignment
import RegAlloc.Proofs.Machine

/-!
# Committing a colouring keeps what the code does

The code over the assigned registers runs along with the code over the virtual ones. At each place
that control can come to, a register that is live there has its value in the register that it is
assigned. An instruction can only spoil this for a register that is live behind it, and such a
register interferes with what the instruction defines, unless it is the source of a move: then the
move is left out, or the two registers are different.

Moves that are left out are steps of the one run in which the other one stands still.
-/

namespace RegAlloc

variable {ν : Numbering} {blocks : List Block} {coalesce : Bool}
  {l : Liveness ν.size (Flow.sites (reachedCode blocks (.ofBlocks blocks))).length}
  {assignment : List (Nat × PhysReg)} {env : Surroundings} {s s' : State}

/-! ## Code over assigned registers -/

theorem assignedCode_cons_of_isSelfMove {i : Instr} (rest : List Instr)
    (h : (i.mapRegs (assigned assignment)).isSelfMove = true) :
    assignedCode assignment (i :: rest) = assignedCode assignment rest := by
  simp [assignedCode, h]

theorem assignedCode_cons {i : Instr} (rest : List Instr)
    (h : (i.mapRegs (assigned assignment)).isSelfMove = false) :
    assignedCode assignment (i :: rest) =
      i.mapRegs (assigned assignment) :: assignedCode assignment rest := by
  simp [assignedCode, h]

/-- A move from a register to itself after the assignment is a move between registers that are
assigned the same one. -/
theorem Instr.isSelfMove_mapRegs_iff {φ : Reg → Reg} {i : Instr} :
    (i.mapRegs φ).isSelfMove = true ↔ ∃ rd rs, i = .mv rd rs ∧ φ rd = φ rs := by
  cases i <;> simp [isSelfMove, mapRegs, move?]

/-- The next instruction of the run is a move that is left out. -/
def State.isLeftOut (assignment : List (Nat × PhysReg)) (s : State) : Bool :=
  s.rest.head?.any fun i ↦ (i.mapRegs (assigned assignment)).isSelfMove

/-- How many of the first `n` steps are moves that are left out. -/
def State.leftOut (env : Surroundings) (blocks : List Block) (assignment : List (Nat × PhysReg)) :
    Nat → State → Nat
  | 0, _ => 0
  | n + 1, s =>
    match s.step env blocks with
    | none => 0
    | some (_, s') => (s.isLeftOut assignment).toNat + leftOut env blocks assignment n s'

/-! ## Places where the runs agree -/

/-- What the two runs rely on. -/
structure Separates (ν : Numbering) (blocks : List Block) (coalesce : Bool)
    (l : Liveness ν.size (Flow.sites (reachedCode blocks (.ofBlocks blocks))).length)
    (assignment : List (Nat × PhysReg)) : Prop where
  wellFormed : ν.catalog.WellFormed
  unknownLabel? : unknownLabel? blocks = none
  isFixpoint : l.isFixpoint (reachedFlow ν blocks) = true
  knows : ∀ block ∈ blocks, ∀ i ∈ block.code, ∀ ρ ∈ i.uses ++ i.defs, ν.Knows ρ
  eq_of_mem_edges : ∀ {ρ σ : Reg} {u v : Fin ν.size}, ν.Knows ρ → ν.Knows σ →
    ν.node? ρ = some u → ν.node? σ = some v → (u, v) ∈ (reachedFlow ν blocks).edges l coalesce →
    assigned assignment ρ = assigned assignment σ → ρ = σ

/-- The registers with the given nodes have their values where they are assigned. -/
def Holds (ν : Numbering) (assignment : List (Nat × PhysReg)) (live : Fin ν.size → Prop)
    (regs regs' : Regs) : Prop :=
  ∀ {ρ u}, ν.Knows ρ → ν.node? ρ = some u → live u → regs' (assigned assignment ρ) = regs ρ

/-- The run of the assigned code is where that of the code is, up to moves that are left out, or
both runs are over. -/
structure Matches (l : Liveness ν.size (Flow.sites (reachedCode blocks (.ofBlocks blocks))).length)
    (assignment : List (Nat × PhysReg)) (s s' : State) : Prop where
  block : s'.block = s.block
  rest : s'.rest = assignedCode assignment s.rest
  mem : s'.mem = s.mem
  live : (s.rest = [] ∧ blocks.length ≤ s.block) ∨ ∃ pre, Reaches blocks s.block pre s.rest ∧
    Holds ν assignment (l.IsLiveAt (Reaches.place blocks s.block pre)) s.regs s'.regs

namespace Reaches

variable {b : Nat} {pre rest : List Instr} {i : Instr} {regs regs' : Regs} {ρ : Reg}

theorem knows (h : Reaches blocks b pre (i :: rest))
    (hsep : Separates ν blocks coalesce l assignment) (hρ : ρ ∈ i.uses ++ i.defs) :
    ν.Knows ρ := by
  refine hsep.knows _ (List.get_mem blocks ⟨b, h.lt⟩) i ?_ ρ hρ
  rw [h.code]
  exact List.mem_append_right _ List.mem_cons_self

/-- What an instruction reads is the same. -/
theorem eq_of_mem_uses (h : Reaches blocks b pre (i :: rest))
    (hsep : Separates ν blocks coalesce l assignment)
    (hlive : Holds ν assignment (l.IsLiveAt (place blocks b pre)) regs regs') (hρ : ρ ∈ i.uses) :
    regs' (assigned assignment ρ) = regs ρ := by
  have hknows := h.knows hsep (List.mem_append_left _ hρ)
  obtain ⟨u, hu⟩ := hknows.exists_node? hsep.wellFormed
  exact hlive hknows hu (h.isLiveAt_of_mem_uses hsep.isFixpoint hρ hu)

/-- What is live behind an instruction and not defined by it is the same. -/
theorem eq_of_notMem_defs (h : Reaches blocks b pre (i :: rest))
    (hsep : Separates ν blocks coalesce l assignment)
    (hlive : Holds ν assignment (l.IsLiveAt (place blocks b pre)) regs regs') {u : Fin ν.size}
    (hρ : ν.Knows ρ) (hu : ν.node? ρ = some u) (hout : u ∈ h.out l) (hdefs : ρ ∉ i.defs) :
    regs' (assigned assignment ρ) = regs ρ := by
  refine hlive hρ hu (h.isLiveAt_of_mem_out hsep.isFixpoint hout fun hmem ↦ ?_)
  obtain ⟨σ, hσ, hv⟩ := List.mem_filterMap.1 hmem
  have hknows := h.knows hsep (List.mem_append_right _ hσ)
  exact hdefs (hρ.eq_of_node? hsep.wellFormed hknows hu hv ▸ hσ)

/-- A move that is left out has no effect on what is live behind it. -/
theorem holds_of_isSelfMove {rd rs : Reg} (h : Reaches blocks b pre (.mv rd rs :: rest))
    (hsep : Separates ν blocks coalesce l assignment)
    (hlive : Holds ν assignment (l.IsLiveAt (place blocks b pre)) regs regs')
    (heq : assigned assignment rd = assigned assignment rs) :
    Holds ν assignment (· ∈ h.out l) (regs.write [rd] [regs rs]) regs' := by
  intro ρ u hρ hu hout
  by_cases hd : ρ = rd
  · rw [hd, heq, h.eq_of_mem_uses hsep hlive (by simp [Instr.uses])]
    exact (Function.update_self rd (regs rs) regs).symm
  · have hdefs : ρ ∉ [rd] := fun hmem ↦ hd (List.mem_singleton.1 hmem)
    rw [Regs.write_of_notMem _ _ hdefs]
    exact h.eq_of_notMem_defs hsep hlive hρ hu hout hdefs

/-- What an instruction writes goes to where it is assigned, and spoils nothing that is live behind
it. -/
theorem holds_write (h : Reaches blocks b pre (i :: rest))
    (hsep : Separates ν blocks coalesce l assignment)
    (hlive : Holds ν assignment (l.IsLiveAt (place blocks b pre)) regs regs')
    (hmove : (i.mapRegs (assigned assignment)).isSelfMove = false) {values : List Word}
    (hlen : values.length = i.defs.length) :
    Holds ν assignment (· ∈ h.out l) (regs.write i.defs values)
      (regs'.write (i.mapRegs (assigned assignment)).defs values) := by
  intro ρ u hρ hu hout
  rw [Instr.defs_mapRegs]
  refine Regs.write_map hlen (fun d hd heq ↦ ?_) (h.eq_of_notMem_defs hsep hlive hρ hu hout)
  have hknows := h.knows hsep (List.mem_append_right _ hd)
  obtain ⟨v, hv⟩ := hknows.exists_node? hsep.wellFormed
  refine (hsep.eq_of_mem_edges hρ hknows hu hv (h.mem_edges_of_mem_out hout
    (List.mem_filterMap.2 ⟨d, hd, hv⟩) fun hm hmem ↦ ?_) heq.symm).symm
  -- the source of a move would be assigned the register of the destination
  cases i with
  | mv rd rs =>
    obtain ⟨σ, hσ, hw⟩ := List.mem_filterMap.1 hmem
    have hσknows := h.knows hsep (List.mem_append_left _ hσ)
    have hρσ := hρ.eq_of_node? hsep.wellFormed hσknows hu hw
    rw [List.mem_singleton.1 hσ] at hρσ
    rw [List.mem_singleton.1 hd, hρσ] at heq
    rw [Instr.isSelfMove_mapRegs_iff.2 ⟨rd, rs, rfl, heq⟩] at hmove
    cases hmove
  | _ => cases hm

/-- The effects of an instruction that is not left out are the same. -/
theorem alike (h : Reaches blocks b pre (i :: rest))
    (hsep : Separates ν blocks coalesce l assignment) {mem : Memory}
    (hlive : Holds ν assignment (l.IsLiveAt (place blocks b pre)) regs regs') :
    Effect.Alike ∅ mem (i.effect env regs mem)
      ((i.mapRegs (assigned assignment)).effect env regs' mem) := by
  refine Instr.effect_mapRegs (fun ρ hρ ↦ h.eq_of_mem_uses hsep hlive hρ) ?_ (.refl _ _)
    env.avoids_empty fun e _ ↦ e.avoids_empty
  intro ρ σ hi heq
  have hmem := Instr.mem_of_symbolicStore? hi
  have hρ := h.knows hsep hmem.1
  have hσ := h.knows hsep hmem.2
  obtain ⟨u, hu⟩ := hρ.exists_node? hsep.wellFormed
  obtain ⟨v, hv⟩ := hσ.exists_node? hsep.wellFormed
  exact hsep.eq_of_mem_edges hρ hσ hu hv (h.mem_edges_of_symbolicStore hi hu hv) heq

end Reaches

/-! ## One step -/

namespace Matches

variable {regs regs' : Regs} {mem : Memory}

/-- At the start of a block. -/
theorem enter {c : Fin blocks.length} (hc : Reaches blocks c [] (blocks.get c).code)
    (hlive : Holds ν assignment (l.IsLiveAt (Reaches.place blocks c [])) regs regs') :
    Matches l assignment (.enter blocks c regs mem)
      (.enter (blocks.map (Block.assign assignment)) c regs' mem) where
  block := rfl
  rest := by
    simp only [State.enter, List.getElem?_map, Option.map_map]
    cases blocks[c.val]? <;> rfl
  mem := rfl
  live := by
    have hrest : (State.enter blocks c regs mem).rest = (blocks.get c).code := by
      simp [State.enter]
    exact .inr ⟨[], hrest ▸ hc, hlive⟩

/-- Behind the last block. -/
theorem enter_length : Matches l assignment (.enter blocks blocks.length regs mem)
    (.enter (blocks.map (Block.assign assignment)) blocks.length regs' mem) where
  block := rfl
  rest := by simp [State.enter, assignedCode]
  mem := rfl
  live := .inl ⟨by simp [State.enter], le_rfl⟩

/-- In front of a move that is left out, only the one run goes on. -/
theorem skip (hsep : Separates ν blocks coalesce l assignment) (env : Surroundings)
    (h : Matches l assignment s s') (hs : s.isLeftOut assignment = true) :
    ∃ t, s.step env blocks = some (none, t) ∧ t.rest.length < s.rest.length ∧
      Matches l assignment t s' := by
  unfold State.isLeftOut at hs
  cases hrest : s.rest with
  | nil =>
    rw [hrest] at hs
    cases hs
  | cons i rest =>
    rw [hrest] at hs
    have hs : (i.mapRegs (assigned assignment)).isSelfMove = true := hs
    obtain ⟨rd, rs, rfl, heq⟩ := Instr.isSelfMove_mapRegs_iff.1 hs
    refine ⟨⟨s.block, rest, s.regs.write [rd] [s.regs rs], s.mem⟩,
      State.step_of_rest_eq_cons hrest, Nat.lt_succ_self _, h.block, ?_, h.mem, ?_⟩
    · rw [h.rest, hrest]
      exact assignedCode_cons_of_isSelfMove rest hs
    · rcases h.live with ⟨hnil, -⟩ | ⟨pre, hpre, hlive⟩
      · rw [hrest] at hnil
        cases hnil
      · rw [hrest] at hpre
        refine .inr ⟨pre ++ [.mv rd rs], hpre.next rfl, fun hρ hu hl ↦ ?_⟩
        exact hpre.holds_of_isSelfMove hsep hlive heq hρ hu
          (hpre.mem_out_of_next hsep.isFixpoint rfl hl)

/-- Where control goes behind an instruction, the runs agree again. -/
theorem follow (hsep : Separates ν blocks coalesce l assignment) {b : Nat} {pre rest : List Instr}
    {i : Instr} (h : Reaches blocks b pre (i :: rest)) {regs₀ : Regs} {mem₀ : Memory}
    (hlive : Holds ν assignment (· ∈ h.out l) regs regs') :
    Matches l assignment (.follow blocks b rest regs mem (i.effect env regs₀ mem₀).control)
      (.follow (blocks.map (Block.assign assignment)) b (assignedCode assignment rest) regs' mem
        (i.effect env regs₀ mem₀).control) := by
  rcases i.control_cases env regs₀ mem₀ with
    ⟨hc, hi⟩ | ⟨label, hc, hi⟩ | hc
  · rw [hc]
    refine ⟨rfl, rfl, rfl, .inr ⟨pre ++ [i], h.next hi, fun hρ hu hl ↦ ?_⟩⟩
    exact hlive hρ hu (h.mem_out_of_next hsep.isFixpoint hi hl)
  · obtain ⟨c, hlabel, hreach⟩ := h.goto hsep.unknownLabel? hi
    have hlabels : (blocks.map (Block.assign assignment)).map Block.label =
        blocks.map Block.label := by
      rw [List.map_map]
      rfl
    have htarget : State.target blocks label = c := by
      rw [State.target, hlabel, Option.map_some, Option.getD_some]
    rw [hc, State.follow, State.follow, State.target_congr hlabels, htarget]
    exact enter hreach fun hρ hu hl ↦
      hlive hρ hu (h.mem_out_of_goto hsep.isFixpoint hi hlabel hl)
  · rw [hc, State.follow, State.follow, List.length_map]
    exact enter_length

/-- Otherwise both runs make the same step, or both are over. -/
theorem step (hsep : Separates ν blocks coalesce l assignment) (env : Surroundings)
    (h : Matches l assignment s s') (hs : s.isLeftOut assignment = false) :
    (s.step env blocks = none ∧ s'.step env (blocks.map (Block.assign assignment)) = none) ∨
      ∃ e t t', s.step env blocks = some (e, t) ∧
        s'.step env (blocks.map (Block.assign assignment)) = some (e, t') ∧
        Matches l assignment t t' := by
  unfold State.isLeftOut at hs
  have hrest' := h.rest
  cases hrest : s.rest with
  | nil =>
    rw [hrest] at hrest'
    rw [State.step_of_rest_eq_nil hrest, State.step_of_rest_eq_nil hrest', h.block, h.mem,
      List.length_map]
    split
    · rename_i hlt
      refine .inr ⟨none, _, _, rfl, rfl, ?_⟩
      rcases h.live with ⟨-, hle⟩ | ⟨pre, hpre, hlive⟩
      · exact absurd hle (by omega)
      · rw [hrest] at hpre
        exact enter (c := ⟨s.block + 1, hlt⟩) (hpre.fall hlt) (hpre.place_fall ▸ hlive)
    · exact .inl ⟨rfl, rfl⟩
  | cons i rest =>
    rw [hrest] at hs hrest'
    have hs : (i.mapRegs (assigned assignment)).isSelfMove = false := hs
    rw [assignedCode_cons rest hs] at hrest'
    rcases h.live with ⟨hnil, -⟩ | ⟨pre, hpre, hlive⟩
    · rw [hrest] at hnil
      cases hnil
    rw [hrest] at hpre
    have halike : Effect.Alike ∅ s.mem (i.effect env s.regs s.mem) _ := hpre.alike hsep hlive
    refine .inr ⟨_, _, _, State.step_of_rest_eq_cons hrest, ?_,
      follow hsep hpre (hpre.holds_write hsep hlive hs i.length_values)⟩
    rw [State.step_of_rest_eq_cons hrest', h.block, h.mem, halike.event, halike.values,
      halike.control, ← Memory.eqOff_empty.1 halike.mem]

end Matches

/-! ## Runs -/

namespace State

theorem leftOut_of_step_eq_none (h : s.step env blocks = none) (n : Nat) :
    s.leftOut env blocks assignment n = 0 := by
  cases n with
  | zero => rfl
  | succ n => rw [leftOut, h]

theorem leftOut_succ {e : Option Event} (h : s.step env blocks = some (e, s')) (n : Nat) :
    s.leftOut env blocks assignment (n + 1) =
      (s.isLeftOut assignment).toNat + s'.leftOut env blocks assignment n := by
  rw [leftOut, h]

theorem leftOut_add (k n : Nat) (s : State) : s.leftOut env blocks assignment (k + n) =
    s.leftOut env blocks assignment k +
      (s.run env blocks k).2.leftOut env blocks assignment n := by
  induction k generalizing s with
  | zero => rw [Nat.zero_add, leftOut, run, Nat.zero_add]
  | succ k ih =>
    rw [Nat.add_right_comm]
    cases h : s.step env blocks with
    | none =>
      rw [run_of_step_eq_none h, leftOut_of_step_eq_none h, leftOut_of_step_eq_none h,
        leftOut_of_step_eq_none h]
    | some es =>
      obtain ⟨e, s'⟩ := es
      rw [leftOut_succ h, leftOut_succ h, run_succ h, ih, Nat.add_assoc]

end State

namespace Matches

/-- The assigned code follows every run. -/
theorem run (hsep : Separates ν blocks coalesce l assignment) (env : Surroundings)
    (h : Matches l assignment s s') (n : Nat) : ∃ n', n' + s.leftOut env blocks assignment n = n ∧
      (s'.run env (blocks.map (Block.assign assignment)) n').1 = (s.run env blocks n).1 ∧
      Matches l assignment (s.run env blocks n).2
        (s'.run env (blocks.map (Block.assign assignment)) n').2 := by
  induction n generalizing s s' with
  | zero => exact ⟨0, rfl, rfl, h⟩
  | succ n ih =>
    cases hs : s.isLeftOut assignment with
    | true =>
      obtain ⟨t, hstep, -, ht⟩ := h.skip hsep env hs
      obtain ⟨n', hn, htrace, hm⟩ := ih ht
      refine ⟨n', ?_, ?_, ?_⟩
      · rw [State.leftOut_succ hstep, hs, Bool.toNat_true]
        omega
      · rw [State.run_succ hstep, htrace]
        rfl
      · rwa [State.run_succ hstep]
    | false =>
      rcases h.step hsep env hs with ⟨hnone, hnone'⟩ | ⟨e, t, t', hstep, hstep', ht⟩
      · refine ⟨n + 1, ?_, ?_, ?_⟩
        · rw [State.leftOut_of_step_eq_none hnone, Nat.add_zero]
        · rw [State.run_of_step_eq_none hnone, State.run_of_step_eq_none hnone']
        · rwa [State.run_of_step_eq_none hnone, State.run_of_step_eq_none hnone']
      · obtain ⟨n', hn, htrace, hm⟩ := ih ht
        refine ⟨n' + 1, ?_, ?_, ?_⟩
        · rw [State.leftOut_succ hstep, hs, Bool.toNat_false]
          omega
        · rw [State.run_succ hstep, State.run_succ hstep', htrace]
        · rwa [State.run_succ hstep, State.run_succ hstep']

/-- The moves that are left out end, since each makes what is left of the block shorter. -/
theorem exists_not_isLeftOut (hsep : Separates ν blocks coalesce l assignment)
    (env : Surroundings) (h : Matches l assignment s s') :
    ∃ k, s.leftOut env blocks assignment k = k ∧ (s.run env blocks k).1 = [] ∧
      Matches l assignment (s.run env blocks k).2 s' ∧
      (s.run env blocks k).2.isLeftOut assignment = false := by
  induction hlen : s.rest.length using Nat.strong_induction_on generalizing s with
  | _ len ih =>
    cases hs : s.isLeftOut assignment with
    | true =>
      obtain ⟨t, hstep, hlt, ht⟩ := h.skip hsep env hs
      obtain ⟨k, hk, htrace, hm, hend⟩ := ih _ (hlen ▸ hlt) ht rfl
      refine ⟨k + 1, ?_, ?_, ?_⟩
      · rw [State.leftOut_succ hstep, hs, hk, Bool.toNat_true, Nat.add_comm]
      · rw [State.run_succ hstep, htrace]
        rfl
      · rw [State.run_succ hstep]
        exact ⟨hm, hend⟩
    | false => exact ⟨0, rfl, rfl, h, hs⟩

/-- Every run of the assigned code follows one of the code, which can be taken up to where the next
step is not left out. -/
theorem exists_run (hsep : Separates ν blocks coalesce l assignment) (env : Surroundings)
    (h : Matches l assignment s s') (n' : Nat) :
    ∃ n, n' + s.leftOut env blocks assignment n = n ∧
      (s'.run env (blocks.map (Block.assign assignment)) n').1 = (s.run env blocks n).1 ∧
      Matches l assignment (s.run env blocks n).2
        (s'.run env (blocks.map (Block.assign assignment)) n').2 ∧
      (s.run env blocks n).2.isLeftOut assignment = false := by
  induction n' generalizing s s' with
  | zero =>
    obtain ⟨k, hk, htrace, hm, hend⟩ := h.exists_not_isLeftOut hsep env
    exact ⟨k, by rw [hk, Nat.zero_add], htrace.symm, hm, hend⟩
  | succ n' ih =>
    obtain ⟨k, hk, htrace, hm, hend⟩ := h.exists_not_isLeftOut hsep env
    rcases hm.step hsep env hend with ⟨hnone, hnone'⟩ | ⟨e, t, t', hstep, hstep', ht⟩
    · refine ⟨k + (n' + 1), ?_, ?_, ?_⟩
      · rw [State.leftOut_add, hk, State.leftOut_of_step_eq_none hnone]
        omega
      · rw [State.run_add k, htrace, State.run_of_step_eq_none hnone,
          State.run_of_step_eq_none hnone']
        rfl
      · rw [State.run_add k, State.run_of_step_eq_none hnone, State.run_of_step_eq_none hnone']
        exact ⟨hm, hend⟩
    · obtain ⟨n, hn, htrace₂, hm₂, hend₂⟩ := ih ht
      refine ⟨k + (n + 1), ?_, ?_, ?_⟩
      · rw [State.leftOut_add, hk, State.leftOut_succ hstep, hend, Bool.toNat_false]
        omega
      · rw [State.run_add k, htrace, State.run_succ hstep, State.run_succ hstep', htrace₂]
        rfl
      · rw [State.run_add k, State.run_succ hstep, State.run_succ hstep']
        exact ⟨hm₂, hend₂⟩

/-- At corresponding places, the runs are over at the same time. -/
theorem step_eq_none_iff (hsep : Separates ν blocks coalesce l assignment)
    (h : Matches l assignment s s') (hs : s.isLeftOut assignment = false) :
    s.step env blocks = none ↔ s'.step env (blocks.map (Block.assign assignment)) = none := by
  rcases h.step hsep env hs with ⟨hnone, hnone'⟩ | ⟨e, t, t', hstep, hstep', -⟩
  · simp [hnone, hnone']
  · simp [hstep, hstep']

end Matches

/-! ## The routine over the assigned registers -/

/-- A run has come to where another one is, with the same trace and memory. -/
structure State.Agree (assignment : List (Nat × PhysReg)) (run run' : List Event × State) :
    Prop where
  trace : run'.1 = run.1
  block : run'.2.block = run.2.block
  rest : run'.2.rest = assignedCode assignment run.2.rest
  mem : run'.2.mem = run.2.mem

/-- From the given states on, the routine over the assigned registers runs like the routine, except
that it skips the moves that are left out. -/
structure Routine.RunsAlike (env : Surroundings) (assignment : List (Nat × PhysReg)) (f : Routine)
    (s s' : State) : Prop where
  run : ∀ n, ∃ n', n' + s.leftOut env f.blocks assignment n = n ∧
    State.Agree assignment (s.run env f.blocks n) (s'.run env (f.assign assignment).blocks n')
  exists_run : ∀ n', ∃ n, n' + s.leftOut env f.blocks assignment n = n ∧
    State.Agree assignment (s.run env f.blocks n) (s'.run env (f.assign assignment).blocks n') ∧
    ((s.run env f.blocks n).2.step env f.blocks = none ↔
      (s'.run env (f.assign assignment).blocks n').2.step env (f.assign assignment).blocks = none)

theorem Matches.agree {n n' : Nat} (h : Matches l assignment (s.run env blocks n).2
      (s'.run env (blocks.map (Block.assign assignment)) n').2)
    (htrace : (s'.run env (blocks.map (Block.assign assignment)) n').1 = (s.run env blocks n).1) :
    State.Agree assignment (s.run env blocks n)
      (s'.run env (blocks.map (Block.assign assignment)) n') :=
  ⟨htrace, h.block, h.rest, h.mem⟩

theorem Matches.runsAlike {f : Routine}
    {l : Liveness ν.size (Flow.sites (reachedCode f.blocks (.ofBlocks f.blocks))).length}
    (hsep : Separates ν f.blocks coalesce l assignment) (h : Matches l assignment s s') :
    f.RunsAlike env assignment s s' where
  run n := by
    obtain ⟨n', hn, htrace, hm⟩ := h.run hsep env n
    exact ⟨n', hn, hm.agree htrace⟩
  exists_run n' := by
    obtain ⟨n, hn, htrace, hm, hend⟩ := h.exists_run hsep env n'
    exact ⟨n, hn, hm.agree htrace, hm.step_eq_none_iff hsep hend⟩

/-- The runs start at the same place. -/
theorem matches_start (regs : Regs) (mem : Memory) :
    Matches l assignment (.enter blocks 0 (fun ρ ↦ regs (assigned assignment ρ)) mem)
      (.enter (blocks.map (Block.assign assignment)) 0 regs mem) := by
  by_cases hlt : 0 < blocks.length
  · exact Matches.enter (c := ⟨0, hlt⟩) (.entry hlt) fun _ _ _ ↦ rfl
  · obtain rfl : blocks = [] := List.eq_nil_of_length_eq_zero (Nat.eq_zero_of_not_pos hlt)
    exact Matches.enter_length

theorem Round.IsOf.separates {f : Routine} {catalog : Catalog} {retired : List Nat}
    {l : Liveness (f.numbering catalog).size
      (Flow.sites (reachedCode f.blocks (.ofBlocks f.blocks))).length}
    {round : Round (f.numbering catalog).size} (h : round.IsOf f catalog coalesce retired l)
    (hc : catalog.WellFormed) (hf : f.IsOver catalog) (hlabels : unknownLabel? f.blocks = none)
    (hasg : round.colouring.assignment catalog f.occurring = .ok assignment) :
    Separates (f.numbering catalog) f.blocks coalesce l assignment where
  wellFormed := hc
  unknownLabel? := hlabels
  isFixpoint := h.isFixpoint
  knows block hblock i hi := hf i (List.mem_flatMap.2 ⟨block, hblock, hi⟩)
  eq_of_mem_edges := h.eq_of_mem_edges hc hasg

/-- Committing a colouring keeps what a routine does. If a round spills nothing, its registers can
be assigned, and from every content of the registers and the memory on, the routine over the
assigned registers runs like the routine in which each register starts with the content of the one
that it is assigned. -/
theorem Routine.runsAlike_of_round {names calleeSaved callerSaved : List String}
    {frameBase : String} {catalog : Catalog}
    (hcat : Catalog.ofNames? names calleeSaved callerSaved frameBase = .ok catalog) {f : Routine}
    (hf : f.IsOver catalog) {g : BlockGraph f.blocks.length} (hg : f.blockGraph = .ok g)
    {coalesce : Bool} {retired : List Nat} {round : Round (f.numbering catalog).size}
    (hround : f.round catalog g coalesce retired = .ok round) (hspills : round.spills = []) :
    ((∀ v ∈ f.occurring, v ∉ retired) →
      ∃ assignment, round.colouring.assignment catalog f.occurring = .ok assignment) ∧
    ∀ assignment, round.colouring.assignment catalog f.occurring = .ok assignment →
      ∀ env regs mem, f.RunsAlike env assignment
        (.enter f.blocks 0 (fun ρ ↦ regs (assigned assignment ρ)) mem)
        (.enter (f.assign assignment).blocks 0 regs mem) := by
  have hc := Catalog.wellFormed_of_ofNames? hcat
  obtain ⟨hlabels, rfl⟩ := Routine.blockGraph_eq_ok hg
  obtain ⟨l, h⟩ := Routine.exists_isOf hround
  constructor
  · exact h.exists_assignment hc hf hspills
  · intro assignment hasg env regs mem
    exact (matches_start regs mem).runsAlike (h.separates hc hf hlabels hasg)

/-- Counts a register down to zero, in a register of its own. -/
def Routine.countDown : Routine where
  name := "count"
  blocks :=
    [⟨"entry", [.mv (.virt 0) (.phys ⟨2, "t0"⟩), .li (.virt 1) 0]⟩,
      ⟨"loop", [.arithImm .addi (.virt 0) (.virt 0) (-1),
        .branch .bne (.virt 0) (.virt 1) "loop"]⟩,
      ⟨"done", [.mv (.phys ⟨2, "t0"⟩) (.virt 0), .ret [.phys ⟨2, "t0"⟩] []]⟩]
  sizes := #[4, 4]

/-- The two copies of the loop counter are left out. -/
theorem Routine.runsAlike_countDown :
    ∃ round, countDown.round Catalog.twoColours (.ofBlocks countDown.blocks) true [] = .ok round ∧
      round.spills = [] ∧ ∃ assignment,
        round.colouring.assignment Catalog.twoColours countDown.occurring = .ok assignment ∧
        ∀ env regs mem, countDown.RunsAlike env assignment
          (.enter countDown.blocks 0 (fun ρ ↦ regs (assigned assignment ρ)) mem)
          (.enter (countDown.assign assignment).blocks 0 regs mem) := by
  have hround : (countDown.round Catalog.twoColours (.ofBlocks countDown.blocks) true
      []).toOption.any (·.colouring.work.spilled.isEmpty) = true := by
    decide +kernel
  cases h : countDown.round Catalog.twoColours (.ofBlocks countDown.blocks) true [] with
  | error e =>
    rw [h] at hround
    cases hround
  | ok round =>
    rw [h] at hround
    have hspills : round.spills = [] := by
      rw [Round.spills, List.isEmpty_iff.1 hround, List.map_nil, List.mergeSort_nil]
    have halike := runsAlike_of_round Catalog.ofNames?_twoColours (by decide) rfl h hspills
    obtain ⟨assignment, hasg⟩ := halike.1 fun _ _ ↦ List.not_mem_nil
    exact ⟨round, rfl, hspills, assignment, hasg, halike.2 assignment hasg⟩

end RegAlloc

import Mathlib
import RegAlloc.Proofs.Removed

/-!
# Allocating once more changes nothing

In a routine that has been allocated all the registers are physical, no register is copied to
itself, all the labels are there, since a commit keeps labels and targets, and there is room, since
there was for the last round. Another run finds
nothing to spill in it, as no virtual register occurs. It coalesces nothing: the registers of a
coalesced move are assigned the same one, so the move would be from a physical register to itself.
So its first round is the last one, and there is nothing that it could replace or leave out.
-/

namespace RegAlloc

/-! ## What a commit keeps -/

theorem targetLabels_assignedCode (assignment : List (Nat × PhysReg)) (code : List Instr) :
    targetLabels (assignedCode assignment code) = targetLabels code := by
  induction code with
  | nil => rfl
  | cons i code ih =>
    cases hi : (i.mapRegs (assigned assignment)).isSelfMove with
    | true =>
      obtain ⟨rd, rs, rfl, -⟩ := Instr.isSelfMove_mapRegs_iff.1 hi
      rw [assignedCode_cons_of_isSelfMove code hi, ih, targetLabels_cons]
      rfl
    | false =>
      rw [assignedCode_cons code hi, targetLabels_cons, targetLabels_cons, ih,
        Instr.target?_mapRegs, Instr.isTerminator_mapRegs]

theorem Instr.mapRegs_assigned_nil (i : Instr) : i.mapRegs (assigned []) = i :=
  mapRegs_eq_self fun ρ _ ↦ by cases ρ <;> rfl

namespace Routine

variable {f : Routine} {catalog : Catalog}

theorem unknownLabel?_assign (f : Routine) (assignment : List (Nat × PhysReg)) :
    unknownLabel? (f.assign assignment).blocks = unknownLabel? f.blocks := by
  refine unknownLabel?_congr ?_ ?_
  · rw [assign, List.map_map]
    rfl
  · rw [assign, List.map_map]
    exact List.map_congr_left fun b _ ↦ targetLabels_assignedCode assignment b.code

end Routine

theorem Spilling.commit_eq {σ : Type} [SlotStore σ] {w : Spilling σ} {catalog : Catalog}
    {number r : Nat} {round : Round r} {assignment : List (Nat × PhysReg)}
    (h : round.colouring.assignment catalog w.routine.occurring = .ok assignment) :
    w.commit catalog number round = .ok (w.routine.assign assignment,
      { function := w.routine.name
        rounds := number
        spilled := w.record.spilled.mergeSort
        coalescedMoves := (round.colouring.movesIn .coalesced).length
        removedMoves := w.routine.instrs.length - (w.routine.assign assignment).instrs.length
        frameSize := SlotStore.size w.store
        calleeSaved := []
        assignment }) := by
  rw [commit, h]
  rfl

/-! ## Routines in which nothing is left to do -/

namespace Routine

variable {f : Routine} {catalog : Catalog}

/-- All the labels are there, all the registers are physical ones, none is copied to itself, and
there is room for them. -/
structure IsFinal (catalog : Catalog) (f : Routine) : Prop where
  blocks_ne_nil : f.blocks ≠ []
  unknownLabel? : unknownLabel? f.blocks = none
  isPhysical : ∀ i ∈ f.instrs, i.IsPhysical catalog
  not_isSelfMove : ∀ i ∈ f.instrs, i.isSelfMove = false
  hasRoom : f.HasRoom catalog

theorem isFinal_of_allocate (hc : catalog.WellFormed) (hf : f.IsFor catalog) {σ : Type}
    [SlotStore σ] {order : SlotOrder} {store : σ} {settings : Settings} {outcome : Outcome σ}
    {report : Report} (h : f.allocate order store catalog settings = .ok outcome)
    (hreport : outcome.result = .ok report) : outcome.routine.IsFinal catalog := by
  obtain ⟨attempts, w, round, hvisits, hblocks, hlabels, hround, -, -, hasg, hroutine, -⟩ :=
    Spilling.exists_commit_of_allocate h hreport
  rw [hroutine]
  constructor
  · rwa [assign, Ne, List.map_eq_nil_iff]
  · rwa [unknownLabel?_assign]
  · exact fun i hi ↦ isPhysical_of_assignment (hvisits.isFor hc hf) hasg hi
  · exact fun i hi ↦ (mem_instrs_assign.1 hi).2
  · -- no register is added or taken away
    have hroom : w.routine.HasRoom catalog := hasRoom_of_round hround
    exact hroom

namespace IsFinal

variable (h : f.IsFinal catalog)
include h

theorem isOver : f.IsOver catalog := by
  intro i hi ρ hρ
  obtain ⟨r, hr, rfl⟩ := h.isPhysical i hi ρ hρ
  exact hr

theorem occurring_eq_nil : f.occurring = [] := by
  refine List.eq_nil_iff_forall_not_mem.2 fun v hv ↦ ?_
  obtain ⟨i, hi, hρ⟩ := mem_occurring.1 hv
  exact (h.isPhysical i hi).notMem v hρ

theorem assignment_eq {n m : Nat} (s : Colouring n m) :
    s.assignment catalog f.occurring = .ok [] := by
  rw [h.occurring_eq_nil]
  rfl

/-- There is nothing to replace, and nothing to leave out. -/
theorem assign_nil : f.assign [] = f := by
  have hcode : ∀ b ∈ f.blocks, Block.assign [] b = b := by
    intro b hb
    have hkeep : ∀ i ∈ b.code, i.mapRegs (assigned []) = i := fun i _ ↦ i.mapRegs_assigned_nil
    have hnone : ∀ i ∈ b.code, (!i.isSelfMove) = true := by
      intro i hi
      rw [h.not_isSelfMove i (List.mem_flatMap.2 ⟨b, hb, hi⟩)]
      rfl
    rw [Block.assign, assignedCode, List.map_congr_left hkeep, List.map_id',
      List.filter_eq_self.2 hnone]
  rw [assign, List.map_congr_left hcode, List.map_id']

/-- No round coalesces a move. -/
theorem movesIn_eq_nil (hc : catalog.WellFormed) {coalesce : Bool} {retired : List Nat}
    {round : Round (f.numbering catalog).size}
    (hround : f.round catalog (.ofBlocks f.blocks) coalesce retired = .ok round) :
    round.colouring.movesIn .coalesced = [] := by
  have hcount : f.instrs.countP (Instr.isJoined []) = 0 := by
    refine List.countP_eq_zero.2 fun i hi ↦ ?_
    rw [← Instr.isSelfMove_mapRegs_assigned, i.mapRegs_assigned_nil, h.not_isSelfMove i hi]
    exact Bool.false_ne_true
  have hle := (isOf_solve hround).length_movesIn_le hc h.isOver.isFor (h.assignment_eq _)
  rw [hcount] at hle
  exact List.eq_nil_of_length_eq_zero (Nat.le_zero.1 hle)

/-- A run makes one round and changes nothing. -/
theorem allocate_eq {names calleeSaved callerSaved : List String} {frameBase : String}
    (hcat : Catalog.ofNames? names calleeSaved callerSaved frameBase = .ok catalog) {σ : Type}
    [SlotStore σ] (order : SlotOrder) (store : σ) {settings : Settings}
    (hmax : 1 ≤ settings.maxRounds) :
    ∃ attempts, f.allocate order store catalog settings =
      .ok { routine := f, store, attempts,
            result := .ok
              { function := f.name, rounds := 1, spilled := [], coalescedMoves := 0,
                removedMoves := 0, frameSize := SlotStore.size store, calleeSaved := [],
                assignment := [] } } := by
  have hc := Catalog.wellFormed_of_ofNames? hcat
  have hg : f.blockGraph = .ok (.ofBlocks f.blocks) := by
    rw [blockGraph, h.unknownLabel?]
  obtain ⟨round, hround⟩ :=
    h.isOver.exists_round hc h.hasRoom (.ofBlocks f.blocks) settings.coalesce []
  have hspills : round.spills = [] := by
    refine List.eq_nil_iff_forall_not_mem.2 fun v hv ↦ ?_
    have hmem := (spills_of_round hround (Catalog.isMade_of_ofNames? hcat).colourCount_pos).2 v hv
    rw [h.occurring_eq_nil] at hmem
    exact List.not_mem_nil hmem
  have hcommit : Spilling.commit { routine := f, store } catalog 1 round =
      .ok (f, { function := f.name, rounds := 1, spilled := [], coalescedMoves := 0,
                removedMoves := 0, frameSize := SlotStore.size store, calleeSaved := [],
                assignment := [] }) := by
    rw [Spilling.commit_eq (h.assignment_eq _), h.assign_nil, h.movesIn_eq_nil hc hround,
      Nat.sub_self]
    simp
  have hstart : Spilling.Visits order settings catalog 1 { routine := f, store } []
      { routine := f, store } := .start
  exact ⟨_, hstart.allocate_eq h.blocks_ne_nil hmax hg hround hspills hcommit⟩

end IsFinal

/-- Allocating once more, with whatever settings, makes one round and changes nothing. -/
theorem allocate_allocate {names calleeSaved callerSaved : List String} {frameBase : String}
    (hcat : Catalog.ofNames? names calleeSaved callerSaved frameBase = .ok catalog)
    (hf : f.IsFor catalog) {σ : Type} [SlotStore σ] {order order' : SlotOrder} {store : σ}
    {settings settings' : Settings} (hmax : 1 ≤ settings'.maxRounds) {outcome : Outcome σ}
    {report : Report} (h : f.allocate order store catalog settings = .ok outcome)
    (hreport : outcome.result = .ok report) :
    ∃ attempts, outcome.routine.allocate order' outcome.store catalog settings' =
      .ok { routine := outcome.routine, store := outcome.store, attempts,
            result := .ok
              { function := outcome.routine.name, rounds := 1, spilled := [], coalescedMoves := 0,
                removedMoves := 0, frameSize := SlotStore.size outcome.store, calleeSaved := [],
                assignment := [] } } :=
  (isFinal_of_allocate (Catalog.wellFormed_of_ofNames? hcat) hf h hreport).allocate_eq hcat
    order' outcome.store hmax

/-- A register has been spilled and moved across a call in its slot. -/
theorem allocate_allocate_acrossCall :
    Catalog.ofNames? ["fp", "t0"] [] ["t0"] "fp" = .ok .oneColour ∧
    Function.acrossCall.toRoutine.IsFor .oneColour ∧
    ∃ outcome report, Function.acrossCall.toRoutine.allocate .ascending Function.acrossCall.frame
        .oneColour { maxRounds := 2 } = .ok outcome ∧ outcome.result = .ok report ∧
      report.spilled = [0] ∧
      ∃ attempts, outcome.routine.allocate .ascending outcome.store .oneColour
          { maxRounds := 1, coalesce := false } =
        .ok { routine := outcome.routine, store := outcome.store, attempts,
              result := .ok
                { function := outcome.routine.name, rounds := 1, spilled := [],
                  coalescedMoves := 0, removedMoves := 0,
                  frameSize := SlotStore.size outcome.store, calleeSaved := [],
                  assignment := [] } } := by
  have hover : Function.acrossCall.toRoutine.IsOver .oneColour := by decide
  have hreplay : (Spilling.replay .ascending { maxRounds := 2 } .oneColour 1 [[0]]
      { routine := Function.acrossCall.toRoutine, store := Function.acrossCall.frame }).map
        (fun w ↦ (w.record.spilled, w.nextSpills { maxRounds := 2 } .oneColour)) =
      some ([0], some []) := by
    decide +kernel
  obtain ⟨w, hw, hnext⟩ := Option.map_eq_some_iff.1 hreplay
  obtain ⟨hspilled, hlast⟩ := Prod.mk.inj hnext
  obtain ⟨outcome, report, hok, hreport, hperm⟩ := Spilling.exists_allocate_of_replay
    (Catalog.wellFormed_of_ofNames? Catalog.ofNames?_oneColour) (by decide)
    hover hw hlast (by decide)
  rw [hspilled] at hperm
  exact ⟨Catalog.ofNames?_oneColour, hover.isFor, outcome, report, hok, hreport,
    List.perm_singleton.1 hperm,
    allocate_allocate Catalog.ofNames?_oneColour hover.isFor le_rfl hok hreport⟩

end Routine

end RegAlloc

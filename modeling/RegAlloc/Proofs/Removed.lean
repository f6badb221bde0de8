import Mathlib
import RegAlloc.Proofs.Answers
import RegAlloc.Proofs.Colouring.Merged
import RegAlloc.Proofs.Commit
import RegAlloc.Proofs.Interference
import RegAlloc.Proofs.Reached

/-!
# Coalesced moves are removed

A commit leaves out the moves between registers that are assigned the same one, and nothing else. A
move that has been coalesced is one of them: it stands at a node of the flow graph, its registers
have the nodes of its two ends, and these have one colour. Different moves stand at different nodes,
so no more moves are coalesced than are removed. There may be fewer, since two registers can find
the same colour without having been coalesced, and since code that cannot be reached has no nodes.
-/

namespace RegAlloc

/-! ## What a commit leaves out -/

/-- Whether an instruction is a move between registers that are assigned the same one. -/
def Instr.isJoined (assignment : List (Nat × PhysReg)) : Instr → Bool
  | mv rd rs => assigned assignment rd = assigned assignment rs
  | _ => false

/-- The code over the assigned registers is what is left without the moves between registers that
are assigned the same one, in the same order. -/
inductive LeavesOut (assignment : List (Nat × PhysReg)) : List Instr → List Instr → Prop
  | nil : LeavesOut assignment [] []
  | drop {rd rs : Reg} {code code' : List Instr}
    (h : assigned assignment rd = assigned assignment rs) (hcode : LeavesOut assignment code code') :
    LeavesOut assignment (.mv rd rs :: code) code'
  | keep {i : Instr} {code code' : List Instr} (h : i.isJoined assignment = false)
    (hcode : LeavesOut assignment code code') :
    LeavesOut assignment (i :: code) (i.mapRegs (assigned assignment) :: code')

variable {assignment : List (Nat × PhysReg)}

theorem Instr.isSelfMove_mapRegs_assigned (i : Instr) :
    (i.mapRegs (assigned assignment)).isSelfMove = i.isJoined assignment := by
  cases i <;> simp [isSelfMove, mapRegs, move?, isJoined]

theorem leavesOut_assignedCode (assignment : List (Nat × PhysReg)) (code : List Instr) :
    LeavesOut assignment code (assignedCode assignment code) := by
  induction code with
  | nil => exact .nil
  | cons i code ih =>
    cases hi : (i.mapRegs (assigned assignment)).isSelfMove with
    | true =>
      obtain ⟨rd, rs, rfl, h⟩ := Instr.isSelfMove_mapRegs_iff.1 hi
      rw [assignedCode_cons_of_isSelfMove code hi]
      exact .drop h ih
    | false =>
      rw [assignedCode_cons code hi]
      rw [Instr.isSelfMove_mapRegs_assigned] at hi
      exact .keep hi ih

/-- As many instructions are missing as there are moves between registers that are assigned the same
one. -/
theorem LeavesOut.length_add {code code' : List Instr} (h : LeavesOut assignment code code') :
    code'.length + code.countP (Instr.isJoined assignment) = code.length := by
  induction h with
  | nil => rfl
  | drop h hcode ih =>
    rw [List.countP_cons_of_pos (by simpa [Instr.isJoined] using h), List.length_cons, ← ih]
    rfl
  | keep h hcode ih =>
    rw [List.countP_cons_of_neg (by simp [h]), List.length_cons, List.length_cons, ← ih]
    omega

/-! ## Moves that have been coalesced -/

/-- The instruction of a site stands where the site is. -/
theorem Flow.instrAt?_of_mem_sites {blocks : List Block} {s : Site}
    (h : s ∈ sites (reachedCode blocks (.ofBlocks blocks))) :
    instrAt? blocks (s.block, s.position) = some s.instr := by
  obtain ⟨pre, rest, hreach, hlen⟩ := exists_reaches_of_mem_sites h
  rw [← hlen]
  exact hreach.instrAt?_eq

/-- A register of the code that has a node is known. -/
theorem Routine.IsFor.knows_of_node? {f : Routine} {catalog : Catalog} (hf : f.IsFor catalog)
    {i : Instr} (hi : i ∈ f.instrs) {ρ : Reg} (hρ : ρ ∈ i.uses ++ i.defs)
    {u : Fin (f.numbering catalog).size} (hu : (f.numbering catalog).node? ρ = some u) :
    (f.numbering catalog).Knows ρ := by
  cases ρ with
  | virt v =>
    obtain ⟨hv, -⟩ := Option.dite_none_right_eq_some.1 hu
    exact hv
  | phys r => exact hf i hi r hρ

namespace Round.IsOf

variable {f : Routine} {catalog : Catalog} {coalesce : Bool} {retired : List Nat}
  {l : Liveness (f.numbering catalog).size
    (Flow.sites (reachedCode f.blocks (.ofBlocks f.blocks))).length}
  {round : Round (f.numbering catalog).size}

/-- The registers of a move that has been coalesced are assigned the same one. -/
theorem assigned_of_coalesced (h : round.IsOf f catalog coalesce retired l)
    (hc : catalog.WellFormed) (hf : f.IsFor catalog)
    (hasg : round.colouring.assignment catalog f.occurring = .ok assignment)
    {k : Fin round.interference.moves.length} (hk : round.colouring.move.get k = .coalesced)
    {rd rs : Reg} (hi : .mv rd rs ∈ f.instrs)
    (hd : (f.numbering catalog).node? rd = some (round.interference.moves.get k).dst)
    (hs : (f.numbering catalog).node? rs = some (round.interference.moves.get k).src) :
    ∃ r, assigned assignment rd = .phys r ∧ assigned assignment rs = .phys r := by
  have hrd : rd ∈ (Instr.mv rd rs).uses ++ (Instr.mv rd rs).defs := by simp [Instr.uses, Instr.defs]
  have hrs : rs ∈ (Instr.mv rd rs).uses ++ (Instr.mv rd rs).defs := by simp [Instr.uses, Instr.defs]
  obtain ⟨r, hr, hrd'⟩ := hf.exists_assigned hasg hi hrd
  obtain ⟨r', hr', hrs'⟩ := hf.exists_assigned hasg hi hrs
  have hcolour := (Colouring.merged_of_attempt h.settled_start h.attempt hk).2
  rw [Colouring.problem_moves_get,
    h.colour_of_assigned hc hasg (hf.knows_of_node? hi hrd hd) hd hrd',
    h.colour_of_assigned hc hasg (hf.knows_of_node? hi hrs hs) hs hrs', Option.some.injEq] at hcolour
  have hget := hc.getElem?_index hr
  rw [hcolour, hc.getElem?_index hr', Option.some.injEq] at hget
  exact ⟨r, hrd', hget ▸ hrs'⟩

theorem injective_node (h : round.IsOf f catalog coalesce retired l) :
    Function.Injective fun k ↦ (round.interference.moves.get k).node := by
  have hpairwise : round.interference.moves.Pairwise fun m m' ↦ m.node < m'.node := by
    rw [h.moves]
    exact Flow.pairwise_moves _ _
  have hmono : StrictMono fun k ↦ (round.interference.moves.get k).node :=
    fun j k hjk ↦ List.pairwise_iff_get.1 hpairwise j k hjk
  exact hmono.injective

/-- Different moves stand at different nodes of the reached code, so those that have been coalesced
are not more than the moves that are left out. -/
theorem length_movesIn_le (h : round.IsOf f catalog coalesce retired l)
    (hc : catalog.WellFormed) (hf : f.IsFor catalog)
    (hasg : round.colouring.assignment catalog f.occurring = .ok assignment) :
    (round.colouring.movesIn .coalesced).length ≤
      f.instrs.countP (Instr.isJoined assignment) := by
  obtain ⟨sites, hsites⟩ : ∃ sites, sites = Flow.sites (reachedCode f.blocks (.ofBlocks f.blocks)) :=
    ⟨_, rfl⟩
  -- the numbers of the nodes whose instructions are left out
  obtain ⟨nodes, hnodes⟩ : ∃ nodes, nodes = (List.finRange sites.length).filter
      fun j ↦ (sites.get j).instr.isJoined assignment := ⟨_, rfl⟩
  have hnodup : ((round.colouring.movesIn .coalesced).map
      fun k ↦ (round.interference.moves.get k).node).Nodup :=
    ((List.nodup_finRange _).filter _).map h.injective_node
  have hsubset : (round.colouring.movesIn .coalesced).map
      (fun k ↦ (round.interference.moves.get k).node) ⊆ nodes.map Fin.val := by
    intro x hx
    obtain ⟨k, hk, rfl⟩ := List.mem_map.1 hx
    obtain ⟨j, hj, rd, rs, hinstr, hd, hs⟩ := h.exists_site_of_mem_moves (List.get_mem _ k)
    have hmem : .mv rd rs ∈ f.instrs :=
      hinstr ▸ Flow.mem_instrs_of_mem_sites (List.get_mem _ j)
    obtain ⟨r, hrd, hrs⟩ :=
      h.assigned_of_coalesced hc hf hasg (by simpa using (List.mem_filter.1 hk).2) hmem hd hs
    subst hsites
    refine List.mem_map.2 ⟨j, hnodes ▸ List.mem_filter.2 ⟨List.mem_finRange j, ?_⟩, hj.symm⟩
    rw [hinstr]
    simp [Instr.isJoined, hrd, hrs]
  have hcount : nodes.length = (sites.map Site.instr).countP (Instr.isJoined assignment) := by
    rw [hnodes, ← List.countP_eq_length_filter, List.countP_map]
    conv_rhs => rw [← List.map_get_finRange sites]
    rw [List.countP_map]
    rfl
  calc (round.colouring.movesIn .coalesced).length
    _ ≤ nodes.length := by simpa using (hnodup.subperm hsubset).length_le
    _ = (reachedCode f.blocks (.ofBlocks f.blocks)).flatten.countP (Instr.isJoined assignment) := by
      rw [hcount, hsites, Flow.map_instr_sites]
    _ ≤ f.instrs.countP (Instr.isJoined assignment) :=
      (sublist_flatten_reachedCode f _).countP_le

end Round.IsOf

namespace Spilling

variable {σ : Type} [SlotStore σ] {order : SlotOrder} {settings : Settings} {catalog : Catalog}
  {number : Nat} {w w' : Spilling σ} {attempts : List Attempt}

theorem Visits.isFor (h : Visits order settings catalog number w attempts w')
    (hc : catalog.WellFormed) (hw : w.routine.IsFor catalog) : w'.routine.IsFor catalog := by
  induction h with
  | start => exact hw
  | next _ _ _ _ hspill ih => exact (spills_of_spill hspill).isFor hc ih

theorem Visits.map_label_eq (h : Visits order settings catalog number w attempts w') :
    w'.routine.blocks.map Block.label = w.routine.blocks.map Block.label := by
  induction h with
  | start => rfl
  | next _ _ _ _ hspill ih =>
    exact ((spills_of_spill hspill).blocks.map_eq SpillsBlock.label_eq).trans ih

/-- The routine that a run commits, and what it has come to. -/
theorem exists_commit_of_allocate {f : Routine} {store : σ} {outcome : Outcome σ} {report : Report}
    (h : f.allocate order store catalog settings = .ok outcome)
    (hreport : outcome.result = .ok report) :
    ∃ attempts w, ∃ round : Round (w.routine.numbering catalog).size,
      Visits order settings catalog 1 { routine := f, store } attempts w ∧
      w.routine.blocks ≠ [] ∧ unknownLabel? w.routine.blocks = none ∧
      w.routine.round catalog (.ofBlocks w.routine.blocks) settings.coalesce w.record.retired =
        .ok round ∧
      outcome.attempts = attempts ++ [⟨_, round, []⟩] ∧ outcome.store = w.store ∧
      round.colouring.assignment catalog w.routine.occurring = .ok report.assignment ∧
      outcome.routine = w.routine.assign report.assignment ∧
      report.coalescedMoves = (round.colouring.movesIn .coalesced).length ∧
      report.removedMoves = w.routine.instrs.length - outcome.routine.instrs.length := by
  have hblocks : f.blocks ≠ [] := by
    intro hnil
    rw [Routine.allocate, if_pos (by simp [hnil])] at h
    cases h
    cases hreport
  obtain ⟨attempts, w, hvisits, -, hends⟩ := exists_visits_of_allocate hblocks h
  cases hends with
  | error e => cases hreport
  | commit hg hround hspills hcommit =>
    obtain ⟨hlabels, rfl⟩ := Routine.blockGraph_eq_ok hg
    obtain ⟨assignment, hasg, hcommit⟩ := bind_eq_ok_iff.1 hcommit
    cases hcommit
    cases hreport
    have hne : w.routine.blocks ≠ [] := by
      intro hnil
      have hlabel := hvisits.map_label_eq
      rw [hnil] at hlabel
      exact hblocks (List.map_eq_nil_iff.1 hlabel.symm)
    exact ⟨attempts, w, _, hvisits, hne, hlabels, hround, rfl, rfl, hasg, rfl, rfl, rfl⟩

end Spilling

/-- The moves of the round that is committed, and what becomes of them. -/
theorem Routine.leavesOut_of_allocate {names calleeSaved callerSaved : List String}
    {frameBase : String} {catalog : Catalog}
    (hcat : Catalog.ofNames? names calleeSaved callerSaved frameBase = .ok catalog) {f : Routine}
    (hf : f.IsFor catalog) {σ : Type} [SlotStore σ] {order : SlotOrder} {store : σ}
    {settings : Settings} {outcome : Outcome σ} {report : Report}
    (h : f.allocate order store catalog settings = .ok outcome)
    (hreport : outcome.result = .ok report) :
    ∃ attempts w, ∃ round : Round (w.routine.numbering catalog).size,
      Spilling.Visits order settings catalog 1 { routine := f, store } attempts w ∧
      w.routine.round catalog (.ofBlocks w.routine.blocks) settings.coalesce w.record.retired =
        .ok round ∧
      outcome.attempts = attempts ++ [⟨_, round, []⟩] ∧
      (∀ k, round.colouring.move.get k = .coalesced →
        ∃ (j : Fin round.analysis.size) (rd rs : Reg) (r : PhysReg),
          (round.interference.moves.get k).node = j ∧
          instrAt? w.routine.blocks (round.analysis.flow.get j).spot = some (.mv rd rs) ∧
          (w.routine.numbering catalog).node? rd = some (round.interference.moves.get k).dst ∧
          (w.routine.numbering catalog).node? rs = some (round.interference.moves.get k).src ∧
          assigned report.assignment rd = .phys r ∧ assigned report.assignment rs = .phys r) ∧
      List.Forall₂ (fun b b' ↦ b'.label = b.label ∧ LeavesOut report.assignment b.code b'.code)
        w.routine.blocks outcome.routine.blocks ∧
      report.removedMoves = w.routine.instrs.countP (Instr.isJoined report.assignment) ∧
      report.coalescedMoves = (round.colouring.movesIn .coalesced).length ∧
      report.coalescedMoves ≤ report.removedMoves := by
  have hc := Catalog.wellFormed_of_ofNames? hcat
  obtain ⟨attempts, w, round, hvisits, -, -, hround, hattempts, -, hasg, hroutine, hcoalesced,
    hremoved⟩ := Spilling.exists_commit_of_allocate h hreport
  have hw := hvisits.isFor hc hf
  have hof := isOf_solve hround
  have hcount : report.removedMoves =
      w.routine.instrs.countP (Instr.isJoined report.assignment) := by
    have hlen := (leavesOut_assignedCode report.assignment w.routine.instrs).length_add
    rw [hremoved, hroutine, instrs_assign, ← hlen, Nat.add_sub_cancel_left]
  refine ⟨attempts, w, round, hvisits, hround, hattempts, fun k hk ↦ ?_, ?_, hcount, hcoalesced, ?_⟩
  · obtain ⟨j, hj, rd, rs, hinstr, hd, hs⟩ := hof.exists_site_of_mem_moves (List.get_mem _ k)
    have hmem : .mv rd rs ∈ w.routine.instrs :=
      hinstr ▸ Flow.mem_instrs_of_mem_sites (List.get_mem _ j)
    obtain ⟨r, hrd, hrs⟩ := hof.assigned_of_coalesced hc hw hasg hk hmem hd hs
    obtain ⟨l, passes, hanalysis⟩ := analysis_of_round hround
    rw [hanalysis]
    refine ⟨j, rd, rs, r, hj, ?_, hd, hs, hrd, hrs⟩
    rw [get_reachedFlow, ← hinstr]
    exact Flow.instrAt?_of_mem_sites (List.get_mem _ j)
  · rw [hroutine]
    refine List.forall₂_map_right_iff.2 (List.forall₂_same.2 fun b _ ↦ ⟨rfl, ?_⟩)
    exact leavesOut_assignedCode report.assignment b.code
  · rw [hcoalesced, hcount]
    exact hof.length_movesIn_le hc hw hasg

/-- Copies a register once in code that can be reached, and once behind the end. -/
def Function.copies : Function where
  name := "f"
  blocks :=
    [⟨"entry", [.li (.virt 0) 1, .mv (.virt 1) (.virt 0), .ret [.virt 1] [],
      .mv (.virt 0) (.virt 1)]⟩]
  sizes := #[4, 4]

/-- The first of the two moves is coalesced. -/
theorem Routine.leavesOut_of_copies :
    Catalog.ofNames? ["fp", "t0"] [] ["t0"] "fp" = .ok .oneColour ∧
    Function.copies.toRoutine.IsFor .oneColour ∧
    ∃ outcome report, Function.copies.toRoutine.allocate .ascending Function.copies.frame .oneColour
        { maxRounds := 1 } = .ok outcome ∧
      outcome.result = .ok report ∧ report.coalescedMoves = 1 ∧
      report.coalescedMoves ≤ report.removedMoves := by
  have hover : Function.copies.toRoutine.IsOver .oneColour := by decide
  have hc := Catalog.wellFormed_of_ofNames? Catalog.ofNames?_oneColour
  have hg : Function.copies.toRoutine.blockGraph = .ok (.ofBlocks Function.copies.blocks) := rfl
  have hstart : Spilling.Visits .ascending { maxRounds := 1 } .oneColour 1
      { routine := Function.copies.toRoutine, store := Function.copies.frame } []
      { routine := Function.copies.toRoutine, store := Function.copies.frame } := .start
  obtain ⟨round, hround⟩ := hover.exists_round hc (by decide) (.ofBlocks Function.copies.blocks)
    ({ maxRounds := 1 } : Settings).coalesce []
  have hrun : ((Function.copies.toRoutine.round .oneColour (.ofBlocks Function.copies.blocks)
      ({ maxRounds := 1 } : Settings).coalesce []).toOption.map fun round ↦
        (round.spills, (round.colouring.movesIn .coalesced).length)) = some ([], 1) := by
    decide +kernel
  rw [hround] at hrun
  obtain ⟨hspills, hlength⟩ := Prod.mk.inj (Option.some.inj hrun)
  obtain ⟨⟨routine, report⟩, hcommit⟩ :=
    (Spilling.isInOrder_start hover Function.copies.frame).exists_commit hc hg hround hspills 1
  have hok := hstart.allocate_eq (by decide) (by decide) hg hround hspills hcommit
  obtain ⟨assignment, -, he⟩ := bind_eq_ok_iff.1 hcommit
  cases he
  obtain ⟨_, _, _, -, -, -, -, -, -, -, hle⟩ :=
    leavesOut_of_allocate Catalog.ofNames?_oneColour hover.isFor hok rfl
  exact ⟨Catalog.ofNames?_oneColour, hover.isFor, _, _, hok, rfl, hlength, hle⟩

end RegAlloc

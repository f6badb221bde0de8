import Mathlib
import RegAlloc.Commit
import RegAlloc.Proofs.Colouring.Select
import RegAlloc.Proofs.Flow
import RegAlloc.Proofs.Interference

/-!
# Assigned registers

A round without spills gives every register of the code that is not retired a physical register, and
registers whose nodes interfere get different ones. A register that is assigned has its position in
the catalog as the colour of its node, so two that are assigned the same register have one colour.
-/

namespace RegAlloc

/-! ## Registers that a numbering knows -/

namespace Numbering

variable {ν : Numbering} {ρ σ : Reg} {u : Fin ν.size}

/-- The register is reserved, or one of the catalog. -/
def Knows (ν : Numbering) : Reg → Prop
  | .virt v => v < ν.virtuals
  | .phys r => r ∈ ν.catalog.registers

instance (ν : Numbering) : DecidablePred ν.Knows
  | .virt v => inferInstanceAs (Decidable (v < ν.virtuals))
  | .phys r => inferInstanceAs (Decidable (r ∈ ν.catalog.registers))

theorem node?_virt {v : Nat} (h : v < ν.virtuals) : ν.node? (.virt v) = some ⟨v, lt_size h⟩ :=
  dif_pos h

theorem node?_phys (hc : ν.catalog.WellFormed) {r : PhysReg} (hr : r ∈ ν.catalog.registers) :
    ∃ h : ν.virtuals + r.index < ν.size, ν.node? (.phys r) = some ⟨_, h⟩ := by
  have hlt := (List.getElem?_eq_some_iff.1 (hc.getElem?_index hr)).1
  exact ⟨Nat.add_lt_add_left hlt _, dif_pos _⟩

theorem Knows.exists_node? (hc : ν.catalog.WellFormed) (h : ν.Knows ρ) :
    ∃ u, ν.node? ρ = some u := by
  cases ρ with
  | virt v => exact ⟨_, node?_virt h⟩
  | phys r =>
    obtain ⟨_, hu⟩ := node?_phys hc h
    exact ⟨_, hu⟩

/-- A register that is known has a number, unless that needs more than 32 bits. -/
theorem Knows.index_cases (hc : ν.catalog.WellFormed) (h : ν.Knows ρ) :
    (∃ i < UInt32.size, ν.index ρ = .ok i) ∨
      (UInt32.size ≤ ν.size ∧ ν.index ρ = .error .overflow) := by
  obtain ⟨u, hu⟩ := h.exists_node? hc
  simp only [index, hu]
  by_cases hlt : u.val < UInt32.size
  · exact .inl ⟨u, hlt, if_pos hlt⟩
  · exact .inr ⟨(not_lt.1 hlt).trans u.isLt.le, if_neg hlt⟩

/-- Different registers have different nodes. -/
theorem Knows.eq_of_node? (hc : ν.catalog.WellFormed) (hρ : ν.Knows ρ) (hσ : ν.Knows σ)
    (hu : ν.node? ρ = some u) (hv : ν.node? σ = some u) : ρ = σ := by
  cases ρ with
  | virt v =>
    rw [node?_virt hρ, Option.some.injEq] at hu
    cases σ with
    | virt w =>
      rw [node?_virt hσ, Option.some.injEq, ← hu, Fin.mk.injEq] at hv
      rw [hv]
    | phys r =>
      obtain ⟨_, hr⟩ := node?_phys hc hσ
      rw [hr, Option.some.injEq, ← hu, Fin.mk.injEq] at hv
      have : v < ν.virtuals := hρ
      omega
  | phys r =>
    obtain ⟨_, hr⟩ := node?_phys hc hρ
    rw [hr, Option.some.injEq] at hu
    cases σ with
    | virt w =>
      rw [node?_virt hσ, Option.some.injEq, ← hu, Fin.mk.injEq] at hv
      have : w < ν.virtuals := hσ
      omega
    | phys r' =>
      obtain ⟨_, hr'⟩ := node?_phys hc hσ
      rw [hr', Option.some.injEq, ← hu, Fin.mk.injEq] at hv
      have hget := hc.getElem?_index hσ
      rw [Nat.add_left_cancel hv, hc.getElem?_index hρ, Option.some.injEq] at hget
      rw [hget]

end Numbering

/-- The routine is written over its reserved registers and those of the catalog. -/
def Routine.IsOver (f : Routine) (catalog : Catalog) : Prop :=
  ∀ i ∈ f.instrs, ∀ ρ ∈ i.uses ++ i.defs, (f.numbering catalog).Knows ρ

instance (f : Routine) (catalog : Catalog) : Decidable (f.IsOver catalog) :=
  inferInstanceAs (Decidable (∀ i ∈ f.instrs, ∀ ρ ∈ i.uses ++ i.defs, _))

/-- The physical registers of the code are those of the catalog. -/
def Routine.IsFor (f : Routine) (catalog : Catalog) : Prop :=
  ∀ i ∈ f.instrs, ∀ r, .phys r ∈ i.uses ++ i.defs → r ∈ catalog.registers

theorem Routine.IsOver.isFor {f : Routine} {catalog : Catalog} (h : f.IsOver catalog) :
    f.IsFor catalog :=
  fun i hi r hr ↦ h i hi (.phys r) hr

/-! ## What a round consists of -/

/-- The parts of a round of a routine in which the live registers are `l`. -/
structure Round.IsOf (f : Routine) (catalog : Catalog) (coalesce : Bool) (retired : List Nat)
    (l : Liveness (f.numbering catalog).size
      (Flow.sites (reachedCode f.blocks (.ofBlocks f.blocks))).length)
    (round : Round (f.numbering catalog).size) : Prop where
  isFixpoint : l.isFixpoint (reachedFlow (f.numbering catalog) f.blocks) = true
  edges : round.interference.edges = (reachedFlow (f.numbering catalog) f.blocks).edges l coalesce
  moves : round.interference.moves = (reachedFlow (f.numbering catalog) f.blocks).moves coalesce
  graph : round.interference.graph =
    Graph.build f.vregCount round.interference.edges round.interference.moves
  attempt : Colouring.attempt (catalog.problem round.interference.moves) (cheapest round.costs)
    retired round.interference.graph = .ok round.colouring

theorem Routine.blockGraph_eq_ok {f : Routine} {g : BlockGraph f.blocks.length}
    (h : f.blockGraph = .ok g) : unknownLabel? f.blocks = none ∧ g = .ofBlocks f.blocks := by
  unfold blockGraph at h
  split at h
  · cases h
  · rename_i hnone
    cases h
    exact ⟨hnone, rfl⟩

/-- The analysis of a routine is that of the code that can be reached. -/
theorem Routine.analyze_eq_ok {f : Routine} {catalog : Catalog}
    {analysis : Analysis (f.numbering catalog).size}
    (h : f.analyze catalog (.ofBlocks f.blocks) = .ok analysis) :
    (Liveness.solve (reachedFlow (f.numbering catalog) f.blocks)).1.isFixpoint
        (reachedFlow (f.numbering catalog) f.blocks) = true ∧
      ∃ passes, analysis = ⟨_, reachedFlow (f.numbering catalog) f.blocks,
        (Liveness.solve (reachedFlow (f.numbering catalog) f.blocks)).1, passes⟩ := by
  obtain ⟨-, -, h⟩ := bind_eq_ok_iff.1 h
  simp only at h
  split at h
  · rename_i hfix
    cases h
    exact ⟨hfix, _, rfl⟩
  · cases h

/-- A bit matrix has room for fewer than `2 ^ 31` nodes. -/
theorem BitMatrix.checkRoom_eq (n : Nat) :
    checkRoom n = if n < UInt32.size / 2 then .ok () else .error .overflow := by
  have hiff : (n * n + 1) / 2 < UInt64.size / 8 ↔ n < UInt32.size / 2 := by
    rw [UInt64.size, UInt32.size]
    constructor
    · intro h
      by_contra hn
      have := Nat.mul_le_mul (not_lt.1 hn) (not_lt.1 hn)
      omega
    · intro h
      have hle : n ≤ 2147483647 := by omega
      have := Nat.mul_le_mul hle hle
      omega
  simp only [checkRoom, hiff]

/-- The interference is found only if there is room for it. -/
theorem Analysis.interference?_eq_ok {r : Nat} {a : Analysis r} {virtuals : Nat} {coalesce : Bool}
    {interference : Interference r}
    (h : a.interference? virtuals coalesce = .ok interference) :
    r < UInt32.size / 2 ∧ interference = a.interference virtuals coalesce := by
  obtain ⟨_, hroom, h⟩ := bind_eq_ok_iff.1 h
  cases h
  rw [BitMatrix.checkRoom_eq] at hroom
  split at hroom
  · exact ⟨‹_›, rfl⟩
  · cases hroom

/-- The live registers of a round are those that the search finds. -/
theorem Routine.isOf_solve {f : Routine} {catalog : Catalog} {coalesce : Bool} {retired : List Nat}
    {round : Round (f.numbering catalog).size}
    (h : f.round catalog (.ofBlocks f.blocks) coalesce retired = .ok round) :
    round.IsOf f catalog coalesce retired
      (Liveness.solve (reachedFlow (f.numbering catalog) f.blocks)).1 := by
  obtain ⟨analysis, hana, h⟩ := bind_eq_ok_iff.1 h
  obtain ⟨interference, hint, h⟩ := bind_eq_ok_iff.1 h
  obtain ⟨colouring, hcol, h⟩ := bind_eq_ok_iff.1 h
  cases h
  obtain ⟨hfix, passes, rfl⟩ := analyze_eq_ok hana
  obtain ⟨-, rfl⟩ := Analysis.interference?_eq_ok hint
  exact ⟨hfix, rfl, rfl, rfl, hcol⟩

theorem Routine.analysis_of_round {f : Routine} {catalog : Catalog} {coalesce : Bool}
    {retired : List Nat} {round : Round (f.numbering catalog).size}
    (h : f.round catalog (.ofBlocks f.blocks) coalesce retired = .ok round) :
    ∃ l passes, round.analysis = ⟨_, reachedFlow (f.numbering catalog) f.blocks, l, passes⟩ := by
  obtain ⟨analysis, hana, h⟩ := bind_eq_ok_iff.1 h
  obtain ⟨interference, -, h⟩ := bind_eq_ok_iff.1 h
  obtain ⟨colouring, -, h⟩ := bind_eq_ok_iff.1 h
  cases h
  obtain ⟨-, passes, rfl⟩ := analyze_eq_ok hana
  exact ⟨_, passes, rfl⟩

theorem Routine.exists_isOf {f : Routine} {catalog : Catalog} {coalesce : Bool} {retired : List Nat}
    {round : Round (f.numbering catalog).size}
    (h : f.round catalog (.ofBlocks f.blocks) coalesce retired = .ok round) :
    ∃ l, round.IsOf f catalog coalesce retired l :=
  ⟨_, isOf_solve h⟩

/-! ## The registers of an assignment -/

theorem lookup_of_assigned {assignment : List (Nat × PhysReg)} {v : Nat} {r : PhysReg}
    (h : assigned assignment (.virt v) = .phys r) : assignment.lookup v = some r := by
  cases hv : assignment.lookup v <;> simp_all [assigned]

/-- What is still virtual has not been assigned. -/
theorem eq_of_assigned {assignment : List (Nat × PhysReg)} {ρ : Reg} {v : Nat}
    (h : assigned assignment ρ = .virt v) : ρ = .virt v := by
  cases ρ with
  | virt w => cases hw : assignment.lookup w <;> simp_all [assigned]
  | phys r => cases h

namespace Colouring

variable {n m : Nat} {s : Colouring n m} {catalog : Catalog} {vs : List Nat}
  {assignment : List (Nat × PhysReg)}

theorem physical_eq_ok_iff {v : Nat} {r : PhysReg} : s.physical catalog v = .ok r ↔
    ∃ (h : v < n) (c : Nat), s.colour.get (s.rep ⟨v, h⟩) = some c ∧
      catalog.registers[c]? = some r := by
  unfold physical
  split
  · rename_i hv
    constructor
    · intro h
      split at h
      · cases h
      · rename_i c hc
        split at h
        · cases h
        · rename_i r' hr
          cases h
          exact ⟨hv, c, hc, hr⟩
    · rintro ⟨h, c, hc, hr⟩
      simp only [hc, hr]
  · rename_i hv
    constructor
    · intro h
      cases h
    · rintro ⟨hlt, -⟩
      exact absurd hlt hv

/-- What is assigned is the physical register. -/
theorem physical_of_lookup (h : s.assignment catalog vs = .ok assignment) {v : Nat} {r : PhysReg}
    (hr : assignment.lookup v = some r) : s.physical catalog v = .ok r := by
  induction vs generalizing assignment with
  | nil =>
    cases h
    cases hr
  | cons w vs ih =>
    rw [Colouring.assignment, List.mapM_cons] at h
    obtain ⟨b, hb, h⟩ := bind_eq_ok_iff.1 h
    obtain ⟨bs, hbs, h⟩ := bind_eq_ok_iff.1 h
    cases h
    cases hw : s.physical catalog w with
    | error e =>
      rw [hw] at hb
      cases hb
    | ok r' =>
      rw [hw] at hb
      cases hb
      rw [List.lookup_cons] at hr
      split at hr
      · rename_i he
        cases hr
        rwa [beq_iff_eq.1 he]
      · exact ih hbs hr

/-- All of them are assigned something. -/
theorem exists_lookup (h : s.assignment catalog vs = .ok assignment) {v : Nat} (hv : v ∈ vs) :
    ∃ r, assignment.lookup v = some r := by
  obtain ⟨p, hp, hphys⟩ := exists_of_forall₂ (forall₂_of_mapM h).flip hv
  have hkey : p.1 = v := by
    cases hr : s.physical catalog v <;> rw [hr] at hphys <;> cases hphys
    rfl
  rw [← Option.isSome_iff_exists, Option.isSome_iff_ne_none]
  intro hnone
  have hne := List.lookup_eq_none_iff.1 hnone p hp
  simp [hkey] at hne

theorem exists_assignment (h : ∀ v ∈ vs, ∃ r, s.physical catalog v = .ok r) :
    ∃ assignment, s.assignment catalog vs = .ok assignment := by
  induction vs with
  | nil => exact ⟨[], rfl⟩
  | cons w vs ih =>
    obtain ⟨r, hr⟩ := h w List.mem_cons_self
    obtain ⟨bs, hbs⟩ := ih fun v hv ↦ h v (List.mem_cons_of_mem _ hv)
    refine ⟨(w, r) :: bs, ?_⟩
    unfold Colouring.assignment at hbs ⊢
    rw [List.mapM_cons, hr, hbs]
    rfl

end Colouring

theorem Routine.mem_occurring {f : Routine} {v : Nat} :
    v ∈ f.occurring ↔ ∃ i ∈ f.instrs, .virt v ∈ i.uses ++ i.defs := by
  simp only [occurring, List.mem_mergeSort, mem_distinct, List.mem_flatMap, List.mem_filterMap,
    Reg.vreg?_eq_some_iff, exists_eq_right]

theorem Instr.eq_mv_of_move? {i : Instr} {rd rs : Reg} (h : i.move? = some (rd, rs)) :
    i = .mv rd rs := by
  cases i <;> cases h
  rfl

namespace Round.IsOf

variable {f : Routine} {catalog : Catalog} {coalesce : Bool} {retired : List Nat}
  {l : Liveness (f.numbering catalog).size
    (Flow.sites (reachedCode f.blocks (.ofBlocks f.blocks))).length}
  {round : Round (f.numbering catalog).size} {assignment : List (Nat × PhysReg)}
  {ρ σ : Reg} {u v : Fin (f.numbering catalog).size}

theorem virtuals (h : round.IsOf f catalog coalesce retired l) :
    round.interference.graph.virtuals = f.vregCount := by
  rw [h.graph]
  exact Graph.build_virtuals _ _ _

theorem settled_start (h : round.IsOf f catalog coalesce retired l) :
    Colouring.Settled (catalog.problem round.interference.moves)
      (Colouring.start round.interference.graph) := by
  rw [h.graph]
  exact Colouring.settled_start_build catalog f.vregCount _ _

/-- What has come before the colours. -/
theorem exists_isDone (h : round.IsOf f catalog coalesce retired l) :
    ∃ s, Colouring.IsDone (catalog.problem round.interference.moves) round.interference.graph
        retired s ∧
      Colouring.Selects (catalog.problem round.interference.moves) s round.colouring := by
  obtain ⟨_, s, -, -, -, hdone, hsel⟩ := Colouring.isDone_of_attempt h.settled_start h.attempt
  exact ⟨s, hdone, hsel⟩

theorem isValid (h : round.IsOf f catalog coalesce retired l) (hc : catalog.WellFormed) :
    Colouring.IsValid catalog round.interference.graph round.colouring := by
  obtain ⟨s, hdone, hsel⟩ := h.exists_isDone
  exact hsel.isValid hc hdone.settled hdone.grows

/-- A register that is assigned has its position as the colour of its node. -/
theorem colour_of_assigned (h : round.IsOf f catalog coalesce retired l) (hc : catalog.WellFormed)
    (hasg : round.colouring.assignment catalog f.occurring = .ok assignment)
    (hρ : (f.numbering catalog).Knows ρ) (hu : (f.numbering catalog).node? ρ = some u)
    {r : PhysReg} (hr : assigned assignment ρ = .phys r) :
    round.colouring.colour.get u = some r.index := by
  cases ρ with
  | virt v =>
    rw [Numbering.node?_virt hρ, Option.some.injEq] at hu
    obtain ⟨hv, c, hcol, hreg⟩ :=
      Colouring.physical_eq_ok_iff.1 (Colouring.physical_of_lookup hasg (lookup_of_assigned hr))
    obtain ⟨s, -, hsel⟩ := h.exists_isDone
    rw [hsel.rep, ← hsel.colour_eq] at hcol
    rw [← hu, hcol, hc.index_eq hreg]
  | phys r' =>
    cases hr
    obtain ⟨hlt, hr⟩ := Numbering.node?_phys hc hρ
    rw [hr, Option.some.injEq] at hu
    have hcol := (h.isValid hc).colour_precoloured u (by
      rw [Graph.isPrecoloured, h.virtuals, ← hu, decide_eq_true_eq]
      exact Nat.le_add_right _ _)
    rw [hcol, h.virtuals, ← hu]
    exact congrArg some (Nat.add_sub_cancel_left _ _)

/-- Registers that interfere are not assigned the same one. -/
theorem eq_of_mem_edges (h : round.IsOf f catalog coalesce retired l) (hc : catalog.WellFormed)
    (hasg : round.colouring.assignment catalog f.occurring = .ok assignment)
    (hρ : (f.numbering catalog).Knows ρ) (hσ : (f.numbering catalog).Knows σ)
    (hu : (f.numbering catalog).node? ρ = some u) (hv : (f.numbering catalog).node? σ = some v)
    (he : (u, v) ∈ (reachedFlow (f.numbering catalog) f.blocks).edges l coalesce)
    (heq : assigned assignment ρ = assigned assignment σ) : ρ = σ := by
  by_contra hne
  have huv : u ≠ v := fun huv ↦ hne (hρ.eq_of_node? hc hσ hu (huv ▸ hv))
  have hint : round.interference.graph.interferes u v = true := by
    rw [h.graph, Graph.interferes_build, h.edges]
    exact ⟨huv, .inl he⟩
  cases hr : assigned assignment ρ with
  | virt w => exact hne ((eq_of_assigned hr).trans (eq_of_assigned (heq ▸ hr)).symm)
  | phys r =>
    have hvalid := h.isValid hc
    exact hvalid.ne_of_interferes u v r.index (hvalid.interferes_of_interferes u v hint)
      (h.colour_of_assigned hc hasg hρ hu hr)
      (h.colour_of_assigned hc hasg hσ hv (heq ▸ hr))

/-! ## Every register that occurs is assigned -/

/-- The instruction that a move stands for. Its registers are the ends of the move. -/
theorem exists_site_of_mem_moves (h : round.IsOf f catalog coalesce retired l)
    {move : Move (f.numbering catalog).size} (hmem : move ∈ round.interference.moves) :
    ∃ j : Fin (Flow.sites (reachedCode f.blocks (.ofBlocks f.blocks))).length, move.node = j ∧
      ∃ rd rs, ((Flow.sites (reachedCode f.blocks (.ofBlocks f.blocks))).get j).instr = .mv rd rs ∧
        (f.numbering catalog).node? rd = some move.dst ∧
        (f.numbering catalog).node? rs = some move.src := by
  rw [h.moves, Flow.mem_moves_iff] at hmem
  obtain ⟨-, j, hj, hmove⟩ := hmem
  rw [get_reachedFlow] at hmove
  obtain ⟨⟨rd, rs⟩, hmv, hpair⟩ := Option.bind_eq_some_iff.1 hmove
  obtain ⟨d, hd, hpair⟩ := Option.bind_eq_some_iff.1 hpair
  obtain ⟨e, he, hpair⟩ := Option.bind_eq_some_iff.1 hpair
  cases hpair
  exact ⟨j, hj, rd, rs, Instr.eq_mv_of_move? hmv, hd, he⟩

/-- The two ends of a move are registers of the code. -/
theorem exists_reg_of_isEnd (h : round.IsOf f catalog coalesce retired l)
    (hu : Colouring.IsEnd (catalog.problem round.interference.moves) u) :
    ∃ i ∈ f.instrs, ∃ ρ ∈ i.uses ++ i.defs, (f.numbering catalog).node? ρ = some u := by
  obtain ⟨k, hk⟩ := hu
  rw [Colouring.problem_moves_get] at hk
  obtain ⟨j, -, rd, rs, hinstr, hd, hs⟩ := h.exists_site_of_mem_moves (List.get_mem _ k)
  refine ⟨.mv rd rs, hinstr ▸ Flow.mem_instrs_of_mem_sites (List.get_mem _ j), ?_⟩
  rcases hk with rfl | rfl
  · exact ⟨rd, by simp [Instr.uses, Instr.defs], hd⟩
  · exact ⟨rs, by simp [Instr.uses, Instr.defs], hs⟩

/-- The node of a virtual register of the code is to be coloured, if it is not retired. -/
theorem mem_unretired (h : round.IsOf f catalog coalesce retired l) (hc : catalog.WellFormed)
    (hf : f.IsOver catalog) (hret : ∀ v ∈ f.occurring, v ∉ retired) {i : Instr}
    (hi : i ∈ f.instrs) (hρ : ρ ∈ i.uses ++ i.defs) (hu : (f.numbering catalog).node? ρ = some u)
    (hpre : round.interference.graph.isPrecoloured u = false) :
    u ∈ Colouring.unretired round.interference.graph retired := by
  refine List.mem_filter.2 ⟨List.mem_finRange u, ?_⟩
  cases ρ with
  | virt v =>
    have hocc := hret v (Routine.mem_occurring.2 ⟨i, hi, hρ⟩)
    rw [Numbering.node?_virt (hf i hi _ hρ), Option.some.injEq] at hu
    rw [hpre, ← hu]
    simpa using hocc
  | phys r =>
    obtain ⟨_, hr⟩ := Numbering.node?_phys hc (hf i hi _ hρ)
    rw [hr, Option.some.injEq] at hu
    rw [Graph.isPrecoloured, h.virtuals, ← hu] at hpre
    simp [Routine.numbering] at hpre

/-- If nothing is spilled, every register that occurs and is not retired has a colour. -/
theorem exists_colour (h : round.IsOf f catalog coalesce retired l) (hc : catalog.WellFormed)
    (hf : f.IsOver catalog) (hspills : round.spills = [])
    (hret : ∀ v ∈ f.occurring, v ∉ retired) {i : Instr} (hi : i ∈ f.instrs)
    (hρ : ρ ∈ i.uses ++ i.defs) (hu : (f.numbering catalog).node? ρ = some u) :
    ∃ c < catalog.size, round.colouring.colour.get (round.colouring.rep u) = some c := by
  obtain ⟨s, hdone, hsel⟩ := h.exists_isDone
  have hsound := hdone.settled.sound
  have hroot := hsound.aliases.isRoot_rep u
  rw [hsel.rep]
  by_cases hstack : s.rep u ∈ s.work.stack
  · rcases hsel.colour_stack _ hstack with ⟨-, c, hcol, hisc⟩ | ⟨hspilled, -⟩
    · rw [Colouring.isColour_problem hc, Catalog.isColour, Bool.and_eq_true,
        decide_eq_true_eq, decide_eq_true_eq] at hisc
      exact ⟨c, hisc.2, hcol⟩
    · have hmem : (s.rep u).val ∈ round.spills :=
        List.mem_mergeSort.2 (List.mem_map_of_mem ((hsel.mem_spilled _).2 hspilled))
      rw [hspills] at hmem
      exact absurd hmem List.not_mem_nil
  · rw [hsel.colour_root _ hstack hroot, Graph.precolour?]
    have hv : s.graph.virtuals = round.interference.graph.virtuals := hdone.grows.virtuals
    split
    · refine ⟨_, ?_, rfl⟩
      have hlt : (s.rep u).val < f.vregCount + catalog.size := (s.rep u).isLt
      rename_i hpre
      rw [Graph.isPrecoloured, decide_eq_true_eq] at hpre
      rw [h.virtuals] at hv
      omega
    · rename_i hpre
      exfalso
      have hpre : s.graph.isPrecoloured (s.rep u) = false := by simpa using hpre
      obtain ⟨j, hj, σ, hσ, hrep⟩ : ∃ j ∈ f.instrs, ∃ σ ∈ j.uses ++ j.defs,
          (f.numbering catalog).node? σ = some (s.rep u) := by
        rcases hsound.aliases.rep_eq_or u with he | ⟨y, hy⟩
        · exact ⟨i, hi, ρ, hρ, by rw [hu, he]⟩
        · exact h.exists_reg_of_isEnd (hsound.isEnd_of_coalesced hy)
      refine hdone.node_ne_initial _ (h.mem_unretired hc hf hret hj hσ hrep ?_)
        (hdone.node_eq_initial hroot hstack hpre)
      rwa [Graph.isPrecoloured, ← hv]

theorem exists_assignment (h : round.IsOf f catalog coalesce retired l) (hc : catalog.WellFormed)
    (hf : f.IsOver catalog) (hspills : round.spills = [])
    (hret : ∀ v ∈ f.occurring, v ∉ retired) :
    ∃ assignment, round.colouring.assignment catalog f.occurring = .ok assignment := by
  refine Colouring.exists_assignment fun v hv ↦ ?_
  obtain ⟨i, hi, hρ⟩ := Routine.mem_occurring.1 hv
  have hknows : v < f.vregCount := hf i hi _ hρ
  obtain ⟨c, hlt, hcol⟩ := h.exists_colour hc hf hspills hret hi hρ (Numbering.node?_virt hknows)
  exact ⟨_, Colouring.physical_eq_ok_iff.2 ⟨_, c, hcol, List.getElem?_eq_getElem hlt⟩⟩

end Round.IsOf

/-! ## Code over physical registers -/

/-- All the registers are physical ones of the catalog. -/
def Instr.IsPhysical (catalog : Catalog) (i : Instr) : Prop :=
  ∀ ρ ∈ i.uses ++ i.defs, ∃ r ∈ catalog.registers, ρ = .phys r

theorem Instr.IsPhysical.notMem {catalog : Catalog} {i : Instr} (h : i.IsPhysical catalog)
    (v : Nat) : .virt v ∉ i.uses ++ i.defs := by
  intro hv
  obtain ⟨r, -, hr⟩ := h _ hv
  cases hr

namespace Routine

variable {f : Routine} {catalog : Catalog} {assignment : List (Nat × PhysReg)} {i j : Instr}

theorem instrs_assign (f : Routine) (assignment : List (Nat × PhysReg)) :
    (f.assign assignment).instrs = assignedCode assignment f.instrs := by
  rw [instrs, instrs, assignedCode, List.map_flatMap, List.filter_flatMap, assign, List.flatMap_map]
  rfl

theorem mem_instrs_assign : j ∈ (f.assign assignment).instrs ↔
    (∃ i ∈ f.instrs, i.mapRegs (assigned assignment) = j) ∧ j.isSelfMove = false := by
  rw [instrs_assign, assignedCode, List.mem_filter, List.mem_map, Bool.not_eq_true']

/-- Every register that occurs is assigned a physical one. -/
theorem IsFor.exists_assigned (hf : f.IsFor catalog) {n m : Nat} {s : Colouring n m}
    (h : s.assignment catalog f.occurring = .ok assignment) (hi : i ∈ f.instrs) {ρ : Reg}
    (hρ : ρ ∈ i.uses ++ i.defs) :
    ∃ r ∈ catalog.registers, assigned assignment ρ = .phys r := by
  cases ρ with
  | virt v =>
    obtain ⟨r, hr⟩ := Colouring.exists_lookup h (mem_occurring.2 ⟨i, hi, hρ⟩)
    obtain ⟨-, c, -, hc⟩ := Colouring.physical_eq_ok_iff.1 (Colouring.physical_of_lookup h hr)
    refine ⟨r, List.mem_of_getElem? hc, ?_⟩
    rw [assigned, hr]
  | phys r => exact ⟨r, hf i hi r hρ, rfl⟩

theorem isPhysical_of_assignment (hf : f.IsFor catalog) {n m : Nat} {s : Colouring n m}
    (h : s.assignment catalog f.occurring = .ok assignment)
    (hj : j ∈ (f.assign assignment).instrs) : j.IsPhysical catalog := by
  obtain ⟨⟨i, hi, rfl⟩, -⟩ := mem_instrs_assign.1 hj
  intro ρ hρ
  rw [Instr.uses_mapRegs, Instr.defs_mapRegs, ← List.map_append] at hρ
  obtain ⟨ρ₀, hρ₀, rfl⟩ := List.mem_map.1 hρ
  exact hf.exists_assigned h hi hρ₀

end Routine

end RegAlloc

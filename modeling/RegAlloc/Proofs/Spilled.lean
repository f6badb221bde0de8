import Mathlib
import RegAlloc.Proofs.Allocation
import RegAlloc.Proofs.Colouring.Conservative

/-!
# Registers that are spilled occur

A node without neighbours finds a colour as long as there is one to hand out, so a node that is
spilled has a neighbour. Coalescing gives edges to nodes that are ends of moves, or had some before.
So a node that is spilled is an end of a move or has an edge from the start, and all of these are
nodes of registers that stand in the code.
-/

namespace RegAlloc

namespace Colouring

variable {n m : Nat} {p : ColouringProblem n m} {g : Graph n (Fin m)} {retired : List Nat}
  {s s' : Colouring n m} {u : Fin n}

/-- The node is an end of an edge or of a move. -/
def TakesPart (p : ColouringProblem n m) (g : Graph n (Fin m)) (u : Fin n) : Prop :=
  (∃ v, g.interferes u v = true) ∨ IsEnd p u

/-- Edges are only between nodes that take part from the start. -/
def StaysWithin (p : ColouringProblem n m) (g : Graph n (Fin m)) (s : Colouring n m) : Prop :=
  ∀ a b, s.graph.interferes a b = true → TakesPart p g a

namespace StaysWithin

theorem shifts (h : StaysWithin p g s) (hsh : Shifts (fun _ _ ↦ False) s s') :
    StaysWithin p g s' := by
  intro a b hab
  exact h a b (((hsh.interferes a b).1 hab).resolve_right id)

theorem coalesces (h : StaysWithin p g s) (hset : Settled p s) {v : Fin n}
    (hc : Coalesces p s s' u v) : StaysWithin p g s' := by
  intro a b hab
  rcases (hc.interferes_iff hset a b).1 hab with hab | ⟨rfl, -⟩ | ⟨-, ha⟩
  · exact h a b hab
  · exact .inr hc.isEnd
  · have hva := ((hset.mem_adjacent (hc.not_isPrecoloured hset)).1 ha).1
    rw [Graph.interferes_comm] at hva
    exact h a v hva

theorem change (h : StaysWithin p g s) (hset : Settled p s) (hc : Change p s s') :
    StaysWithin p g s' := by
  cases hc with
  | select u hu hst =>
    have hsel : StaysWithin p g (s.setNode u .selected) := h
    exact hsel.shifts hst.toShifts
  | stir hst => exact h.shifts hst.toShifts
  | wait i hi hsh hm => exact h.shifts hsh
  | coalesce u v hc => exact h.coalesces hset hc
  | choose u hu hs hf hst =>
    have hnote : StaysWithin p g (s.note (.potentialSpill u (s.graph.degree.get u))) := h
    exact hnote.shifts hst.toShifts

end StaysWithin

theorem Reachable.staysWithin (h₀ : Settled p (Colouring.start g)) (h : Reachable p g retired s) :
    StaysWithin p g s := by
  induction h with
  | start hok =>
    have hst : Stirs (Colouring.start g) _ := .makeWorklist (fun _ _ ↦ start_isPresent _) hok
    have hstart : StaysWithin p g (Colouring.start g) := fun a b hab ↦ .inl ⟨b, hab⟩
    exact hstart.shifts hst.toShifts
  | step h choose hs ih =>
    have hset := (h.settled h₀).1
    exact ih.change hset (hset.change hs)

/-- Where there is a colour to hand out, a node that does not see few others has a neighbour. -/
theorem exists_mem_adjacency_of_not_seesFew (hk : 0 < p.k) (h : ¬SeesFew p s u) :
    ∃ w, w ∈ s.graph.adjacency.get u := by
  by_contra hnone
  refine h ⟨∅, by simpa using hk, fun w hw ↦ ?_⟩
  exact absurd ⟨w, hw⟩ hnone

/-- An attempt spills each node once at most, and only such as take part. -/
theorem spilled_of_attempt {choose : SpillChoice n m} (h₀ : Settled p (Colouring.start g))
    (hk : 0 < p.k) (hok : attempt p choose retired g = .ok s') :
    s'.work.spilled.Nodup ∧ ∀ u ∈ s'.work.spilled, TakesPart p g u := by
  obtain ⟨s₁, s₂, hok₁, hok₂, hok₃, hdone, -⟩ := isDone_of_attempt h₀ hok
  obtain ⟨count, hsteps, -⟩ := steps_of_runWithin hok₂
  have hwithin := (hsteps.reachable (.start hok₁)).staysWithin h₀
  have hmirror := hdone.settled.sound.mirror
  obtain ⟨hsub, hfew⟩ :=
    hdone.settled.spilled_assignColours ((IsPlain.start _).grows hdone.grows) hok₃
  refine ⟨hmirror.nodup_stack.sublist hsub, fun u hu ↦ ?_⟩
  obtain ⟨w, hw⟩ := exists_mem_adjacency_of_not_seesFew hk (hfew u hu)
  have hnode := (hmirror.mem_stack u).1 (hsub.subset hu)
  have hpre := hdone.settled.sound.not_isPrecoloured (u := u) (by simp [hnode])
  exact hwithin u w ((hdone.settled.sound.faithful.mem_adjacency hpre w).1 hw)

end Colouring

/-! ## Edges come from the code -/

/-- The register stands in the code of a routine. -/
def Routine.Mentions (f : Routine) (ρ : Reg) : Prop :=
  ∃ i ∈ f.instrs, ρ ∈ i.uses ++ i.defs

namespace Flow

variable {f : Routine} {catalog : Catalog} {u v : Fin (f.numbering catalog).size}

/-- The node of a register that stands in the code. -/
def IsNodeOf (f : Routine) (catalog : Catalog) (u : Fin (f.numbering catalog).size) : Prop :=
  ∃ ρ, f.Mentions ρ ∧ (f.numbering catalog).node? ρ = some u

theorem isNodeOf_of_mem {k : Fin (sites (reachedCode f.blocks (.ofBlocks f.blocks))).length}
    (hu : u ∈ ((reachedFlow (f.numbering catalog) f.blocks).get k).uses ∨
      u ∈ ((reachedFlow (f.numbering catalog) f.blocks).get k).defs) : IsNodeOf f catalog u := by
  rw [get_reachedFlow] at hu
  have hinstr := mem_instrs_of_mem_sites
    (List.get_mem (sites (reachedCode f.blocks (.ofBlocks f.blocks))) k)
  rcases hu with hu | hu
  · obtain ⟨ρ, hρ, hu⟩ := List.mem_filterMap.1 hu
    exact ⟨ρ, ⟨_, hinstr, List.mem_append_left _ hρ⟩, hu⟩
  · obtain ⟨ρ, hρ, hu⟩ := List.mem_filterMap.1 hu
    exact ⟨ρ, ⟨_, hinstr, List.mem_append_right _ hρ⟩, hu⟩

/-- What is live behind an instruction is read somewhere. -/
theorem isNodeOf_of_mem_liveOut
    {k : Fin (sites (reachedCode f.blocks (.ofBlocks f.blocks))).length}
    (hu : u ∈ (Liveness.solve (reachedFlow (f.numbering catalog) f.blocks)).1.liveOut.get k) :
    IsNodeOf f catalog u := by
  obtain ⟨j, -, hlive⟩ := (Liveness.isTrue_solve _).out k u hu
  obtain ⟨i, hi⟩ := hlive.exists_mem_uses
  exact isNodeOf_of_mem (.inl hi)

theorem isNodeOf_of_mem_edges {coalesce : Bool}
    (h : (u, v) ∈ (reachedFlow (f.numbering catalog) f.blocks).edges
      (Liveness.solve (reachedFlow (f.numbering catalog) f.blocks)).1 coalesce) :
    IsNodeOf f catalog u ∧ IsNodeOf f catalog v := by
  obtain ⟨k, -, hk⟩ := List.mem_flatMap.1 h
  rcases List.mem_append.1 hk with hk | hk
  · obtain ⟨d, hd, hk⟩ := List.mem_flatMap.1 hk
    obtain ⟨x, hx, he⟩ := List.mem_map.1 hk
    obtain ⟨rfl, rfl⟩ := Prod.mk.inj he
    refine ⟨?_, isNodeOf_of_mem (.inr hd)⟩
    rw [BitSet.mem_toList, BitSet.mem_insertAll] at hx
    rcases hx with hx | hx
    · refine isNodeOf_of_mem_liveOut (k := k) ?_
      split at hx
      · exact (BitSet.mem_eraseAll.1 hx).1
      · exact hx
    · exact isNodeOf_of_mem (.inr hx)
  · rw [Option.mem_toList, get_reachedFlow] at hk
    obtain ⟨⟨ρ, σ⟩, hstore, hpair⟩ := Option.bind_eq_some_iff.1 hk
    obtain ⟨a, ha, hpair⟩ := Option.bind_eq_some_iff.1 hpair
    obtain ⟨b, hb, hpair⟩ := Option.bind_eq_some_iff.1 hpair
    cases hpair
    have hinstr := mem_instrs_of_mem_sites
      (List.get_mem (sites (reachedCode f.blocks (.ofBlocks f.blocks))) k)
    obtain ⟨hρ, hσ⟩ := Instr.mem_of_symbolicStore? hstore
    exact ⟨⟨ρ, ⟨_, hinstr, hρ⟩, ha⟩, ⟨σ, ⟨_, hinstr, hσ⟩, hb⟩⟩

end Flow

namespace Routine

variable {f : Routine} {catalog : Catalog} {coalesce : Bool} {retired : List Nat}
  {round : Round (f.numbering catalog).size}

theorem mem_occurring_of_isNodeOf {u : Fin (f.numbering catalog).size}
    (h : Flow.IsNodeOf f catalog u) (hu : u.val < f.vregCount) : u.val ∈ f.occurring := by
  obtain ⟨ρ, hρ, hnode⟩ := h
  cases ρ with
  | virt v =>
    obtain ⟨hv, he⟩ := Option.dite_none_right_eq_some.1 hnode
    cases he
    exact mem_occurring.2 hρ
  | phys r =>
    obtain ⟨hr, he⟩ := Option.dite_none_right_eq_some.1 hnode
    cases he
    exact absurd hu (not_lt.2 (Nat.le_add_right _ _))

/-- A round spills each register once at most, and only such as occur. -/
theorem spills_of_round (h : f.round catalog (.ofBlocks f.blocks) coalesce retired = .ok round)
    (hk : 0 < catalog.colourCount) :
    round.spills.Nodup ∧ ∀ v ∈ round.spills, v ∈ f.occurring := by
  have hof := isOf_solve h
  obtain ⟨hnd, htakes⟩ := Colouring.spilled_of_attempt hof.settled_start hk hof.attempt
  constructor
  · exact (List.mergeSort_perm _ _).nodup_iff.2 (hnd.map Fin.val_injective)
  · intro v hv
    have hlt := hof.lt_of_mem_spills hv
    obtain ⟨u, hu, rfl⟩ := List.mem_map.1 (List.mem_mergeSort.1 hv)
    refine mem_occurring_of_isNodeOf ?_ hlt
    rcases htakes u hu with ⟨w, hw⟩ | hend
    · rw [hof.graph, Graph.interferes_build, hof.edges] at hw
      rcases hw.2 with he | he
      · exact (Flow.isNodeOf_of_mem_edges he).1
      · exact (Flow.isNodeOf_of_mem_edges he).2
    · obtain ⟨i, hi, ρ, hρ, hnode⟩ := hof.exists_reg_of_isEnd hend
      exact ⟨ρ, ⟨i, hi, hρ⟩, hnode⟩

end Routine

end RegAlloc

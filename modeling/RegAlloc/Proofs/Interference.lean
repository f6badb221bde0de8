import Mathlib
import RegAlloc.Analysis
import RegAlloc.Proofs.Graph

/-!
# What interferes in a function

An interference graph is built node by node, from sets of live registers that are changed on the
way, and its edges are bits of a packed row. What it says in the end is a relation between
registers: `Flow.Clashes` gives the reasons why a node keeps two registers apart, and two registers
interfere if there is such a node. Nothing else is an edge, since an edge too many keeps registers
from being coalesced.
-/

namespace RegAlloc

namespace Flow

variable {r n : Nat} {node : FlowNode r n} {out : BitSet r} {coalesce : Bool} {d l : Fin r}

/-- Why a node keeps two registers apart, by what is live behind it. If moves are coalesced, what a
move reads does not count as live. -/
inductive Clashes (node : FlowNode r n) (out : BitSet r) (coalesce : Bool) : Fin r → Fin r → Prop
  /-- Both are defined. -/
  | define {d l : Fin r} (hd : d ∈ node.defs) (hl : l ∈ node.defs) : Clashes node out coalesce d l
  /-- One is defined while the other is live. -/
  | live {d l : Fin r} (hd : d ∈ node.defs) (hl : l ∈ out)
    (hmove : coalesce = true → node.move?.isSome = true → l ∉ node.uses) :
    Clashes node out coalesce d l
  /-- They are the address register and the value of a store to a symbol. -/
  | store {base value : Fin r} (h : node.symbolicStore? = some (base, value)) :
    Clashes node out coalesce base value

/-! ## Edges -/

/-- What is taken to be live behind a node, besides what it defines. -/
theorem mem_live_iff :
    l ∈ (if coalesce && node.move?.isSome then out.eraseAll node.uses else out) ↔
      l ∈ out ∧ (coalesce = true → node.move?.isSome = true → l ∉ node.uses) := by
  by_cases h : (coalesce && node.move?.isSome) = true
  · rw [if_pos h, BitSet.mem_eraseAll]
    rw [Bool.and_eq_true] at h
    simp [h.1, h.2]
  · rw [if_neg h]
    rw [Bool.and_eq_true, not_and] at h
    constructor
    · exact fun hl ↦ ⟨hl, fun hc hm ↦ absurd hm (h hc)⟩
    · exact And.left

/-- A definition comes second in its pairs, the address register first. -/
theorem mem_nodeEdges_iff : (l, d) ∈ nodeEdges node out coalesce ↔
    (d ∈ node.defs ∧ (l ∈ node.defs ∨ (l ∈ out ∧
      (coalesce = true → node.move?.isSome = true → l ∉ node.uses)))) ∨
    node.symbolicStore? = some (l, d) := by
  simp only [nodeEdges, List.mem_append, List.mem_flatMap, List.mem_map, BitSet.mem_toList,
    BitSet.mem_insertAll, mem_live_iff, Prod.mk.injEq, Option.mem_toList]
  refine or_congr_left ⟨?_, ?_⟩
  · rintro ⟨_, hd, _, hl, rfl, rfl⟩
    exact ⟨hd, hl.symm⟩
  · rintro ⟨hd, hl⟩
    exact ⟨d, hd, l, hl.symm, rfl, rfl⟩

theorem clashes_iff : Clashes node out coalesce d l ↔
    (d ∈ node.defs ∧ (l ∈ node.defs ∨ (l ∈ out ∧
      (coalesce = true → node.move?.isSome = true → l ∉ node.uses)))) ∨
    node.symbolicStore? = some (d, l) := by
  constructor
  · rintro (⟨hd, hl⟩ | ⟨hd, hl, hmove⟩ | h)
    · exact .inl ⟨hd, .inl hl⟩
    · exact .inl ⟨hd, .inr ⟨hl, hmove⟩⟩
    · exact .inr h
  · rintro (⟨hd, hl | ⟨hl, hmove⟩⟩ | h)
    · exact .define hd hl
    · exact .live hd hl hmove
    · exact .store h

/-- A pair of a node, in one order or the other, is a clash there. -/
theorem mem_nodeEdges_or_iff {u v : Fin r} :
    (u, v) ∈ nodeEdges node out coalesce ∨ (v, u) ∈ nodeEdges node out coalesce ↔
      Clashes node out coalesce u v ∨ Clashes node out coalesce v u := by
  rw [mem_nodeEdges_iff, mem_nodeEdges_iff, clashes_iff, clashes_iff]
  tauto

theorem mem_edges_iff {flow : Flow r n} {l : Liveness r n} {e : Fin r × Fin r} :
    e ∈ flow.edges l coalesce ↔ ∃ i, e ∈ nodeEdges (flow.get i) (l.liveOut.get i) coalesce := by
  simp [edges, order]

end Flow

/-! ## Moves -/

namespace Move

variable {r : Nat}

theorem perm_insert (m : Move r) (ms : List (Move r)) : (m.insert ms).Perm (m :: ms) := by
  fun_induction m.insert ms with
  | case1 => exact .rfl
  | case2 => exact .rfl
  | case3 m' ms _ ih => exact (ih.cons m').trans (.swap m m' ms)

/-- A move is put where it belongs among moves that are in order. -/
theorem pairwise_insert {m : Move r} {ms : List (Move r)}
    (h : ms.Pairwise fun m m' ↦ m.node ≤ m'.node) :
    (m.insert ms).Pairwise fun m m' ↦ m.node ≤ m'.node := by
  fun_induction m.insert ms with
  | case1 => exact List.pairwise_singleton _ _
  | case2 m' ms hle =>
    refine List.pairwise_cons.2 ⟨fun m'' hm'' ↦ ?_, h⟩
    rcases List.mem_cons.1 hm'' with rfl | hm''
    · exact hle
    · exact hle.trans (List.rel_of_pairwise_cons h hm'')
  | case3 m' ms hlt ih =>
    refine List.pairwise_cons.2 ⟨fun m'' hm'' ↦ ?_, ih h.of_cons⟩
    rcases List.mem_cons.1 ((perm_insert m ms).mem_iff.1 hm'') with rfl | hm''
    · exact (not_le.1 hlt).le
    · exact List.rel_of_pairwise_cons h hm''

/-- What has been sorted so far is in order, and the rest is still to come. -/
theorem foldl_insert (ms sorted : List (Move r))
    (h : sorted.Pairwise fun m m' ↦ m.node ≤ m'.node) :
    (ms.foldl (fun sorted m ↦ m.insert sorted) sorted).Perm (ms ++ sorted) ∧
      (ms.foldl (fun sorted m ↦ m.insert sorted) sorted).Pairwise
        fun m m' ↦ m.node ≤ m'.node := by
  induction ms generalizing sorted with
  | nil => exact ⟨.rfl, h⟩
  | cons m ms ih =>
    obtain ⟨hperm, hsorted⟩ := ih (m.insert sorted) (pairwise_insert h)
    refine ⟨hperm.trans ?_, hsorted⟩
    exact ((perm_insert m sorted).append_left ms).trans List.perm_middle

theorem perm_sort (ms : List (Move r)) : (sort ms).Perm ms := by
  have h := (foldl_insert ms [] .nil).1
  rwa [List.append_nil] at h

/-- Moves of different nodes are strictly in order once they are sorted. -/
theorem pairwise_lt_sort {ms : List (Move r)} (h : ms.Pairwise fun m m' ↦ m.node ≠ m'.node) :
    (sort ms).Pairwise fun m m' ↦ m.node < m'.node := by
  have hle := (foldl_insert ms [] .nil).2
  have hne := (perm_sort ms).symm.pairwise h fun h ↦ h.symm
  exact (hle.and hne).imp fun h ↦ lt_of_le_of_ne h.1 h.2

end Move

namespace Flow

variable {r n : Nat} {coalesce : Bool}

/-- The moves are those of the nodes, if they are coalesced at all. -/
theorem mem_moves_iff {flow : Flow r n} {m : Move r} : m ∈ flow.moves coalesce ↔
    coalesce = true ∧ ∃ i : Fin n, m.node = i ∧ (flow.get i).move? = some (m.dst, m.src) := by
  unfold moves
  split
  · rename_i hc
    simp only [(Move.perm_sort _).mem_iff, order, List.mem_filterMap, List.mem_reverse,
      List.mem_finRange, true_and, Option.map_eq_some_iff, hc]
    constructor
    · rintro ⟨i, ⟨dst, src⟩, hmove, rfl⟩
      exact ⟨i, rfl, hmove⟩
    · rintro ⟨i, hnode, hmove⟩
      refine ⟨i, _, hmove, ?_⟩
      rw [← hnode]
  · rename_i hc
    simp [hc]

/-- The moves are met from the last to the first, one at most in each node, and are in program order
once they are sorted. -/
theorem pairwise_moves (flow : Flow r n) (coalesce : Bool) :
    (flow.moves coalesce).Pairwise fun m m' ↦ m.node < m'.node := by
  unfold moves
  split
  · have hnodup : flow.order.Pairwise (· ≠ ·) := List.nodup_reverse.2 (List.nodup_finRange n)
    refine Move.pairwise_lt_sort (List.Pairwise.filterMap _ (fun i j hij m hm m' hm' ↦ ?_) hnodup)
    obtain ⟨_, -, rfl⟩ := Option.map_eq_some_iff.1 hm
    obtain ⟨_, -, rfl⟩ := Option.map_eq_some_iff.1 hm'
    exact fun he ↦ hij (Fin.ext he)
  · exact .nil

theorem get_ofSites (ν : Numbering) (blocks : List Block) (g : BlockGraph blocks.length)
    (code : List (List Instr)) (sites : List Site) (i : Fin sites.length) :
    (ofSites ν blocks g code sites).get i =
      Flow.node ν blocks g code sites.length (sites.get i) := by
  simp only [ofSites, Vector.get, Vector.map, Array.getElem_map, List.getElem_toArray]
  rfl

/-- In the flow graph of any code, a move defines its destination and reads its source, and nothing
else. -/
theorem eq_of_move? {ν : Numbering} {blocks : List Block} {g : BlockGraph blocks.length}
    {code : List (List Instr)} {s : Site} {dst src : Fin ν.size}
    (h : (Flow.node ν blocks g code n s).move? = some (dst, src)) :
    (Flow.node ν blocks g code n s).defs = [dst] ∧
      (Flow.node ν blocks g code n s).uses = [src] := by
  obtain ⟨⟨rd, rs⟩, hmove, hpair⟩ := Option.bind_eq_some_iff.1 h
  obtain ⟨u, hu, hpair⟩ := Option.bind_eq_some_iff.1 hpair
  obtain ⟨v, hv, hpair⟩ := Option.bind_eq_some_iff.1 hpair
  cases hpair
  obtain ⟨b, p, i⟩ := s
  cases i with
  | mv rd' rs' =>
    cases hmove
    constructor
    · simp [Flow.node, Instr.defs, hu]
    · simp [Flow.node, Instr.uses, hv]
  | _ => cases hmove

end Flow

/-- The interference graph says exactly what the nodes ask for, whatever the flow graph and the sets
of live registers are. Two registers interfere if they clash at some node. The moves are those of
the nodes, each once and in order, or none if they are not coalesced; a register is listed with the
moves that it is an end of, each once. What a move reads, and so what does not count as live behind
it, is its source. -/
theorem Analysis.interferes_interference_iff {r : Nat} (a : Analysis r) (virtuals : Nat)
    (coalesce : Bool) :
    (∀ u v, u ≠ v → ((a.interference virtuals coalesce).graph.interferes u v = true ↔
      ∃ i, Flow.Clashes (a.flow.get i) (a.liveness.liveOut.get i) coalesce u v ∨
        Flow.Clashes (a.flow.get i) (a.liveness.liveOut.get i) coalesce v u)) ∧
    (∀ m, m ∈ (a.interference virtuals coalesce).moves ↔ coalesce = true ∧
      ∃ i : Fin a.size, m.node = i ∧ (a.flow.get i).move? = some (m.dst, m.src)) ∧
    ((a.interference virtuals coalesce).moves.Pairwise fun m m' ↦ m.node < m'.node) ∧
    (∀ u, ((a.interference virtuals coalesce).graph.moves.get u).Nodup ∧
      ∀ k, k ∈ (a.interference virtuals coalesce).graph.moves.get u ↔
        ((a.interference virtuals coalesce).moves.get k).dst = u ∨
          ((a.interference virtuals coalesce).moves.get k).src = u) ∧
    ∀ (ν : Numbering) (blocks : List Block) (g : BlockGraph blocks.length)
      (code : List (List Instr)) (sites : List Site) i dst src,
      ((Flow.ofSites ν blocks g code sites).get i).move? = some (dst, src) →
        ((Flow.ofSites ν blocks g code sites).get i).defs = [dst] ∧
          ((Flow.ofSites ν blocks g code sites).get i).uses = [src] := by
  refine ⟨fun u v huv ↦ ?_, fun m ↦ Flow.mem_moves_iff, Flow.pairwise_moves _ _, fun u ↦ ?_, ?_⟩
  · refine (Graph.interferes_build _ _ _ _ _).trans ?_
    rw [Flow.mem_edges_iff, Flow.mem_edges_iff, ← exists_or, and_iff_right huv]
    exact exists_congr fun i ↦ Flow.mem_nodeEdges_or_iff
  · exact ⟨Graph.nodup_moves_build _ _ _ u, Graph.mem_moves_build _ _ _ u⟩
  · intro ν blocks g code sites i dst src h
    rw [Flow.get_ofSites] at h ⊢
    exact Flow.eq_of_move? h

end RegAlloc

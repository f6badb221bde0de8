import Mathlib
import RegAlloc.Allocation.Round
import RegAlloc.Proofs.Catalog
import RegAlloc.Proofs.Colouring.Run

/-!
# The lists of work between two steps

Whatever nodes are chosen to be spilled, the lists of work say the truth about the nodes and the
moves before each step: `WellKept` holds of every `Reachable` state. No step fails on the way.
-/

namespace RegAlloc.Colouring

variable {n m : Nat} {p : ColouringProblem n m} {g : Graph n (Fin m)} {retired : List Nat}
  {s s' : Colouring n m}

/-- The states between two steps of an attempt to colour the nodes of `g` that are not `retired`.
Each step may choose the node to spill in another way. -/
inductive Reachable (p : ColouringProblem n m) (g : Graph n (Fin m)) (retired : List Nat) :
    Colouring n m → Prop
  | start {s : Colouring n m} (h : (start g).makeWorklist p (unretired g retired) = .ok s) :
    Reachable p g retired s
  | step {s s' : Colouring n m} (h : Reachable p g retired s) (choose : SpillChoice n m)
    (hs : s.step? p choose = some (.ok s')) : Reachable p g retired s'

/-- The node `u` is coalesced into `v`. -/
def IsInto (s : Colouring n m) (u v : Fin n) : Prop :=
  s.node.get u = .coalesced v

/-- The lists of work hold what they stand for, and every node is where it belongs. -/
structure WellKept (p : ColouringProblem n m) (g : Graph n (Fin m)) (retired : List Nat)
    (s : Colouring n m) : Prop where
  /-- A physical register stays one. -/
  precoloured : ∀ u : Fin n, g.isPrecoloured u = true → s.node.get u = .precoloured
  /-- A node that is to be coloured is in one of the lists, or has left the graph. -/
  node : ∀ u ∈ unretired g retired, s.node.get u = .simplify ∨ s.node.get u = .freeze ∨
    s.node.get u = .spill ∨ s.node.get u = .selected ∨ ∃ v, s.node.get u = .coalesced v
  mem_simplify : ∀ u, u ∈ s.work.simplify ↔ s.node.get u = .simplify
  mem_freeze : ∀ u, u ∈ s.work.freeze ↔ s.node.get u = .freeze
  mem_spill : ∀ u, u ∈ s.work.spill ↔ s.node.get u = .spill
  mem_stack : ∀ u, u ∈ s.work.stack ↔ s.node.get u = .selected
  nodup_stack : s.work.stack.Nodup
  mem_coalesced : ∀ u, u ∈ s.work.coalesced ↔ ∃ v, s.node.get u = .coalesced v
  nodup_coalesced : s.work.coalesced.Nodup
  mem_worklistMoves : ∀ i, i ∈ s.work.worklistMoves ↔ s.move.get i = .worklist
  mem_activeMoves : ∀ i, i ∈ s.work.activeMoves ↔ s.move.get i = .active
  /-- The degree of a node in one of the lists counts its neighbours, each of them once. -/
  degree_eq : ∀ u, (s.node.get u).isListed = true →
    (s.adjacent u).Nodup ∧ s.graph.degree.get u = (s.adjacent u).length
  le_degree_of_spill : ∀ u, s.node.get u = .spill → p.k ≤ s.graph.degree.get u
  degree_lt_of_freeze : ∀ u, s.node.get u = .freeze →
    s.graph.degree.get u < p.k ∧ ∃ i ∈ s.graph.moves.get u, s.isPending i = true
  degree_lt_of_simplify : ∀ u, s.node.get u = .simplify →
    (∀ i ∈ s.graph.moves.get u, s.isPending i = false) ∧
      (s.graph.degree.get u < p.k ∨ s.WasChosen u)
  /-- No end of a move that can still be coalesced has been taken out of the graph. -/
  node_ne_selected_of_isPending : ∀ i, s.isPending i = true →
    s.node.get (s.rep (p.moves.get i).dst) ≠ .selected ∧
      s.node.get (s.rep (p.moves.get i).src) ≠ .selected
  /-- A node is not coalesced into itself, not even in several steps. -/
  acyclic : ∀ u, ¬Relation.TransGen s.IsInto u u
  /-- The steps from a node end at the node that represents it. -/
  isInto_rep : ∀ u, Relation.ReflTransGen s.IsInto u (s.rep u) ∧ s.IsRoot (s.rep u)

theorem AliasOrdered.acyclic (h : s.AliasOrdered) (u : Fin n) :
    ¬Relation.TransGen s.IsInto u u := by
  intro hu
  have hlt : ∀ {a b}, Relation.TransGen s.IsInto a b →
      s.work.coalesced.idxOf a < s.work.coalesced.idxOf b := by
    intro a b hab
    induction hab with
    | single hb => exact h.lt hb
    | tail _ hc ih => exact ih.trans (h.lt hc)
  exact lt_irrefl _ (hlt hu)

theorem AliasOrdered.isInto_rep (h : s.AliasOrdered) (u : Fin n) :
    Relation.ReflTransGen s.IsInto u (s.rep u) := by
  induction u using h.induct with
  | root u hu => rw [rep_of_isRoot hu]
  | step u v hv ih =>
    rw [h.rep_coalesced hv]
    exact .head hv ih

/-- A move that is pending has its ends in the graph. -/
theorem Settled.node_rep_ne_selected (h : Settled p s) {i : Fin m} (hi : s.isPending i = true)
    {u : Fin n} (hu : s.rep (p.moves.get i).dst = s.rep u ∨ s.rep (p.moves.get i).src = s.rep u) :
    s.node.get (s.rep u) ≠ .selected := by
  intro hsel
  have hmem := (h.sound.mem_moves (h.sound.aliases.isRoot_rep u) i).2 hu
  have hcl := h.classified (s.rep u) id
  rw [Classified, hsel, isMoveRelated_iff.2 ⟨i, hmem, hi⟩] at hcl
  cases hcl

/-- What is settled is well kept. -/
theorem Settled.wellKept (h : Settled p s) (hv : s.graph.virtuals = g.virtuals)
    (hinit : ∀ u ∈ unretired g retired, s.node.get u ≠ .initial) : WellKept p g retired s where
  precoloured u hu := by
    rw [h.sound.node_precoloured, Graph.isPrecoloured, hv]
    exact hu
  node u hu := by
    have hne := hinit u hu
    have hp : s.node.get u ≠ .precoloured := by
      rw [Ne, h.sound.node_precoloured, Graph.isPrecoloured, hv]
      simp only [unretired, List.mem_filter, Bool.and_eq_true, Bool.not_eq_true'] at hu
      intro hc
      have hnot : g.isPrecoloured u = false := hu.2.1
      rw [Graph.isPrecoloured, hc] at hnot
      cases hnot
    have h₁ := h.sound.isOpen_or (u := u)
    cases hs : s.node.get u <;> simp_all [NodeState.isOpen]
  mem_simplify := h.sound.mirror.mem_simplify
  mem_freeze := h.sound.mirror.mem_freeze
  mem_spill := h.sound.mirror.mem_spill
  mem_stack := h.sound.mirror.mem_stack
  nodup_stack := h.sound.mirror.nodup_stack
  mem_coalesced := h.sound.aliases.mem_coalesced
  nodup_coalesced := h.sound.aliases.nodup_coalesced
  mem_worklistMoves := h.sound.mirror.mem_worklistMoves
  mem_activeMoves := h.sound.mirror.mem_activeMoves
  degree_eq u hu := ⟨(h.sound.faithful.nodup_adjacency u).filter _,
    h.degrees u (NodeState.isOpen_of_isListed hu)⟩
  le_degree_of_spill u hu := by
    have hcl := h.classified u id
    rw [Classified, hu] at hcl
    exact hcl
  degree_lt_of_freeze u hu := by
    have hcl := h.classified u id
    rw [Classified, hu] at hcl
    exact ⟨hcl.1, isMoveRelated_iff.1 hcl.2⟩
  degree_lt_of_simplify u hu := by
    have hcl := h.classified u id
    rw [Classified, hu] at hcl
    refine ⟨fun i hi ↦ ?_, ?_⟩
    · by_contra hc
      rw [Bool.not_eq_false] at hc
      rw [isMoveRelated_iff.2 ⟨i, hi, hc⟩] at hcl
      cases hcl.1
    · exact (lt_or_ge _ _).imp_right hcl.2
  node_ne_selected_of_isPending i hi :=
    ⟨h.node_rep_ne_selected hi (.inl rfl), h.node_rep_ne_selected hi (.inr rfl)⟩
  acyclic := h.sound.aliases.acyclic
  isInto_rep u := ⟨h.sound.aliases.isInto_rep u, h.sound.aliases.isRoot_rep u⟩

/-! ## Reachable states -/

section Build

variable (catalog : Catalog) {r : Nat} (virtuals : Nat) (edges : List (Fin r × Fin r))
  (moves : List (Move r))

theorem problem_moves_get (i : Fin moves.length) :
    (catalog.problem moves).moves.get i = moves.get i := by
  simp [Catalog.problem, Vector.get]

/-- The colouring of a built graph starts settled. -/
theorem settled_start_build :
    Settled (catalog.problem moves) (start (Graph.build virtuals edges moves)) := by
  refine settled_start (Graph.faithful_build moves virtuals edges)
    (Graph.hasLengths_build moves virtuals edges) (Graph.nodup_moves_build moves virtuals edges) ?_
  intro u i
  rw [problem_moves_get]
  exact Graph.mem_moves_build moves virtuals edges u i

end Build

theorem nodup_unretired : (unretired g retired).Nodup :=
  (List.nodup_finRange n).filter _

theorem start_node_of_mem_unretired {u : Fin n} (hu : u ∈ unretired g retired) :
    (Colouring.start g).node.get u = .initial := by
  simp only [unretired, List.mem_filter, Bool.and_eq_true, Bool.not_eq_true'] at hu
  have hnot : g.isPrecoloured u = false := hu.2.1
  rw [start_node, if_neg (by simp [hnot])]

/-- The nodes that are to be coloured are sorted into the work. -/
theorem Settled.makeWorklist_unretired (h : Settled p (Colouring.start g)) (retired : List Nat) :
    ∃ s, (Colouring.start g).makeWorklist p (unretired g retired) = .ok s ∧ Settled p s ∧
      Tweak (Colouring.start g) s ∧ ∀ u ∈ unretired g retired, s.node.get u ≠ .initial :=
  h.makeWorklist nodup_unretired fun _ hu ↦ start_node_of_mem_unretired hu

/-- What holds of a settled start holds of every reachable state. -/
theorem Reachable.settled (h₀ : Settled p (Colouring.start g)) (h : Reachable p g retired s) :
    Settled p s ∧ s.graph.virtuals = g.virtuals ∧
      ∀ u ∈ unretired g retired, s.node.get u ≠ .initial := by
  induction h with
  | start h =>
    obtain ⟨s, hok, hs, ht, hinit⟩ := h₀.makeWorklist_unretired retired
    rw [hok] at h
    cases h
    exact ⟨hs, ht.virtuals, hinit⟩
  | step _ choose hs ih =>
    obtain ⟨hset, hv, hinit⟩ := ih
    rcases hset.step choose with hnone | ⟨s', hsome, hadv⟩
    · rw [hnone] at hs
      cases hs
    · rw [hsome] at hs
      cases hs
      exact ⟨hadv.settled, hadv.grows.virtuals.trans hv,
        fun u hu ↦ hadv.progress.node_ne_initial (hinit u hu)⟩

/-- The lists of work are well kept in every state that is reachable from a built graph, and from
each of them the next step succeeds. -/
theorem wellKept_of_reachable (catalog : Catalog) {r : Nat} (virtuals : Nat)
    (edges : List (Fin r × Fin r)) (moves : List (Move r)) (retired : List Nat) :
    (∃ s, Reachable (catalog.problem moves) (Graph.build virtuals edges moves) retired s) ∧
    ∀ s, Reachable (catalog.problem moves) (Graph.build virtuals edges moves) retired s →
      WellKept (catalog.problem moves) (Graph.build virtuals edges moves) retired s ∧
      ∀ choose, s.step? (catalog.problem moves) choose = none ∨
        ∃ s', s.step? (catalog.problem moves) choose = some (.ok s') := by
  have h₀ := settled_start_build catalog virtuals edges moves
  constructor
  · obtain ⟨s, hok, -⟩ := h₀.makeWorklist_unretired retired
    exact ⟨s, .start hok⟩
  · intro s hs
    obtain ⟨hset, hv, hinit⟩ := hs.settled h₀
    refine ⟨hset.wellKept hv hinit, fun choose ↦ (hset.step choose).imp_right ?_⟩
    rintro ⟨s', hok, -⟩
    exact ⟨s', hok⟩

/-- A copy whose ends are made one node in the first step. -/
theorem wellKept_of_copy :
    ∃ s, Reachable (Catalog.twoColours.problem [⟨0, 0, 2⟩])
        (Graph.build (r := 6) 3 [(0, 1), (1, 2)] [⟨0, 0, 2⟩]) [] s ∧
      s.node.get 2 = .coalesced 0 ∧
      WellKept (Catalog.twoColours.problem [⟨0, 0, 2⟩])
        (Graph.build (r := 6) 3 [(0, 1), (1, 2)] [⟨0, 0, 2⟩]) [] s := by
  obtain ⟨s, hs, hn⟩ : ∃ s, Reachable (Catalog.twoColours.problem [⟨0, 0, 2⟩])
      (Graph.build (r := 6) 3 [(0, 1), (1, 2)] [⟨0, 0, 2⟩]) [] s ∧ s.node.get 2 = .coalesced 0 :=
    ⟨_, .step (.start rfl) (fun _ u _ ↦ ⟨u, List.mem_cons_self⟩) rfl, by decide⟩
  exact ⟨s, hs, hn,
    ((wellKept_of_reachable Catalog.twoColours 3 [(0, 1), (1, 2)] [⟨0, 0, 2⟩] []).2 s hs).1⟩

end RegAlloc.Colouring

import Mathlib
import RegAlloc.Proofs.Graph

/-!
# The graph of a list of edges

However often an edge is added, and in whichever direction, the graph is the undirected graph with
the edges that were added. Its four parts say so each in its own way: the packed row of bits, the
lists of neighbours, the degrees, and the list of all edges. `Graph.Represents` puts this together,
with the reason why the row cannot mix up two edges: each pair of different nodes has a place of its
own, and no place is outside of the row.
-/

namespace RegAlloc

/-! ## Accesses to the row -/

namespace BitMatrix

variable {n : Nat}

theorem check_eq_ok {x y : Nat} (h : x ≠ y) (hx : x < n) (hy : y < n) : check n x y = .ok () := by
  rw [check, if_neg h, if_pos (place_lt h hx hy)]

/-- A bit that is set can be set again. -/
theorem set_of_get {m : BitMatrix n} {x y : Nat} (h : m.get x y = true) : m.set x y true = m := by
  obtain ⟨bits⟩ := m
  refine congrArg BitMatrix.mk (Vector.ext fun k hk ↦ ?_)
  rw [Vector.getElem_setIfInBounds hk]
  split
  · rename_i hplace
    subst hplace
    simpa [get, hk] using h.symm
  · rfl

end BitMatrix

namespace Graph

variable {n : Nat} {μ : Type} (g : Graph n μ)

/-- To add an edge, one bit is replaced, which tells whether the edge was there. -/
theorem replace?_matrix {u v : Fin n} (h : u ≠ v) :
    g.matrix.replace? u v true = .ok (g.interferes u v, (g.addEdge u v).matrix) := by
  have hget : g.matrix.get u v = g.interferes u v := by simp [interferes, h]
  have hset : g.matrix.set u v true = (g.addEdge u v).matrix := by
    cases hi : g.interferes u v with
    | false =>
      rw [addEdge_of_isNew g u v ⟨h, hi⟩, attach_matrix, attach_matrix]
    | true =>
      rw [addEdge_of_not_isNew fun hnew ↦ Bool.noConfusion (hnew.2.symm.trans hi)]
      exact BitMatrix.set_of_get (hget.trans hi)
  rw [BitMatrix.replace?, BitMatrix.check_eq_ok (Fin.val_ne_of_ne h) u.isLt v.isLt, hget, hset]
  rfl

theorem interferes?_eq_ok (u v : Fin n) : g.interferes? u v = .ok (g.interferes u v) := by
  by_cases h : u = v
  · rw [interferes?, if_pos (by rw [h]), h, interferes_self]
  · have hne := Fin.val_ne_of_ne h
    rw [interferes?, if_neg hne, BitMatrix.get?, BitMatrix.check_eq_ok hne u.isLt v.isLt]
    simp [interferes, h]

/-! ## The list of all edges -/

theorem mem_edges {u v : Fin n} : (u, v) ∈ g.edges ↔ u < v ∧ g.interferes u v = true := by
  simp only [edges, List.mem_flatMap, List.mem_finRange, List.mem_map, List.mem_filter, true_and,
    decide_eq_true_eq, Prod.mk.injEq]
  constructor
  · rintro ⟨_, _, h, rfl, rfl⟩
    exact h
  · intro h
    exact ⟨v, u, h, rfl, rfl⟩

theorem nodup_edges : g.edges.Nodup := by
  rw [edges, List.nodup_flatMap]
  constructor
  · intro v _
    exact ((List.nodup_finRange n).filter _).map (Prod.mk_left_injective v)
  · refine (List.nodup_finRange n).imp fun {v w} hvw ↦ ?_
    -- the pairs of different nodes differ in their larger ends
    intro e he he'
    obtain ⟨_, -, rfl⟩ := List.mem_map.1 he
    obtain ⟨_, -, heq⟩ := List.mem_map.1 he'
    exact hvw (congrArg Prod.snd heq).symm

/-! ## Degrees of physical registers -/

/-- A physical register keeps its degree, whatever edges it gets. -/
theorem degree_addEdge_of_isPrecoloured (a b : Fin n) {u : Fin n}
    (hu : g.isPrecoloured u = true) : (g.addEdge a b).degree.get u = g.degree.get u := by
  by_cases hnew : g.IsNew a b
  · rw [degree_addEdge_of_isNew _ _ _ _ hnew, if_neg (by simp [hu])]
  · rw [addEdge_of_not_isNew hnew]

theorem degree_addEdges_of_isPrecoloured (es : List (Fin n × Fin n)) {u : Fin n}
    (hu : g.isPrecoloured u = true) : (g.addEdges es).degree.get u = g.degree.get u := by
  induction es generalizing g with
  | nil => rfl
  | cons hd tl ih =>
    rw [addEdges_cons, ih _ (by rwa [addEdge_isPrecoloured]),
      degree_addEdge_of_isPrecoloured _ _ _ hu]

theorem degree_empty {virtuals : Nat} {u : Fin n} (hu : virtuals ≤ u) :
    (empty n virtuals : Graph n μ).degree.get u = infinite := by
  simp [empty, hu]

/-! ## All the parts -/

/-- The graph is the undirected graph with the given edges, and its nodes from `virtuals` on are
precoloured. -/
structure Represents (g : Graph n μ) (virtuals : Nat) (es : List (Fin n × Fin n)) : Prop where
  interferes_iff : ∀ u v, g.interferes u v = true ↔ u ≠ v ∧ ((u, v) ∈ es ∨ (v, u) ∈ es)
  mem_adjacency : ∀ u : Fin n, u < virtuals → ∀ v,
    v ∈ g.adjacency.get u ↔ g.interferes u v = true
  nodup_adjacency : ∀ u, (g.adjacency.get u).Nodup
  degree_eq : ∀ u : Fin n, u < virtuals → g.degree.get u = (g.adjacency.get u).length
  adjacency_precoloured : ∀ u : Fin n, virtuals ≤ u → g.adjacency.get u = []
  degree_precoloured : ∀ u : Fin n, virtuals ≤ u → g.degree.get u = infinite
  /-- The list of all edges has the smaller end first. -/
  mem_edges : ∀ u v, (u, v) ∈ g.edges ↔ u < v ∧ g.interferes u v = true
  nodup_edges : g.edges.Nodup
  /-- Neither adding an edge nor looking one up leaves the row. -/
  replace?_matrix : ∀ u v : Fin n, u ≠ v →
    g.matrix.replace? u v true = .ok (g.interferes u v, (g.addEdge u v).matrix)
  interferes?_eq_ok : ∀ u v : Fin n, g.interferes? u v = .ok (g.interferes u v)
  /-- The places of different pairs are different ones of the row. -/
  place_lt : ∀ u v : Fin n, u ≠ v → BitMatrix.place u v < (n * n + 1) / 2
  place_inj : ∀ u v u' v' : Fin n, u ≠ v → u' ≠ v' →
    BitMatrix.place u v = BitMatrix.place u' v' → s(u, v) = s(u', v')

/-- Adding edges to the graph without any makes the undirected graph with these edges. -/
theorem represents_addEdges (virtuals : Nat) (es : List (Fin n × Fin n)) :
    ((empty n virtuals : Graph n μ).addEdges es).Represents virtuals es := by
  have hfaithful := (faithful_empty (μ := μ) (n := n) virtuals).addEdges es
  have hvirt : ∀ {u : Fin n}, u < virtuals →
      ((empty n virtuals : Graph n μ).addEdges es).isPrecoloured u = false := by
    intro u hu
    rw [isPrecoloured, addEdges_virtuals]
    exact decide_eq_false (Nat.not_le.2 hu)
  have hphys : ∀ {u : Fin n}, virtuals ≤ u → (empty n virtuals : Graph n μ).isPrecoloured u = true :=
    fun hu ↦ decide_eq_true hu
  constructor
  · intro u v
    simp [interferes_addEdges]
  · exact fun u hu ↦ hfaithful.mem_adjacency (hvirt hu)
  · exact hfaithful.nodup_adjacency
  · exact fun u hu ↦ (hasLengths_empty virtuals).addEdges es u (hvirt hu)
  · intro u hu
    apply hfaithful.adjacency_precoloured
    rw [isPrecoloured, addEdges_virtuals]
    exact hphys hu
  · intro u hu
    rw [degree_addEdges_of_isPrecoloured _ _ (hphys hu), degree_empty hu]
  · exact fun u v ↦ Graph.mem_edges _
  · exact Graph.nodup_edges _
  · exact fun u v ↦ Graph.replace?_matrix _
  · exact Graph.interferes?_eq_ok _
  · exact fun u v h ↦ BitMatrix.place_lt (Fin.val_ne_of_ne h) u.isLt v.isLt
  · intro u v u' v' h h' he
    apply Sym2.eq_iff.2
    refine (BitMatrix.pair_eq_of_place_eq (Fin.val_ne_of_ne h) (Fin.val_ne_of_ne h') he).imp ?_ ?_
    · exact fun heq ↦ ⟨Fin.ext heq.1, Fin.ext heq.2⟩
    · exact fun heq ↦ ⟨Fin.ext heq.1, Fin.ext heq.2⟩

end Graph

end RegAlloc

import Mathlib
import RegAlloc.Proofs.Colouring.Simplify

/-!
# Coalescing two nodes

When `v` is coalesced into `u`, the edges from `v` to nodes that are still in the graph are given to
`u` one after the other; in between, `u` misses the edges to the rest of them. Nodes that have been
taken out of the graph before keep `v` in their lists, and find `u` through it.
-/

namespace RegAlloc.Colouring

variable {n m : Nat} {p : ColouringProblem n m} {s s' : Colouring n m} {t u v : Fin n}

/-! ## One more edge -/

section AddEdge

variable (s : Colouring n m) (t u x : Fin n)

@[simp]
theorem addEdge_graph : (s.addEdge t u).graph = s.graph.addEdge t u := by
  unfold addEdge Graph.addEdge
  split <;> rfl

@[simp]
theorem addEdge_node : (s.addEdge t u).node = s.node := by
  unfold addEdge
  split <;> rfl

@[simp]
theorem addEdge_move : (s.addEdge t u).move = s.move := by
  unfold addEdge
  split <;> rfl

@[simp]
theorem addEdge_work : (s.addEdge t u).work = s.work := by
  unfold addEdge
  split <;> rfl

theorem addEdge_trace : s.trace <:+ (s.addEdge t u).trace := by
  unfold addEdge
  split
  · exact List.suffix_refl _
  · exact List.suffix_cons _ _

@[simp]
theorem isPresent_addEdge : (s.addEdge t u).isPresent x = s.isPresent x := by
  rw [isPresent, addEdge_node]
  rfl

@[simp]
theorem rep_addEdge : (s.addEdge t u).rep x = s.rep x :=
  rep_congr (fun _ _ ↦ by rw [addEdge_node]) x

theorem isMoveRelated_addEdge : (s.addEdge t u).isMoveRelated x = s.isMoveRelated x := by
  unfold isMoveRelated nodeMoves
  rw [addEdge_graph, Graph.addEdge_moves]
  congr 3
  funext i
  rw [isPending, addEdge_move]
  rfl

@[simp]
theorem addEdge_colour : (s.addEdge t u).colour = s.colour := by
  unfold addEdge
  split <;> rfl

theorem grows_addEdge : Grows s (s.addEdge t u) where
  virtuals := by rw [addEdge_graph, Graph.addEdge_virtuals]
  colour := addEdge_colour s t u
  interferes a b hab := by
    rw [addEdge_graph, Graph.interferes_addEdge]
    exact .inl hab

end AddEdge

theorem Sound.addEdge (h : Sound p s) (t u : Fin n) : Sound p (s.addEdge t u) where
  faithful := by
    rw [addEdge_graph]
    exact h.faithful.addEdge t u
  node_precoloured x := by
    rw [addEdge_node, addEdge_graph, Graph.addEdge_isPrecoloured]
    exact h.node_precoloured x
  not_coloured x := by
    rw [addEdge_node]
    exact h.not_coloured x
  not_spilled x := by
    rw [addEdge_node]
    exact h.not_spilled x
  mirror := by
    obtain ⟨h₁, h₂, h₃, h₄, h₅, h₆, h₇, h₈, h₉⟩ := h.mirror
    constructor <;> simpa only [addEdge_work, addEdge_node, addEdge_move]
  aliases := h.aliases.congr (fun _ _ ↦ by rw [addEdge_node]) (by rw [addEdge_work])
  nodup_moves x := by
    rw [addEdge_graph, Graph.addEdge_moves]
    exact h.nodup_moves x
  mem_moves := by
    intro x hx i
    rw [addEdge_graph, Graph.addEdge_moves, rep_addEdge, rep_addEdge]
    exact h.mem_moves (fun w hw ↦ hx w (by rw [addEdge_node]; exact hw)) i
  isColour_of_coalesced := by
    intro y x hy hx
    rw [addEdge_node] at hy
    rw [addEdge_graph, Graph.addEdge_isPrecoloured] at hx
    rw [addEdge_graph, Graph.addEdge_virtuals]
    exact h.isColour_of_coalesced hy hx
  isEnd_of_coalesced := by
    intro y x hy
    rw [addEdge_node] at hy
    exact h.isEnd_of_coalesced hy

/-- A pair of `u` and one of the nodes `ts`. -/
def Between (u : Fin n) (ts : List (Fin n)) (a b : Fin n) : Prop :=
  (a = u ∧ b ∈ ts) ∨ (b = u ∧ a ∈ ts)

theorem mem_adjacency_addEdge {g : Graph n (Fin m)} {x y : Fin n} (h : y ∈ g.adjacency.get x)
    (t u : Fin n) : y ∈ (g.addEdge t u).adjacency.get x := by
  by_cases hnew : g.IsNew t u
  · rw [Graph.adjacency_addEdge_of_isNew _ _ _ _ hnew]
    split_ifs <;> simp [h]
  · rwa [Graph.addEdge_of_not_isNew hnew]

/-- One of the edges that `u` misses is added. -/
theorem Forwarded.addEdge {ts : List (Fin n)} (h : Forwarded s (Between u (t :: ts)))
    (ht : s.isPresent t = true) (hu : s.isPresent u = true) (htu : t ≠ u) :
    Forwarded (s.addEdge t u) (Between u ts) := by
  have hrt := rep_of_isRoot (isRoot_of_isPresent ht)
  have hru := rep_of_isRoot (isRoot_of_isPresent hu)
  have hnsel : ∀ {x}, s.isPresent x = true → s.node.get x ≠ .selected := by
    intro x hx he
    simp [isPresent, he] at hx
  have hedge : (s.graph.addEdge t u).interferes t u = true :=
    (Graph.interferes_addEdge _ _ _ _ _).2 (.inr ⟨htu, .inl ⟨rfl, rfl⟩⟩)
  intro a b hab
  simp only [addEdge_graph, rep_addEdge, isPresent_addEdge, addEdge_node, addEdge_work] at hab ⊢
  rcases (Graph.interferes_addEdge _ _ _ _ _).1 hab with hab | ⟨-, ⟨rfl, rfl⟩ | ⟨rfl, rfl⟩⟩
  · obtain ⟨hne, hedges, hsees⟩ := h a b hab
    refine ⟨hne, fun ha hb ↦ ?_, fun ha hb ↦ ?_⟩
    · rcases hedges ha hb with hi | ⟨hau, hbt⟩ | ⟨hbu, hat⟩
      · exact .inl ((Graph.interferes_addEdge _ _ _ _ _).2 (.inl hi))
      · rcases List.mem_cons.1 hbt with hbt | hbt
        · rw [hau, hbt, Graph.interferes_comm]
          exact .inl hedge
        · exact .inr (.inl ⟨hau, hbt⟩)
      · rcases List.mem_cons.1 hat with hat | hat
        · rw [hbu, hat]
          exact .inl hedge
        · exact .inr (.inr ⟨hbu, hat⟩)
    · obtain ⟨w, hw, hrw⟩ := hsees ha hb
      exact ⟨w, mem_adjacency_addEdge hw _ _, hrw⟩
  · rw [hrt, hru]
    exact ⟨htu, fun _ _ ↦ .inl hedge, fun ha ↦ absurd ha (hnsel ht)⟩
  · rw [hrt, hru]
    refine ⟨htu.symm, fun _ _ ↦ .inl ?_, fun ha ↦ absurd ha (hnsel hu)⟩
    rw [Graph.interferes_comm]
    exact hedge

/-- An edge between two nodes in the graph is one more neighbour for each of them. -/
theorem Degrees.addEdge {owed : List (Fin n)} (h : Degrees s owed) (hs : Sound p s)
    (ht : s.isPresent t = true) (hu : s.isPresent u = true) : Degrees (s.addEdge t u) owed := by
  intro x hx
  rw [addEdge_node] at hx
  have hd := h x hx
  have hxp := hs.not_isPrecoloured_of_isOpen hx
  have hpres : (s.addEdge t u).isPresent = s.isPresent :=
    funext fun y ↦ isPresent_addEdge s t u y
  by_cases hnew : s.graph.IsNew t u
  · unfold adjacent at hd ⊢
    rw [addEdge_graph, Graph.degree_addEdge_of_isNew _ _ _ _ hnew,
      Graph.adjacency_addEdge_of_isNew _ _ _ _ hnew, if_pos hxp, hpres]
    by_cases hxt : x = t
    · subst hxt
      simp [hu, hxp, hd]
      omega
    · by_cases hxu : x = u
      · subst hxu
        simp [ht, hxp, hd, hxt]
        omega
      · simp [hxt, hxu, hd]
  · unfold adjacent at hd ⊢
    rw [addEdge_graph, Graph.addEdge_of_not_isNew hnew, hpres]
    exact hd

/-- What the node `u` that others are coalesced into keeps while it gets their edges. -/
structure Keeps (s s' : Colouring n m) (u : Fin n) : Prop where
  calm : Calm s s'
  node : s'.node.get u = s.node.get u
  degree : s.graph.degree.get u ≤ s'.graph.degree.get u
  isPresent : ∀ x, s'.isPresent x = s.isPresent x
  isPending : ∀ i, s'.isPending i = s.isPending i
  grows : Grows s s'

theorem Keeps.refl (s : Colouring n m) (u : Fin n) : Keeps s s u :=
  ⟨.of_node_eq rfl, rfl, le_rfl, fun _ ↦ rfl, fun _ ↦ rfl, .refl s⟩

theorem Keeps.trans {s'' : Colouring n m} (h : Keeps s s' u) (h' : Keeps s' s'' u) :
    Keeps s s'' u :=
  ⟨h.calm.trans h'.calm, h'.node.trans h.node, h.degree.trans h'.degree,
    fun x ↦ (h'.isPresent x).trans (h.isPresent x),
    fun i ↦ (h'.isPending i).trans (h.isPending i), h.grows.trans h'.grows⟩

/-- The degree of a virtual register after an edge has been added. -/
theorem degree_addEdge_le (g : Graph n (Fin m)) (t u x : Fin n) :
    g.degree.get x ≤ (g.addEdge t u).degree.get x := by
  by_cases hnew : g.IsNew t u
  · rw [Graph.degree_addEdge_of_isNew _ _ _ _ hnew]
    split <;> omega
  · rw [Graph.addEdge_of_not_isNew hnew]

theorem degree_addEdge_of_ne (g : Graph n (Fin m)) {x : Fin n} (ht : x ≠ t) (hu : x ≠ u) :
    (g.addEdge t u).degree.get x = g.degree.get x := by
  by_cases hnew : g.IsNew t u
  · rw [Graph.degree_addEdge_of_isNew _ _ _ _ hnew, if_neg (by simp [ht, hu])]
  · rw [Graph.addEdge_of_not_isNew hnew]

theorem keeps_addEdge (s : Colouring n m) (t u : Fin n) : Keeps s (s.addEdge t u) u :=
  ⟨.of_node_eq (addEdge_node s t u), by rw [addEdge_node],
    by rw [addEdge_graph]; exact degree_addEdge_le _ _ _ _, isPresent_addEdge s t u,
    fun i ↦ by rw [isPending, addEdge_move]; rfl, grows_addEdge s t u⟩

/-- With the edge to `u`, the degree of the neighbour `t` is not the right one yet. -/
theorem Invariant.addEdge {ts : List (Fin n)}
    (h : Invariant p s (t :: ts) (Between u (t :: ts)) (· = u))
    (ht : s.isPresent t = true) (hu : s.isPresent u = true) (htu : t ≠ u) :
    Invariant p (s.addEdge t u) (t :: ts) (Between u ts) fun x ↦ x = u ∨ x = t where
  sound := h.sound.addEdge t u
  forwarded := h.forwarded.addEdge ht hu htu
  degrees := h.degrees.addEdge h.sound ht hu
  classified x hx := by
    rw [not_or] at hx
    exact (h.classified x hx.1).congr (by rw [addEdge_node])
      (by rw [addEdge_graph, degree_addEdge_of_ne _ hx.2 hx.1]) (isMoveRelated_addEdge s t u x)
      (addEdge_trace s t u)

/-- The degree of `t` can go up and then down again, past `k` and back. -/
theorem Classified.addEdge_lowered (h : Classified p s t) (ho : (s.node.get t).isOpen = true)
    (hp : s.graph.isPrecoloured t = false) {d : Nat}
    (hd : (s.addEdge t u).graph.degree.get t = d + 1) :
    Fits p (lowered p (s.node.get t) d (s.isMoveRelated t)) d (s.isMoveRelated t)
      (s.WasChosen t) := by
  rw [addEdge_graph] at hd
  by_cases hnew : s.graph.IsNew t u
  · rw [Graph.degree_addEdge_of_isNew _ _ _ _ hnew, if_pos ⟨hp, .inl rfl⟩] at hd
    have hd' : s.graph.degree.get t = d := Nat.succ.inj hd
    rw [Classified, hd'] at h
    exact h.raised_lowered
  · rw [Graph.addEdge_of_not_isNew hnew] at hd
    rw [Classified, hd] at h
    exact h.lowered ho

/-- A virtual register `t` gets the edge to `u` in place of the one that it had. -/
theorem Invariant.forward_of_isOpen {ts : List (Fin n)}
    (h : Invariant p s (t :: ts) (Between u (t :: ts)) (· = u))
    (ho : (s.node.get t).isOpen = true) (hu : s.isPresent u = true) (htu : t ≠ u) :
    ∃ s', (s.addEdge t u).decrementDegree p t = .ok s' ∧
      Invariant p s' ts (Between u ts) (· = u) ∧ Keeps s s' u := by
  have h₁ := h.addEdge (isPresent_of_isOpen ho) hu htu
  have hcl := h.classified t htu
  have hnode₁ : (s.addEdge t u).node.get t = s.node.get t := by rw [addEdge_node]
  have ho₁ : ((s.addEdge t u).node.get t).isOpen = true := hnode₁ ▸ ho
  obtain ⟨d, hd⟩ : ∃ d, (s.addEdge t u).graph.degree.get t = d + 1 := by
    have := h₁.degrees t ho₁
    rw [List.count_cons_self] at this
    exact ⟨_, this⟩
  have hr : (s.addEdge t u).node.get t = .simplify →
      (s.addEdge t u).isMoveRelated t = false := by
    intro hsim
    rw [hnode₁] at hsim
    rw [isMoveRelated_addEdge]
    rw [Classified, hsim] at hcl
    exact hcl.1
  obtain ⟨s', hok, htw, hpend, hdeg, hnode⟩ :=
    decrementDegree_spec (p := p) (h₁.sound.not_isPrecoloured_of_isOpen ho₁) hd ho₁ hr
  refine ⟨s', hok, h₁.tweak htw (fun x _ ↦ ?_) fun x hxu ↦ ?_, (keeps_addEdge s t u).trans ?_⟩
  · rw [hdeg]
    by_cases hxt : x = t
    · rw [hxt, if_pos rfl, hd, List.count_cons_self]
      omega
    · rw [if_neg hxt, List.count_cons_of_ne (Ne.symm hxt)]
  · have hrel := htw.isMoveRelated hpend x
    by_cases hxt : x = t
    · subst hxt
      rw [Classified, hnode, hdeg, hrel, if_pos rfl, if_pos rfl, isMoveRelated_addEdge, hnode₁]
      exact (hcl.addEdge_lowered ho (h.sound.not_isPrecoloured_of_isOpen ho) hd).mono
        fun hc ↦ hc.mono ((addEdge_trace s x u).trans htw.trace)
    · refine (h₁.classified x (not_or.2 ⟨hxu, hxt⟩)).congr ?_ ?_ hrel htw.trace
      · rw [hnode, if_neg hxt]
      · rw [hdeg, if_neg hxt]
  · refine ⟨htw.node, ?_, ?_, htw.isPresent, hpend, htw.grows⟩
    · rw [hnode, if_neg htu.symm]
    · rw [hdeg, if_neg htu.symm]

/-- The same for any neighbour; that of a physical register is not counted. -/
theorem Invariant.forward {ts : List (Fin n)}
    (h : Invariant p s (t :: ts) (Between u (t :: ts)) (· = u))
    (ht : s.isPresent t = true) (hu : s.isPresent u = true) (htu : t ≠ u) :
    ∃ s', (s.addEdge t u).decrementDegree p t = .ok s' ∧
      Invariant p s' ts (Between u ts) (· = u) ∧ Keeps s s' u := by
  rcases h.sound.isPresent_iff.1 ht with ho | hp
  · exact h.forward_of_isOpen ho hu htu
  · have h₁ := h.addEdge ht hu htu
    refine ⟨s.addEdge t u, ?_, ⟨h₁.sound, h₁.forwarded, fun x hx ↦ ?_, fun x hxu ↦ ?_⟩,
      keeps_addEdge s t u⟩
    · rw [decrementDegree, addEdge_graph, Graph.addEdge_isPrecoloured, if_pos hp]
    · have hxt : t ≠ x := by
        rintro rfl
        rw [addEdge_node] at hx
        rw [h.sound.not_isPrecoloured_of_isOpen hx] at hp
        cases hp
      have hx := h₁.degrees x hx
      rwa [List.count_cons_of_ne hxt] at hx
    · by_cases hxt : x = t
      · rw [hxt, Classified, addEdge_node, (h.sound.node_precoloured t).2 hp]
        trivial
      · exact h₁.classified x (not_or.2 ⟨hxu, hxt⟩)

/-- All the neighbours of the coalesced node get their edges to `u`. -/
theorem Invariant.forward_all {ts : List (Fin n)}
    (h : Invariant p s ts (Between u ts) (· = u)) (hu : s.isPresent u = true)
    (hts : ∀ t ∈ ts, s.isPresent t = true ∧ t ≠ u) :
    ∃ s', ts.foldlM (fun s t ↦ (s.addEdge t u).decrementDegree p t) s = .ok s' ∧
      Invariant p s' [] (fun _ _ ↦ False) (· = u) ∧ Keeps s s' u := by
  obtain ⟨s', hok, hinv, -, hkeep⟩ := foldlM_rest
    (f := fun s t ↦ (s.addEdge t u).decrementDegree p t)
    (fun ts s₁ ↦ Invariant p s₁ ts (Between u ts) (· = u) ∧
      (∀ t ∈ ts, s₁.isPresent t = true ∧ t ≠ u) ∧ Keeps s s₁ u)
    (by
      rintro t ts s₁ ⟨h₁, hp₁, hk₁⟩
      obtain ⟨htp, htu⟩ := hp₁ t List.mem_cons_self
      obtain ⟨s₂, hok, h₂, hk₂⟩ := h₁.forward htp (by rw [hk₁.isPresent]; exact hu) htu
      refine ⟨s₂, hok, h₂, fun x hx ↦ ?_, hk₁.trans hk₂⟩
      rw [hk₂.isPresent]
      exact hp₁ x (List.mem_cons_of_mem _ hx))
    ts s ⟨h, hts, .refl s u⟩
  refine ⟨s', hok, ⟨hinv.sound, hinv.forwarded.mono ?_, hinv.degrees, hinv.classified⟩, hkeep⟩
  rintro a b (⟨-, hb⟩ | ⟨-, ha⟩)
  · exact absurd hb List.not_mem_nil
  · exact absurd ha List.not_mem_nil

/-! ## One node becomes part of another -/

section AddMoves

variable (g : Graph n (Fin m)) (u x : Fin n) (is : List (Fin m))

theorem foldl_addMove : (is.foldl (fun g i ↦ g.addMove u i) g).virtuals = g.virtuals ∧
    (is.foldl (fun g i ↦ g.addMove u i) g).matrix = g.matrix ∧
    (is.foldl (fun g i ↦ g.addMove u i) g).adjacency = g.adjacency ∧
    (is.foldl (fun g i ↦ g.addMove u i) g).degree = g.degree := by
  induction is generalizing g with
  | nil => exact ⟨rfl, rfl, rfl, rfl⟩
  | cons hd tl ih => exact ih (g.addMove u hd)

theorem mem_moves_foldl_addMove (j : Fin m) :
    j ∈ (is.foldl (fun g i ↦ g.addMove u i) g).moves.get x ↔
      j ∈ g.moves.get x ∨ (x = u ∧ j ∈ is) := by
  induction is generalizing g with
  | nil => simp
  | cons hd tl ih =>
    rw [List.foldl_cons, ih, Graph.mem_moves_addMove, List.mem_cons]
    tauto

theorem foldl_addMove_of_ne (hx : x ≠ u) :
    (is.foldl (fun g i ↦ g.addMove u i) g).moves.get x = g.moves.get x := by
  induction is generalizing g with
  | nil => rfl
  | cons hd tl ih =>
    rw [List.foldl_cons, ih, Graph.addMove]
    exact Vector.get_set_of_ne _ hx _

theorem nodup_moves_foldl_addMove (h : ∀ x, (g.moves.get x).Nodup) :
    ((is.foldl (fun g i ↦ g.addMove u i) g).moves.get x).Nodup := by
  induction is generalizing g with
  | nil => exact h x
  | cons hd tl ih =>
    exact ih (g.addMove u hd) fun y ↦ Graph.nodup_moves_addMove _ _ _ _ h

end AddMoves

/-- The colouring in which `v` is coalesced into `u`, which has the moves of `v`, but does not have
its edges yet. -/
def merge (s : Colouring n m) (u v : Fin n) : Colouring n m :=
  { s.setNode v (.coalesced u) with
    graph := (s.graph.moves.get v).foldl (fun g i ↦ g.addMove u i) s.graph }

section Merge

variable (s) (u v) in
@[simp]
theorem merge_node (x : Fin n) :
    (s.merge u v).node.get x = if x = v then .coalesced u else s.node.get x :=
  setNode_node s v x _

theorem rep_merge (h : s.AliasOrdered) (hv : (s.node.get v).isOpen = true) (hu : s.IsRoot u)
    (huv : u ≠ v) (x : Fin n) : (s.merge u v).rep x = if s.rep x = v then u else s.rep x := by
  have hn : ∀ x y, (s.merge u v).node.get x = .coalesced y ↔
      (s.setNode v (.coalesced u)).node.get x = .coalesced y := fun _ _ ↦ Iff.rfl
  rw [← h.rep_coalesce hv hu huv]
  exact rep_congr hn x

theorem merge_interferes (a b : Fin n) :
    (s.merge u v).graph.interferes a b = s.graph.interferes a b := by
  rw [Graph.interferes, merge, (foldl_addMove _ _ _).2.1]
  rfl

theorem merge_isPrecoloured (x : Nat) :
    (s.merge u v).graph.isPrecoloured x = s.graph.isPrecoloured x := by
  rw [Graph.isPrecoloured, merge, (foldl_addMove _ _ _).1]
  rfl

theorem merge_stack : (s.merge u v).work.stack = s.work.stack := by
  show (s.setNode v (.coalesced u)).work.stack = s.work.stack
  rw [setNode_work, Worklists.enter_stack, if_neg (by simp)]
  exact (s.work.leave_lists v _).1

theorem leaves_merge (hv : (s.node.get v).isOpen = true) : Leaves s (s.merge u v) v where
  isOpen := hv
  not_isPresent := by simp [isPresent]
  node x hx := by rw [merge_node, if_neg hx]
  adjacency := (foldl_addMove _ _ _).2.2.1
  degree := (foldl_addMove _ _ _).2.2.2

theorem Sound.merge (h : Sound p s) (hv : (s.node.get v).isOpen = true)
    (hu : s.isPresent u = true) (huv : u ≠ v)
    (hc : s.graph.isPrecoloured u = true → p.isColour (u - s.graph.virtuals) = true)
    (hend : IsEnd p u) : Sound p (s.merge u v) where
  faithful :=
    have hf := foldl_addMove s.graph u (s.graph.moves.get v)
    h.faithful.congr hf.1 hf.2.1 hf.2.2.1
  node_precoloured x := by
    rw [merge_node, merge_isPrecoloured]
    split
    · rename_i hx
      rw [hx, h.not_isPrecoloured_of_isOpen hv]
      simp
    · exact h.node_precoloured x
  not_coloured x := by
    rw [merge_node]
    split
    · simp
    · exact h.not_coloured x
  not_spilled x := by
    rw [merge_node]
    split
    · simp
    · exact h.not_spilled x
  mirror :=
    have hm := h.mirror.setNode hv (.coalesced u)
    ⟨hm.1, hm.2, hm.3, hm.4, hm.5, hm.6, hm.7, hm.8, hm.9⟩
  aliases :=
    (h.aliases.coalesce hv (isRoot_of_isPresent hu) huv).congr (fun _ _ ↦ Iff.rfl) rfl
  nodup_moves x := nodup_moves_foldl_addMove _ _ _ _ h.nodup_moves
  mem_moves := by
    intro x hx i
    have hxv : x ≠ v := by
      rintro rfl
      exact hx u (by rw [merge_node, if_pos rfl])
    have hxr : s.IsRoot x := fun w hw ↦ hx w (by rw [merge_node, if_neg hxv, hw])
    have hmx := h.mem_moves hxr i
    have hmv := h.mem_moves (isRoot_of_isOpen hv) i
    rw [rep_merge h.aliases hv (isRoot_of_isPresent hu) huv,
      rep_merge h.aliases hv (isRoot_of_isPresent hu) huv, Colouring.merge,
      mem_moves_foldl_addMove, hmx, hmv]
    grind
  isColour_of_coalesced := by
    intro y x hy hx
    rw [merge_isPrecoloured] at hx
    have hvirt : (s.merge u v).graph.virtuals = s.graph.virtuals := (foldl_addMove _ _ _).1
    rw [hvirt]
    rw [merge_node] at hy
    split at hy
    · cases hy
      exact hc hx
    · exact h.isColour_of_coalesced hy hx
  isEnd_of_coalesced := by
    intro y x hy
    rw [merge_node] at hy
    split at hy
    · cases hy
      exact hend
    · exact h.isEnd_of_coalesced hy

/-- After the merge, `u` misses the edges of `v` to the nodes that are still in the graph. -/
theorem Forwarded.merge (h : Forwarded s fun _ _ ↦ False) (hs : Sound p s)
    (hv : (s.node.get v).isOpen = true) (hu : s.isPresent u = true) (huv : u ≠ v)
    (hni : s.graph.interferes u v = false) :
    Forwarded (s.merge u v) (Between u ((s.merge u v).adjacent v)) := by
  have hur := isRoot_of_isPresent hu
  have hvp := isPresent_of_isOpen hv
  have hl := leaves_merge (u := u) hv
  have husel : s.node.get u ≠ .selected := fun he ↦ by simp [isPresent, he] at hu
  have hpres : ∀ {x}, (s.merge u v).isPresent x = true → s.isPresent x = true := by
    intro x hx
    rw [hl.isPresent, Bool.and_eq_true] at hx
    exact hx.1
  -- a representative that interferes with `v` is not `u`, and is among the neighbours of `v`
  have hneigh : ∀ a b, s.graph.interferes a b = true → s.rep a = v → s.rep b ≠ u ∧
      ((s.merge u v).isPresent (s.rep b) = true → s.rep b ∈ (s.merge u v).adjacent v) := by
    intro a b hab ha
    obtain ⟨-, hedge, -⟩ := h a b hab
    rw [ha] at hedge
    constructor
    · intro hb
      rw [hb] at hedge
      have := (hedge hvp hu).resolve_right id
      rw [Graph.interferes_comm, hni] at this
      cases this
    · intro hb
      have := (hedge hvp (hpres hb)).resolve_right id
      rw [mem_adjacent, hl.adjacency, hs.faithful.mem_adjacency (hs.not_isPrecoloured_of_isOpen hv)]
      exact ⟨this, hb⟩
  intro a b hab
  rw [merge_interferes] at hab
  obtain ⟨hne, hedge, hsees⟩ := h a b hab
  have hba : s.graph.interferes b a = true := by rwa [Graph.interferes_comm]
  simp only [rep_merge hs.aliases hv hur huv, merge_stack, hl.adjacency, merge_interferes]
  by_cases ha : s.rep a = v
  · have hb : s.rep b ≠ v := fun hb ↦ hne (ha.trans hb.symm)
    obtain ⟨hbu, hbmem⟩ := hneigh a b hab ha
    rw [if_pos ha, if_neg hb]
    refine ⟨hbu.symm, fun _ hbp ↦ .inr (.inl ⟨rfl, hbmem hbp⟩), fun hsel ↦ ?_⟩
    rw [merge_node, if_neg huv] at hsel
    exact absurd hsel husel
  · rw [if_neg ha]
    by_cases hb : s.rep b = v
    · obtain ⟨hau, hamem⟩ := hneigh b a hba hb
      rw [if_pos hb]
      refine ⟨hau, fun hap _ ↦ .inr (.inr ⟨rfl, hamem hap⟩), fun hsel _ ↦ ?_⟩
      rw [merge_node, if_neg ha] at hsel
      obtain ⟨w, hw, hrw⟩ := hsees hsel (.inl (by rw [hb]; exact hvp))
      exact ⟨w, hw, by rw [if_pos (hrw.trans hb)]⟩
    · rw [if_neg hb]
      refine ⟨hne, fun hap hbp ↦ (hedge (hpres hap) (hpres hbp)).imp_right False.elim,
        fun hsel hbp ↦ ?_⟩
      rw [merge_node, if_neg ha] at hsel
      obtain ⟨w, hw, hrw⟩ := hsees hsel (hbp.imp_left hpres)
      exact ⟨w, hw, by rw [if_neg (by rw [hrw]; exact hb), hrw]⟩

theorem grows_merge : Grows s (s.merge u v) :=
  ⟨(foldl_addMove _ _ _).1, rfl, fun a b hab ↦ by rwa [merge_interferes]⟩

end Merge

/-! ## Combine -/

/-- The node is in the right state for one with pending moves. -/
def Movable (p : ColouringProblem n m) (s : Colouring n m) (u : Fin n) : Prop :=
  Fits p (s.node.get u) (s.graph.degree.get u) true False

theorem Classified.movable (h : Classified p s u) (hr : s.isMoveRelated u = true) :
    Movable p s u := by
  rw [Classified, hr] at h
  unfold Movable
  revert h
  cases s.node.get u <;> simp [Fits]

theorem Movable.congr (h : Movable p s u) (hn : s'.node.get u = s.node.get u)
    (hd : s'.graph.degree.get u = s.graph.degree.get u) : Movable p s' u := by
  rw [Movable, hn, hd]
  exact h

theorem combine_of_not_isFinal (hv : (s.node.get v).isFinal = false) :
    s.combine p u v = (do
      let s₁ := ((s.note (.combine u v)).merge u v).enableMoves [v]
      let s₂ ← (s₁.adjacent v).foldlM (fun s t ↦ (s.addEdge t u).decrementDegree p t) s₁
      return if p.k ≤ s₂.graph.degree.get u ∧ s₂.node.get u = .freeze then s₂.setNode u .spill
        else s₂) := by
  have ht := transition_eq_ok (s := s.note (.combine u v)) hv (.coalesced u)
  simp only [combine, ht]
  rfl

/-- A node that has got more neighbours goes to the spill list if it has many now. -/
theorem Invariant.raise {exempt : Fin n → Prop}
    (h : Invariant p s [] (fun _ _ ↦ False) exempt) (hu : exempt u) {d : Nat}
    (hd : d ≤ s.graph.degree.get u) (hm : Fits p (s.node.get u) d true False) {s' : Colouring n m}
    (hs' : s' = if p.k ≤ s.graph.degree.get u ∧ s.node.get u = .freeze then s.setNode u .spill
      else s) :
    Invariant p s' [] (fun _ _ ↦ False) exempt ∧ Movable p s' u ∧ Tweak s s' := by
  split at hs'
  · rename_i hc
    have ht : Tweak s (s.setNode u .spill) := Tweak.setNode rfl (.inl (by rw [hc.2]; rfl))
    subst hs'
    refine ⟨h.tweak_nodes ht rfl fun x hx ↦ ⟨hx, ?_, rfl⟩, ?_, ht⟩
    · rw [setNode_node, if_neg (by rintro rfl; exact hx hu)]
    · rw [Movable, setNode_node, if_pos rfl]
      exact hc.1
  · rename_i hc
    subst hs'
    refine ⟨h, ?_, .refl _⟩
    unfold Movable
    revert hm hc
    cases s'.node.get u <;> simp [Fits]
    omega

/-- Right after the merge the edges of `v` are missing at `u`. -/
theorem Invariant.merge (h : Invariant p s [] (fun _ _ ↦ False) fun x ↦ x = u ∨ x = v)
    (hv : (s.node.get v).isOpen = true) (hu : s.isPresent u = true) (huv : u ≠ v)
    (hni : s.graph.interferes u v = false)
    (hc : s.graph.isPrecoloured u = true → p.isColour (u - s.graph.virtuals) = true)
    (hend : IsEnd p u) :
    Invariant p (s.merge u v) ((s.merge u v).adjacent v) (Between u ((s.merge u v).adjacent v))
      (· = u) := by
  have hl := leaves_merge (u := u) hv
  refine ⟨h.sound.merge hv hu huv hc hend, h.forwarded.merge h.sound hv hu huv hni,
    hl.degrees h.sound h.degrees, fun x hx ↦ ?_⟩
  by_cases hxv : x = v
  · rw [Classified, merge_node, if_pos hxv]
    trivial
  · refine (h.classified x (by tauto)).congr ?_ (by rw [hl.degree]) ?_ (List.suffix_cons _ _)
    · rw [merge_node, if_neg hxv]
    · rw [isMoveRelated, nodeMoves, Colouring.merge, foldl_addMove_of_ne _ _ _ _ hx]
      rfl

/-- Combining two nodes that do not interfere succeeds. Only the node that stands for both may be in
the wrong state afterwards, for its moves may all be gone. -/
theorem Invariant.combine (h : Invariant p s [] (fun _ _ ↦ False) fun x ↦ x = u ∨ x = v)
    (hv : (s.node.get v).isOpen = true) (hu : s.isPresent u = true) (huv : u ≠ v)
    (hni : s.graph.interferes u v = false)
    (hc : s.graph.isPrecoloured u = true → p.isColour (u - s.graph.virtuals) = true)
    (hend : IsEnd p u) (hm : Movable p s u) :
    ∃ s', s.combine p u v = .ok s' ∧ Invariant p s' [] (fun _ _ ↦ False) (· = u) ∧
      Movable p s' u ∧ Grows s s' ∧ Calm (s.setNode v (.coalesced u)) s' := by
  have hq₀ := Quiet.note s (.combine u v)
  obtain ⟨s₀, hs₀⟩ : ∃ s₀, s₀ = s.note (.combine u v) := ⟨_, rfl⟩
  rw [← hs₀] at hq₀
  have h₀ := h.quiet hq₀
  have hv₀ : (s₀.node.get v).isOpen = true := by rwa [hq₀.node_eq]
  have hu₀ : s₀.isPresent u = true := by rwa [hq₀.isPresent]
  have hni₀ : s₀.graph.interferes u v = false := by rwa [hq₀.interferes]
  have hl := leaves_merge (u := u) hv₀
  have h₁ := h₀.merge hv₀ hu₀ huv hni₀ (by rw [hq₀.isPrecoloured, hq₀.virtuals]; exact hc) hend
  have hq₁ := Quiet.enableMoves (s₀.merge u v) [v]
  obtain ⟨s₁, hs₁⟩ : ∃ s₁, s₁ = (s₀.merge u v).enableMoves [v] := ⟨_, rfl⟩
  rw [← hs₁] at hq₁
  have hu₁ : s₁.isPresent u = true := by
    rw [hq₁.isPresent, hl.isPresent, hu₀]
    simp [huv]
  have h₁' := h₁.quiet hq₁
  rw [← hq₁.adjacent] at h₁'
  have hts : ∀ t ∈ s₁.adjacent v, s₁.isPresent t = true ∧ t ≠ u := by
    intro t ht
    rw [mem_adjacent] at ht
    refine ⟨ht.2, ?_⟩
    rintro rfl
    rw [hq₁.adjacency, hl.adjacency, h₀.sound.faithful.mem_adjacency
      (h₀.sound.not_isPrecoloured_of_isOpen hv₀), Graph.interferes_comm, hni₀] at ht
    cases ht.1
  obtain ⟨s₂, hok₂, h₂, hk₂⟩ := h₁'.forward_all hu₁ hts
  have hnode : s₂.node.get u = s.node.get u := by
    rw [hk₂.node, hq₁.node_eq, merge_node, if_neg huv, hq₀.node_eq]
  have hdeg : s.graph.degree.get u ≤ s₂.graph.degree.get u := by
    refine le_trans ?_ hk₂.degree
    rw [hq₁.graph_eq, hl.degree, hq₀.graph_eq]
  obtain ⟨h₃, hm₃, ht₃⟩ := h₂.raise rfl hdeg (by rw [hnode]; exact hm) rfl
  refine ⟨_, ?_, h₃, hm₃, ?_, ?_⟩
  · rw [combine_of_not_isFinal (NodeState.isFinal_of_isOpen hv), ← hs₀, ← hs₁]
    exact congrArg (· >>= _) hok₂
  · exact hq₀.grows.trans (grows_merge.trans (hq₁.grows.trans (hk₂.grows.trans ht₃.grows)))
  · have hnodes : (s₀.merge u v).node = (s.setNode v (.coalesced u)).node := by rw [hs₀]; rfl
    have hcalm := hk₂.calm.trans ht₃.node
    rw [Calm, hq₁.node_eq, hnodes] at hcalm
    exact hcalm

/-! ## The ends of a move -/

section Exempt

variable {owed : List (Fin n)} {miss : Fin n → Fin n → Prop} {exempt exempt' : Fin n → Prop}

/-- A move that changes its state concerns only the nodes that represent its ends. -/
theorem Invariant.setMove (h : Invariant p s owed miss exempt) (i : Fin m) (st : MoveState)
    (hi : ∀ x, s.IsRoot x → i ∈ s.graph.moves.get x → exempt' x)
    (he : ∀ x, exempt x → exempt' x) : Invariant p (s.setMove i st) owed miss exempt' := by
  refine h.tweak (.setMove s i st) (fun _ _ ↦ rfl) fun x hx ↦ ?_
  by_cases hroot : s.IsRoot x
  · refine (h.classified x (mt (he x) hx)).congr rfl rfl ?_ (List.suffix_cons _ _)
    have hmem : i ∉ s.graph.moves.get x := mt (hi x hroot) hx
    have hfilter : (s.setMove i st).nodeMoves x = s.nodeMoves x := by
      refine List.filter_congr fun j hj ↦ ?_
      rw [isPending_setMove, if_neg (ne_of_mem_of_not_mem hj hmem)]
    rw [isMoveRelated, hfilter]
    rfl
  · obtain ⟨w, hw⟩ : ∃ w, s.node.get x = .coalesced w := by simpa [IsRoot] using hroot
    rw [Classified, setMove_node, hw]
    trivial

theorem addWorklist_spec (s : Colouring n m) (u : Fin n) : Tweak s (s.addWorklist p u) ∧
    (s.addWorklist p u).graph = s.graph ∧ (s.addWorklist p u).move = s.move ∧
    ∀ x, x ≠ u → (s.addWorklist p u).node.get x = s.node.get x := by
  unfold addWorklist
  split
  · rename_i hc
    refine ⟨Tweak.setNode rfl (.inl (by rw [hc.1]; rfl)), rfl, rfl, fun x hx ↦ ?_⟩
    rw [setNode_node, if_neg hx]
  · exact ⟨.refl s, rfl, rfl, fun _ _ ↦ rfl⟩

theorem isMoveRelated_addWorklist (s : Colouring n m) (u x : Fin n) :
    (s.addWorklist p u).isMoveRelated x = s.isMoveRelated x := by
  obtain ⟨ht, -, hm, -⟩ := addWorklist_spec (p := p) s u
  exact ht.isMoveRelated (fun i ↦ by rw [isPending, hm]; rfl) x

/-- A node whose last move may be gone is in the right state after it has been looked at. -/
theorem Invariant.addWorklist (h : Invariant p s owed miss exempt) (hu : Movable p s u)
    (he : ∀ x, exempt x → x ≠ u → exempt' x) :
    Invariant p (s.addWorklist p u) owed miss exempt' := by
  obtain ⟨ht, hg, -, hn⟩ := addWorklist_spec (p := p) s u
  refine h.tweak ht (fun x _ ↦ by rw [hg]) fun x hx ↦ ?_
  by_cases hxu : x = u
  · subst hxu
    rw [Classified, isMoveRelated_addWorklist, hg]
    unfold Movable at hu
    by_cases hf : s.node.get x = .freeze
    · rw [hf] at hu
      by_cases hr : s.isMoveRelated x = true
      · rw [Colouring.addWorklist, if_neg (by simp [hr]), hf, hr]
        exact ⟨hu.1, rfl⟩
      · rw [Bool.not_eq_true] at hr
        rw [Colouring.addWorklist, if_pos ⟨hf, by simp [hr], hu.1⟩, setNode_node, if_pos rfl, hr]
        exact ⟨rfl, fun hk ↦ absurd hu.1 (not_lt.2 hk)⟩
    · rw [Colouring.addWorklist, if_neg (fun hc ↦ hf hc.1)]
      revert hu hf
      cases s.node.get x <;> simp [Fits]
  · refine (h.classified x fun hex ↦ hx (he x hex hxu)).congr (hn x hxu) (by rw [hg]) ?_ ht.trace
    exact isMoveRelated_addWorklist s u x

theorem Movable.addWorklist (h : Movable p s v) (hvu : v ≠ u) :
    Movable p (s.addWorklist p u) v := by
  obtain ⟨-, hg, -, hn⟩ := addWorklist_spec (p := p) s u
  exact h.congr (hn v hvu) (by rw [hg])

end Exempt

/-- The ends of a move, in either order, are the nodes that represent its two registers. -/
theorem Sound.ends {i : Fin m} (h : Sound p s) (he : s.ends p i = (u, v)) :
    s.IsRoot u ∧ s.IsRoot v ∧ i ∈ s.graph.moves.get u ∧ i ∈ s.graph.moves.get v ∧
      ∀ x, s.IsRoot x → i ∈ s.graph.moves.get x → x = u ∨ x = v := by
  have hd := h.aliases.isRoot_rep (p.moves.get i).dst
  have hs := h.aliases.isRoot_rep (p.moves.get i).src
  have hx : ∀ x, s.IsRoot x → (i ∈ s.graph.moves.get x ↔
      s.rep (p.moves.get i).dst = x ∨ s.rep (p.moves.get i).src = x) := fun x hx ↦ h.mem_moves hx i
  unfold Colouring.ends at he
  simp only at he
  split at he <;>
    · obtain ⟨rfl, rfl⟩ := Prod.mk.inj he
      refine ⟨by assumption, by assumption, ?_, ?_, ?_⟩ <;> grind

/-- What represents a node is the node itself, or has been coalesced into directly. -/
theorem AliasOrdered.rep_eq_or (h : s.AliasOrdered) (x : Fin n) :
    s.rep x = x ∨ ∃ y, s.node.get y = .coalesced (s.rep x) := by
  induction x using h.induct with
  | root x hx => exact .inl (rep_of_isRoot hx)
  | step x y hxy ih =>
    rw [h.rep_coalesced hxy]
    rcases ih with ih | ih
    · exact .inr ⟨x, by rw [ih, hxy]⟩
    · exact .inr ih

theorem Sound.isEnd_rep (h : Sound p s) {x : Fin n} (hx : IsEnd p x) : IsEnd p (s.rep x) := by
  rcases h.aliases.rep_eq_or x with he | ⟨y, hy⟩
  · rwa [he]
  · exact h.isEnd_of_coalesced hy

/-- A node that stands for itself and has moves is an end of one. -/
theorem Sound.isEnd_of_mem_moves {i : Fin m} (h : Sound p s) (hu : s.IsRoot u)
    (hi : i ∈ s.graph.moves.get u) : IsEnd p u := by
  rcases (h.mem_moves hu i).1 hi with he | he
  · rw [← he]
    exact h.isEnd_rep ⟨i, .inl rfl⟩
  · rw [← he]
    exact h.isEnd_rep ⟨i, .inr rfl⟩

theorem Sound.isPresent_of_movable (h : Sound p s) (hm : Movable p s u) (hr : s.IsRoot u) :
    s.isPresent u = true := by
  rcases h.isOpen_or (u := u) with ho | hp | hs | ⟨w, hw⟩
  · exact isPresent_of_isOpen ho
  · rw [isPresent, hp]
  · rw [Movable, hs] at hm
    cases hm
  · exact absurd hw (hr w)

theorem isColour_of_not_isFixed (h : s.isFixed p u = false) :
    s.graph.isPrecoloured u = true → p.isColour (u - s.graph.virtuals) = true := by
  intro hu
  simpa [isFixed, Graph.precolour?, hu] using h

/-! ## Coalesce

The four things that can become of a move are one lemma each. -/

/-- The move waits to be looked at, and its ends are `u` and `v`. -/
structure Attempt (p : ColouringProblem n m) (s : Colouring n m) (i : Fin m) (u v : Fin n) :
    Prop where
  settled : Settled p s
  worklist : s.move.get i = .worklist
  ends : s.ends p i = (u, v)

theorem Advances.of_note {e : ColouringEvent n m} (h : Advances p (s.note e) s') :
    Advances p s s' := by
  refine ⟨h.settled, (Quiet.note s e).grows.trans h.grows, ?_⟩
  cases h.progress with
  | leave v st hv hst hcalm => exact .leave v st hv hst hcalm
  | look i hi hcalm hmoves => exact .look i hi hcalm hmoves
  | wake u hu hcalm hmoves => exact .wake u hu hcalm hmoves

namespace Attempt

variable {i : Fin m}

theorem note (h : Attempt p s i u v) (e : ColouringEvent n m) : Attempt p (s.note e) i u v := by
  have hq := Quiet.note s e
  refine ⟨h.settled.quiet hq, h.worklist, ?_⟩
  rw [Colouring.ends, hq.rep, hq.rep]
  exact h.ends

theorem movable (h : Attempt p s i u v) : Movable p s u ∧ Movable p s v := by
  obtain ⟨-, -, hiu, hiv, -⟩ := h.settled.sound.ends h.ends
  have hpend : s.isPending i = true := by rw [isPending, h.worklist]; rfl
  exact ⟨(h.settled.classified u id).movable (isMoveRelated_iff.2 ⟨i, hiu, hpend⟩),
    (h.settled.classified v id).movable (isMoveRelated_iff.2 ⟨i, hiv, hpend⟩)⟩

/-- A new state of the move leaves only its two ends to be looked at. -/
theorem setMove (h : Attempt p s i u v) (st : MoveState) :
    Invariant p (s.setMove i st) [] (fun _ _ ↦ False) fun x ↦ x = u ∨ x = v := by
  obtain ⟨-, -, -, -, hends⟩ := h.settled.sound.ends h.ends
  exact h.settled.setMove i st hends fun _ hf ↦ hf.elim

/-- The move will not be looked at again before another one has been. -/
theorem advances (h : Attempt p s i u v) {st : MoveState} (hst : st ≠ .worklist)
    (ht : Tweak (s.setMove i st) s') (hm : s'.move = (s.setMove i st).move)
    (hs' : Settled p s') : Advances p s s' := by
  have ht' := (Tweak.setMove s i st).trans ht
  refine ⟨hs', ht'.grows, .look i h.worklist ht'.node fun j hj ↦ ?_⟩
  rw [hm, setMove_move] at hj
  split at hj
  · exact absurd hj hst
  · exact ⟨‹_›, hj⟩

theorem coalesced (h : Attempt p s i u u) :
    Advances p s ((s.setMove i .coalesced).addWorklist p u) := by
  obtain ⟨ht, -, hm, -⟩ := addWorklist_spec (p := p) (s.setMove i .coalesced) u
  exact h.advances (by decide) ht hm ((h.setMove _).addWorklist h.movable.1 (by tauto))

theorem constrained (h : Attempt p s i u v) (huv : u ≠ v) :
    Advances p s (((s.setMove i .constrained).addWorklist p u).addWorklist p v) := by
  obtain ⟨ht₁, -, hm₁, -⟩ := addWorklist_spec (p := p) (s.setMove i .constrained) u
  obtain ⟨ht₂, -, hm₂, -⟩ :=
    addWorklist_spec (p := p) ((s.setMove i .constrained).addWorklist p u) v
  have hu : Invariant p ((s.setMove i .constrained).addWorklist p u) [] (fun _ _ ↦ False) (· = v) :=
    (h.setMove _).addWorklist h.movable.1 (by tauto)
  have hv : Movable p (s.setMove i .constrained) v := h.movable.2
  exact h.advances (by decide) (ht₁.trans ht₂) (hm₂.trans hm₁)
    (hu.addWorklist (hv.addWorklist huv.symm) (by tauto))

theorem active (h : Attempt p s i u v) : Advances p s (s.setMove i .active) := by
  have hpend : s.isPending i = true := by rw [isPending, h.worklist]; rfl
  exact h.advances (by decide) (.refl _) rfl (h.settled.quiet (.setMove hpend rfl))

/-- The ends are combined unless they interfere or stand for fixed registers. -/
theorem combine (h : Attempt p s i u v) (huv : u ≠ v) (hv : s.graph.isPrecoloured v = false)
    (hni : s.graph.interferes u v = false) (hu : s.isFixed p u = false) :
    ∃ s', (s.setMove i .coalesced).combine p u v = .ok s' ∧ Advances p s (s'.addWorklist p u) := by
  obtain ⟨hur, hvr, hiu, -, -⟩ := h.settled.sound.ends h.ends
  have h₁ := h.setMove .coalesced
  have hvo : (s.node.get v).isOpen = true := by
    refine (h.settled.sound.isPresent_iff.1 ?_).resolve_right (by rw [hv]; exact Bool.noConfusion)
    exact h.settled.sound.isPresent_of_movable h.movable.2 hvr
  obtain ⟨s', hok, hs', hms', hgr, hcalm⟩ := h₁.combine hvo
    (h₁.sound.isPresent_of_movable h.movable.1 hur) huv hni (isColour_of_not_isFixed hu)
    (h.settled.sound.isEnd_of_mem_moves hur hiu) h.movable.1
  obtain ⟨ht, -, -, -⟩ := addWorklist_spec (p := p) s' u
  have hcalm' : Calm (s.setNode v (.coalesced u)) s' := hcalm
  refine ⟨s', hok, hs'.addWorklist hms' (by tauto), ?_, ?_⟩
  · exact (Tweak.setMove s i .coalesced).grows.trans (hgr.trans ht.grows)
  · exact .leave v (.coalesced u) hvo rfl (hcalm'.trans ht.node)

end Attempt

/-- A move that is to be looked at can be put into any state. -/
theorem coalesce_of_worklist {i : Fin m} (hi : s.move.get i = .worklist)
    (he : s.ends p i = (u, v)) :
    s.coalesce p i =
      let s := s.note (.attempt i u v)
      if u = v then .ok ((s.setMove i .coalesced).addWorklist p u)
      else if s.graph.isPrecoloured v || s.graph.interferes u v || s.isFixed p u then
        .ok (((s.setMove i .constrained).addWorklist p u).addWorklist p v)
      else if s.canCoalesce p u v then
        (s.setMove i .coalesced).combine p u v >>= fun s ↦ .ok (s.addWorklist p u)
      else .ok (s.setMove i .active) := by
  have hfin : ((s.note (.attempt i u v)).move.get i).isFinal = false := by
    change (s.move.get i).isFinal = false
    rw [hi]
    rfl
  rw [Colouring.coalesce, he]
  simp only [transitionMove_eq_ok hfin]
  rfl

/-- Looking at a move succeeds and keeps the invariant. -/
theorem Settled.coalesce {i : Fin m} (h : Settled p s) (hi : s.move.get i = .worklist) :
    ∃ s', s.coalesce p i = .ok s' ∧ Advances p s s' := by
  obtain ⟨⟨u, v⟩, he⟩ : ∃ e, s.ends p i = e := ⟨_, rfl⟩
  have ha : Attempt p (s.note (.attempt i u v)) i u v := Attempt.note ⟨h, hi, he⟩ _
  rw [coalesce_of_worklist hi he]
  dsimp only
  split
  · rename_i huv
    subst huv
    exact ⟨_, rfl, ha.coalesced.of_note⟩
  rename_i huv
  split
  · exact ⟨_, rfl, (ha.constrained huv).of_note⟩
  rename_i hfree
  split
  · simp only [Bool.or_eq_true, not_or, Bool.not_eq_true] at hfree
    obtain ⟨⟨hv, hni⟩, hfix⟩ := hfree
    obtain ⟨s', hok, hs'⟩ := ha.combine huv hv hni hfix
    rw [hok]
    exact ⟨_, rfl, hs'.of_note⟩
  · exact ⟨_, rfl, ha.active.of_note⟩

end RegAlloc.Colouring

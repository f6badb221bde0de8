import Mathlib
import RegAlloc.Proofs.Colouring.Worklists

/-!
# What a step changes

The inversion of a step: `Change` has one case for each thing that a step can do to the shape of the
graph and to the moves. It is read off the code of the steps, without the invariant, and invariants
that are not part of `Settled` are derived from it.

Most of the work inside of a step only `Shifts` a colouring: nodes stay in the graph or out of it,
representatives stay as they are, no move begins to wait and no node is chosen as a potential spill.
-/

namespace RegAlloc

/-- What a fold that succeeds has done, by what one element does in front of the rest. -/
theorem foldlM_induct {σ α : Type} {f : σ → α → Except Fault σ} (motive : List α → σ → Prop)
    (step : ∀ a as s s', motive (a :: as) s → f s a = .ok s' → motive as s') {as : List α}
    {s s' : σ} (h : motive as s) (hok : as.foldlM f s = .ok s') : motive [] s' := by
  induction as generalizing s with
  | nil =>
    cases hok
    exact h
  | cons hd tl ih =>
    rw [List.foldlM_cons] at hok
    obtain ⟨s₁, h₁, hok⟩ := bind_eq_ok_iff.1 hok
    exact ih (step hd tl s s₁ h h₁) hok

namespace Colouring

variable {n m : Nat} {p : ColouringProblem n m} {s s' s'' : Colouring n m} {u v : Fin n}

theorem transition_eq_ok_iff {st : NodeState n} : s.transition u st = .ok s' ↔
    (s.node.get u).isFinal = false ∧ s' = s.setNode u st := by
  unfold transition
  split
  · rename_i hfin
    simp [hfin]
  · rename_i hfin
    simp [hfin, eq_comm]

theorem transitionMove_eq_ok_iff {i : Fin m} {st : MoveState} : s.transitionMove i st = .ok s' ↔
    (s.move.get i).isFinal = false ∧ s' = s.setMove i st := by
  unfold transitionMove
  split
  · rename_i hfin
    simp [hfin]
  · rename_i hfin
    simp [hfin, eq_comm]

/-- A node that is simplified has left its state. -/
theorem foldlM_of_simplify (hok : s.simplify p u = .ok s') :
    ((s.setNode u .selected).adjacent u).foldlM (decrementDegree p) (s.setNode u .selected) =
      .ok s' := by
  obtain ⟨s₁, h₁, hok⟩ := bind_eq_ok_iff.1 hok
  obtain ⟨-, rfl⟩ := transition_eq_ok_iff.1 h₁
  exact hok

/-- So has a node that is made ready to be simplified. -/
theorem freezeMoves_of_freeze (hok : s.freeze p u = .ok s') :
    (s.setNode u .simplify).freezeMoves p u = .ok s' := by
  obtain ⟨s₁, h₁, hok⟩ := bind_eq_ok_iff.1 hok
  obtain ⟨-, rfl⟩ := transition_eq_ok_iff.1 h₁
  exact hok

/-! ## Changes inside of a step -/

/-- The same nodes are in the graph and represent each other as before. New edges are those of
`new`, and they have not changed the neighbours of nodes that are out of the graph. -/
structure Shifts (new : Fin n → Fin n → Prop) (s s' : Colouring n m) : Prop where
  virtuals : s'.graph.virtuals = s.graph.virtuals
  interferes : ∀ a b, s'.graph.interferes a b = true ↔ s.graph.interferes a b = true ∨ new a b
  adjacency : ∀ x, s.isPresent x = false → s'.graph.adjacency.get x = s.graph.adjacency.get x
  degree : ∀ x : Fin n, s.graph.isPrecoloured x = true →
    s'.graph.degree.get x = s.graph.degree.get x
  stack : s'.work.stack = s.work.stack
  isPresent : ∀ x, s'.isPresent x = s.isPresent x
  rep : ∀ x, s'.rep x = s.rep x
  initial : ∀ x, s'.node.get x = .initial → s.node.get x = .initial
  wasChosen : ∀ x, s'.WasChosen x → s.WasChosen x

namespace Shifts

variable {new new' : Fin n → Fin n → Prop}

theorem isPrecoloured (h : Shifts new s s') (x : Nat) :
    s'.graph.isPrecoloured x = s.graph.isPrecoloured x := by
  rw [Graph.isPrecoloured, h.virtuals]
  rfl

theorem trans (h : Shifts new s s') (h' : Shifts new' s' s'') :
    Shifts (fun a b ↦ new a b ∨ new' a b) s s'' where
  virtuals := h'.virtuals.trans h.virtuals
  interferes a b := by rw [h'.interferes, h.interferes, or_assoc]
  adjacency x hx := (h'.adjacency x (by rwa [h.isPresent])).trans (h.adjacency x hx)
  degree x hx := (h'.degree x (by rwa [h.isPrecoloured])).trans (h.degree x hx)
  stack := h'.stack.trans h.stack
  isPresent x := (h'.isPresent x).trans (h.isPresent x)
  rep x := (h'.rep x).trans (h.rep x)
  initial x hx := h.initial x (h'.initial x hx)
  wasChosen x hx := h.wasChosen x (h'.wasChosen x hx)

theorem congr (h : Shifts new s s') (hnew : ∀ a b, new a b ↔ new' a b) : Shifts new' s s' :=
  { h with interferes := fun a b ↦ by rw [h.interferes, hnew] }

/-- Nothing but moves, and what happened, has changed. -/
theorem of_eq (hg : s'.graph = s.graph) (hn : s'.node = s.node)
    (hs : s'.work.stack = s.work.stack) (hc : ∀ x, s'.WasChosen x → s.WasChosen x) :
    Shifts (fun _ _ ↦ False) s s' where
  virtuals := by rw [hg]
  interferes a b := by rw [hg, or_false]
  adjacency x _ := by rw [hg]
  degree x _ := by rw [hg]
  stack := hs
  isPresent x := by rw [Colouring.isPresent, hn]; rfl
  rep := rep_congr fun _ _ ↦ by rw [hn]
  initial x := by rw [hn]; exact id
  wasChosen := hc

end Shifts

/-- A change without new edges after which no other move waits. -/
structure Stirs (s s' : Colouring n m) : Prop extends Shifts (fun _ _ ↦ False) s s' where
  active : ∀ i, s'.move.get i = .active → s.move.get i = .active

theorem Shifts.stirs {new : Fin n → Fin n → Prop} (h : Shifts new s s') (h' : Stirs s' s'') :
    Shifts new s s'' :=
  (h.trans h'.toShifts).congr fun a b ↦ by rw [or_false]

theorem isPresent_setNode {st : NodeState n} (hst : st.isListed = true)
    (hu : s.isPresent u = true) (x : Fin n) : (s.setNode u st).isPresent x = s.isPresent x := by
  by_cases hx : x = u
  · rw [hx, hu, isPresent, setNode_node, if_pos rfl]
    cases st <;> simp_all [NodeState.isListed]
  · rw [isPresent, setNode_node, if_neg hx]
    rfl

theorem rep_setNode {st : NodeState n} (hst : ∀ w, st ≠ .coalesced w) (hu : s.IsRoot u)
    (x : Fin n) : (s.setNode u st).rep x = s.rep x := by
  refine rep_congr (fun y w ↦ ?_) x
  rw [setNode_node]
  split
  · rename_i hy
    rw [hy]
    exact iff_of_false (hst w) (hu w)
  · rfl

/-- An event that is not the choice of a node chooses none. -/
theorem WasChosen.of_cons {e : ColouringEvent n m} (he : ∀ x d, e ≠ .potentialSpill x d)
    (ht : s'.trace = e :: s.trace) (x : Fin n) (h : s'.WasChosen x) : s.WasChosen x := by
  obtain ⟨d, hd⟩ := h
  rw [ht] at hd
  exact ⟨d, (List.mem_cons.1 hd).resolve_left fun hc ↦ he x d hc.symm⟩

namespace Stirs

theorem refl (s : Colouring n m) : Stirs s s :=
  ⟨.of_eq rfl rfl rfl fun _ ↦ id, fun _ ↦ id⟩

theorem trans (h : Stirs s s') (h' : Stirs s' s'') : Stirs s s'' :=
  ⟨h.toShifts.stirs h', fun i hi ↦ h.active i (h'.active i hi)⟩

theorem foldl {α : Type} {f : Colouring n m → α → Colouring n m} (h : ∀ s a, Stirs s (f s a))
    (as : List α) (s : Colouring n m) : Stirs s (as.foldl f s) := by
  induction as generalizing s with
  | nil => exact refl s
  | cons hd tl ih => exact (h s hd).trans (ih (f s hd))

theorem note (s : Colouring n m) {e : ColouringEvent n m} (he : ∀ x d, e ≠ .potentialSpill x d) :
    Stirs s (s.note e) :=
  ⟨.of_eq rfl rfl rfl (.of_cons he rfl), fun _ ↦ id⟩

end Stirs

theorem shifts_setMove (s : Colouring n m) (i : Fin m) (st : MoveState) :
    Shifts (fun _ _ ↦ False) s (s.setMove i st) :=
  .of_eq rfl rfl (s.work.changeMove_nodes i st (s.move.get i)).2.2.2.2.2
    (.of_cons (by simp) rfl)

namespace Stirs

theorem setMove (s : Colouring n m) (i : Fin m) {st : MoveState} (hst : st ≠ .active) :
    Stirs s (s.setMove i st) := by
  refine ⟨shifts_setMove s i st, fun j hj ↦ ?_⟩
  rw [setMove_move] at hj
  split at hj
  · exact absurd hj hst
  · exact hj

theorem setDegree (hu : s.graph.isPrecoloured u = false) (d : Nat) : Stirs s (s.setDegree u d) where
  virtuals := rfl
  interferes a b := (or_false _).symm ▸ Iff.rfl
  adjacency _ _ := rfl
  degree x hx := Vector.get_set_of_ne _ (by rintro rfl; rw [hu] at hx; cases hx) _
  stack := rfl
  isPresent _ := rfl
  rep := rep_congr fun _ _ ↦ Iff.rfl
  initial _ := id
  wasChosen _ := id
  active _ := id

/-- A node that is in the graph goes into one of the lists of work. -/
theorem setNode {st : NodeState n} (hst : st.isListed = true) (hu : s.isPresent u = true) :
    Stirs s (s.setNode u st) where
  virtuals := rfl
  interferes a b := (or_false _).symm ▸ Iff.rfl
  adjacency _ _ := rfl
  degree _ _ := rfl
  stack := by
    rw [setNode_work, Worklists.enter_stack, if_neg (by rintro rfl; cases hst)]
    exact (s.work.leave_lists u _).1
  isPresent := isPresent_setNode hst hu
  rep := rep_setNode (by rintro w rfl; cases hst) (isRoot_of_isPresent hu)
  initial x hx := by
    rw [setNode_node] at hx
    split at hx
    · rw [hx] at hst
      cases hst
    · exact hx
  wasChosen := .of_cons (by simp) rfl
  active _ := id

theorem enableMove (s : Colouring n m) (i : Fin m) : Stirs s (s.enableMove i) := by
  unfold Colouring.enableMove
  split
  · exact setMove s i (by decide)
  · exact refl s

theorem enableMoves (s : Colouring n m) (us : List (Fin n)) : Stirs s (s.enableMoves us) :=
  foldl (fun s u ↦ foldl enableMove (s.nodeMoves u) s) us s

theorem decrementDegree (hu : s.isPresent u = true) (hok : s.decrementDegree p u = .ok s') :
    Stirs s s' := by
  unfold Colouring.decrementDegree at hok
  split at hok
  · cases hok
    exact refl s
  rename_i hpre
  split at hok
  · cases hok
  rename_i d hd
  have hset : Stirs s (s.setDegree u d) := setDegree (by simpa using hpre) d
  split at hok
  · have hen := hset.trans (enableMoves _ ((s.setDegree u d).adjacent u ++ [u]))
    obtain ⟨-, rfl⟩ := transition_eq_ok_iff.1 hok
    refine hen.trans (setNode ?_ (by rwa [hen.isPresent]))
    split <;> rfl
  · cases hok
    exact hset

theorem addWorklist (s : Colouring n m) (u : Fin n) : Stirs s (s.addWorklist p u) := by
  unfold Colouring.addWorklist
  split
  · rename_i hc
    exact setNode rfl (by rw [Colouring.isPresent, hc.1])
  · exact refl s

theorem freezeMove {i : Fin m} (hok : freezeMove p u s i = .ok s') : Stirs s s' := by
  unfold Colouring.freezeMove at hok
  obtain ⟨s₁, h₁, hok⟩ := bind_eq_ok_iff.1 hok
  cases hok
  obtain ⟨-, rfl⟩ := transitionMove_eq_ok_iff.1 h₁
  exact (setMove s i (by decide)).trans (addWorklist _ _)

theorem freezeMoves (hok : s.freezeMoves p u = .ok s') : Stirs s s' :=
  foldlM_induct (fun _ s₁ ↦ Stirs s s₁) (fun _ _ _ _ h hok ↦ h.trans (freezeMove hok)) (refl s) hok

/-- A node of the graph is made ready to be simplified. -/
theorem wake (hu : s.isPresent u = true) (hok : s.freeze p u = .ok s') : Stirs s s' :=
  (setNode rfl hu).trans (freezeMoves (freezeMoves_of_freeze hok))

/-- The neighbours of a node pay their decrements. -/
theorem decrement_all {ts : List (Fin n)} (hts : ∀ t ∈ ts, s.isPresent t = true)
    (hok : ts.foldlM (Colouring.decrementDegree p) s = .ok s') : Stirs s s' := by
  refine (foldlM_induct
    (fun ts s₁ ↦ (∀ t ∈ ts, s₁.isPresent t = true) ∧ Stirs s s₁) ?_ ⟨hts, refl s⟩ hok).2
  rintro t ts s₁ s₂ ⟨hp, h⟩ hok
  have h₂ := decrementDegree (hp t List.mem_cons_self) hok
  refine ⟨fun x hx ↦ ?_, h.trans h₂⟩
  rw [h₂.isPresent]
  exact hp x (List.mem_cons_of_mem _ hx)

theorem enlist (hu : s.isPresent u = true) (hok : s.enlist p u = .ok s') : Stirs s s' := by
  obtain ⟨-, rfl⟩ := transition_eq_ok_iff.1 hok
  refine setNode ?_ hu
  split_ifs <;> rfl

/-- Nodes of the graph are sorted into the work. -/
theorem makeWorklist {us : List (Fin n)} (hus : ∀ u ∈ us, s.isPresent u = true)
    (hok : s.makeWorklist p us = .ok s') : Stirs s s' := by
  refine (foldlM_induct
    (fun us s₁ ↦ (∀ u ∈ us, s₁.isPresent u = true) ∧ Stirs s s₁) ?_ ⟨hus, refl s⟩ hok).2
  rintro u us s₁ s₂ ⟨hp, h⟩ hok
  have h₂ := enlist (hp u List.mem_cons_self) hok
  refine ⟨fun x hx ↦ ?_, h.trans h₂⟩
  rw [h₂.isPresent]
  exact hp x (List.mem_cons_of_mem _ hx)

end Stirs

/-! ## Edges of a coalesced node -/

theorem shifts_addEdge {t : Fin n} (ht : s.isPresent t = true) (hu : s.isPresent u = true)
    (htu : t ≠ u) : Shifts (Between u [t]) s (s.addEdge t u) where
  virtuals := by rw [addEdge_graph, Graph.addEdge_virtuals]
  interferes a b := by
    rw [addEdge_graph, Graph.interferes_addEdge]
    simp only [Between, List.mem_singleton]
    tauto
  adjacency x hx := by
    rw [addEdge_graph]
    by_cases hnew : s.graph.IsNew t u
    · have hxt : x ≠ t := by rintro rfl; rw [ht] at hx; cases hx
      have hxu : x ≠ u := by rintro rfl; rw [hu] at hx; cases hx
      rw [Graph.adjacency_addEdge_of_isNew _ _ _ _ hnew, if_neg hxt, if_neg hxu]
      split <;> rfl
    · rw [Graph.addEdge_of_not_isNew hnew]
  degree x hx := by
    rw [addEdge_graph]
    by_cases hnew : s.graph.IsNew t u
    · rw [Graph.degree_addEdge_of_isNew _ _ _ _ hnew, if_neg (by simp [hx])]
    · rw [Graph.addEdge_of_not_isNew hnew]
  stack := by rw [addEdge_work]
  isPresent := isPresent_addEdge s t u
  rep := rep_addEdge s t u
  initial x hx := by rwa [addEdge_node] at hx
  wasChosen x := by
    unfold addEdge
    split
    · exact id
    · exact WasChosen.of_cons (by simp) rfl x

/-- The neighbours of the coalesced node get their edges to `u`. -/
theorem shifts_forward_all {ts : List (Fin n)} (hu : s.isPresent u = true)
    (hts : ∀ t ∈ ts, s.isPresent t = true ∧ t ≠ u)
    (hok : ts.foldlM (fun s t ↦ (s.addEdge t u).decrementDegree p t) s = .ok s') :
    Shifts (Between u ts) s s' ∧ ∀ i, s'.move.get i = .active → s.move.get i = .active := by
  -- what has been added so far, together with what is left, is all of the list
  obtain ⟨done, -, hmem, h, hact⟩ := foldlM_induct
    (fun rest s₁ ↦ ∃ done, (∀ t ∈ rest, s₁.isPresent t = true ∧ t ≠ u) ∧
      (∀ t, t ∈ ts ↔ t ∈ done ∨ t ∈ rest) ∧ Shifts (Between u done) s s₁ ∧
      ∀ i, s₁.move.get i = .active → s.move.get i = .active)
    (by
      rintro t rest s₁ s₂ ⟨done, hp, hmem, h, hact⟩ hok
      obtain ⟨htp, htu⟩ := hp t List.mem_cons_self
      have hadd := shifts_addEdge htp (by rwa [h.isPresent]) htu
      have hdec := Stirs.decrementDegree (by rwa [hadd.isPresent]) hok
      have h₂ := hadd.stirs hdec
      refine ⟨t :: done, fun x hx ↦ ?_, fun x ↦ ?_, (h.trans h₂).congr fun a b ↦ ?_, fun i hi ↦ ?_⟩
      · rw [h₂.isPresent]
        exact hp x (List.mem_cons_of_mem _ hx)
      · rw [hmem, List.mem_cons, List.mem_cons]
        tauto
      · simp only [Between, List.mem_cons, List.not_mem_nil, or_false]
        tauto
      · have hi := hdec.active i hi
        rw [addEdge_move] at hi
        exact hact i hi)
    ⟨[], hts, fun t ↦ by simp, (Stirs.refl s).toShifts.congr fun a b ↦ by simp [Between],
      fun _ ↦ id⟩ hok
  refine ⟨h.congr fun a b ↦ ?_, hact⟩
  simp only [Between, hmem, List.not_mem_nil, or_false]

/-- No move of the given nodes waits after they have been enabled. -/
theorem enableMoves_singleton_move {i : Fin m} (h : (s.enableMoves [u]).move.get i = .active) :
    i ∉ s.nodeMoves u := by
  suffices hfold : ∀ (is : List (Fin m)) (s : Colouring n m),
      (is.foldl enableMove s).move.get i = .active → i ∉ is from hfold _ _ h
  intro is
  induction is with
  | nil => exact fun _ _ ↦ List.not_mem_nil
  | cons hd tl ih =>
    intro s h
    rw [List.foldl_cons] at h
    rw [List.mem_cons, not_or]
    refine ⟨?_, ih _ h⟩
    rintro rfl
    have hact := (Stirs.foldl Stirs.enableMove tl (s.enableMove i)).active i h
    unfold enableMove at hact
    split at hact
    · simp at hact
    · contradiction

/-- A merge of two colourings that differ in moves, and in what happened, only. -/
theorem Shifts.merge (h : Shifts (fun _ _ ↦ False) s s') (hg : s'.graph = s.graph)
    (hn : s'.node = s.node) (u v : Fin n) :
    Shifts (fun _ _ ↦ False) (s.merge u v) (s'.merge u v) := by
  refine .of_eq (by rw [Colouring.merge, Colouring.merge, hg]) ?_
    (by rw [merge_stack, merge_stack, h.stack]) fun x hx ↦ ?_
  · show s'.node.set v _ v.isLt = s.node.set v _ v.isLt
    rw [hn]
  · have hx' : s'.WasChosen x := .of_cons (by simp) rfl x hx
    exact (h.wasChosen x hx').mono (List.suffix_cons _ _)

/-- Coalescing `v` into `u` gives `u` the edges of `v`, and lets no move of `v` wait. -/
theorem shifts_combine (hs : Sound p s) (hv : (s.node.get v).isOpen = true)
    (hu : s.isPresent u = true) (huv : u ≠ v) (hni : s.graph.interferes u v = false)
    (hok : s.combine p u v = .ok s') :
    Shifts (Between u ((s.merge u v).adjacent v)) (s.merge u v) s' ∧
      ∀ i, s'.move.get i = .active → s.move.get i = .active ∧ i ∉ s.nodeMoves v := by
  rw [combine_of_not_isFinal (NodeState.isFinal_of_isOpen hv)] at hok
  obtain ⟨s₂, hok₂, hok⟩ := bind_eq_ok_iff.1 hok
  obtain ⟨s₀, hs₀⟩ : ∃ s₀, s₀ = (s.note (.combine u v)).merge u v := ⟨_, rfl⟩
  rw [← hs₀] at hok₂
  have hl := leaves_merge (u := u) hv
  have h₀ : Shifts (fun _ _ ↦ False) (s.merge u v) s₀ := by
    rw [hs₀]
    have hnote : Stirs s (s.note (.combine u v)) := Stirs.note s (by simp)
    exact hnote.toShifts.merge rfl rfl u v
  have hen := Stirs.enableMoves s₀ [v]
  have h₁ := h₀.stirs hen
  have hadj : (s₀.enableMoves [v]).adjacent v = (s.merge u v).adjacent v := by
    rw [(Quiet.enableMoves s₀ [v]).adjacent, hs₀]
    rfl
  have hu₁ : (s₀.enableMoves [v]).isPresent u = true := by
    rw [h₁.isPresent, hl.isPresent, hu]
    simp [huv]
  have hts : ∀ t ∈ (s.merge u v).adjacent v, (s₀.enableMoves [v]).isPresent t = true ∧ t ≠ u := by
    intro t ht
    rw [mem_adjacent] at ht
    refine ⟨by rw [h₁.isPresent]; exact ht.2, ?_⟩
    rintro rfl
    rw [hl.adjacency, hs.faithful.mem_adjacency (hs.not_isPrecoloured_of_isOpen hv),
      Graph.interferes_comm, hni] at ht
    cases ht.1
  rw [hadj] at hok₂
  obtain ⟨h₂, hact₂⟩ := shifts_forward_all hu₁ hts hok₂
  have hend : Stirs s₂ s' := by
    cases hok
    split
    · rename_i hc
      exact Stirs.setNode rfl (by rw [isPresent, hc.2])
    · exact Stirs.refl s₂
  refine ⟨((h₁.trans h₂).congr fun a b ↦ by rw [false_or]).stirs hend, fun i hi ↦ ?_⟩
  have hi := hact₂ i (hend.active i hi)
  have hnot := enableMoves_singleton_move hi
  have hmove : s.move.get i = .active := by
    have := hen.active i hi
    rwa [hs₀] at this
  refine ⟨hmove, fun hmem ↦ hnot ?_⟩
  rw [mem_nodeMoves] at hmem ⊢
  rw [hs₀]
  exact ⟨(mem_moves_foldl_addMove _ _ _ _ _).2 (.inl hmem.1), hmem.2⟩

/-! ## Steps -/

/-- The node `v` is coalesced into `u`. -/
structure Coalesces (p : ColouringProblem n m) (s s' : Colouring n m) (u v : Fin n) : Prop where
  isOpen : (s.node.get v).isOpen = true
  isPresent : s.isPresent u = true
  ne : u ≠ v
  not_interferes : s.graph.interferes u v = false
  isEnd : IsEnd p u
  canCoalesce : s.canCoalesce p u v = true
  shifts : Shifts (Between u ((s.merge u v).adjacent v)) (s.merge u v) s'
  /-- A move that still waits is not one of `v`. -/
  active : ∀ i, s'.move.get i = .active → s.move.get i = .active ∧ i ∉ s.graph.moves.get v

/-- The node `u` is the first one to be simplified: it is taken out of the graph and put onto the
stack. -/
structure Pushes (p : ColouringProblem n m) (s : Colouring n m) (u : Fin n) (s' : Colouring n m) :
    Prop where
  first : s.work.simplify.toList.head? = some u
  eq_ok : s.simplify p u = .ok s'

/-- There is nothing else to do, so `u` is made ready to be simplified in spite of its degree. -/
structure Chooses (p : ColouringProblem n m) (s : Colouring n m) (u : Fin n) (s' : Colouring n m) :
    Prop where
  simplify : s.work.simplify.toList = []
  worklistMoves : s.work.worklistMoves.toList = []
  freeze : s.work.freeze.toList = []
  mem_spill : u ∈ s.work.spill
  eq_ok : s.selectSpill p u = .ok s'

/-- What a step can do. -/
inductive Change (p : ColouringProblem n m) (s s' : Colouring n m) : Prop
  /-- A node is taken out of the graph. -/
  | select (u : Fin n) (hu : s.node.get u = .simplify) (h : Stirs (s.setNode u .selected) s')
    (hp : Pushes p s u s')
  /-- Moves are given up, or found to be between a node and itself. -/
  | stir (h : Stirs s s')
  /-- A move whose ends are not both physical registers begins to wait. -/
  | wait (i : Fin m) (hi : s.graph.isPrecoloured (s.rep (p.moves.get i).dst) = false ∨
      s.graph.isPrecoloured (s.rep (p.moves.get i).src) = false)
    (h : Shifts (fun _ _ ↦ False) s s')
    (hm : ∀ j, s'.move.get j = .active → j = i ∨ s.move.get j = .active)
  | coalesce (u v : Fin n) (h : Coalesces p s s' u v)
  /-- A node is chosen as a potential spill, since there is nothing else to do. -/
  | choose (u : Fin n) (hu : s.node.get u = .spill) (hs : s.work.simplify.toList = [])
    (hf : s.work.freeze.toList = [])
    (h : Stirs (s.note (.potentialSpill u (s.graph.degree.get u))) s') (hc : Chooses p s u s')

theorem isPrecoloured_ends {i : Fin m} (he : s.ends p i = (u, v))
    (hv : s.graph.isPrecoloured v = false) :
    s.graph.isPrecoloured (s.rep (p.moves.get i).dst) = false ∨
      s.graph.isPrecoloured (s.rep (p.moves.get i).src) = false := by
  unfold ends at he
  simp only at he
  split at he <;> obtain ⟨rfl, rfl⟩ := Prod.mk.inj he
  · exact .inl hv
  · exact .inr hv

theorem Attempt.isOpen {i : Fin m} (h : Attempt p s i u v)
    (hv : s.graph.isPrecoloured v = false) : (s.node.get v).isOpen = true := by
  obtain ⟨-, hvr, -, -, -⟩ := h.settled.sound.ends h.ends
  have hpres := h.settled.sound.isPresent_of_movable h.movable.2 hvr
  refine (h.settled.sound.isPresent_iff.1 hpres).resolve_right ?_
  rw [hv]
  exact Bool.noConfusion

/-- The ends of a move are coalesced. -/
theorem Attempt.coalesces {i : Fin m} (h : Attempt p s i u v) (huv : u ≠ v)
    (hv : s.graph.isPrecoloured v = false) (hni : s.graph.interferes u v = false)
    (hcan : s.canCoalesce p u v = true)
    (hok : ((s.setMove i .coalesced).combine p u v) = .ok s') :
    Coalesces p s (s'.addWorklist p u) u v := by
  obtain ⟨hur, -, hiu, -, -⟩ := h.settled.sound.ends h.ends
  have hopen := h.isOpen hv
  have hpres := h.settled.sound.isPresent_of_movable h.movable.1 hur
  obtain ⟨hshift, hact⟩ := shifts_combine (h.setMove .coalesced).sound hopen hpres huv hni hok
  have hend := Stirs.addWorklist (p := p) s' u
  have hmerge := (shifts_setMove s i .coalesced).merge rfl rfl u v
  refine ⟨hopen, hpres, huv, hni, h.settled.sound.isEnd_of_mem_moves hur hiu, hcan,
    (hmerge.trans (hshift.stirs hend)).congr fun a b ↦ by rw [false_or]; rfl, fun j hj ↦ ?_⟩
  obtain ⟨hj, hnot⟩ := hact j (hend.active j hj)
  refine ⟨(Stirs.setMove s i (by decide)).active j hj, fun hmem ↦ hnot ?_⟩
  rw [mem_nodeMoves, isPending, hj]
  exact ⟨hmem, rfl⟩

theorem Settled.change_coalesce {i : Fin m} (h : Settled p s) (hi : s.move.get i = .worklist)
    (hok : s.coalesce p i = .ok s') : Change p s s' := by
  obtain ⟨⟨u, v⟩, he⟩ : ∃ e, s.ends p i = e := ⟨_, rfl⟩
  have ha : Attempt p (s.note (.attempt i u v)) i u v := Attempt.note ⟨h, hi, he⟩ _
  have hnote : Stirs s (s.note (.attempt i u v)) := Stirs.note s (by simp)
  rw [coalesce_of_worklist hi he] at hok
  dsimp only at hok
  split at hok
  · cases hok
    exact .stir ((hnote.trans (.setMove _ i (by decide))).trans (.addWorklist _ _))
  rename_i huv
  split at hok
  · cases hok
    exact .stir (((hnote.trans (.setMove _ i (by decide))).trans (.addWorklist _ _)).trans
      (.addWorklist _ _))
  rename_i hfree
  simp only [Bool.or_eq_true, not_or, Bool.not_eq_true] at hfree
  obtain ⟨⟨hv, hni⟩, -⟩ := hfree
  split at hok
  · rename_i hcan
    obtain ⟨s₁, hok₁, hok⟩ := bind_eq_ok_iff.1 hok
    cases hok
    have hc := ha.coalesces huv hv hni hcan hok₁
    have hmerge := hnote.toShifts.merge rfl rfl u v
    exact .coalesce u v ⟨hc.isOpen, hc.isPresent, hc.ne, hc.not_interferes, hc.isEnd,
      hc.canCoalesce, (hmerge.trans hc.shifts).congr fun a b ↦ by rw [false_or]; rfl, hc.active⟩
  · cases hok
    refine .wait i (isPrecoloured_ends he hv)
      ((hnote.toShifts.trans (shifts_setMove _ i .active)).congr fun a b ↦ by rw [or_false])
      fun j hj ↦ ?_
    rw [setMove_move] at hj
    split at hj
    · exact .inl ‹_›
    · exact .inr hj

theorem Pushes.mem_simplify (h : Pushes p s u s') : u ∈ s.work.simplify :=
  BitSet.mem_toList.1 (List.mem_of_head? h.first)

theorem Pushes.stirs (h : Pushes p s u s') : Stirs (s.setNode u .selected) s' :=
  .decrement_all (fun _ ht ↦ (mem_adjacent.1 ht).2) (foldlM_of_simplify h.eq_ok)

/-- Which of the four things a step does, and to what. -/
theorem step?_cases {choose : SpillChoice n m} (hok : s.step? p choose = some (.ok s')) :
    (∃ u, Pushes p s u s') ∨ (∃ i ∈ s.work.worklistMoves, s.coalesce p i = .ok s') ∨
      (∃ u ∈ s.work.freeze, s.freeze p u = .ok s') ∨ ∃ u, Chooses p s u s' := by
  cases h₁ : s.work.simplify.toList with
  | cons u us =>
    simp only [step?, h₁, Option.some.injEq] at hok
    exact .inl ⟨u, by rw [h₁]; rfl, hok⟩
  | nil =>
  cases h₂ : s.work.worklistMoves.toList with
  | cons i is =>
    simp only [step?, h₁, h₂, Option.some.injEq] at hok
    exact .inr (.inl ⟨i, BitSet.mem_toList.1 (h₂ ▸ List.mem_cons_self), hok⟩)
  | nil =>
  cases h₃ : s.work.freeze.toList with
  | cons u us =>
    simp only [step?, h₁, h₂, h₃, Option.some.injEq] at hok
    exact .inr (.inr (.inl ⟨u, BitSet.mem_toList.1 (h₃ ▸ List.mem_cons_self), hok⟩))
  | nil =>
  cases h₄ : s.work.spill.toList with
  | cons u us =>
    simp only [step?, h₁, h₂, h₃, h₄, Option.some.injEq] at hok
    have hmem : (choose s u us).val ∈ s.work.spill := by
      rw [← BitSet.mem_toList, h₄]
      exact (choose s u us).2
    exact .inr (.inr (.inr ⟨_, h₁, h₂, h₃, hmem, hok⟩))
  | nil => simp only [step?, h₁, h₂, h₃, h₄, reduceCtorEq] at hok

/-- Everything that a step can do. -/
theorem Settled.change (h : Settled p s) {choose : SpillChoice n m}
    (hok : s.step? p choose = some (.ok s')) : Change p s s' := by
  have hm := h.sound.mirror
  rcases step?_cases hok with ⟨u, hp⟩ | ⟨i, hi, hok⟩ | ⟨u, hu, hok⟩ | ⟨u, hc⟩
  · exact .select u ((hm.mem_simplify u).1 hp.mem_simplify) hp.stirs hp
  · exact h.change_coalesce ((hm.mem_worklistMoves i).1 hi) hok
  · exact .stir (.wake (by rw [isPresent, (hm.mem_freeze u).1 hu]) hok)
  · have hu := (hm.mem_spill u).1 hc.mem_spill
    exact .choose u hu hc.simplify hc.freeze (.wake (by rw [isPresent]; exact hu ▸ rfl) hc.eq_ok) hc

end Colouring

end RegAlloc

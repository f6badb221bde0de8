import Mathlib
import RegAlloc.Proofs.Colouring.Invariant

/-!
# Taking a node out of the graph

A node that leaves the graph is one neighbour less for each of its neighbours. They all owe a
decrement of their degree then, and pay it one after the other; a node that gets below `k`
neighbours on the way is classified anew. `Settled.simplify` puts this together for a node that is
selected.
-/

namespace RegAlloc

/-- A fold that cannot fail, by what holds in front of the rest of the list. -/
theorem foldlM_rest {σ α : Type} {f : σ → α → Except Fault σ} (motive : List α → σ → Prop)
    (step : ∀ a as s, motive (a :: as) s → ∃ s', f s a = .ok s' ∧ motive as s') (as : List α)
    (s : σ) (h : motive as s) : ∃ s', as.foldlM f s = .ok s' ∧ motive [] s' := by
  induction as generalizing s with
  | nil => exact ⟨s, rfl, h⟩
  | cons hd tl ih =>
    obtain ⟨s₁, h₁, hm₁⟩ := step hd tl s h
    obtain ⟨s₂, h₂, hm₂⟩ := ih s₁ hm₁
    refine ⟨s₂, ?_, hm₂⟩
    rw [List.foldlM_cons, h₁]
    exact h₂

namespace Colouring

variable {n m : Nat} {p : ColouringProblem n m} {s s' : Colouring n m}

/-! ## Lower degrees -/

/-- The state of a node whose degree gets down to `d`. -/
def lowered (p : ColouringProblem n m) (st : NodeState n) (d : Nat) (related : Bool) :
    NodeState n :=
  if d + 1 = p.k then if related then .freeze else .simplify else st

theorem Fits.lowered {st : NodeState n} {d : Nat} {related : Bool} {c : Prop}
    (h : Fits p st (d + 1) related c) (hst : st.isOpen = true) :
    Fits p (lowered p st d related) d related c := by
  unfold Colouring.lowered
  split
  · split <;> simp_all [Fits] <;> omega
  · rename_i hk
    cases st with
    | initial => trivial
    | simplify => exact ⟨h.1, fun hd ↦ h.2 (hd.trans (Nat.le_succ d))⟩
    | freeze => exact ⟨(Nat.lt_succ_self d).trans h.1, h.2⟩
    | spill =>
      have h : p.k ≤ d + 1 := h
      show p.k ≤ d
      omega
    | _ => cases hst

/-- The same for a node whose degree has been raised just before. -/
theorem Fits.raised_lowered {st : NodeState n} {d : Nat} {related : Bool} {c : Prop}
    (h : Fits p st d related c) : Fits p (Colouring.lowered p st d related) d related c := by
  unfold Colouring.lowered
  split
  · split <;> simp_all [Fits] <;> omega
  · exact h

theorem decrementDegree_of_succ {u : Fin n} {d : Nat} (hu : s.graph.isPrecoloured u = false)
    (hd : s.graph.degree.get u = d + 1) : s.decrementDegree p u =
      if d + 1 = p.k then
        let s₂ := (s.setDegree u d).enableMoves ((s.setDegree u d).adjacent u ++ [u])
        s₂.transition u (if s₂.isMoveRelated u then .freeze else .simplify)
      else .ok (s.setDegree u d) := by
  simp only [decrementDegree, hu, hd, Bool.false_eq_true, if_false]

/-- A decrement changes one degree, and the state that depends on it. -/
theorem decrementDegree_spec {u : Fin n} {d : Nat} (hu : s.graph.isPrecoloured u = false)
    (hd : s.graph.degree.get u = d + 1) (ho : (s.node.get u).isOpen = true)
    (hr : s.node.get u = .simplify → s.isMoveRelated u = false) :
    ∃ s', s.decrementDegree p u = .ok s' ∧ Tweak s s' ∧
      (∀ i, s'.isPending i = s.isPending i) ∧
      (∀ x, s'.graph.degree.get x = if x = u then d else s.graph.degree.get x) ∧
      ∀ x, s'.node.get x =
        if x = u then lowered p (s.node.get u) d (s.isMoveRelated u) else s.node.get x := by
  have hdeg : ∀ x, (s.setDegree u d).graph.degree.get x =
      if x = u then d else s.graph.degree.get x := fun x ↦ Vector.get_set _ _ _ _
  by_cases hk : d + 1 = p.k
  · -- the moves around the node are enabled, and then it is classified anew
    have hq := Quiet.enableMoves (s.setDegree u d) ((s.setDegree u d).adjacent u ++ [u])
    obtain ⟨s₂, hs₂⟩ : ∃ s₂, s₂ = (s.setDegree u d).enableMoves
      ((s.setDegree u d).adjacent u ++ [u]) := ⟨_, rfl⟩
    rw [← hs₂] at hq
    have hn₂ : s₂.node = s.node := hq.node_eq
    have hrel : s₂.isMoveRelated u = s.isMoveRelated u :=
      hq.toTweak.isMoveRelated hq.isPending_eq u
    have hnew : lowered p (s.node.get u) d (s.isMoveRelated u) =
        if s.isMoveRelated u then .freeze else .simplify := if_pos hk
    have hfin : (s₂.node.get u).isFinal = false := by
      rw [hn₂]
      exact NodeState.isFinal_of_isOpen ho
    refine ⟨s₂.setNode u (lowered p (s.node.get u) d (s.isMoveRelated u)), ?_, ?_, ?_, ?_, ?_⟩
    · rw [decrementDegree_of_succ hu hd, if_pos hk]
      simp only [← hs₂, transition_eq_ok hfin, hrel, hnew]
    · refine ((Tweak.setDegree s u d).trans hq.toTweak).trans (Tweak.setNode ?_ ?_)
      · rw [hnew]
        split <;> rfl
      · rw [hn₂, hnew]
        by_cases hs : s.node.get u = .simplify
        · right
          rw [hs, hr hs]
          rfl
        · left
          revert ho hs
          cases s.node.get u <;> simp [NodeState.isOpen, NodeState.isWaiting]
    · exact fun i ↦ hq.isPending_eq i
    · intro x
      rw [setNode_graph, hq.graph_eq]
      exact hdeg x
    · intro x
      rw [setNode_node, hn₂]
  · refine ⟨s.setDegree u d, ?_, Tweak.setDegree s u d, fun _ ↦ rfl, hdeg, ?_⟩
    · rw [decrementDegree_of_succ hu hd, if_neg hk]
    · intro x
      rw [lowered, if_neg hk]
      split
      · rename_i hx
        rw [hx]
        rfl
      · rfl

section Decrement

variable {owed : List (Fin n)} {miss : Fin n → Fin n → Prop} {exempt : Fin n → Prop}

/-- A node in the graph pays the decrement that it owes. -/
theorem Invariant.decrement {t : Fin n} (h : Invariant p s (t :: owed) miss exempt)
    (ht : s.isPresent t = true) (he : ¬exempt t) :
    ∃ s', s.decrementDegree p t = .ok s' ∧ Invariant p s' owed miss exempt ∧ Tweak s s' := by
  rcases h.sound.isPresent_iff.1 ht with ho | hp
  · have hnp := h.sound.not_isPrecoloured_of_isOpen ho
    have hcl := h.classified t he
    obtain ⟨d, hd⟩ : ∃ d, s.graph.degree.get t = d + 1 := by
      have := h.degrees t ho
      rw [List.count_cons_self] at this
      exact ⟨_, this⟩
    have hr : s.node.get t = .simplify → s.isMoveRelated t = false := by
      intro hs
      rw [Classified, hs] at hcl
      exact hcl.1
    obtain ⟨s', hok, htw, hpend, hdeg, hnode⟩ := decrementDegree_spec (p := p) hnp hd ho hr
    refine ⟨s', hok, h.tweak htw ?_ ?_, htw⟩
    · intro x _
      rw [hdeg, List.count_cons]
      by_cases hx : x = t
      · subst hx
        rw [if_pos rfl, hd]
        simp
        omega
      · rw [if_neg hx]
        simp [Ne.symm hx]
    · intro x hx
      have hrel := htw.isMoveRelated hpend x
      by_cases hxt : x = t
      · subst hxt
        unfold Classified
        rw [hnode, hdeg, hrel, if_pos rfl, if_pos rfl]
        rw [Classified, hd] at hcl
        exact (hcl.lowered ho).mono fun hc ↦ hc.mono htw.trace
      · refine (h.classified x hx).congr ?_ ?_ hrel htw.trace
        · rw [hnode, if_neg hxt]
        · rw [hdeg, if_neg hxt]
  · refine ⟨s, ?_, h.tweak (.refl s) ?_ h.classified, .refl s⟩
    · rw [decrementDegree, if_pos hp]
    · intro x hx
      have hxt : x ≠ t := by
        rintro rfl
        rw [h.sound.not_isPrecoloured_of_isOpen hx] at hp
        cases hp
      simp [Ne.symm hxt]

/-- Some nodes in the graph pay their decrements one after the other. -/
theorem Invariant.decrement_all (h : Invariant p s owed miss fun _ ↦ False)
    (ho : ∀ t ∈ owed, s.isPresent t = true) :
    ∃ s', owed.foldlM (decrementDegree p) s = .ok s' ∧
      (Invariant p s' [] miss fun _ ↦ False) ∧ Tweak s s' := by
  obtain ⟨s', hok, hinv, -, htw⟩ := foldlM_rest (f := decrementDegree p)
    (fun ts s₁ ↦ (Invariant p s₁ ts miss fun _ ↦ False) ∧
      (∀ t ∈ ts, s₁.isPresent t = true) ∧ Tweak s s₁)
    (by
      rintro t ts s₁ ⟨h₁, hp₁, ht₁⟩
      obtain ⟨s₂, hok, h₂, ht₂⟩ := h₁.decrement (hp₁ t List.mem_cons_self) id
      refine ⟨s₂, hok, h₂, fun x hx ↦ ?_, ht₁.trans ht₂⟩
      rw [ht₂.isPresent]
      exact hp₁ x (List.mem_cons_of_mem _ hx))
    owed s ⟨h, ho, .refl s⟩
  exact ⟨s', hok, hinv, htw⟩

end Decrement

/-! ## A node leaves the graph -/

/-- One node has left the graph, and all else is as before. -/
structure Leaves (s s' : Colouring n m) (v : Fin n) : Prop where
  isOpen : (s.node.get v).isOpen = true
  not_isPresent : s'.isPresent v = false
  node : ∀ x, x ≠ v → s'.node.get x = s.node.get x
  adjacency : s'.graph.adjacency = s.graph.adjacency
  degree : s'.graph.degree = s.graph.degree

namespace Leaves

variable {v : Fin n}

theorem isPresent (h : Leaves s s' v) (x : Fin n) :
    s'.isPresent x = (s.isPresent x && decide (x ≠ v)) := by
  by_cases hx : x = v
  · rw [hx, h.not_isPresent]
    simp
  · rw [Colouring.isPresent, h.node x hx]
    simp [hx, Colouring.isPresent]

theorem isOpen_iff (h : Leaves s s' v) {x : Fin n} (hx : (s'.node.get x).isOpen = true) :
    x ≠ v ∧ (s.node.get x).isOpen = true := by
  have hne : x ≠ v := by
    rintro rfl
    have := isPresent_of_isOpen hx
    rw [h.not_isPresent] at this
    cases this
  rw [h.node x hne] at hx
  exact ⟨hne, hx⟩

/-- The neighbours of `v` lose a neighbour, and no others do. -/
theorem length_adjacent (h : Leaves s s' v) (hs : Sound p s) {x : Fin n} (hxv : x ≠ v)
    (hx : (s.node.get x).isOpen = true) :
    (s.adjacent x).length = (s'.adjacent x).length + (s'.adjacent v).count x := by
  have hvp := hs.not_isPrecoloured_of_isOpen h.isOpen
  have hxp := hs.not_isPrecoloured_of_isOpen hx
  have hfilter : s'.adjacent x = (s.adjacent x).filter (· ≠ v) := by
    unfold Colouring.adjacent
    rw [h.adjacency, List.filter_filter]
    congr 1
    funext y
    rw [h.isPresent, Bool.and_comm]
  have hnodup : (s.adjacent x).Nodup := (hs.faithful.nodup_adjacency x).filter _
  have hnodup' : (s'.adjacent v).Nodup := by
    unfold Colouring.adjacent
    rw [h.adjacency]
    exact (hs.faithful.nodup_adjacency v).filter _
  have hiff : v ∈ s.adjacent x ↔ x ∈ s'.adjacent v := by
    rw [mem_adjacent, mem_adjacent, h.adjacency, hs.faithful.mem_adjacency hxp,
      hs.faithful.mem_adjacency hvp, Graph.interferes_comm, h.isPresent]
    simp [isPresent_of_isOpen hx, isPresent_of_isOpen h.isOpen, hxv]
  have hcount : (s.adjacent x).count v = (s'.adjacent v).count x := by
    by_cases hm : v ∈ s.adjacent x
    · rw [List.count_eq_one_of_mem hnodup hm, List.count_eq_one_of_mem hnodup' (hiff.1 hm)]
    · rw [List.count_eq_zero_of_not_mem hm, List.count_eq_zero_of_not_mem (mt hiff.2 hm)]
  rw [← hcount, hfilter, ← List.countP_eq_length_filter, List.count,
    List.length_eq_countP_add_countP (· ≠ v)]
  congr 2
  funext y
  by_cases hy : y = v <;> simp [hy]

theorem degrees (h : Leaves s s' v) (hs : Sound p s) (hd : Degrees s []) :
    Degrees s' (s'.adjacent v) := by
  intro x hx
  obtain ⟨hxv, hx⟩ := h.isOpen_iff hx
  rw [h.degree, ← h.length_adjacent hs hxv hx]
  exact hd x hx

end Leaves

/-! ## Simplify -/

section Select

variable {v : Fin n}

theorem leaves_select (hv : (s.node.get v).isOpen = true) :
    Leaves s (s.setNode v .selected) v where
  isOpen := hv
  not_isPresent := by simp [isPresent]
  node x hx := by rw [setNode_node, if_neg hx]
  adjacency := rfl
  degree := rfl

theorem node_coalesced_select (hv : (s.node.get v).isOpen = true) (x y : Fin n) :
    (s.setNode v .selected).node.get x = .coalesced y ↔ s.node.get x = .coalesced y := by
  rw [setNode_node]
  split
  · rename_i hx
    rw [hx]
    constructor
    · intro h
      cases h
    · intro h
      rw [h] at hv
      cases hv
  · rfl

theorem rep_select (hv : (s.node.get v).isOpen = true) (x : Fin n) :
    (s.setNode v .selected).rep x = s.rep x :=
  rep_congr (node_coalesced_select hv) x

theorem select_stack : (s.setNode v .selected).work.stack = v :: s.work.stack := by
  rw [setNode_work, Worklists.enter_stack, if_pos rfl, (s.work.leave_lists v _).1]

theorem Sound.select (h : Sound p s) (hv : (s.node.get v).isOpen = true) :
    Sound p (s.setNode v .selected) where
  faithful := h.faithful
  node_precoloured x := by
    rw [setNode_node]
    split
    · rename_i hx
      rw [hx, setNode_graph, h.not_isPrecoloured_of_isOpen hv]
      simp
    · exact h.node_precoloured x
  not_coloured x := by
    rw [setNode_node]
    split
    · simp
    · exact h.not_coloured x
  not_spilled x := by
    rw [setNode_node]
    split
    · simp
    · exact h.not_spilled x
  mirror := h.mirror.setNode hv _
  aliases := by
    refine h.aliases.congr (node_coalesced_select hv) ?_
    simp [setNode_work, Worklists.enter_coalesced]
  nodup_moves := h.nodup_moves
  mem_moves := by
    intro u hu i
    rw [rep_select hv, rep_select hv]
    exact h.mem_moves (fun w hw ↦ hu w ((node_coalesced_select hv u w).2 hw)) i
  isColour_of_coalesced := by
    intro x u hx hu
    exact h.isColour_of_coalesced ((node_coalesced_select hv x u).1 hx) hu
  isEnd_of_coalesced := by
    intro x u hx
    exact h.isEnd_of_coalesced ((node_coalesced_select hv x u).1 hx)

theorem above_cons {stack : List (Fin n)} {a b : Fin n} (h : Above (v :: stack) b a) :
    b = v ∨ Above stack b a := by
  obtain ⟨l₁, l₂, heq, hb⟩ := h
  cases l₁ with
  | nil => exact absurd hb List.not_mem_nil
  | cons hd tl =>
    rw [List.cons_append, List.cons.injEq] at heq
    rcases List.mem_cons.1 hb with hb | hb
    · exact .inl (hb.trans heq.1.symm)
    · exact .inr ⟨tl, l₂, heq.2, hb⟩

theorem not_above_cons {stack : List (Fin n)} {b : Fin n} (hv : v ∉ stack) :
    ¬Above (v :: stack) b v := by
  rintro ⟨l₁, l₂, heq, hb⟩
  cases l₁ with
  | nil => exact absurd hb List.not_mem_nil
  | cons hd tl =>
    rw [List.cons_append, List.cons.injEq] at heq
    exact hv (heq.2 ▸ List.mem_append_right tl List.mem_cons_self)

/-- A selected node has its neighbours in the graph in its list, and is in the lists of those that
were selected before. -/
theorem Forwarded.select (h : Forwarded s fun _ _ ↦ False) (hs : Sound p s)
    (hv : (s.node.get v).isOpen = true) : Forwarded (s.setNode v .selected) fun _ _ ↦ False := by
  intro a b hab
  obtain ⟨hne, hedge, hsees⟩ := h a b hab
  have hl := leaves_select hv
  have hvp := isPresent_of_isOpen hv
  have hvstack : v ∉ s.work.stack := fun hm ↦ by
    rw [hs.mirror.mem_stack] at hm
    rw [hm] at hv
    cases hv
  simp only [rep_select hv]
  refine ⟨hne, ?_, ?_⟩
  · intro ha hb
    rw [hl.isPresent, Bool.and_eq_true] at ha hb
    exact hedge ha.1 hb.1
  · intro ha hb
    rw [select_stack] at hb
    rw [hl.isPresent, Bool.and_eq_true] at hb
    by_cases hav : s.rep a = v
    · -- the node that is selected now: all that is still in the graph is in its list
      rw [hav] at hne hedge hb ⊢
      have hbp : s.isPresent (s.rep b) = true := by
        rcases hb with hb | hb
        · exact hb.1
        · exact absurd hb (not_above_cons hvstack)
      have hi := (hedge hvp hbp).resolve_right id
      refine ⟨s.rep b, ?_, hs.aliases.rep_rep b⟩
      exact (hs.faithful.mem_adjacency (hs.not_isPrecoloured_of_isOpen hv) _).2 hi
    · -- a node that was selected before: it saw `v` while `v` was in the graph
      rw [setNode_node, if_neg hav] at ha
      refine hsees ha ?_
      rcases hb with hb | hb
      · exact .inl hb.1
      · rcases above_cons hb with hb | hb
        · rw [hb]
          exact .inl hvp
        · exact .inr hb

end Select

/-- Simplifying a node that is ready for it succeeds and keeps the invariant. -/
theorem Settled.simplify {u : Fin n} (h : Settled p s) (hu : s.node.get u = .simplify) :
    ∃ s', s.simplify p u = .ok s' ∧ Advances p s s' := by
  have hv : (s.node.get u).isOpen = true := by rw [hu]; rfl
  have hcl := h.classified u id
  rw [Classified, hu] at hcl
  have hl := leaves_select hv
  have hinv : Invariant p (s.setNode u .selected) ((s.setNode u .selected).adjacent u)
      (fun _ _ ↦ False) (fun _ ↦ False) := by
    refine ⟨h.sound.select hv, h.forwarded.select h.sound hv, hl.degrees h.sound h.degrees, ?_⟩
    intro x _
    by_cases hx : x = u
    · unfold Classified
      rw [setNode_node, if_pos hx, hx]
      exact hcl.1
    · refine (h.classified x id).congr ?_ rfl rfl (List.suffix_cons _ _)
      rw [setNode_node, if_neg hx]
  obtain ⟨s', hok, hs', ht⟩ := hinv.decrement_all fun t ht ↦ (mem_adjacent.1 ht).2
  refine ⟨s', ?_, hs', (Grows.setNode s u _).trans ht.grows, .leave u .selected hv rfl ht.node⟩
  -- a node of the simplify list is in a state that it can leave
  rw [Colouring.simplify, transition_eq_ok (NodeState.isFinal_of_isOpen hv)]
  exact hok

end Colouring

end RegAlloc

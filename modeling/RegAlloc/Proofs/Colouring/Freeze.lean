import Mathlib
import RegAlloc.Proofs.Colouring.Coalesce

/-!
# Giving up the moves of a node

A node that is frozen, or chosen as a potential spill, becomes ready to be simplified at once, and
then its pending moves are given up one after the other. Each of them may have been the last one of
its other end, which is looked at right away; the node itself has pending moves until all of them
are gone.
-/

namespace RegAlloc.Colouring

variable {n m : Nat} {p : ColouringProblem n m} {s s' : Colouring n m} {u : Fin n}

/-- The node is ready to be simplified but for its pending moves, which are `is`. -/
structure Shedding (p : ColouringProblem n m) (s : Colouring n m) (u : Fin n)
    (is : List (Fin m)) : Prop where
  invariant : Invariant p s [] (fun _ _ ↦ False) (· = u)
  node : s.node.get u = .simplify
  nodup : is.Nodup
  mem_iff : ∀ j, j ∈ s.nodeMoves u ↔ j ∈ is

/-- What giving up moves does not change. -/
structure Sheds (s s' : Colouring n m) : Prop extends Tweak s s' where
  graph_eq : s'.graph = s.graph
  worklist : ∀ j, s'.move.get j = .worklist → s.move.get j = .worklist

theorem Sheds.trans {s'' : Colouring n m} (h : Sheds s s') (h' : Sheds s' s'') : Sheds s s'' :=
  ⟨h.toTweak.trans h'.toTweak, h'.graph_eq.trans h.graph_eq,
    fun j hj ↦ h.worklist j (h'.worklist j hj)⟩

theorem Sheds.setMove (s : Colouring n m) (i : Fin m) {st : MoveState} (hst : st ≠ .worklist) :
    Sheds s (s.setMove i st) := by
  refine ⟨.setMove s i st, rfl, fun j hj ↦ ?_⟩
  rw [setMove_move] at hj
  split at hj
  · exact absurd hj hst
  · exact hj

theorem Sheds.addWorklist (s : Colouring n m) (v : Fin n) : Sheds s (s.addWorklist p v) := by
  obtain ⟨ht, hg, hm, -⟩ := addWorklist_spec (p := p) s v
  exact ⟨ht, hg, fun j hj ↦ by rwa [hm] at hj⟩

theorem addWorklist_of_ne_freeze (h : s.node.get u ≠ .freeze) : s.addWorklist p u = s :=
  if_neg fun hc ↦ h hc.1

/-- The nodes that represent the ends of a move of a node: itself, and the other one. -/
theorem Sound.otherEnd {i : Fin m} {v : Fin n} (h : Sound p s) (hu : s.IsRoot u)
    (hi : i ∈ s.graph.moves.get u)
    (hv : v = if s.rep (p.moves.get i).src = s.rep u then s.rep (p.moves.get i).dst
      else s.rep (p.moves.get i).src) :
    s.IsRoot v ∧ i ∈ s.graph.moves.get v ∧
      ∀ x, s.IsRoot x → i ∈ s.graph.moves.get x → x = u ∨ x = v := by
  have hd := h.aliases.isRoot_rep (p.moves.get i).dst
  have hs := h.aliases.isRoot_rep (p.moves.get i).src
  have hmem := (h.mem_moves hu i).1 hi
  rw [rep_of_isRoot hu] at hv
  have hv' : s.IsRoot v := by
    rw [hv]
    split <;> assumption
  refine ⟨hv', ?_, fun x hx hix ↦ ?_⟩
  · rw [h.mem_moves hv', hv]
    split <;> simp
  · rw [h.mem_moves hx] at hix
    grind

/-- One of the moves is given up. -/
theorem Shedding.freezeMove {i : Fin m} {is : List (Fin m)} (h : Shedding p s u (i :: is)) :
    ∃ s', freezeMove p u s i = .ok s' ∧ Shedding p s' u is ∧ Sheds s s' := by
  obtain ⟨hinv, hnode, hnodup, hmem⟩ := h
  rw [List.nodup_cons] at hnodup
  have hroot : s.IsRoot u := isRoot_of_isOpen (by rw [hnode]; rfl)
  obtain ⟨hiu, hpend⟩ := mem_nodeMoves.1 ((hmem i).2 List.mem_cons_self)
  obtain ⟨v, hv⟩ : ∃ v, v = if s.rep (p.moves.get i).src = s.rep u then
      s.rep (p.moves.get i).dst else s.rep (p.moves.get i).src := ⟨_, rfl⟩
  obtain ⟨hvroot, hiv, hends⟩ := hinv.sound.otherEnd hroot hiu hv
  have hok : Colouring.freezeMove p u s i = .ok ((s.setMove i .frozen).addWorklist p v) := by
    have hfin : (s.move.get i).isFinal = false := by simpa [isPending] using hpend
    rw [Colouring.freezeMove, transitionMove_eq_ok hfin, hv]
    rfl
  have hset : Invariant p (s.setMove i .frozen) [] (fun _ _ ↦ False) (fun x ↦ x = u ∨ x = v) :=
    hinv.setMove i .frozen hends fun x hx ↦ .inl hx
  have hsheds : Sheds s ((s.setMove i .frozen).addWorklist p v) :=
    (Sheds.setMove s i (by decide)).trans (.addWorklist _ v)
  refine ⟨_, hok, ⟨?_, ?_, hnodup.2, fun j ↦ ?_⟩, hsheds⟩
  · by_cases hvu : v = u
    · -- both ends are the node itself
      rw [hvu, addWorklist_of_ne_freeze (by simp [hnode])]
      exact hset.exempt_mono fun x hx ↦ hx.elim id fun hx ↦ hx.trans hvu
    · have hm : Movable p s v :=
        (hinv.classified v hvu).movable (isMoveRelated_iff.2 ⟨i, hiv, hpend⟩)
      exact hset.addWorklist (hm.congr rfl rfl) (by tauto)
  · by_cases hvu : v = u
    · rw [hvu, addWorklist_of_ne_freeze (by simp [hnode])]
      exact hnode
    · obtain ⟨-, -, -, hn⟩ := addWorklist_spec (p := p) (s.setMove i .frozen) v
      rw [hn u (Ne.symm hvu)]
      exact hnode
  · obtain ⟨-, -, hm, -⟩ := addWorklist_spec (p := p) (s.setMove i .frozen) v
    have hp : ((s.setMove i .frozen).addWorklist p v).isPending j =
        if j = i then false else s.isPending j := by
      rw [isPending, hm]
      exact isPending_setMove s i j .frozen
    have hj := hmem j
    rw [mem_nodeMoves] at hj ⊢
    rw [hsheds.graph_eq, hp]
    grind

/-- All of them are given up, and then the node is ready to be simplified. -/
theorem Invariant.freezeMoves (h : Invariant p s [] (fun _ _ ↦ False) (· = u))
    (hu : s.node.get u = .simplify) (hd : p.k ≤ s.graph.degree.get u → s.WasChosen u) :
    ∃ s', s.freezeMoves p u = .ok s' ∧ Settled p s' ∧ Sheds s s' := by
  obtain ⟨s', hok, hshed, hs'⟩ := foldlM_rest (f := freezeMove p u)
    (fun is s₁ ↦ Shedding p s₁ u is ∧ Sheds s s₁)
    (by
      rintro i is s₁ ⟨h₁, hs₁⟩
      obtain ⟨s₂, hok, h₂, hs₂⟩ := h₁.freezeMove
      exact ⟨s₂, hok, h₂, hs₁.trans hs₂⟩)
    (s.nodeMoves u) s
    ⟨⟨h, hu, (h.sound.nodup_moves u).filter _, fun _ ↦ Iff.rfl⟩, .refl s, rfl, fun _ ↦ id⟩
  refine ⟨s', hok, hshed.invariant.classify (u := u) ?_ fun x hx hxu ↦ hxu hx, hs'⟩
  have hrel : s'.isMoveRelated u = false := by
    have hnil : s'.nodeMoves u = [] := List.eq_nil_iff_forall_not_mem.2 fun j hj ↦
      absurd ((hshed.mem_iff j).1 hj) List.not_mem_nil
    rw [isMoveRelated, hnil]
    rfl
  rw [Classified, hshed.node, hrel, hs'.graph_eq]
  exact ⟨rfl, fun hk ↦ (hd hk).mono hs'.trace⟩

/-- A node that waits is made ready to be simplified. -/
theorem Settled.wake (h : Settled p s) (hu : (s.node.get u).isWaiting = true)
    (hd : p.k ≤ s.graph.degree.get u → s.WasChosen u) :
    ∃ s', s.freeze p u = .ok s' ∧ Advances p s s' := by
  have ht : Tweak s (s.setNode u .simplify) := Tweak.setNode rfl (.inl hu)
  have h₁ : Invariant p (s.setNode u .simplify) [] (fun _ _ ↦ False) (· = u) :=
    h.tweak_nodes ht rfl fun x hx ↦ ⟨id, by rw [setNode_node, if_neg hx], rfl⟩
  obtain ⟨s', hok, hs', hsheds⟩ := h₁.freezeMoves (by rw [setNode_node, if_pos rfl])
    fun hk ↦ (hd hk).mono ht.trace
  refine ⟨s', ?_, hs', ht.grows.trans hsheds.grows, .wake u hu hsheds.node hsheds.worklist⟩
  rw [Colouring.freeze,
    transition_eq_ok (NodeState.isFinal_of_isOpen (NodeState.isOpen_of_isWaiting hu))]
  exact hok

/-- Freezing a node of the freeze list succeeds and keeps the invariant. -/
theorem Settled.freeze (h : Settled p s) (hu : s.node.get u = .freeze) :
    ∃ s', s.freeze p u = .ok s' ∧ Advances p s s' := by
  have hcl := h.classified u id
  rw [Classified, hu] at hcl
  exact h.wake (by rw [hu]; rfl) fun hk ↦ absurd hcl.1 (not_lt.2 hk)

/-- Choosing a node of the spill list succeeds and keeps the invariant. -/
theorem Settled.selectSpill (h : Settled p s) (hu : s.node.get u = .spill) :
    ∃ s', s.selectSpill p u = .ok s' ∧ Advances p s s' := by
  have hq := Quiet.note s (.potentialSpill u (s.graph.degree.get u))
  have h₀ : Settled p (s.note (.potentialSpill u (s.graph.degree.get u))) := h.quiet hq
  obtain ⟨s', hok, hs', hg, hp⟩ := Settled.wake (u := u) h₀ (by rw [hq.node_eq, hu]; rfl)
    fun _ ↦ ⟨_, List.mem_cons_self⟩
  refine ⟨s', hok, hs', hq.grows.trans hg, ?_⟩
  -- the record of the choice makes no difference for the progress
  rcases hp with ⟨v, st, hv, hst, hc⟩ | ⟨i, hi, hc, hm⟩ | ⟨v, hv, hc, hm⟩
  · exact .leave v st hv hst hc
  · exact .look i hi hc hm
  · exact .wake v hv hc hm

end RegAlloc.Colouring

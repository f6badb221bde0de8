import Mathlib
import RegAlloc.Colouring.Run
import RegAlloc.Proofs.Colouring.State

/-!
# The invariant of a colouring

What holds of every colouring between two steps, `Settled`, and of the colourings in the middle of a
step, `Invariant`. It has four parts.

* `Sound`: the graph, the lists of work, the lists of moves and the representatives fit together.
* `Forwarded`: an edge between two nodes is known to the nodes that represent them. As long as both
  are in the graph there is an edge between them; once one of them has been taken out, it has the
  other among its neighbours.
* `Degrees`: the degree of a node is the number of its neighbours in the graph.
* `Classified`: each node is in the state that its degree and its moves call for.

In the middle of a step some nodes still *owe* a decrement of their degree, some pairs still *miss*
the edge that a coalesced node had, and the nodes that the step is about are *exempt* from the last
part.
-/

namespace RegAlloc.Colouring

variable {n m : Nat} {p : ColouringProblem n m} {s s' : Colouring n m}

/-! ## Definitions -/

/-- The node is an end of a move. -/
def IsEnd (p : ColouringProblem n m) (u : Fin n) : Prop :=
  ∃ i, (p.moves.get i).dst = u ∨ (p.moves.get i).src = u

/-- The parts of the state fit together. -/
structure Sound (p : ColouringProblem n m) (s : Colouring n m) : Prop where
  faithful : s.graph.Faithful
  node_precoloured : ∀ u, s.node.get u = .precoloured ↔ s.graph.isPrecoloured u = true
  not_coloured : ∀ u, s.node.get u ≠ .coloured
  not_spilled : ∀ u, s.node.get u ≠ .spilled
  mirror : s.Mirror
  aliases : s.AliasOrdered
  nodup_moves : ∀ u, (s.graph.moves.get u).Nodup
  /-- A node that stands for itself has the moves of all the nodes that it represents. -/
  mem_moves : ∀ {u}, s.IsRoot u → ∀ i, i ∈ s.graph.moves.get u ↔
    s.rep (p.moves.get i).dst = u ∨ s.rep (p.moves.get i).src = u
  /-- Nodes are only coalesced into physical registers that are handed out. -/
  isColour_of_coalesced : ∀ {v u}, s.node.get v = .coalesced u →
    s.graph.isPrecoloured u = true → p.isColour (u - s.graph.virtuals) = true
  isEnd_of_coalesced : ∀ {v u}, s.node.get v = .coalesced u → IsEnd p u

/-- The node `v` is nearer to the top of the stack than `u`. -/
def Above (stack : List (Fin n)) (v u : Fin n) : Prop :=
  ∃ l₁ l₂, stack = l₁ ++ u :: l₂ ∧ v ∈ l₁

/-- Every edge is known to the nodes that represent its ends, up to the pairs in `miss`. -/
def Forwarded (s : Colouring n m) (miss : Fin n → Fin n → Prop) : Prop :=
  ∀ a b, s.graph.interferes a b = true →
    s.rep a ≠ s.rep b ∧
    (s.isPresent (s.rep a) = true → s.isPresent (s.rep b) = true →
      s.graph.interferes (s.rep a) (s.rep b) = true ∨ miss (s.rep a) (s.rep b)) ∧
    (s.node.get (s.rep a) = .selected →
      s.isPresent (s.rep b) = true ∨ Above s.work.stack (s.rep b) (s.rep a) →
      ∃ w ∈ s.graph.adjacency.get (s.rep a), s.rep w = s.rep b)

/-- The degree of a node in the graph is the number of its neighbours there, up to the decrements
that are owed. -/
def Degrees (s : Colouring n m) (owed : List (Fin n)) : Prop :=
  ∀ u, (s.node.get u).isOpen = true →
    s.graph.degree.get u = (s.adjacent u).length + owed.count u

/-- The node has been chosen as a potential spill. -/
def WasChosen (s : Colouring n m) (u : Fin n) : Prop :=
  ∃ d, .potentialSpill u d ∈ s.trace

/-- A state is the right one for a node with the given degree, with or without pending moves. -/
def Fits (p : ColouringProblem n m) (st : NodeState n) (degree : Nat) (related : Bool)
    (chosen : Prop) : Prop :=
  match st with
  | .spill => p.k ≤ degree
  | .freeze => degree < p.k ∧ related = true
  | .simplify => related = false ∧ (p.k ≤ degree → chosen)
  | .selected => related = false
  | _ => True

/-- The node is in the right state. -/
def Classified (p : ColouringProblem n m) (s : Colouring n m) (u : Fin n) : Prop :=
  Fits p (s.node.get u) (s.graph.degree.get u) (s.isMoveRelated u) (s.WasChosen u)

/-- What holds in the middle of a step. -/
structure Invariant (p : ColouringProblem n m) (s : Colouring n m) (owed : List (Fin n))
    (miss : Fin n → Fin n → Prop) (exempt : Fin n → Prop) : Prop where
  sound : Sound p s
  forwarded : Forwarded s miss
  degrees : Degrees s owed
  classified : ∀ u, ¬exempt u → Classified p s u

/-- What holds between two steps. -/
abbrev Settled (p : ColouringProblem n m) (s : Colouring n m) : Prop :=
  Invariant p s [] (fun _ _ ↦ False) (fun _ ↦ False)

/-! ## First consequences -/

theorem Sound.isOpen_or {u : Fin n} (h : Sound p s) : (s.node.get u).isOpen = true ∨
    s.node.get u = .precoloured ∨ s.node.get u = .selected ∨ ∃ v, s.node.get u = .coalesced v := by
  have h₁ := h.not_coloured u
  have h₂ := h.not_spilled u
  cases hu : s.node.get u <;> simp_all [NodeState.isOpen]

theorem Sound.not_isPrecoloured {u : Fin n} (h : Sound p s) (hu : s.node.get u ≠ .precoloured) :
    s.graph.isPrecoloured u = false := by
  rw [← Bool.not_eq_true, ← h.node_precoloured]
  exact hu

theorem isPresent_of_isOpen {u : Fin n} (h : (s.node.get u).isOpen = true) :
    s.isPresent u = true := by
  unfold isPresent
  cases hu : s.node.get u <;> simp_all [NodeState.isOpen]

theorem Sound.not_isPrecoloured_of_isOpen {u : Fin n} (h : Sound p s)
    (hu : (s.node.get u).isOpen = true) : s.graph.isPrecoloured u = false :=
  h.not_isPrecoloured fun he ↦ by simp [he, NodeState.isOpen] at hu

/-- What is in the graph is a virtual register that is not finished, or a physical register. -/
theorem Sound.isPresent_iff {u : Fin n} (h : Sound p s) :
    s.isPresent u = true ↔ (s.node.get u).isOpen = true ∨ s.graph.isPrecoloured u = true := by
  rw [← h.node_precoloured]
  unfold isPresent
  have h₁ := h.not_coloured u
  have h₂ := h.not_spilled u
  cases hu : s.node.get u <;> simp_all [NodeState.isOpen]

theorem isRoot_of_isPresent {u : Fin n} (h : s.isPresent u = true) : s.IsRoot u := by
  intro v hv
  simp [isPresent, hv] at h

theorem mem_adjacent {u v : Fin n} :
    v ∈ s.adjacent u ↔ v ∈ s.graph.adjacency.get u ∧ s.isPresent v = true := by
  simp [adjacent]

theorem mem_nodeMoves {u : Fin n} {i : Fin m} :
    i ∈ s.nodeMoves u ↔ i ∈ s.graph.moves.get u ∧ s.isPending i = true := by
  simp [nodeMoves]

theorem isMoveRelated_iff {u : Fin n} :
    s.isMoveRelated u = true ↔ ∃ i ∈ s.graph.moves.get u, s.isPending i = true := by
  simp [isMoveRelated, nodeMoves, List.filter_eq_nil_iff]

theorem WasChosen.mono {u : Fin n} (h : s.WasChosen u) (ht : s.trace <:+ s'.trace) :
    s'.WasChosen u := by
  obtain ⟨d, hd⟩ := h
  exact ⟨d, ht.subset hd⟩

theorem Fits.mono {st : NodeState n} {d : Nat} {related : Bool} {c c' : Prop}
    (h : Fits p st d related c) (hc : c → c') : Fits p st d related c' := by
  cases st <;> simp_all [Fits]

/-- A node that no change has touched is classified as it was. -/
theorem Classified.congr {u : Fin n} (h : Classified p s u) (hn : s'.node.get u = s.node.get u)
    (hd : s'.graph.degree.get u = s.graph.degree.get u)
    (hr : s'.isMoveRelated u = s.isMoveRelated u) (ht : s.trace <:+ s'.trace) :
    Classified p s' u := by
  unfold Classified
  rw [hn, hd, hr]
  exact Fits.mono h fun hc ↦ hc.mono ht

/-! ## Changes that keep the shape of the graph -/

theorem Sound.tweak (h : Sound p s) (t : Tweak s s') : Sound p s' where
  faithful := t.faithful h.faithful
  node_precoloured u := by
    rw [t.node_eq_iff .precoloured rfl, t.isPrecoloured]
    exact h.node_precoloured u
  not_coloured u hu := h.not_coloured u ((t.node_eq_iff .coloured rfl u).1 hu)
  not_spilled u hu := h.not_spilled u ((t.node_eq_iff .spilled rfl u).1 hu)
  mirror := t.mirror h.mirror
  aliases := t.aliasOrdered h.aliases
  nodup_moves u := by
    rw [t.moves]
    exact h.nodup_moves u
  mem_moves := by
    intro u hu i
    rw [t.moves, t.rep, t.rep]
    exact h.mem_moves (fun v hv ↦ hu v ((t.node_eq_iff (.coalesced v) rfl u).2 hv)) i
  isColour_of_coalesced := by
    intro v u hv hu
    rw [t.isPrecoloured] at hu
    rw [t.virtuals]
    exact h.isColour_of_coalesced ((t.node_eq_iff (.coalesced u) rfl v).1 hv) hu
  isEnd_of_coalesced := by
    intro v u hv
    exact h.isEnd_of_coalesced ((t.node_eq_iff (.coalesced u) rfl v).1 hv)

theorem Forwarded.tweak {miss : Fin n → Fin n → Prop} (h : Forwarded s miss) (t : Tweak s s') :
    Forwarded s' miss := by
  intro a b hab
  rw [t.interferes] at hab
  simp only [t.rep, t.isPresent, t.interferes, t.adjacency, t.stack,
    t.node_eq_iff .selected rfl]
  exact h a b hab

theorem Forwarded.mono {miss miss' : Fin n → Fin n → Prop} (h : Forwarded s miss)
    (hm : ∀ u v, miss u v → miss' u v) : Forwarded s miss' := by
  intro a b hab
  obtain ⟨h₁, h₂, h₃⟩ := h a b hab
  exact ⟨h₁, fun ha hb ↦ (h₂ ha hb).imp_right (hm _ _), h₃⟩

section Tweak

variable {owed owed' : List (Fin n)} {miss : Fin n → Fin n → Prop} {exempt exempt' : Fin n → Prop}

/-- After a change that keeps the shape only degrees and states have to be looked at. -/
theorem Invariant.tweak (h : Invariant p s owed miss exempt) (t : Tweak s s')
    (hd : ∀ u, (s.node.get u).isOpen = true →
      s'.graph.degree.get u + owed.count u = s.graph.degree.get u + owed'.count u)
    (hc : ∀ u, ¬exempt' u → Classified p s' u) : Invariant p s' owed' miss exempt' where
  sound := h.sound.tweak t
  forwarded := h.forwarded.tweak t
  degrees := by
    intro u hu
    rw [t.isOpen] at hu
    have h₁ := h.degrees u hu
    have h₂ := hd u hu
    rw [t.adjacent]
    omega
  classified := hc

/-- A change of the pending moves of exempt nodes, and of their states. -/
theorem Invariant.tweak_nodes (h : Invariant p s owed miss exempt) (t : Tweak s s')
    (hd : s'.graph.degree = s.graph.degree)
    (hn : ∀ u, ¬exempt' u → ¬exempt u ∧ s'.node.get u = s.node.get u ∧
      s'.isMoveRelated u = s.isMoveRelated u) : Invariant p s' owed miss exempt' := by
  refine h.tweak t (fun u _ ↦ by rw [hd]) fun u hu ↦ ?_
  obtain ⟨he, hnode, hrel⟩ := hn u hu
  exact (h.classified u he).congr hnode (by rw [hd]) hrel t.trace

theorem Invariant.quiet (h : Invariant p s owed miss exempt) (q : Quiet s s') :
    Invariant p s' owed miss exempt :=
  h.tweak_nodes q.toTweak (by rw [q.graph_eq]) fun u hu ↦
    ⟨hu, by rw [q.node_eq], q.toTweak.isMoveRelated q.isPending_eq u⟩

/-- Once an exempt node is classified it is not exempt any more. -/
theorem Invariant.classify (h : Invariant p s owed miss exempt) {u : Fin n}
    (hu : Classified p s u) (he : ∀ x, exempt x → x ≠ u → exempt' x) :
    Invariant p s owed miss exempt' := by
  refine ⟨h.sound, h.forwarded, h.degrees, fun x hx ↦ ?_⟩
  by_cases hxu : x = u
  · rwa [hxu]
  · exact h.classified x fun hex ↦ hx (he x hex hxu)

theorem Invariant.exempt_mono (h : Invariant p s owed miss exempt)
    (he : ∀ x, exempt x → exempt' x) : Invariant p s owed miss exempt' :=
  ⟨h.sound, h.forwarded, h.degrees, fun x hx ↦ h.classified x fun hex ↦ hx (he x hex)⟩

end Tweak

/-! ## What a step achieves -/

/-- What is never taken back: edges only become more, and colours are not touched. -/
structure Grows (s s' : Colouring n m) : Prop where
  virtuals : s'.graph.virtuals = s.graph.virtuals
  colour : s'.colour = s.colour
  interferes : ∀ a b, s.graph.interferes a b = true → s'.graph.interferes a b = true

namespace Grows

theorem trans {s'' : Colouring n m} (h : Grows s s') (h' : Grows s' s'') : Grows s s'' :=
  ⟨h'.virtuals.trans h.virtuals, h'.colour.trans h.colour,
    fun a b hab ↦ h'.interferes a b (h.interferes a b hab)⟩

theorem of_graph_eq (hg : s'.graph = s.graph) (hc : s'.colour = s.colour) : Grows s s' :=
  ⟨by rw [hg], hc, fun a b hab ↦ by rwa [hg]⟩

theorem refl (s : Colouring n m) : Grows s s :=
  of_graph_eq rfl rfl

theorem setNode (s : Colouring n m) (u : Fin n) (st : NodeState n) : Grows s (s.setNode u st) :=
  of_graph_eq rfl rfl

end Grows

theorem Tweak.grows (t : Tweak s s') : Grows s s' :=
  ⟨t.virtuals, t.colour, fun a b hab ↦ by rwa [t.interferes]⟩

/-- What brings a run nearer to its end. -/
inductive Progress (s s' : Colouring n m) : Prop
  /-- A node has left the graph. -/
  | leave (v : Fin n) (st : NodeState n) (hv : (s.node.get v).isOpen = true)
    (hst : st.isOpen = false) (hcalm : Calm (s.setNode v st) s')
  /-- A move has been looked at. -/
  | look (i : Fin m) (hi : s.move.get i = .worklist) (hcalm : Calm s s')
    (hmoves : ∀ j, s'.move.get j = .worklist → j ≠ i ∧ s.move.get j = .worklist)
  /-- A node does not wait any longer. -/
  | wake (u : Fin n) (hu : (s.node.get u).isWaiting = true)
    (hcalm : Calm (s.setNode u .simplify) s')
    (hmoves : ∀ j, s'.move.get j = .worklist → s.move.get j = .worklist)

/-- The second colouring is what a step makes of the first one. -/
structure Advances (p : ColouringProblem n m) (s s' : Colouring n m) : Prop where
  settled : Settled p s'
  grows : Grows s s'
  progress : Progress s s'

end RegAlloc.Colouring

import Mathlib
import RegAlloc.Colouring.Select
import RegAlloc.Proofs.Catalog
import RegAlloc.Proofs.Colouring.Worklists

/-!
# Selected colours are valid

When the work is done, the nodes of the stack get their colours from the top down. The node on top
has all those of its neighbours in its list that are physical registers or have their colours
already, if need be as nodes that are coalesced into them. So the colour that it gets is none of
theirs, and nodes that interfere have different colours whenever they have any.
-/

namespace RegAlloc.Colouring

variable {n m : Nat} {p : ColouringProblem n m} {s s₁ s' : Colouring n m} {u : Fin n}

/-- The colours that a run starts with: those of the physical registers. -/
def IsPlain (s : Colouring n m) : Prop :=
  ∀ u : Fin n, s.colour.get u = s.graph.precolour? u

theorem IsPlain.start (g : Graph n (Fin m)) : (Colouring.start g).IsPlain := by
  intro u
  simp [Colouring.start]

theorem IsPlain.grows (h : s.IsPlain) (hg : Grows s s') : s'.IsPlain := by
  intro u
  rw [hg.colour, h u, Graph.precolour?, Graph.precolour?, Graph.isPrecoloured, Graph.isPrecoloured,
    hg.virtuals]

theorem IsPlain.eq_some (h : s.IsPlain) {c : Nat} (hc : s.colour.get u = some c) :
    s.graph.isPrecoloured u = true ∧ c = u - s.graph.virtuals := by
  rw [h u, Graph.precolour?] at hc
  split at hc
  · cases hc
    exact ⟨‹_›, rfl⟩
  · cases hc

/-! ## The fold over the stack -/

/-- The nodes of `done` have been looked at, and those of `rest` not yet, since the state `s`. -/
structure Selecting (p : ColouringProblem n m) (s s₁ : Colouring n m) (done rest : List (Fin n)) :
    Prop where
  stack : s.work.stack = done ++ rest
  graph : s₁.graph = s.graph
  coalesced : s₁.work.coalesced = s.work.coalesced
  node_done : ∀ u ∈ done, (s₁.node.get u = .coloured ∧
    ∃ c, s₁.colour.get u = some c ∧ p.isColour c = true) ∨
      (s₁.node.get u = .spilled ∧ s₁.colour.get u = none)
  node_rest : ∀ u, u ∉ done → s₁.node.get u = s.node.get u ∧ s₁.colour.get u = s.colour.get u
  mem_spilled : ∀ u, u ∈ s₁.work.spilled ↔ s₁.node.get u = .spilled
  /-- The nodes that represent interfering nodes have different colours. -/
  ne_of_interferes : ∀ a b c, s.graph.interferes a b = true →
    s₁.colour.get (s.rep a) = some c → s₁.colour.get (s.rep b) ≠ some c

namespace Selecting

variable {done rest : List (Fin n)}

theorem node_eq_coalesced (h : Selecting p s s₁ done rest) (hm : s.Mirror) (u v : Fin n) :
    s₁.node.get u = .coalesced v ↔ s.node.get u = .coalesced v := by
  by_cases hu : u ∈ done
  · have hsel := (hm.mem_stack u).1 (h.stack ▸ List.mem_append_left _ hu)
    rw [hsel]
    rcases h.node_done u hu with ⟨hn, -⟩ | ⟨hn, -⟩ <;> simp [hn]
  · rw [(h.node_rest u hu).1]

theorem rep_eq (h : Selecting p s s₁ done rest) (hm : s.Mirror) (u : Fin n) :
    s₁.rep u = s.rep u :=
  rep_congr (h.node_eq_coalesced hm) u

/-- What has a colour is a physical register, or has been looked at. -/
theorem of_colour_eq_some (h : Selecting p s s₁ done rest) (hs : Sound p s) (hp : s.IsPlain)
    {c : Nat} (hc : s₁.colour.get u = some c) :
    (u ∈ done ∧ s₁.node.get u = .coloured ∧ p.isColour c = true) ∨
      (s₁.node.get u = .precoloured ∧ s.graph.isPrecoloured u = true ∧
        c = u - s.graph.virtuals) := by
  by_cases hu : u ∈ done
  · rcases h.node_done u hu with ⟨hn, c', hc', hcol⟩ | ⟨-, hn⟩
    · rw [hc] at hc'
      cases hc'
      exact .inl ⟨hu, hn, hcol⟩
    · rw [hc] at hn
      cases hn
  · obtain ⟨hn, hc'⟩ := h.node_rest u hu
    rw [hc'] at hc
    obtain ⟨hpre, heq⟩ := hp.eq_some hc
    refine .inr ⟨?_, hpre, heq⟩
    rw [hn]
    exact (hs.node_precoloured u).2 hpre

/-- The node that comes next has in its list all the coloured nodes that it interferes with. -/
theorem mem_usedColours (h : Selecting p s s₁ done (u :: rest)) (hs : Settled p s)
    (hp : s.IsPlain) {a b : Fin n} {c : Nat} (hab : s.graph.interferes a b = true)
    (ha : s.rep a = u) (hc : s₁.colour.get (s.rep b) = some c) : c ∈ s₁.usedColours u := by
  have hm := hs.sound.mirror
  have husel : s.node.get u = .selected := by
    refine (hm.mem_stack u).1 ?_
    rw [h.stack]
    exact List.mem_append_right _ List.mem_cons_self
  obtain ⟨-, -, hsees⟩ := hs.forwarded a b hab
  rw [ha] at hsees
  have hb := h.of_colour_eq_some hs.sound hp hc
  have hseen : s.isPresent (s.rep b) = true ∨ Above s.work.stack (s.rep b) u := by
    rcases hb with ⟨hdone, -⟩ | ⟨-, hpre, -⟩
    · exact .inr ⟨done, rest, h.stack, hdone⟩
    · exact .inl (hs.sound.isPresent_iff.2 (.inr hpre))
  obtain ⟨w, hw, hrw⟩ := hsees husel hseen
  unfold usedColours
  rw [List.mem_filterMap]
  refine ⟨w, by rwa [h.graph], ?_⟩
  simp only [h.rep_eq hm, hrw]
  rcases hb with ⟨-, hn, -⟩ | ⟨hn, -⟩ <;> rw [hn] <;> exact hc

/-- The next node keeps what it has, or gets a colour that is not used around it. -/
theorem next (h : Selecting p s s₁ done (u :: rest)) (hs : Settled p s) (hp : s.IsPlain)
    (st : NodeState n) (col : Option Nat) (hgraph : s'.graph = s₁.graph)
    (hcoal : s'.work.coalesced = s₁.work.coalesced)
    (hnode : ∀ x, s'.node.get x = if x = u then st else s₁.node.get x)
    (hcol : ∀ x, s'.colour.get x = if x = u then col else s₁.colour.get x)
    (hspilled : ∀ x, x ∈ s'.work.spilled ↔ s'.node.get x = .spilled)
    (hst : (st = .coloured ∧ ∃ c, col = some c ∧ p.isColour c = true ∧ c ∉ s₁.usedColours u) ∨
      (st = .spilled ∧ col = none)) : Selecting p s s' (done ++ [u]) rest where
  stack := by rw [h.stack, List.append_assoc, List.singleton_append]
  graph := hgraph.trans h.graph
  coalesced := hcoal.trans h.coalesced
  node_done x hx := by
    rw [hnode, hcol]
    by_cases hxu : x = u
    · rw [if_pos hxu, if_pos hxu]
      rcases hst with ⟨rfl, c, rfl, hc, -⟩ | hst
      · exact .inl ⟨rfl, c, rfl, hc⟩
      · exact .inr hst
    · rw [if_neg hxu, if_neg hxu]
      refine h.node_done x ?_
      rcases List.mem_append.1 hx with hx | hx
      · exact hx
      · exact absurd (List.mem_singleton.1 hx) hxu
  node_rest x hx := by
    rw [List.mem_append, not_or, List.mem_singleton] at hx
    rw [hnode, hcol, if_neg hx.2, if_neg hx.2]
    exact h.node_rest x hx.1
  mem_spilled := hspilled
  ne_of_interferes := by
    -- a pair with the new node in it: its colour is not used by the other one
    have hnew : ∀ a b c, s.graph.interferes a b = true → s.rep a = u → s.rep b ≠ u →
        col = some c → s₁.colour.get (s.rep b) ≠ some c := by
      intro a b c hab ha hb hc hcb
      have hused := h.mem_usedColours hs hp hab ha hcb
      rcases hst with ⟨-, c', hc', -, hfree⟩ | ⟨-, hnone⟩
      · rw [hc] at hc'
        cases hc'
        exact hfree hused
      · rw [hnone] at hc
        cases hc
    intro a b c hab hca hcb
    have hne := (hs.forwarded a b hab).1
    rw [hcol] at hca hcb
    by_cases ha : s.rep a = u
    · have hb : s.rep b ≠ u := fun hb ↦ hne (ha.trans hb.symm)
      rw [if_pos ha] at hca
      rw [if_neg hb] at hcb
      exact hnew a b c hab ha hb hca hcb
    · rw [if_neg ha] at hca
      by_cases hb : s.rep b = u
      · rw [if_pos hb] at hcb
        rw [Graph.interferes_comm] at hab
        exact hnew b a c hab hb ha hcb hca
      · rw [if_neg hb] at hcb
        exact h.ne_of_interferes a b c hab hca hcb

/-- The node on top of the stack has been selected, and has no colour yet. -/
theorem top (h : Selecting p s s₁ done (u :: rest)) (hs : Settled p s)
    (hp : s.IsPlain) : s₁.node.get u = .selected ∧ s₁.colour.get u = none := by
  have hm := hs.sound.mirror
  have hudone : u ∉ done := by
    have hnd := hm.nodup_stack
    rw [h.stack] at hnd
    exact fun hu ↦ (List.nodup_append.1 hnd).2.2 u hu u List.mem_cons_self rfl
  have husel : s.node.get u = .selected :=
    (hm.mem_stack u).1 (h.stack ▸ List.mem_append_right _ List.mem_cons_self)
  obtain ⟨hnode, hcolour⟩ := h.node_rest u hudone
  refine ⟨hnode.trans husel, ?_⟩
  rw [hcolour, hp u, Graph.precolour?, if_neg]
  rw [← hs.sound.node_precoloured, husel]
  simp

end Selecting

theorem freeColour?_eq_some {c : Nat} (h : s.freeColour? p u = some c) :
    p.isColour c = true ∧ c ∉ s.usedColours u := by
  have hmem := List.mem_of_find?_eq_some h
  have hfree := List.find?_some h
  rw [List.mem_range'_1] at hmem
  refine ⟨?_, of_decide_eq_true hfree⟩
  rw [ColouringProblem.isColour, Bool.and_eq_true, decide_eq_true_eq, decide_eq_true_eq]
  exact hmem

/-- The node on top of the stack gets a colour, or is spilled. -/
theorem Selecting.colourNode {done rest : List (Fin n)} (h : Selecting p s s₁ done (u :: rest))
    (hs : Settled p s) (hp : s.IsPlain) :
    ∃ s', s₁.colourNode p u = .ok s' ∧ Selecting p s s' (done ++ [u]) rest := by
  obtain ⟨hnode, hcolour⟩ := h.top hs hp
  have hfin : (s₁.node.get u).isFinal = false := by rw [hnode]; rfl
  have hleave (w : Worklists n m) : w.leave u (s₁.node.get u) = w := by rw [hnode]; rfl
  unfold Colouring.colourNode
  split
  · rename_i c hc
    obtain ⟨hcol, hfree⟩ := freeColour?_eq_some hc
    have hwork : ((s₁.setColour u c).setNode u .coloured).work = s₁.work := hleave _
    refine ⟨(s₁.setColour u c).setNode u .coloured, transition_eq_ok (s := s₁.setColour u c) hfin _,
      h.next hs hp .coloured (some c) rfl (by rw [hwork]) (fun x ↦ setNode_node _ _ _ _)
        (fun x ↦ Vector.get_set _ _ _ _) (fun x ↦ ?_) (.inl ⟨rfl, c, rfl, hcol, hfree⟩)⟩
    rw [hwork, h.mem_spilled, setNode_node]
    split
    · rename_i hx
      rw [hx, hnode]
      simp
    · rfl
  · have hwork : ((s₁.note (.noColour u)).setNode u .spilled).work =
        s₁.work.enter u .spilled := congrArg (·.enter u .spilled) (hleave _)
    refine ⟨(s₁.note (.noColour u)).setNode u .spilled, transition_eq_ok (s := s₁.note _) hfin _,
      h.next hs hp .spilled none rfl ?_ (fun x ↦ setNode_node _ _ _ _) (fun x ↦ ?_) (fun x ↦ ?_)
        (.inr ⟨rfl, rfl⟩)⟩
    · rw [hwork]
      rfl
    · split
      · rename_i hx
        rw [hx]
        exact hcolour
      · rfl
    · rw [hwork, setNode_node, Worklists.enter_spilled, if_pos rfl, List.mem_append,
        List.mem_singleton, h.mem_spilled]
      split
      · rename_i hx
        simp [hx]
      · rename_i hx
        simp [hx, note]

/-- Before the first node is looked at, only physical registers have colours. -/
theorem Selecting.start (hs : Settled p s) (hp : s.IsPlain) :
    Selecting p s { s.note .select with work.stack := [] } [] s.work.stack where
  stack := rfl
  graph := rfl
  coalesced := rfl
  node_done u hu := absurd hu List.not_mem_nil
  node_rest u _ := ⟨rfl, rfl⟩
  mem_spilled := hs.sound.mirror.mem_spilled
  ne_of_interferes a b c hab ha hb := by
    obtain ⟨hpa, hca⟩ := hp.eq_some ha
    obtain ⟨hpb, hcb⟩ := hp.eq_some hb
    have hla : s.graph.virtuals ≤ s.rep a := of_decide_eq_true hpa
    have hlb : s.graph.virtuals ≤ s.rep b := of_decide_eq_true hpb
    exact (hs.forwarded a b hab).1 (Fin.ext (by omega))

theorem Selecting.foldlM (hs : Settled p s) (hp : s.IsPlain) :
    ∃ s₁, s.work.stack.foldlM (Colouring.colourNode p) { s.note .select with work.stack := [] } =
      .ok s₁ ∧ Selecting p s s₁ s.work.stack [] := by
  obtain ⟨s₁, hok, done, h₁⟩ := foldlM_rest (f := Colouring.colourNode p)
    (fun rest s₁ ↦ ∃ done, Selecting p s s₁ done rest)
    (by
      rintro u rest s₁ ⟨done, h₁⟩
      obtain ⟨s₂, hok, h₂⟩ := h₁.colourNode hs hp
      exact ⟨s₂, hok, done ++ [u], h₂⟩)
    s.work.stack _ ⟨[], .start hs hp⟩
  refine ⟨s₁, hok, ?_⟩
  have hdone := h₁.stack
  rw [List.append_nil] at hdone
  rwa [hdone]

/-! ## Coalesced nodes -/

theorem foldl_inheritColour {us : List (Fin n)} (hus : ∀ x, s.rep x ∉ us) (x : Fin n) :
    (us.foldl inheritColour s).colour.get x =
      if x ∈ us then s.colour.get (s.rep x) else s.colour.get x := by
  induction us generalizing s with
  | nil => rfl
  | cons hd tl ih =>
    have hrep : ∀ y, (s.inheritColour hd).rep y = s.rep y := rep_congr fun _ _ ↦ Iff.rfl
    have hhd : ∀ y, s.rep y ≠ hd := fun y hy ↦ hus y (hy ▸ List.mem_cons_self)
    have hget : ∀ y, (s.inheritColour hd).colour.get y =
        if y = hd then s.colour.get (s.rep hd) else s.colour.get y := fun y ↦ Vector.get_set _ _ _ _
    rw [List.foldl_cons, ih fun y hy ↦ hus y (List.mem_cons_of_mem _ (hrep y ▸ hy)), hrep, hget,
      hget, if_neg (hhd x)]
    by_cases hx : x = hd
    · simp [hx]
    · simp [hx]

theorem foldl_inheritColour_eq (us : List (Fin n)) :
    (us.foldl inheritColour s).graph = s.graph ∧ (us.foldl inheritColour s).node = s.node ∧
      (us.foldl inheritColour s).work = s.work := by
  induction us generalizing s with
  | nil => exact ⟨rfl, rfl, rfl⟩
  | cons hd tl ih => exact ih

/-- What the selection makes of a colouring whose work is done: the nodes of the stack are coloured
or spilled, and every node has the colour of the one that represents it. -/
structure Selects (p : ColouringProblem n m) (s s' : Colouring n m) : Prop where
  graph : s'.graph = s.graph
  rep : ∀ u, s'.rep u = s.rep u
  colour_eq : ∀ u, s'.colour.get u = s'.colour.get (s.rep u)
  colour_stack : ∀ u ∈ s.work.stack, (s'.node.get u = .coloured ∧
    ∃ c, s'.colour.get u = some c ∧ p.isColour c = true) ∨
      (s'.node.get u = .spilled ∧ s'.colour.get u = none)
  node_eq : ∀ u, u ∉ s.work.stack → s'.node.get u = s.node.get u
  colour_root : ∀ u, u ∉ s.work.stack → s.IsRoot u → s'.colour.get u = s.graph.precolour? u
  mem_spilled : ∀ u, u ∈ s'.work.spilled ↔ s'.node.get u = .spilled
  ne_of_interferes : ∀ a b c, s.graph.interferes a b = true →
    s'.colour.get a = some c → s'.colour.get b ≠ some c

/-- The selection succeeds. -/
theorem Settled.assignColours (hs : Settled p s) (hp : s.IsPlain) :
    ∃ s', s.assignColours p = .ok s' ∧ Selects p s s' := by
  obtain ⟨s₁, hok, h₁⟩ := Selecting.foldlM hs hp
  have hm := hs.sound.mirror
  have hrep := h₁.rep_eq hm
  have hroot : ∀ x, s.IsRoot (s.rep x) := hs.sound.aliases.isRoot_rep
  have hcoal : ∀ x, x ∈ s₁.work.coalesced ↔ ∃ v, s.node.get x = .coalesced v := by
    intro x
    rw [h₁.coalesced]
    exact hs.sound.aliases.mem_coalesced x
  have hnot : ∀ {x}, s.IsRoot x → x ∉ s₁.work.coalesced := fun hx hmem ↦ by
    obtain ⟨v, hv⟩ := (hcoal _).1 hmem
    exact hx v hv
  obtain ⟨hgraph, hnode, hwork⟩ := foldl_inheritColour_eq (s := s₁) s₁.work.coalesced
  have hcolour : ∀ x, s₁.inheritColours.colour.get x = s₁.colour.get (s.rep x) := by
    intro x
    rw [inheritColours, foldl_inheritColour fun y ↦ by rw [hrep]; exact hnot (hroot y)]
    split
    · rw [hrep]
    · rename_i hx
      rw [rep_of_isRoot (fun v hv ↦ hx ((hcoal x).2 ⟨v, hv⟩))]
  have hcolour_root : ∀ {x}, s.IsRoot x → s₁.inheritColours.colour.get x = s₁.colour.get x :=
    fun hx ↦ by rw [hcolour, rep_of_isRoot hx]
  have hstack : ∀ {x}, x ∈ s.work.stack → s.IsRoot x := fun hx v hv ↦ by
    rw [hm.mem_stack, hv] at hx
    cases hx
  refine ⟨s₁.inheritColours, by rw [Colouring.assignColours, hok]; rfl, ?_⟩
  constructor
  · exact hgraph.trans h₁.graph
  · exact fun u ↦ (rep_congr (fun _ _ ↦ by rw [inheritColours, hnode]) u).trans (hrep u)
  · exact fun u ↦ by rw [hcolour, hcolour, hs.sound.aliases.rep_rep]
  · intro u hu
    rw [hcolour_root (hstack hu), inheritColours, hnode]
    exact h₁.node_done u hu
  · intro u hu
    rw [inheritColours, hnode]
    exact (h₁.node_rest u hu).1
  · intro u hu hr
    rw [hcolour_root hr, (h₁.node_rest u hu).2]
    exact hp u
  · intro u
    rw [inheritColours, hwork, hnode]
    exact h₁.mem_spilled u
  · intro a b c hab ha hb
    rw [hcolour] at ha hb
    exact h₁.ne_of_interferes a b c hab ha hb

/-! ## Validity -/

/-- The colours of the nodes of `g` after an attempt are right: the final graph has the edges of `g`
and those of coalesced nodes. -/
structure IsValid (catalog : Catalog) (g : Graph n (Fin m)) (s : Colouring n m) : Prop where
  interferes_of_interferes : ∀ u v, g.interferes u v = true → s.graph.interferes u v = true
  ne_of_interferes : ∀ u v c, s.graph.interferes u v = true → s.colour.get u = some c →
    s.colour.get v ≠ some c
  /-- A physical register keeps its own position as colour. -/
  colour_precoloured : ∀ u : Fin n, g.isPrecoloured u = true →
    s.colour.get u = some (u - g.virtuals)
  /-- What is handed out to a virtual register is an allocatable register, and not the frame
  base. -/
  isColour : ∀ u : Fin n, g.isPrecoloured u = false → s.node.get u = .coloured ∨
    ((∃ v, s.node.get u = .coalesced v) ∧ s.colour.get (s.rep u) ≠ none) →
    ∃ c, s.colour.get u = some c ∧ catalog.isColour c = true ∧ c ≠ catalog.frameBase.index ∧
      ∃ r ∈ catalog.allocatable, catalog.registers[c]? = some r
  colour_coalesced : ∀ u v, s.node.get u = .coalesced v →
    s.colour.get u = s.colour.get (s.rep u) ∧ u ∉ s.work.spilled

theorem isColour_problem {catalog : Catalog} (h : catalog.WellFormed) {r : Nat}
    (moves : List (Move r)) (c : Nat) :
    (catalog.problem moves).isColour c = catalog.isColour c := by
  rw [ColouringProblem.isColour, Catalog.isColour, Catalog.problem, ← h.firstColour_add]

theorem exists_register_of_isColour {catalog : Catalog} (h : catalog.WellFormed) {c : Nat}
    (hc : catalog.isColour c = true) : c ≠ catalog.frameBase.index ∧
      ∃ r ∈ catalog.allocatable, catalog.registers[c]? = some r := by
  constructor
  · rintro rfl
    rw [h.frameBase_not_isColour] at hc
    cases hc
  · obtain ⟨r, hr, rfl⟩ := (h.isColour_iff c).1 hc
    exact ⟨r, hr, h.getElem?_index (h.mem_registers hr)⟩

/-- A coloured node, or a coalesced one with a colour, has one of the colours to hand out. -/
theorem Selects.isColour (h : Selects p s s') (hs : Sound p s) {c : Nat}
    (hu : s.graph.isPrecoloured u = false) (hc : s'.colour.get u = some c) :
    p.isColour c = true := by
  have hroot := hs.aliases.isRoot_rep u
  rw [h.colour_eq] at hc
  by_cases hstack : s.rep u ∈ s.work.stack
  · rcases h.colour_stack _ hstack with ⟨-, c', hc', hcol⟩ | ⟨-, hnone⟩
    · rw [hc] at hc'
      cases hc'
      exact hcol
    · rw [hc] at hnone
      cases hnone
  · rw [h.colour_root _ hstack hroot, Graph.precolour?] at hc
    split at hc
    · rename_i hpre
      cases hc
      -- the register that represents a virtual one has been coalesced into
      rcases hs.aliases.rep_eq_or u with he | ⟨y, hy⟩
      · rw [he, hu] at hpre
        cases hpre
      · exact hs.isColour_of_coalesced hy hpre
    · cases hc

theorem Selects.isValid {catalog : Catalog} {r : Nat} {moves : List (Move r)}
    {g : Graph r (Fin moves.length)} {s s' : Colouring r moves.length}
    (h : Selects (catalog.problem moves) s s') (hc : catalog.WellFormed)
    (hs : Settled (catalog.problem moves) s) (hg : Grows (start g) s) : IsValid catalog g s' where
  interferes_of_interferes u v huv := by
    rw [h.graph]
    exact hg.interferes u v huv
  ne_of_interferes u v c huv := by
    rw [h.graph] at huv
    exact h.ne_of_interferes u v c huv
  colour_precoloured u hu := by
    have hv : s.graph.virtuals = g.virtuals := hg.virtuals
    have hpre : s.graph.isPrecoloured u = true := by rwa [Graph.isPrecoloured, hv]
    have hnode := (hs.sound.node_precoloured u).2 hpre
    rw [h.colour_root u, Graph.precolour?, if_pos hpre, hv]
    · rw [hs.sound.mirror.mem_stack, hnode]
      simp
    · exact fun v ↦ by simp [hnode]
  isColour u hu hcol := by
    have hv : s.graph.virtuals = g.virtuals := hg.virtuals
    have hpre : s.graph.isPrecoloured u = false := by rwa [Graph.isPrecoloured, hv]
    obtain ⟨c, huc⟩ : ∃ c, s'.colour.get u = some c := by
      rcases hcol with hcol | ⟨-, hne⟩
      · have hmem : u ∈ s.work.stack := by
          by_contra hmem
          rw [h.node_eq u hmem] at hcol
          exact hs.sound.not_coloured u hcol
        rcases h.colour_stack u hmem with ⟨-, c, huc, -⟩ | ⟨hn, -⟩
        · exact ⟨c, huc⟩
        · rw [hcol] at hn
          cases hn
      · rw [h.rep, ← h.colour_eq] at hne
        exact Option.ne_none_iff_exists'.1 hne
    have hisc := h.isColour hs.sound hpre huc
    rw [isColour_problem hc] at hisc
    exact ⟨c, huc, hisc, exists_register_of_isColour hc hisc⟩
  colour_coalesced u v huv := by
    refine ⟨by rw [h.rep]; exact h.colour_eq u, ?_⟩
    rw [h.mem_spilled, huv]
    simp

/-- A colouring of `g` whose work is done. -/
structure IsDone (p : ColouringProblem n m) (g : Graph n (Fin m)) (retired : List Nat)
    (s : Colouring n m) : Prop where
  settled : Settled p s
  grows : Grows (start g) s
  not_isListed : ∀ u, (s.node.get u).isListed = false
  node_ne_initial : ∀ u ∈ unretired g retired, s.node.get u ≠ .initial

/-- Only what was never sorted into the work is not finished. -/
theorem IsDone.node_eq_initial {g : Graph n (Fin m)} {retired : List Nat}
    (h : IsDone p g retired s) (hr : s.IsRoot u) (hstack : u ∉ s.work.stack)
    (hpre : s.graph.isPrecoloured u = false) : s.node.get u = .initial := by
  have hlisted := h.not_isListed u
  have hsound := h.settled.sound
  have hcoloured := hsound.not_coloured u
  have hspilled := hsound.not_spilled u
  have hprecoloured := (hsound.node_precoloured u).not.2 (by simp [hpre])
  rw [hsound.mirror.mem_stack] at hstack
  cases hn : s.node.get u with
  | initial => rfl
  | coalesced v => exact absurd hn (hr v)
  | _ => simp_all [NodeState.isListed]

/-- All the phases of an attempt succeed. -/
theorem exists_isDone {g : Graph n (Fin m)} (h : Settled p (start g)) (retired : List Nat)
    (choose : SpillChoice n m) :
    ∃ s₁ s₂ s, (start g).makeWorklist p (unretired g retired) = .ok s₁ ∧
      s₁.run p choose = .ok s₂ ∧ s₂.assignColours p = .ok s ∧ IsDone p g retired s₂ ∧
      Selects p s₂ s := by
  obtain ⟨s₁, hok₁, h₁, ht₁, hinit⟩ := h.makeWorklist_unretired retired
  obtain ⟨s₂, hok₂, h₂⟩ := h₁.run choose
  have hgrows := ht₁.grows.trans h₂.grows
  obtain ⟨s, hok, hsel⟩ := Settled.assignColours h₂.settled ((IsPlain.start _).grows hgrows)
  exact ⟨s₁, s₂, s, hok₁, hok₂, hok, ⟨h₂.settled, hgrows, h₂.not_isListed,
    fun u hu ↦ h₂.node_ne_initial u (hinit u hu)⟩, hsel⟩

/-- Whatever is chosen to be spilled, sorting the nodes into the work, running the steps and
selecting the colours succeeds, and the colours are valid. -/
theorem exists_isValid {names calleeSaved callerSaved : List String} {frameBase : String}
    {catalog : Catalog}
    (hcat : Catalog.ofNames? names calleeSaved callerSaved frameBase = .ok catalog) {r : Nat}
    (virtuals : Nat) (edges : List (Fin r × Fin r)) (moves : List (Move r)) (retired : List Nat)
    (choose : SpillChoice r moves.length) :
    ∃ s₁ s₂ s, (start (Graph.build virtuals edges moves)).makeWorklist (catalog.problem moves)
        (unretired (Graph.build virtuals edges moves) retired) = .ok s₁ ∧
      s₁.run (catalog.problem moves) choose = .ok s₂ ∧
      s₂.assignColours (catalog.problem moves) = .ok s ∧
      IsValid catalog (Graph.build virtuals edges moves) s := by
  have hc := Catalog.wellFormed_of_ofNames? hcat
  have h₀ := settled_start_build catalog virtuals edges moves
  obtain ⟨s₁, s₂, s, hok₁, hok₂, hok, hdone, hsel⟩ := exists_isDone h₀ retired choose
  exact ⟨s₁, s₂, s, hok₁, hok₂, hok, hsel.isValid hc hdone.settled hdone.grows⟩

/-- The phases of an attempt that succeeds. -/
theorem exists_of_attempt {g : Graph n (Fin m)} {choose : SpillChoice n m} {retired : List Nat}
    (hok : attempt p choose retired g = .ok s') :
    ∃ s₁ s₂, (start g).makeWorklist p (unretired g retired) = .ok s₁ ∧
      s₁.run p choose = .ok s₂ ∧ s₂.assignColours p = .ok s' := by
  unfold attempt at hok
  obtain ⟨s₁, hok₁, hok⟩ := bind_eq_ok_iff.1 hok
  obtain ⟨s₂, hok₂, hok⟩ := bind_eq_ok_iff.1 hok
  obtain ⟨s₃, hok₃, hok⟩ := bind_eq_ok_iff.1 hok
  split at hok
  · cases hok
    exact ⟨s₁, s₂, hok₁, hok₂, hok₃⟩
  · cases hok

/-- What the phases of an attempt have come to. -/
theorem isDone_of_attempt {g : Graph n (Fin m)} {choose : SpillChoice n m} {retired : List Nat}
    (h : Settled p (start g)) (hok : attempt p choose retired g = .ok s') :
    ∃ s₁ s, (start g).makeWorklist p (unretired g retired) = .ok s₁ ∧ s₁.run p choose = .ok s ∧
      s.assignColours p = .ok s' ∧ IsDone p g retired s ∧ Selects p s s' := by
  obtain ⟨s₁, s₂, hok₁, hok₂, hok₃⟩ := exists_of_attempt hok
  obtain ⟨_, _, _, hok₁', hok₂', hok₃', hdone, hsel⟩ := exists_isDone h retired choose
  rw [hok₁] at hok₁'
  cases hok₁'
  rw [hok₂] at hok₂'
  cases hok₂'
  rw [hok₃] at hok₃'
  cases hok₃'
  exact ⟨s₁, s₂, hok₁, hok₂, hok₃, hdone, hsel⟩

/-- Three registers that interfere with each other, with two colours, and a copy of one of them. -/
theorem exists_isValid_of_triangle :
    Catalog.ofNames? ["fp", "s1", "t0"] ["s1"] ["t0"] "fp" = .ok Catalog.twoColours ∧
    ∃ s₁ s₂ s, (start (Graph.build (r := 7) 4 [(0, 1), (1, 2), (2, 0)] [⟨0, 3, 0⟩])).makeWorklist
        (Catalog.twoColours.problem [⟨0, 3, 0⟩])
        (unretired (Graph.build (r := 7) 4 [(0, 1), (1, 2), (2, 0)] [⟨0, 3, 0⟩]) []) = .ok s₁ ∧
      s₁.run (Catalog.twoColours.problem [⟨0, 3, 0⟩]) (fun _ u _ ↦ ⟨u, List.mem_cons_self⟩) =
        .ok s₂ ∧
      s₂.assignColours (Catalog.twoColours.problem [⟨0, 3, 0⟩]) = .ok s ∧
      IsValid Catalog.twoColours
        (Graph.build (r := 7) 4 [(0, 1), (1, 2), (2, 0)] [⟨0, 3, 0⟩]) s :=
  ⟨Catalog.ofNames?_twoColours, exists_isValid Catalog.ofNames?_twoColours 4
    [(0, 1), (1, 2), (2, 0)] [⟨0, 3, 0⟩] [] fun _ u _ ↦ ⟨u, List.mem_cons_self⟩⟩

end RegAlloc.Colouring

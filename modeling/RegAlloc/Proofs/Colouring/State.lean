import Mathlib
import RegAlloc.Colouring.Step
import RegAlloc.Proofs.Graph

/-!
# Changes of a colouring

What the small changes of a colouring do to what can be seen of it. Three notions carry the proofs
about the steps:

* `Mirror`: the lists of work agree with the states of nodes and moves;
* `AliasOrdered`: a node is coalesced into one that is coalesced later or never, so `rep` always
  ends at a node that stands for itself;
* `Tweak`: a change after which the same nodes are in the graph, with the same edges and moves. Most
  changes are of this kind, and what is said of the shape of the graph survives them.
-/

namespace RegAlloc

/-! ## States of nodes -/

namespace NodeState

variable {n : Nat}

/-- A virtual register that is still in the graph. -/
def isOpen : NodeState n → Bool
  | initial | simplify | freeze | spill => true
  | _ => false

/-- A virtual register that is still in the graph and cannot be taken out of it yet. -/
def isWaiting : NodeState n → Bool
  | initial | freeze | spill => true
  | _ => false

/-- A virtual register in one of the lists of work. -/
def isListed : NodeState n → Bool
  | simplify | freeze | spill => true
  | _ => false

theorem isOpen_of_isWaiting {st : NodeState n} (h : st.isWaiting = true) : st.isOpen = true := by
  cases st <;> simp_all [isOpen, isWaiting]

theorem isOpen_of_isListed {st : NodeState n} (h : st.isListed = true) : st.isOpen = true := by
  cases st <;> simp_all [isOpen, isListed]

theorem isFinal_of_isOpen {st : NodeState n} (h : st.isOpen = true) : st.isFinal = false := by
  cases st <;> simp_all [isOpen, isFinal]

end NodeState

/-! ## Lists of work -/

namespace Worklists

variable {n m : Nat} (w : Worklists n m) (u x : Fin n) (st : NodeState n)

@[simp]
theorem mem_leave_simplify :
    x ∈ (w.leave u st).simplify ↔ x ∈ w.simplify ∧ ¬(st = .simplify ∧ x = u) := by
  cases st <;> simp [leave]

@[simp]
theorem mem_leave_freeze :
    x ∈ (w.leave u st).freeze ↔ x ∈ w.freeze ∧ ¬(st = .freeze ∧ x = u) := by
  cases st <;> simp [leave]

@[simp]
theorem mem_leave_spill :
    x ∈ (w.leave u st).spill ↔ x ∈ w.spill ∧ ¬(st = .spill ∧ x = u) := by
  cases st <;> simp [leave]

@[simp]
theorem leave_lists : (w.leave u st).stack = w.stack ∧ (w.leave u st).coalesced = w.coalesced ∧
    (w.leave u st).spilled = w.spilled ∧ (w.leave u st).worklistMoves = w.worklistMoves ∧
    (w.leave u st).activeMoves = w.activeMoves := by
  cases st <;> exact ⟨rfl, rfl, rfl, rfl, rfl⟩

@[simp]
theorem mem_enter_simplify :
    x ∈ (w.enter u st).simplify ↔ x ∈ w.simplify ∨ (st = .simplify ∧ x = u) := by
  cases st <;> simp [enter]

@[simp]
theorem mem_enter_freeze :
    x ∈ (w.enter u st).freeze ↔ x ∈ w.freeze ∨ (st = .freeze ∧ x = u) := by
  cases st <;> simp [enter]

@[simp]
theorem mem_enter_spill :
    x ∈ (w.enter u st).spill ↔ x ∈ w.spill ∨ (st = .spill ∧ x = u) := by
  cases st <;> simp [enter]

theorem enter_stack : (w.enter u st).stack = if st = .selected then u :: w.stack else w.stack := by
  cases st <;> simp [enter]

theorem enter_coalesced : (w.enter u st).coalesced =
    if ∃ v, st = .coalesced v then w.coalesced ++ [u] else w.coalesced := by
  cases st <;> simp [enter]

@[simp]
theorem mem_enter_coalesced :
    x ∈ (w.enter u st).coalesced ↔ x ∈ w.coalesced ∨ ((∃ v, st = .coalesced v) ∧ x = u) := by
  cases st <;> simp [enter]

theorem enter_spilled :
    (w.enter u st).spilled = if st = .spilled then w.spilled ++ [u] else w.spilled := by
  cases st <;> simp [enter]

@[simp]
theorem enter_moves : (w.enter u st).worklistMoves = w.worklistMoves ∧
    (w.enter u st).activeMoves = w.activeMoves := by
  cases st <;> exact ⟨rfl, rfl⟩

section Moves

variable (i j : Fin m) (mst : MoveState)

@[simp]
theorem mem_changeMove_worklist (old : MoveState) :
    j ∈ ((w.leaveMove i old).enterMove i mst).worklistMoves ↔
      (j ∈ w.worklistMoves ∧ ¬(old = .worklist ∧ j = i)) ∨ (mst = .worklist ∧ j = i) := by
  cases old <;> cases mst <;> simp [leaveMove, enterMove]

@[simp]
theorem mem_changeMove_active (old : MoveState) :
    j ∈ ((w.leaveMove i old).enterMove i mst).activeMoves ↔
      (j ∈ w.activeMoves ∧ ¬(old = .active ∧ j = i)) ∨ (mst = .active ∧ j = i) := by
  cases old <;> cases mst <;> simp [leaveMove, enterMove]

@[simp]
theorem changeMove_nodes (old : MoveState) :
    ((w.leaveMove i old).enterMove i mst).simplify = w.simplify ∧
      ((w.leaveMove i old).enterMove i mst).freeze = w.freeze ∧
      ((w.leaveMove i old).enterMove i mst).spill = w.spill ∧
      ((w.leaveMove i old).enterMove i mst).spilled = w.spilled ∧
      ((w.leaveMove i old).enterMove i mst).coalesced = w.coalesced ∧
      ((w.leaveMove i old).enterMove i mst).stack = w.stack := by
  cases old <;> cases mst <;> exact ⟨rfl, rfl, rfl, rfl, rfl, rfl⟩

end Moves

end Worklists

namespace Colouring

variable {n m : Nat} {s s' s'' : Colouring n m}

/-- The lists of work hold exactly the nodes and the moves in the states that they stand for, each
once. For the list of the coalesced nodes `AliasOrdered` says so. -/
structure Mirror (s : Colouring n m) : Prop where
  mem_simplify : ∀ u, u ∈ s.work.simplify ↔ s.node.get u = .simplify
  mem_freeze : ∀ u, u ∈ s.work.freeze ↔ s.node.get u = .freeze
  mem_spill : ∀ u, u ∈ s.work.spill ↔ s.node.get u = .spill
  mem_stack : ∀ u, u ∈ s.work.stack ↔ s.node.get u = .selected
  nodup_stack : s.work.stack.Nodup
  mem_spilled : ∀ u, u ∈ s.work.spilled ↔ s.node.get u = .spilled
  nodup_spilled : s.work.spilled.Nodup
  mem_worklistMoves : ∀ i, i ∈ s.work.worklistMoves ↔ s.move.get i = .worklist
  mem_activeMoves : ∀ i, i ∈ s.work.activeMoves ↔ s.move.get i = .active

section SetNode

variable (s : Colouring n m) (u x : Fin n) (st : NodeState n)

@[simp]
theorem setNode_node : (s.setNode u st).node.get x = if x = u then st else s.node.get x :=
  Vector.get_set _ _ _ _

@[simp]
theorem setNode_graph : (s.setNode u st).graph = s.graph := rfl

@[simp]
theorem setNode_move : (s.setNode u st).move = s.move := rfl

@[simp]
theorem setNode_colour : (s.setNode u st).colour = s.colour := rfl

theorem setNode_work :
    (s.setNode u st).work = (s.work.leave u (s.node.get u)).enter u st := rfl

@[simp]
theorem isPending_setNode (i : Fin m) : (s.setNode u st).isPending i = s.isPending i := rfl

@[simp]
theorem isMoveRelated_setNode : (s.setNode u st).isMoveRelated x = s.isMoveRelated x := rfl

end SetNode

/-- A node that is still in the graph can go into any state. -/
theorem Mirror.setNode (h : s.Mirror) {u : Fin n} (hu : (s.node.get u).isOpen = true)
    (st : NodeState n) : (s.setNode u st).Mirror := by
  have hsel : s.node.get u ≠ .selected := by rintro he; simp [he, NodeState.isOpen] at hu
  have hspl : s.node.get u ≠ .spilled := by rintro he; simp [he, NodeState.isOpen] at hu
  constructor
  · intro x
    have := h.mem_simplify x
    simp only [setNode_work, setNode_node, Worklists.mem_enter_simplify,
      Worklists.mem_leave_simplify]
    grind
  · intro x
    have := h.mem_freeze x
    simp only [setNode_work, setNode_node, Worklists.mem_enter_freeze, Worklists.mem_leave_freeze]
    grind
  · intro x
    have := h.mem_spill x
    simp only [setNode_work, setNode_node, Worklists.mem_enter_spill, Worklists.mem_leave_spill]
    grind
  · intro x
    have := h.mem_stack x
    simp only [setNode_work, setNode_node, Worklists.enter_stack, Worklists.leave_lists]
    grind
  · have hnd := h.nodup_stack
    have hu' : u ∉ s.work.stack := fun hm ↦ hsel ((h.mem_stack u).1 hm)
    simp only [setNode_work, Worklists.enter_stack, Worklists.leave_lists]
    split
    · exact List.nodup_cons.2 ⟨hu', hnd⟩
    · exact hnd
  · intro x
    have := h.mem_spilled x
    simp only [setNode_work, setNode_node, Worklists.enter_spilled, Worklists.leave_lists]
    grind
  · have hnd := h.nodup_spilled
    have hu' : u ∉ s.work.spilled := fun hm ↦ hspl ((h.mem_spilled u).1 hm)
    simp only [setNode_work, Worklists.enter_spilled, Worklists.leave_lists]
    split
    · exact List.concat_eq_append ▸ hnd.concat hu'
    · exact hnd
  · intro i
    simp only [setNode_work, setNode_move, Worklists.enter_moves, Worklists.leave_lists]
    exact h.mem_worklistMoves i
  · intro i
    simp only [setNode_work, setNode_move, Worklists.enter_moves, Worklists.leave_lists]
    exact h.mem_activeMoves i

theorem transition_eq_ok {u : Fin n} (h : (s.node.get u).isFinal = false) (st : NodeState n) :
    s.transition u st = .ok (s.setNode u st) := by
  rw [transition, h]
  rfl

theorem transitionMove_eq_ok {i : Fin m} (h : (s.move.get i).isFinal = false) (st : MoveState) :
    s.transitionMove i st = .ok (s.setMove i st) := by
  rw [transitionMove, h]
  rfl

section SetMove

variable (s : Colouring n m) (i j : Fin m) (st : MoveState)

@[simp]
theorem setMove_move : (s.setMove i st).move.get j = if j = i then st else s.move.get j :=
  Vector.get_set _ _ _ _

@[simp]
theorem setMove_graph : (s.setMove i st).graph = s.graph := rfl

@[simp]
theorem setMove_node : (s.setMove i st).node = s.node := rfl

@[simp]
theorem setMove_colour : (s.setMove i st).colour = s.colour := rfl

theorem setMove_work :
    (s.setMove i st).work = (s.work.leaveMove i (s.move.get i)).enterMove i st := rfl

theorem isPending_setMove :
    (s.setMove i st).isPending j = if j = i then !st.isFinal else s.isPending j := by
  unfold isPending
  rw [setMove_move]
  split <;> rfl

end SetMove

theorem Mirror.setMove (h : s.Mirror) (i : Fin m) (st : MoveState) : (s.setMove i st).Mirror := by
  obtain ⟨h₁, h₂, h₃, h₄, h₅, h₆⟩ := s.work.changeMove_nodes i st (s.move.get i)
  constructor
  · rw [setMove_work, h₁]
    exact h.mem_simplify
  · rw [setMove_work, h₂]
    exact h.mem_freeze
  · rw [setMove_work, h₃]
    exact h.mem_spill
  · rw [setMove_work, h₆]
    exact h.mem_stack
  · rw [setMove_work, h₆]
    exact h.nodup_stack
  · rw [setMove_work, h₄]
    exact h.mem_spilled
  · rw [setMove_work, h₄]
    exact h.nodup_spilled
  · intro j
    have := h.mem_worklistMoves j
    simp only [setMove_work, setMove_move, Worklists.mem_changeMove_worklist]
    grind
  · intro j
    have := h.mem_activeMoves j
    simp only [setMove_work, setMove_move, Worklists.mem_changeMove_active]
    grind

/-! ## Representatives -/

/-- A node that is not coalesced into another one. -/
def IsRoot (s : Colouring n m) (u : Fin n) : Prop :=
  ∀ v, s.node.get u ≠ .coalesced v

/-- The list of the coalesced nodes is right, and a node is coalesced into one that comes later in
it or not at all. -/
structure AliasOrdered (s : Colouring n m) : Prop where
  mem_coalesced : ∀ u, u ∈ s.work.coalesced ↔ ∃ v, s.node.get u = .coalesced v
  nodup_coalesced : s.work.coalesced.Nodup
  lt : ∀ {u v}, s.node.get u = .coalesced v →
    s.work.coalesced.idxOf u < s.work.coalesced.idxOf v

theorem follow_of_isRoot {u : Fin n} (h : s.IsRoot u) (fuel : Nat) : s.follow fuel u = u := by
  cases fuel with
  | zero => rfl
  | succ fuel =>
    unfold follow
    split
    · rename_i v hv
      exact absurd hv (h v)
    · rfl

theorem follow_succ {u v : Fin n} (h : s.node.get u = .coalesced v) (fuel : Nat) :
    s.follow (fuel + 1) u = s.follow fuel v := by
  rw [follow, h]

namespace AliasOrdered

/-- Induction along the steps from a node to the one that represents it. -/
theorem induct (h : s.AliasOrdered) {motive : Fin n → Prop} (root : ∀ u, s.IsRoot u → motive u)
    (step : ∀ u v, s.node.get u = .coalesced v → motive v → motive u) (u : Fin n) : motive u := by
  induction hk : s.work.coalesced.length - s.work.coalesced.idxOf u using Nat.strong_induction_on
    generalizing u with
  | _ k ih =>
    by_cases hu : s.IsRoot u
    · exact root u hu
    · obtain ⟨v, hv⟩ : ∃ v, s.node.get u = .coalesced v := by simpa [IsRoot] using hu
      have hlt := h.lt hv
      have hle : s.work.coalesced.idxOf v ≤ s.work.coalesced.length := List.idxOf_le_length
      exact step u v hv (ih _ (by omega) v rfl)

theorem isRoot_of_length_le (h : s.AliasOrdered) {u : Fin n}
    (hu : s.work.coalesced.length ≤ s.work.coalesced.idxOf u) : s.IsRoot u := by
  intro v hv
  have hmem := (h.mem_coalesced u).2 ⟨v, hv⟩
  exact absurd (List.idxOf_lt_length_of_mem hmem) (by omega)

/-- More fuel than there are steps changes nothing. -/
theorem follow_stable (h : s.AliasOrdered) (fuel : Nat) (u : Fin n)
    (hf : s.work.coalesced.length - s.work.coalesced.idxOf u ≤ fuel) :
    s.follow (fuel + 1) u = s.follow fuel u := by
  induction fuel generalizing u with
  | zero =>
    have hroot := h.isRoot_of_length_le (u := u) (by omega)
    rw [follow_of_isRoot hroot, follow_of_isRoot hroot]
  | succ fuel ih =>
    by_cases hu : s.IsRoot u
    · rw [follow_of_isRoot hu, follow_of_isRoot hu]
    · obtain ⟨v, hv⟩ : ∃ v, s.node.get u = .coalesced v := by simpa [IsRoot] using hu
      rw [follow_succ hv, follow_succ hv]
      have hlt := h.lt hv
      exact ih v (by omega)

theorem length_le (h : s.AliasOrdered) : s.work.coalesced.length ≤ n := by
  simpa using h.nodup_coalesced.length_le_card

/-- A coalesced node is represented by what represents the node that it is coalesced into. -/
theorem rep_coalesced (h : s.AliasOrdered) {u v : Fin n} (hu : s.node.get u = .coalesced v) :
    s.rep u = s.rep v := by
  have hlt := h.lt hu
  have hle := h.length_le
  obtain ⟨k, hk⟩ : ∃ k, n = k + 1 := ⟨n - 1, by have := u.isLt; omega⟩
  have hstable := h.follow_stable k v (by omega)
  calc s.rep u = s.follow (k + 1) u := by rw [rep, ← hk]
    _ = s.follow k v := follow_succ hu k
    _ = s.follow (k + 1) v := hstable.symm
    _ = s.rep v := by rw [rep, ← hk]

end AliasOrdered

theorem rep_of_isRoot {u : Fin n} (h : s.IsRoot u) : s.rep u = u :=
  follow_of_isRoot h n

/-- What represents a node stands for itself. -/
theorem AliasOrdered.isRoot_rep (h : s.AliasOrdered) (u : Fin n) : s.IsRoot (s.rep u) := by
  induction u using h.induct with
  | root u hu =>
    rw [rep_of_isRoot hu]
    exact hu
  | step u v hv ih =>
    rw [h.rep_coalesced hv]
    exact ih

theorem AliasOrdered.rep_rep (h : s.AliasOrdered) (u : Fin n) : s.rep (s.rep u) = s.rep u :=
  rep_of_isRoot (h.isRoot_rep u)

/-- Representatives depend on the coalesced nodes only. -/
theorem rep_congr (h : ∀ u v, s'.node.get u = .coalesced v ↔ s.node.get u = .coalesced v)
    (u : Fin n) : s'.rep u = s.rep u := by
  suffices hf : ∀ fuel u, s'.follow fuel u = s.follow fuel u from hf n u
  intro fuel
  induction fuel with
  | zero => exact fun _ ↦ rfl
  | succ fuel ih =>
    intro u
    by_cases hu : s.IsRoot u
    · have hu' : s'.IsRoot u := fun v hv ↦ hu v ((h u v).1 hv)
      rw [follow_of_isRoot hu, follow_of_isRoot hu']
    · obtain ⟨v, hv⟩ : ∃ v, s.node.get u = .coalesced v := by simpa [IsRoot] using hu
      rw [follow_succ hv, follow_succ ((h u v).2 hv)]
      exact ih v

theorem AliasOrdered.congr (h : s.AliasOrdered)
    (hn : ∀ u v, s'.node.get u = .coalesced v ↔ s.node.get u = .coalesced v)
    (hc : s'.work.coalesced = s.work.coalesced) : s'.AliasOrdered := by
  constructor
  · intro u
    simp only [hc, hn]
    exact h.mem_coalesced u
  · rw [hc]
    exact h.nodup_coalesced
  · intro u v huv
    rw [hc]
    exact h.lt ((hn u v).1 huv)

section Coalesce

variable {u v : Fin n}

theorem isRoot_of_isOpen (h : (s.node.get v).isOpen = true) : s.IsRoot v := by
  intro w hw
  simp [hw, NodeState.isOpen] at h

/-- A node can be coalesced into any other one that stands for itself. -/
theorem AliasOrdered.coalesce (h : s.AliasOrdered) (hv : (s.node.get v).isOpen = true)
    (hu : s.IsRoot u) (huv : u ≠ v) : (s.setNode v (.coalesced u)).AliasOrdered := by
  have hvroot := isRoot_of_isOpen hv
  have hvmem : v ∉ s.work.coalesced := fun hm ↦ by
    obtain ⟨w, hw⟩ := (h.mem_coalesced v).1 hm
    exact hvroot w hw
  have humem : u ∉ s.work.coalesced := fun hm ↦ by
    obtain ⟨w, hw⟩ := (h.mem_coalesced u).1 hm
    exact hu w hw
  have hlist : (s.setNode v (.coalesced u)).work.coalesced = s.work.coalesced ++ [v] := by
    simp [setNode_work, Worklists.enter_coalesced]
  constructor
  · intro x
    have := h.mem_coalesced x
    rw [hlist]
    simp only [setNode_node, List.mem_append, List.mem_singleton]
    grind
  · rw [hlist]
    exact List.concat_eq_append ▸ h.nodup_coalesced.concat hvmem
  · intro x y hxy
    rw [hlist]
    simp only [setNode_node] at hxy
    by_cases hx : x = v
    · -- the new pair: `v` is the last of the list, and `u` is not in it
      rw [if_pos hx] at hxy
      cases hxy
      subst hx
      rw [List.idxOf_append_of_notMem hvmem, List.idxOf_append_of_notMem humem]
      simp [huv.symm]
    · rw [if_neg hx] at hxy
      have hlt := h.lt hxy
      have hxmem := (h.mem_coalesced x).2 ⟨y, hxy⟩
      rw [List.idxOf_append_of_mem hxmem]
      by_cases hy : y ∈ s.work.coalesced
      · rwa [List.idxOf_append_of_mem hy]
      · rw [List.idxOf_append_of_notMem hy]
        have := List.idxOf_lt_length_of_mem hxmem
        omega

/-- After `v` has been coalesced into `u`, all that `v` stood for is represented by `u`. -/
theorem AliasOrdered.rep_coalesce (h : s.AliasOrdered) (hv : (s.node.get v).isOpen = true)
    (hu : s.IsRoot u) (huv : u ≠ v) (x : Fin n) :
    (s.setNode v (.coalesced u)).rep x = if s.rep x = v then u else s.rep x := by
  have h' := h.coalesce hv hu huv
  have hu' : (s.setNode v (.coalesced u)).IsRoot u := by
    intro w
    rw [setNode_node, if_neg huv]
    exact hu w
  induction x using h.induct with
  | root x hx =>
    rw [rep_of_isRoot hx]
    by_cases hxv : x = v
    · rw [if_pos hxv, h'.rep_coalesced (u := x) (v := u) (by rw [setNode_node, if_pos hxv]),
        rep_of_isRoot hu']
    · rw [if_neg hxv]
      refine rep_of_isRoot fun w ↦ ?_
      rw [setNode_node, if_neg hxv]
      exact hx w
  | step x y hxy ih =>
    have hxv : x ≠ v := by
      rintro rfl
      exact isRoot_of_isOpen hv y hxy
    have hxy' : (s.setNode v (.coalesced u)).node.get x = .coalesced y := by
      rw [setNode_node, if_neg hxv, hxy]
    rw [h.rep_coalesced hxy, h'.rep_coalesced hxy']
    exact ih

end Coalesce

/-! ## Changes that keep the shape of the graph -/

/-- Only nodes that wait have changed their states, and they are in the lists of work now. -/
def Calm (s s' : Colouring n m) : Prop :=
  ∀ u, s'.node.get u = s.node.get u ∨
    ((s.node.get u).isWaiting = true ∧ (s'.node.get u).isListed = true)

theorem Calm.of_node_eq (h : s'.node = s.node) : Calm s s' :=
  fun _ ↦ .inl (by rw [h])

theorem Calm.trans (h : Calm s s') (h' : Calm s' s'') : Calm s s'' := by
  intro u
  rcases h' u with h₂ | ⟨h₂, h₂'⟩
  · rw [h₂]
    exact h u
  · rcases h u with h₁ | ⟨h₁, h₁'⟩
    · exact .inr ⟨h₁ ▸ h₂, h₂'⟩
    · exact .inr ⟨h₁, h₂'⟩

/-- After the change the same nodes are in the graph, with the same edges and the same moves. -/
structure Tweak (s s' : Colouring n m) : Prop where
  virtuals : s'.graph.virtuals = s.graph.virtuals
  matrix : s'.graph.matrix = s.graph.matrix
  adjacency : s'.graph.adjacency = s.graph.adjacency
  moves : s'.graph.moves = s.graph.moves
  colour : s'.colour = s.colour
  node : Calm s s'
  stack : s'.work.stack = s.work.stack
  coalesced : s'.work.coalesced = s.work.coalesced
  mirror : s.Mirror → s'.Mirror
  trace : s.trace <:+ s'.trace

namespace Tweak

theorem refl (s : Colouring n m) : Tweak s s :=
  ⟨rfl, rfl, rfl, rfl, rfl, fun _ ↦ .inl rfl, rfl, rfl, id, List.suffix_refl _⟩

theorem trans (h : Tweak s s') (h' : Tweak s' s'') : Tweak s s'' where
  virtuals := h'.virtuals.trans h.virtuals
  matrix := h'.matrix.trans h.matrix
  adjacency := h'.adjacency.trans h.adjacency
  moves := h'.moves.trans h.moves
  colour := h'.colour.trans h.colour
  node := h.node.trans h'.node
  stack := h'.stack.trans h.stack
  coalesced := h'.coalesced.trans h.coalesced
  mirror := h'.mirror ∘ h.mirror
  trace := h.trace.trans h'.trace

/-- A state that no node enters or leaves in such a change. -/
theorem node_eq_iff (h : Tweak s s') (st : NodeState n) (hst : st.isOpen = false) (u : Fin n) :
    s'.node.get u = st ↔ s.node.get u = st := by
  rcases h.node u with he | ⟨hw, ho⟩
  · rw [he]
  · constructor
    · rintro rfl
      simp [NodeState.isOpen_of_isListed ho] at hst
    · rintro rfl
      simp [NodeState.isOpen_of_isWaiting hw] at hst

theorem isOpen (h : Tweak s s') (u : Fin n) :
    (s'.node.get u).isOpen = (s.node.get u).isOpen := by
  rcases h.node u with he | ⟨hw, ho⟩
  · rw [he]
  · rw [NodeState.isOpen_of_isListed ho, NodeState.isOpen_of_isWaiting hw]

theorem isPresent (h : Tweak s s') (u : Fin n) : s'.isPresent u = s.isPresent u := by
  rcases h.node u with he | ⟨hw, ho⟩
  · rw [Colouring.isPresent, he]
    rfl
  · have hw := NodeState.isOpen_of_isWaiting hw
    have ho := NodeState.isOpen_of_isListed ho
    unfold Colouring.isPresent
    cases hs : s.node.get u <;> cases hs' : s'.node.get u <;> simp_all [NodeState.isOpen]

theorem rep (h : Tweak s s') (u : Fin n) : s'.rep u = s.rep u :=
  rep_congr (fun u v ↦ h.node_eq_iff (.coalesced v) rfl u) u

theorem aliasOrdered (h : Tweak s s') (ha : s.AliasOrdered) : s'.AliasOrdered :=
  ha.congr (fun u v ↦ h.node_eq_iff (.coalesced v) rfl u) h.coalesced

theorem adjacent (h : Tweak s s') (u : Fin n) : s'.adjacent u = s.adjacent u := by
  unfold Colouring.adjacent
  rw [h.adjacency]
  congr 1
  funext v
  exact h.isPresent v

theorem interferes (h : Tweak s s') (u v : Fin n) :
    s'.graph.interferes u v = s.graph.interferes u v := by
  rw [Graph.interferes, h.matrix]
  rfl

theorem isPrecoloured (h : Tweak s s') (u : Nat) :
    s'.graph.isPrecoloured u = s.graph.isPrecoloured u := by
  rw [Graph.isPrecoloured, h.virtuals]
  rfl

theorem faithful (h : Tweak s s') (hf : s.graph.Faithful) : s'.graph.Faithful :=
  hf.congr h.virtuals h.matrix h.adjacency

theorem isMoveRelated (h : Tweak s s') (hp : ∀ i, s'.isPending i = s.isPending i) (u : Fin n) :
    s'.isMoveRelated u = s.isMoveRelated u := by
  unfold Colouring.isMoveRelated nodeMoves
  rw [h.moves, funext hp]

/-- Noting what happened changes nothing else. -/
theorem note (s : Colouring n m) (e : ColouringEvent n m) : Tweak s (s.note e) :=
  ⟨rfl, rfl, rfl, rfl, rfl, fun _ ↦ .inl rfl, rfl, rfl,
    fun h ↦ ⟨h.1, h.2, h.3, h.4, h.5, h.6, h.7, h.8, h.9⟩, List.suffix_cons _ _⟩

theorem setMove (s : Colouring n m) (i : Fin m) (st : MoveState) : Tweak s (s.setMove i st) :=
  have h := s.work.changeMove_nodes i st (s.move.get i)
  ⟨rfl, rfl, rfl, rfl, rfl, fun _ ↦ .inl rfl, h.2.2.2.2.2, h.2.2.2.2.1, fun hm ↦ hm.setMove i st,
    List.suffix_cons _ _⟩

theorem setDegree (s : Colouring n m) (u : Fin n) (d : Nat) : Tweak s (s.setDegree u d) :=
  ⟨rfl, rfl, rfl, rfl, rfl, fun _ ↦ .inl rfl, rfl, rfl,
    fun h ↦ ⟨h.1, h.2, h.3, h.4, h.5, h.6, h.7, h.8, h.9⟩, List.suffix_refl _⟩

/-- A node that waits, or stays as it is, can go into one of the lists of work. -/
theorem setNode {u : Fin n} {st : NodeState n} (hst : st.isListed = true)
    (h : (s.node.get u).isWaiting = true ∨ s.node.get u = st) : Tweak s (s.setNode u st) where
  virtuals := rfl
  matrix := rfl
  adjacency := rfl
  moves := rfl
  colour := rfl
  node := by
    intro x
    rw [setNode_node]
    by_cases hx : x = u
    · subst hx
      rw [if_pos rfl]
      rcases h with h | h
      · exact .inr ⟨h, hst⟩
      · exact .inl h.symm
    · rw [if_neg hx]
      exact .inl rfl
  stack := by
    rw [setNode_work, Worklists.enter_stack, if_neg (by rintro rfl; cases hst)]
    exact (s.work.leave_lists u _).1
  coalesced := by
    rw [setNode_work, Worklists.enter_coalesced,
      if_neg (by rintro ⟨v, rfl⟩; cases hst)]
    exact (s.work.leave_lists u _).2.1
  mirror := by
    intro hm
    refine hm.setNode ?_ st
    rcases h with h | h
    · exact NodeState.isOpen_of_isWaiting h
    · rw [h]
      exact NodeState.isOpen_of_isListed hst
  trace := List.suffix_cons _ _

end Tweak

/-- Nothing but the record of what happened, and which of the pending moves are to be looked at, has
changed. -/
structure Quiet (s s' : Colouring n m) : Prop extends Tweak s s' where
  graph_eq : s'.graph = s.graph
  node_eq : s'.node = s.node
  isPending_eq : ∀ i, s'.isPending i = s.isPending i

namespace Quiet

theorem refl (s : Colouring n m) : Quiet s s :=
  ⟨.refl s, rfl, rfl, fun _ ↦ rfl⟩

theorem trans (h : Quiet s s') (h' : Quiet s' s'') : Quiet s s'' :=
  ⟨h.toTweak.trans h'.toTweak, h'.graph_eq.trans h.graph_eq, h'.node_eq.trans h.node_eq,
    fun i ↦ (h'.isPending_eq i).trans (h.isPending_eq i)⟩

theorem note (s : Colouring n m) (e : ColouringEvent n m) : Quiet s (s.note e) :=
  ⟨.note s e, rfl, rfl, fun _ ↦ rfl⟩

/-- A move that is pending before and after the change. -/
theorem setMove {i : Fin m} {st : MoveState} (h : s.isPending i = true) (hst : st.isFinal = false) :
    Quiet s (s.setMove i st) := by
  refine ⟨.setMove s i st, rfl, rfl, fun j ↦ ?_⟩
  rw [isPending_setMove]
  split
  · rename_i hj
    rw [hj, h, hst]
    rfl
  · rfl

theorem enableMove (s : Colouring n m) (i : Fin m) : Quiet s (s.enableMove i) := by
  unfold Colouring.enableMove
  split
  · rename_i hi
    exact setMove (by rw [isPending, hi]; rfl) rfl
  · exact refl s

theorem foldl {α : Type} {f : Colouring n m → α → Colouring n m} (h : ∀ s a, Quiet s (f s a))
    (as : List α) (s : Colouring n m) : Quiet s (as.foldl f s) := by
  induction as generalizing s with
  | nil => exact refl s
  | cons hd tl ih => exact (h s hd).trans (ih (f s hd))

theorem enableMoves (s : Colouring n m) (us : List (Fin n)) : Quiet s (s.enableMoves us) :=
  foldl (fun s u ↦ foldl enableMove (s.nodeMoves u) s) us s

end Quiet

end Colouring

end RegAlloc

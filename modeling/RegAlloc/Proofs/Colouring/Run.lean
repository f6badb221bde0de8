import Mathlib
import RegAlloc.Proofs.Colouring.Freeze

/-!
# Runs of a colouring keep its invariant and end

The colouring that a run starts from is settled, sorting nodes into the work keeps it so, and so
does each step. A run ends because its `potential` goes down: a node that leaves the graph counts
more than all the moves that can be enabled by that, and while no node leaves, nodes only stop to
wait, or moves to be looked at.
-/

namespace RegAlloc.Colouring

variable {n m : Nat} {p : ColouringProblem n m} {s s' : Colouring n m}

/-! ## The start -/

section Start

variable {g : Graph n (Fin m)}

@[simp]
theorem start_node (u : Fin n) :
    (start g).node.get u = if g.isPrecoloured u then .precoloured else .initial := by
  simp [start]

theorem start_node_ne_coalesced (u v : Fin n) : (start g).node.get u ≠ .coalesced v := by
  rw [start_node]
  split <;> simp

theorem start_rep (u : Fin n) : (start g).rep u = u :=
  rep_of_isRoot (start_node_ne_coalesced u)

theorem start_isPresent (u : Fin n) : (start g).isPresent u = true := by
  unfold isPresent
  rw [start_node]
  cases g.isPrecoloured u <;> rfl

theorem mirror_start : (start g).Mirror := by
  constructor
  · intro u
    rw [start_node]
    split <;> simp [start]
  · intro u
    rw [start_node]
    split <;> simp [start]
  · intro u
    rw [start_node]
    split <;> simp [start]
  · intro u
    rw [start_node]
    split <;> simp [start]
  · exact .nil
  · intro u
    rw [start_node]
    split <;> simp [start]
  · exact .nil
  · intro i
    simp [start]
  · intro i
    simp [start]

/-- The colouring in which no work has been done is settled. -/
theorem settled_start (hf : g.Faithful) (hl : g.HasLengths) (hnd : ∀ u, (g.moves.get u).Nodup)
    (hm : ∀ u i, i ∈ g.moves.get u ↔ (p.moves.get i).dst = u ∨ (p.moves.get i).src = u) :
    Settled p (start g) where
  sound :=
    { faithful := hf
      node_precoloured := fun u ↦ by
        rw [start_node]
        split <;> simp_all [start]
      not_coloured := fun u ↦ by
        rw [start_node]
        split <;> simp
      not_spilled := fun u ↦ by
        rw [start_node]
        split <;> simp
      mirror := mirror_start
      aliases :=
        { mem_coalesced := fun u ↦ by
            simp only [start_node_ne_coalesced, exists_false, iff_false]
            exact List.not_mem_nil
          nodup_coalesced := .nil
          lt := fun h ↦ absurd h (start_node_ne_coalesced _ _) }
      nodup_moves := hnd
      mem_moves := fun _ i ↦ by
        rw [start_rep, start_rep]
        exact hm _ i
      isColour_of_coalesced := fun h ↦ absurd h (start_node_ne_coalesced _ _)
      isEnd_of_coalesced := fun h ↦ absurd h (start_node_ne_coalesced _ _) }
  forwarded := by
    intro a b hab
    simp only [start_rep]
    refine ⟨Graph.ne_of_interferes hab, fun _ _ ↦ .inl hab, fun ha ↦ ?_⟩
    rw [start_node] at ha
    split at ha <;> cases ha
  degrees := by
    intro u hu
    have hp : g.isPrecoloured u = false := by
      rw [start_node] at hu
      by_contra hc
      rw [Bool.not_eq_false] at hc
      rw [if_pos hc] at hu
      cases hu
    have hadj : (start g).adjacent u = g.adjacency.get u :=
      List.filter_eq_self.2 fun v _ ↦ start_isPresent v
    rw [hadj]
    exact hl u hp
  classified u _ := by
    rw [Classified, start_node]
    split <;> trivial

end Start

/-- A node is sorted into the work by its degree and its moves. -/
theorem Settled.enlist {u : Fin n} (h : Settled p s) (hu : s.node.get u = .initial) :
    ∃ s', s.enlist p u = .ok s' ∧ Settled p s' ∧ Tweak s s' ∧
      (s'.node.get u).isListed = true ∧ ∀ x, x ≠ u → s'.node.get x = s.node.get x := by
  obtain ⟨st, hst⟩ : ∃ st : NodeState n, st = if p.k ≤ s.graph.degree.get u then .spill
    else if s.isMoveRelated u then .freeze else .simplify := ⟨_, rfl⟩
  have hlisted : st.isListed = true := by
    rw [hst]
    split_ifs <;> rfl
  have ht : Tweak s (s.setNode u st) := Tweak.setNode hlisted (.inl (by rw [hu]; rfl))
  refine ⟨s.setNode u st, ?_, ?_, ht, by rwa [setNode_node, if_pos rfl], fun x hx ↦ ?_⟩
  · rw [Colouring.enlist, ← hst]
    exact transition_eq_ok (by rw [hu]; rfl) st
  · refine h.tweak ht (fun _ _ ↦ rfl) fun x _ ↦ ?_
    by_cases hx : x = u
    · rw [Classified, setNode_node, if_pos hx, isMoveRelated_setNode, hx, hst]
      split_ifs <;> simp_all [Fits]
    · refine (h.classified x id).congr ?_ rfl rfl ht.trace
      rw [setNode_node, if_neg hx]
  · rw [setNode_node, if_neg hx]

/-- Sorting nodes into the work succeeds, and puts them all into the lists. -/
theorem Settled.makeWorklist {us : List (Fin n)} (h : Settled p s) (hnd : us.Nodup)
    (hus : ∀ u ∈ us, s.node.get u = .initial) :
    ∃ s', s.makeWorklist p us = .ok s' ∧ Settled p s' ∧ Tweak s s' ∧
      ∀ u ∈ us, s'.node.get u ≠ .initial := by
  obtain ⟨s', hok, hs', ht', -, -, hdone⟩ := foldlM_rest (f := Colouring.enlist p)
    (fun us₁ s₁ ↦ Settled p s₁ ∧ Tweak s s₁ ∧ us₁.Nodup ∧
      (∀ u ∈ us₁, s₁.node.get u = .initial) ∧
      ∀ u ∈ us, u ∉ us₁ → s₁.node.get u ≠ .initial)
    (by
      rintro u us₁ s₁ ⟨h₁, ht₁, hnd₁, hinit, hdone⟩
      rw [List.nodup_cons] at hnd₁
      obtain ⟨s₂, hok, h₂, ht₂, hu, hn⟩ := Settled.enlist h₁ (hinit u List.mem_cons_self)
      refine ⟨s₂, hok, h₂, ht₁.trans ht₂, hnd₁.2, fun x hx ↦ ?_, fun x hx hx₁ ↦ ?_⟩
      · rw [hn x (ne_of_mem_of_not_mem hx hnd₁.1)]
        exact hinit x (List.mem_cons_of_mem _ hx)
      · by_cases hxu : x = u
        · rw [hxu]
          intro he
          rw [he] at hu
          cases hu
        · rw [hn x hxu]
          exact hdone x hx fun hc ↦ (List.mem_cons.1 hc).elim hxu hx₁)
    us s ⟨h, .refl s, hnd, hus, fun u hu hu' ↦ absurd hu hu'⟩
  exact ⟨s', hok, hs', ht', fun u hu ↦ hdone u hu List.not_mem_nil⟩

/-! ## Steps -/

/-- A step succeeds and keeps the invariant, unless no work is left. -/
theorem Settled.step (h : Settled p s) (choose : SpillChoice n m) :
    s.step? p choose = none ∨ ∃ s', s.step? p choose = some (.ok s') ∧ Advances p s s' := by
  have hm := h.sound.mirror
  cases h₁ : s.work.simplify.toList with
  | cons u us =>
    have hu : u ∈ s.work.simplify := BitSet.mem_toList.1 (h₁ ▸ List.mem_cons_self)
    obtain ⟨s', hok, ha⟩ := h.simplify ((hm.mem_simplify u).1 hu)
    exact .inr ⟨s', by simp only [step?, h₁, hok], ha⟩
  | nil =>
  cases h₂ : s.work.worklistMoves.toList with
  | cons i is =>
    have hi : i ∈ s.work.worklistMoves := BitSet.mem_toList.1 (h₂ ▸ List.mem_cons_self)
    obtain ⟨s', hok, ha⟩ := h.coalesce ((hm.mem_worklistMoves i).1 hi)
    exact .inr ⟨s', by simp only [step?, h₁, h₂, hok], ha⟩
  | nil =>
  cases h₃ : s.work.freeze.toList with
  | cons u us =>
    have hu : u ∈ s.work.freeze := BitSet.mem_toList.1 (h₃ ▸ List.mem_cons_self)
    obtain ⟨s', hok, ha⟩ := h.freeze ((hm.mem_freeze u).1 hu)
    exact .inr ⟨s', by simp only [step?, h₁, h₂, h₃, hok], ha⟩
  | nil =>
  cases h₄ : s.work.spill.toList with
  | cons u us =>
    have hu : (choose s u us).val ∈ s.work.spill := by
      rw [← BitSet.mem_toList, h₄]
      exact (choose s u us).2
    obtain ⟨s', hok, ha⟩ := h.selectSpill ((hm.mem_spill _).1 hu)
    exact .inr ⟨s', by simp only [step?, h₁, h₂, h₃, h₄, hok], ha⟩
  | nil => exact .inl (by simp only [step?, h₁, h₂, h₃, h₄])

/-- When no work is left, no node is in one of the lists and no move is to be looked at. -/
theorem Settled.done (h : Settled p s) {choose : SpillChoice n m}
    (hs : s.step? p choose = none) (u : Fin n) : (s.node.get u).isListed = false := by
  have hm := h.sound.mirror
  have hempty : s.work.simplify.toList = [] ∧ s.work.freeze.toList = [] ∧
      s.work.spill.toList = [] := by
    unfold step? at hs
    split at hs <;> simp_all
  have hnot : ∀ {w : BitSet n}, w.toList = [] → u ∉ w := fun hw hu ↦ by
    rw [← BitSet.mem_toList, hw] at hu
    exact absurd hu List.not_mem_nil
  have h₁ := mt (hm.mem_simplify u).2 (hnot hempty.1)
  have h₂ := mt (hm.mem_freeze u).2 (hnot hempty.2.1)
  have h₃ := mt (hm.mem_spill u).2 (hnot hempty.2.2)
  cases hu : s.node.get u <;> simp_all [NodeState.isListed]

theorem Calm.node_ne_initial (h : Calm s s') {u : Fin n} (hu : s.node.get u ≠ .initial) :
    s'.node.get u ≠ .initial := by
  rcases h u with h | ⟨-, h⟩
  · rwa [h]
  · intro he
    rw [he] at h
    cases h

/-- No node leaves the work again. -/
theorem Progress.node_ne_initial (h : Progress s s') {u : Fin n} (hu : s.node.get u ≠ .initial) :
    s'.node.get u ≠ .initial := by
  have hset : ∀ {v : Fin n} {st : NodeState n}, st ≠ .initial →
      (s.setNode v st).node.get u ≠ .initial := by
    intro v st hst
    rw [setNode_node]
    split <;> assumption
  cases h with
  | leave v st hv hst hcalm => exact hcalm.node_ne_initial (hset (by rintro rfl; cases hst))
  | look i hi hcalm hmoves => exact hcalm.node_ne_initial hu
  | wake v hv hcalm hmoves => exact hcalm.node_ne_initial (hset (by simp))

/-! ## The potential -/

/-- The virtual registers that are still in the graph. -/
def opens (s : Colouring n m) : Finset (Fin n) :=
  {u | (s.node.get u).isOpen = true}

/-- The virtual registers that wait in the graph. -/
def waits (s : Colouring n m) : Finset (Fin n) :=
  {u | (s.node.get u).isWaiting = true}

/-- The moves that are to be looked at. -/
def looks (s : Colouring n m) : Finset (Fin m) :=
  {i | s.move.get i = .worklist}

@[simp]
theorem mem_opens {u : Fin n} : u ∈ s.opens ↔ (s.node.get u).isOpen = true := by
  simp [opens]

@[simp]
theorem mem_waits {u : Fin n} : u ∈ s.waits ↔ (s.node.get u).isWaiting = true := by
  simp [waits]

@[simp]
theorem mem_looks {i : Fin m} : i ∈ s.looks ↔ s.move.get i = .worklist := by
  simp [looks]

/-- A bound on the number of steps that are left. -/
def potential (s : Colouring n m) : Nat :=
  s.opens.card * (m + 1) + s.waits.card + s.looks.card

theorem Calm.opens_eq (h : Calm s s') : s'.opens = s.opens := by
  ext u
  rw [mem_opens, mem_opens]
  rcases h u with h | ⟨h₁, h₂⟩
  · rw [h]
  · rw [NodeState.isOpen_of_isWaiting h₁, NodeState.isOpen_of_isListed h₂]

theorem Calm.waits_subset (h : Calm s s') : s'.waits ⊆ s.waits := by
  intro u hu
  rw [mem_waits] at hu ⊢
  rcases h u with h | ⟨h, -⟩
  · rwa [← h]
  · exact h

theorem waits_setNode_subset {v : Fin n} {st : NodeState n} (hst : st.isWaiting = false) :
    (s.setNode v st).waits ⊆ s.waits.erase v := by
  intro u hu
  by_cases huv : u = v
  · simp [huv, hst] at hu
  · simpa [huv] using hu

/-- Whatever a step does, it lowers the potential. -/
theorem Progress.potential_lt (h : Progress s s') : s'.potential < s.potential := by
  unfold potential
  cases h with
  | leave v st hv hst hcalm =>
    have hst' : st.isWaiting = false := by
      by_contra hw
      rw [Bool.not_eq_false] at hw
      rw [NodeState.isOpen_of_isWaiting hw] at hst
      cases hst
    have hopen : s'.opens = s.opens.erase v := by
      rw [hcalm.opens_eq]
      ext u
      by_cases huv : u = v <;> simp [huv, hst]
    have hwait : s'.waits ⊆ s.waits :=
      (hcalm.waits_subset.trans (waits_setNode_subset hst')).trans (Finset.erase_subset _ _)
    have h₁ : s'.opens.card + 1 = s.opens.card := by
      rw [hopen]
      exact Finset.card_erase_add_one (mem_opens.2 hv)
    have h₂ := Finset.card_le_card hwait
    have h₃ : s'.looks.card ≤ m := (Finset.card_le_univ _).trans_eq (Fintype.card_fin m)
    rw [← h₁, Nat.add_mul]
    omega
  | look i hi hcalm hmoves =>
    have hlook : s'.looks ⊂ s.looks := by
      refine (Finset.ssubset_iff_of_subset fun j hj ↦ ?_).2 ⟨i, mem_looks.2 hi, fun hc ↦ ?_⟩
      · exact mem_looks.2 (hmoves j (mem_looks.1 hj)).2
      · exact (hmoves i (mem_looks.1 hc)).1 rfl
    have h₁ := Finset.card_le_card hcalm.waits_subset
    have h₂ := Finset.card_lt_card hlook
    rw [hcalm.opens_eq]
    omega
  | wake v hv hcalm hmoves =>
    have hopen : s'.opens = s.opens := by
      rw [hcalm.opens_eq]
      ext u
      rw [mem_opens, mem_opens, setNode_node]
      split
      · rename_i huv
        rw [huv, NodeState.isOpen_of_isWaiting hv]
        rfl
      · rfl
    have h₁ : s'.waits.card < s.waits.card :=
      (Finset.card_le_card (hcalm.waits_subset.trans (waits_setNode_subset rfl))).trans_lt
        (Finset.card_erase_lt_of_mem (mem_waits.2 hv))
    have h₂ : s'.looks.card ≤ s.looks.card := Finset.card_le_card fun j hj ↦
      mem_looks.2 (hmoves j (mem_looks.1 hj))
    rw [hopen]
    omega

theorem potential_lt_fuel (s : Colouring n m) : s.potential < (n + 1) * (m + 3) + 1 := by
  have h₁ : s.opens.card ≤ n := (Finset.card_le_univ _).trans_eq (Fintype.card_fin n)
  have h₂ : s.waits.card ≤ n := (Finset.card_le_univ _).trans_eq (Fintype.card_fin n)
  have h₃ : s.looks.card ≤ m := (Finset.card_le_univ _).trans_eq (Fintype.card_fin m)
  have h₄ : s.opens.card * (m + 1) ≤ n * (m + 1) := Nat.mul_le_mul_right _ h₁
  unfold potential
  calc s.opens.card * (m + 1) + s.waits.card + s.looks.card
      ≤ n * (m + 1) + n + m := by omega
    _ < (n + 1) * (m + 3) + 1 := by ring_nf; omega

/-! ## Runs -/

theorem Settled.hasRightDegrees (h : Settled p s) : s.hasRightDegrees = true := by
  refine List.all_eq_true.2 fun u _ ↦ ?_
  have hd := h.degrees u
  cases hu : s.node.get u <;> simp_all [NodeState.isOpen]

/-- What a run has come to when no work is left. -/
structure Finished (p : ColouringProblem n m) (s s' : Colouring n m) : Prop where
  settled : Settled p s'
  grows : Grows s s'
  not_isListed : ∀ u, (s'.node.get u).isListed = false
  node_ne_initial : ∀ u, s.node.get u ≠ .initial → s'.node.get u ≠ .initial

theorem Settled.runWithin (h : Settled p s) (choose : SpillChoice n m) {fuel : Nat}
    (hf : s.potential < fuel) :
    ∃ s', s.runWithin p choose fuel = .ok s' ∧ Finished p s s' := by
  induction fuel generalizing s with
  | zero => exact absurd hf (Nat.not_lt_zero _)
  | succ fuel ih =>
    rcases h.step choose with hnone | ⟨s₁, hsome, hadv⟩
    · refine ⟨s, ?_, h, .refl s, h.done hnone, fun _ ↦ id⟩
      rw [Colouring.runWithin, hnone]
    · have hlt := hadv.progress.potential_lt
      obtain ⟨s', hok, hs'⟩ := ih hadv.settled (by omega)
      refine ⟨s', ?_, hs'.settled, hadv.grows.trans hs'.grows, hs'.not_isListed,
        fun u hu ↦ hs'.node_ne_initial u (hadv.progress.node_ne_initial hu)⟩
      rw [Colouring.runWithin, hsome]
      show (if s₁.hasRightDegrees then _ else _) = _
      rw [if_pos (Settled.hasRightDegrees hadv.settled), hok]

/-- A run always ends, and no check fails on the way. -/
theorem Settled.run (h : Settled p s) (choose : SpillChoice n m) :
    ∃ s', s.run p choose = .ok s' ∧ Finished p s s' :=
  h.runWithin choose s.potential_lt_fuel

end RegAlloc.Colouring

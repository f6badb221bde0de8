import Mathlib
import RegAlloc.Proofs.Flow

/-!
# The search for the live registers ends with the least solution

The search starts with no live registers, and computing the sets of a node anew only adds to them:
each set stays within what its equation asks for, and the equations are monotone. So every pass that
changes something adds a register to a set, and there is room for so many only.

Any solution holds what is live, since the equations pass it on from where it is read. What the
search finds is not more than that: nothing is ever added that is not live.
-/

namespace RegAlloc

namespace Liveness

variable {r n : Nat} {flow : Flow r n} {l l' : Liveness r n}

/-! ## What is stated -/

/-- What is said to be live: a register in front of a node (`true`) or behind it. -/
def facts (l : Liveness r n) : Finset (Bool × Fin n × Fin r) :=
  Finset.univ.filter fun (front, i, u) ↦ u ∈ if front then l.liveIn.get i else l.liveOut.get i

@[simp]
theorem mem_facts_true {i : Fin n} {u : Fin r} : (true, i, u) ∈ l.facts ↔ u ∈ l.liveIn.get i := by
  simp [facts]

@[simp]
theorem mem_facts_false {i : Fin n} {u : Fin r} :
    (false, i, u) ∈ l.facts ↔ u ∈ l.liveOut.get i := by
  simp [facts]

theorem card_facts_le (l : Liveness r n) : l.facts.card ≤ 2 * r * n := by
  calc l.facts.card ≤ Fintype.card (Bool × Fin n × Fin r) := Finset.card_le_univ _
    _ = 2 * r * n := by simp [Nat.mul_comm r n, Nat.mul_assoc]

theorem eq_of_facts_eq (h : l.facts = l'.facts) : l = l' := by
  have hin : ∀ i u, u ∈ l.liveIn.get i ↔ u ∈ l'.liveIn.get i := by
    intro i u
    rw [← mem_facts_true, h, mem_facts_true]
  have hout : ∀ i u, u ∈ l.liveOut.get i ↔ u ∈ l'.liveOut.get i := by
    intro i u
    rw [← mem_facts_false, h, mem_facts_false]
  ext i hi : 2
  · exact BitSet.ext_mem (hin ⟨i, hi⟩)
  · exact BitSet.ext_mem (hout ⟨i, hi⟩)

theorem behind_mono (h : l.facts ⊆ l'.facts) {node : FlowNode r n} {u : Fin r}
    (hu : u ∈ l.behind node) : u ∈ l'.behind node := by
  obtain ⟨j, hj, hu⟩ := mem_behind.1 hu
  exact mem_behind.2 ⟨j, hj, mem_facts_true.1 (h (mem_facts_true.2 hu))⟩

theorem inFrontOf_mono {node : FlowNode r n} {s t : BitSet r} (h : ∀ u ∈ s, u ∈ t) {u : Fin r}
    (hu : u ∈ inFrontOf node s) : u ∈ inFrontOf node t := by
  rw [inFrontOf, BitSet.mem_insertAll, BitSet.mem_eraseAll] at hu ⊢
  exact hu.imp_left (And.imp_left (h u))

/-! ## One node -/

/-- Each set is within what its equation asks for. -/
structure IsSupported (flow : Flow r n) (l : Liveness r n) : Prop where
  out : ∀ i, ∀ u ∈ l.liveOut.get i, u ∈ l.behind (flow.get i)
  front : ∀ i, ∀ u ∈ l.liveIn.get i, u ∈ inFrontOf (flow.get i) (l.behind (flow.get i))

theorem isSupported_empty (flow : Flow r n) : IsSupported flow (empty r n) where
  out i u hu := by simp [empty, Vector.get] at hu
  front i u hu := by simp [empty, Vector.get] at hu

theorem liveIn_update (flow : Flow r n) (l : Liveness r n) (i j : Fin n) :
    (update flow l i).liveIn.get j =
      if i = j then inFrontOf (flow.get i) (l.behind (flow.get i)) else l.liveIn.get j := by
  simp [update, Vector.get_eq_getElem, Vector.getElem_set, Fin.ext_iff]

theorem liveOut_update (flow : Flow r n) (l : Liveness r n) (i j : Fin n) :
    (update flow l i).liveOut.get j =
      if i = j then l.behind (flow.get i) else l.liveOut.get j := by
  simp [update, Vector.get_eq_getElem, Vector.getElem_set, Fin.ext_iff]

theorem IsSupported.subset_update (h : IsSupported flow l) (i : Fin n) :
    l.facts ⊆ (update flow l i).facts := by
  rintro ⟨front, j, u⟩ hu
  cases front with
  | true =>
    rw [mem_facts_true] at hu ⊢
    rw [liveIn_update]
    split
    · rename_i he
      exact he ▸ h.front j u hu
    · exact hu
  | false =>
    rw [mem_facts_false] at hu ⊢
    rw [liveOut_update]
    split
    · rename_i he
      exact he ▸ h.out j u hu
    · exact hu

theorem IsSupported.update (h : IsSupported flow l) (i : Fin n) :
    IsSupported flow (update flow l i) := by
  have hbehind : ∀ j, ∀ u ∈ l.behind (flow.get j),
      u ∈ (Liveness.update flow l i).behind (flow.get j) :=
    fun j u hu ↦ behind_mono (h.subset_update i) hu
  constructor
  · intro j u hu
    rw [liveOut_update] at hu
    split at hu
    · rename_i he
      exact hbehind j u (he ▸ hu)
    · exact hbehind j u (h.out j u hu)
  · intro j u hu
    rw [liveIn_update] at hu
    refine inFrontOf_mono (hbehind j) ?_
    split at hu
    · rename_i he
      exact he ▸ hu
    · exact h.front j u hu

/-! ## Passes -/

theorem IsSupported.foldl (h : IsSupported flow l) (is : List (Fin n)) :
    IsSupported flow (is.foldl (Liveness.update flow) l) ∧
      l.facts ⊆ (is.foldl (Liveness.update flow) l).facts := by
  induction is generalizing l with
  | nil => exact ⟨h, subset_rfl⟩
  | cons i is ih =>
    obtain ⟨hsup, hsub⟩ := ih (h.update i)
    exact ⟨hsup, (h.subset_update i).trans hsub⟩

/-- If the sets are what they were at the end, none of the updates has changed them. -/
theorem IsSupported.update_eq_of_foldl_eq (h : IsSupported flow l) {is : List (Fin n)}
    (he : is.foldl (Liveness.update flow) l = l) {i : Fin n} (hi : i ∈ is) :
    Liveness.update flow l i = l := by
  induction is with
  | nil => cases hi
  | cons j is ih =>
    have hsub := ((h.update j).foldl is).2
    rw [List.foldl_cons] at he
    rw [he] at hsub
    have hj : Liveness.update flow l j = l :=
      eq_of_facts_eq (hsub.antisymm (h.subset_update j))
    rcases List.mem_cons.1 hi with rfl | hi
    · exact hj
    · rw [hj] at he
      exact ih he hi

theorem fst_sweep (flow : Flow r n) (is : List (Fin n)) (l : Liveness r n) :
    (sweep flow is l).1 = is.foldl (Liveness.update flow) l := by
  induction is generalizing l with
  | nil => rfl
  | cons i is ih => exact ih (Liveness.update flow l i)

theorem isCurrent_of_update_eq {i : Fin n} (h : Liveness.update flow l i = l) :
    isCurrent flow l i = true := by
  have hout := liveOut_update flow l i i
  have hin := liveIn_update flow l i i
  rw [h, if_pos rfl] at hout hin
  exact isCurrent_iff.2 ⟨hout, hin⟩

/-- A pass over all the nodes that changes nothing has found a solution. -/
theorem isFixpoint_of_sweep {order : List (Fin n)} (horder : ∀ i, i ∈ order)
    (h : (sweep flow order l).2 = false) :
    (sweep flow order l).1 = l ∧ l.isFixpoint flow = true := by
  rw [sweep_snd_eq_false_iff] at h
  refine ⟨?_, isFixpoint_iff.2 fun i ↦ h i (horder i)⟩
  rw [fst_sweep]
  refine List.foldlRecOn order _ (motive := (· = l)) rfl ?_
  rintro _ rfl i hi
  exact update_of_isCurrent (h i hi)

/-- A pass that changes something adds to what is stated. -/
theorem IsSupported.ssubset_sweep (h : IsSupported flow l) {order : List (Fin n)}
    (hs : (sweep flow order l).2 = true) : l.facts ⊂ (sweep flow order l).1.facts := by
  rw [fst_sweep]
  refine (h.foldl order).2.ssubset_of_ne fun he ↦ ?_
  have hfold := eq_of_facts_eq he.symm
  have hall : (sweep flow order l).2 = false := sweep_snd_eq_false_iff.2 fun i hi ↦
    isCurrent_of_update_eq (h.update_eq_of_foldl_eq hfold hi)
  rw [hs] at hall
  cases hall

/-- Passes over the nodes, however many it takes, lead from `l` to sets that the last pass has not
changed. -/
inductive Converges (flow : Flow r n) (order : List (Fin n)) :
    Liveness r n → Nat → Liveness r n → Prop
  | stop {l : Liveness r n} (h : (sweep flow order l).2 = false) :
    Converges flow order l 1 (sweep flow order l).1
  | again {l l' : Liveness r n} {passes : Nat} (h : (sweep flow order l).2 = true)
    (hl : Converges flow order (sweep flow order l).1 passes l') :
    Converges flow order l (passes + 1) l'

theorem Converges.isFixpoint {order : List (Fin n)} {passes : Nat} (horder : ∀ i, i ∈ order)
    (h : Converges flow order l passes l') : l'.isFixpoint flow = true := by
  induction h with
  | stop h =>
    obtain ⟨he, hfix⟩ := isFixpoint_of_sweep horder h
    rwa [he]
  | again _ _ ih => exact ih

/-- There is room for so many registers only, so the passes come to an end in time. -/
theorem IsSupported.converges_iterate (h : IsSupported flow l) (order : List (Fin n)) {fuel : Nat}
    (hfuel : 2 * r * n < l.facts.card + fuel) (passes : Nat) :
    ∃ count, Converges flow order l count (iterate flow order fuel passes l).1 ∧
      (iterate flow order fuel passes l).2 = passes + count := by
  induction fuel generalizing l passes with
  | zero => exact absurd (card_facts_le l) (not_le.2 hfuel)
  | succ fuel ih =>
    rw [iterate]
    split
    · rename_i hs
      have hcard := Finset.card_lt_card (h.ssubset_sweep hs)
      have hsup : IsSupported flow (sweep flow order l).1 := by
        rw [fst_sweep]
        exact (h.foldl order).1
      obtain ⟨count, hconv, hcount⟩ := ih hsup (by omega) (passes + 1)
      exact ⟨count + 1, .again hs hconv, by omega⟩
    · rename_i hs
      exact ⟨1, .stop (Bool.not_eq_true _ ▸ hs), rfl⟩

/-- The search ends, whatever the order of the nodes. -/
theorem converges_solveAlong (flow : Flow r n) (order : List (Fin n)) :
    Converges flow order (empty r n) (solveAlong flow order).2 (solveAlong flow order).1 := by
  have hfuel : 2 * r * n < (empty r n).facts.card + (2 * r * n + 1) := by omega
  obtain ⟨count, hconv, hcount⟩ := (isSupported_empty flow).converges_iterate order hfuel 0
  rw [Nat.zero_add] at hcount
  rw [solveAlong, hcount]
  exact hconv

/-- The search ends with a solution. -/
theorem isFixpoint_solve (flow : Flow r n) : (solve flow).1.isFixpoint flow = true :=
  (converges_solveAlong flow _).isFixpoint fun i ↦ List.mem_reverse.2 (List.mem_finRange i)

/-! ## What the search finds is live -/

/-- From the node on, the register is read before it is written, on some way through the graph. -/
inductive IsLive (flow : Flow r n) (u : Fin r) : Fin n → Prop
  | use {i : Fin n} (hu : u ∈ (flow.get i).uses) : IsLive flow u i
  | step {i j : Fin n} (hj : j ∈ (flow.get i).successors) (hu : u ∉ (flow.get i).defs)
    (h : IsLive flow u j) : IsLive flow u i

theorem IsLive.exists_mem_uses {u : Fin r} {i : Fin n} (h : IsLive flow u i) :
    ∃ j, u ∈ (flow.get j).uses := by
  induction h with
  | use hu => exact ⟨_, hu⟩
  | step _ _ _ ih => exact ih

/-- Nothing is said to be live that is not. -/
structure IsTrue (flow : Flow r n) (l : Liveness r n) : Prop where
  front : ∀ i, ∀ u ∈ l.liveIn.get i, IsLive flow u i
  out : ∀ i, ∀ u ∈ l.liveOut.get i, ∃ j ∈ (flow.get i).successors, IsLive flow u j

theorem isTrue_empty (flow : Flow r n) : IsTrue flow (empty r n) where
  front i u hu := by simp [empty, Vector.get] at hu
  out i u hu := by simp [empty, Vector.get] at hu

theorem IsTrue.exists_of_mem_behind (h : IsTrue flow l) {i : Fin n} {u : Fin r}
    (hu : u ∈ l.behind (flow.get i)) : ∃ j ∈ (flow.get i).successors, IsLive flow u j := by
  obtain ⟨j, hj, hu⟩ := mem_behind.1 hu
  exact ⟨j, hj, h.front j u hu⟩

theorem IsTrue.update (h : IsTrue flow l) (i : Fin n) : IsTrue flow (update flow l i) where
  front j u hu := by
    rw [liveIn_update] at hu
    split at hu
    · rename_i he
      subst he
      rw [inFrontOf, BitSet.mem_insertAll, BitSet.mem_eraseAll] at hu
      rcases hu with ⟨hu, hdef⟩ | hu
      · obtain ⟨j, hj, hlive⟩ := h.exists_of_mem_behind hu
        exact .step hj hdef hlive
      · exact .use hu
    · exact h.front j u hu
  out j u hu := by
    rw [liveOut_update] at hu
    split at hu
    · rename_i he
      subst he
      exact h.exists_of_mem_behind hu
    · exact h.out j u hu

theorem IsTrue.foldl (h : IsTrue flow l) (is : List (Fin n)) :
    IsTrue flow (is.foldl (Liveness.update flow) l) := by
  induction is generalizing l with
  | nil => exact h
  | cons i is ih => exact ih (h.update i)

theorem IsTrue.converges {order : List (Fin n)} {passes : Nat} (h : IsTrue flow l)
    (hc : Converges flow order l passes l') : IsTrue flow l' := by
  induction hc with
  | stop =>
    rw [fst_sweep]
    exact h.foldl order
  | again _ _ ih =>
    rw [fst_sweep] at ih
    exact ih (h.foldl order)

/-- All that the search finds is live. -/
theorem isTrue_solve (flow : Flow r n) : IsTrue flow (solve flow).1 :=
  (isTrue_empty flow).converges (converges_solveAlong flow _)

/-! ## All that is live is found -/

/-- The equations make a register live in front of every node from which it is read. -/
theorem IsLive.mem_liveIn {u : Fin r} {i : Fin n} (h : IsLive flow u i)
    (hl : l.isFixpoint flow = true) : u ∈ l.liveIn.get i := by
  induction h with
  | use hu => exact (mem_of_isFixpoint hl _ u).2.2 (.inl hu)
  | @step i j hj hu _ ih =>
    have hout : u ∈ l.liveOut.get i := (mem_of_isFixpoint hl i u).1.2 ⟨j, hj, ih⟩
    exact (mem_of_isFixpoint hl i u).2.2 (.inr ⟨hout, hu⟩)

/-- Liveness by the nodes on the way to where the register is read. -/
theorem isLive_iff_exists_way {u : Fin r} {i : Fin n} : IsLive flow u i ↔
    ∃ (k : Nat) (node : Nat → Fin n), node 0 = i ∧
      (∀ m < k, node (m + 1) ∈ (flow.get (node m)).successors ∧ u ∉ (flow.get (node m)).defs) ∧
      u ∈ (flow.get (node k)).uses := by
  constructor
  · intro h
    induction h with
    | @use i hu => exact ⟨0, fun _ ↦ i, rfl, fun m hm ↦ absurd hm (Nat.not_lt_zero m), hu⟩
    | @step i j hj hu _ ih =>
      obtain ⟨k, node, rfl, hstep, huse⟩ := ih
      refine ⟨k + 1, fun m ↦ m.casesOn i node, rfl, fun m hm ↦ ?_, huse⟩
      cases m with
      | zero => exact ⟨hj, hu⟩
      | succ m => exact hstep m (Nat.lt_of_succ_lt_succ hm)
  · rintro ⟨k, node, rfl, hstep, huse⟩
    induction k generalizing node with
    | zero => exact .use huse
    | succ k ih =>
      obtain ⟨hj, hu⟩ := hstep 0 k.succ_pos
      exact .step hj hu (ih (fun m ↦ node (m + 1))
        (fun m hm ↦ hstep (m + 1) (Nat.succ_lt_succ hm)) huse)

/-- The search for the live registers ends, whatever the order in which the nodes are visited, and
what it finds is exact: a register is live in front of a node if there is a way from there to a node
that reads it, on which no node before the last one defines it, and behind a node if it is so in
front of a successor. The result passes the test for a solution, which tells whether sets satisfy
the equations of all the nodes. -/
theorem mem_liveIn_solveAlong_iff (flow : Flow r n) {order : List (Fin n)}
    (horder : order.Perm (List.finRange n)) :
    Converges flow order (empty r n) (solveAlong flow order).2 (solveAlong flow order).1 ∧
    (∀ i u, u ∈ (solveAlong flow order).1.liveIn.get i ↔
      ∃ (k : Nat) (node : Nat → Fin n), node 0 = i ∧
        (∀ m < k, node (m + 1) ∈ (flow.get (node m)).successors ∧ u ∉ (flow.get (node m)).defs) ∧
        u ∈ (flow.get (node k)).uses) ∧
    (∀ i u, u ∈ (solveAlong flow order).1.liveOut.get i ↔
      ∃ j ∈ (flow.get i).successors, u ∈ (solveAlong flow order).1.liveIn.get j) ∧
    (solveAlong flow order).1.isFixpoint flow = true ∧
    ∀ l : Liveness r n, l.isFixpoint flow = true ↔ ∀ i u,
      (u ∈ l.liveOut.get i ↔ ∃ j ∈ (flow.get i).successors, u ∈ l.liveIn.get j) ∧
      (u ∈ l.liveIn.get i ↔ u ∈ (flow.get i).uses ∨
        (u ∈ l.liveOut.get i ∧ u ∉ (flow.get i).defs)) := by
  have hconv := converges_solveAlong flow order
  have hfix := hconv.isFixpoint fun i ↦ horder.mem_iff.2 (List.mem_finRange i)
  have htrue := (isTrue_empty flow).converges hconv
  refine ⟨hconv, fun i u ↦ ?_, fun i u ↦ (mem_of_isFixpoint hfix i u).1, hfix, fun l ↦ ?_⟩
  · rw [← isLive_iff_exists_way]
    exact ⟨htrue.front i u, fun hlive ↦ hlive.mem_liveIn hfix⟩
  · simp only [isFixpoint_iff, isCurrent_iff_mem]

/-- A loop that defines and uses the register `0`. Nothing is done with the register `1`. -/
def ring : Flow 2 3 :=
  ⟨#[⟨0, 0, [0], [], [1], none, none, 1⟩, ⟨0, 1, [], [0], [2], none, none, 1⟩,
    ⟨0, 2, [], [], [0, 1], none, none, 1⟩], rfl⟩

/-- The loop visited from its middle: `0` is live behind the end of the loop, and `1` is nowhere. -/
theorem mem_liveIn_solveAlong_ring : [1, 2, 0].Perm (List.finRange 3) ∧
    0 ∈ (solveAlong ring [1, 2, 0]).1.liveIn.get 2 ∧
    ∀ i, 1 ∉ (solveAlong ring [1, 2, 0]).1.liveIn.get i := by
  have horder : [1, 2, 0].Perm (List.finRange 3) := by decide
  obtain ⟨-, hin, -⟩ := mem_liveIn_solveAlong_iff ring horder
  refine ⟨horder, (hin 2 0).2 ⟨1, fun m ↦ if m = 0 then 2 else 1, rfl, ?_, by decide⟩, ?_⟩
  · intro m hm
    obtain rfl : m = 0 := by omega
    decide
  · intro i hi
    obtain ⟨k, node, -, -, huse⟩ := (hin i 1).1 hi
    have hnone : ∀ j, (1 : Fin 2) ∉ (ring.get j).uses := by decide
    exact hnone (node k) huse

end Liveness

end RegAlloc

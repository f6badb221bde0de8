import Mathlib
import RegAlloc.Proofs.Colouring.Conservative

/-!
# Only nodes of significant degree are spilled

A node that has fewer than `k` neighbours when it is put onto the stack finds a colour, whatever is
coalesced before the colours are handed out: it `SeesFew` others from then on. So a node that is
spilled had at least `k` neighbours at that time. Such a node is not simplified by itself, it was
chosen as a potential spill earlier in the run.
-/

namespace RegAlloc.Colouring

variable {n m : Nat} {p : ColouringProblem n m} {s s' : Colouring n m} {u : Fin n}

/-! ## Nodes that are pushed and chosen -/

namespace Pushes

theorem of_step {choose : SpillChoice n m} (hu : s.work.simplify.toList.head? = some u)
    (hs : s.step? p choose = some (.ok s')) : Pushes p s u s' := by
  obtain ⟨us, hus⟩ := List.head?_eq_some_iff.1 hu
  simp only [step?, hus, Option.some.injEq] at hs
  exact ⟨hu, hs⟩

theorem mem_stack (h : Pushes p s u s') : u ∈ s'.work.stack := by
  rw [h.stirs.stack, select_stack]
  exact List.mem_cons_self

/-- A node with few neighbours sees few others as soon as it is on the stack. -/
theorem seesFew (h : Pushes p s u s') (hset : Settled p s) (hlt : s.graph.degree.get u < p.k) :
    SeesFew p s' u := by
  have hu := (hset.sound.mirror.mem_simplify u).1 h.mem_simplify
  have hopen : (s.node.get u).isOpen = true := by rw [hu]; rfl
  refine (hset.seesFew_select hu hlt).shifts (hset.sound.select hopen) ?_ h.stirs.toShifts
  rw [select_stack]
  exact List.mem_cons_self

/-- A node with many neighbours is simplified only if it was chosen. -/
theorem wasChosen (h : Pushes p s u s') (hset : Settled p s) (hle : p.k ≤ s.graph.degree.get u) :
    s.WasChosen u := by
  have hu := (hset.sound.mirror.mem_simplify u).1 h.mem_simplify
  have hcl := hset.classified u id
  rw [Classified, hu] at hcl
  exact hcl.2 hle

end Pushes

theorem Sheds.freezeMoves (hok : s.freezeMoves p u = .ok s') : Sheds s s' := by
  refine foldlM_induct (fun _ s₁ ↦ Sheds s s₁) ?_ ⟨.refl s, rfl, fun _ ↦ id⟩ hok
  intro i is s₁ s₂ h hok
  obtain ⟨s₃, hok₃, hok⟩ := bind_eq_ok_iff.1 hok
  cases hok
  obtain ⟨-, rfl⟩ := transitionMove_eq_ok_iff.1 hok₃
  exact (h.trans (.setMove s₁ i (by decide))).trans (.addWorklist _ _)

/-- A node that is chosen is to be simplified. -/
theorem Chooses.node_eq (h : Chooses p s u s') : s'.node.get u = .simplify := by
  have hcalm := (Sheds.freezeMoves (freezeMoves_of_freeze h.eq_ok)).node u
  rw [setNode_node, if_pos rfl] at hcalm
  exact hcalm.resolve_right fun hw ↦ by cases hw.1

/-- A step puts one node onto the stack at most, and takes none from it. -/
theorem Change.stack (h : Change p s s') : s'.work.stack = s.work.stack ∨
    ∃ u, Pushes p s u s' ∧ s'.work.stack = u :: s.work.stack := by
  cases h with
  | select u hu hst hp => exact .inr ⟨u, hp, by rw [hst.stack, select_stack]⟩
  | stir hst => exact .inl hst.stack
  | wait i hi hsh hm => exact .inl hsh.stack
  | coalesce u v hc => exact .inl (by rw [hc.shifts.stack, merge_stack])
  | choose u hu hs hf hst => exact .inl hst.stack

theorem Change.wasChosen (h : Change p s s') (hu : s'.WasChosen u) :
    s.WasChosen u ∨ Chooses p s u s' := by
  cases h with
  | select v hv hst => exact .inl (.of_cons (by simp) rfl u (hst.wasChosen u hu))
  | stir hst => exact .inl (hst.wasChosen u hu)
  | wait i hi hsh hm => exact .inl (hsh.wasChosen u hu)
  | coalesce v w hc => exact .inl (.of_cons (by simp) rfl u (hc.shifts.wasChosen u hu))
  | choose v hv hs hf hst hc =>
    obtain ⟨d, hd⟩ := hst.wasChosen u hu
    rcases List.mem_cons.1 hd with he | hd
    · cases he
      exact .inr hc
    · exact .inl ⟨d, hd⟩

/-! ## Runs, state by state -/

/-- The states of a run of so many steps. Each of them may choose the node to spill in another
way. -/
def IsRun (p : ColouringProblem n m) (run : Nat → Colouring n m) (length : Nat) : Prop :=
  ∀ i < length, ∃ choose : SpillChoice n m, (run i).step? p choose = some (.ok (run (i + 1)))

theorem Steps.exists_isRun {count : Nat} (h : Steps p s count s') :
    ∃ run : Nat → Colouring n m, run 0 = s ∧ run count = s' ∧ IsRun p run count := by
  induction h with
  | refl => exact ⟨fun _ ↦ s, rfl, rfl, fun i hi ↦ absurd hi (Nat.not_lt_zero i)⟩
  | @tail count s₁ s₂ _ choose hs ih =>
    obtain ⟨run, hstart, rfl, hrun⟩ := ih
    refine ⟨fun i ↦ if i ≤ count then run i else s₂, by simpa using hstart, by simp, fun i hi ↦ ?_⟩
    rcases Nat.lt_succ_iff_lt_or_eq.1 hi with hlt | rfl
    · simpa [hlt.le, Nat.succ_le_of_lt hlt] using hrun i hlt
    · exact ⟨choose, by simpa using hs⟩

namespace IsRun

variable {run : Nat → Colouring n m} {length i j : Nat}

theorem steps (h : IsRun p run length) (hi : i ≤ length) : Steps p (run 0) i (run i) := by
  induction i with
  | zero => exact .refl
  | succ i ih =>
    obtain ⟨choose, hs⟩ := h i hi
    exact .tail (ih (by omega)) choose hs

theorem settled (h : IsRun p run length) (h₀ : Settled p (run 0)) (hi : i ≤ length) :
    Settled p (run i) :=
  ((h.steps hi).add_potential_le h₀).1

theorem change (h : IsRun p run length) (h₀ : Settled p (run 0)) (hi : i < length) :
    Change p (run i) (run (i + 1)) := by
  obtain ⟨choose, hs⟩ := h i hi
  exact (h.settled h₀ hi.le).change hs

/-- What is on the stack was pushed at some time. -/
theorem exists_pushes (h : IsRun p run length) (h₀ : Settled p (run 0))
    (hnil : (run 0).work.stack = []) (hi : i ≤ length) (hu : u ∈ (run i).work.stack) :
    ∃ j < i, Pushes p (run j) u (run (j + 1)) := by
  induction i with
  | zero =>
    rw [hnil] at hu
    exact absurd hu List.not_mem_nil
  | succ i ih =>
    have hold : u ∈ (run i).work.stack → ∃ j < i + 1, Pushes p (run j) u (run (j + 1)) := by
      intro hu
      obtain ⟨j, hj, hp⟩ := ih (by omega) hu
      exact ⟨j, hj.trans (Nat.lt_succ_self i), hp⟩
    rcases (h.change h₀ hi).stack with he | ⟨v, hp, he⟩
    · exact hold (he ▸ hu)
    · rw [he, List.mem_cons] at hu
      rcases hu with rfl | hu
      · exact ⟨i, Nat.lt_succ_self i, hp⟩
      · exact hold hu

/-- What is recorded as chosen was chosen at some time. -/
theorem exists_chooses (h : IsRun p run length) (h₀ : Settled p (run 0))
    (hnone : ∀ x, ¬(run 0).WasChosen x) (hi : i ≤ length) (hu : (run i).WasChosen u) :
    ∃ j < i, Chooses p (run j) u (run (j + 1)) := by
  induction i with
  | zero => exact absurd hu (hnone u)
  | succ i ih =>
    rcases (h.change h₀ hi).wasChosen hu with hu | hc
    · obtain ⟨j, hj, hc⟩ := ih (by omega) hu
      exact ⟨j, hj.trans (Nat.lt_succ_self i), hc⟩
    · exact ⟨i, Nat.lt_succ_self i, hc⟩

/-- A node of the stack stays there and goes on to see few others. -/
theorem seesFew (h : IsRun p run length) (h₀ : Settled p (run 0)) (hij : i ≤ j) (hj : j ≤ length)
    (hu : u ∈ (run i).work.stack) (hfew : SeesFew p (run i) u) :
    u ∈ (run j).work.stack ∧ SeesFew p (run j) u := by
  induction j, hij using Nat.le_induction with
  | base => exact ⟨hu, hfew⟩
  | succ j hij ih =>
    obtain ⟨hmem, hfew⟩ := ih (by omega)
    have hc := h.change h₀ hj
    refine ⟨?_, hfew.change (h.settled h₀ (by omega)) hmem hc⟩
    rcases hc.stack with he | ⟨v, -, he⟩
    · rwa [he]
    · rw [he]
      exact List.mem_cons_of_mem v hmem

end IsRun

/-! ## Built graphs -/

/-- Whatever is chosen to be spilled at each step, a node of a built graph that has fewer neighbours
than there are colours when it is put onto the stack gets a colour. So a node that is spilled was
chosen and made ready to be simplified earlier in the same run, and had as many neighbours as there
are colours when it was put onto the stack. The run of each way to choose is among those that are
spoken of. -/
theorem coloured_of_degree_lt (catalog : Catalog) {r : Nat} (virtuals : Nat)
    (edges : List (Fin r × Fin r)) (moves : List (Move r)) (retired : List Nat) :
    ∃ s₁, (start (Graph.build virtuals edges moves)).makeWorklist (catalog.problem moves)
        (unretired (Graph.build virtuals edges moves) retired) = .ok s₁ ∧
      (∀ run length, run 0 = s₁ → IsRun (catalog.problem moves) run length →
        ∃ s, (run length).assignColours (catalog.problem moves) = .ok s ∧
          (∀ i < length, ∀ u, Pushes (catalog.problem moves) (run i) u (run (i + 1)) →
            (run i).graph.degree.get u < catalog.colourCount →
            s.node.get u = .coloured ∧
              ∃ c, s.colour.get u = some c ∧ (catalog.problem moves).isColour c = true) ∧
          ∀ u ∈ s.work.spilled, ∃ i j, i < j ∧ j < length ∧
            Chooses (catalog.problem moves) (run i) u (run (i + 1)) ∧
            (run (i + 1)).node.get u = .simplify ∧
            Pushes (catalog.problem moves) (run j) u (run (j + 1)) ∧
            catalog.colourCount ≤ (run j).graph.degree.get u) ∧
      ∀ choose, ∃ run length, run 0 = s₁ ∧ IsRun (catalog.problem moves) run length ∧
        (run length).step? (catalog.problem moves) choose = none ∧
        s₁.run (catalog.problem moves) choose = .ok (run length) := by
  have hstart := settled_start_build catalog virtuals edges moves
  obtain ⟨s₁, hok₁, h₁, ht₁, -⟩ := hstart.makeWorklist_unretired retired
  refine ⟨s₁, hok₁, ?_, fun choose ↦ ?_⟩
  · rintro run length rfl hrun
    have hset := hrun.settled h₁ le_rfl
    have hplain := ((IsPlain.start _).grows ht₁.grows).grows ((hrun.steps le_rfl).grows h₁)
    have hst : Stirs (start (Graph.build virtuals edges moves)) (run 0) :=
      .makeWorklist (fun _ _ ↦ start_isPresent _) hok₁
    have hnone : ∀ x, ¬(run 0).WasChosen x := by
      intro x hx
      obtain ⟨d, hd⟩ := hst.wasChosen x hx
      exact absurd hd List.not_mem_nil
    have hfew : ∀ i < length, ∀ u, Pushes (catalog.problem moves) (run i) u (run (i + 1)) →
        (run i).graph.degree.get u < catalog.colourCount →
        u ∈ (run length).work.stack ∧ SeesFew (catalog.problem moves) (run length) u :=
      fun i hi u hp hlt ↦
        hrun.seesFew h₁ hi le_rfl hp.mem_stack (hp.seesFew (hrun.settled h₁ hi.le) hlt)
    obtain ⟨s, hok, hsel⟩ := Settled.assignColours hset hplain
    obtain ⟨hsub, hmany⟩ := hset.spilled_assignColours hplain hok
    refine ⟨s, hok, fun i hi u hp hlt ↦ ?_, fun u hu ↦ ?_⟩
    · obtain ⟨hmem, hsees⟩ := hfew i hi u hp hlt
      refine (hsel.colour_stack u hmem).resolve_right fun hspilled ↦ ?_
      exact hmany u ((hsel.mem_spilled u).2 hspilled.1) hsees
    · obtain ⟨j, hj, hp⟩ := hrun.exists_pushes h₁ hst.stack le_rfl (hsub.subset hu)
      have hle : catalog.colourCount ≤ (run j).graph.degree.get u := by
        by_contra hlt
        exact hmany u hu (hfew j hj u hp (not_le.1 hlt)).2
      obtain ⟨i, hi, hc⟩ :=
        hrun.exists_chooses h₁ hnone hj.le (hp.wasChosen (hrun.settled h₁ hj.le) hle)
      exact ⟨i, j, hi, hj, hc, hc.node_eq, hp, hle⟩
  · obtain ⟨s, hok, -⟩ := h₁.run choose
    obtain ⟨count, hsteps, hnone⟩ := steps_of_runWithin hok
    obtain ⟨run, hzero, rfl, hrun⟩ := hsteps.exists_isRun
    exact ⟨run, count, hzero, hrun, hnone, hok⟩

/-- Three registers that interfere with each other, with two colours. The register `3` is pushed
first, and then its neighbour `4` is coalesced with `5`, a neighbour of `0`, which is spilled. -/
theorem coloured_of_degree_lt_of_triangle :
    ∃ run length s, IsRun (Catalog.twoColours.problem [⟨0, 4, 5⟩]) run length ∧
      (start (Graph.build (r := 9) 6 [(0, 1), (1, 2), (2, 0), (3, 4), (5, 0)]
        [⟨0, 4, 5⟩])).makeWorklist (Catalog.twoColours.problem [⟨0, 4, 5⟩])
        (unretired (Graph.build (r := 9) 6 [(0, 1), (1, 2), (2, 0), (3, 4), (5, 0)]
          [⟨0, 4, 5⟩]) []) = .ok (run 0) ∧
      Pushes (Catalog.twoColours.problem [⟨0, 4, 5⟩]) (run 0) 3 (run 1) ∧
      (run 0).graph.degree.get 3 < Catalog.twoColours.colourCount ∧
      (run length).assignColours (Catalog.twoColours.problem [⟨0, 4, 5⟩]) = .ok s ∧
      s.node.get 3 = .coloured ∧ s.work.spilled = [0] ∧
      ∃ i j, i < j ∧ j < length ∧
        Chooses (Catalog.twoColours.problem [⟨0, 4, 5⟩]) (run i) 0 (run (i + 1)) ∧
        Pushes (Catalog.twoColours.problem [⟨0, 4, 5⟩]) (run j) 0 (run (j + 1)) ∧
        Catalog.twoColours.colourCount ≤ (run j).graph.degree.get 0 := by
  obtain ⟨s₁, hok₁, hall, hsome⟩ := coloured_of_degree_lt Catalog.twoColours (r := 9) 6
    [(0, 1), (1, 2), (2, 0), (3, 4), (5, 0)] [⟨0, 4, 5⟩] []
  obtain ⟨run, length, rfl, hrun, hnone, hok₂⟩ := hsome fun _ u _ ↦ ⟨u, List.mem_cons_self⟩
  obtain ⟨s, hok, hcoloured, hspilled⟩ := hall run length rfl hrun
  have hfirst : ((start (Graph.build (r := 9) 6 [(0, 1), (1, 2), (2, 0), (3, 4), (5, 0)]
      [⟨0, 4, 5⟩])).makeWorklist (Catalog.twoColours.problem [⟨0, 4, 5⟩])
      (unretired (Graph.build (r := 9) 6 [(0, 1), (1, 2), (2, 0), (3, 4), (5, 0)]
        [⟨0, 4, 5⟩]) [])).toOption.map
      (fun s ↦ (s.work.simplify.toList.head?, s.graph.degree.get 3)) = some (some 3, 1) := by
    decide +kernel
  have hlast : ((start (Graph.build (r := 9) 6 [(0, 1), (1, 2), (2, 0), (3, 4), (5, 0)]
      [⟨0, 4, 5⟩])).makeWorklist (Catalog.twoColours.problem [⟨0, 4, 5⟩])
      (unretired (Graph.build (r := 9) 6 [(0, 1), (1, 2), (2, 0), (3, 4), (5, 0)]
        [⟨0, 4, 5⟩]) []) >>= Colouring.run (Catalog.twoColours.problem [⟨0, 4, 5⟩])
          (fun _ u _ ↦ ⟨u, List.mem_cons_self⟩) >>=
      assignColours (Catalog.twoColours.problem [⟨0, 4, 5⟩])).toOption.map (·.work.spilled) =
        some [0] := by
    decide +kernel
  rw [hok₁] at hfirst hlast
  obtain ⟨hhead, hdegree⟩ := Prod.mk.inj (Option.some.inj hfirst)
  have hspill : s.work.spilled = [0] := by
    rw [bind_eq_ok_iff.2 ⟨run 0, rfl, hok₂⟩, bind_eq_ok_iff.2 ⟨run length, rfl, hok⟩] at hlast
    exact Option.some.inj hlast
  have hpos : 0 < length := by
    refine Nat.pos_of_ne_zero ?_
    rintro rfl
    obtain ⟨us, hus⟩ := List.head?_eq_some_iff.1 hhead
    simp only [step?, hus, reduceCtorEq] at hnone
  obtain ⟨choose, hstep⟩ := hrun 0 hpos
  have hpush := Pushes.of_step hhead hstep
  have hlt : (run 0).graph.degree.get 3 < Catalog.twoColours.colourCount := by
    rw [hdegree]
    decide
  obtain ⟨i, j, hij, hj, hc, -, hp, hle⟩ := hspilled 0 (by simp [hspill])
  exact ⟨run, length, s, hrun, hok₁, hpush, hlt, hok, (hcoloured 0 hpos 3 hpush hlt).1, hspill,
    i, j, hij, hj, hc, hp, hle⟩

end RegAlloc.Colouring

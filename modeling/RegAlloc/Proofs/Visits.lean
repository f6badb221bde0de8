import Mathlib
import RegAlloc.Allocation.Routine
import RegAlloc.Proofs.Program
import RegAlloc.Proofs.Round
import RegAlloc.Proofs.Spill.Code

/-!
# The rounds of a run

A run goes from round to round, and `Visits` are the states in between. Each of them comes from the
one before it by a round that spills something, whose registers get their slots in an order that is
free. A run ends in one of these states: with the round that spills nothing, without a round, or
with a fault.

Spill code is written over kept registers and fresh ones, so a register that is retired in a round
does not occur in the next one, nor in any that follows. What is coloured in a round is therefore
what occurs in the code, and its moves are all decided.
-/

namespace RegAlloc

theorem SlotOrder.mem_arrange (order : SlotOrder) {number v : Nat} {spills : List Nat} :
    v ∈ order.arrange number spills ↔ v ∈ spills :=
  (order.perm number spills).mem_iff

namespace Spilling

variable {σ : Type} [SlotStore σ] {order : SlotOrder} {settings : Settings} {catalog : Catalog}
  {number : Nat} {w w' : Spilling σ} {attempts : List Attempt}

/-- The states that a run comes through between its rounds, the first of which has the given number,
each with the rounds before it. -/
inductive Visits (order : SlotOrder) (settings : Settings) (catalog : Catalog) (number : Nat)
    (w : Spilling σ) : List Attempt → Spilling σ → Prop
  | start : Visits order settings catalog number w [] w
  | next {attempts : List Attempt} {w₁ w₂ : Spilling σ} {g : BlockGraph w₁.routine.blocks.length}
    {round : Round (w₁.routine.numbering catalog).size} {slots : List (Nat × Slot)}
    (h : Visits order settings catalog number w attempts w₁) (hg : w₁.routine.blockGraph = .ok g)
    (hround : w₁.routine.round catalog g settings.coalesce w₁.record.retired = .ok round)
    (hspills : round.spills.isEmpty = false)
    (hspill : w₁.spill catalog (order.arrange (number + attempts.length) round.spills) =
      .ok (w₂, slots)) :
    Visits order settings catalog number w
      (attempts ++ [⟨_, round, slots.map fun p ↦ (w₁.record.owner p.1, p.2)⟩]) w₂

/-- How a run ends in a state: without a round, since no more are allowed or a label is missing, or
with one that spills nothing and is committed. -/
inductive Ends (settings : Settings) (catalog : Catalog) (attempts : List Attempt)
    (w : Spilling σ) : Outcome σ → Prop
  | error (e : AllocationError) :
    Ends settings catalog attempts w
      { routine := w.routine, store := w.store, result := .error e, attempts }
  | commit {g : BlockGraph w.routine.blocks.length}
    {round : Round (w.routine.numbering catalog).size} {number : Nat} {routine : Routine}
    {report : Report} (hg : w.routine.blockGraph = .ok g)
    (hround : w.routine.round catalog g settings.coalesce w.record.retired = .ok round)
    (hspills : round.spills = [])
    (hcommit : w.commit catalog number round = .ok (routine, report)) :
    Ends settings catalog attempts w
      { routine, store := w.store, result := .ok report,
        attempts := attempts ++ [⟨_, round, []⟩] }

theorem Visits.trans {w₁ w₂ w₃ : Spilling σ} {before after : List Attempt}
    (h₁ : Visits order settings catalog number w₁ before w₂)
    (h₂ : Visits order settings catalog (number + before.length) w₂ after w₃) :
    Visits order settings catalog number w₁ (before ++ after) w₃ := by
  induction h₂ with
  | start => rwa [List.append_nil]
  | next _ hg hround hspills hspill ih =>
    rw [Nat.add_assoc, ← List.length_append] at hspill
    rw [← List.append_assoc]
    exact .next ih hg hround hspills hspill

theorem Visits.eq_of_length_eq_zero (h : Visits order settings catalog number w attempts w')
    (hlen : attempts.length = 0) : w' = w := by
  cases h with
  | start => rfl
  | next => simp at hlen

/-! ## The run comes through these states -/

theorem rounds_of_spill {g : BlockGraph w.routine.blocks.length}
    {round : Round (w.routine.numbering catalog).size} {slots : List (Nat × Slot)}
    (hg : w.routine.blockGraph = .ok g)
    (hround : w.routine.round catalog g settings.coalesce w.record.retired = .ok round)
    (hspills : round.spills.isEmpty = false)
    (hspill : w.spill catalog (order.arrange number round.spills) = .ok (w', slots)) (left : Nat)
    (before : List Attempt) :
    rounds order settings catalog (left + 1) number before w =
      rounds order settings catalog left (number + 1)
        (before ++ [⟨_, round, slots.map fun p ↦ (w.record.owner p.1, p.2)⟩]) w' := by
  rw [rounds]
  simp only [hg, hround]
  refine (if_neg (by simp [hspills])).trans ?_
  rw [hspill]
  rfl

/-- A round that spills nothing is the last one. -/
theorem rounds_of_commit {g : BlockGraph w.routine.blocks.length}
    {round : Round (w.routine.numbering catalog).size} {routine : Routine} {report : Report}
    (hg : w.routine.blockGraph = .ok g)
    (hround : w.routine.round catalog g settings.coalesce w.record.retired = .ok round)
    (hspills : round.spills = [])
    (hcommit : w.commit catalog number round = .ok (routine, report)) (order : SlotOrder)
    (left : Nat) (before : List Attempt) :
    rounds order settings catalog (left + 1) number before w =
      .ok { routine, store := w.store, result := .ok report,
            attempts := before ++ [⟨_, round, []⟩] } := by
  rw [rounds]
  simp only [hg, hround]
  refine (if_pos (by simp [hspills])).trans ?_
  rw [hcommit]
  rfl

/-- A round that faults is the last one, too. -/
theorem rounds_of_fault {g : BlockGraph w.routine.blocks.length} {e : Fault}
    (hg : w.routine.blockGraph = .ok g)
    (hround : w.routine.round catalog g settings.coalesce w.record.retired = .error e)
    (order : SlotOrder) (left number : Nat) (before : List Attempt) :
    rounds order settings catalog (left + 1) number before w = .error e := by
  rw [rounds]
  simp only [hg]
  exact bind_eq_error hround _

/-- The run comes through the states that it visits, and goes on from there. -/
theorem Visits.rounds_eq (h : Visits order settings catalog number w attempts w') (left : Nat)
    (before : List Attempt) :
    rounds order settings catalog (left + attempts.length) number before w =
      rounds order settings catalog left (number + attempts.length) (before ++ attempts) w' := by
  induction h generalizing left with
  | start => rw [List.append_nil]; rfl
  | next _ hg hround hspills hspill ih =>
    rw [List.length_append, List.length_singleton, ← Nat.add_assoc, Nat.add_right_comm, ih,
      rounds_of_spill hg hround hspills hspill, List.append_assoc, Nat.add_assoc]

/-- A run may end in the state where it starts. -/
theorem Ends.exists_visits {before : List Attempt} {outcome : Outcome σ}
    (h : Ends settings catalog before w outcome) (order : SlotOrder) (left number : Nat) :
    ∃ attempts w', Visits order settings catalog number w attempts w' ∧ attempts.length ≤ left ∧
      Ends settings catalog (before ++ attempts) w' outcome :=
  ⟨[], w, .start, Nat.zero_le left, by rwa [List.append_nil]⟩

/-- A run that does not fault ends in a state that it has come through. -/
theorem exists_visits_of_rounds {left : Nat} {before : List Attempt} {outcome : Outcome σ}
    (h : rounds order settings catalog left number before w = .ok outcome) :
    ∃ attempts w', Visits order settings catalog number w attempts w' ∧ attempts.length ≤ left ∧
      Ends settings catalog (before ++ attempts) w' outcome := by
  induction left generalizing number before w with
  | zero =>
    cases h
    exact (Ends.error _).exists_visits order 0 number
  | succ left ih =>
    rw [rounds] at h
    split at h
    · cases h
      exact (Ends.error _).exists_visits order _ number
    · rename_i g hg
      obtain ⟨round, hround, h⟩ := bind_eq_ok_iff.1 h
      split at h
      · rename_i hspills
        obtain ⟨⟨routine, report⟩, hcommit, h⟩ := bind_eq_ok_iff.1 h
        cases h
        exact (Ends.commit hg hround (List.isEmpty_iff.1 hspills) hcommit).exists_visits order _
          number
      · rename_i hspills
        obtain ⟨⟨next, slots⟩, hspill, h⟩ := bind_eq_ok_iff.1 h
        obtain ⟨attempts, w', hvisits, hlen, hends⟩ := ih h
        have hfirst : Visits order settings catalog number w _ next :=
          .next .start hg hround (Bool.eq_false_iff.2 hspills) hspill
        refine ⟨_, w', hfirst.trans hvisits, ?_, ?_⟩
        · rw [List.length_append, List.nil_append, List.length_singleton]
          omega
        · rwa [List.nil_append, ← List.append_assoc]

theorem allocate_eq_rounds {f : Routine} (hblocks : f.blocks ≠ []) (order : SlotOrder)
    (store : σ) :
    f.allocate order store catalog settings =
      rounds order settings catalog settings.maxRounds 1 [] { routine := f, store } := by
  rw [Routine.allocate, if_neg (by simpa using hblocks)]

section Allocate

variable {f : Routine} {store : σ} (h : Visits order settings catalog 1 { routine := f, store }
  attempts w)

include h

theorem Visits.allocate_eq_rounds (hblocks : f.blocks ≠ []) (left : Nat)
    (hleft : left + attempts.length = settings.maxRounds) :
    f.allocate order store catalog settings =
      rounds order settings catalog left (1 + attempts.length) attempts w := by
  rw [Spilling.allocate_eq_rounds hblocks, ← hleft]
  exact h.rounds_eq left []

/-- The run ends behind the states it has come through with a round that spills nothing. -/
theorem Visits.allocate_eq (hblocks : f.blocks ≠ []) (hlen : attempts.length < settings.maxRounds)
    {g : BlockGraph w.routine.blocks.length} {round : Round (w.routine.numbering catalog).size}
    {routine : Routine} {report : Report} (hg : w.routine.blockGraph = .ok g)
    (hround : w.routine.round catalog g settings.coalesce w.record.retired = .ok round)
    (hspills : round.spills = [])
    (hcommit : w.commit catalog (1 + attempts.length) round = .ok (routine, report)) :
    f.allocate order store catalog settings =
      .ok { routine, store := w.store, result := .ok report,
            attempts := attempts ++ [⟨_, round, []⟩] } := by
  obtain ⟨left, hleft⟩ := Nat.exists_eq_add_of_lt hlen
  rw [h.allocate_eq_rounds hblocks (left + 1) (by omega)]
  exact rounds_of_commit hg hround hspills hcommit order left attempts

/-- The run ends with an overflow if there is no room for the registers. -/
theorem Visits.allocate_eq_overflow (hblocks : f.blocks ≠ [])
    (hlen : attempts.length < settings.maxRounds) (hc : catalog.WellFormed)
    (hover : w.routine.IsOver catalog) (hroom : ¬w.routine.HasRoom catalog)
    {g : BlockGraph w.routine.blocks.length} (hg : w.routine.blockGraph = .ok g) :
    f.allocate order store catalog settings = .error .overflow := by
  obtain ⟨left, hleft⟩ := Nat.exists_eq_add_of_lt hlen
  rw [h.allocate_eq_rounds hblocks (left + 1) (by omega)]
  exact rounds_of_fault hg (hover.round_eq_overflow hc hroom g _ _) order left _ attempts

end Allocate

theorem exists_visits_of_allocate {f : Routine} {store : σ} {outcome : Outcome σ}
    (hblocks : f.blocks ≠ []) (h : f.allocate order store catalog settings = .ok outcome) :
    ∃ attempts w, Visits order settings catalog 1 { routine := f, store } attempts w ∧
      attempts.length ≤ settings.maxRounds ∧ Ends settings catalog attempts w outcome := by
  rw [allocate_eq_rounds hblocks] at h
  exact exists_visits_of_rounds h

/-! ## What holds in all the rounds -/

section Spill

variable {spills : List Nat} {slots : List (Nat × Slot)}

/-- The code is written over reserved registers, and no retired one occurs in it. -/
structure IsInOrder (catalog : Catalog) (w : Spilling σ) : Prop where
  isOver : w.routine.IsOver catalog
  retired_lt : ∀ v ∈ w.record.retired, v < w.routine.vregCount
  not_retired : ∀ v ∈ w.routine.occurring, v ∉ w.record.retired

omit [SlotStore σ] in
theorem isInOrder_start {f : Routine} (hf : f.IsOver catalog) (store : σ) :
    IsInOrder catalog { routine := f, store } :=
  ⟨hf, by simp, by simp⟩

/-- What is retired does not occur in the new code, if it was reserved and did not occur before it
was spilled. -/
theorem Spills.not_retired (hs : Spills catalog w spills slots w')
    (hlt : ∀ v ∈ w'.record.retired, v < w.routine.vregCount)
    (hnot : ∀ v ∈ w.routine.occurring, v ∉ w.record.retired) :
    ∀ v ∈ w'.routine.occurring, v ∉ w'.record.retired := by
  intro v hv hmem
  obtain ⟨j, hj, hρ⟩ := Routine.mem_occurring.1 hv
  rcases hs.mem_regs hj hρ with he | ⟨i, hi, hρ, hkept⟩ | ⟨t, he, ht, -⟩
  · cases he
  · -- a register that is kept has not been spilled
    rw [hs.retired] at hmem
    rcases List.mem_append.1 hmem with hmem | hmem
    · rw [← hs.map_fst] at hmem
      obtain ⟨p, hp, rfl⟩ := List.mem_map.1 hmem
      have hnone := List.lookup_eq_none_iff.1 hkept p hp
      simp at hnone
    · exact hnot v (Routine.mem_occurring.2 ⟨i, hi, hρ⟩) hmem
  · cases he
    exact absurd (hlt v hmem) (not_lt.2 ht)

/-- The new code is written over reserved registers and those of the catalog. -/
theorem Spills.isOver (hs : Spills catalog w spills slots w') (hc : catalog.WellFormed)
    (h : w.routine.IsOver catalog) : w'.routine.IsOver catalog := by
  intro j hj ρ hρ
  rcases hs.mem_regs hj hρ with rfl | ⟨i, hi, hρ, -⟩ | ⟨t, rfl, -, ht⟩
  · exact hc.frameBase_mem
  · exact Routine.knows_mono hs.vregCount_le (h i hi ρ hρ)
  · exact ht

theorem Spills.isFor (hs : Spills catalog w spills slots w') (hc : catalog.WellFormed)
    (h : w.routine.IsFor catalog) : w'.routine.IsFor catalog := by
  intro j hj r hr
  rcases hs.mem_regs hj hr with he | ⟨i, hi, hr, -⟩ | ⟨t, he, -⟩
  · cases he
    exact hc.frameBase_mem
  · exact h i hi r hr
  · cases he

theorem IsInOrder.spill (h : w.IsInOrder catalog) (hc : catalog.WellFormed)
    (hs : Spills catalog w spills slots w') (hlt : ∀ v ∈ spills, v < w.routine.vregCount) :
    w'.IsInOrder catalog := by
  have hretired : ∀ v ∈ w'.record.retired, v < w.routine.vregCount := by
    intro v hv
    rw [hs.retired] at hv
    rcases List.mem_append.1 hv with hv | hv
    · exact hlt v hv
    · exact h.retired_lt v hv
  exact ⟨hs.isOver hc h.isOver, fun v hv ↦ (hretired v hv).trans_le hs.vregCount_le,
    hs.not_retired hretired h.not_retired⟩

end Spill

theorem Visits.isInOrder (h : Visits order settings catalog number w attempts w')
    (hc : catalog.WellFormed) (hw : w.IsInOrder catalog) : w'.IsInOrder catalog := by
  induction h with
  | start => exact hw
  | next _ hg hround _ hspill ih =>
    obtain ⟨-, rfl⟩ := Routine.blockGraph_eq_ok hg
    obtain ⟨l, hof⟩ := Routine.exists_isOf hround
    exact ih.spill hc (spills_of_spill hspill) fun v hv ↦
      hof.lt_of_mem_spills (order.mem_arrange.1 hv)

omit [SlotStore σ] in
/-- All the registers of code with room have numbers of 32 bits. -/
theorem IsInOrder.lt_of_hasRoom (h : w.IsInOrder catalog) (hroom : w.routine.HasRoom catalog)
    {v : Nat} (hv : v ∈ w.routine.occurring) : v < UInt32.size := by
  obtain ⟨i, hi, hρ⟩ := Routine.mem_occurring.1 hv
  have hlt : v < (w.routine.numbering catalog).size :=
    Numbering.lt_size (h.isOver i hi (.virt v) hρ)
  have : (w.routine.numbering catalog).size < UInt32.size / 2 := hroom
  omega

omit [SlotStore σ] in
/-- No move of a round starts or ends in a retired register. -/
theorem IsInOrder.areCurrent (h : w.IsInOrder catalog) (hc : catalog.WellFormed) {coalesce : Bool}
    {l : Liveness (w.routine.numbering catalog).size
      (Flow.sites (reachedCode w.routine.blocks (.ofBlocks w.routine.blocks))).length}
    {round : Round (w.routine.numbering catalog).size}
    (hof : round.IsOf w.routine catalog coalesce w.record.retired l) :
    Colouring.AreCurrent (catalog.problem round.interference.moves) w.record.retired := by
  intro u hend hret
  obtain ⟨i, hi, ρ, hρ, hu⟩ := hof.exists_reg_of_isEnd hend
  have hpre : round.interference.graph.isPrecoloured u = false := by
    rw [Graph.isPrecoloured, hof.virtuals, decide_eq_false_iff_not, not_le]
    exact h.retired_lt u hret
  have hmem := hof.mem_unretired hc h.isOver h.not_retired hi hρ hu hpre
  simp [Colouring.unretired, hret] at hmem

/-- All the registers that occur can be committed if nothing is spilled and none is retired. -/
theorem IsInOrder.exists_commit (h : w.IsInOrder catalog) (hc : catalog.WellFormed)
    {g : BlockGraph w.routine.blocks.length} (hg : w.routine.blockGraph = .ok g)
    {round : Round (w.routine.numbering catalog).size}
    (hround : w.routine.round catalog g settings.coalesce w.record.retired = .ok round)
    (hspills : round.spills = []) (number : Nat) :
    ∃ committed, w.commit catalog number round = .ok committed := by
  obtain ⟨-, rfl⟩ := Routine.blockGraph_eq_ok hg
  obtain ⟨l, hof⟩ := Routine.exists_isOf hround
  obtain ⟨assignment, hassignment⟩ := hof.exists_assignment hc h.isOver hspills h.not_retired
  exact exists_bind_eq_ok hassignment ⟨_, rfl⟩

/-! ## Runs that can be followed -/

/-- The registers that some rounds have spilled. -/
def allSpills (attempts : List Attempt) : List Nat :=
  attempts.flatMap fun a ↦ a.round.spills

/-- What the next round spills. -/
def nextSpills (settings : Settings) (catalog : Catalog) (w : Spilling σ) : Option (List Nat) :=
  match w.routine.blockGraph with
  | .error _ => none
  | .ok g =>
    match w.routine.round catalog g settings.coalesce w.record.retired with
    | .error _ => none
    | .ok round => some round.spills

omit [SlotStore σ] in
theorem nextSpills_eq {g : BlockGraph w.routine.blocks.length} (hg : w.routine.blockGraph = .ok g)
    {round : Round (w.routine.numbering catalog).size}
    (hround : w.routine.round catalog g settings.coalesce w.record.retired = .ok round) :
    w.nextSpills settings catalog = some round.spills := by
  rw [nextSpills, hg]
  simp only [hround]

omit [SlotStore σ] in
theorem exists_round_of_nextSpills {spills : List Nat}
    (h : w.nextSpills settings catalog = some spills) :
    ∃ g round, w.routine.blockGraph = .ok g ∧
      w.routine.round catalog g settings.coalesce w.record.retired = .ok round ∧
      round.spills = spills := by
  unfold nextSpills at h
  split at h
  · cases h
  · rename_i g hg
    split at h
    · cases h
    · rename_i round hround
      cases h
      exact ⟨g, round, hg, hround, rfl⟩

/-- Makes rounds that spill the given registers, as long as these are the ones that a round has no
colours for. -/
def replay (order : SlotOrder) (settings : Settings) (catalog : Catalog) :
    (number : Nat) → List (List Nat) → Spilling σ → Option (Spilling σ)
  | _, [], w => some w
  | number, spills :: schedule, w =>
    if spills.isEmpty = false ∧ w.nextSpills settings catalog = some spills then
      match w.spill catalog (order.arrange number spills) with
      | .ok (w', _) => replay order settings catalog (number + 1) schedule w'
      | .error _ => none
    else none

theorem exists_visits_of_replay {schedule : List (List Nat)}
    (h : replay order settings catalog number schedule w = some w') :
    ∃ attempts, Visits order settings catalog number w attempts w' ∧
      attempts.length = schedule.length ∧ allSpills attempts = schedule.flatten := by
  induction schedule generalizing number w with
  | nil =>
    cases h
    exact ⟨[], .start, rfl, rfl⟩
  | cons spills schedule ih =>
    rw [replay] at h
    split at h
    · rename_i hspills
      split at h
      · rename_i w₁ slots hspill
        obtain ⟨g, round, hg, hround, rfl⟩ := exists_round_of_nextSpills hspills.2
        obtain ⟨attempts, hvisits, hlength, hall⟩ := ih h
        have hfirst : Visits order settings catalog number w _ w₁ :=
          .next .start hg hround hspills.1 hspill
        refine ⟨_, hfirst.trans hvisits, ?_, ?_⟩
        · simp [hlength]
        · rw [List.flatten_cons, ← hall]
          rfl
      · cases h
    · cases h

/-- The run ends with what these rounds have spilled, if there is a colour for everything then. -/
theorem exists_allocate_of_replay {f : Routine} {store : σ} {schedule : List (List Nat)}
    (hc : catalog.WellFormed) (hblocks : f.blocks ≠ []) (hf : f.IsOver catalog)
    (h : replay order settings catalog 1 schedule { routine := f, store } = some w)
    (hlast : w.nextSpills settings catalog = some [])
    (hmax : schedule.length < settings.maxRounds) :
    ∃ outcome report, f.allocate order store catalog settings = .ok outcome ∧
      outcome.result = .ok report ∧ report.spilled.Perm w.record.spilled := by
  obtain ⟨attempts, hvisits, hlength, -⟩ := exists_visits_of_replay h
  obtain ⟨g, round, hg, hround, hspills⟩ := exists_round_of_nextSpills hlast
  have hin := hvisits.isInOrder hc (isInOrder_start hf store)
  obtain ⟨⟨routine, report⟩, hcommit⟩ := hin.exists_commit hc hg hround hspills
    (1 + attempts.length)
  refine ⟨_, report, hvisits.allocate_eq hblocks (by omega) hg hround hspills hcommit, rfl, ?_⟩
  obtain ⟨assignment, -, he⟩ := bind_eq_ok_iff.1 hcommit
  cases he
  exact List.mergeSort_perm _ _

end Spilling

namespace Colouring

/-- Whatever is chosen to be spilled, colouring a built graph ends after a bounded number of steps.
When no step is left, every virtual register that is not retired has been selected or coalesced, the
stack holds exactly the selected ones, each of them once, and every move has been decided, provided
that no retired register is an end of a move. In the rounds of a run none is, so there every move is
decided. -/
theorem exists_isFinished (catalog : Catalog) :
    (∀ {r : Nat} (virtuals : Nat) (edges : List (Fin r × Fin r)) (moves : List (Move r))
        (retired : List Nat),
      ∃ s₁, (start (Graph.build virtuals edges moves)).makeWorklist (catalog.problem moves)
          (unretired (Graph.build virtuals edges moves) retired) = .ok s₁ ∧
        (∀ count s, Steps (catalog.problem moves) s₁ count s →
          count ≤ (r + 1) * (moves.length + 3) ∧
          ∀ choose, s.step? (catalog.problem moves) choose = none →
            IsFinished (Graph.build virtuals edges moves) retired s ∧
            (AreCurrent (catalog.problem moves) retired → IsDecided s)) ∧
        ∀ choose, ∃ count s, Steps (catalog.problem moves) s₁ count s ∧
          s.step? (catalog.problem moves) choose = none ∧
          s₁.run (catalog.problem moves) choose = .ok s) ∧
    ∀ {σ : Type} [SlotStore σ] {order : SlotOrder} {settings : Settings} {f : Routine} {store : σ}
      {attempts : List RegAlloc.Attempt} {w : Spilling σ} {g : BlockGraph w.routine.blocks.length}
      {round : Round (w.routine.numbering catalog).size},
      catalog.WellFormed → f.IsOver catalog →
      Spilling.Visits order settings catalog 1 { routine := f, store } attempts w →
      w.routine.blockGraph = .ok g →
      w.routine.round catalog g settings.coalesce w.record.retired = .ok round →
      round.interference.graph =
        Graph.build w.routine.vregCount round.interference.edges round.interference.moves ∧
      AreCurrent (catalog.problem round.interference.moves) w.record.retired := by
  constructor
  · intro r virtuals edges moves retired
    have h₀ := settled_start_build catalog virtuals edges moves
    obtain ⟨s₁, hok, hs₁, -⟩ := h₀.makeWorklist_unretired retired
    refine ⟨s₁, hok, fun count s hsteps ↦ ⟨hsteps.count_le hs₁, fun choose hnone ↦ ?_⟩,
      fun choose ↦ ?_⟩
    · have hreach := hsteps.reachable (.start hok)
      exact ⟨hreach.isFinished h₀ hnone, fun hcur ↦ hreach.isDecided h₀ hcur hnone⟩
    · obtain ⟨s, hrun, -⟩ := hs₁.run choose
      obtain ⟨count, hsteps, hnone⟩ := steps_of_runWithin hrun
      exact ⟨count, s, hsteps, hnone, hrun⟩
  · intro σ _ order settings f store attempts w g round hc hf hw hg hround
    obtain ⟨-, rfl⟩ := Routine.blockGraph_eq_ok hg
    obtain ⟨l, hof⟩ := Routine.exists_isOf hround
    exact ⟨hof.graph, (hw.isInOrder hc (Spilling.isInOrder_start hf store)).areCurrent hc hof⟩

/-- Two copies, one of them to a physical register, beside a register that is retired. -/
theorem exists_isFinished_of_copies :
    AreCurrent (Catalog.twoColours.problem (r := 7) [⟨0, 0, 2⟩, ⟨1, 5, 1⟩]) [3] ∧
    ∃ s₁ s, (start (Graph.build (r := 7) 4 [(0, 1), (1, 2)] [⟨0, 0, 2⟩, ⟨1, 5, 1⟩])).makeWorklist
        (Catalog.twoColours.problem [⟨0, 0, 2⟩, ⟨1, 5, 1⟩])
        (unretired (Graph.build 4 [(0, 1), (1, 2)] [⟨0, 0, 2⟩, ⟨1, 5, 1⟩]) [3]) = .ok s₁ ∧
      s₁.run (Catalog.twoColours.problem [⟨0, 0, 2⟩, ⟨1, 5, 1⟩])
        (fun _ u _ ↦ ⟨u, List.mem_cons_self⟩) = .ok s ∧
      IsFinished (Graph.build 4 [(0, 1), (1, 2)] [⟨0, 0, 2⟩, ⟨1, 5, 1⟩]) [3] s ∧ IsDecided s := by
  have hcur : AreCurrent (Catalog.twoColours.problem (r := 7) [⟨0, 0, 2⟩, ⟨1, 5, 1⟩]) [3] := by
    unfold AreCurrent IsEnd
    decide
  obtain ⟨s₁, hok, hsteps, hrun⟩ := (exists_isFinished Catalog.twoColours).1 (r := 7) 4
    [(0, 1), (1, 2)] [⟨0, 0, 2⟩, ⟨1, 5, 1⟩] [3]
  obtain ⟨count, s, hs, hnone, hok'⟩ := hrun fun _ u _ ↦ ⟨u, List.mem_cons_self⟩
  obtain ⟨-, hdone⟩ := hsteps count s hs
  obtain ⟨hfin, hdec⟩ := hdone _ hnone
  exact ⟨hcur, s₁, s, hok, hok', hfin, hdec hcur⟩

end Colouring

end RegAlloc

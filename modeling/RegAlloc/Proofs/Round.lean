import Mathlib
import RegAlloc.Allocation.Round
import RegAlloc.Proofs.Assignment
import RegAlloc.Proofs.Colouring.Termination
import RegAlloc.Proofs.Liveness

/-!
# One round

A routine over reserved registers can be analysed and coloured, if there is room for its registers.
If there is none, the numbers of the registers or the length of the bit matrix overflow. Nothing
else goes wrong in a round.
-/

namespace RegAlloc

theorem exists_bind_eq_ok {ε α β : Type} {x : Except ε α} {f : α → Except ε β} {a : α}
    (hx : x = .ok a) (hf : ∃ b, f a = .ok b) : ∃ b, x >>= f = .ok b := by
  rw [hx]
  exact hf

theorem bind_eq_error {ε α β : Type} {x : Except ε α} {e : ε} (hx : x = .error e)
    (f : α → Except ε β) : x >>= f = .error e := by
  rw [hx]
  rfl

/-- If each check passes, or fails for one and the same reason, so do all of them. -/
theorem forM_cases {ε α : Type} {check : α → Except ε Unit} {e : ε} {reason : Prop} {as : List α}
    (h : ∀ a ∈ as, check a = .ok () ∨ (reason ∧ check a = .error e)) :
    as.forM check = .ok () ∨ (reason ∧ as.forM check = .error e) := by
  induction as with
  | nil => exact .inl rfl
  | cons a as ih =>
    rcases h a List.mem_cons_self with hok | ⟨hreason, herror⟩
    · have hcons : (a :: as).forM check = as.forM check := by
        rw [List.forM, hok]
        rfl
      rw [hcons]
      exact ih fun a' ha' ↦ h a' (List.mem_cons_of_mem a ha')
    · exact .inr ⟨hreason, bind_eq_error herror _⟩

/-! ## Colours -/

namespace Colouring

variable {n m : Nat} {p : ColouringProblem n m} {s s' : Colouring n m}

/-- The colours that are selected pass the check. -/
theorem Selects.hasRightColours (h : Selects p s s') (hs : Settled p s) :
    s'.hasRightColours = true := by
  rw [Colouring.hasRightColours, Bool.and_eq_true, List.all_eq_true, List.all_eq_true]
  constructor
  · intro u _
    rw [Bool.or_eq_true, decide_eq_true_eq, decide_eq_true_eq, or_iff_not_imp_left, not_not]
    intro hnode
    have hstack : u ∉ s.work.stack := by
      intro hmem
      rcases h.colour_stack u hmem with ⟨hcol, -⟩ | ⟨hspill, -⟩
      · rw [hnode] at hcol
        cases hcol
      · rw [hnode] at hspill
        cases hspill
    rw [h.node_eq u hstack] at hnode
    have hpre := (hs.sound.node_precoloured u).1 hnode
    rw [h.colour_root u hstack fun v ↦ by simp [hnode], Graph.precolour?, if_pos hpre, h.graph]
  · rintro ⟨u, v⟩ huv
    obtain ⟨w, -, hw⟩ := List.mem_flatMap.1 huv
    obtain ⟨x, hx, he⟩ := List.mem_map.1 hw
    cases he
    have hint := (of_decide_eq_true (List.mem_filter.1 hx).2).2
    rw [h.graph] at hint
    rw [Bool.or_eq_true, decide_eq_true_eq]
    cases hcol : s'.colour.get u with
    | none => exact .inl rfl
    | some c => exact .inr (h.ne_of_interferes u v c hint hcol).symm

theorem exists_attempt {g : Graph n (Fin m)} (h : Settled p (start g)) (retired : List Nat)
    (choose : SpillChoice n m) : ∃ s, attempt p choose retired g = .ok s := by
  obtain ⟨s₁, s₂, s, hok₁, hok₂, hok, hdone, hsel⟩ := exists_isDone h retired choose
  refine exists_bind_eq_ok hok₁ (exists_bind_eq_ok hok₂ (exists_bind_eq_ok hok ⟨s, ?_⟩))
  exact if_pos (hsel.hasRightColours hdone.settled)

end Colouring

/-! ## Registers -/

namespace Routine

variable {f : Routine} {catalog : Catalog}

/-- All the registers have numbers, unless there are too many for 32 bits. -/
theorem IsOver.checkSites_cases (hf : f.IsOver catalog) (hc : catalog.WellFormed)
    (g : BlockGraph f.blocks.length) :
    (Flow.sites (reachedCode f.blocks g)).forM (Flow.checkSite (f.numbering catalog)) = .ok () ∨
      (UInt32.size ≤ (f.numbering catalog).size ∧
        (Flow.sites (reachedCode f.blocks g)).forM (Flow.checkSite (f.numbering catalog)) =
          .error .overflow) := by
  refine forM_cases fun s hs ↦ forM_cases fun ρ hρ ↦ ?_
  have hmem : ρ ∈ s.instr.uses ++ s.instr.defs := List.mem_append.2 (List.mem_append.1 hρ).symm
  rcases (hf s.instr (Flow.mem_instrs_of_mem_sites hs) ρ hmem).index_cases hc with
    ⟨i, -, hi⟩ | ⟨hle, hover⟩
  · exact .inl (bind_eq_ok_iff.2 ⟨i, hi, rfl⟩)
  · exact .inr ⟨hle, bind_eq_error hover _⟩

theorem IsOver.analyze_cases (hf : f.IsOver catalog) (hc : catalog.WellFormed)
    (g : BlockGraph f.blocks.length) :
    (∃ analysis, f.analyze catalog g = .ok analysis) ∨
      (UInt32.size ≤ (f.numbering catalog).size ∧ f.analyze catalog g = .error .overflow) := by
  rcases hf.checkSites_cases hc g with hok | ⟨hle, hover⟩
  · exact .inl (exists_bind_eq_ok hok ⟨_, if_pos (Liveness.isFixpoint_solve _)⟩)
  · exact .inr ⟨hle, bind_eq_error hover _⟩

theorem IsOver.exists_round (hf : f.IsOver catalog) (hc : catalog.WellFormed)
    (hroom : f.HasRoom catalog) (g : BlockGraph f.blocks.length) (coalesce : Bool)
    (retired : List Nat) : ∃ round, f.round catalog g coalesce retired = .ok round := by
  have hlt : (f.numbering catalog).size < UInt32.size := by
    have : (f.numbering catalog).size < UInt32.size / 2 := hroom
    omega
  obtain ⟨analysis, hanalysis⟩ := (hf.analyze_cases hc g).resolve_right fun h ↦ hlt.not_ge h.1
  have hcheck : BitMatrix.checkRoom (f.numbering catalog).size = .ok () :=
    (BitMatrix.checkRoom_eq _).trans (if_pos hroom)
  obtain ⟨colouring, hcolouring⟩ := Colouring.exists_attempt
    (Colouring.settled_start_build catalog f.vregCount _ _) retired
    (cheapest analysis.flow.accessCosts)
  exact exists_bind_eq_ok hanalysis (exists_bind_eq_ok (bind_eq_ok_iff.2 ⟨(), hcheck, rfl⟩)
    (exists_bind_eq_ok hcolouring ⟨_, rfl⟩))

/-- Without room the round ends with an overflow. -/
theorem IsOver.round_eq_overflow (hf : f.IsOver catalog) (hc : catalog.WellFormed)
    (hroom : ¬f.HasRoom catalog) (g : BlockGraph f.blocks.length) (coalesce : Bool)
    (retired : List Nat) : f.round catalog g coalesce retired = .error .overflow := by
  rcases hf.analyze_cases hc g with ⟨analysis, hanalysis⟩ | ⟨-, hover⟩
  · have hcheck : BitMatrix.checkRoom (f.numbering catalog).size = .error .overflow :=
      (BitMatrix.checkRoom_eq _).trans (if_neg hroom)
    rw [round, hanalysis]
    exact bind_eq_error (bind_eq_error hcheck _) _
  · exact bind_eq_error hover _

/-- There is no round without room. -/
theorem hasRoom_of_round {g : BlockGraph f.blocks.length} {coalesce : Bool} {retired : List Nat}
    {round : Round (f.numbering catalog).size}
    (h : f.round catalog g coalesce retired = .ok round) : f.HasRoom catalog := by
  obtain ⟨analysis, -, h⟩ := bind_eq_ok_iff.1 h
  obtain ⟨interference, hint, -⟩ := bind_eq_ok_iff.1 h
  exact (Analysis.interference?_eq_ok hint).1

end Routine

/-- What finds no colour is a virtual register. -/
theorem Round.IsOf.lt_of_mem_spills {f : Routine} {catalog : Catalog} {coalesce : Bool}
    {retired : List Nat}
    {l : Liveness (f.numbering catalog).size
      (Flow.sites (reachedCode f.blocks (.ofBlocks f.blocks))).length}
    {round : Round (f.numbering catalog).size} (h : round.IsOf f catalog coalesce retired l)
    {v : Nat} (hv : v ∈ round.spills) : v < f.vregCount := by
  obtain ⟨s, hdone, hsel⟩ := h.exists_isDone
  have hsound := hdone.settled.sound
  obtain ⟨u, hu, rfl⟩ := List.mem_map.1 (List.mem_mergeSort.1 hv)
  rw [hsel.mem_spilled] at hu
  have hstack : u ∈ s.work.stack := by
    by_contra hstack
    rw [hsel.node_eq u hstack] at hu
    exact hsound.not_spilled u hu
  have hpre : s.graph.isPrecoloured u = false := by
    refine hsound.not_isPrecoloured ?_
    rw [(hsound.mirror.mem_stack u).1 hstack]
    simp
  rw [Graph.isPrecoloured, decide_eq_false_iff_not, not_le] at hpre
  rwa [hdone.grows.virtuals, Colouring.start, h.virtuals] at hpre

end RegAlloc

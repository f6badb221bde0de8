import Mathlib
import RegAlloc.Proofs.Spilled
import RegAlloc.Proofs.Spill.Rounds

/-!
# The record of the spills

What a run of the allocator spills, over all its rounds. Only registers that occur in the code are
spilled, and what has been spilled does not occur any more, so no register is spilled twice.
Whatever spill code adds is numbered behind all that was there. A temporary stands for a register
that stands for no other, however many temporaries there are between them.
-/

namespace RegAlloc

namespace Spilling

variable {σ : Type} [SlotStore σ] {order : SlotOrder} {settings : Settings} {catalog : Catalog}
  {w w' : Spilling σ} {spills : List Nat} {slots : List (Nat × Slot)} {n : Nat}

/-! ## What comes later -/

/-- The code and the record of a later state, by those of an earlier one. -/
structure Precedes (w w' : Spilling σ) : Prop where
  vregCount_le : w.routine.vregCount ≤ w'.routine.vregCount
  /-- What is not in the earlier code has a number behind its registers. -/
  mentions : ∀ v, w'.routine.Mentions (.virt v) →
    w.routine.Mentions (.virt v) ∨ w.routine.vregCount ≤ v
  retired_subset : w.record.retired ⊆ w'.record.retired
  spilled_subset : w.record.spilled ⊆ w'.record.spilled

omit [SlotStore σ] in
theorem Precedes.refl (w : Spilling σ) : w.Precedes w :=
  ⟨le_rfl, fun _ ↦ .inl, List.Subset.refl _, List.Subset.refl _⟩

omit [SlotStore σ] in
theorem Precedes.trans {w₁ w₂ w₃ : Spilling σ} (h₁ : w₁.Precedes w₂) (h₂ : w₂.Precedes w₃) :
    w₁.Precedes w₃ where
  vregCount_le := h₁.vregCount_le.trans h₂.vregCount_le
  mentions v hv := by
    rcases h₂.mentions v hv with hv | hv
    · exact h₁.mentions v hv
    · exact .inr (h₁.vregCount_le.trans hv)
  retired_subset := List.Subset.trans h₁.retired_subset h₂.retired_subset
  spilled_subset := List.Subset.trans h₁.spilled_subset h₂.spilled_subset

theorem Spills.mem_spilled (hs : Spills catalog w spills slots w') {o : Nat} :
    o ∈ w'.record.spilled ↔ o ∈ w.record.spilled ∨ ∃ v ∈ spills, w.record.owner v = o := by
  rw [hs.spilled, mem_foldl_addNew, List.mem_map]

theorem Spills.precedes (hs : Spills catalog w spills slots w') : w.Precedes w' where
  vregCount_le := hs.vregCount_le
  mentions := by
    rintro v ⟨j, hj, hv⟩
    rcases hs.mem_regs hj hv with he | ⟨i, hi, hv, -⟩ | ⟨t, he, ht, -⟩
    · cases he
    · exact .inl ⟨i, hi, hv⟩
    · cases he
      exact .inr ht
  retired_subset := by
    rw [hs.retired]
    exact List.subset_append_right _ _
  spilled_subset o ho := hs.mem_spilled.2 (.inl ho)

theorem Visits.precedes {number : Nat} {attempts : List Attempt}
    (h : Visits order settings catalog number w attempts w') : w.Precedes w' := by
  induction h with
  | start => exact .refl w
  | next _ _ _ _ hspill ih => exact ih.trans (spills_of_spill hspill).precedes

/-! ## What the record says -/

/-- The record of a state is that of the rounds before it, which are numbered from one on. -/
structure Accounts (order : SlotOrder) (attempts : List Attempt) (w : Spilling σ) : Prop where
  spills_ne_nil : ∀ a ∈ attempts, a.round.spills ≠ []
  /-- No register is spilled twice. -/
  nodup : (allSpills attempts).Nodup
  mem_retired : ∀ v, v ∈ w.record.retired ↔ v ∈ allSpills attempts
  not_mentions : ∀ v ∈ w.record.retired, ¬w.routine.Mentions (.virt v)
  /-- What lives in a slot is what the retired registers stand for. -/
  mem_spilled : ∀ o, o ∈ w.record.spilled ↔ ∃ v ∈ w.record.retired, w.record.owner v = o
  /-- The slots were asked for in the names of the owners. -/
  slots_eq : ∀ k a, attempts[k]? = some a →
    a.slots.map Prod.fst = (order.arrange (1 + k) a.round.spills).map w.record.owner
  owner_owner : ∀ v, w.record.owner (w.record.owner v) = w.record.owner v

omit [SlotStore σ] in
theorem accounts_start (order : SlotOrder) (f : Routine) (store : σ) :
    Accounts order [] { routine := f, store } where
  spills_ne_nil := by simp
  nodup := by simp [allSpills]
  mem_retired := by simp [allSpills]
  not_mentions := by simp
  mem_spilled := by simp
  slots_eq := by simp
  owner_owner _ := rfl

omit [SlotStore σ] in
theorem IsReserved.owner_owner (h : w.IsReserved n) (v : Nat) :
    w.record.owner (w.record.owner v) = w.record.owner v := by
  have hnone : w.record.owners.lookup (w.record.owner v) = none :=
    h.isInOrder.lookup_getD_lookup v
  rw [SpillRecord.owner, hnone, Option.getD_none]

/-- One more round that spills registers of the code, each of them once. -/
theorem Accounts.spill {attempts : List Attempt} (h : w.Accounts order attempts)
    (hlt : ∀ v ∈ w.record.retired, v < w.routine.vregCount) (attempt : Attempt)
    (hs : Spills catalog w (order.arrange (1 + attempts.length) attempt.round.spills) slots w')
    (hw' : w'.IsReserved n)
    (hne : attempt.round.spills ≠ []) (hnd : attempt.round.spills.Nodup)
    (hocc : ∀ v ∈ attempt.round.spills, v ∈ w.routine.occurring)
    (hspills : ∀ v ∈ attempt.round.spills, v < w.routine.vregCount)
    (hslots : attempt.slots = slots.map fun p ↦ (w.record.owner p.1, p.2)) :
    w'.Accounts order (attempts ++ [attempt]) := by
  have hall : allSpills (attempts ++ [attempt]) = allSpills attempts ++ attempt.round.spills := by
    simp [allSpills]
  have hretired : ∀ v, v ∈ w'.record.retired ↔
      v ∈ w.record.retired ∨ v ∈ attempt.round.spills := by
    intro v
    rw [hs.retired, List.mem_append, order.mem_arrange, or_comm]
  have hlt' : ∀ v ∈ w'.record.retired, v < w.routine.vregCount :=
    fun v hv ↦ ((hretired v).1 hv).elim (hlt v) (hspills v)
  have hnot : ∀ v ∈ w.routine.occurring, v ∉ w.record.retired :=
    fun v hv hret ↦ h.not_mentions v hret (Routine.mem_occurring.1 hv)
  constructor
  · intro a ha
    rcases List.mem_append.1 ha with ha | ha
    · exact h.spills_ne_nil a ha
    · rwa [List.mem_singleton.1 ha]
  · rw [hall, List.nodup_append]
    refine ⟨h.nodup, hnd, ?_⟩
    rintro v hv _ hv' rfl
    exact hnot v (hocc v hv') ((h.mem_retired v).2 hv)
  · intro v
    rw [hretired, hall, List.mem_append, h.mem_retired]
  · intro v hv hmen
    exact hs.not_retired hlt' hnot v (Routine.mem_occurring.2 hmen) hv
  · intro o
    rw [hs.mem_spilled, h.mem_spilled]
    constructor
    · rintro (⟨v, hv, rfl⟩ | ⟨v, hv, rfl⟩)
      · exact ⟨v, (hretired v).2 (.inl hv), SpillsTo.owner_eq hs (hlt v hv)⟩
      · rw [order.mem_arrange] at hv
        exact ⟨v, (hretired v).2 (.inr hv), SpillsTo.owner_eq hs (hspills v hv)⟩
    · rintro ⟨v, hv, rfl⟩
      rw [SpillsTo.owner_eq hs (hlt' v hv)]
      rcases (hretired v).1 hv with hv | hv
      · exact .inl ⟨v, hv, rfl⟩
      · exact .inr ⟨v, order.mem_arrange.2 hv, rfl⟩
  · intro k a ha
    have howner : (order.arrange (1 + k) a.round.spills).map w'.record.owner =
        (order.arrange (1 + k) a.round.spills).map w.record.owner := by
      refine List.map_congr_left fun v hv ↦ SpillsTo.owner_eq hs (hlt' v ?_)
      rw [hretired, h.mem_retired, ← List.mem_append, ← hall]
      exact List.mem_flatMap.2 ⟨a, List.mem_of_getElem? ha, order.mem_arrange.1 hv⟩
    rw [howner]
    by_cases hk : k < attempts.length
    · rw [List.getElem?_append_left hk] at ha
      exact h.slots_eq k a ha
    · rw [List.getElem?_append_right (not_lt.1 hk), List.getElem?_singleton] at ha
      split at ha
      · cases ha
        obtain rfl : k = attempts.length := by omega
        rw [hslots, ← hs.map_fst, List.map_map, List.map_map]
        rfl
      · cases ha
  · exact hw'.owner_owner

/-- All that the rounds keep. -/
theorem Visits.accounts {f : Routine} {store : σ} {attempts : List Attempt}
    (h : Visits order settings catalog 1 { routine := f, store } attempts w)
    (hk : 0 < catalog.colourCount)
    (hold : ∀ i ∈ f.instrs, ∀ ρ ∈ i.uses ++ i.defs, ρ.IsOld f.vregCount) :
    w.Accounts order attempts ∧ w.IsReserved f.vregCount ∧
      ∀ v ∈ w.record.retired, v < w.routine.vregCount := by
  induction h with
  | start =>
    exact ⟨accounts_start order f store, ⟨hold, ⟨le_rfl, by simp, by simp⟩⟩, by simp⟩
  | @next attempts w₁ w₂ g round slots _ hg hround hspills hspill ih =>
    obtain ⟨hacc, hres, hlt⟩ := ih
    obtain ⟨-, rfl⟩ := Routine.blockGraph_eq_ok hg
    obtain ⟨hnd, hocc⟩ := Routine.spills_of_round hround hk
    have hs := spills_of_spill hspill
    have hres' := hres.spill hs
    have hnew : ∀ v ∈ round.spills, v < w₁.routine.vregCount :=
      fun v ↦ (Routine.isOf_solve hround).lt_of_mem_spills
    have hne : round.spills ≠ [] := by simpa using hspills
    refine ⟨hacc.spill hlt ⟨_, round, _⟩ hs hres' hne hnd hocc hnew rfl, hres', ?_⟩
    intro v hv
    rw [hs.retired] at hv
    rcases List.mem_append.1 hv with hv | hv
    · exact (hnew v (order.mem_arrange.1 hv)).trans_le hs.vregCount_le
    · exact (hlt v hv).trans_le hs.vregCount_le

/-- The books of a run are kept. In all the states between its rounds, the record is that of the
rounds before: each of them has spilled something, no register is spilled twice, none that is
spilled is mentioned again, and who owns a register owns itself. What the code of later states
mentions besides is numbered behind what was there, and what lives in a slot stays there. These are
the states that the run comes through, and it ends in one of them unless it faults. -/
theorem accounts_of_allocate {names calleeSaved callerSaved : List String} {frameBase : String}
    (hcat : Catalog.ofNames? names calleeSaved callerSaved frameBase = .ok catalog) {f : Routine}
    (hold : ∀ i ∈ f.instrs, ∀ ρ ∈ i.uses ++ i.defs, ρ.IsOld f.vregCount) (order : SlotOrder)
    (store : σ) (settings : Settings) :
    (∀ attempts w, Visits order settings catalog 1 { routine := f, store } attempts w →
      w.Accounts order attempts ∧
      (∀ later w', Visits order settings catalog (1 + attempts.length) w later w' →
        w.Precedes w' ∧ ∀ v ∈ w.record.retired, ¬w'.routine.Mentions (.virt v)) ∧
      (f.blocks ≠ [] → ∀ left, left + attempts.length = settings.maxRounds →
        f.allocate order store catalog settings =
          rounds order settings catalog left (1 + attempts.length) attempts w)) ∧
    ∀ outcome, f.blocks ≠ [] → f.allocate order store catalog settings = .ok outcome →
      ∃ attempts w, Visits order settings catalog 1 { routine := f, store } attempts w ∧
        attempts.length ≤ settings.maxRounds ∧ Ends settings catalog attempts w outcome := by
  have hk := (Catalog.isMade_of_ofNames? hcat).colourCount_pos
  refine ⟨fun attempts w hw ↦ ⟨(hw.accounts hk hold).1, fun later w' hw' ↦ ?_,
    hw.allocate_eq_rounds⟩, fun outcome ↦ exists_visits_of_allocate⟩
  have hpre := hw'.precedes
  refine ⟨hpre, fun v hv ↦ ?_⟩
  exact ((hw.trans hw').accounts hk hold).1.not_mentions v (hpre.retired_subset hv)

/-- The register is spilled in the first round, and its two temporaries belong to it. -/
theorem accounts_of_acrossCall :
    (∀ i ∈ Function.acrossCall.instrs, ∀ ρ ∈ i.uses ++ i.defs,
      ρ.IsOld Function.acrossCall.vregCount) ∧
    ∃ attempts w, Visits .ascending { maxRounds := 2 } .oneColour 1
        { routine := Function.acrossCall.toRoutine, store := Function.acrossCall.frame }
        attempts w ∧
      allSpills attempts = [0] ∧ [1, 2].map w.record.owner = [0, 0] ∧
      w.Accounts .ascending attempts := by
  have hold : ∀ i ∈ Function.acrossCall.instrs, ∀ ρ ∈ i.uses ++ i.defs,
      ρ.IsOld Function.acrossCall.vregCount := by
    decide
  have hreplay : (replay .ascending { maxRounds := 2 } .oneColour 1 [[0]]
      { routine := Function.acrossCall.toRoutine, store := Function.acrossCall.frame }).map
        (fun w ↦ [1, 2].map w.record.owner) = some [0, 0] := by
    decide +kernel
  obtain ⟨w, hw, howner⟩ := Option.map_eq_some_iff.1 hreplay
  obtain ⟨attempts, hvisits, -, hall⟩ := exists_visits_of_replay hw
  exact ⟨hold, attempts, w, hvisits, hall, howner,
    ((accounts_of_allocate Catalog.ofNames?_oneColour hold _ _ _).1 _ _ hvisits).1⟩

end Spilling

end RegAlloc

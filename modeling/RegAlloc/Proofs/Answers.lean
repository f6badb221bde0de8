import Mathlib
import RegAlloc.Proofs.Labels
import RegAlloc.Proofs.Spill.Record

/-!
# What an allocation answers

An allocation is refused before its first round, if there are no blocks or a label is missing, or it
goes through its rounds. Since spilling changes no label and no target, nothing is refused between
rounds. So the run ends with a round that spills nothing, or when no more rounds are allowed, unless
it comes to a round without room for the registers.
-/

namespace RegAlloc

namespace Spilling

variable {σ : Type} [SlotStore σ] {order : SlotOrder} {settings : Settings} {catalog : Catalog}
  {number : Nat} {w w' : Spilling σ} {attempts : List Attempt}

/-! ## What the rounds keep -/

theorem Visits.unknownLabel?_eq (h : Visits order settings catalog number w attempts w') :
    unknownLabel? w'.routine.blocks = unknownLabel? w.routine.blocks := by
  induction h with
  | start => rfl
  | next _ _ _ _ hspill ih => exact (spills_of_spill hspill).unknownLabel?_eq.trans ih

theorem Visits.name_eq (h : Visits order settings catalog number w attempts w') :
    w'.routine.name = w.routine.name := by
  induction h with
  | start => rfl
  | next _ _ _ _ hspill ih => exact (name_of_spill hspill).trans ih

theorem Visits.exists_blockGraph (h : Visits order settings catalog number w attempts w')
    (hknown : unknownLabel? w.routine.blocks = none) : ∃ g, w'.routine.blockGraph = .ok g := by
  rw [Routine.blockGraph, h.unknownLabel?_eq, hknown]
  exact ⟨_, rfl⟩

/-- There is no round without a block graph, so after a round all the labels are known. -/
theorem Visits.unknownLabel?_eq_none (h : Visits order settings catalog number w attempts w')
    (hne : attempts ≠ []) : unknownLabel? w.routine.blocks = none := by
  cases h with
  | start => exact absurd rfl hne
  | next h hg _ _ _ => exact h.unknownLabel?_eq.symm.trans (Routine.blockGraph_eq_ok hg).1

/-! ## Slots -/

/-- In one of the rounds a store is asked for the slot of a register of the given size. -/
inductive Requests (order : SlotOrder) (settings : Settings) (catalog : Catalog)
    (w : Spilling σ) : σ → (v size : Nat) → Prop
  | mk {attempts : List Attempt} {w' : Spilling σ} {g : BlockGraph w'.routine.blocks.length}
    {round : Round (w'.routine.numbering catalog).size} {vs : List Nat} {v : Nat}
    {slots : List (Nat × Slot)} {store : σ} (hlen : attempts.length < settings.maxRounds)
    (h : Visits order settings catalog 1 w attempts w') (hg : w'.routine.blockGraph = .ok g)
    (hround : w'.routine.round catalog g settings.coalesce w'.record.retired = .ok round)
    (hvs : vs ++ [v] <+: order.arrange (1 + attempts.length) round.spills)
    (hslots : w'.assignSlots vs = .ok (slots, store)) :
    Requests order settings catalog w store (w'.record.owner v)
      (w'.routine.vregSize (w'.record.owner v))

/-- Every slot that is asked for in the rounds is found, at an offset below `2 ^ 31`. -/
def HasLowSlots (order : SlotOrder) (settings : Settings) (catalog : Catalog) (w : Spilling σ) :
    Prop :=
  ∀ store v size, Requests order settings catalog w store v size →
    ∃ offset store', SlotStore.alloc store v size = .ok (offset, store') ∧
      offset < UInt32.size / 2

/-- All the slots are found if each of them is when it is asked for. -/
theorem exists_assignSlots_of_forall {P : Nat → Prop} (vs : List Nat)
    (h : ∀ {us v slots store}, us ++ [v] <+: vs → w.assignSlots us = .ok (slots, store) →
      ∃ offset store', SlotStore.alloc store (w.record.owner v)
        (w.routine.vregSize (w.record.owner v)) = .ok (offset, store') ∧ P offset) :
    ∃ slots store, w.assignSlots vs = .ok (slots, store) ∧ ∀ p ∈ slots, P p.2.offset := by
  induction vs using List.reverseRecOn with
  | nil => exact ⟨[], w.store, rfl, fun p hp ↦ absurd hp List.not_mem_nil⟩
  | append_singleton vs v ih =>
    obtain ⟨slots, store, hslots, hall⟩ :=
      ih fun hus ↦ h (hus.trans (List.prefix_append vs [v]))
    obtain ⟨offset, store', halloc, hoffset⟩ := h List.prefix_rfl hslots
    refine ⟨_, store', mapAccumM_concat hslots (bind_eq_ok_iff.2 ⟨_, halloc, rfl⟩), ?_⟩
    intro p hp
    rcases List.mem_append.1 hp with hp | hp
    · exact hall p hp
    · rw [List.mem_singleton.1 hp]
      exact hoffset

/-- Without room there is no round, and the run stays where it starts. -/
theorem Visits.eq_of_not_hasRoom (h : Visits order settings catalog number w attempts w')
    (hroom : ¬w.routine.HasRoom catalog) : w' = w := by
  induction h with
  | start => rfl
  | next _ _ hround _ _ ih => exact absurd (ih ▸ Routine.hasRoom_of_round hround) hroom

/-- So no slots are asked for. -/
theorem hasLowSlots_of_not_hasRoom (hroom : ¬w.routine.HasRoom catalog) :
    HasLowSlots order settings catalog w := by
  rintro _ _ _ ⟨-, hw, -, hround, -, -⟩
  obtain rfl := hw.eq_of_not_hasRoom hroom
  exact absurd (Routine.hasRoom_of_round hround) hroom

end Spilling

namespace Routine

open Spilling

variable {σ : Type} [SlotStore σ] {order : SlotOrder} {settings : Settings} {catalog : Catalog}
  {f : Routine} {store : σ}

/-! ## The last state -/

/-- A run goes on from each of its states until there is no room for a round, a round spills
nothing, or no more are allowed. -/
theorem exists_last (hc : catalog.WellFormed) (hf : f.IsOver catalog)
    (hknown : unknownLabel? f.blocks = none)
    (hlow : HasLowSlots order settings catalog { routine := f, store })
    {left : Nat} {attempts : List Attempt} {w : Spilling σ}
    (hw : Visits order settings catalog 1 { routine := f, store } attempts w)
    (hleft : attempts.length + left = settings.maxRounds) :
    ∃ attempts w, Visits order settings catalog 1 { routine := f, store } attempts w ∧
      (attempts.length = settings.maxRounds ∨ (attempts.length < settings.maxRounds ∧
        ∃ g, w.routine.blockGraph = .ok g ∧ (¬w.routine.HasRoom catalog ∨ ∃ round,
          w.routine.round catalog g settings.coalesce w.record.retired = .ok round ∧
          round.spills = []))) := by
  induction left generalizing attempts w with
  | zero => exact ⟨attempts, w, hw, .inl hleft⟩
  | succ left ih =>
    obtain ⟨g, hg⟩ := hw.exists_blockGraph hknown
    by_cases hroom : w.routine.HasRoom catalog
    · obtain ⟨round, hround⟩ := (hw.isInOrder hc (isInOrder_start hf store)).isOver.exists_round hc
        hroom g settings.coalesce w.record.retired
      cases hspills : round.spills.isEmpty with
      | true =>
        refine ⟨attempts, w, hw, .inr ⟨by omega, g, hg, .inr ⟨round, hround, ?_⟩⟩⟩
        exact List.isEmpty_iff.1 hspills
      | false =>
        obtain ⟨slots, store', hslots, hoffset⟩ := exists_assignSlots_of_forall
          (order.arrange (1 + attempts.length) round.spills)
          fun hus hslots ↦ hlow _ _ _ (.mk (by omega) hw hg hround hus hslots)
        obtain ⟨w', hspill⟩ := exists_spill hslots
          (fun p hp ↦ ofNat_ne_minValue_of_lt (hoffset p hp)) catalog
        refine ih (hw.next hg hround hspills hspill) ?_
        rw [List.length_append, List.length_singleton]
        omega
    · exact ⟨attempts, w, hw, .inr ⟨by omega, g, hg, .inl hroom⟩⟩

/-- How a run with known labels ends. -/
theorem exists_ends (hc : catalog.WellFormed) (hf : f.IsOver catalog) (hblocks : f.blocks ≠ [])
    (hknown : unknownLabel? f.blocks = none)
    (hlow : HasLowSlots order settings catalog { routine := f, store }) :
    (¬StaysRoomy order settings catalog { routine := f, store } ∧
      f.allocate order store catalog settings = .error .overflow) ∨
    ∃ outcome attempts w, f.allocate order store catalog settings = .ok outcome ∧
      Visits order settings catalog 1 { routine := f, store } attempts w ∧
      Ends settings catalog attempts w outcome ∧
      ((∃ report, outcome.result = .ok report ∧ report.rounds = attempts.length + 1 ∧
        report.rounds ≤ settings.maxRounds) ∨
      (outcome.result = .error (.spillDidNotConverge f.name settings.maxRounds) ∧
        attempts.length = settings.maxRounds)) := by
  obtain ⟨attempts, w, hw, hlast⟩ := exists_last hc hf hknown hlow .start (Nat.zero_add _)
  have horder := hw.isInOrder hc (isInOrder_start hf store)
  rcases hlast with hlen | ⟨hlen, g, hg, hroom | ⟨round, hround, hspills⟩⟩
  · have hrounds := hw.allocate_eq_rounds hblocks 0 (by omega)
    refine .inr ⟨_, attempts, w, hrounds, hw, .error _, .inr ⟨?_, hlen⟩⟩
    rw [← hw.name_eq]
  · exact .inl ⟨fun hroomy ↦ hroom (hroomy _ _ hw hlen),
      hw.allocate_eq_overflow hblocks hlen hc horder.isOver hroom hg⟩
  · obtain ⟨⟨routine, report⟩, hcommit⟩ := horder.exists_commit hc hg hround hspills
      (1 + attempts.length)
    have hnumber : report.rounds = 1 + attempts.length := by
      obtain ⟨_, -, he⟩ := bind_eq_ok_iff.1 hcommit
      cases he
      rfl
    refine .inr ⟨_, attempts, w, hw.allocate_eq hblocks hlen hg hround hspills hcommit, hw,
      .commit hg hround hspills hcommit, .inl ⟨report, rfl, ?_, ?_⟩⟩
    all_goals omega

/-- A label that no block has is reported before anything is changed. -/
theorem allocate_of_unknownLabel? {label : String} (hlabel : unknownLabel? f.blocks = some label)
    (hmax : 1 ≤ settings.maxRounds) :
    f.allocate order store catalog settings = .ok
      { routine := f, store, result := .error (.unknownLabel f.name label), attempts := [] } := by
  obtain ⟨left, hleft⟩ := Nat.exists_eq_add_of_le' hmax
  have hg : f.blockGraph = .error (.unknownLabel f.name label) := by
    rw [blockGraph, hlabel]
  rw [allocate_eq_rounds (ne_nil_of_unknownLabel? hlabel), hleft, rounds]
  simp only [hg]

theorem allocate_of_blocks_eq_nil (hblocks : f.blocks = []) :
    f.allocate order store catalog settings = .ok
      { routine := f, store, result := .error (.emptyFunction f.name), attempts := [] } := by
  rw [allocate, hblocks]
  rfl

/-- What is answered, with any store of slots whose offsets stay below `2 ^ 31`, unless there is no
room for the registers in one of the rounds and the run ends with an overflow. A function without
blocks is refused, and so is one with a stray branch or jump, the first of which is reported while
the function and the store are as they were. After a round there are no stray ones. All other
functions get their registers after as many rounds of spilling as were made before the last round,
or are given up after as many as are allowed. -/
theorem answers_of_allocate {names calleeSaved callerSaved : List String} {frameBase : String}
    (hcat : Catalog.ofNames? names calleeSaved callerSaved frameBase = .ok catalog)
    (hf : f.IsOver catalog) (order : SlotOrder) (store : σ) (settings : Settings)
    (hmax : 1 ≤ settings.maxRounds)
    (hlow : HasLowSlots order settings catalog { routine := f, store }) :
    (¬StaysRoomy order settings catalog { routine := f, store } ∧
      f.allocate order store catalog settings = .error .overflow) ∨
    ∃ outcome, f.allocate order store catalog settings = .ok outcome ∧
      ((∃ name, outcome.result = .error (.emptyFunction name)) ↔ f.blocks = []) ∧
      ((∃ name label, outcome.result = .error (.unknownLabel name label)) ↔
        ∃ x label, IsStray f.blocks x label) ∧
      (∀ name label, outcome.result = .error (.unknownLabel name label) →
        name = f.name ∧ IsFirstStray f.blocks label ∧
          outcome.routine = f ∧ outcome.store = store ∧ outcome.attempts = []) ∧
      (∀ attempts w, Visits order settings catalog 1 { routine := f, store } attempts w →
        attempts ≠ [] → ∃ g, w.routine.blockGraph = .ok g) ∧
      (f.blocks ≠ [] → (∀ x label, ¬IsStray f.blocks x label) →
        ∃ attempts w, Visits order settings catalog 1 { routine := f, store } attempts w ∧
          Ends settings catalog attempts w outcome ∧
          ((∃ report, outcome.result = .ok report ∧ 1 ≤ report.rounds ∧
              report.rounds ≤ settings.maxRounds ∧ attempts.length = report.rounds - 1) ∨
            (outcome.result = .error (.spillDidNotConverge f.name settings.maxRounds) ∧
              attempts.length = settings.maxRounds))) := by
  have hc := Catalog.wellFormed_of_ofNames? hcat
  have hvisits : ∀ attempts w, Visits order settings catalog 1 { routine := f, store } attempts w →
      attempts ≠ [] → ∃ g, w.routine.blockGraph = .ok g :=
    fun attempts w hw hne ↦ hw.exists_blockGraph (hw.unknownLabel?_eq_none hne)
  cases hlabel : unknownLabel? f.blocks with
  | some label =>
    obtain ⟨x, hstray, hmin⟩ := unknownLabel?_eq_some_iff.1 hlabel
    refine .inr ⟨_, allocate_of_unknownLabel? hlabel hmax,
      ⟨?_, fun hnil ↦ absurd hnil (ne_nil_of_unknownLabel? hlabel)⟩,
      ⟨fun _ ↦ ⟨x, label, hstray⟩, fun _ ↦ ⟨f.name, label, rfl⟩⟩, ?_, hvisits,
      fun _ hnone ↦ absurd hstray (hnone x label)⟩
    · rintro ⟨name, he⟩
      cases he
    · intro name label' he
      cases he
      exact ⟨rfl, ⟨x, hstray, hmin⟩, rfl, rfl, rfl⟩
  | none =>
    have hnone := unknownLabel?_eq_none_iff.1 hlabel
    by_cases hblocks : f.blocks = []
    · refine .inr ⟨_, allocate_of_blocks_eq_nil hblocks,
        ⟨fun _ ↦ hblocks, fun _ ↦ ⟨f.name, rfl⟩⟩, ⟨?_, ?_⟩, ?_, hvisits,
        fun hne ↦ absurd hblocks hne⟩
      · rintro ⟨name, label, he⟩
        cases he
      · rintro ⟨x, label, hstray⟩
        exact absurd hstray (hnone x label)
      · intro name label he
        cases he
    · refine (exists_ends hc hf hblocks hlabel hlow).imp_right ?_
      rintro ⟨outcome, attempts, w, hok, hw, hends, hresult⟩
      have hnot : ∀ e, outcome.result = .error e →
          e = .spillDidNotConverge f.name settings.maxRounds := by
        intro e he
        rcases hresult with ⟨report, hr, -⟩ | ⟨hr, -⟩
        · rw [hr] at he
          cases he
        · rw [hr] at he
          cases he
          rfl
      refine ⟨outcome, hok, ⟨?_, fun hnil ↦ absurd hnil hblocks⟩, ⟨?_, ?_⟩, ?_, hvisits,
        fun _ _ ↦ ⟨attempts, w, hw, hends, hresult.imp_left ?_⟩⟩
      · rintro ⟨name, he⟩
        cases hnot _ he
      · rintro ⟨name, label, he⟩
        cases hnot _ he
      · rintro ⟨x, label, hstray⟩
        exact absurd hstray (hnone x label)
      · intro name label he
        cases hnot _ he
      · rintro ⟨report, hr, hnumber, hle⟩
        exact ⟨report, hr, by omega, hle, by omega⟩

/-- The first round spills the only register. -/
theorem nextSpills_acrossCall : nextSpills { maxRounds := 1 } .oneColour
    { routine := Function.acrossCall.toRoutine, store := Function.acrossCall.frame } =
      some [0] := by
  decide +kernel

theorem eq_of_requests_acrossCall {store : Frame} {v size : Nat}
    (h : Requests .ascending { maxRounds := 1 } .oneColour
      { routine := Function.acrossCall.toRoutine, store := Function.acrossCall.frame }
      store v size) : store = {} ∧ v = 0 ∧ size = 4 := by
  obtain @⟨attempts, w, g, round, vs, v, slots, store, hlen, hw, hg, hround, hvs, hslots⟩ := h
  obtain rfl := hw.eq_of_length_eq_zero (Nat.lt_one_iff.1 hlen)
  have hspills := nextSpills_eq hg hround
  rw [nextSpills_acrossCall, Option.some.injEq] at hspills
  have hvs' : vs ++ [v] <+: round.spills := hvs
  rw [← hspills] at hvs'
  obtain rfl : vs = [] := by
    have hle := hvs'.length_le
    simpa using hle
  obtain rfl : v = 0 := by simpa using hvs'
  cases hslots
  exact ⟨rfl, rfl, rfl⟩

/-- Given up after the only round that is allowed. -/
theorem answers_of_acrossCall :
    Function.acrossCall.toRoutine.IsOver .oneColour ∧
    ∃ outcome attempts w,
      Function.acrossCall.toRoutine.allocate .ascending Function.acrossCall.frame .oneColour
        { maxRounds := 1 } = .ok outcome ∧
      outcome.result = .error (.spillDidNotConverge "f" 1) ∧
      Visits .ascending { maxRounds := 1 } .oneColour 1
        { routine := Function.acrossCall.toRoutine, store := Function.acrossCall.frame }
        attempts w ∧
      attempts.length = 1 := by
  have hover : Function.acrossCall.toRoutine.IsOver .oneColour := by decide
  have hknown : unknownLabel? Function.acrossCall.blocks = none := rfl
  have hroomy : StaysRoomy .ascending { maxRounds := 1 } .oneColour
      { routine := Function.acrossCall.toRoutine, store := Function.acrossCall.frame } := by
    intro attempts w hw hlen
    obtain rfl := hw.eq_of_length_eq_zero (Nat.lt_one_iff.1 hlen)
    decide
  have hanswers := answers_of_allocate Catalog.ofNames?_oneColour hover .ascending
    Function.acrossCall.frame { maxRounds := 1 } le_rfl fun store v size h ↦ by
      obtain ⟨rfl, rfl, rfl⟩ := eq_of_requests_acrossCall h
      exact ⟨4, _, rfl, by decide⟩
  obtain ⟨outcome, hok, -, -, -, -, hrest⟩ := hanswers.resolve_left fun h ↦ h.1 hroomy
  obtain ⟨attempts, w, hw, hends, hor⟩ :=
    hrest (by decide) (unknownLabel?_eq_none_iff.1 hknown)
  rcases hor with ⟨report, hr, -, hle, hlen⟩ | ⟨hr, hlen⟩
  · -- the first round is not the last one
    have hle : report.rounds ≤ 1 := hle
    obtain rfl := hw.eq_of_length_eq_zero (by omega)
    cases hends with
    | error e => cases hr
    | commit hg hround hspills hcommit =>
      have hnext := nextSpills_eq hg hround
      rw [nextSpills_acrossCall, hspills] at hnext
      cases hnext
  · exact ⟨hover, outcome, attempts, w, hok, hr, hw, hlen⟩

/-- Low offsets are not enough: this function has no stray branches, and no slots are asked for, but
there is no room for its registers. -/
theorem overflow_of_reread_writesOnly :
    (Function.writesOnly 2147483647).reread.IsOver .oneColour ∧
    (Function.writesOnly 2147483647).reread.blocks ≠ [] ∧
    (∀ x label, ¬IsStray (Function.writesOnly 2147483647).reread.blocks x label) ∧
    ∀ order store settings, 1 ≤ settings.maxRounds →
      HasLowSlots order settings .oneColour
        { routine := (Function.writesOnly 2147483647).reread.toRoutine, store := (store : Frame) } ∧
      (Function.writesOnly 2147483647).reread.toRoutine.allocate order store .oneColour settings =
        .error .overflow := by
  have hknown : unknownLabel? (Function.writesOnly 2147483647).blocks = none := rfl
  rw [Function.blocks_reread_writesOnly]
  refine ⟨Function.isOver_reread_writesOnly _, List.cons_ne_nil _ _,
    unknownLabel?_eq_none_iff.1 hknown, fun order store settings hmax ↦ ⟨?_, ?_⟩⟩
  · exact hasLowSlots_of_not_hasRoom (Function.not_hasRoom_reread_writesOnly (by decide))
  · exact Function.allocate_reread_writesOnly (by decide) order store hmax

end Routine

end RegAlloc

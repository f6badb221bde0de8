import Mathlib
import RegAlloc.Allocation.Program
import RegAlloc.Proofs.Frame
import RegAlloc.Proofs.Reading.Program
import RegAlloc.Proofs.Visits

/-!
# Allocation ends without a fault

A routine over reserved registers can be coloured in each round as long as there is room for its
registers, and a colouring without spills can be committed, since no retired register occurs. What
remains are the offsets of the slots, which have to fit into the signed words of the machine.

There is room for fewer than `2 ^ 31` registers. A function that is read may have more of them, and
is then neither allocated nor refused.
-/

namespace RegAlloc

namespace Spilling

variable {σ : Type} [SlotStore σ] {order : SlotOrder} {settings : Settings} {catalog : Catalog}
  {w w' : Spilling σ} {attempts : List Attempt}

/-- In all the rounds there is room for the registers. -/
def StaysRoomy (order : SlotOrder) (settings : Settings) (catalog : Catalog) (w : Spilling σ) :
    Prop :=
  ∀ attempts w', Visits order settings catalog 1 w attempts w' →
    attempts.length < settings.maxRounds → w'.routine.HasRoom catalog

/-- The rounds end if there is room for the registers of every round, and if its slots are found and
can be addressed. -/
theorem exists_rounds {w₀ : Spilling σ} (hc : catalog.WellFormed) (hw₀ : w₀.IsInOrder catalog)
    (hroom : StaysRoomy order settings catalog w₀)
    (hslots : ∀ {attempts w' g round}, attempts.length < settings.maxRounds →
      Visits order settings catalog 1 w₀ attempts w' → w'.routine.blockGraph = .ok g →
      w'.routine.round catalog g settings.coalesce w'.record.retired = .ok round →
      ∃ slots store, w'.assignSlots (order.arrange (1 + attempts.length) round.spills) =
          .ok (slots, store) ∧
        ∀ p ∈ slots, Int32.ofNat p.2.offset ≠ Int32.minValue)
    {left : Nat} (hleft : attempts.length + left = settings.maxRounds)
    (hw : Visits order settings catalog 1 w₀ attempts w) (before : List Attempt) :
    ∃ outcome, rounds order settings catalog left (1 + attempts.length) before w =
      .ok outcome := by
  induction left generalizing attempts w before with
  | zero => exact ⟨_, rfl⟩
  | succ left ih =>
    have hlt : attempts.length < settings.maxRounds := by omega
    have horder := hw.isInOrder hc hw₀
    rw [rounds]
    split
    · exact ⟨_, rfl⟩
    · rename_i g hg
      obtain ⟨round, hround⟩ := horder.isOver.exists_round hc (hroom _ _ hw hlt) g
        settings.coalesce w.record.retired
      refine exists_bind_eq_ok hround ?_
      by_cases hspills : round.spills.isEmpty = true
      · obtain ⟨committed, hcommit⟩ :=
          horder.exists_commit hc hg hround (List.isEmpty_iff.1 hspills) (1 + attempts.length)
        rw [if_pos hspills]
        exact exists_bind_eq_ok hcommit ⟨_, rfl⟩
      · obtain ⟨slots, store, hassign, hoffset⟩ := hslots hlt hw hg hround
        obtain ⟨w', hspill⟩ := exists_spill hassign hoffset catalog
        have hnext := hw.next hg hround (Bool.eq_false_iff.2 hspills) hspill
        have hlen : ∀ a : Attempt, (attempts ++ [a]).length = attempts.length + 1 := by simp
        rw [if_neg hspills]
        refine exists_bind_eq_ok hspill ?_
        have hrest := ih (by rw [hlen]; omega) hnext
        rw [hlen] at hrest
        exact hrest _

/-! ## Slots in a frame -/

/-- An offset that is handed out in one of the rounds, whether or not all the registers of the round
find a slot. -/
inductive HandsOut (order : SlotOrder) (settings : Settings) (catalog : Catalog) (w : Spilling σ)
    (offset : Nat) : Prop
  | mk {attempts : List Attempt} {v size : Nat} {w' : Spilling σ}
    {g : BlockGraph w'.routine.blocks.length} {round : Round (w'.routine.numbering catalog).size}
    {vs : List Nat} {slots : List (Nat × Slot)} {store : σ}
    (hlen : attempts.length < settings.maxRounds)
    (hw : Visits order settings catalog 1 w attempts w') (hg : w'.routine.blockGraph = .ok g)
    (hround : w'.routine.round catalog g settings.coalesce w'.record.retired = .ok round)
    (hvs : vs <+: order.arrange (1 + attempts.length) round.spills)
    (hslots : w'.assignSlots vs = .ok (slots, store)) (hmem : (v, ⟨offset, size⟩) ∈ slots)

theorem Visits.size_eq_four {number : Nat} (h : Visits order settings catalog number w attempts w')
    (hw : ∀ x ∈ w.routine.sizes, x = 4) : ∀ x ∈ w'.routine.sizes, x = 4 := by
  induction h with
  | start => exact hw
  | next _ _ _ _ hspill ih => exact ((spills_of_spill hspill).size_eq_four ih).2

end Spilling

/-- There is room for one more word in a frame whose size is below half of the range. -/
theorem Frame.exists_alloc {f : Frame} (h : f.size < UInt32.size / 2) (v : Nat) :
    ∃ offset f', f.alloc v 4 = .ok (offset, f') ∧ (f'.size = f.size ∨ f'.size = offset) := by
  have hroom : f.size + 4 + max 4 1 < UInt32.size := by
    rw [UInt32.size] at h ⊢
    omega
  obtain ⟨offset, f', hok⟩ := exists_alloc_iff.2 (.inr hroom)
  refine ⟨offset, f', hok, ?_⟩
  rcases alloc_cases hok with ⟨-, rfl⟩ | ⟨-, -, rfl⟩
  · exact .inl rfl
  · exact .inr rfl

namespace Spilling

variable {order : SlotOrder} {settings : Settings} {catalog : Catalog} {w w' : Spilling Frame}
  {attempts : List Attempt}

/-- The slots are found as long as the offsets that are handed out are low. -/
theorem exists_assignSlots (hsizes : ∀ x ∈ w.routine.sizes, x = 4)
    (hsize : w.store.size < UInt32.size / 2) (vs : List Nat)
    (hlow : ∀ {us slots store}, us <+: vs → w.assignSlots us = .ok (slots, store) →
      ∀ p ∈ slots, p.2.offset < UInt32.size / 2) :
    ∃ slots store, w.assignSlots vs = .ok (slots, store) ∧ store.size < UInt32.size / 2 := by
  induction vs using List.reverseRecOn with
  | nil => exact ⟨[], w.store, rfl, hsize⟩
  | append_singleton vs v ih =>
    obtain ⟨slots, store, hslots, hstore⟩ :=
      ih fun hus ↦ hlow (hus.trans (List.prefix_append vs [v]))
    obtain ⟨offset, store', halloc, hor⟩ := Frame.exists_alloc hstore (w.record.owner v)
    have hstep : w.assignSlots (vs ++ [v]) = .ok (slots ++ [(v, ⟨offset, 4⟩)], store') := by
      refine mapAccumM_concat hslots ?_
      simp only [Routine.vregSize_eq hsizes]
      exact bind_eq_ok_iff.2 ⟨(offset, store'), halloc, rfl⟩
    refine ⟨_, store', hstep, ?_⟩
    rcases hor with he | he
    · rwa [he]
    · rw [he]
      exact hlow List.prefix_rfl hstep (v, ⟨offset, 4⟩) (by simp)

/-- The frame stays below half of the range. -/
theorem Visits.size_lt (h : Visits order settings catalog 1 w attempts w')
    (hsizes : ∀ x ∈ w.routine.sizes, x = 4) (hsize : w.store.size < UInt32.size / 2)
    (hlow : ∀ offset, HandsOut order settings catalog w offset → offset < UInt32.size / 2)
    (hlen : attempts.length ≤ settings.maxRounds) : w'.store.size < UInt32.size / 2 := by
  induction h with
  | start => exact hsize
  | next h hg hround _ hspill ih =>
    rw [List.length_append, List.length_singleton] at hlen
    obtain ⟨slots, store, hslots, hstore⟩ := exists_assignSlots (h.size_eq_four hsizes)
      (ih (by omega)) _ fun hus hus' p hp ↦ hlow _ (.mk (by omega) h hg hround hus hus' hp)
    rw [(spills_of_spill hspill).slots_eq] at hslots
    cases hslots
    exact hstore

end Spilling

/-- Offsets below half of the range are positive as signed numbers. -/
theorem ofNat_ne_minValue_of_lt {offset : Nat} (h : offset < UInt32.size / 2) :
    Int32.ofNat offset ≠ Int32.minValue := by
  refine ofNat_ne_minValue ?_
  rw [UInt32.size] at h ⊢
  omega

/-- Every function that is read, bracketed or not, is allocated or refused, but never faults, as
long as there is room for its registers and the offsets of its slots are below `2 ^ 31`. All the
numbers of registers have 32 bits then. -/
theorem Program.exists_outcome {names calleeSaved callerSaved : List String} {frameBase : String}
    {catalog : Catalog}
    (hcat : Catalog.ofNames? names calleeSaved callerSaved frameBase = .ok catalog) {text : String}
    {program : Program} (hparse : Program.parse catalog text = .ok program) {f : Function}
    (hf : f ∈ program.functions) {routine : Routine}
    (hroutine : routine = f.toRoutine ∨ routine = f.bracket catalog) (order : SlotOrder)
    (settings : Settings)
    (hroom : Spilling.StaysRoomy order settings catalog { routine, store := f.frame })
    (hlow : ∀ offset,
      Spilling.HandsOut order settings catalog { routine, store := f.frame } offset →
        offset < UInt32.size / 2) :
    (∃ outcome, routine.allocate order f.frame catalog settings = .ok outcome) ∧
      ∀ attempts w,
        Spilling.Visits order settings catalog 1 { routine, store := f.frame } attempts w →
        attempts.length < settings.maxRounds → ∀ v ∈ w.routine.occurring, v < UInt32.size := by
  have hc := Catalog.wellFormed_of_ofNames? hcat
  have hread := Program.isRead_of_parse hc hparse f hf
  have hready : routine.IsReady catalog := by
    rcases hroutine with rfl | rfl
    · exact hread.isReady
    · exact hread.isReady.bracket hc
  have horder := Spilling.isInOrder_start hready.isOver f.frame
  have hsize : f.frame.size < UInt32.size / 2 := by
    rw [hread.frame]
    decide
  refine ⟨?_, fun attempts w hw hlen v ↦
    (hw.isInOrder hc horder).lt_of_hasRoom (hroom _ _ hw hlen)⟩
  rw [Routine.allocate]
  split
  · exact ⟨_, rfl⟩
  · refine Spilling.exists_rounds hc horder hroom ?_ (Nat.zero_add _) .start []
    intro attempts w g round hlen hw hg hround
    have hlow' : ∀ {us slots store}, us <+: order.arrange (1 + attempts.length) round.spills →
        w.assignSlots us = .ok (slots, store) → ∀ p ∈ slots, p.2.offset < UInt32.size / 2 :=
      fun hus hslots p hp ↦ hlow _ (.mk hlen hw hg hround hus hslots hp)
    obtain ⟨slots, store, hslots, -⟩ := Spilling.exists_assignSlots
      (hw.size_eq_four hready.sizes) (hw.size_lt hready.sizes hsize hlow hlen.le) _ hlow'
    exact ⟨slots, store, hslots, fun p hp ↦
      ofNat_ne_minValue_of_lt (hlow' List.prefix_rfl hslots p hp)⟩

/-- One register to hand out, which every call clobbers. -/
def Catalog.oneColour : Catalog where
  registers := [⟨0, "fp"⟩, ⟨1, "t0"⟩]
  calleeSaved := []
  callerSaved := [⟨1, "t0"⟩]
  frameBase := ⟨0, "fp"⟩

theorem Catalog.ofNames?_oneColour : ofNames? ["fp", "t0"] [] ["t0"] "fp" = .ok oneColour := by rfl

/-- Keeps a register across a call. -/
def Function.acrossCall : Function where
  name := "f"
  blocks :=
    [⟨"entry", [.li (.virt 0) 1, .call "g" [] [.phys ⟨1, "t0"⟩], .ret [.virt 0] []]⟩]
  sizes := #[4]

/-- The register is spilled in the first round, and nothing in the second one. -/
theorem Function.visits_acrossCall {attempts : List Attempt} {w : Spilling Frame}
    (h : Spilling.Visits .ascending { maxRounds := 2 } .oneColour 1
      { routine := acrossCall.toRoutine, store := acrossCall.frame } attempts w)
    (hlen : attempts.length < 2) :
    w.routine.HasRoom .oneColour ∧
      (w = { routine := acrossCall.toRoutine, store := acrossCall.frame } ∧
          w.nextSpills { maxRounds := 2 } .oneColour = some [0] ∨
        w.nextSpills { maxRounds := 2 } .oneColour = some []) := by
  have hfirst : Spilling.nextSpills { maxRounds := 2 } .oneColour
      { routine := acrossCall.toRoutine, store := acrossCall.frame } = some [0] := by
    decide +kernel
  have hsecond : ((Spilling.spill { routine := acrossCall.toRoutine, store := acrossCall.frame }
      .oneColour [0]).toOption.map fun p ↦
        (p.1.routine.vregCount, p.1.nextSpills { maxRounds := 2 } .oneColour)) =
          some (3, some []) := by
    decide +kernel
  cases h with
  | start => exact ⟨by decide, .inl ⟨rfl, hfirst⟩⟩
  | @next attempts w' _ g round slots hw' hg hround hspills hspill =>
    rw [List.length_append, List.length_singleton] at hlen
    obtain rfl := hw'.eq_of_length_eq_zero (by omega)
    have hnext := Spilling.nextSpills_eq hg hround
    rw [hfirst, Option.some.injEq] at hnext
    have hspill' : Spilling.spill { routine := acrossCall.toRoutine, store := acrossCall.frame }
        .oneColour [0] = .ok (w, slots) := by
      rw [hnext]
      exact hspill
    rw [hspill'] at hsecond
    obtain ⟨hcount, hnil⟩ := Prod.mk.inj (Option.some.inj hsecond)
    refine ⟨?_, .inr hnil⟩
    rw [Routine.HasRoom, Numbering.size, Routine.numbering]
    simp only [hcount]
    decide

theorem Function.offset_eq_of_handsOut {offset : Nat}
    (h : Spilling.HandsOut .ascending { maxRounds := 2 } .oneColour
      { routine := acrossCall.toRoutine, store := acrossCall.frame } offset) : offset = 4 := by
  obtain @⟨attempts, v, size, w, g, round, vs, slots, store, hlen, hw, hg, hround, hvs, hslots,
    hmem⟩ := h
  have hvs' : vs <+: round.spills := hvs
  have hspills := Spilling.nextSpills_eq hg hround
  rcases (visits_acrossCall hw hlen).2 with ⟨rfl, hnext⟩ | hnext
  · rw [hnext, Option.some.injEq] at hspills
    rw [← hspills] at hvs'
    rcases List.prefix_cons_iff.1 hvs' with rfl | ⟨us, rfl, hus⟩
    · cases hslots
      cases hmem
    · rw [List.prefix_nil.1 hus] at hslots
      cases hslots
      cases List.mem_singleton.1 hmem
      rfl
  · rw [hnext, Option.some.injEq] at hspills
    rw [← hspills, List.prefix_nil] at hvs'
    rw [hvs'] at hslots
    cases hslots
    cases hmem

theorem Program.exists_outcome_of_acrossCall :
    Program.parse .oneColour "fn f \x7b\nentry:\nli %0, 1\ncall g()\nret %0\n\x7d" =
      .ok { functions := [.acrossCall] } ∧
    ∃ outcome, Function.acrossCall.toRoutine.allocate .ascending Function.acrossCall.frame
      .oneColour { maxRounds := 2 } = .ok outcome := by
  have hparse : Program.parse .oneColour
      "fn f \x7b\nentry:\nli %0, 1\ncall g()\nret %0\n\x7d" =
        .ok { functions := [.acrossCall] } := by
    decide +kernel
  refine ⟨hparse, (exists_outcome Catalog.ofNames?_oneColour hparse (f := .acrossCall) (by simp)
    (.inl rfl) .ascending _ (fun attempts w hw hlen ↦ (Function.visits_acrossCall hw hlen).1)
    fun offset h ↦ ?_).1⟩
  rw [Function.offset_eq_of_handsOut h]
  decide

/-! ## Functions there is no room for -/

namespace Function

/-- Writes one register. When it is read, all the lower ones are reserved, too. -/
def writesOnly (v : Nat) : Function where
  name := "f"
  blocks := [⟨"entry", [.li (.virt v) 1]⟩]

/-- What can be read with a low register can be read with a high one. -/
theorem isLegible_writesOnly {v : Nat} (hv : v < UInt32.size) :
    (writesOnly v).IsLegible .oneColour := by
  have hparse : Program.parse .oneColour "fn f \x7b\nentry:\nli %0, 1\n\x7d" =
      .ok { functions := [.asRead "f" (writesOnly 0).blocks] } := by
    decide +kernel
  have hlow := ((Program.isLegible_of_parse hparse).2 _ (List.mem_singleton_self _)).toIsLegible
  have hblock := hlow.blocks _ (List.mem_singleton_self _)
  have hlast := (hblock.code _ (List.mem_singleton_self _)).operands (by decide)
  have hreg : (Reg.virt v).IsLegible .oneColour := isLegible_virt _ hv
  refine ⟨hlow.ne_nil, hlow.trimmed, hlow.plain, fun b hb ↦ ?_⟩
  rw [List.mem_singleton.1 hb]
  refine ⟨hblock.ne_nil, hblock.blank, hblock.plain, fun i hi ↦ ?_⟩
  rw [List.mem_singleton.1 hi]
  refine ⟨fun ρ hρ ↦ List.mem_singleton.1 hρ ▸ hreg, trivial,
    fun _ ↦ ⟨fun x hx ↦ ?_, fun he ↦ ?_, hlast.colon⟩⟩
  · rcases List.mem_pair.1 hx with rfl | rfl
    · exact hreg.isOperand
    · exact hlast.isOperand _ (List.mem_cons_of_mem _ (List.mem_singleton_self _))
  · cases (List.cons.inj he).2

theorem vregCount_reread_writesOnly (v : Nat) : (writesOnly v).reread.vregCount = v + 1 := by
  have hreserve : (writesOnly v).reread.vregCount =
      (Routine.reserve { name := "" } v 4).vregCount := rfl
  rw [hreserve, Routine.vregCount_reserve]
  exact Nat.zero_max _

theorem blocks_reread_writesOnly (v : Nat) :
    (writesOnly v).reread.blocks = (writesOnly v).blocks := rfl

theorem isOver_reread_writesOnly (v : Nat) : (writesOnly v).reread.IsOver .oneColour := by
  intro i hi ρ hρ
  have hlt : v < (writesOnly v).reread.vregCount := by
    rw [vregCount_reread_writesOnly]
    exact Nat.lt_succ_self v
  cases List.mem_singleton.1 hi
  cases List.mem_singleton.1 hρ
  exact hlt

theorem not_hasRoom_reread_writesOnly {v : Nat} (hv : UInt32.size / 2 ≤ v + 1) :
    ¬(writesOnly v).reread.HasRoom .oneColour := by
  rw [Routine.HasRoom, Numbering.size, Routine.numbering, vregCount_reread_writesOnly, not_lt]
  exact hv.trans (Nat.le_add_right _ _)

theorem allocate_reread_writesOnly {v : Nat} (hv : UInt32.size / 2 ≤ v + 1) (order : SlotOrder)
    (store : Frame) {settings : Settings} (hmax : 1 ≤ settings.maxRounds) :
    (writesOnly v).reread.toRoutine.allocate order store .oneColour settings =
      .error .overflow := by
  have hstart : Spilling.Visits order settings .oneColour 1
      { routine := (writesOnly v).reread.toRoutine, store } []
      { routine := (writesOnly v).reread.toRoutine, store } := .start
  exact hstart.allocate_eq_overflow (List.cons_ne_nil _ _) hmax
    (Catalog.wellFormed_of_ofNames? Catalog.ofNames?_oneColour) (isOver_reread_writesOnly v)
    (not_hasRoom_reread_writesOnly hv) (g := .ofBlocks _) rfl

end Function

/-- The registers of this function have numbers of 31 bits, but there is no room for them. -/
theorem Program.overflow_of_writesOnly :
    ∃ program f, Program.parse .oneColour "fn f \x7b\nentry:\n\tli %2147483647, 1\n\x7d\n" =
        .ok program ∧ f ∈ program.functions ∧
      f.toRoutine.instrs = [.li (.virt 2147483647) 1] ∧
      2147483647 < UInt32.size - 1 - Catalog.oneColour.size ∧
      ∀ order settings, 1 ≤ settings.maxRounds →
        f.toRoutine.allocate order f.frame .oneColour settings = .error .overflow := by
  have hlegible : Program.IsLegible .oneColour { functions := [.writesOnly 2147483647] } :=
    ⟨fun g hg ↦ absurd hg List.not_mem_nil,
      fun f hf ↦ List.mem_singleton.1 hf ▸ Function.isLegible_writesOnly (by decide)⟩
  have htext : Program.text { functions := [.writesOnly 2147483647] } =
      "fn f \x7b\nentry:\n\tli %2147483647, 1\n\x7d\n" := by
    decide +kernel
  have hparse := hlegible.parse_text
  rw [htext] at hparse
  exact ⟨_, (Function.writesOnly 2147483647).reread, hparse,
    List.mem_map_of_mem (List.mem_singleton_self _), rfl, by decide,
    fun order settings hmax ↦ Function.allocate_reread_writesOnly (by decide) order _ hmax⟩

end RegAlloc

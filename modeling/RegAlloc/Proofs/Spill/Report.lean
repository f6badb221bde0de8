import Mathlib
import RegAlloc.Proofs.Spill.Record

/-!
# Registers that are reported

A temporary belongs to the register that it stands for, and shares its slot. The registers that
spill code takes for addresses belong to no other, though. If one of them is spilled in a later
round, it gets a slot of its own, and is reported beside the registers of the input. That takes a
slot too far from the frame base for a store: without one, all that is reported are registers of the
input.
-/

namespace RegAlloc

/-! ## Fresh registers -/

/-- Stores a register to a slot far away, with the address in `a`. -/
def farStore (frameBase : Reg) (a t : Nat) (slot : Slot) : List Instr :=
  [.li (.virt a) (-Int32.ofNat slot.offset), .arith .add (.virt a) frameBase (.virt a),
    .store (.ofSize slot.size) (.virt t) (.virt a) 0]

section Owned

variable {slots : List (Nat × Slot)} {frameBase : Reg} {known known' : Temporaries}
  {Q : Nat → Prop}

/-- The owners of all the registers so far are among the given ones. -/
structure Temporaries.Owned (Q : Nat → Prop) (known : Temporaries) : Prop where
  isTidy : known.IsTidy
  owner : ∀ v < known.sizes.size, Q ((known.owners.lookup v).getD v)

/-- The registers that the code takes for addresses are among the given ones. -/
def TakesAddresses (slots : List (Nat × Slot)) (frameBase : Reg) (n : Nat) (Q : Nat → Prop)
    (code : List Instr) : Prop :=
  ∀ p ∈ slots, isNear (-Int32.ofNat p.2.offset) = false → ∀ a t, n ≤ a →
    farStore frameBase a t p.2 <:+: code → Q a

theorem TakesAddresses.mono {code code' : List Instr} {n : Nat}
    (h : TakesAddresses slots frameBase n Q code') (hcode : code <:+: code') :
    TakesAddresses slots frameBase n Q code :=
  fun p hp hfar a t ha hstore ↦ h p hp hfar a t ha (hstore.trans hcode)

/-- A fresh register that is no temporary takes an address. -/
theorem SpillsInstr.exists_farStore {i : Instr} {code : List Instr}
    (h : SpillsInstr slots frameBase known i code known') {a : Nat}
    (hle : known.sizes.size + (spilledIn slots i).length ≤ a) (hlt : a < known'.sizes.size) :
    ∃ p ∈ slots, isNear (-Int32.ofNat p.2.offset) = false ∧
      ∃ t, farStore frameBase a t p.2 <:+: code := by
  cases h with
  | @mk loads stores sizes _ hstores =>
    rw [← size_sizesIn] at hle
    obtain ⟨p, hp, store, hmem, sizes₁, sizes₂, hst, hle₁, hlt₁⟩ :=
      hstores.exists_of_lt (c := Array.size) hle hlt
    have hslot := mem_of_lookup_eq_some (mem_spilledAmong.1 hp).2
    cases hst with
    | near => exact absurd hlt₁ (not_lt.2 hle₁)
    | far hfar =>
      rw [Array.size_push] at hlt₁
      obtain rfl : a = sizes₁.size := by omega
      refine ⟨p, hslot, hfar, temporaryIn slots known.sizes.size i p.1, ?_⟩
      exact (List.infix_of_mem_flatten hmem).trans (List.suffix_append _ _).isInfix

theorem SpillsInstr.owned {i : Instr} {code : List Instr} {n : Nat}
    (h : SpillsInstr slots frameBase known i code known') (hknown : known.Owned Q)
    (hn : n ≤ known.sizes.size) (hslots : ∀ p ∈ slots, p.1 < n)
    (hcode : TakesAddresses slots frameBase n Q code) : known'.Owned Q where
  isTidy := h.isTidy hknown.isTidy
  owner v hv := by
    rw [h.owners_eq, List.lookup_append, lookup_ownersIn]
    by_cases hle : known.sizes.size ≤ v
    · rw [if_pos hle]
      by_cases htemp : v < known.sizes.size + (spilledIn slots i).length
      · have hlt : v - known.sizes.size < (spilledIn slots i).length := by omega
        have hmem := List.getElem_mem hlt
        have hslot := mem_of_lookup_eq_some (mem_spilledIn.1 hmem).2
        rw [List.getElem?_eq_getElem hlt, Option.map_some, Option.some_or, Option.getD_some]
        exact hknown.owner _ ((hslots _ hslot).trans_le hn)
      · obtain ⟨p, hp, hfar, t, hstore⟩ := h.exists_farStore (not_lt.1 htemp) hv
        have hnone : known.owners.lookup v = none := by
          rw [List.lookup_eq_none_iff]
          intro q hq
          have := hknown.isTidy q hq
          simp only [bne_iff_ne, ne_eq]
          omega
        rw [List.getElem?_eq_none (by omega), hnone]
        exact hcode p hp hfar v t (hn.trans hle) hstore
    · rw [if_neg hle, Option.none_or]
      exact hknown.owner v (not_le.1 hle)

theorem SpillsBlock.owned {b b' : Block} {n : Nat}
    (h : SpillsBlock slots frameBase known b b' known') (hknown : known.Owned Q)
    (hn : n ≤ known.sizes.size) (hslots : ∀ p ∈ slots, p.1 < n)
    (hcode : TakesAddresses slots frameBase n Q b'.code) : known'.Owned Q := by
  cases h with
  | mk h =>
    refine (h.keeps_of_mem (P := fun known ↦ known.Owned Q ∧ n ≤ known.sizes.size) ?_
      ⟨hknown, hn⟩).1
    rintro known i code known' - hmem hinstr ⟨hknown, hn⟩
    exact ⟨hinstr.owned hknown hn hslots (hcode.mono (List.infix_of_mem_flatten hmem)),
      hn.trans hinstr.size_le⟩

end Owned

namespace Spilling

variable {σ : Type} [SlotStore σ] {order : SlotOrder} {settings : Settings} {catalog : Catalog}
  {w w' : Spilling σ} {spills : List Nat} {slots : List (Nat × Slot)} {Q : Nat → Prop}

theorem Spills.owned (hs : Spills catalog w spills slots w')
    (hw : (⟨w.routine.sizes, w.record.owners⟩ : Temporaries).Owned Q)
    (hlt : ∀ v ∈ spills, v < w.routine.vregCount)
    (hcode : ∀ b ∈ w'.routine.blocks,
      TakesAddresses slots (.phys catalog.frameBase) w.routine.vregCount Q b.code) :
    (⟨w'.routine.sizes, w'.record.owners⟩ : Temporaries).Owned Q := by
  have hslots : ∀ p ∈ slots, p.1 < w.routine.vregCount := by
    intro p hp
    refine hlt p.1 ?_
    rw [← hs.map_fst]
    exact List.mem_map_of_mem hp
  refine (hs.blocks.keeps_of_mem (P := fun known ↦ known.Owned Q ∧
    w.routine.vregCount ≤ known.sizes.size) ?_ ⟨hw, le_rfl⟩).1
  rintro known b b' known' - hmem hblock ⟨hknown, hn⟩
  exact ⟨hblock.owned hknown hn hslots (hcode b' hmem), hn.trans hblock.size_le⟩

/-! ## Runs -/

/-- In one of the rounds of a run, spill code has taken the register for the address of a slot that
is too far from the frame base for a store. -/
inductive HoldsAddress (order : SlotOrder) (settings : Settings) (catalog : Catalog)
    (w₀ : Spilling σ) (all : List Attempt) (a : Nat) : Prop
  | mk {attempts : List Attempt} {attempt : Attempt} {w w' : Spilling σ} {p : Nat × Slot}
    {b : Block} {t : Nat} (hall : attempts ++ [attempt] <+: all)
    (hw : Visits order settings catalog 1 w₀ attempts w)
    (hw' : Visits order settings catalog 1 w₀ (attempts ++ [attempt]) w')
    (hfresh : w.routine.vregCount ≤ a) (hp : p ∈ attempt.slots)
    (hfar : isNear (-Int32.ofNat p.2.offset) = false) (hb : b ∈ w'.routine.blocks)
    (hcode : farStore (.phys catalog.frameBase) a t p.2 <:+: b.code)

theorem HoldsAddress.mono {w₀ : Spilling σ} {all all' : List Attempt} {a : Nat}
    (h : HoldsAddress order settings catalog w₀ all a) (hall : all <+: all') :
    HoldsAddress order settings catalog w₀ all' a := by
  obtain ⟨hpre, hw, hw', hfresh, hp, hfar, hb, hcode⟩ := h
  exact .mk (hpre.trans hall) hw hw' hfresh hp hfar hb hcode

/-- A register of the input, or one that holds an address. -/
def IsNamed (order : SlotOrder) (settings : Settings) (catalog : Catalog) (w₀ : Spilling σ)
    (all : List Attempt) (v : Nat) : Prop :=
  v < w₀.routine.vregCount ∨ HoldsAddress order settings catalog w₀ all v

theorem IsNamed.mono {w₀ : Spilling σ} {all all' : List Attempt} {v : Nat}
    (h : IsNamed order settings catalog w₀ all v) (hall : all <+: all') :
    IsNamed order settings catalog w₀ all' v :=
  h.imp_right fun h ↦ h.mono hall

/-- What owns a register, what lives in a slot, and what was given one. -/
structure Names (order : SlotOrder) (settings : Settings) (catalog : Catalog) (w₀ : Spilling σ)
    (attempts : List Attempt) (w : Spilling σ) : Prop where
  owned : (⟨w.routine.sizes, w.record.owners⟩ : Temporaries).Owned
    (IsNamed order settings catalog w₀ attempts)
  spilled : ∀ v ∈ w.record.spilled, IsNamed order settings catalog w₀ attempts v
  slots : ∀ a ∈ attempts, ∀ p ∈ a.slots, IsNamed order settings catalog w₀ attempts p.1

theorem Visits.names {f : Routine} {store : σ} {attempts : List Attempt}
    (h : Visits order settings catalog 1 { routine := f, store } attempts w) :
    Names order settings catalog { routine := f, store } attempts w := by
  induction h with
  | start => exact ⟨⟨fun p hp ↦ absurd hp List.not_mem_nil, fun v hv ↦ .inl hv⟩, by simp, by simp⟩
  | @next attempts w₁ w₂ g round slots h hg hround hspills hspill ih =>
    have hnext := h.next hg hround hspills hspill
    obtain ⟨-, rfl⟩ := Routine.blockGraph_eq_ok hg
    have hs := spills_of_spill hspill
    have hlt : ∀ v ∈ round.spills, v < w₁.routine.vregCount :=
      fun v ↦ (Routine.isOf_solve hround).lt_of_mem_spills
    have hpre := List.prefix_append attempts
      [⟨_, round, slots.map fun p ↦ (w₁.record.owner p.1, p.2)⟩]
    have howner : ∀ v ∈ round.spills, IsNamed order settings catalog { routine := f, store }
        (attempts ++ [⟨_, round, slots.map fun p ↦ (w₁.record.owner p.1, p.2)⟩])
        (w₁.record.owner v) :=
      fun v hv ↦ IsNamed.mono (ih.owned.owner v (hlt v hv)) hpre
    constructor
    · refine hs.owned ⟨ih.owned.isTidy, fun v hv ↦ IsNamed.mono (ih.owned.owner v hv) hpre⟩
        (fun v hv ↦ hlt v (order.mem_arrange.1 hv)) ?_
      intro b hb p hp hfar a t ha hcode
      exact .inr (.mk List.prefix_rfl h hnext ha
        (List.mem_map_of_mem (f := fun q : Nat × Slot ↦ (w₁.record.owner q.1, q.2)) hp) hfar hb
        hcode)
    · intro o ho
      rcases hs.mem_spilled.1 ho with ho | ⟨v, hv, rfl⟩
      · exact (ih.spilled o ho).mono hpre
      · exact howner v (order.mem_arrange.1 hv)
    · intro a ha p hp
      rcases List.mem_append.1 ha with ha | ha
      · exact (ih.slots a ha p hp).mono hpre
      · rw [List.mem_singleton.1 ha] at hp
        obtain ⟨q, hq, rfl⟩ := List.mem_map.1 hp
        have hq₁ := List.mem_map_of_mem (f := Prod.fst) hq
        rw [hs.map_fst] at hq₁
        exact howner q.1 (order.mem_arrange.1 hq₁)

/-- Whatever is reported or gets a slot of its own is a register of the input, or one that spill
code took for the address of a slot that is too far from the frame base for a store. If all the
slots are near, these are registers of the input. -/
theorem named_of_allocate {f : Routine} {store : σ} {outcome : Outcome σ} {report : Report}
    (h : f.allocate order store catalog settings = .ok outcome) (hok : outcome.result = .ok report)
    {v : Nat} (hv : v ∈ report.spilled ∨ ∃ a ∈ outcome.attempts, v ∈ a.slots.map Prod.fst) :
    (v < f.vregCount ∨
      HoldsAddress order settings catalog { routine := f, store } outcome.attempts v) ∧
    ((∀ a ∈ outcome.attempts, ∀ p ∈ a.slots, isNear (-Int32.ofNat p.2.offset) = true) →
      v < f.vregCount) := by
  have hblocks : f.blocks ≠ [] := by
    intro hnil
    rw [Routine.allocate, hnil] at h
    cases h
    cases hok
  obtain ⟨attempts, w, hw, -, hends⟩ := exists_visits_of_allocate hblocks h
  have hnamed : IsNamed order settings catalog { routine := f, store } outcome.attempts v := by
    have hnames := hw.names
    cases hends with
    | error => cases hok
    | commit _ _ _ hcommit =>
      cases hok
      have hpre := List.prefix_append attempts
      obtain ⟨assignment, -, hreport⟩ := bind_eq_ok_iff.1 hcommit
      cases hreport
      rcases hv with hv | ⟨a, ha, hv⟩
      · exact (hnames.spilled v (List.mem_mergeSort.1 hv)).mono (hpre _)
      · obtain ⟨p, hp, rfl⟩ := List.mem_map.1 hv
        rcases List.mem_append.1 ha with ha | ha
        · exact (hnames.slots a ha p hp).mono (hpre _)
        · rw [List.mem_singleton.1 ha] at hp
          exact absurd hp List.not_mem_nil
  refine ⟨hnamed, fun hnear ↦ hnamed.resolve_right ?_⟩
  rintro ⟨hall, -, -, -, hp, hfar, -, -⟩
  rw [hnear _ (hall.subset (List.mem_append_right _ (List.mem_singleton_self _))) _ hp] at hfar
  cases hfar

end Spilling

/-- Two registers to hand out, which every call clobbers. -/
def Catalog.twoScratch : Catalog where
  registers := [⟨0, "fp"⟩, ⟨1, "t0"⟩, ⟨2, "t1"⟩]
  calleeSaved := []
  callerSaved := [⟨1, "t0"⟩, ⟨2, "t1"⟩]
  frameBase := ⟨0, "fp"⟩

theorem Catalog.ofNames?_twoScratch :
    ofNames? ["fp", "t0", "t1"] [] ["t0", "t1"] "fp" = .ok twoScratch := by rfl

/-- Keeps a register across a call that clobbers all the others. -/
def Routine.acrossScratch : Routine where
  name := "f"
  blocks :=
    [⟨"entry", [.li (.virt 0) 1, .call "g" [] [.phys ⟨1, "t0"⟩, .phys ⟨2, "t1"⟩],
      .ret [.virt 0] []]⟩]
  sizes := #[4]

/-- The register is spilled to a slot far away. The register for its address gets a colour, and is
not reported. -/
theorem Spilling.named_of_acrossScratch : ∃ outcome report,
    Routine.acrossScratch.allocate .ascending (⟨2048, 8, []⟩ : StridedSlots) .twoScratch
      { maxRounds := 2 } = .ok outcome ∧
    outcome.result = .ok report ∧ report.spilled = [0] ∧
    (0 < Routine.acrossScratch.vregCount ∨
      HoldsAddress .ascending { maxRounds := 2 } .twoScratch
        { routine := .acrossScratch, store := (⟨2048, 8, []⟩ : StridedSlots) }
        outcome.attempts 0) := by
  have hc := Catalog.wellFormed_of_ofNames? Catalog.ofNames?_twoScratch
  have hreplay : (replay .ascending { maxRounds := 2 } .twoScratch 1 [[0]]
      { routine := .acrossScratch, store := (⟨2048, 8, []⟩ : StridedSlots) }).map
        (fun w ↦ (w.record.spilled, w.nextSpills { maxRounds := 2 } .twoScratch)) =
      some ([0], some []) := by
    decide +kernel
  obtain ⟨w, hw, hlast⟩ := Option.map_eq_some_iff.1 hreplay
  obtain ⟨hspilled, hlast⟩ := Prod.mk.inj hlast
  obtain ⟨outcome, report, hok, hresult, hperm⟩ :=
    exists_allocate_of_replay hc (by decide) (by decide) hw hlast (by decide)
  rw [hspilled, List.perm_singleton] at hperm
  exact ⟨outcome, report, hok, hresult, hperm,
    (named_of_allocate hok hresult (.inl (by simp [hperm]))).1⟩

end RegAlloc

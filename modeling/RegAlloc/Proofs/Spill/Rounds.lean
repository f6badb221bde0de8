import Mathlib
import RegAlloc.Proofs.Frame
import RegAlloc.Proofs.Spill.Carry

/-!
# Any number of rounds

Temporaries can be spilled in later rounds, and share the slot of the register of the input that
they stand for. However often that is done, the slot never holds anything but the value of that
register, if no temporary is spilled again that was loaded from a slot far away. The code of such a
load computes the address in the temporary, and would store it into the slot.
-/

namespace RegAlloc

/-! ## Stores that keep the slots -/

/-- A store that hands out the same slot to a register whenever it is asked. -/
class LawfulSlotStore (σ : Type) [SlotStore σ] where
  /-- The offset of the slot of a register. -/
  offset? : σ → Nat → Option Nat
  offset?_alloc : ∀ {s s' : σ} {v size offset : Nat},
    SlotStore.alloc s v size = .ok (offset, s') → offset? s' v = some offset
  offset?_of_alloc : ∀ {s s' : σ} {v u size offset o : Nat},
    SlotStore.alloc s v size = .ok (offset, s') → offset? s u = some o → offset? s' u = some o

instance : LawfulSlotStore Frame where
  offset? := Frame.get?
  offset?_alloc := Frame.get?_alloc
  offset?_of_alloc := Frame.get?_of_alloc

instance : LawfulSlotStore StridedSlots where
  offset? s v := some (s.offset v)
  offset?_alloc h := by
    cases h
    rfl
  offset?_of_alloc h hu := by
    cases h
    exact hu

/-! ## Owners -/

/-- What is known of the temporaries when the input has `n` registers: they come behind those, and
behind their owners. No owner is a temporary itself. -/
structure Temporaries.IsInOrder (n : Nat) (known : Temporaries) : Prop where
  le : n ≤ known.sizes.size
  owners : ∀ p ∈ known.owners, p.2 < p.1 ∧ n ≤ p.1 ∧ p.1 < known.sizes.size
  flat : ∀ p ∈ known.owners, known.owners.lookup p.2 = none

/-- A register that stands for another one comes behind it. -/
theorem Temporaries.IsInOrder.getD_lookup_le {n : Nat} {known : Temporaries}
    (h : known.IsInOrder n) (v : Nat) : (known.owners.lookup v).getD v ≤ v := by
  cases hv : known.owners.lookup v with
  | none => exact le_rfl
  | some o => exact (h.owners (v, o) (mem_of_lookup_eq_some hv)).1.le

/-- Who owns a register has no other owner. -/
theorem Temporaries.IsInOrder.lookup_getD_lookup {n : Nat} {known : Temporaries}
    (h : known.IsInOrder n) (v : Nat) :
    known.owners.lookup ((known.owners.lookup v).getD v) = none := by
  cases hv : known.owners.lookup v with
  | none => exact hv
  | some o => exact h.flat (v, o) (mem_of_lookup_eq_some hv)

theorem Temporaries.IsInOrder.lookup_eq_none {n : Nat} {known : Temporaries}
    (h : known.IsInOrder n) {v : Nat} (hv : v < n) : known.owners.lookup v = none := by
  rw [List.lookup_eq_none_iff]
  intro p hp
  have := (h.owners p hp).2.1
  simp only [bne_iff_ne, ne_eq]
  omega

section Order

variable {slots : List (Nat × Slot)} {frameBase : Reg} {known known' : Temporaries} {m n : Nat}

theorem SpillsInstr.isInOrder {i : Instr} {code : List Instr}
    (h : SpillsInstr slots frameBase known i code known') (hknown : known.IsInOrder n)
    (hold : ∀ ρ ∈ i.uses ++ i.defs, ρ.IsOld known.sizes.size) : known'.IsInOrder n := by
  have hlt : ∀ q ∈ (spilledIn slots i).zipIdx known.sizes.size,
      (known.owners.lookup q.1.1).getD q.1.1 < known.sizes.size := by
    intro q hq
    have hv : q.1.1 < known.sizes.size :=
      hold _ (mem_spilledIn.1 (List.fst_mem_of_mem_zipIdx hq)).1
    exact (hknown.getD_lookup_le _).trans_lt hv
  -- what is known of a register of the input is not changed by fresh temporaries
  have hlookup : ∀ o < known.sizes.size, known'.owners.lookup o = known.owners.lookup o := by
    intro o ho
    rw [h.owners_eq, List.lookup_append, lookup_ownersIn, if_neg (not_le.2 ho), Option.none_or]
  refine ⟨hknown.le.trans h.size_le, fun p hp ↦ ?_, fun p hp ↦ ?_⟩
  · rw [h.owners_eq, List.mem_append] at hp
    rcases hp with hp | hp
    · obtain ⟨q, hq, rfl⟩ := List.mem_map.1 hp
      have hle := List.le_snd_of_mem_zipIdx hq
      have hsnd := List.snd_lt_add_of_mem_zipIdx hq
      exact ⟨(hlt q hq).trans_le hle, hknown.le.trans hle, hsnd.trans_le h.size_add_le⟩
    · obtain ⟨h₁, h₂, h₃⟩ := hknown.owners p hp
      exact ⟨h₁, h₂, h₃.trans_le h.size_le⟩
  · rw [h.owners_eq, List.mem_append] at hp
    rcases hp with hp | hp
    · obtain ⟨q, hq, rfl⟩ := List.mem_map.1 hp
      rw [hlookup _ (hlt q hq)]
      exact hknown.lookup_getD_lookup _
    · obtain ⟨h₁, -, h₃⟩ := hknown.owners p hp
      rw [hlookup _ (h₁.trans h₃)]
      exact hknown.flat p hp

theorem SpillsBlock.agrees {b b' : Block} {L : Layout}
    (h : SpillsBlock slots frameBase known b b' known') (hL : L.Agrees known') :
    L.Agrees known := by
  cases h with
  | mk h => exact h.reflects (P := L.Agrees) SpillsInstr.agrees hL

theorem SpillsBlock.isInOrder {b b' : Block} (h : SpillsBlock slots frameBase known b b' known')
    (hknown : known.IsInOrder n) (hm : m ≤ known.sizes.size)
    (hold : ∀ i ∈ b.code, ∀ ρ ∈ i.uses ++ i.defs, ρ.IsOld m) : known'.IsInOrder n := by
  cases h with
  | mk h =>
    refine (h.keeps (P := fun known ↦ known.IsInOrder n ∧ m ≤ known.sizes.size) ?_
      ⟨hknown, hm⟩).1
    rintro known i code known' hi h ⟨hknown, hm⟩
    exact ⟨h.isInOrder hknown fun ρ hρ ↦ (hold i hi ρ hρ).mono hm, hm.trans h.size_le⟩

end Order

namespace Spilling

variable {σ : Type} [SlotStore σ] {catalog : Catalog} {w w' : Spilling σ} {spills : List Nat}
  {slots : List (Nat × Slot)} {n : Nat}

/-- The registers of a routine that came of one with `n` registers. -/
structure IsReserved (n : Nat) (w : Spilling σ) : Prop where
  old : ∀ i ∈ w.routine.instrs, ∀ ρ ∈ i.uses ++ i.defs, ρ.IsOld w.routine.vregCount
  isInOrder : (⟨w.routine.sizes, w.record.owners⟩ : Temporaries).IsInOrder n

theorem IsReserved.spill (h : w.IsReserved n) (hs : Spills catalog w spills slots w') :
    w'.IsReserved n where
  old j hj ρ hρ := by
    rcases hs.mem_regs hj hρ with rfl | ⟨i, hi, hρ, -⟩ | ⟨t, rfl, -, ht⟩
    · trivial
    · exact (h.old i hi ρ hρ).mono hs.vregCount_le
    · exact ht
  isInOrder := by
    refine (hs.blocks.keeps (P := fun known ↦ known.IsInOrder n ∧
      w.routine.vregCount ≤ known.sizes.size) ?_ ⟨h.isInOrder, le_rfl⟩).1
    rintro known b b' known' hb hblock ⟨hknown, hle⟩
    refine ⟨hblock.isInOrder hknown hle fun i hi ↦ ?_, hle.trans hblock.size_le⟩
    exact h.old i (List.mem_flatMap.2 ⟨b, hb, hi⟩)

/-- The registers of such a routine are words. -/
structure IsOver (n : Nat) (w : Spilling σ) : Prop extends IsReserved n w where
  sizes : ∀ x ∈ w.routine.sizes, x = 4

theorem IsOver.spill (h : w.IsOver n) (hs : Spills catalog w spills slots w') : w'.IsOver n where
  toIsReserved := h.toIsReserved.spill hs
  sizes := (hs.size_eq_four h.sizes).2

/-- Registers keep their owners. -/
theorem Spills.agrees (h : Spills catalog w spills slots w') {L : Layout}
    (hL : L.Agrees ⟨w'.routine.sizes, w'.record.owners⟩) :
    L.Agrees ⟨w.routine.sizes, w.record.owners⟩ :=
  h.blocks.reflects (P := L.Agrees) SpillsBlock.agrees hL

/-- All the slots that were handed out are known, before and after. -/
theorem offset?_of_assignSlots [LawfulSlotStore σ] {store : σ}
    (h : w.assignSlots spills = .ok (slots, store)) :
    (∀ v o, LawfulSlotStore.offset? w.store v = some o →
      LawfulSlotStore.offset? store v = some o) ∧
    ∀ p ∈ slots, LawfulSlotStore.offset? store (w.record.owner p.1) = some p.2.offset := by
  have hthreads := threads_of_mapAccumM h
  clear h
  generalize w.store = start at hthreads
  induction hthreads with
  | nil s => simp
  | @cons s s₁ s₂ v p spills slots hp _ ih =>
    obtain ⟨⟨offset, s'⟩, halloc, hp⟩ := bind_eq_ok_iff.1 hp
    cases hp
    refine ⟨fun u o hu ↦ ih.1 u o (LawfulSlotStore.offset?_of_alloc halloc hu), fun q hq ↦ ?_⟩
    rcases List.mem_cons.1 hq with rfl | hq
    · exact ih.1 _ _ (LawfulSlotStore.offset?_alloc halloc)
    · exact ih.2 q hq

/-! ## Rounds -/

/-- No temporary that is spilled was loaded from a slot far away, which takes its address into the
temporary. -/
def LoadsNear (w : Spilling σ) (slots : List (Nat × Slot)) : Prop :=
  ∀ p ∈ slots, w.record.owner p.1 ≠ p.1 → isNear (-Int32.ofNat p.2.offset) = false →
    .load (.ofSize p.2.size) (.virt p.1) (.virt p.1) 0 ∉ w.routine.instrs

instance (w : Spilling σ) (slots : List (Nat × Slot)) : Decidable (w.LoadsNear slots) :=
  List.decidableBAll _ slots

/-- Some rounds of spilling, with all the registers that are put into slots. They may be temporaries
of earlier rounds, but not such as were loaded from a slot far away. -/
inductive SpillsTo (catalog : Catalog) (w : Spilling σ) : List (Nat × Slot) → Spilling σ → Prop
  | refl : SpillsTo catalog w [] w
  | spill {w₁ w₂ : Spilling σ} {slots slots' : List (Nat × Slot)} {spills : List Nat}
    (h : SpillsTo catalog w slots w₁) (hlt : ∀ v ∈ spills, v < w₁.routine.vregCount)
    (hspill : w₁.spill catalog spills = .ok (w₂, slots')) (hnear : w₁.LoadsNear slots') :
    SpillsTo catalog w (slots ++ slots') w₂

/-- Makes rounds that spill the given registers, if they are such rounds. The slots are added to
those of earlier rounds. -/
def spillAll (catalog : Catalog) :
    List (List Nat) → List (Nat × Slot) → Spilling σ → Option (List (Nat × Slot) × Spilling σ)
  | [], slots, w => some (slots, w)
  | spills :: rounds, slots, w =>
    match w.spill catalog spills with
    | .error _ => none
    | .ok (w', slots') =>
      if (∀ v ∈ spills, v < w.routine.vregCount) ∧ w.LoadsNear slots' then
        spillAll catalog rounds (slots ++ slots') w'
      else none

theorem SpillsTo.of_spillAll {w₀ : Spilling σ} (h : SpillsTo catalog w₀ slots w)
    {rounds : List (List Nat)} {slots' : List (Nat × Slot)}
    (hall : spillAll catalog rounds slots w = some (slots', w')) :
    SpillsTo catalog w₀ slots' w' := by
  induction rounds generalizing slots w with
  | nil =>
    cases hall
    exact h
  | cons spills rounds ih =>
    rw [spillAll] at hall
    split at hall
    · cases hall
    · rename_i w₁ slots₁ hspill
      split at hall
      · rename_i hround
        exact ih (h.spill hround.1 hspill hround.2) hall
      · cases hall

/-- The layout at the end of the rounds: the registers share the slots of their owners. -/
def layout (catalog : Catalog) (w : Spilling σ) (slots : List (Nat × Slot)) : Layout where
  frameBase := catalog.frameBase
  owner := w.record.owner
  slots := slots.map fun p ↦ (w.record.owner p.1, p.2)

namespace SpillsTo

theorem isOver (h : SpillsTo catalog w slots w') (hw : w.IsOver n) : w'.IsOver n := by
  induction h with
  | refl => exact hw
  | spill _ _ hspill _ ih => exact ih.spill (spills_of_spill hspill)

theorem owner_eq (hs : Spills catalog w spills slots w') {v : Nat}
    (hv : v < w.routine.vregCount) : w'.record.owner v = w.record.owner v :=
  hs.agrees (L := w'.layout catalog []) (fun _ _ ↦ rfl) v hv

/-- What was handed out for a register is the slot of its owner. -/
theorem slot_eq [LawfulSlotStore σ] (h : SpillsTo catalog w slots w') (hw : w.IsOver n) :
    ∀ p ∈ slots, p.1 < w'.routine.vregCount ∧ p.2.size = 4 ∧
      LawfulSlotStore.offset? w'.store (w'.record.owner p.1) = some p.2.offset := by
  induction h with
  | refl => simp
  | @spill w₁ w₂ slots slots' spills h hlt hspill _ ih =>
    have hs := spills_of_spill hspill
    obtain ⟨hkeeps, hnew⟩ := offset?_of_assignSlots hs.slots_eq
    intro p hp
    rcases List.mem_append.1 hp with hp | hp
    · obtain ⟨hp₁, hsize, hoffset⟩ := ih p hp
      refine ⟨hp₁.trans_le hs.vregCount_le, hsize, ?_⟩
      rw [owner_eq hs hp₁]
      exact hkeeps _ _ hoffset
    · have hp₁ : p.1 < w₁.routine.vregCount := by
        refine hlt p.1 ?_
        rw [← hs.map_fst]
        exact List.mem_map_of_mem hp
      refine ⟨hp₁.trans_le hs.vregCount_le, (hs.size_eq_four (h.isOver hw).sizes).1 p hp, ?_⟩
      rw [owner_eq hs hp₁]
      exact hnew p hp

theorem admits [LawfulSlotStore σ] (h : SpillsTo catalog w slots w') (hw : w.IsOver n) :
    (w'.layout catalog slots).Admits slots := by
  intro p hp
  have hkey : (w'.record.owner p.1, p.2) ∈ (w'.layout catalog slots).slots :=
    List.mem_map_of_mem (f := fun q : Nat × Slot ↦ (w'.record.owner q.1, q.2)) hp
  obtain ⟨s, hs⟩ : ∃ s, (w'.layout catalog slots).slots.lookup (w'.record.owner p.1) = some s := by
    rw [← Option.ne_none_iff_exists', ne_eq, List.lookup_eq_none_iff]
    intro hall
    simpa using hall _ hkey
  obtain ⟨q, hq, he⟩ := List.mem_map.1 (mem_of_lookup_eq_some hs)
  obtain ⟨howner, rfl⟩ := Prod.mk.inj he
  obtain ⟨-, hsize, hoffset⟩ := h.slot_eq hw p hp
  obtain ⟨-, hsize', hoffset'⟩ := h.slot_eq hw q hq
  rw [howner, hoffset, Option.some.injEq] at hoffset'
  have heq : q.2 = p.2 := congrArg₂ Slot.mk hoffset'.symm (hsize'.trans hsize.symm)
  rw [← heq]
  exact hs

/-- The layout fits if the slots of different owners do not overlap. -/
theorem fits [LawfulSlotStore σ] (h : SpillsTo catalog w slots w') (hw : w.IsOver n)
    (hdisjoint : ∀ p ∈ (w'.layout catalog slots).slots, ∀ q ∈ (w'.layout catalog slots).slots,
      p.1 ≠ q.1 → p.2.Disjoint q.2) : (w'.layout catalog slots).Fits where
  owner_le := (h.isOver hw).isInOrder.getD_lookup_le
  size hs := by
    obtain ⟨p, hp, he⟩ := List.mem_map.1 (mem_of_lookup_eq_some hs)
    cases he
    exact (h.slot_eq hw p hp).2.1
  disjoint {v u s t} hs ht hne :=
    hdisjoint (v, s) (mem_of_lookup_eq_some hs) (u, t) (mem_of_lookup_eq_some ht) hne

end SpillsTo

end Spilling

/-! ## Code of all the rounds -/

namespace Layout

variable {L : Layout} {env : Surroundings} {base : Word} {m n : Nat}
  {slots slots' : List (Nat × Slot)} {known known' : Temporaries}

theorem isSpilled_lowered (hid : ∀ v < n, L.owner v = v) (hn : n ≤ m) {code code' : List Instr}
    {codes : List (List Instr)} (h : IsSpilled (L.CarriesOut env base n slots) code code')
    (hlowers : L.Lowers slots' m known code' codes known') :
    IsSpilled (L.CarriesOut env base n (slots ++ slots')) code codes.flatten := by
  obtain ⟨pieces, hpieces, rfl⟩ := h
  induction hpieces generalizing known codes with
  | nil =>
    have hthreads := hlowers.threads
    cases hthreads
    exact ⟨[], .nil, rfl⟩
  | cons hpiece _ ih =>
    rw [List.flatten_cons] at hlowers
    obtain ⟨known₁, codes₁, codes₂, rfl, hlowers₁, hlowers₂⟩ := hlowers.of_append
    obtain ⟨φ, pre, post, rfl, hcarries⟩ := hpiece
    obtain ⟨pieces', hpieces', hflatten⟩ := ih hlowers₂
    refine ⟨codes₁.flatten :: pieces', .cons (hcarries.lowered hid hn hlowers₁) hpieces', ?_⟩
    rw [List.flatten_append, List.flatten_cons, hflatten]

/-- One more round for all the blocks. -/
theorem areSpilled_lowered (hL : L.Fits) (hid : ∀ v < n, L.owner v = v) (hn : n ≤ m)
    (hadmits : L.Admits slots') {blocks blocks' blocks'' : List Block}
    (h : AreSpilled (L.CarriesOut env base n slots) blocks blocks')
    (hthreads : Threads (SpillsBlock slots' (.phys L.frameBase)) known blocks' blocks'' known')
    (hagrees : L.Agrees known') (hknown : known.IsTidy) (hm : m ≤ known.sizes.size)
    (hold : ∀ b ∈ blocks', ∀ i ∈ b.code, ∀ ρ ∈ i.uses ++ i.defs, ρ.IsOld m)
    (hnear : ∀ b ∈ blocks', L.LoadsNear slots' b.code) :
    AreSpilled (L.CarriesOut env base n (slots ++ slots')) blocks blocks'' := by
  induction h generalizing known blocks'' with
  | nil =>
    cases hthreads
    exact .nil
  | @cons b b' blocks blocks' hb _ ih =>
    cases hthreads with
    | @cons _ known₁ _ _ b'' _ blocks'' hblock hthreads =>
      have hagrees₁ : L.Agrees known₁ :=
        hthreads.reflects (P := L.Agrees) SpillsBlock.agrees hagrees
      have hle : known.sizes.size ≤ known₁.sizes.size := hblock.size_le
      cases hblock with
      | @mk codes _ hcodes =>
        have hlowers : L.Lowers slots' m known b'.code codes known₁ :=
          ⟨hL, hadmits, hnear b' List.mem_cons_self, hcodes, hagrees₁, hknown, hm,
            hold b' List.mem_cons_self⟩
        have hknown₁ : known₁.IsTidy :=
          hcodes.keeps (P := Temporaries.IsTidy) (fun _ h ↦ h.isTidy) hknown
        refine .cons ⟨hb.1, isSpilled_lowered hid hn hb.2 hlowers⟩ ?_
        exact ih hthreads hknown₁ (hm.trans hle)
          (fun b hb ↦ hold b (List.mem_cons_of_mem _ hb))
          fun b hb ↦ hnear b (List.mem_cons_of_mem _ hb)

/-- The registers and the memory at the start, with what the slots hold in the spilled registers. -/
theorem describes_withSlots (hid : ∀ v < n, L.owner v = v) (hadmits : L.Admits slots) (regs : Regs)
    (mem : Memory) :
    L.Describes (regs (.phys L.frameBase))
      (.atRest slots n (regs.withSlots slots (regs (.phys L.frameBase)) mem) mem) regs mem := by
  have hcorr := corresponds_withSlots slots n L.frameBase regs mem
  constructor
  · exact hcorr.frame
  · exact ⟨trivial, trivial⟩
  · rintro ρ ⟨hρ, hk⟩
    have hown : L.own ρ = ρ := own_eq_self hid hρ
    rw [hown]
    exact hcorr.kept ρ hρ hk
  · rintro v ⟨hv, hne⟩ s hs
    obtain ⟨s', hs'⟩ := Option.ne_none_iff_exists'.1 hne
    have hslot := hadmits (v, s') (mem_of_lookup_eq_some hs')
    rw [hid v hv, hs, Option.some.injEq] at hslot
    rw [hslot]
    exact hcorr.slot v s' hs'
  · exact .refl _ _

end Layout

namespace Spilling

variable {σ : Type} [SlotStore σ] {catalog : Catalog} {f : Routine} {store : σ} {w : Spilling σ}
  {slots : List (Nat × Slot)}

omit [SlotStore σ] in
theorem isOver_start (hsizes : ∀ x ∈ f.sizes, x = 4)
    (hold : ∀ i ∈ f.instrs, ∀ ρ ∈ i.uses ++ i.defs, ρ.IsOld f.vregCount) :
    IsOver f.vregCount ({ routine := f, store := store } : Spilling σ) where
  old := hold
  sizes := hsizes
  isInOrder := ⟨le_rfl, by simp, by simp⟩

namespace SpillsTo

/-- After all the rounds, there is the code of each instruction. -/
theorem areSpilled (h : SpillsTo catalog { routine := f, store := store } slots w)
    (hsizes : ∀ x ∈ f.sizes, x = 4)
    (hold : ∀ i ∈ f.instrs, ∀ ρ ∈ i.uses ++ i.defs, ρ.IsOld f.vregCount)
    (hbase : ∀ i ∈ f.instrs, .phys catalog.frameBase ∉ i.defs) {L : Layout} (hL : L.Fits)
    (hframe : L.frameBase = catalog.frameBase) (hid : ∀ v < f.vregCount, L.owner v = v)
    (hagrees : L.Agrees ⟨w.routine.sizes, w.record.owners⟩) (hadmits : L.Admits slots)
    (env : Surroundings) (base : Word) :
    AreSpilled (L.CarriesOut env base f.vregCount slots) f.blocks w.routine.blocks := by
  have hinstrs : ∀ {f : Routine} {b i}, b ∈ f.blocks → i ∈ b.code → i ∈ f.instrs :=
    fun hb hi ↦ List.mem_flatMap.2 ⟨_, hb, hi⟩
  induction h with
  | refl =>
    refine List.forall₂_same.2 fun b hb ↦ ⟨rfl, b.code.map fun i ↦ [i], ?_, ?_⟩
    · rw [List.forall₂_map_right_iff, List.forall₂_same]
      intro i hi
      refine ⟨id, [], [], ?_, Layout.carries_self hid (hold i (hinstrs hb hi)) ?_⟩
      · have hself : i.mapRegs id = i := Instr.mapRegs_eq_self fun _ _ ↦ rfl
        rw [hself]
        rfl
      · rw [hframe]
        exact hbase i (hinstrs hb hi)
    · rw [← List.flatMap_def, List.flatMap_singleton']
  | @spill w₁ w₂ slots slots' spills h hlt hspill hnear ih =>
    have hs := spills_of_spill hspill
    have hagrees₁ := hs.agrees hagrees
    have hover := h.isOver (isOver_start hsizes hold)
    have hblocks := ih hagrees₁ fun p hp ↦ hadmits p (List.mem_append_left _ hp)
    refine Layout.areSpilled_lowered hL hid hover.isInOrder.le
      (fun p hp ↦ hadmits p (List.mem_append_right _ hp)) hblocks (hframe ▸ hs.blocks) hagrees ?_
      le_rfl (fun b hb i hi ↦ hover.old i (hinstrs hb hi)) fun b hb t s ht hne hfar hload ↦ ?_
    · exact fun p hp ↦ (hover.isInOrder.owners p hp).2.2
    · have hlt : t < w₁.routine.vregCount :=
        hover.old _ (hinstrs hb hload) (.virt t) (by simp [Instr.defs])
      rw [hagrees₁ t hlt] at hne
      exact hnear (t, s) (mem_of_lookup_eq_some ht) hne hfar (hinstrs hb hload)

end SpillsTo

/-- Any number of rounds of spilling keeps what a routine does, if none spills a temporary again
that was loaded from a slot far away. With words for registers, a frame base that the routine does
not write, and slots that do not overlap but for those of registers with the same owner, the code
keeps up with the routine from any registers and memory. The routine starts with what the slots hold
in its spilled registers, and neither it nor what it calls may touch the slots. -/
theorem exists_keepsUp_of_spillsTo [LawfulSlotStore σ]
    (h : SpillsTo catalog { routine := f, store := store } slots w)
    (hsizes : ∀ x ∈ f.sizes, x = 4)
    (hold : ∀ i ∈ f.instrs, ∀ ρ ∈ i.uses ++ i.defs, ρ.IsOld f.vregCount)
    (hbase : ∀ i ∈ f.instrs, .phys catalog.frameBase ∉ i.defs)
    (hdisjoint : ∀ p ∈ (w.layout catalog slots).slots, ∀ q ∈ (w.layout catalog slots).slots,
      p.1 ≠ q.1 → p.2.Disjoint q.2)
    {env : Surroundings} {regs : Regs} {mem : Memory} {base : Word}
    (hframe : regs (.phys catalog.frameBase) = base)
    (henv : env.Avoids (slotBytes base (w.layout catalog slots).slots))
    (havoid : ∀ k, ∀ e ∈ (State.run env f.blocks k
        (.enter f.blocks 0 (regs.withSlots slots base mem) mem)).1,
      e.Avoids (slotBytes base (w.layout catalog slots).slots)) :
    ∃ clock, (w.layout catalog slots).KeepsUp env base f.vregCount slots f.blocks w.routine.blocks
      (.enter f.blocks 0 (regs.withSlots slots base mem) mem) (.enter w.routine.blocks 0 regs mem)
      clock := by
  have hover : IsOver f.vregCount { routine := f, store := store } := isOver_start hsizes hold
  have hL := h.fits hover hdisjoint
  have hadmits := h.admits hover
  have hid : ∀ v < f.vregCount, (w.layout catalog slots).owner v = v := by
    intro v hv
    have hnone : w.record.owners.lookup v = none :=
      (h.isOver hover).isInOrder.lookup_eq_none hv
    change (w.record.owners.lookup v).getD v = v
    rw [hnone, Option.getD_none]
  have hblocks := h.areSpilled hsizes hold hbase hL rfl hid (fun _ _ ↦ rfl) hadmits env base
  subst hframe
  exact Layout.Mirrors.exists_keepsUp hL hid hadmits henv hblocks
    (.enter hblocks (Layout.describes_withSlots hid hadmits regs mem) 0) havoid

/-- Both registers are spilled, and then a temporary that was loaded from a slot nearby, one that
was not loaded, and the register for the address of a slot far away. -/
theorem exists_keepsUp_double : ∃ slots w,
    SpillsTo .twoColours { routine := .double, store := (⟨2040, 8, []⟩ : StridedSlots) } slots w ∧
    slots.map Prod.fst = [0, 1, 3, 4, 5, 7, 9] ∧
    ∀ (address : String → Word) (regs : Regs) (mem : Memory), ∃ clock,
      (w.layout .twoColours slots).KeepsUp ⟨address, fun _ _ mem ↦ (fun _ ↦ 0, mem)⟩
        (regs (.phys Catalog.twoColours.frameBase)) Routine.double.vregCount slots
        Routine.double.blocks w.routine.blocks
        (.enter Routine.double.blocks 0
          (regs.withSlots slots (regs (.phys Catalog.twoColours.frameBase)) mem) mem)
        (.enter w.routine.blocks 0 regs mem) clock := by
  have hall : (spillAll .twoColours [[0, 1], [3, 4, 5], [7, 9]] []
      { routine := .double, store := (⟨2040, 8, []⟩ : StridedSlots) }).map
        (fun p ↦ (p.1.map Prod.fst, (p.2.layout .twoColours p.1).slots)) =
      some ([0, 1, 3, 4, 5, 7, 9], [(0, ⟨2048, 4⟩), (1, ⟨2056, 4⟩), (0, ⟨2048, 4⟩),
        (1, ⟨2056, 4⟩), (5, ⟨2088, 4⟩), (0, ⟨2048, 4⟩), (1, ⟨2056, 4⟩)]) := by
    decide +kernel
  obtain ⟨⟨slots, w⟩, hw, he⟩ := Option.map_eq_some_iff.1 hall
  obtain ⟨hfst, hslots⟩ := Prod.mk.inj he
  have hspills := SpillsTo.of_spillAll .refl hw
  have hbase : ∀ i ∈ Routine.double.instrs, .phys Catalog.twoColours.frameBase ∉ i.defs := by
    decide
  refine ⟨slots, w, hspills, hfst, fun address regs mem ↦ ?_⟩
  refine exists_keepsUp_of_spillsTo hspills (by decide) (by decide) hbase ?_ rfl ?_ ?_
  · rw [hslots]
    decide +kernel
  · exact fun _ _ _ _ h ↦ ⟨rfl, h, fun _ _ ↦ rfl⟩
  · exact fun k ↦ Routine.avoids_double _ _ mem _ k

end Spilling

/-- Returns a copy of a register. -/
def Routine.copy : Routine where
  name := "copy"
  blocks := [⟨"entry", [.mv (.virt 0) (.phys ⟨2, "t0"⟩), .ret [.virt 0] []]⟩]
  sizes := #[4]

/-- Only one register is not zero. -/
def Regs.seven : Regs :=
  fun ρ ↦ if ρ = .phys ⟨2, "t0"⟩ then 7 else 0

/-- The register is spilled to a slot far away, and then the temporary that is loaded from it. Its
address gets into the slot, and the address is returned. -/
theorem Spilling.not_keepsUp_copy : ∃ w₁ w₂ : Spilling StridedSlots,
    spill { routine := .copy, store := ⟨2048, 8, []⟩ } .twoColours [0] =
      .ok (w₁, [(0, ⟨2056, 4⟩)]) ∧
    w₁.spill .twoColours [3] = .ok (w₂, [(3, ⟨2056, 4⟩)]) ∧
    ¬∃ clock, (w₂.layout .twoColours [(0, ⟨2056, 4⟩), (3, ⟨2056, 4⟩)]).KeepsUp
      ⟨fun _ ↦ 0, fun _ _ mem ↦ (fun _ ↦ 0, mem)⟩ 0 1 [(0, ⟨2056, 4⟩), (3, ⟨2056, 4⟩)]
      Routine.copy.blocks w₂.routine.blocks
      (.enter Routine.copy.blocks 0
        (Regs.seven.withSlots [(0, ⟨2056, 4⟩), (3, ⟨2056, 4⟩)] 0 fun _ ↦ 0) fun _ ↦ 0)
      (.enter w₂.routine.blocks 0 .seven fun _ ↦ 0) clock := by
  let env : Surroundings := ⟨fun _ ↦ 0, fun _ _ mem ↦ (fun _ ↦ 0, mem)⟩
  have heval : (do
      let p ← spill { routine := .copy, store := (⟨2048, 8, []⟩ : StridedSlots) } .twoColours [0]
      let q ← p.1.spill .twoColours [3]
      let r := State.run env q.1.routine.blocks 26 (.enter q.1.routine.blocks 0 .seven fun _ ↦ 0)
      return (p.2, q.2, (r.2.step env q.1.routine.blocks).isNone, decide (.ret [7] [] ∈ r.1)) :
        Except Fault _) = .ok ([(0, ⟨2056, 4⟩)], [(3, ⟨2056, 4⟩)], true, false) := by
    decide +kernel
  obtain ⟨⟨w₁, slots₁⟩, h₁, heval⟩ := bind_eq_ok_iff.1 heval
  obtain ⟨⟨w₂, slots₂⟩, h₂, heval⟩ := bind_eq_ok_iff.1 heval
  simp only [pure, Except.pure, Except.ok.injEq, Prod.mk.injEq, Option.isNone_iff_eq_none,
    decide_eq_false_iff_not] at heval
  obtain ⟨rfl, rfl, hover, hnot⟩ := heval
  refine ⟨w₁, w₂, h₁, h₂, ?_⟩
  rintro ⟨clock, hkeeps⟩
  have hret : .ret [7] [] ∈ (State.run env Routine.copy.blocks 2 (.enter Routine.copy.blocks 0
      (Regs.seven.withSlots [(0, ⟨2056, 4⟩), (3, ⟨2056, 4⟩)] 0 fun _ ↦ 0) fun _ ↦ 0)).1 := by
    decide +kernel
  rw [← hkeeps.trace 2] at hret
  exact hnot (State.mem_run_of_step_eq_none hover (List.mem_of_mem_filter hret))

end RegAlloc

import Mathlib
import RegAlloc.Proofs.Spill.Instr

/-!
# Spilling keeps what the code does

A routine with spill code runs along with the routine without: where the one makes a step, the other
makes one or more. What can be seen of both runs is the same, up to the accesses to the slots.
-/

namespace RegAlloc

/-! ## Lists of instructions and blocks -/

/-- A change along a list succeeds if each step does. -/
theorem exists_mapAccumM {σ α β : Type} {f : σ → α → Except Fault (β × σ)} {P : σ → Prop}
    {Q : α → β → Prop} {as : List α}
    (h : ∀ a ∈ as, ∀ s, P s → ∃ b s', f s a = .ok (b, s') ∧ P s' ∧ Q a b) {s : σ} (hs : P s) :
    ∃ bs s', mapAccumM f s as = .ok (bs, s') ∧ P s' ∧ List.Forall₂ Q as bs := by
  induction as generalizing s with
  | nil => exact ⟨[], s, rfl, hs, .nil⟩
  | cons a as ih =>
    obtain ⟨b, s₁, hb, hs₁, hq⟩ := h a List.mem_cons_self s hs
    obtain ⟨bs, s', hbs, hs', hqs⟩ := ih (fun x hx ↦ h x (List.mem_cons_of_mem _ hx)) hs₁
    exact ⟨b :: bs, s', bind_eq_ok_iff.2 ⟨(b, s₁), hb, bind_eq_ok_iff.2 ⟨(bs, s'), hbs, rfl⟩⟩, hs',
      .cons hq hqs⟩

/-- What holds of each step holds along the list. -/
theorem forall₂_of_mapAccumM {σ α β : Type} {f : σ → α → Except Fault (β × σ)} {Q : α → β → Prop}
    (hf : ∀ {s a b s'}, f s a = .ok (b, s') → Q a b) {as : List α} {bs : List β} {s s' : σ}
    (h : mapAccumM f s as = .ok (bs, s')) : List.Forall₂ Q as bs := by
  induction as generalizing s bs with
  | nil =>
    cases h
    exact .nil
  | cons a as ih =>
    obtain ⟨⟨b, s₁⟩, hb, h⟩ := bind_eq_ok_iff.1 h
    obtain ⟨⟨bs, s₂⟩, hbs, h⟩ := bind_eq_ok_iff.1 h
    cases h
    exact .cons (hf hb) (ih hbs)

/-- The code is that of the instructions, one after the other. -/
def IsSpilled (R : Instr → List Instr → Prop) (code code' : List Instr) : Prop :=
  ∃ codes, List.Forall₂ R code codes ∧ code' = codes.flatten

/-- The blocks have the same labels, and the code of their instructions. -/
def AreSpilled (R : Instr → List Instr → Prop) (blocks blocks' : List Block) : Prop :=
  List.Forall₂ (fun b b' ↦ b'.label = b.label ∧ IsSpilled R b.code b'.code) blocks blocks'

namespace AreSpilled

variable {R R' : Instr → List Instr → Prop} {blocks blocks' : List Block}

theorem mono (h : AreSpilled R blocks blocks') (hR : ∀ i code, R i code → R' i code) :
    AreSpilled R' blocks blocks' := by
  refine List.Forall₂.imp ?_ h
  rintro b b' ⟨hlabel, codes, hcodes, hcode⟩
  exact ⟨hlabel, codes, hcodes.imp fun i code ↦ hR i code, hcode⟩

theorem length_eq (h : AreSpilled R blocks blocks') : blocks'.length = blocks.length :=
  (List.Forall₂.length_eq h).symm

theorem map_label (h : AreSpilled R blocks blocks') :
    blocks'.map Block.label = blocks.map Block.label := by
  induction h with
  | nil => rfl
  | cons hb _ ih => rw [List.map_cons, List.map_cons, hb.1, ih]

theorem enter (h : AreSpilled R blocks blocks') (b : Nat) (regs regs' : Regs) (mem mem' : Memory) :
    IsSpilled R (State.enter blocks b regs mem).rest (State.enter blocks' b regs' mem').rest := by
  induction h generalizing b with
  | nil => exact ⟨[], .nil, rfl⟩
  | cons hb _ ih =>
    cases b with
    | zero => exact hb.2
    | succ b => exact ih b

/-- Control goes to the same place. -/
theorem follow (h : AreSpilled R blocks blocks') (b : Nat) {rest rest' : List Instr}
    (hrest : IsSpilled R rest rest') (regs regs' : Regs) (mem mem' : Memory) (c : Control) :
    (State.follow blocks' b rest' regs' mem' c).block =
      (State.follow blocks b rest regs mem c).block ∧
    IsSpilled R (State.follow blocks b rest regs mem c).rest
      (State.follow blocks' b rest' regs' mem' c).rest := by
  cases c with
  | next => exact ⟨rfl, hrest⟩
  | goto label =>
    rw [State.follow, State.follow, State.target_congr h.map_label]
    exact ⟨rfl, h.enter _ regs regs' mem mem'⟩
  | stop =>
    rw [State.follow, State.follow, h.length_eq]
    exact ⟨rfl, h.enter _ regs regs' mem mem'⟩

/-- At the end of a block, both runs are over or both go on to the next block. -/
theorem step_of_rest_eq_nil (h : AreSpilled R blocks blocks') (env : Surroundings) {s s' : State}
    (hblock : s'.block = s.block) (hcode : IsSpilled R s.rest s'.rest) (hrest : s.rest = []) :
    (s.step env blocks = none ∧ s'.step env blocks' = none) ∨
      (s.step env blocks = some (none, .enter blocks (s.block + 1) s.regs s.mem) ∧
        s'.step env blocks' = some (none, .enter blocks' (s.block + 1) s'.regs s'.mem)) := by
  obtain ⟨codes, hcodes, hrest'⟩ := hcode
  rw [hrest] at hcodes
  cases hcodes
  have hstep' : s'.step env blocks' = _ := State.step_of_rest_eq_nil hrest'
  rw [hblock, h.length_eq] at hstep'
  rw [State.step_of_rest_eq_nil hrest, hstep']
  split
  · exact .inr ⟨rfl, rfl⟩
  · exact .inl ⟨rfl, rfl⟩

end AreSpilled

theorem State.follow_regs (blocks : List Block) (b : Nat) (rest : List Instr) (regs : Regs)
    (mem : Memory) (c : Control) : (State.follow blocks b rest regs mem c).regs = regs := by
  cases c <;> rfl

theorem State.follow_mem (blocks : List Block) (b : Nat) (rest : List Instr) (regs : Regs)
    (mem : Memory) (c : Control) : (State.follow blocks b rest regs mem c).mem = mem := by
  cases c <;> rfl

/-- All the code of a routine is found. -/
theorem exists_areSpilled {slots : List (Nat × Slot)} (hfit : SlotsFit slots) {frameBase : PhysReg}
    {n : Nat} {blocks : List Block} (known : Temporaries) (hn : n ≤ known.sizes.size)
    (hold : ∀ b ∈ blocks, ∀ i ∈ b.code, ∀ ρ ∈ i.uses ++ i.defs, ρ.IsOld n)
    (hbase : ∀ b ∈ blocks, ∀ i ∈ b.code, .phys frameBase ∉ i.defs) :
    ∃ blocks' known',
      mapAccumM (spillBlock slots (.phys frameBase)) known blocks = .ok (blocks', known') ∧
      AreSpilled (IsCodeOf slots n frameBase) blocks blocks' := by
  have hblock : ∀ b ∈ blocks, ∀ known : Temporaries, n ≤ known.sizes.size → ∃ b' known',
      spillBlock slots (.phys frameBase) known b = .ok (b', known') ∧ n ≤ known'.sizes.size ∧
      b'.label = b.label ∧ IsSpilled (IsCodeOf slots n frameBase) b.code b'.code := by
    intro b hb known hknown
    have hinstr : ∀ i ∈ b.code, ∀ known : Temporaries, n ≤ known.sizes.size → ∃ code known',
        spillInstr slots (.phys frameBase) known i = .ok (code, known') ∧
        n ≤ known'.sizes.size ∧ IsCodeOf slots n frameBase i code :=
      fun i hi known hknown ↦ exists_spillInstr hfit hknown (hold b hb i hi) (hbase b hb i hi)
    obtain ⟨codes, known', hcodes, hknown', hspilled⟩ := exists_mapAccumM hinstr hknown
    exact ⟨_, known', bind_eq_ok_iff.2 ⟨(codes, known'), hcodes, rfl⟩, hknown', rfl, codes,
      hspilled, rfl⟩
  obtain ⟨blocks', known', hblocks, -, hspilled⟩ := exists_mapAccumM hblock hn
  exact ⟨blocks', known', hblocks, hspilled⟩

/-! ## Steps and runs -/

section Run

variable {env : Surroundings} {slots : List (Nat × Slot)} {n : Nat} {frameBase : PhysReg}
  {base : Word} {blocks blocks' : List Block} {s s' : State}

/-- The run with spill code is where the run without is. -/
structure Related (env : Surroundings) (slots : List (Nat × Slot)) (n : Nat) (frameBase : PhysReg)
    (base : Word) (s s' : State) : Prop where
  block : s'.block = s.block
  code : IsSpilled (Implements env slots n frameBase base) s.rest s'.rest
  corresponds : Corresponds slots n frameBase base s.regs s.mem s'.regs s'.mem

namespace Related

theorem enter (hblocks : AreSpilled (Implements env slots n frameBase base) blocks blocks')
    {regs regs' : Regs} {mem mem' : Memory}
    (h : Corresponds slots n frameBase base regs mem regs' mem') (b : Nat) :
    Related env slots n frameBase base (.enter blocks b regs mem) (.enter blocks' b regs' mem') :=
  ⟨rfl, hblocks.enter b regs regs' mem mem', h⟩

/-- Control goes to the same place. -/
theorem follow (hblocks : AreSpilled (Implements env slots n frameBase base) blocks blocks')
    {regs regs' : Regs} {mem mem' : Memory}
    (h : Corresponds slots n frameBase base regs mem regs' mem') (b : Nat) {rest rest' : List Instr}
    (hrest : IsSpilled (Implements env slots n frameBase base) rest rest') (c : Control) :
    Related env slots n frameBase base (.follow blocks b rest regs mem c)
      (.follow blocks' b rest' regs' mem' c) := by
  obtain ⟨hblock, hcode⟩ := hblocks.follow b hrest regs regs' mem mem' c
  refine ⟨hblock, hcode, ?_⟩
  rwa [State.follow_regs, State.follow_mem, State.follow_regs, State.follow_mem]

/-- Both runs are over, or both go on. Where the one makes a step, the other makes one or more. -/
theorem step (hblocks : AreSpilled (Implements env slots n frameBase base) blocks blocks')
    (h : Related env slots n frameBase base s s') :
    (s.step env blocks = none ∧ s'.step env blocks' = none) ∨
      s'.step env blocks' ≠ none ∧ ∃ e t, s.step env blocks = some (e, t) ∧
        ((∀ x ∈ e, x.Avoids (slotBytes base slots)) → ∃ k trace t',
          s'.run env blocks' (k + 1) = (trace, t') ∧
          trace.filter (Event.Avoids (slotBytes base slots)) = e.toList ∧
          Related env slots n frameBase base t t') := by
  cases hrest : s.rest with
  | nil =>
    rcases hblocks.step_of_rest_eq_nil env h.block h.code hrest with hnone | ⟨hstep, hstep'⟩
    · exact .inl hnone
    · refine .inr ⟨by simp [hstep'], none, _, hstep, fun _ ↦ ?_⟩
      exact ⟨0, _, _, State.run_succ hstep' 0, rfl, enter hblocks h.corresponds _⟩
  | cons i rest =>
    obtain ⟨codes, hcodes, hrest'⟩ := h.code
    rw [hrest] at hcodes
    cases hcodes with
    | @cons _ code _ codes hi hcodes =>
      obtain ⟨hlen, hi⟩ := hi
      obtain ⟨j, code, rfl⟩ := List.exists_cons_of_length_pos hlen
      refine .inr ⟨?_, _, _, State.step_of_rest_eq_cons hrest, fun havoid ↦ ?_⟩
      · rw [State.step_of_rest_eq_cons hrest']
        simp
      · obtain ⟨trace, regs'', mem'', hrun, htrace, hcorr⟩ := hi _ _ _ _ h.corresponds havoid
        have hs' : s' = ⟨s.block, j :: code ++ codes.flatten, s'.regs, s'.mem⟩ := by
          rw [← h.block, ← List.flatten_cons, ← hrest']
        rw [hs']
        exact ⟨code.length, trace, _, hrun blocks' s.block codes.flatten, htrace,
          follow hblocks hcorr s.block ⟨codes, hcodes, rfl⟩ _⟩

theorem step_eq_none_iff
    (hblocks : AreSpilled (Implements env slots n frameBase base) blocks blocks')
    (h : Related env slots n frameBase base s s') :
    s.step env blocks = none ↔ s'.step env blocks' = none := by
  rcases h.step hblocks with ⟨hnone, hnone'⟩ | ⟨hne, e, t, hstep, -⟩
  · simp [hnone, hnone']
  · simp [hne, hstep]

/-- The run with spill code follows every run that keeps away from the slots. -/
theorem run (hblocks : AreSpilled (Implements env slots n frameBase base) blocks blocks')
    (h : Related env slots n frameBase base s s')
    (havoid : ∀ k, ∀ e ∈ (s.run env blocks k).1, e.Avoids (slotBytes base slots)) (k : Nat) :
    ∃ k', k ≤ k' ∧ (s'.run env blocks' k').1.filter (Event.Avoids (slotBytes base slots)) =
        (s.run env blocks k).1 ∧
      Related env slots n frameBase base (s.run env blocks k).2 (s'.run env blocks' k').2 := by
  induction k generalizing s s' with
  | zero => exact ⟨0, le_rfl, rfl, h⟩
  | succ k ih =>
    rcases h.step hblocks with ⟨hnone, hnone'⟩ | ⟨-, e, t, hstep, hruns⟩
    · refine ⟨k + 1, le_rfl, ?_, ?_⟩
      · rw [State.run_of_step_eq_none hnone, State.run_of_step_eq_none hnone']
        rfl
      · rwa [State.run_of_step_eq_none hnone, State.run_of_step_eq_none hnone']
    · have hfirst : ∀ x ∈ e, x.Avoids (slotBytes base slots) := by
        intro x hx
        refine havoid 1 x ?_
        rw [State.run_succ hstep]
        exact List.mem_append_left _ (Option.mem_toList.2 hx)
      obtain ⟨j, trace, t', hrun, htrace, ht⟩ := hruns hfirst
      have hrest : ∀ k, ∀ x ∈ (t.run env blocks k).1, x.Avoids (slotBytes base slots) := by
        intro k x hx
        refine havoid (k + 1) x ?_
        rw [State.run_succ hstep]
        exact List.mem_append_right _ hx
      obtain ⟨k', hle, htrace', hr⟩ := ih ht hrest
      refine ⟨j + 1 + k', by omega, ?_, ?_⟩
      · rw [State.run_add, hrun, State.run_succ hstep, List.filter_append, htrace, htrace']
      · rwa [State.run_succ hstep, State.run_add, hrun]

end Related

/-- A run follows another one which has to keep away from the slots: what can be seen of it up to
the accesses to the slots is the same, and at corresponding places so are the registers. -/
structure Follows (env : Surroundings) (slots : List (Nat × Slot)) (n : Nat) (frameBase : PhysReg)
    (base : Word) (blocks blocks' : List Block) (s s' : State) : Prop where
  run : ∀ k, ∃ k', k ≤ k' ∧
    (s'.run env blocks' k').1.filter (Event.Avoids (slotBytes base slots)) =
      (s.run env blocks k).1 ∧
    (s'.run env blocks' k').2.block = (s.run env blocks k).2.block ∧
    Corresponds slots n frameBase base (s.run env blocks k).2.regs (s.run env blocks k).2.mem
      (s'.run env blocks' k').2.regs (s'.run env blocks' k').2.mem ∧
    ((s.run env blocks k).2.step env blocks = none ↔
      (s'.run env blocks' k').2.step env blocks' = none)
  exists_run : ∀ k', ∃ k,
    (s'.run env blocks' k').1.filter (Event.Avoids (slotBytes base slots)) =
      (s.run env blocks k).1

theorem Related.follows
    (hblocks : AreSpilled (Implements env slots n frameBase base) blocks blocks')
    (h : Related env slots n frameBase base s s')
    (havoid : ∀ k, ∀ e ∈ (s.run env blocks k).1, e.Avoids (slotBytes base slots)) :
    Follows env slots n frameBase base blocks blocks' s s' where
  run k := by
    obtain ⟨k', hle, htrace, hr⟩ := h.run hblocks havoid k
    exact ⟨k', hle, htrace, hr.block, hr.corresponds, hr.step_eq_none_iff hblocks⟩
  exists_run k' := by
    obtain ⟨j, hle, htrace, -⟩ := h.run hblocks havoid k'
    -- the first `k'` steps show the first part of what the first `j` show
    obtain ⟨d, rfl⟩ := Nat.exists_eq_add_of_le hle
    rw [State.run_add, List.filter_append] at htrace
    obtain ⟨k, hk⟩ := s.exists_run_of_prefix ⟨_, htrace⟩
    exact ⟨k, hk.symm⟩

end Run

/-! ## One round of spilling -/

/-- The registers, with what the slots hold in the spilled ones. -/
def Regs.withSlots (regs : Regs) (slots : List (Nat × Slot)) (base : Word) (mem : Memory) : Regs
  | .virt v =>
    match slots.lookup v with
    | some s => Width.word.load mem (s.address base)
    | none => regs (.virt v)
  | .phys r => regs (.phys r)

theorem corresponds_withSlots (slots : List (Nat × Slot)) (n : Nat) (frameBase : PhysReg)
    (regs : Regs) (mem : Memory) :
    Corresponds slots n frameBase (regs (.phys frameBase))
      (regs.withSlots slots (regs (.phys frameBase)) mem) mem regs mem where
  frame := rfl
  kept ρ _ hk := by
    cases ρ with
    | virt v =>
      have hv : slots.lookup v = none := hk
      rw [Regs.withSlots, hv]
    | phys r => rfl
  slot v s hs := by
    rw [Regs.withSlots, hs]
  mem := .refl _ _

theorem Routine.vregSize_eq {f : Routine} (h : ∀ x ∈ f.sizes, x = 4) (v : Nat) :
    f.vregSize v = 4 := by
  rw [vregSize]
  cases hv : f.sizes[v]? with
  | none => rfl
  | some x => exact h x (Array.mem_of_getElem? hv)

theorem ofNat_ne_minValue {offset : Nat} (h : offset % UInt32.size ≠ UInt32.size / 2) :
    Int32.ofNat offset ≠ Int32.minValue := by
  intro he
  have := congrArg (fun x : Int32 ↦ x.toBitVec.toNat) he
  simp only [Int32.toBitVec_ofNat', BitVec.toNat_ofNat] at this
  exact h this

namespace Spilling

variable {σ : Type} [SlotStore σ] {f : Routine} {store store' : σ} {spills : List Nat}
  {slots : List (Nat × Slot)}

/-- Each register gets a slot of the size of its owner. -/
theorem forall₂_of_assignSlots {w : Spilling σ} (h : w.assignSlots spills = .ok (slots, store')) :
    List.Forall₂ (fun v p ↦ p.1 = v ∧ p.2.size = w.routine.vregSize (w.record.owner v)) spills
      slots := by
  refine forall₂_of_mapAccumM ?_ h
  intro s v p s' hp
  obtain ⟨⟨offset, s₁⟩, -, hp⟩ := bind_eq_ok_iff.1 hp
  cases hp
  exact ⟨rfl, rfl⟩

theorem slotsFit (h : assignSlots { routine := f, store := store } spills = .ok (slots, store'))
    (hsizes : ∀ x ∈ f.sizes, x = 4)
    (hoffset : ∀ p ∈ slots, p.2.offset % UInt32.size ≠ UInt32.size / 2)
    (hdisjoint : slots.Pairwise fun p q ↦ p.2.Disjoint q.2) : SlotsFit slots where
  size hv := by
    obtain ⟨w, -, -, hsize⟩ :=
      exists_of_forall₂ (forall₂_of_assignSlots h) (mem_of_lookup_eq_some hv)
    rw [hsize]
    exact Routine.vregSize_eq hsizes w
  offset {v s} hv := ofNat_ne_minValue (hoffset (v, s) (mem_of_lookup_eq_some hv))
  disjoint {v w s t} hv hw hne := by
    have : Std.Symm fun p q : Nat × Slot ↦ p.2.Disjoint q.2 := ⟨fun p q h ↦ h.symm⟩
    have hpair : (v, s) ≠ (w, t) := fun he ↦ hne (congrArg Prod.fst he)
    have hall := hdisjoint.forall (mem_of_lookup_eq_some hv) (mem_of_lookup_eq_some hw) hpair
    exact hall

/-- A first round of spilling keeps what a routine does: with words for registers, disjoint slots,
and a frame base that the routine does not write, code is found that follows the routine from any
registers and memory. The routine starts with what the slots hold in the spilled registers, and
neither it nor what it calls may touch the slots. -/
theorem follows_of_spill {catalog : Catalog}
    (hslots : assignSlots { routine := f, store := store } spills = .ok (slots, store'))
    (hsizes : ∀ x ∈ f.sizes, x = 4)
    (hoffset : ∀ p ∈ slots, p.2.offset % UInt32.size ≠ UInt32.size / 2)
    (hdisjoint : slots.Pairwise fun p q ↦ p.2.Disjoint q.2)
    (hold : ∀ i ∈ f.instrs, ∀ ρ ∈ i.uses ++ i.defs, ρ.IsOld f.vregCount)
    (hbase : ∀ i ∈ f.instrs, .phys catalog.frameBase ∉ i.defs) :
    slots.map Prod.fst = spills ∧
    ∃ w, spill { routine := f, store := store } catalog spills = .ok (w, slots) ∧
      ∀ env regs mem, env.Avoids (slotBytes (regs (.phys catalog.frameBase)) slots) →
        (∀ k, ∀ e ∈ (State.run env f.blocks k (.enter f.blocks 0
            (regs.withSlots slots (regs (.phys catalog.frameBase)) mem) mem)).1,
          e.Avoids (slotBytes (regs (.phys catalog.frameBase)) slots)) →
        Follows env slots f.vregCount catalog.frameBase (regs (.phys catalog.frameBase)) f.blocks
          w.routine.blocks
          (.enter f.blocks 0 (regs.withSlots slots (regs (.phys catalog.frameBase)) mem) mem)
          (.enter w.routine.blocks 0 regs mem) := by
  have hfit := slotsFit hslots hsizes hoffset hdisjoint
  have hinstrs : ∀ b ∈ f.blocks, ∀ i ∈ b.code, i ∈ f.instrs :=
    fun b hb i hi ↦ List.mem_flatMap.2 ⟨b, hb, hi⟩
  obtain ⟨blocks', known', hblocks, hspilled⟩ := exists_areSpilled hfit
    ({ sizes := f.sizes, owners := [] } : Temporaries) le_rfl
    (fun b hb i hi ↦ hold i (hinstrs b hb i hi)) fun b hb i hi ↦ hbase i (hinstrs b hb i hi)
  refine ⟨?_, _, bind_eq_ok_iff.2 ⟨(slots, store'), hslots,
    bind_eq_ok_iff.2 ⟨(blocks', known'), hblocks, rfl⟩⟩, fun env regs mem henv havoid ↦ ?_⟩
  · have hkeys := forall₂_of_assignSlots hslots
    clear hslots hoffset hdisjoint hfit hblocks hspilled
    induction hkeys with
    | nil => rfl
    | cons hp _ ih => rw [List.map_cons, hp.1, ih]
  · have hblocks := hspilled.mono fun i code hcode ↦ hcode env (regs (.phys catalog.frameBase)) henv
    exact (Related.enter hblocks
      (corresponds_withSlots slots f.vregCount catalog.frameBase regs mem) 0).follows hblocks havoid

end Spilling

/-- A run that is over has shown all that there is to see. -/
theorem State.mem_run_of_step_eq_none {env : Surroundings} {blocks : List Block} {s : State}
    {n : Nat} (h : (s.run env blocks n).2.step env blocks = none) {k : Nat} {e : Event}
    (he : e ∈ (s.run env blocks k).1) : e ∈ (s.run env blocks n).1 := by
  have hmem : e ∈ (s.run env blocks (n + k)).1 := by
    rw [Nat.add_comm, State.run_add]
    exact List.mem_append_left _ he
  rwa [State.run_add, State.run_of_step_eq_none h, List.append_nil] at hmem

/-- Adds a register to itself. -/
def Routine.double : Routine where
  name := "double"
  blocks :=
    [⟨"entry", [.mv (.virt 0) (.phys ⟨2, "t0"⟩), .arith .add (.virt 1) (.virt 0) (.virt 0),
      .ret [.virt 1] []]⟩]
  sizes := #[4, 4]

/-- The run is over after three steps, and only the last one shows something. -/
theorem Routine.avoids_double (env : Surroundings) (regs : Regs) (mem : Memory) (H : Set Word)
    (k : Nat) :
    ∀ e ∈ (State.run env double.blocks k (.enter double.blocks 0 regs mem)).1, e.Avoids H := by
  intro e he
  have hover : (State.run env double.blocks 3 (.enter double.blocks 0 regs mem)).2.step env
      double.blocks = none := rfl
  have hmem := State.mem_run_of_step_eq_none hover he
  rw [List.mem_singleton.1 hmem]
  trivial

/-- Both virtual registers are spilled, one to a slot that is near and one to a slot that is not. -/
theorem Spilling.follows_double :
    ∃ w, spill { routine := .double, store := (⟨2040, 8, []⟩ : StridedSlots) }
        Catalog.twoColours [0, 1] = .ok (w, [(0, ⟨2048, 4⟩), (1, ⟨2056, 4⟩)]) ∧
      ∀ (address : String → Word) (regs : Regs) (mem : Memory),
        Follows ⟨address, fun _ _ mem ↦ (fun _ ↦ 0, mem)⟩ [(0, ⟨2048, 4⟩), (1, ⟨2056, 4⟩)]
          Routine.double.vregCount Catalog.twoColours.frameBase
          (regs (.phys Catalog.twoColours.frameBase)) Routine.double.blocks w.routine.blocks
          (.enter Routine.double.blocks 0 (regs.withSlots [(0, ⟨2048, 4⟩), (1, ⟨2056, 4⟩)]
            (regs (.phys Catalog.twoColours.frameBase)) mem) mem)
          (.enter w.routine.blocks 0 regs mem) := by
  obtain ⟨store, hslots⟩ : ∃ store, assignSlots
      { routine := .double, store := (⟨2040, 8, []⟩ : StridedSlots) } [0, 1] =
        .ok ([(0, ⟨2048, 4⟩), (1, ⟨2056, 4⟩)], store) := ⟨_, rfl⟩
  have hbase : ∀ i ∈ Routine.double.instrs, .phys Catalog.twoColours.frameBase ∉ i.defs := by
    decide
  obtain ⟨-, w, hw, hfollows⟩ := follows_of_spill hslots (by decide) (by decide) (by decide)
    (by decide) hbase
  refine ⟨w, hw, fun address regs mem ↦ hfollows ⟨address, _⟩ regs mem ?_ ?_⟩
  · exact fun _ _ _ _ h ↦ ⟨rfl, h, fun _ _ ↦ rfl⟩
  · exact fun k ↦ Routine.avoids_double _ _ mem _ k

end RegAlloc

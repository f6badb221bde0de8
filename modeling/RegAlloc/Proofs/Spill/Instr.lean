import Mathlib
import RegAlloc.Proofs.Spill.Slot

/-!
# What an instruction with temporaries does

An instruction whose spilled registers are replaced by temporaries, with the loads in front of it
and the stores behind it, does what the instruction does: each temporary is loaded with the value of
its register, the temporaries are different from each other and from all the registers of the
function, and what is defined is stored. Only branches, jumps and returns leave the code, and those
define nothing, so a store is never passed over.
-/

namespace RegAlloc

/-- What is needed of the slots: each holds a word and can be addressed, and no two overlap. -/
structure SlotsFit (slots : List (Nat × Slot)) : Prop where
  size : ∀ {v s}, slots.lookup v = some s → s.size = 4
  offset : ∀ {v s}, slots.lookup v = some s → Int32.ofNat s.offset ≠ Int32.minValue
  disjoint : ∀ {v w s t}, slots.lookup v = some s → slots.lookup w = some t → v ≠ w → s.Disjoint t

/-- A register of a function with `n` virtual registers. -/
def Reg.IsOld (n : Nat) : Reg → Prop
  | virt v => v < n
  | phys _ => True

instance (n : Nat) : DecidablePred (Reg.IsOld n)
  | .virt v => inferInstanceAs (Decidable (v < n))
  | .phys _ => inferInstanceAs (Decidable True)

theorem Reg.IsOld.mono {m n : Nat} {ρ : Reg} (h : ρ.IsOld m) (hle : m ≤ n) : ρ.IsOld n := by
  cases ρ with
  | virt v => exact Nat.lt_of_lt_of_le h hle
  | phys r => trivial

/-- The register is not spilled. -/
def Reg.IsKept (slots : List (Nat × Slot)) : Reg → Prop
  | virt v => slots.lookup v = none
  | phys _ => True

/-- Where the registers of a function are while the spilled ones live in their slots. -/
structure Corresponds (slots : List (Nat × Slot)) (n : Nat) (frameBase : PhysReg) (base : Word)
    (regs : Regs) (mem : Memory) (regs' : Regs) (mem' : Memory) : Prop where
  frame : regs (.phys frameBase) = base
  kept : ∀ ρ : Reg, ρ.IsOld n → ρ.IsKept slots → regs' ρ = regs ρ
  slot : ∀ v s, slots.lookup v = some s → Width.word.load mem' (s.address base) = regs (.virt v)
  mem : Memory.EqOff (slotBytes base slots) mem mem'

/-- The code does what the instruction does, but for what it hides in the slots. -/
def Implements (env : Surroundings) (slots : List (Nat × Slot)) (n : Nat) (frameBase : PhysReg)
    (base : Word) (i : Instr) (code : List Instr) : Prop :=
  0 < code.length ∧ ∀ regs mem regs' mem', Corresponds slots n frameBase base regs mem regs' mem' →
    (∀ e ∈ (i.effect env regs mem).event, e.Avoids (slotBytes base slots)) →
    ∃ trace regs'' mem'',
      (∀ blocks b rest, (⟨b, code ++ rest, regs', mem'⟩ : State).run env blocks code.length =
        (trace, .follow blocks b rest regs'' mem'' (i.effect env regs mem).control)) ∧
      trace.filter (Event.Avoids (slotBytes base slots)) = (i.effect env regs mem).event.toList ∧
      Corresponds slots n frameBase base (regs.write i.defs (i.effect env regs mem).values)
        (i.effect env regs mem).mem regs'' mem''

/-- The code does so wherever the frame base is, if what is called keeps away from the slots. -/
def IsCodeOf (slots : List (Nat × Slot)) (n : Nat) (frameBase : PhysReg) (i : Instr)
    (code : List Instr) : Prop :=
  ∀ env base, env.Avoids (slotBytes base slots) → Implements env slots n frameBase base i code

variable {slots : List (Nat × Slot)} {frameBase : PhysReg} {n : Nat}

/-! ## Accesses to slots -/

theorem mem_of_lookup_eq_some {α : Type} {l : List (Nat × α)} {v : Nat} {a : α}
    (h : l.lookup v = some a) : (v, a) ∈ l := by
  obtain ⟨l₁, l₂, rfl, -⟩ := List.lookup_eq_some_iff.1 h
  simp

theorem address_mem_slotBytes {v k : Nat} {s : Slot} (h : slots.lookup v = some s) (hk : k < 4)
    (base : Word) : s.address base + BitVec.ofNat 32 k ∈ slotBytes base slots :=
  ⟨(v, s), mem_of_lookup_eq_some h, Slot.mem_bytes_iff.2 ⟨k, hk, rfl⟩⟩

theorem not_avoids_read {v : Nat} {s : Slot} (h : slots.lookup v = some s) (base : Word) :
    ¬(Event.read (s.address base) 4).Avoids (slotBytes base slots) :=
  fun ha ↦ ha 0 (by decide) (address_mem_slotBytes h (by decide) base)

theorem not_avoids_write {v : Nat} {s : Slot} (h : slots.lookup v = some s) (base w : Word) :
    ¬(Event.write (s.address base) (Width.word.split w)).Avoids (slotBytes base slots) :=
  fun ha ↦ ha 0 (by rw [Width.length_split]; decide) (address_mem_slotBytes h (by decide) base)

/-- A store to a slot changes nothing elsewhere. -/
theorem eqOff_write {v : Nat} {s : Slot} (h : slots.lookup v = some s) (base w : Word)
    (mem : Memory) : Memory.EqOff (slotBytes base slots) mem
      (mem.write (s.address base) (Width.word.split w)) := by
  intro x hx
  refine (Memory.write_of_avoids (H := {x}) (fun k hk he ↦ hx ?_) rfl).symm
  rw [Width.length_split] at hk
  rw [← Set.mem_singleton_iff.1 he]
  exact address_mem_slotBytes h hk base

/-! ## All the loads and stores of an instruction -/

/-- The code puts what the slots hold into the temporaries. -/
def LoadsInto (slots : List (Nat × Slot)) (frameBase : PhysReg) (temporary : Nat → Nat)
    (used : List (Nat × Slot)) (code : List Instr) : Prop :=
  ∀ env regs mem, ∃ trace regs', RunsThrough env code regs mem trace regs' mem ∧
    (∀ e ∈ trace, ¬e.Avoids (slotBytes (regs (.phys frameBase)) slots)) ∧
    (∀ x ∈ used, regs' (.virt (temporary x.1)) =
      Width.word.load mem (x.2.address (regs (.phys frameBase)))) ∧
    ∀ ρ, (∀ x ∈ used, ρ ≠ .virt (temporary x.1)) → regs' ρ = regs ρ

/-- The code puts the temporaries into the slots, and keeps the first `m` virtual registers. -/
def StoresFrom (slots : List (Nat × Slot)) (frameBase : PhysReg) (temporary : Nat → Nat)
    (defined : List (Nat × Slot)) (m : Nat) (code : List Instr) : Prop :=
  ∀ env regs mem, ∃ trace regs' mem', RunsThrough env code regs mem trace regs' mem' ∧
    (∀ e ∈ trace, ¬e.Avoids (slotBytes (regs (.phys frameBase)) slots)) ∧
    (∀ ρ : Reg, ρ.IsOld m → regs' ρ = regs ρ) ∧
    Memory.EqOff (slotBytes (regs (.phys frameBase)) slots) mem mem' ∧
    ∀ v s, slots.lookup v = some s →
      Width.word.load mem' (s.address (regs (.phys frameBase))) =
        if (v, s) ∈ defined then regs (.virt (temporary v))
        else Width.word.load mem (s.address (regs (.phys frameBase)))

theorem LoadsInto.nil (temporary : Nat → Nat) : LoadsInto slots frameBase temporary [] [] :=
  fun _ regs _ ↦ ⟨[], regs, .nil, by simp, by simp, fun _ _ ↦ rfl⟩

/-- One more load comes first. Its temporary is not loaded again, so it keeps what it gets. -/
theorem LoadsInto.cons {temporary : Nat → Nat} {used : List (Nat × Slot)} {loads : List Instr}
    (h : LoadsInto slots frameBase temporary used loads) {v : Nat} {s : Slot}
    (hv : slots.lookup v = some s)
    (hne : ∀ x ∈ used, temporary v = temporary x.1 → (v, s) = x) {code : List Instr}
    (hcode : ∀ env regs mem,
      RunsThrough env code regs mem [.read (s.address (regs (.phys frameBase))) 4]
        (Function.update regs (.virt (temporary v))
          (Width.word.load mem (s.address (regs (.phys frameBase))))) mem) :
    LoadsInto slots frameBase temporary ((v, s) :: used) (code ++ loads) := by
  intro env regs mem
  have hbase : Reg.phys frameBase ≠ .virt (temporary v) := by simp
  obtain ⟨trace, regs', hthrough, hhidden, hvalue, hframe⟩ := h env
    (Function.update regs (.virt (temporary v))
      (Width.word.load mem (s.address (regs (.phys frameBase))))) mem
  rw [Function.update_of_ne hbase] at hhidden hvalue
  refine ⟨_, regs', (hcode env regs mem).append hthrough, ?_, ?_, ?_⟩
  · intro e he
    rcases List.mem_append.1 he with he | he
    · rw [List.mem_singleton.1 he]
      exact not_avoids_read hv _
    · exact hhidden e he
  · intro y hy
    by_cases hmem : y ∈ used
    · exact hvalue y hmem
    · obtain rfl : y = (v, s) := (List.mem_cons.1 hy).resolve_right hmem
      rw [hframe, Function.update_self]
      intro z hz he
      rw [Reg.virt.injEq] at he
      exact hmem (hne z hz he ▸ hz)
  · intro ρ hρ
    rw [hframe ρ fun y hy ↦ hρ y (List.mem_cons_of_mem _ hy)]
    exact Function.update_of_ne (hρ (v, s) List.mem_cons_self) _ _

theorem exists_loads (hfit : SlotsFit slots) (frameBase : PhysReg) (temporary : Nat → Nat)
    (used : List (Nat × Slot)) (hused : ∀ x ∈ used, slots.lookup x.1 = some x.2)
    (hinj : ∀ x ∈ used, ∀ y ∈ used, temporary x.1 = temporary y.1 → x = y) :
    ∃ loads, used.mapM (fun (v, slot) ↦ loadSlot (.phys frameBase) (temporary v) slot) =
        .ok loads ∧
      LoadsInto slots frameBase temporary used loads.flatten := by
  induction used with
  | nil => exact ⟨[], rfl, .nil temporary⟩
  | cons x used ih =>
    obtain ⟨v, s⟩ := x
    have hv := hused (v, s) List.mem_cons_self
    have hne : Reg.phys frameBase ≠ .virt (temporary v) := by simp
    obtain ⟨code, hcode, hrun⟩ := exists_loadSlot hne (hfit.size hv) (hfit.offset hv)
    obtain ⟨loads, hloads, hruns⟩ := ih (fun y hy ↦ hused y (List.mem_cons_of_mem _ hy))
      fun y hy z hz ↦ hinj y (List.mem_cons_of_mem _ hy) z (List.mem_cons_of_mem _ hz)
    refine ⟨code :: loads, ?_, hruns.cons hv (fun y hy ↦ ?_) hrun⟩
    · rw [List.mapM_cons, hloads]
      simp only [hcode]
      rfl
    · exact hinj _ List.mem_cons_self y (List.mem_cons_of_mem _ hy)

theorem StoresFrom.nil (temporary : Nat → Nat) : StoresFrom slots frameBase temporary [] n [] :=
  fun _ regs mem ↦ ⟨[], regs, mem, .nil, by simp, fun _ _ ↦ rfl, .refl _ _, by simp⟩

/-- One more store comes first. It may use the register `n` for the address, so those that follow
keep that one too; the other slots are not touched, being disjoint. -/
theorem StoresFrom.cons {temporary : Nat → Nat} {defined : List (Nat × Slot)}
    {stores : List Instr} {m : Nat} (h : StoresFrom slots frameBase temporary defined m stores)
    (hfit : SlotsFit slots) (hnm : n ≤ m) (hlt : ∀ x ∈ defined, temporary x.1 < n) {w : Nat}
    {t : Slot} (hw : slots.lookup w = some t) {code : List Instr}
    (hcode : ∀ env regs mem, ∃ regs',
      RunsThrough env code regs mem
        [.write (t.address (regs (.phys frameBase)))
          (Width.word.split (regs (.virt (temporary w))))] regs'
        (mem.write (t.address (regs (.phys frameBase)))
          (Width.word.split (regs (.virt (temporary w))))) ∧
      ∀ ρ, ρ ≠ .virt n → regs' ρ = regs ρ) :
    StoresFrom slots frameBase temporary ((w, t) :: defined) n (code ++ stores) := by
  intro env regs mem
  obtain ⟨regs₁, hthrough₁, hframe₁⟩ := hcode env regs mem
  obtain ⟨trace, regs', mem', hthrough, hhidden, hframe, heq, hload⟩ := h env regs₁
    (mem.write (t.address (regs (.phys frameBase))) (Width.word.split (regs (.virt (temporary w)))))
  rw [hframe₁ (.phys frameBase) (by simp)] at hhidden heq hload
  have hold : ∀ ρ : Reg, ρ.IsOld n → regs₁ ρ = regs ρ := by
    intro ρ hρ
    refine hframe₁ ρ fun he ↦ ?_
    rw [he] at hρ
    exact lt_irrefl _ hρ
  refine ⟨_, regs', mem', hthrough₁.append hthrough, ?_, ?_, ?_, ?_⟩
  · intro e he
    rcases List.mem_append.1 he with he | he
    · rw [List.mem_singleton.1 he]
      exact not_avoids_write hw _ _
    · exact hhidden e he
  · exact fun ρ hρ ↦ (hframe ρ (hρ.mono hnm)).trans (hold ρ hρ)
  · exact (eqOff_write hw _ _ mem).trans heq
  · intro v s hv
    rw [hload v s hv]
    by_cases hmem : (v, s) ∈ defined
    · rw [if_pos hmem, if_pos (List.mem_cons_of_mem _ hmem)]
      exact hold _ (hlt _ hmem)
    · rw [if_neg hmem]
      by_cases hvw : v = w
      · rw [hvw, hw, Option.some.injEq] at hv
        rw [hvw, ← hv, if_pos List.mem_cons_self, Width.load_write]
      · rw [if_neg (by simp [hvw, hmem]), (hfit.disjoint hw hv (Ne.symm hvw)).load_write]

theorem exists_stores (hfit : SlotsFit slots) (frameBase : PhysReg) (temporary : Nat → Nat)
    (defined : List (Nat × Slot)) (hdefined : ∀ x ∈ defined, slots.lookup x.1 = some x.2)
    (sizes : Array Nat) (hlt : ∀ x ∈ defined, temporary x.1 < sizes.size) :
    ∃ stores sizes',
      mapAccumM (fun sizes (v, slot) ↦ storeSlot (.phys frameBase) (temporary v) slot sizes) sizes
        defined = .ok (stores, sizes') ∧
      sizes.size ≤ sizes'.size ∧
      StoresFrom slots frameBase temporary defined sizes.size stores.flatten := by
  induction defined generalizing sizes with
  | nil => exact ⟨[], sizes, rfl, le_rfl, .nil temporary⟩
  | cons x defined ih =>
    obtain ⟨w, t⟩ := x
    have hw : slots.lookup w = some t := hdefined (w, t) List.mem_cons_self
    have hne : Reg.phys frameBase ≠ .virt sizes.size := by simp
    have hlt' : ∀ y ∈ defined, temporary y.1 < sizes.size :=
      fun y hy ↦ hlt y (List.mem_cons_of_mem _ hy)
    obtain ⟨code, sizes₁, hcode, hle, hrun⟩ :=
      exists_storeSlot hne (hlt _ List.mem_cons_self) (hfit.size hw) (hfit.offset hw)
    obtain ⟨stores, sizes', hstores, hle', hruns⟩ :=
      ih (fun y hy ↦ hdefined y (List.mem_cons_of_mem _ hy)) sizes₁
        fun y hy ↦ (hlt' y hy).trans_le hle
    refine ⟨code :: stores, sizes', ?_, hle.trans hle', hruns.cons hfit hle hlt' hw hrun⟩
    exact bind_eq_ok_iff.2 ⟨(code, sizes₁), hcode,
      bind_eq_ok_iff.2 ⟨(stores, sizes'), hstores, rfl⟩⟩

/-! ## Temporaries -/

/-- What the temporaries stand for: each is a fresh register below `m`, and no two are the same. -/
structure IsRenaming (slots : List (Nat × Slot)) (rs : List Reg) (n m : Nat)
    (temporaries : List (Nat × Nat)) : Prop where
  exists_of_mem : ∀ {v s}, .virt v ∈ rs → slots.lookup v = some s →
    ∃ t, temporaries.lookup v = some t
  lookup_ne_none : ∀ {v t}, temporaries.lookup v = some t → slots.lookup v ≠ none
  bounds : ∀ {v t}, temporaries.lookup v = some t → n ≤ t ∧ t < m
  inj : ∀ {v w t}, temporaries.lookup v = some t → temporaries.lookup w = some t → v = w

theorem mem_spilledAmong {rs : List Reg} {v : Nat} {s : Slot} :
    (v, s) ∈ spilledAmong slots rs ↔ .virt v ∈ rs ∧ slots.lookup v = some s := by
  simp only [spilledAmong, List.mem_filterMap, mem_distinct, Reg.vreg?_eq_some_iff,
    exists_eq_right, Option.map_eq_some_iff, Prod.mk.injEq]
  constructor
  · rintro ⟨w, hw, s', hs, rfl, rfl⟩
    exact ⟨hw, hs⟩
  · rintro ⟨hv, hs⟩
    exact ⟨v, hv, s, hs, rfl, rfl⟩

theorem of_lookup_zipIdx {L : List (Nat × Slot)} {n v t : Nat}
    (h : ((L.zipIdx n).map fun ((v, _), t) ↦ (v, t)).lookup v = some t) :
    n ≤ t ∧ ∃ s, L[t - n]? = some (v, s) := by
  obtain ⟨⟨⟨w, s⟩, k⟩, hk, he⟩ := List.mem_map.1 (mem_of_lookup_eq_some h)
  cases he
  rw [List.mk_mem_zipIdx_iff_le_and_getElem?_sub] at hk
  exact ⟨hk.1, s, hk.2⟩

/-- The spilled registers of an instruction, each once, with their slots. -/
def spilledIn (slots : List (Nat × Slot)) (i : Instr) : List (Nat × Slot) :=
  distinct (spilledAmong slots i.uses ++ spilledAmong slots i.defs)

theorem mem_spilledIn {i : Instr} {v : Nat} {s : Slot} : (v, s) ∈ spilledIn slots i ↔
    .virt v ∈ i.uses ++ i.defs ∧ slots.lookup v = some s := by
  rw [spilledIn, mem_distinct, List.mem_append, mem_spilledAmong, mem_spilledAmong, List.mem_append,
    or_and_right]

/-- Their temporaries, which are numbered from `n` on. -/
def temporariesIn (slots : List (Nat × Slot)) (n : Nat) (i : Instr) : List (Nat × Nat) :=
  ((spilledIn slots i).zipIdx n).map fun ((v, _), t) ↦ (v, t)

/-- The sizes of the virtual registers, with the temporaries. -/
def sizesIn (slots : List (Nat × Slot)) (sizes : Array Nat) (i : Instr) : Array Nat :=
  sizes ++ ((spilledIn slots i).zipIdx sizes.size).map fun ((_, slot), _) ↦ slot.size

theorem size_sizesIn (sizes : Array Nat) (i : Instr) :
    (sizesIn slots sizes i).size = sizes.size + (spilledIn slots i).length := by
  rw [sizesIn, ← Array.length_toList, Array.toList_appendList]
  simp

theorem isRenaming_temporariesIn (slots : List (Nat × Slot)) (n : Nat) (i : Instr) :
    IsRenaming slots (i.uses ++ i.defs) n (n + (spilledIn slots i).length)
      (temporariesIn slots n i) where
  exists_of_mem := by
    intro v s hv hs
    obtain ⟨k, hk⟩ := List.mem_iff_getElem?.1 (mem_spilledIn.2 ⟨hv, hs⟩)
    have hmem : ((v, s), n + k) ∈ (spilledIn slots i).zipIdx n := by
      simp [List.mk_mem_zipIdx_iff_le_and_getElem?_sub, hk]
    rw [← Option.ne_none_iff_exists', ne_eq, List.lookup_eq_none_iff]
    intro hall
    simpa using hall _ (List.mem_map_of_mem hmem)
  lookup_ne_none := by
    intro v t ht hnone
    obtain ⟨-, s, hs⟩ := of_lookup_zipIdx ht
    rw [(mem_spilledIn.1 (List.mem_of_getElem? hs)).2] at hnone
    cases hnone
  bounds := by
    intro v t ht
    obtain ⟨hle, s, hs⟩ := of_lookup_zipIdx ht
    have hlt := (List.getElem?_eq_some_iff.1 hs).1
    omega
  inj := by
    intro v w t hv hw
    obtain ⟨-, s, hs⟩ := of_lookup_zipIdx hv
    obtain ⟨-, s', hs'⟩ := of_lookup_zipIdx hw
    rw [hs] at hs'
    cases hs'
    rfl

namespace IsRenaming

variable {rs : List Reg} {m : Nat} {temporaries : List (Nat × Nat)} {ρ σ : Reg}

theorem substitute_of_isKept (h : IsRenaming slots rs n m temporaries) (hρ : ρ.IsKept slots) :
    substitute temporaries ρ = ρ := by
  cases ρ with
  | virt v =>
    have hnone : temporaries.lookup v = none := by
      by_contra hne
      obtain ⟨t, ht⟩ := Option.ne_none_iff_exists'.1 hne
      exact h.lookup_ne_none ht hρ
    rw [substitute, hnone, Option.getD_none]
  | phys r => rfl

/-- Different registers of the function stay different. -/
theorem eq_of_substitute (h : IsRenaming slots rs n m temporaries) (hρ : ρ.IsOld n)
    (hσ : σ.IsOld n) (he : substitute temporaries ρ = substitute temporaries σ) : ρ = σ := by
  cases ρ with
  | phys r =>
    cases σ with
    | phys r' => exact he
    | virt w => cases he
  | virt v =>
    cases σ with
    | phys r' => cases he
    | virt w =>
      simp only [substitute, Reg.virt.injEq] at he
      simp only [Reg.IsOld] at hρ hσ
      cases hv : temporaries.lookup v with
      | none =>
        cases hw : temporaries.lookup w with
        | none => simpa [hv, hw] using he
        | some t =>
          have := (h.bounds hw).1
          simp only [hv, hw, Option.getD_none, Option.getD_some] at he
          omega
      | some t =>
        cases hw : temporaries.lookup w with
        | none =>
          have := (h.bounds hv).1
          simp only [hv, hw, Option.getD_none, Option.getD_some] at he
          omega
        | some t' =>
          simp only [hv, hw, Option.getD_some] at he
          rw [h.inj hv (he ▸ hw)]

/-- The temporary of a spilled register of the list. -/
theorem getD_lookup_bounds (h : IsRenaming slots rs n m temporaries) {v : Nat} {s : Slot}
    (hv : .virt v ∈ rs) (hs : slots.lookup v = some s) :
    n ≤ (temporaries.lookup v).getD v ∧ (temporaries.lookup v).getD v < m := by
  obtain ⟨t, ht⟩ := h.exists_of_mem hv hs
  rw [ht, Option.getD_some]
  exact h.bounds ht

end IsRenaming

theorem Reg.isKept_or (slots : List (Nat × Slot)) (ρ : Reg) :
    ρ.IsKept slots ∨ ∃ v s, ρ = .virt v ∧ slots.lookup v = some s := by
  cases ρ with
  | virt v =>
    cases hv : slots.lookup v with
    | none => exact .inl hv
    | some s => exact .inr ⟨v, s, rfl, hv⟩
  | phys r => exact .inl trivial

/-! ## One instruction -/

section Parts

variable {i : Instr} {m : Nat} {temporaries : List (Nat × Nat)} {base : Word} {regs regs' : Regs}
  {mem mem' : Memory}

/-- The temporaries of an instruction hold the values of the registers that it uses. -/
structure Loaded (slots : List (Nat × Slot)) (n : Nat) (i : Instr)
    (temporaries : List (Nat × Nat)) (regs regs' : Regs) : Prop where
  uses : ∀ ρ ∈ i.uses, regs' (substitute temporaries ρ) = regs ρ
  kept : ∀ ρ : Reg, ρ.IsOld n → ρ.IsKept slots → regs' ρ = regs ρ

/-- That is what the loads are for. -/
theorem Corresponds.loaded (h : Corresponds slots n frameBase base regs mem regs' mem')
    {n' : Nat} (hn : n ≤ n') (hren : IsRenaming slots (i.uses ++ i.defs) n' m temporaries)
    (hold : ∀ ρ ∈ i.uses ++ i.defs, ρ.IsOld n) {regs₁ : Regs}
    (hvalue : ∀ x ∈ spilledAmong slots i.uses,
      regs₁ (.virt ((temporaries.lookup x.1).getD x.1)) =
        Width.word.load mem' (x.2.address base))
    (hframe : ∀ ρ, (∀ x ∈ spilledAmong slots i.uses,
      ρ ≠ .virt ((temporaries.lookup x.1).getD x.1)) → regs₁ ρ = regs' ρ) :
    Loaded slots n i temporaries regs regs₁ := by
  have hkept : ∀ ρ : Reg, ρ.IsOld n → ρ.IsKept slots → regs₁ ρ = regs ρ := by
    intro ρ hρ hk
    rw [hframe ρ, h.kept ρ hρ hk]
    rintro ⟨v, s⟩ hv rfl
    obtain ⟨hv, hs⟩ := mem_spilledAmong.1 hv
    have hle := (hren.getD_lookup_bounds (List.mem_append_left _ hv) hs).1
    exact absurd hρ (not_lt.2 (hn.trans hle))
  refine ⟨fun ρ hρ ↦ ?_, hkept⟩
  rcases ρ.isKept_or slots with hk | ⟨v, s, rfl, hs⟩
  · rw [hren.substitute_of_isKept hk]
    exact hkept ρ (hold ρ (List.mem_append_left _ hρ)) hk
  · exact (hvalue (v, s) (mem_spilledAmong.2 ⟨hρ, hs⟩)).trans (h.slot v s hs)

/-- What the instruction writes goes to the temporaries. -/
theorem Loaded.write {regs₁ : Regs} (h : Loaded slots n i temporaries regs regs₁) {n' : Nat}
    (hn : n ≤ n') (hren : IsRenaming slots (i.uses ++ i.defs) n' m temporaries)
    (hold : ∀ ρ ∈ i.uses ++ i.defs, ρ.IsOld n) {values : List Word}
    (hlen : values.length = i.defs.length) {ρ : Reg} (hρ : ρ.IsOld n)
    (hk : ρ.IsKept slots ∨ ρ ∈ i.defs) :
    regs₁.write (i.mapRegs (substitute temporaries)).defs values (substitute temporaries ρ) =
      regs.write i.defs values ρ := by
  rw [Instr.defs_mapRegs]
  refine Regs.write_map hlen (fun d hd he ↦ ?_) fun hdefs ↦ ?_
  · have hd := hold d (List.mem_append_right _ hd)
    exact hren.eq_of_substitute (hd.mono hn) (hρ.mono hn) he
  · have hk := hk.resolve_right hdefs
    rw [hren.substitute_of_isKept hk]
    exact h.kept ρ hρ hk

/-- When the temporaries of the defined registers are stored, the registers correspond again. -/
theorem Corresponds.stored (h : Corresponds slots n frameBase base regs mem regs' mem')
    {n' : Nat} (hn : n ≤ n') (hm : n' ≤ m)
    (hren : IsRenaming slots (i.uses ++ i.defs) n' m temporaries)
    (hold : ∀ ρ ∈ i.uses ++ i.defs, ρ.IsOld n) (hbase : .phys frameBase ∉ i.defs)
    {regs₁ regs₂ regs₃ : Regs} (hl : Loaded slots n i temporaries regs regs₁) {e e' : Effect}
    (halike : Effect.Alike (slotBytes base slots) mem' e e')
    (hlen : e.values.length = i.defs.length)
    (hregs₂ : regs₂ = regs₁.write (i.mapRegs (substitute temporaries)).defs e.values)
    {mem₃ : Memory} (hframe : ∀ ρ : Reg, ρ.IsOld m → regs₃ ρ = regs₂ ρ)
    (heq : Memory.EqOff (slotBytes base slots) e'.mem mem₃)
    (hload : ∀ v s, slots.lookup v = some s → Width.word.load mem₃ (s.address base) =
      if (v, s) ∈ spilledAmong slots i.defs then regs₂ (.virt ((temporaries.lookup v).getD v))
      else Width.word.load e'.mem (s.address base)) :
    Corresponds slots n frameBase base (regs.write i.defs e.values) e.mem regs₃ mem₃ where
  frame := by
    rw [Regs.write_of_notMem _ _ hbase]
    exact h.frame
  kept ρ hρ hk := by
    rw [hframe ρ (hρ.mono (hn.trans hm)), hregs₂,
      ← hl.write hn hren hold hlen hρ (.inl hk), hren.substitute_of_isKept hk]
  slot v s hs := by
    rw [hload v s hs]
    split
    · rename_i hdef
      have hv := (mem_spilledAmong.1 hdef).1
      rw [hregs₂]
      exact hl.write hn hren hold hlen (hold _ (List.mem_append_right _ hv)) (.inr hv)
    · rename_i hdef
      have hv : .virt v ∉ i.defs := fun hv ↦ hdef (mem_spilledAmong.2 ⟨hv, hs⟩)
      rw [Regs.write_of_notMem _ _ hv, ← h.slot v s hs]
      exact Width.load_congr fun k hk ↦ halike.hidden _ (address_mem_slotBytes hs hk base)
  mem := halike.mem.trans heq

end Parts

theorem Instr.control_eq_next_or (i : Instr) (env : Surroundings) (regs : Regs) (mem : Memory) :
    (i.effect env regs mem).control = .next ∨ i.defs = [] := by
  cases i <;> simp [effect, defs]

theorem RunsThrough.eq_of_nil {env : Surroundings} {regs regs' : Regs} {mem mem' : Memory}
    {trace : List Event} (h : RunsThrough env [] regs mem trace regs' mem') :
    trace = [] ∧ regs' = regs ∧ mem' = mem := by
  have := h [] 0 []
  simp only [State.run, List.nil_append, List.length_nil, Prod.mk.injEq, State.mk.injEq] at this
  exact ⟨this.1.symm, this.2.2.2.1.symm, this.2.2.2.2.symm⟩

/-- Loads, the instruction over the temporaries, and stores do what the instruction does. -/
theorem implements_of_parts {i : Instr} {n' m : Nat} {temporaries : List (Nat × Nat)} (hn : n ≤ n')
    (hm : n' ≤ m) (hren : IsRenaming slots (i.uses ++ i.defs) n' m temporaries)
    (hold : ∀ ρ ∈ i.uses ++ i.defs, ρ.IsOld n) (hbase : .phys frameBase ∉ i.defs)
    {loads stores : List Instr}
    (hloads : LoadsInto slots frameBase (fun v ↦ (temporaries.lookup v).getD v)
      (spilledAmong slots i.uses) loads)
    (hstores : StoresFrom slots frameBase (fun v ↦ (temporaries.lookup v).getD v)
      (spilledAmong slots i.defs) m stores)
    (hnil : i.defs = [] → stores = []) {env : Surroundings} {base : Word}
    (henv : env.Avoids (slotBytes base slots)) :
    Implements env slots n frameBase base i
      (loads ++ [i.mapRegs (substitute temporaries)] ++ stores) := by
  refine ⟨by simp, fun regs mem regs' mem' h hevent ↦ ?_⟩
  have hframe' : regs' (.phys frameBase) = base :=
    (h.kept (.phys frameBase) trivial trivial).trans h.frame
  obtain ⟨trace₁, regs₁, hrun₁, hhidden₁, hvalue, hkeep⟩ := hloads env regs' mem'
  rw [hframe'] at hhidden₁ hvalue
  have hl := h.loaded hn hren hold hvalue hkeep
  have halike : Effect.Alike (slotBytes base slots) mem' (i.effect env regs mem)
      ((i.mapRegs (substitute temporaries)).effect env regs₁ mem') := by
    refine Instr.effect_mapRegs hl.uses (fun ρ σ hi he ↦ ?_) h.mem henv hevent
    have hmem := Instr.mem_of_symbolicStore? hi
    exact hren.eq_of_substitute ((hold ρ hmem.1).mono hn) ((hold σ hmem.2).mono hn) he
  have hregs₂ : regs₁.write (i.mapRegs (substitute temporaries)).defs
      (i.effect env regs mem).values (.phys frameBase) = base := by
    rw [← h.frame, ← Regs.write_of_notMem regs (i.effect env regs mem).values hbase]
    exact hl.write hn hren hold i.length_values (ρ := .phys frameBase) trivial (.inl trivial)
  obtain ⟨trace₃, regs₃, mem₃, hrun₃, hhidden₃, hkeep₃, heq, hload⟩ := hstores env
    (regs₁.write (i.mapRegs (substitute temporaries)).defs (i.effect env regs mem).values)
    ((i.mapRegs (substitute temporaries)).effect env regs₁ mem').mem
  rw [hregs₂] at hhidden₃ heq hload
  refine ⟨trace₁ ++ (i.effect env regs mem).event.toList ++ trace₃, regs₃, mem₃, ?_, ?_,
    h.stored hn hm hren hold hbase hl halike i.length_values rfl hkeep₃ heq hload⟩
  · intro blocks b rest
    rcases i.control_eq_next_or env regs mem with hnext | hdefs
    · have hrun₂ := RunsThrough.singleton (i.mapRegs (substitute temporaries)) env regs₁ mem'
        (halike.control.trans hnext)
      rw [halike.event, halike.values] at hrun₂
      rw [hnext]
      exact (hrun₁.append hrun₂).append hrun₃ blocks b rest
    · -- nothing is stored, so control may go elsewhere
      obtain rfl := hnil hdefs
      obtain ⟨rfl, rfl, rfl⟩ := hrun₃.eq_of_nil
      rw [List.append_nil, List.append_nil, List.append_assoc, List.length_append, State.run_add,
        hrun₁, List.length_singleton, State.run_succ (State.step_of_rest_eq_cons rfl), State.run,
        List.append_nil, halike.event, halike.values, halike.control]
      rfl
  · have hfilter : ∀ {trace : List Event}, (∀ e ∈ trace, ¬e.Avoids (slotBytes base slots)) →
        trace.filter (Event.Avoids (slotBytes base slots)) = [] := by
      intro trace htrace
      exact List.filter_eq_nil_iff.2 fun e he ↦ by simpa using htrace e he
    rw [List.filter_append, List.filter_append, hfilter hhidden₁, hfilter hhidden₃, List.nil_append,
      List.append_nil, List.filter_eq_self]
    exact fun e he ↦ decide_eq_true (hevent e (Option.mem_toList.1 he))

/-- The code of an instruction is found, and does what the instruction does. -/
theorem exists_spillInstr (hfit : SlotsFit slots) {known : Temporaries}
    (hn : n ≤ known.sizes.size) {i : Instr} (hold : ∀ ρ ∈ i.uses ++ i.defs, ρ.IsOld n)
    (hbase : .phys frameBase ∉ i.defs) :
    ∃ code known', spillInstr slots (.phys frameBase) known i = .ok (code, known') ∧
      n ≤ known'.sizes.size ∧ IsCodeOf slots n frameBase i code := by
  have hren := isRenaming_temporariesIn slots known.sizes.size i
  have hinj : ∀ x ∈ spilledAmong slots i.uses, ∀ y ∈ spilledAmong slots i.uses,
      ((temporariesIn slots known.sizes.size i).lookup x.1).getD x.1 =
        ((temporariesIn slots known.sizes.size i).lookup y.1).getD y.1 → x = y := by
    rintro ⟨v, s⟩ hx ⟨w, t⟩ hy he
    obtain ⟨hv, hs⟩ := mem_spilledAmong.1 hx
    obtain ⟨hw, ht⟩ := mem_spilledAmong.1 hy
    have hvw := hren.eq_of_substitute ((hold _ (List.mem_append_left _ hv)).mono hn)
      ((hold _ (List.mem_append_left _ hw)).mono hn) (congrArg Reg.virt he)
    cases hvw
    rw [hs] at ht
    cases ht
    rfl
  obtain ⟨loads, hloads, hrunLoads⟩ := exists_loads hfit frameBase
    (fun v ↦ ((temporariesIn slots known.sizes.size i).lookup v).getD v)
    (spilledAmong slots i.uses) (fun x hx ↦ (mem_spilledAmong.1 hx).2) hinj
  have hlt : ∀ x ∈ spilledAmong slots i.defs,
      ((temporariesIn slots known.sizes.size i).lookup x.1).getD x.1 <
        (sizesIn slots known.sizes i).size := by
    rintro ⟨v, s⟩ hx
    obtain ⟨hv, hs⟩ := mem_spilledAmong.1 hx
    rw [size_sizesIn]
    exact (hren.getD_lookup_bounds (List.mem_append_right _ hv) hs).2
  obtain ⟨stores, sizes', hstores, hle, hrunStores⟩ := exists_stores hfit frameBase
    (fun v ↦ ((temporariesIn slots known.sizes.size i).lookup v).getD v)
    (spilledAmong slots i.defs) (fun x hx ↦ (mem_spilledAmong.1 hx).2)
    (sizesIn slots known.sizes i) hlt
  rw [size_sizesIn] at hle hrunStores
  refine ⟨_, _, bind_eq_ok_iff.2 ⟨loads, hloads, bind_eq_ok_iff.2 ⟨(stores, sizes'), hstores, rfl⟩⟩,
    (hn.trans (Nat.le_add_right _ _)).trans hle, fun env base henv ↦
      implements_of_parts hn (Nat.le_add_right _ _) hren hold hbase hrunLoads hrunStores ?_ henv⟩
  intro hdefs
  rw [hdefs] at hstores
  cases hstores
  rfl

end RegAlloc

import Mathlib
import RegAlloc.Proofs.Spill.Code

/-!
# Registers and slots that stand for a register

After some rounds of spilling a register of the input may be in several places: in temporaries of
several generations, and in its slot. A `Shadow` says what value each register of the input has at a
point of the code, and which places hold it there. `Layout.Does` gives what each kind of inserted
code does to a shadow, and `Layout.Tracks` what code as a whole does. Such code runs as its shadows
say: it accesses slots only to load from them and to store into them what their owners have.
-/

namespace RegAlloc

/-- The registers of the input that registers stand for, and the slots of those. -/
structure Layout where
  frameBase : PhysReg
  owner : Nat → Nat
  slots : List (Nat × Slot)

/-- The values of the registers of the input, and the places where they are. -/
structure Shadow where
  values : Regs
  mem : Memory
  /-- The registers that hold the values of the registers that they stand for. -/
  held : Set Reg
  /-- The registers whose values are in their slots. -/
  saved : Set Nat

namespace Shadow

/-- One more register holds the value. -/
def hold (A : Shadow) (ρ : Reg) : Shadow :=
  { A with held := insert ρ A.held }

/-- One more slot holds the value. -/
def save (A : Shadow) (v : Nat) : Shadow :=
  { A with saved := insert v A.saved }

end Shadow

namespace Layout

/-- The register that a register stands for. -/
def own (L : Layout) : Reg → Reg
  | .virt v => .virt (L.owner v)
  | .phys r => .phys r

/-- Owners come first, and their slots hold words that do not overlap. -/
structure Fits (L : Layout) : Prop where
  owner_le : ∀ v, L.owner v ≤ v
  size : ∀ {v s}, L.slots.lookup v = some s → s.size = 4
  disjoint : ∀ {v w s t}, L.slots.lookup v = some s → L.slots.lookup w = some t → v ≠ w →
    s.Disjoint t

/-- The instruction is run over registers that stand for its own. The places of what it defines no
longer hold the value, but for the registers that are written. -/
def exec (L : Layout) (env : Surroundings) (A : Shadow) (i : Instr) (φ : Reg → Reg) : Shadow where
  values := A.values.write i.defs (i.effect env A.values A.mem).values
  mem := (i.effect env A.values A.mem).mem
  held := {ρ | ρ ∈ A.held ∧ L.own ρ ∉ i.defs} ∪ {ρ | ∃ d ∈ i.defs, φ d = ρ}
  saved := {v | v ∈ A.saved ∧ .virt v ∉ i.defs}

/-- Registers stand for those of an instruction, and hold the values that it uses. -/
structure Stands (L : Layout) (A : Shadow) (i : Instr) (φ : Reg → Reg) : Prop where
  own : ∀ ρ ∈ i.uses ++ i.defs, L.own (φ ρ) = ρ
  held : ∀ ρ ∈ i.uses, φ ρ ∈ A.held

/-- What a piece of code does to a shadow: what can be seen of it, and where control goes. -/
inductive Does (L : Layout) (env : Surroundings) (base : Word) (A : Shadow) :
    List Instr → Option Event → Control → Shadow → Prop
  /-- A temporary is loaded from the slot of its owner. -/
  | load {t : Nat} {s : Slot} {code : List Instr} (hs : L.slots.lookup (L.owner t) = some s)
    (hsaved : L.owner t ∈ A.saved) (hne : L.owner t ≠ t)
    (hcode : LoadsSlot (.phys L.frameBase) t s code) :
    Does L env base A code none .next (A.hold (.virt t))
  /-- A register is stored to the slot of its owner. -/
  | store {t : Nat} {s : Slot} (hs : L.slots.lookup (L.owner t) = some s)
    (ht : .virt t ∈ A.held) :
    Does L env base A
      [.store (.ofSize s.size) (.virt t) (.phys L.frameBase) (-Int32.ofNat s.offset)] none .next
      (A.save (L.owner t))
  /-- The same, with the address of the slot in a register. -/
  | storeVia {t a : Nat} {s : Slot} (hs : L.slots.lookup (L.owner t) = some s)
    (ht : .virt t ∈ A.held) (ha : .virt a ∈ A.held)
    (haddress : A.values (.virt (L.owner a)) = s.address base) :
    Does L env base A [.store (.ofSize s.size) (.virt t) (.virt a) 0] none .next
      (A.save (L.owner t))
  /-- An instruction is run over registers that stand for its own. -/
  | exec {i : Instr} {φ : Reg → Reg} (hφ : L.Stands A i φ) (hbase : .phys L.frameBase ∉ i.defs)
    (hevent : ∀ e ∈ (i.effect env A.values A.mem).event, e.Avoids (slotBytes base L.slots)) :
    Does L env base A [i.mapRegs φ] (i.effect env A.values A.mem).event
      (i.effect env A.values A.mem).control (L.exec env A i φ)

/-- What code does, piece by piece, if all the values on the way have the property `Q`. -/
inductive Tracks (L : Layout) (env : Surroundings) (base : Word) (Q : Regs → Prop) :
    Shadow → List Instr → List Event → Control → Shadow → Prop
  | nil {A : Shadow} : Tracks L env base Q A [] [] .next A
  | cons {A B C : Shadow} {piece code : List Instr} {e : Option Event} {es : List Event}
    {c : Control} (h : L.Does env base A piece e .next B) (hQ : Q B.values)
    (hs : Tracks L env base Q B code es c C) :
    Tracks L env base Q A (piece ++ code) (e.toList ++ es) c C
  /-- Control may go elsewhere behind the last piece only. -/
  | last {A B : Shadow} {piece : List Instr} {e : Option Event} {c : Control}
    (h : L.Does env base A piece e c B) (hQ : Q B.values) :
    Tracks L env base Q A piece e.toList c B

variable {L : Layout} {env : Surroundings} {base : Word} {Q : Regs → Prop} {A B C : Shadow}

namespace Tracks

variable {code code' : List Instr} {es es' : List Event} {c : Control}

/-- Code that is run through can be followed by other code. -/
theorem append (h : L.Tracks env base Q A code es .next B)
    (h' : L.Tracks env base Q B code' es' c C) :
    L.Tracks env base Q A (code ++ code') (es ++ es') c C := by
  generalize hc : Control.next = c₀ at h
  induction h with
  | nil => exact h'
  | cons h hQ _ ih =>
    rw [List.append_assoc, List.append_assoc]
    exact .cons h hQ (ih h' hc)
  | last h hQ =>
    cases hc
    exact .cons h hQ h'

end Tracks

/-! ## Runs -/

/-- The registers and the memory are as the shadow says. -/
structure Describes (L : Layout) (base : Word) (A : Shadow) (regs : Regs) (mem : Memory) :
    Prop where
  frame : A.values (.phys L.frameBase) = base
  frameBase_mem : .phys L.frameBase ∈ A.held
  held : ∀ ρ ∈ A.held, regs ρ = A.values (L.own ρ)
  saved : ∀ v ∈ A.saved, ∀ s, L.slots.lookup v = some s →
    Width.word.load mem (s.address base) = A.values (.virt v)
  mem : Memory.EqOff (slotBytes base L.slots) A.mem mem

/-- A load from a slot, or a store of what its owner has. -/
def IsAccess (L : Layout) (base : Word) (values : Regs) (e : Event) : Prop :=
  ∃ v s, L.slots.lookup v = some s ∧ (e = .read (s.address base) 4 ∨
    e = .write (s.address base) (Width.word.split (values (.virt v))))

/-- The code runs from what the one shadow says to what the other one says. -/
def Realizes (L : Layout) (env : Surroundings) (base : Word) (Q : Regs → Prop) (A : Shadow)
    (code : List Instr) (es : List Event) (c : Control) (B : Shadow) : Prop :=
  ∀ regs mem, L.Describes base A regs mem → ∃ trace regs' mem',
    (∀ blocks b rest, (⟨b, code ++ rest, regs, mem⟩ : State).run env blocks code.length =
      (trace, .follow blocks b rest regs' mem' c)) ∧
    trace.filter (Event.Avoids (slotBytes base L.slots)) = es ∧
    (∀ e ∈ trace, ¬e.Avoids (slotBytes base L.slots) →
      ∃ values, Q values ∧ L.IsAccess base values e) ∧
    L.Describes base B regs' mem'

theorem Describes.frameBase_eq {regs : Regs} {mem : Memory} (h : L.Describes base A regs mem) :
    regs (.phys L.frameBase) = base :=
  (h.held _ h.frameBase_mem).trans h.frame

theorem Realizes.append {code code' : List Instr} {es es' : List Event} {c : Control}
    (h : L.Realizes env base Q A code es .next B) (h' : L.Realizes env base Q B code' es' c C) :
    L.Realizes env base Q A (code ++ code') (es ++ es') c C := by
  intro regs mem hdesc
  obtain ⟨trace, regs₁, mem₁, hrun, hfilter, haccess, hdesc₁⟩ := h regs mem hdesc
  obtain ⟨trace', regs₂, mem₂, hrun', hfilter', haccess', hdesc₂⟩ := h' regs₁ mem₁ hdesc₁
  refine ⟨trace ++ trace', regs₂, mem₂, fun blocks b rest ↦ ?_, ?_, ?_, hdesc₂⟩
  · rw [List.length_append, State.run_add, List.append_assoc, hrun, State.follow, hrun']
  · rw [List.filter_append, hfilter, hfilter']
  · intro e he
    rcases List.mem_append.1 he with he | he
    · exact haccess e he
    · exact haccess' e he

theorem Realizes.of_runsThrough {code : List Instr} {e : Event}
    (he : ¬e.Avoids (slotBytes base L.slots)) (hQ : Q A.values)
    (h : ∀ regs mem, L.Describes base A regs mem → L.IsAccess base A.values e ∧ ∃ regs' mem',
      RunsThrough env code regs mem [e] regs' mem' ∧ L.Describes base B regs' mem') :
    L.Realizes env base Q A code [] .next B := by
  intro regs mem hdesc
  obtain ⟨haccess, regs', mem', hrun, hdesc'⟩ := h regs mem hdesc
  refine ⟨[e], regs', mem', hrun, ?_, ?_, hdesc'⟩
  · simpa using he
  · intro e' he' _
    rw [List.mem_singleton.1 he']
    exact ⟨_, hQ, haccess⟩

/-- A register that gets the value of its owner may be any one. -/
theorem Describes.hold {regs : Regs} {mem : Memory} (h : L.Describes base A regs mem) (t : Nat) :
    L.Describes base (A.hold (.virt t))
      (Function.update regs (.virt t) (A.values (.virt (L.owner t)))) mem where
  frame := h.frame
  frameBase_mem := Set.mem_insert_of_mem _ h.frameBase_mem
  held ρ hρ := by
    by_cases he : ρ = .virt t
    · rw [he, Function.update_self]
      rfl
    · rw [Function.update_of_ne he]
      exact h.held ρ (Set.mem_of_mem_insert_of_ne hρ he)
  saved := h.saved
  mem := h.mem

/-- A store of the owner's value to its slot leaves the other slots as they are. -/
theorem Describes.save {regs : Regs} {mem : Memory} (h : L.Describes base A regs mem)
    (hL : L.Fits) {v : Nat} {s : Slot} (hs : L.slots.lookup v = some s) :
    L.Describes base (A.save v) regs
      (mem.write (s.address base) (Width.word.split (A.values (.virt v)))) where
  frame := h.frame
  frameBase_mem := h.frameBase_mem
  held := h.held
  saved w hw t ht := by
    by_cases he : w = v
    · rw [he] at ht ⊢
      rw [hs, Option.some.injEq] at ht
      rw [← ht, Width.load_write]
      rfl
    · rw [(hL.disjoint hs ht (Ne.symm he)).load_write]
      exact h.saved w (Set.mem_of_mem_insert_of_ne hw he) t ht
  mem := h.mem.trans (eqOff_write hs base _ mem)

/-- An instruction over registers that hold the values of its own does what it does over those. -/
theorem realizes_exec {i : Instr} {φ : Reg → Reg} (henv : env.Avoids (slotBytes base L.slots))
    (hφ : L.Stands A i φ) (hbase : .phys L.frameBase ∉ i.defs)
    (hevent : ∀ e ∈ (i.effect env A.values A.mem).event, e.Avoids (slotBytes base L.slots)) :
    L.Realizes env base Q A [i.mapRegs φ] (i.effect env A.values A.mem).event.toList
      (i.effect env A.values A.mem).control (L.exec env A i φ) := by
  intro regs mem hdesc
  have halike : Effect.Alike (slotBytes base L.slots) mem (i.effect env A.values A.mem)
      ((i.mapRegs φ).effect env regs mem) := by
    refine Instr.effect_mapRegs (fun ρ hρ ↦ ?_) (fun ρ σ hi he ↦ ?_) hdesc.mem henv hevent
    · rw [hdesc.held _ (hφ.held ρ hρ), hφ.own ρ (List.mem_append_left _ hρ)]
    · obtain ⟨hρ, hσ⟩ := Instr.mem_of_symbolicStore? hi
      rw [← hφ.own ρ hρ, ← hφ.own σ hσ, he]
  refine ⟨((i.mapRegs φ).effect env regs mem).event.toList,
    regs.write (i.mapRegs φ).defs ((i.mapRegs φ).effect env regs mem).values,
    ((i.mapRegs φ).effect env regs mem).mem, fun blocks b rest ↦ ?_, ?_, ?_, ?_⟩
  · rw [List.length_singleton, List.singleton_append,
      State.run_succ (State.step_of_rest_eq_cons rfl), State.run, List.append_nil, halike.control]
  · rw [halike.event, List.filter_eq_self]
    exact fun e he ↦ decide_eq_true (hevent e (Option.mem_toList.1 he))
  · intro e he hne
    rw [halike.event] at he
    exact absurd (hevent e (Option.mem_toList.1 he)) hne
  · rw [halike.values]
    constructor
    · exact (Regs.write_of_notMem _ _ hbase).trans hdesc.frame
    · exact .inl ⟨hdesc.frameBase_mem, hbase⟩
    · rintro ρ (⟨hρ, hdef⟩ | ⟨d, hd, rfl⟩)
      · rw [Regs.write_of_notMem, hdesc.held ρ hρ]
        · exact (Regs.write_of_notMem _ _ hdef).symm
        · rw [Instr.defs_mapRegs]
          intro hmem
          obtain ⟨d, hd, rfl⟩ := List.mem_map.1 hmem
          rw [hφ.own d (List.mem_append_right _ hd)] at hdef
          exact hdef hd
      · rw [Instr.defs_mapRegs, hφ.own d (List.mem_append_right _ hd)]
        refine Regs.write_map i.length_values (fun d' hd' he ↦ ?_) fun hnot ↦ absurd hd hnot
        rw [← hφ.own d (List.mem_append_right _ hd), ← hφ.own d' (List.mem_append_right _ hd'), he]
    · rintro v ⟨hv, hdef⟩ s hs
      have hload : Width.word.load ((i.mapRegs φ).effect env regs mem).mem (s.address base) =
          Width.word.load mem (s.address base) :=
        Width.load_congr fun k hk ↦ halike.hidden _ (address_mem_slotBytes hs hk base)
      rw [hload, hdesc.saved v hv s hs]
      exact (Regs.write_of_notMem _ _ hdef).symm
    · exact halike.mem

theorem Does.realizes (hL : L.Fits) (henv : env.Avoids (slotBytes base L.slots)) (hQ : Q A.values)
    {code : List Instr} {e : Option Event} {c : Control} (h : L.Does env base A code e c B) :
    L.Realizes env base Q A code e.toList c B := by
  cases h with
  | @load t s code hs hsaved _ hcode =>
    refine .of_runsThrough (not_avoids_read hs base) hQ fun regs mem hdesc ↦
      ⟨⟨_, s, hs, .inl rfl⟩, _, mem, ?_, hdesc.hold t⟩
    have hrun := hcode.runsThrough (by simp) (hL.size hs) env regs mem
    rwa [hdesc.frameBase_eq, hdesc.saved _ hsaved s hs] at hrun
  | @store t s hs ht =>
    refine .of_runsThrough (not_avoids_write hs base _) hQ fun regs mem hdesc ↦
      ⟨⟨_, s, hs, .inr rfl⟩, regs, _, ?_, hdesc.save hL hs⟩
    have hrun := RunsThrough.singleton
      (.store (.ofSize s.size) (.virt t) (.phys L.frameBase) (-Int32.ofNat s.offset)) env regs mem
      rfl
    simp only [Instr.effect, hdesc.frameBase_eq, s.add_displacement, hdesc.held _ ht,
      hL.size hs] at hrun
    rw [hL.size hs]
    exact hrun
  | @storeVia t a s hs ht ha haddress =>
    refine .of_runsThrough (not_avoids_write hs base _) hQ fun regs mem hdesc ↦
      ⟨⟨_, s, hs, .inr rfl⟩, regs, _, ?_, hdesc.save hL hs⟩
    have hrun := RunsThrough.singleton (.store (.ofSize s.size) (.virt t) (.virt a) 0) env regs mem
      rfl
    simp only [Instr.effect, hdesc.held _ ha, hdesc.held _ ht, own, haddress, Int32.toBitVec_zero,
      BitVec.add_zero, hL.size hs] at hrun
    rw [hL.size hs]
    exact hrun
  | exec hφ hbase hevent => exact realizes_exec henv hφ hbase hevent

/-- Code runs as its shadows say. -/
theorem Tracks.realizes (hL : L.Fits) (henv : env.Avoids (slotBytes base L.slots))
    {code : List Instr} {es : List Event} {c : Control} (h : L.Tracks env base Q A code es c B)
    (hQ : Q A.values) : L.Realizes env base Q A code es c B := by
  induction h with
  | nil =>
    intro regs mem hdesc
    exact ⟨[], regs, mem, fun _ _ _ ↦ rfl, rfl, by simp, hdesc⟩
  | cons h hQ' _ ih => exact (h.realizes hL henv hQ).append (ih hQ')
  | last h _ => exact h.realizes hL henv hQ

end Layout

end RegAlloc

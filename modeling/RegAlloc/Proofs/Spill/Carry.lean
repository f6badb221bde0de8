import Mathlib
import RegAlloc.Proofs.Spill.Respill

/-!
# Code that carries an instruction out

After any number of rounds, the code that has come of an instruction is still that instruction, over
registers that stand for its own, with loads and stores around it. From one such piece of code to
the next, the registers of the input are in themselves or in their slots; so the code as a whole
keeps up with the routine before the first round.
-/

namespace RegAlloc

/-! ## Between two instructions -/

/-- What is known of the first `n` registers between two instructions: those that have been spilled
are in their slots, and the others in themselves. -/
def Shadow.atRest (slots : List (Nat × Slot)) (n : Nat) (regs : Regs) (mem : Memory) : Shadow where
  values := regs
  mem := mem
  held := {ρ | ρ.IsOld n ∧ ρ.IsKept slots}
  saved := {v | v < n ∧ slots.lookup v ≠ none}

/-- Each of the first `n` virtual registers has its value before or after. -/
def Regs.Between (n : Nat) (regs regs' values : Regs) : Prop :=
  ∀ v < n, values (.virt v) = regs (.virt v) ∨ values (.virt v) = regs' (.virt v)

/-- The registers after an instruction. -/
def Instr.after (env : Surroundings) (regs : Regs) (mem : Memory) (i : Instr) : Regs :=
  regs.write i.defs (i.effect env regs mem).values

theorem Reg.isKept_append {slots slots' : List (Nat × Slot)} {ρ : Reg} :
    ρ.IsKept (slots ++ slots') ↔ ρ.IsKept slots ∧ ρ.IsKept slots' := by
  cases ρ with
  | virt v => simp [IsKept, List.lookup_append]
  | phys r => simp [IsKept]

namespace Layout

variable {L : Layout} {env : Surroundings} {base : Word} {Q : Regs → Prop} {A B C : Shadow}
  {n : Nat} {slots slots' : List (Nat × Slot)} {i : Instr} {φ : Reg → Reg}
  {pre post code : List Instr}

theorem isAbout_between (regs regs' : Regs) : IsAbout n (Regs.Between n regs regs') := by
  intro values values' heq h v hv
  rw [heq (.virt v) hv]
  exact h v hv

/-- The registers of the input stand for themselves. -/
theorem own_eq_self (hL : ∀ v < n, L.owner v = v) {ρ : Reg} (hρ : ρ.IsOld n) : L.own ρ = ρ := by
  cases ρ with
  | virt v => exact congrArg Reg.virt (hL v hρ)
  | phys r => rfl

/-- To spill more registers is to lower what is known. -/
theorem lowered_atRest (hL : ∀ v < n, L.owner v = v) (regs : Regs) (mem : Memory) :
    L.lowered slots' (.atRest slots n regs mem) = .atRest (slots ++ slots') n regs mem := by
  have hheld : {ρ | (ρ.IsOld n ∧ ρ.IsKept slots) ∧ ρ.IsKept slots'} =
      {ρ : Reg | ρ.IsOld n ∧ ρ.IsKept (slots ++ slots')} := by
    ext ρ
    simp only [Set.mem_ofPred_eq, Reg.isKept_append, and_assoc]
  have hsaved : {v | (v < n ∧ slots.lookup v ≠ none) ∨
      ∃ t s, (t < n ∧ slots.lookup t = none) ∧ slots'.lookup t = some s ∧ L.owner t = v} =
      {v | v < n ∧ (slots ++ slots').lookup v ≠ none} := by
    ext v
    simp only [Set.mem_ofPred_eq, List.lookup_append]
    constructor
    · rintro (⟨hv, hs⟩ | ⟨t, s, ⟨ht, -⟩, hs, rfl⟩)
      · exact ⟨hv, by simp [hs]⟩
      · rw [hL t ht]
        exact ⟨ht, by simp [hs]⟩
    · rintro ⟨hv, hs⟩
      by_cases hnone : slots.lookup v = none
      · rw [hnone, Option.none_or] at hs
        obtain ⟨s, hs⟩ := Option.ne_none_iff_exists'.1 hs
        exact .inr ⟨v, s, ⟨hv, hnone⟩, hs, hL v hv⟩
      · exact .inl ⟨hv, hnone⟩
  change Shadow.mk regs mem _ _ = Shadow.mk regs mem _ _
  exact congrArg₂ (Shadow.mk regs mem) hheld hsaved

theorem lowered_mono (h : A.Le n B) (hA : ∀ ρ ∈ A.held, ρ.IsOld n) :
    (L.lowered slots A).Le n (L.lowered slots B) where
  values := h.values
  mem := h.mem
  held ρ hρ hold := ⟨h.held ρ hρ.1 hold, hρ.2⟩
  saved := by
    rintro v (hv | ⟨t, s, ht, hs, rfl⟩) hlt
    · exact .inl (h.saved v hv hlt)
    · exact .inr ⟨t, s, h.held _ ht (hA _ ht), hs, rfl⟩

theorem hasFrame_atRest {regs : Regs} (h : regs (.phys L.frameBase) = base) (mem : Memory) :
    (Shadow.atRest slots n regs mem).HasFrame L base :=
  ⟨h, trivial, trivial⟩

theorem hasFrame_exec (h : A.HasFrame L base) (hbase : .phys L.frameBase ∉ i.defs) :
    (L.exec env A i φ).HasFrame L base :=
  ⟨(Regs.write_of_notMem _ _ hbase).trans h.values, .inl ⟨h.held, hbase⟩⟩

theorem Tracks.hasFrame {es : List Event} {c : Control} (h : L.Tracks env base Q A code es c B)
    (hA : A.HasFrame L base) : B.HasFrame L base := by
  induction h with
  | nil => exact hA
  | cons h _ _ ih => exact ih (h.hasFrame hA)
  | last h _ => exact h.hasFrame hA

theorem Does.ne_nil {e : Option Event} {c : Control} (h : L.Does env base A code e c B) :
    code ≠ [] := by
  cases h with
  | load _ _ _ hcode => cases hcode <;> simp
  | _ => simp

theorem Tracks.eq_of_nil {es : List Event} {c : Control} (h : L.Tracks env base Q A [] es c B) :
    A = B := by
  generalize hcode : ([] : List Instr) = code at h
  cases h with
  | nil => rfl
  | cons h _ _ => exact absurd (List.append_eq_nil_iff.1 hcode.symm).1 h.ne_nil
  | last h _ => exact absurd hcode.symm h.ne_nil

/-! ## An instruction, with code around it -/

/-- The code in front of an instruction and behind it, when the registers in `slots` live there. -/
structure Carries (L : Layout) (env : Surroundings) (base : Word) (n : Nat)
    (slots : List (Nat × Slot)) (i : Instr) (φ : Reg → Reg) (pre post : List Instr) : Prop where
  old : ∀ ρ ∈ i.uses ++ i.defs, ρ.IsOld n
  base_notMem : .phys L.frameBase ∉ i.defs
  eq_nil : i.defs = [] → post = []
  tracks : ∀ regs mem, regs (.phys L.frameBase) = base →
    (∀ e ∈ (i.effect env regs mem).event, e.Avoids (slotBytes base L.slots)) →
    ∃ A C, L.Tracks env base (Regs.Between n regs (i.after env regs mem))
        (.atRest slots n regs mem) pre [] .next A ∧
      (∀ ρ : Reg, ρ.IsOld n → A.values ρ = regs ρ) ∧ A.mem = mem ∧ L.Stands A i φ ∧
      L.Tracks env base (Regs.Between n regs (i.after env regs mem)) (L.exec env A i φ) post []
        .next C ∧
      (Shadow.atRest slots n (i.after env regs mem) (i.effect env regs mem).mem).Le n C

/-- An instruction carries itself out. -/
theorem carries_self (hL : ∀ v < n, L.owner v = v) (hold : ∀ ρ ∈ i.uses ++ i.defs, ρ.IsOld n)
    (hbase : .phys L.frameBase ∉ i.defs) : L.Carries env base n [] i id [] [] where
  old := hold
  base_notMem := hbase
  eq_nil _ := rfl
  tracks regs mem _ _ := by
    have hown : ∀ ρ : Reg, ρ.IsOld n → L.own ρ = ρ := fun ρ ↦ own_eq_self hL
    have hkept : ∀ ρ : Reg, ρ.IsKept [] := by
      intro ρ
      cases ρ <;> trivial
    refine ⟨_, _, .nil, fun _ _ ↦ rfl, rfl, ⟨fun ρ hρ ↦ hown ρ (hold ρ hρ), fun ρ hρ ↦ ?_⟩, .nil,
      ?_⟩
    · exact ⟨hold ρ (List.mem_append_left _ hρ), hkept ρ⟩
    · constructor
      · exact fun _ _ ↦ rfl
      · rfl
      · rintro ρ ⟨hρ, -⟩ -
        by_cases hdef : ρ ∈ i.defs
        · exact .inr ⟨ρ, hdef, rfl⟩
        · exact .inl ⟨⟨hρ, hkept ρ⟩, (hown ρ hρ).symm ▸ hdef⟩
      · rintro v ⟨-, hv⟩ -
        exact absurd rfl hv

namespace Carries

/-- The instruction does what it does to the registers of the input. -/
theorem effect_eq (h : L.Carries env base n slots i φ pre post) {regs : Regs} {mem : Memory}
    (hvalues : ∀ ρ : Reg, ρ.IsOld n → A.values ρ = regs ρ) (hmem : A.mem = mem) :
    i.effect env A.values A.mem = i.effect env regs mem := by
  rw [hmem]
  exact Instr.effect_congr (fun ρ hρ ↦ hvalues ρ (h.old ρ (List.mem_append_left _ hρ))) mem

theorem exec_values (h : L.Carries env base n slots i φ pre post) {regs : Regs} {mem : Memory}
    (hvalues : ∀ ρ : Reg, ρ.IsOld n → A.values ρ = regs ρ) (hmem : A.mem = mem) {ρ : Reg}
    (hρ : ρ.IsOld n) : (L.exec env A i φ).values ρ = i.after env regs mem ρ := by
  change A.values.write i.defs (i.effect env A.values A.mem).values ρ = _
  rw [h.effect_eq hvalues hmem]
  exact Regs.write_congr i.length_values (hvalues ρ hρ)

/-- In front of the instruction the registers have their values before it, and behind it those
after. -/
theorem between (h : L.Carries env base n slots i φ pre post) {regs : Regs} {mem : Memory}
    (hvalues : ∀ ρ : Reg, ρ.IsOld n → A.values ρ = regs ρ) (hmem : A.mem = mem) :
    Regs.Between n regs (i.after env regs mem) A.values ∧
      Regs.Between n regs (i.after env regs mem) (L.exec env A i φ).values :=
  ⟨fun v hv ↦ .inl (hvalues (.virt v) hv), fun _ hv ↦ .inr (h.exec_values hvalues hmem hv)⟩

/-- One more round puts more code around the instruction. -/
theorem lowered (h : L.Carries env base n slots i φ pre post) (hL : ∀ v < n, L.owner v = v)
    {m : Nat} (hn : n ≤ m) {known known' : Temporaries} {codes : List (List Instr)}
    (hlowers : L.Lowers slots' m known (pre ++ i.mapRegs φ :: post) codes known') :
    ∃ ψ pre' post', codes.flatten = pre' ++ i.mapRegs ψ :: post' ∧
      L.Carries env base n (slots ++ slots') i ψ pre' post' := by
  obtain ⟨known₁, codes₁, codes', rfl, hlowers₁, hlowers'⟩ := hlowers.of_append
  rw [← List.singleton_append] at hlowers'
  obtain ⟨known₂, codes₂, codes₃, rfl, hlowers₂, hlowers₃⟩ := hlowers'.of_append
  obtain ⟨hcovers, before, behind, hcode, hnil, hsurrounds⟩ := hlowers₂.exists_surrounds
  have hdefs : (i.mapRegs φ).defs = i.defs.map φ := i.defs_mapRegs φ
  refine ⟨substitute (temporariesIn slots' known₁.sizes.size (i.mapRegs φ)) ∘ φ,
    codes₁.flatten ++ before, behind ++ codes₃.flatten, ?_, h.old, h.base_notMem, ?_, ?_⟩
  · rw [List.flatten_append, List.flatten_append, hcode, Instr.mapRegs_mapRegs]
    simp
  · intro hi
    have hthreads := hlowers₃.threads
    rw [h.eq_nil hi] at hthreads
    cases hthreads
    rw [hnil (by rw [hdefs, hi, List.map_nil])]
    rfl
  · intro regs mem hframe hevent
    obtain ⟨A, C, hpre, hvalues, hmem, hφ, hpost, hC⟩ := h.tracks regs mem hframe hevent
    have habout : IsAbout m (Regs.Between n regs (i.after env regs mem)) :=
      (isAbout_between _ _).mono hn
    have hQ : Regs.Between n regs (i.after env regs mem) regs := fun v _ ↦ .inl rfl
    obtain ⟨hQA, hQE⟩ := h.between hvalues hmem
    have hframeA : A.HasFrame L base := hpre.hasFrame (hasFrame_atRest hframe mem)
    have hframeE : (L.exec env A i φ).HasFrame L base := hasFrame_exec hframeA h.base_notMem
    -- the code in front, with the loads
    obtain ⟨D₁, hpre', hD₁⟩ := hpre.lowered hlowers₁ (hasFrame_atRest hframe mem) habout hQ
      (Shadow.Le.refl m _)
    have hsur := hsurrounds env base _ habout
    obtain ⟨B, hbefore, hB, hheld⟩ := hsur.before hφ.mem_held hD₁ (habout _ _ hD₁.values hQA)
    -- the instruction
    have heffect : i.effect env B.values B.mem = i.effect env A.values A.mem :=
      hφ.effect_eq hcovers hB
    have hren := isRenaming_temporariesIn slots' known₁.sizes.size (i.mapRegs φ)
    have hexec := unsaved_exec_le (i := i) (φ := φ) (fun ρ ↦ hren.substitute_of_isKept) hB heffect
    rw [← hdefs] at hexec
    -- the stores, with the code behind
    obtain ⟨D₂, hbehind, hD₂⟩ := hsur.behind hframeE (exec_held _) hexec
      (habout _ _ hexec.values hQE)
    obtain ⟨D₃, hpost', hD₃⟩ := hpost.lowered hlowers₃ hframeE habout hQE hD₂
    rw [lowered_atRest hL] at hpre'
    refine ⟨B, D₃, hpre'.append hbefore, fun ρ hρ ↦ ?_, hB.mem.trans hmem, hφ.over hcovers hheld,
      hbehind.append hpost', ?_⟩
    · exact (hB.values ρ (hρ.mono hn)).trans (hvalues ρ hρ)
    · rw [← lowered_atRest hL]
      exact (lowered_mono hC fun ρ hρ ↦ hρ.1).trans (hD₃.mono hn)

/-- The code as a whole. -/
theorem exists_tracks (h : L.Carries env base n slots i φ pre post) {regs : Regs} {mem : Memory}
    (hframe : regs (.phys L.frameBase) = base)
    (hevent : ∀ e ∈ (i.effect env regs mem).event, e.Avoids (slotBytes base L.slots)) :
    ∃ C, L.Tracks env base (Regs.Between n regs (i.after env regs mem)) (.atRest slots n regs mem)
        (pre ++ i.mapRegs φ :: post) (i.effect env regs mem).event.toList
        (i.effect env regs mem).control C ∧
      (Shadow.atRest slots n (i.after env regs mem) (i.effect env regs mem).mem).Le n C := by
  obtain ⟨A, C, hpre, hvalues, hmem, hφ, hpost, hC⟩ := h.tracks regs mem hframe hevent
  have heffect := h.effect_eq hvalues hmem
  have hexec : L.Does env base A [i.mapRegs φ] (i.effect env A.values A.mem).event
      (i.effect env A.values A.mem).control (L.exec env A i φ) :=
    .exec hφ h.base_notMem (heffect.symm ▸ hevent)
  rw [heffect] at hexec
  have hfront := hpre.append (.last hexec (h.between hvalues hmem).2)
  rcases i.control_eq_next_or env regs mem with hnext | hdefs
  · rw [hnext] at hfront ⊢
    refine ⟨C, ?_, hC⟩
    simpa using hfront.append hpost
  · have hnil := h.eq_nil hdefs
    rw [hnil] at hpost ⊢
    obtain rfl := hpost.eq_of_nil
    exact ⟨_, hfront, hC⟩

end Carries

/-! ## Steps and runs -/

/-- The code carries the instruction out. -/
def CarriesOut (L : Layout) (env : Surroundings) (base : Word) (n : Nat)
    (slots : List (Nat × Slot)) (i : Instr) (code : List Instr) : Prop :=
  ∃ φ pre post, code = pre ++ i.mapRegs φ :: post ∧ L.Carries env base n slots i φ pre post

/-- The code that has come of the instruction in front of `s` is run in `d` steps from `s'`, while
`s` goes to `t`. -/
structure Advances (L : Layout) (env : Surroundings) (base : Word) (n : Nat) (blocks : List Block)
    (s t s' : State) (d : Nat) : Prop where
  pos : 0 < d
  /-- The instruction is carried out over registers that hold the values that it uses. -/
  uses : ∀ i rest, s.rest = i :: rest → ∃ k < d, ∃ φ rest',
    (s'.run env blocks k).2.rest = i.mapRegs φ :: rest' ∧
    ∀ ρ ∈ i.uses, (s'.run env blocks k).2.regs (φ ρ) = s.regs ρ
  /-- The slot of a register gets nothing but its value. -/
  accesses : ∀ e ∈ (s'.run env blocks d).1, ¬e.Avoids (slotBytes base L.slots) →
    ∃ v slot, L.slots.lookup v = some slot ∧ (e = .read (slot.address base) 4 ∨
      ∃ x, e = .write (slot.address base) (Width.word.split x) ∧
        (v < n → x = s.regs (.virt v) ∨ x = t.regs (.virt v)))

/-- The registers and the memory at the one state are in their places at the other. -/
structure InPlace (L : Layout) (base : Word) (n : Nat) (slots : List (Nat × Slot)) (s s' : State) :
    Prop where
  block : s'.block = s.block
  kept : ∀ ρ : Reg, ρ.IsOld n → ρ.IsKept slots → s'.regs ρ = s.regs ρ
  slot : ∀ v slot, v < n → slots.lookup v = some slot →
    Width.word.load s'.mem (slot.address base) = s.regs (.virt v)
  mem : Memory.EqOff (slotBytes base L.slots) s.mem s'.mem

/-- The one run is where the other one is. -/
structure Mirrors (L : Layout) (env : Surroundings) (base : Word) (n : Nat)
    (slots : List (Nat × Slot)) (s s' : State) : Prop where
  block : s'.block = s.block
  code : IsSpilled (L.CarriesOut env base n slots) s.rest s'.rest
  describes : L.Describes base (.atRest slots n s.regs s.mem) s'.regs s'.mem

/-- What is known of the first `n` registers between two instructions does not depend on what is
known of others. -/
theorem Describes.atRest (hL : L.Fits) {regs regs' : Regs} {mem mem' : Memory}
    (h : L.Describes base C regs' mem') (hframe : regs (.phys L.frameBase) = base)
    (hle : (Shadow.atRest slots n regs mem).Le n C) :
    L.Describes base (.atRest slots n regs mem) regs' mem' where
  frame := hframe
  frameBase_mem := ⟨trivial, trivial⟩
  held ρ hρ := (h.held ρ (hle.held ρ hρ hρ.1)).trans (hle.values _ (hρ.1.own hL))
  saved v hv s hs := (h.saved v (hle.saved v hv hv.1) s hs).trans (hle.values (.virt v) hv.1)
  mem := by
    have hmem : C.mem = mem := hle.mem
    rw [← hmem]
    exact h.mem

variable {blocks blocks' : List Block} {s s' : State}

namespace CarriesOut

/-- The code runs as the instruction does. -/
theorem run (h : L.CarriesOut env base n slots i code) (hL : L.Fits)
    (henv : env.Avoids (slotBytes base L.slots)) {regs regs' : Regs} {mem mem' : Memory}
    (hdesc : L.Describes base (.atRest slots n regs mem) regs' mem')
    (hevent : ∀ e ∈ (i.effect env regs mem).event, e.Avoids (slotBytes base L.slots)) :
    ∃ trace regs'' mem'',
      (∀ blocks b rest, (⟨b, code ++ rest, regs', mem'⟩ : State).run env blocks code.length =
        (trace, .follow blocks b rest regs'' mem'' (i.effect env regs mem).control)) ∧
      trace.filter (Event.Avoids (slotBytes base L.slots)) =
        (i.effect env regs mem).event.toList ∧
      (∀ e ∈ trace, ¬e.Avoids (slotBytes base L.slots) →
        ∃ values, Regs.Between n regs (i.after env regs mem) values ∧ L.IsAccess base values e) ∧
      L.Describes base
        (.atRest slots n (i.after env regs mem) (i.effect env regs mem).mem) regs'' mem'' := by
  obtain ⟨φ, pre, post, rfl, hcarries⟩ := h
  obtain ⟨C, htracks, hC⟩ := hcarries.exists_tracks hdesc.frame hevent
  obtain ⟨trace, regs'', mem'', hrun, hfilter, haccess, hdescC⟩ :=
    htracks.realizes hL henv (fun v _ ↦ .inl rfl) regs' mem' hdesc
  have hframe : i.after env regs mem (.phys L.frameBase) = base :=
    (Regs.write_of_notMem _ _ hcarries.base_notMem).trans hdesc.frame
  exact ⟨trace, regs'', mem'', hrun, hfilter, haccess, hdescC.atRest hL hframe hC⟩

/-- On the way, the instruction is carried out over registers that hold what it uses. -/
theorem exists_uses (h : L.CarriesOut env base n slots i code) (hL : L.Fits)
    (henv : env.Avoids (slotBytes base L.slots)) {regs regs' : Regs} {mem mem' : Memory}
    (hdesc : L.Describes base (.atRest slots n regs mem) regs' mem')
    (hevent : ∀ e ∈ (i.effect env regs mem).event, e.Avoids (slotBytes base L.slots))
    (blocks : List Block) (b : Nat) (rest : List Instr) :
    ∃ k < code.length, ∃ φ rest',
      ((⟨b, code ++ rest, regs', mem'⟩ : State).run env blocks k).2.rest =
        i.mapRegs φ :: rest' ∧
      ∀ ρ ∈ i.uses,
        ((⟨b, code ++ rest, regs', mem'⟩ : State).run env blocks k).2.regs (φ ρ) = regs ρ := by
  obtain ⟨φ, pre, post, rfl, hcarries⟩ := h
  obtain ⟨A, C, hpre, hvalues, -, hφ, -, -⟩ := hcarries.tracks regs mem hdesc.frame hevent
  obtain ⟨trace, regs₁, mem₁, hrun, -, -, hdescA⟩ :=
    hpre.realizes hL henv (fun v _ ↦ .inl rfl) regs' mem' hdesc
  refine ⟨pre.length, by simp, φ, post ++ rest, ?_⟩
  rw [List.append_assoc, hrun]
  refine ⟨rfl, fun ρ hρ ↦ ?_⟩
  have hregs : ρ ∈ i.uses ++ i.defs := List.mem_append_left _ hρ
  change regs₁ (φ ρ) = regs ρ
  rw [hdescA.held _ (hφ.held ρ hρ), hφ.own ρ hregs, hvalues ρ (hcarries.old ρ hregs)]

theorem ne_nil (h : L.CarriesOut env base n slots i code) : code ≠ [] := by
  obtain ⟨φ, pre, post, rfl, -⟩ := h
  simp

end CarriesOut

namespace Mirrors

theorem enter (hblocks : AreSpilled (L.CarriesOut env base n slots) blocks blocks')
    {regs regs' : Regs} {mem mem' : Memory}
    (h : L.Describes base (.atRest slots n regs mem) regs' mem') (b : Nat) :
    L.Mirrors env base n slots (.enter blocks b regs mem) (.enter blocks' b regs' mem') :=
  ⟨rfl, hblocks.enter b regs regs' mem mem', h⟩

theorem follow (hblocks : AreSpilled (L.CarriesOut env base n slots) blocks blocks')
    {regs regs' : Regs} {mem mem' : Memory}
    (h : L.Describes base (.atRest slots n regs mem) regs' mem') (b : Nat) {rest rest' : List Instr}
    (hrest : IsSpilled (L.CarriesOut env base n slots) rest rest') (c : Control) :
    L.Mirrors env base n slots (.follow blocks b rest regs mem c)
      (.follow blocks' b rest' regs' mem' c) := by
  obtain ⟨hblock, hcode⟩ := hblocks.follow b hrest regs regs' mem mem' c
  refine ⟨hblock, hcode, ?_⟩
  rwa [State.follow_regs, State.follow_mem, State.follow_regs, State.follow_mem]

/-- Where an instruction is next, its code is run. -/
theorem exists_advances (hL : L.Fits) (henv : env.Avoids (slotBytes base L.slots))
    (hblocks : AreSpilled (L.CarriesOut env base n slots) blocks blocks')
    (h : L.Mirrors env base n slots s s') {rest : List Instr} (hrest : s.rest = i :: rest)
    (hevent : ∀ e ∈ (i.effect env s.regs s.mem).event, e.Avoids (slotBytes base L.slots)) :
    ∃ d, L.Advances env base n blocks' s (.follow blocks s.block rest (i.after env s.regs s.mem)
        (i.effect env s.regs s.mem).mem (i.effect env s.regs s.mem).control) s' d ∧
      (s'.run env blocks' d).1.filter (Event.Avoids (slotBytes base L.slots)) =
        (i.effect env s.regs s.mem).event.toList ∧
      L.Mirrors env base n slots (.follow blocks s.block rest (i.after env s.regs s.mem)
        (i.effect env s.regs s.mem).mem (i.effect env s.regs s.mem).control)
        (s'.run env blocks' d).2 := by
  obtain ⟨codes, hcodes, hrest'⟩ := h.code
  rw [hrest] at hcodes
  cases hcodes with
  | @cons _ code _ codes hcode hcodes =>
    have hs' : s' = ⟨s.block, code ++ codes.flatten, s'.regs, s'.mem⟩ := by
      rw [← h.block, ← List.flatten_cons, ← hrest']
    have huses := hcode.exists_uses hL henv h.describes hevent blocks' s.block codes.flatten
    obtain ⟨trace, regs'', mem'', hrun, hfilter, haccess, hdesc⟩ :=
      hcode.run hL henv h.describes hevent
    have hrun' := hrun blocks' s.block codes.flatten
    rw [← hs'] at huses hrun'
    refine ⟨code.length, ⟨List.length_pos_of_ne_nil hcode.ne_nil, ?_, ?_⟩, ?_, ?_⟩
    · intro j rest₁ hj
      rw [hrest, List.cons.injEq] at hj
      rw [← hj.1]
      exact huses
    · intro e he hhidden
      rw [hrun'] at he
      obtain ⟨values, hvalues, v, slot, hv, hread | hwrite⟩ := haccess e he hhidden
      · exact ⟨v, slot, hv, .inl hread⟩
      · rw [State.follow_regs]
        exact ⟨v, slot, hv, .inr ⟨_, hwrite, hvalues v⟩⟩
    · rw [hrun', hfilter]
    · rw [hrun']
      exact follow hblocks hdesc s.block ⟨codes, hcodes, rfl⟩ _

/-- Both runs are over, or both go on. Where the one makes a step, the other makes one or more. -/
theorem step (hL : L.Fits) (henv : env.Avoids (slotBytes base L.slots))
    (hblocks : AreSpilled (L.CarriesOut env base n slots) blocks blocks')
    (h : L.Mirrors env base n slots s s') :
    (s.step env blocks = none ∧ s'.step env blocks' = none) ∨
      s'.step env blocks' ≠ none ∧ ∃ e t, s.step env blocks = some (e, t) ∧
        ((∀ x ∈ e, x.Avoids (slotBytes base L.slots)) →
          ∃ d, L.Advances env base n blocks' s t s' d ∧
            (s'.run env blocks' d).1.filter (Event.Avoids (slotBytes base L.slots)) = e.toList ∧
            L.Mirrors env base n slots t (s'.run env blocks' d).2) := by
  cases hrest : s.rest with
  | nil =>
    rcases hblocks.step_of_rest_eq_nil env h.block h.code hrest with hnone | ⟨hstep, hstep'⟩
    · exact .inl hnone
    · have hrun : s'.run env blocks' 1 = ([], .enter blocks' (s.block + 1) s'.regs s'.mem) :=
        State.run_succ hstep' 0
      refine .inr ⟨by simp [hstep'], none, _, hstep, fun _ ↦ ⟨1, ⟨Nat.one_pos, ?_, ?_⟩, ?_, ?_⟩⟩
      · simp [hrest]
      · simp [hrun]
      · simp [hrun]
      · rw [hrun]
        exact enter hblocks h.describes _
  | cons i rest =>
    refine .inr ⟨?_, _, _, State.step_of_rest_eq_cons hrest,
      h.exists_advances hL henv hblocks hrest⟩
    obtain ⟨codes, hcodes, hrest'⟩ := h.code
    rw [hrest] at hcodes
    cases hcodes with
    | cons hcode _ =>
      obtain ⟨j, code, rfl⟩ := List.exists_cons_of_ne_nil hcode.ne_nil
      rw [State.step_of_rest_eq_cons hrest']
      simp

theorem inPlace (h : L.Mirrors env base n slots s s') (hid : ∀ v < n, L.owner v = v)
    (hadmits : L.Admits slots) : L.InPlace base n slots s s' where
  block := h.block
  kept ρ hρ hk := by
    have hown : L.own ρ = ρ := own_eq_self hid hρ
    have hheld := h.describes.held ρ ⟨hρ, hk⟩
    rwa [hown] at hheld
  slot v slot hv hs := by
    have hslot := hadmits (v, slot) (mem_of_lookup_eq_some hs)
    rw [hid v hv] at hslot
    exact h.describes.saved v ⟨hv, by simp [hs]⟩ slot hslot
  mem := h.describes.mem

end Mirrors

/-- The run from `s'` keeps up with the one from `s`: after `clock k` steps it is where that one is
after `k`. -/
structure KeepsUp (L : Layout) (env : Surroundings) (base : Word) (n : Nat)
    (slots : List (Nat × Slot)) (blocks blocks' : List Block) (s s' : State) (clock : Nat → Nat) :
    Prop where
  clock_zero : clock 0 = 0
  trace : ∀ k, (s'.run env blocks' (clock k)).1.filter (Event.Avoids (slotBytes base L.slots)) =
    (s.run env blocks k).1
  inPlace : ∀ k,
    L.InPlace base n slots (s.run env blocks k).2 (s'.run env blocks' (clock k)).2
  step_eq_none_iff : ∀ k, (s.run env blocks k).2.step env blocks = none ↔
    (s'.run env blocks' (clock k)).2.step env blocks' = none
  advances : ∀ k, (s.run env blocks k).2.step env blocks ≠ none →
    L.Advances env base n blocks' (s.run env blocks k).2 (s.run env blocks (k + 1)).2
      (s'.run env blocks' (clock k)).2 (clock (k + 1) - clock k)

/-- A number for each number, from what gives the next one. -/
theorem exists_clock {P : Nat → Nat → Prop} {R : Nat → Nat → Nat → Prop} (hzero : P 0 0)
    (hsucc : ∀ k x, P k x → ∃ y, P (k + 1) y ∧ R k x y) :
    ∃ clock : Nat → Nat, clock 0 = 0 ∧ ∀ k, P k (clock k) ∧ R k (clock k) (clock (k + 1)) := by
  choose! next hnext using hsucc
  let clock : Nat → Nat := Nat.rec 0 next
  have hclock : ∀ k, P k (clock k) := by
    intro k
    induction k with
    | zero => exact hzero
    | succ k ih => exact (hnext k _ ih).1
  exact ⟨clock, rfl, fun k ↦ ⟨hclock k, (hnext k _ (hclock k)).2⟩⟩

/-- After `x` steps the run from `s'` is where the one from `s` is after `k`. -/
structure Aligned (L : Layout) (env : Surroundings) (base : Word) (n : Nat)
    (slots : List (Nat × Slot)) (blocks blocks' : List Block) (s s' : State) (k x : Nat) :
    Prop where
  mirrors : L.Mirrors env base n slots (s.run env blocks k).2 (s'.run env blocks' x).2
  trace : (s'.run env blocks' x).1.filter (Event.Avoids (slotBytes base L.slots)) =
    (s.run env blocks k).1

theorem Aligned.exists_next (hL : L.Fits) (henv : env.Avoids (slotBytes base L.slots))
    (hblocks : AreSpilled (L.CarriesOut env base n slots) blocks blocks')
    (havoid : ∀ k, ∀ e ∈ (s.run env blocks k).1, e.Avoids (slotBytes base L.slots)) (k x : Nat)
    (h : L.Aligned env base n slots blocks blocks' s s' k x) :
    ∃ y, L.Aligned env base n slots blocks blocks' s s' (k + 1) y ∧
      ((s.run env blocks k).2.step env blocks ≠ none →
        L.Advances env base n blocks' (s.run env blocks k).2 (s.run env blocks (k + 1)).2
          (s'.run env blocks' x).2 (y - x)) := by
  rcases h.mirrors.step hL henv hblocks with ⟨hnone, -⟩ | ⟨-, e, t, hstep, hadvances⟩
  · have hrun : s.run env blocks (k + 1) = s.run env blocks k := by
      rw [State.run_add, State.run_of_step_eq_none hnone, List.append_nil]
    refine ⟨x, ⟨?_, ?_⟩, fun hne ↦ absurd hnone hne⟩
    · rw [hrun]
      exact h.mirrors
    · rw [hrun]
      exact h.trace
  · have hrun : s.run env blocks (k + 1) = ((s.run env blocks k).1 ++ e.toList, t) := by
      rw [State.run_add, State.run_succ hstep, State.run, List.append_nil]
    have hevent : ∀ z ∈ e, z.Avoids (slotBytes base L.slots) := by
      intro z hz
      refine havoid (k + 1) z ?_
      rw [hrun]
      exact List.mem_append_right _ (Option.mem_toList.2 hz)
    obtain ⟨d, hadvance, hfilter, hmirrors⟩ := hadvances hevent
    refine ⟨x + d, ⟨?_, ?_⟩, fun _ ↦ ?_⟩
    · rw [hrun, State.run_add]
      exact hmirrors
    · rw [hrun, State.run_add, List.filter_append, h.trace, hfilter]
    · rw [hrun, Nat.add_sub_cancel_left]
      exact hadvance

/-- A run that is where another one is keeps up with it, if that one keeps away from the slots. -/
theorem Mirrors.exists_keepsUp (hL : L.Fits) (hid : ∀ v < n, L.owner v = v)
    (hadmits : L.Admits slots) (henv : env.Avoids (slotBytes base L.slots))
    (hblocks : AreSpilled (L.CarriesOut env base n slots) blocks blocks')
    (h : L.Mirrors env base n slots s s')
    (havoid : ∀ k, ∀ e ∈ (s.run env blocks k).1, e.Avoids (slotBytes base L.slots)) :
    ∃ clock, L.KeepsUp env base n slots blocks blocks' s s' clock := by
  have hstart : L.Aligned env base n slots blocks blocks' s s' 0 0 := ⟨h, rfl⟩
  obtain ⟨clock, hzero, hclock⟩ :=
    exists_clock hstart (Aligned.exists_next hL henv hblocks havoid)
  refine ⟨clock, hzero, fun k ↦ (hclock k).1.trace, fun k ↦ ?_, fun k ↦ ?_, fun k ↦ (hclock k).2⟩
  · exact (hclock k).1.mirrors.inPlace hid hadmits
  · rcases (hclock k).1.mirrors.step hL henv hblocks with ⟨hnone, hnone'⟩ | ⟨hne, e, t, hstep, -⟩
    · simp [hnone, hnone']
    · simp [hne, hstep]

end Layout

end RegAlloc

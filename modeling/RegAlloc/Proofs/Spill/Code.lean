import Mathlib
import RegAlloc.Proofs.Spill.Run

/-!
# The shape of spill code

What a round of spilling makes of a routine, whatever it means: the loads and stores that it puts
around an instruction, the registers that these are written over, and the fresh numbers that they
take. All the virtual registers of the new code are kept ones or fresh ones.
-/

namespace RegAlloc

/-! ## Changes along a list -/

/-- A state is changed along a list, by steps of the given kind. -/
inductive Threads {σ α β : Type} (R : σ → α → β → σ → Prop) : σ → List α → List β → σ → Prop
  | nil (s : σ) : Threads R s [] [] s
  | cons {s s₁ s₂ : σ} {a : α} {b : β} {as : List α} {bs : List β} (h : R s a b s₁)
    (hs : Threads R s₁ as bs s₂) : Threads R s (a :: as) (b :: bs) s₂

namespace Threads

variable {σ α β : Type} {R R' : σ → α → β → σ → Prop} {s s' : σ} {as as' : List α} {bs : List β}

theorem mono (h : Threads R s as bs s') (hR : ∀ {s a b s'}, R s a b s' → R' s a b s') :
    Threads R' s as bs s' := by
  induction h with
  | nil s => exact .nil s
  | cons h _ ih => exact .cons (hR h) ih

/-- What grows with each step grows along the list. -/
theorem le (h : Threads R s as bs s') {c : σ → Nat}
    (hc : ∀ {s a b s'}, R s a b s' → c s ≤ c s') : c s ≤ c s' := by
  induction h with
  | nil s => exact le_rfl
  | cons h _ ih => exact (hc h).trans ih

/-- What each step keeps is kept along the list. -/
theorem keeps_of_mem (h : Threads R s as bs s') {P : σ → Prop}
    (hP : ∀ {s a b s'}, a ∈ as → b ∈ bs → R s a b s' → P s → P s') (hs : P s) : P s' := by
  induction h with
  | nil s => exact hs
  | cons h _ ih =>
    exact ih (fun ha hb ↦ hP (List.mem_cons_of_mem _ ha) (List.mem_cons_of_mem _ hb))
      (hP List.mem_cons_self List.mem_cons_self h hs)

theorem keeps (h : Threads R s as bs s') {P : σ → Prop}
    (hP : ∀ {s a b s'}, a ∈ as → R s a b s' → P s → P s') (hs : P s) : P s' :=
  h.keeps_of_mem (fun ha _ ↦ hP ha) hs

/-- A number that is passed along the list is passed in one of the steps. -/
theorem exists_of_lt (h : Threads R s as bs s') {c : σ → Nat} {k : Nat} (hle : c s ≤ k)
    (hlt : k < c s') : ∃ a ∈ as, ∃ b ∈ bs, ∃ s₁ s₂, R s₁ a b s₂ ∧ c s₁ ≤ k ∧ k < c s₂ := by
  induction h with
  | nil s => exact absurd hlt (not_lt.2 hle)
  | @cons s s₁ s₂ a b as bs h _ ih =>
    by_cases hk : k < c s₁
    · exact ⟨a, List.mem_cons_self, b, List.mem_cons_self, s, s₁, h, hle, hk⟩
    · obtain ⟨a', ha, b', hb, hstep⟩ := ih (not_lt.1 hk) hlt
      exact ⟨a', List.mem_cons_of_mem _ ha, b', List.mem_cons_of_mem _ hb, hstep⟩

/-- What holds before each step behind which it holds is passed back along the list. -/
theorem reflects (h : Threads R s as bs s') {P : σ → Prop}
    (hP : ∀ {s a b s'}, R s a b s' → P s' → P s) (hs : P s') : P s := by
  induction h with
  | nil s => exact hs
  | cons h _ ih => exact hP h (ih hs)

/-- Where an element comes from. -/
theorem exists_of_mem (h : Threads R s as bs s') {c : σ → Nat}
    (hc : ∀ {s a b s'}, R s a b s' → c s ≤ c s') {b : β} (hb : b ∈ bs) :
    ∃ a ∈ as, ∃ s₁ s₂, R s₁ a b s₂ ∧ c s ≤ c s₁ ∧ c s₂ ≤ c s' := by
  induction h with
  | nil s => cases hb
  | cons h hs ih =>
    rcases List.mem_cons.1 hb with rfl | hb
    · exact ⟨_, List.mem_cons_self, _, _, h, le_rfl, hs.le hc⟩
    · obtain ⟨a, ha, s₁, s₂, hr, h₁, h₂⟩ := ih hb
      exact ⟨a, List.mem_cons_of_mem _ ha, s₁, s₂, hr, (hc h).trans h₁, h₂⟩

theorem map_eq {γ : Type} (h : Threads R s as bs s') {f : α → γ} {g : β → γ}
    (hR : ∀ {s a b s'}, R s a b s' → g b = f a) : bs.map g = as.map f := by
  induction h with
  | nil s => rfl
  | cons h _ ih => rw [List.map_cons, List.map_cons, hR h, ih]

/-- A list can be taken in two parts. -/
theorem of_append (h : Threads R s (as ++ as') bs s') :
    ∃ s₁ bs₁ bs₂, bs = bs₁ ++ bs₂ ∧ Threads R s as bs₁ s₁ ∧ Threads R s₁ as' bs₂ s' := by
  induction as generalizing s bs with
  | nil => exact ⟨s, [], bs, rfl, .nil s, h⟩
  | cons a as ih =>
    cases h with
    | cons h hs =>
      obtain ⟨s₁, bs₁, bs₂, rfl, h₁, h₂⟩ := ih hs
      exact ⟨s₁, _ :: bs₁, bs₂, rfl, .cons h h₁, h₂⟩

end Threads

theorem threads_of_mapAccumM {σ α β : Type} {f : σ → α → Except Fault (β × σ)} {s s' : σ}
    {as : List α} {bs : List β} (h : mapAccumM f s as = .ok (bs, s')) :
    Threads (fun s a b s' ↦ f s a = .ok (b, s')) s as bs s' := by
  induction as generalizing s bs with
  | nil =>
    cases h
    exact .nil _
  | cons a as ih =>
    obtain ⟨⟨b, s₁⟩, hb, h⟩ := bind_eq_ok_iff.1 h
    obtain ⟨⟨bs, s₂⟩, hbs, h⟩ := bind_eq_ok_iff.1 h
    cases h
    exact .cons hb (ih hbs)

theorem mapAccumM_concat {σ α β : Type} {f : σ → α → Except Fault (β × σ)} {s s₁ s₂ : σ}
    {as : List α} {bs : List β} {a : α} {b : β} (h : mapAccumM f s as = .ok (bs, s₁))
    (ha : f s₁ a = .ok (b, s₂)) : mapAccumM f s (as ++ [a]) = .ok (bs ++ [b], s₂) := by
  induction as generalizing s bs with
  | nil =>
    cases h
    exact bind_eq_ok_iff.2 ⟨(b, s₂), ha, rfl⟩
  | cons hd tl ih =>
    obtain ⟨⟨b', s'⟩, hb', h⟩ := bind_eq_ok_iff.1 h
    obtain ⟨⟨bs', s''⟩, hbs', h⟩ := bind_eq_ok_iff.1 h
    cases h
    exact bind_eq_ok_iff.2 ⟨(b', s'), hb', bind_eq_ok_iff.2 ⟨(bs' ++ [b], s₂), ih hbs', rfl⟩⟩

theorem exists_mapM {α β : Type} {f : α → Except Fault β} {as : List α}
    (h : ∀ a ∈ as, ∃ b, f a = .ok b) : ∃ bs, as.mapM f = .ok bs := by
  induction as with
  | nil => exact ⟨[], rfl⟩
  | cons a as ih =>
    obtain ⟨b, hb⟩ := h a List.mem_cons_self
    obtain ⟨bs, hbs⟩ := ih fun x hx ↦ h x (List.mem_cons_of_mem _ hx)
    refine ⟨b :: bs, ?_⟩
    rw [List.mapM_cons]
    exact bind_eq_ok_iff.2 ⟨b, hb, bind_eq_ok_iff.2 ⟨bs, hbs, rfl⟩⟩

/-! ## Loads and stores -/

section Access

variable {frameBase : Reg} {t : Nat} {slot : Slot} {sizes sizes' : Array Nat} {code : List Instr}
  {ρ : Reg} {j : Instr}

theorem LoadsSlot.mem_regs (h : LoadsSlot frameBase t slot code) (hj : j ∈ code)
    (hρ : ρ ∈ j.uses ++ j.defs) : ρ = frameBase ∨ ρ = .virt t := by
  cases h with
  | near =>
    rw [List.mem_singleton.1 hj] at hρ
    simpa [Instr.uses, Instr.defs] using hρ
  | far =>
    simp only [List.mem_cons, List.not_mem_nil, or_false] at hj
    rcases hj with rfl | rfl | rfl <;> simp [Instr.uses, Instr.defs] at hρ <;> grind

/-- Only the register for the address is a new one. -/
theorem StoresSlot.mem_regs (h : StoresSlot frameBase t slot sizes code sizes') (hj : j ∈ code)
    (hρ : ρ ∈ j.uses ++ j.defs) : ρ = frameBase ∨ ρ = .virt t ∨
      ∃ a, ρ = .virt a ∧ sizes.size ≤ a ∧ a < sizes'.size := by
  cases h with
  | near =>
    rw [List.mem_singleton.1 hj] at hρ
    simp [Instr.uses, Instr.defs] at hρ
    grind
  | far =>
    simp only [List.mem_cons, List.not_mem_nil, or_false] at hj
    rcases hj with rfl | rfl | rfl <;> simp [Instr.uses, Instr.defs] at hρ <;> grind

theorem StoresSlot.eq_four (h : StoresSlot frameBase t slot sizes code sizes')
    (hsizes : ∀ x ∈ sizes, x = 4) : ∀ x ∈ sizes', x = 4 := by
  cases h with
  | near => exact hsizes
  | far =>
    intro x hx
    rcases Array.mem_push.1 hx with hx | hx
    · exact hsizes x hx
    · exact hx

end Access

/-! ## Instructions -/

/-- The temporary of a register that is spilled in an instruction. -/
def temporaryIn (slots : List (Nat × Slot)) (n : Nat) (i : Instr) (v : Nat) : Nat :=
  ((temporariesIn slots n i).lookup v).getD v

/-- The registers that the temporaries of an instruction stand for. -/
def ownersIn (slots : List (Nat × Slot)) (known : Temporaries) (i : Instr) : List (Nat × Nat) :=
  ((spilledIn slots i).zipIdx known.sizes.size).map fun ((v, _), t) ↦
    (t, (known.owners.lookup v).getD v)

/-- The code of an instruction, and what is known of the temporaries before and after it. -/
inductive SpillsInstr (slots : List (Nat × Slot)) (frameBase : Reg) (known : Temporaries)
    (i : Instr) : List Instr → Temporaries → Prop
  | mk {loads stores : List (List Instr)} {sizes : Array Nat}
    (hloads : List.Forall₂
      (fun p ↦ LoadsSlot frameBase (temporaryIn slots known.sizes.size i p.1) p.2)
      (spilledAmong slots i.uses) loads)
    (hstores : Threads
      (fun sizes p ↦ StoresSlot frameBase (temporaryIn slots known.sizes.size i p.1) p.2 sizes)
      (sizesIn slots known.sizes i) (spilledAmong slots i.defs) stores sizes) :
    SpillsInstr slots frameBase known i
      (loads.flatten ++ [i.mapRegs (substitute (temporariesIn slots known.sizes.size i))] ++
        stores.flatten)
      ⟨sizes, ownersIn slots known i ++ known.owners⟩

section Instr

variable {slots : List (Nat × Slot)} {frameBase : Reg} {known known' : Temporaries} {i j : Instr}
  {code : List Instr} {ρ : Reg}

theorem spillsInstr_of_spillInstr (h : spillInstr slots frameBase known i = .ok (code, known')) :
    SpillsInstr slots frameBase known i code known' := by
  obtain ⟨loads, hloads, h⟩ := bind_eq_ok_iff.1 h
  obtain ⟨⟨stores, sizes⟩, hstores, h⟩ := bind_eq_ok_iff.1 h
  cases h
  exact .mk ((forall₂_of_mapM hloads).imp fun _ _ ↦ loadsSlot_of_loadSlot)
    ((threads_of_mapAccumM hstores).mono storesSlot_of_storeSlot)

/-- The code of an instruction is found if all the slots can be addressed. -/
theorem exists_spillInstr_eq_ok (frameBase : Reg) (known : Temporaries) (i : Instr)
    (h : ∀ p ∈ slots, Int32.ofNat p.2.offset ≠ Int32.minValue) :
    ∃ code known', spillInstr slots frameBase known i = .ok (code, known') := by
  have hoffset : ∀ rs, ∀ p ∈ spilledAmong slots rs, Int32.ofNat p.2.offset ≠ Int32.minValue :=
    fun rs p hp ↦ h p (mem_of_lookup_eq_some (mem_spilledAmong.1 hp).2)
  obtain ⟨loads, hloads⟩ : ∃ loads, (spilledAmong slots i.uses).mapM
      (fun p ↦ loadSlot frameBase (temporaryIn slots known.sizes.size i p.1) p.2) = .ok loads :=
    exists_mapM fun p hp ↦ exists_loadSlot_eq_ok _ _ (hoffset _ p hp)
  obtain ⟨stores, sizes, hstores, -⟩ := exists_mapAccumM (P := fun _ ↦ True) (Q := fun _ _ ↦ True)
    (f := fun sizes (p : Nat × Slot) ↦
      storeSlot frameBase (temporaryIn slots known.sizes.size i p.1) p.2 sizes)
    (fun p hp sizes _ ↦ by
      obtain ⟨code, sizes', hstore⟩ := exists_storeSlot_eq_ok frameBase
        (temporaryIn slots known.sizes.size i p.1) sizes (hoffset _ p hp)
      exact ⟨code, sizes', hstore, trivial, trivial⟩)
    (s := sizesIn slots known.sizes i) trivial
  exact ⟨_, _, bind_eq_ok_iff.2 ⟨loads, hloads, bind_eq_ok_iff.2 ⟨(stores, sizes), hstores, rfl⟩⟩⟩

namespace SpillsInstr

theorem size_le (h : SpillsInstr slots frameBase known i code known') :
    known.sizes.size ≤ known'.sizes.size := by
  cases h with
  | mk _ hstores =>
    refine le_trans ?_ (hstores.le (c := Array.size) StoresSlot.size_le)
    rw [size_sizesIn]
    exact Nat.le_add_right _ _

theorem temporaryIn_bounds {v : Nat} {s : Slot} (hv : .virt v ∈ i.uses ++ i.defs)
    (hs : slots.lookup v = some s) (n : Nat) : n ≤ temporaryIn slots n i v ∧
      temporaryIn slots n i v < n + (spilledIn slots i).length :=
  (isRenaming_temporariesIn slots n i).getD_lookup_bounds hv hs

/-- The code is written over the registers of the instruction that are kept, the frame base, and
fresh registers. -/
theorem mem_regs (h : SpillsInstr slots frameBase known i code known') (hj : j ∈ code)
    (hρ : ρ ∈ j.uses ++ j.defs) : ρ = frameBase ∨ (ρ ∈ i.uses ++ i.defs ∧ ρ.IsKept slots) ∨
      ∃ t, ρ = .virt t ∧ known.sizes.size ≤ t ∧ t < known'.sizes.size := by
  cases h with
  | @mk loads stores sizes hloads hstores =>
    have hle : known.sizes.size + (spilledIn slots i).length ≤ sizes.size := by
      rw [← size_sizesIn]
      exact hstores.le (c := Array.size) StoresSlot.size_le
    have hfresh : ∀ {v s}, .virt v ∈ i.uses ++ i.defs → slots.lookup v = some s →
        ∃ t, Reg.virt (temporaryIn slots known.sizes.size i v) = .virt t ∧
          known.sizes.size ≤ t ∧ t < sizes.size := by
      intro v s hv hs
      obtain ⟨h₁, h₂⟩ := temporaryIn_bounds hv hs known.sizes.size
      exact ⟨_, rfl, h₁, h₂.trans_le hle⟩
    rcases List.mem_append.1 hj with hj | hj
    · rcases List.mem_append.1 hj with hj | hj
      · obtain ⟨load, hload, hj⟩ := List.mem_flatten.1 hj
        obtain ⟨⟨v, s⟩, hv, hloads⟩ := exists_of_forall₂ hloads hload
        obtain ⟨hv, hs⟩ := mem_spilledAmong.1 hv
        rcases hloads.mem_regs hj hρ with hρ | hρ
        · exact .inl hρ
        · exact .inr (.inr (hρ ▸ hfresh (List.mem_append_left _ hv) hs))
      · rw [List.mem_singleton.1 hj, Instr.uses_mapRegs, Instr.defs_mapRegs, ← List.map_append]
          at hρ
        obtain ⟨σ, hσ, rfl⟩ := List.mem_map.1 hρ
        rcases σ.isKept_or slots with hk | ⟨v, s, rfl, hs⟩
        · rw [(isRenaming_temporariesIn slots known.sizes.size i).substitute_of_isKept hk]
          exact .inr (.inl ⟨hσ, hk⟩)
        · exact .inr (.inr (hfresh hσ hs))
    · obtain ⟨store, hstore, hj⟩ := List.mem_flatten.1 hj
      obtain ⟨⟨v, s⟩, hv, sizes₁, sizes₂, hst, hle₁, hle₂⟩ :=
        hstores.exists_of_mem (c := Array.size) StoresSlot.size_le hstore
      obtain ⟨hv, hs⟩ := mem_spilledAmong.1 hv
      rcases hst.mem_regs hj hρ with hρ | hρ | ⟨a, hρ, ha, ha'⟩
      · exact .inl hρ
      · exact .inr (.inr (hρ ▸ hfresh (List.mem_append_right _ hv) hs))
      · rw [size_sizesIn] at hle₁
        exact .inr (.inr ⟨a, hρ, (Nat.le_add_right _ _).trans (hle₁.trans ha), ha'.trans_le hle₂⟩)

theorem eq_four (h : SpillsInstr slots frameBase known i code known')
    (hslots : ∀ p ∈ slots, p.2.size = 4) (hsizes : ∀ x ∈ known.sizes, x = 4) :
    ∀ x ∈ known'.sizes, x = 4 := by
  cases h with
  | mk _ hstores =>
    refine hstores.keeps (P := fun sizes ↦ ∀ x ∈ sizes, x = 4) (fun _ h ↦ h.eq_four) ?_
    intro x hx
    rw [sizesIn, ← Array.mem_toList_iff, Array.toList_appendList, List.mem_append] at hx
    rcases hx with hx | hx
    · exact hsizes x (Array.mem_toList_iff.1 hx)
    · obtain ⟨⟨⟨v, s⟩, t⟩, hv, rfl⟩ := List.mem_map.1 hx
      exact hslots _ (mem_of_lookup_eq_some (mem_spilledIn.1 (List.fst_mem_of_mem_zipIdx hv)).2)

end SpillsInstr

end Instr

/-! ## Routines -/

section Block

variable {slots : List (Nat × Slot)} {frameBase : Reg} {known known' : Temporaries}
  {b b' : Block}

/-- The code of a block, instruction by instruction. -/
inductive SpillsBlock (slots : List (Nat × Slot)) (frameBase : Reg) (known : Temporaries)
    (b : Block) : Block → Temporaries → Prop
  | mk {codes : List (List Instr)} {known' : Temporaries}
    (h : Threads (SpillsInstr slots frameBase) known b.code codes known') :
    SpillsBlock slots frameBase known b { b with code := codes.flatten } known'

theorem spillsBlock_of_spillBlock (h : spillBlock slots frameBase known b = .ok (b', known')) :
    SpillsBlock slots frameBase known b b' known' := by
  obtain ⟨⟨codes, known'⟩, hcodes, h⟩ := bind_eq_ok_iff.1 h
  cases h
  exact .mk ((threads_of_mapAccumM hcodes).mono spillsInstr_of_spillInstr)

theorem exists_spillBlock_eq_ok (frameBase : Reg) (known : Temporaries) (b : Block)
    (h : ∀ p ∈ slots, Int32.ofNat p.2.offset ≠ Int32.minValue) :
    ∃ b' known', spillBlock slots frameBase known b = .ok (b', known') := by
  obtain ⟨codes, known', hcodes, -⟩ := exists_mapAccumM (P := fun _ ↦ True)
    (Q := fun _ _ ↦ True) (f := spillInstr slots frameBase)
    (fun i _ known _ ↦ by
      obtain ⟨code, known', hcode⟩ := exists_spillInstr_eq_ok frameBase known i h
      exact ⟨code, known', hcode, trivial, trivial⟩) (s := known) trivial
  exact ⟨_, _, bind_eq_ok_iff.2 ⟨(codes, known'), hcodes, rfl⟩⟩

namespace SpillsBlock

theorem label_eq (h : SpillsBlock slots frameBase known b b' known') : b'.label = b.label := by
  cases h with
  | mk => rfl

theorem size_le (h : SpillsBlock slots frameBase known b b' known') :
    known.sizes.size ≤ known'.sizes.size := by
  cases h with
  | mk h => exact h.le (c := fun known ↦ known.sizes.size) SpillsInstr.size_le

theorem mem_regs (h : SpillsBlock slots frameBase known b b' known') {j : Instr}
    (hj : j ∈ b'.code) {ρ : Reg} (hρ : ρ ∈ j.uses ++ j.defs) :
    ρ = frameBase ∨ (∃ i ∈ b.code, ρ ∈ i.uses ++ i.defs ∧ ρ.IsKept slots) ∨
      ∃ t, ρ = .virt t ∧ known.sizes.size ≤ t ∧ t < known'.sizes.size := by
  cases h with
  | mk h =>
    obtain ⟨code, hcode, hj⟩ := List.mem_flatten.1 hj
    obtain ⟨i, hi, known₁, known₂, hinstr, hle₁, hle₂⟩ :=
      h.exists_of_mem (c := fun known ↦ known.sizes.size) SpillsInstr.size_le hcode
    rcases hinstr.mem_regs hj hρ with hρ | hρ | ⟨t, hρ, ht, ht'⟩
    · exact .inl hρ
    · exact .inr (.inl ⟨i, hi, hρ⟩)
    · exact .inr (.inr ⟨t, hρ, hle₁.trans ht, ht'.trans_le hle₂⟩)

theorem eq_four (h : SpillsBlock slots frameBase known b b' known')
    (hslots : ∀ p ∈ slots, p.2.size = 4) (hsizes : ∀ x ∈ known.sizes, x = 4) :
    ∀ x ∈ known'.sizes, x = 4 := by
  cases h with
  | mk h =>
    exact h.keeps (P := fun known ↦ ∀ x ∈ known.sizes, x = 4) (fun _ hi ↦ hi.eq_four hslots) hsizes

end SpillsBlock

end Block

namespace Spilling

variable {σ : Type} [SlotStore σ] {catalog : Catalog} {w w' : Spilling σ} {spills : List Nat}
  {slots : List (Nat × Slot)} {store : σ}

/-- What a round of spilling does. -/
structure Spills (catalog : Catalog) (w : Spilling σ) (spills : List Nat)
    (slots : List (Nat × Slot)) (w' : Spilling σ) : Prop where
  slots_eq : w.assignSlots spills = .ok (slots, w'.store)
  blocks : Threads (SpillsBlock slots (.phys catalog.frameBase)) ⟨w.routine.sizes, w.record.owners⟩
    w.routine.blocks w'.routine.blocks ⟨w'.routine.sizes, w'.record.owners⟩
  retired : w'.record.retired = spills ++ w.record.retired
  spilled : w'.record.spilled = (spills.map w.record.owner).foldl addNew w.record.spilled

theorem spills_of_spill (h : w.spill catalog spills = .ok (w', slots)) :
    Spills catalog w spills slots w' := by
  obtain ⟨⟨slots', store⟩, hslots, h⟩ := bind_eq_ok_iff.1 h
  obtain ⟨⟨blocks, known⟩, hblocks, h⟩ := bind_eq_ok_iff.1 h
  cases h
  exact ⟨hslots, (threads_of_mapAccumM hblocks).mono spillsBlock_of_spillBlock, rfl, rfl⟩

theorem name_of_spill (h : w.spill catalog spills = .ok (w', slots)) :
    w'.routine.name = w.routine.name := by
  obtain ⟨_, -, h⟩ := bind_eq_ok_iff.1 h
  obtain ⟨_, -, h⟩ := bind_eq_ok_iff.1 h
  cases h
  rfl

/-- Spilling succeeds if all the slots are found and can be addressed. -/
theorem exists_spill (hslots : w.assignSlots spills = .ok (slots, store))
    (h : ∀ p ∈ slots, Int32.ofNat p.2.offset ≠ Int32.minValue) (catalog : Catalog) :
    ∃ w', w.spill catalog spills = .ok (w', slots) := by
  obtain ⟨blocks, known, hblocks, -⟩ := exists_mapAccumM (P := fun _ ↦ True)
    (Q := fun _ _ ↦ True) (f := spillBlock slots (.phys catalog.frameBase))
    (fun b _ known _ ↦ by
      obtain ⟨b', known', hb⟩ := exists_spillBlock_eq_ok (.phys catalog.frameBase) known b h
      exact ⟨b', known', hb, trivial, trivial⟩) (s := ⟨w.routine.sizes, w.record.owners⟩) trivial
  exact ⟨_, bind_eq_ok_iff.2 ⟨(slots, store), hslots,
    bind_eq_ok_iff.2 ⟨(blocks, known), hblocks, rfl⟩⟩⟩

namespace Spills

theorem map_fst (h : Spills catalog w spills slots w') : slots.map Prod.fst = spills := by
  have hkeys := forall₂_of_assignSlots h.slots_eq
  clear h
  induction hkeys with
  | nil => rfl
  | cons hp _ ih => rw [List.map_cons, hp.1, ih]

theorem vregCount_le (h : Spills catalog w spills slots w') :
    w.routine.vregCount ≤ w'.routine.vregCount :=
  h.blocks.le (c := fun known ↦ known.sizes.size) SpillsBlock.size_le

/-- The new code is written over kept registers, the frame base, and fresh registers. -/
theorem mem_regs (h : Spills catalog w spills slots w') {j : Instr} (hj : j ∈ w'.routine.instrs)
    {ρ : Reg} (hρ : ρ ∈ j.uses ++ j.defs) : ρ = .phys catalog.frameBase ∨
      (∃ i ∈ w.routine.instrs, ρ ∈ i.uses ++ i.defs ∧ ρ.IsKept slots) ∨
      ∃ t, ρ = .virt t ∧ w.routine.vregCount ≤ t ∧ t < w'.routine.vregCount := by
  obtain ⟨b', hb', hj⟩ := List.mem_flatMap.1 hj
  obtain ⟨b, hb, known₁, known₂, hblock, hle₁, hle₂⟩ :=
    h.blocks.exists_of_mem (c := fun known ↦ known.sizes.size) SpillsBlock.size_le hb'
  rcases hblock.mem_regs hj hρ with hρ | ⟨i, hi, hρ⟩ | ⟨t, hρ, ht, ht'⟩
  · exact .inl hρ
  · exact .inr (.inl ⟨i, List.mem_flatMap.2 ⟨b, hb, hi⟩, hρ⟩)
  · exact .inr (.inr ⟨t, hρ, hle₁.trans ht, ht'.trans_le hle₂⟩)

/-- Where all the registers are words, the slots are words, and so are the fresh registers. -/
theorem size_eq_four (h : Spills catalog w spills slots w')
    (hsizes : ∀ x ∈ w.routine.sizes, x = 4) :
    (∀ p ∈ slots, p.2.size = 4) ∧ ∀ x ∈ w'.routine.sizes, x = 4 := by
  have hslots : ∀ p ∈ slots, p.2.size = 4 := by
    intro p hp
    obtain ⟨v, -, -, hsize⟩ := exists_of_forall₂ (forall₂_of_assignSlots h.slots_eq) hp
    rw [hsize]
    exact Routine.vregSize_eq hsizes _
  exact ⟨hslots, h.blocks.keeps (P := fun known ↦ ∀ x ∈ known.sizes, x = 4)
    (fun _ hb ↦ hb.eq_four hslots) hsizes⟩

end Spills

end Spilling

end RegAlloc

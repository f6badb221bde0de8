import Mathlib
import RegAlloc.Proofs.Spill.Shadow

/-!
# A round of spilling keeps what is tracked

Code whose shadows are known is spilled once more. A register that is spilled now gives its value to
the slot of its owner, so the new shadows are the old ones, `lowered` to the slots. The loads that
are put in front of an instruction find the values there, and the stores behind it put them back.
Only a temporary that was loaded from a slot far away must not be spilled again: its code computes
the address in the temporary itself, and would store that into the slot.
-/

namespace RegAlloc

/-! ## Owners of fresh registers -/

/-- Only temporaries that have been taken have owners. -/
def Temporaries.IsTidy (known : Temporaries) : Prop :=
  ∀ p ∈ known.owners, p.1 < known.sizes.size

/-- The layout gives all the registers so far the owners that are known. -/
def Layout.Agrees (L : Layout) (known : Temporaries) : Prop :=
  ∀ v < known.sizes.size, L.owner v = (known.owners.lookup v).getD v

theorem lookup_zipIdx_map {α β : Type} (g : α → β) (as : List α) (n k : Nat) :
    ((as.zipIdx n).map fun (a, t) ↦ (t, g a)).lookup k =
      if n ≤ k then as[k - n]?.map g else none := by
  induction as generalizing n with
  | nil => simp
  | cons a as ih =>
    rw [List.zipIdx_cons, List.map_cons, List.lookup_cons]
    by_cases hk : k = n
    · simp [hk]
    · rw [beq_eq_false_iff_ne.2 hk]
      simp only [ih]
      by_cases hle : n ≤ k
      · obtain ⟨d, rfl⟩ := Nat.exists_eq_add_of_le hle
        obtain ⟨d, rfl⟩ := Nat.exists_eq_succ_of_ne_zero (show d ≠ 0 by omega)
        rw [if_pos hle, if_pos (by omega), show n + (d + 1) - n = d + 1 by omega,
          show n + (d + 1) - (n + 1) = d by omega, List.getElem?_cons_succ]
      · rw [if_neg hle, if_neg (by omega)]

theorem lookup_ownersIn (slots : List (Nat × Slot)) (known : Temporaries) (i : Instr) (t : Nat) :
    (ownersIn slots known i).lookup t =
      if known.sizes.size ≤ t then (spilledIn slots i)[t - known.sizes.size]?.map
        fun p ↦ (known.owners.lookup p.1).getD p.1
      else none :=
  lookup_zipIdx_map (fun p : Nat × Slot ↦ (known.owners.lookup p.1).getD p.1) _ _ _

namespace SpillsInstr

variable {slots : List (Nat × Slot)} {frameBase : Reg} {known known' : Temporaries} {i : Instr}
  {code : List Instr} {L : Layout}

theorem owners_eq (h : SpillsInstr slots frameBase known i code known') :
    known'.owners = ownersIn slots known i ++ known.owners := by
  cases h
  rfl

theorem size_add_le (h : SpillsInstr slots frameBase known i code known') :
    known.sizes.size + (spilledIn slots i).length ≤ known'.sizes.size := by
  cases h with
  | mk _ hstores =>
    rw [← size_sizesIn]
    exact hstores.le (c := Array.size) StoresSlot.size_le

theorem isTidy (h : SpillsInstr slots frameBase known i code known') (hknown : known.IsTidy) :
    known'.IsTidy := by
  intro p hp
  rw [h.owners_eq, List.mem_append] at hp
  rcases hp with hp | hp
  · obtain ⟨⟨q, t⟩, hq, rfl⟩ := List.mem_map.1 hp
    have hlt := List.snd_lt_add_of_mem_zipIdx hq
    exact hlt.trans_le h.size_add_le
  · exact (hknown p hp).trans_le h.size_le

/-- What is known of the registers before stays as it is. -/
theorem agrees (h : SpillsInstr slots frameBase known i code known') (hL : L.Agrees known') :
    L.Agrees known := by
  intro v hv
  rw [hL v (hv.trans_le h.size_le), h.owners_eq, List.lookup_append, lookup_ownersIn,
    if_neg (not_le.2 hv), Option.none_or]

/-- A temporary has the owner of the register that it stands for. -/
theorem owner_temporaryIn (h : SpillsInstr slots frameBase known i code known')
    (hL : L.Agrees known') {v : Nat} {s : Slot} (hv : .virt v ∈ i.uses ++ i.defs)
    (hs : slots.lookup v = some s) (hlt : v < known.sizes.size) :
    L.owner (temporaryIn slots known.sizes.size i v) = L.owner v := by
  have hren := isRenaming_temporariesIn slots known.sizes.size i
  obtain ⟨t, ht⟩ := hren.exists_of_mem hv hs
  obtain ⟨hle, s', hget⟩ := of_lookup_zipIdx ht
  have htlt : t < known'.sizes.size := (hren.bounds ht).2.trans_le h.size_add_le
  rw [temporaryIn, ht, Option.getD_some, hL t htlt, h.owners_eq, List.lookup_append,
    lookup_ownersIn, if_pos hle, hget, h.agrees hL v hlt]
  rfl

/-- A register for an address has no other owner. -/
theorem owner_address (h : SpillsInstr slots frameBase known i code known')
    (hL : L.Agrees known') (hknown : known.IsTidy) {a : Nat}
    (hle : known.sizes.size + (spilledIn slots i).length ≤ a) (hlt : a < known'.sizes.size) :
    L.owner a = a := by
  have hnone : known.owners.lookup a = none := by
    rw [List.lookup_eq_none_iff]
    intro p hp
    have := hknown p hp
    simp only [bne_iff_ne, ne_eq]
    omega
  have hget : (spilledIn slots i)[a - known.sizes.size]? = none := by
    rw [List.getElem?_eq_none_iff]
    omega
  rw [hL a hlt, h.owners_eq, List.lookup_append, lookup_ownersIn, if_pos (by omega), hget, hnone]
  rfl

/-- An instruction of which nothing is spilled stays as it is. -/
theorem eq_singleton (h : SpillsInstr slots frameBase known i code known')
    (hkept : ∀ ρ ∈ i.uses ++ i.defs, ρ.IsKept slots) : code = [i] := by
  have hnil : ∀ rs, (∀ ρ ∈ rs, ρ.IsKept slots) → spilledAmong slots rs = [] := by
    intro rs hrs
    rw [List.eq_nil_iff_forall_not_mem]
    rintro ⟨v, s⟩ hv
    obtain ⟨hv, hs⟩ := mem_spilledAmong.1 hv
    have hnone : slots.lookup v = none := hrs _ hv
    rw [hnone] at hs
    cases hs
  cases h with
  | mk hloads hstores =>
    rw [hnil _ fun ρ hρ ↦ hkept ρ (List.mem_append_left _ hρ)] at hloads
    rw [hnil _ fun ρ hρ ↦ hkept ρ (List.mem_append_right _ hρ)] at hstores
    cases hloads
    cases hstores
    rw [Instr.mapRegs_eq_self fun ρ hρ ↦
      (isRenaming_temporariesIn slots known.sizes.size i).substitute_of_isKept (hkept ρ hρ)]
    rfl

end SpillsInstr

/-! ## Shadows that know more -/

theorem Reg.IsOld.own {L : Layout} (hL : L.Fits) {n : Nat} {ρ : Reg} (h : ρ.IsOld n) :
    (L.own ρ).IsOld n := by
  cases ρ with
  | virt v => exact (hL.owner_le v).trans_lt h
  | phys r => trivial

namespace Shadow

variable {A B C : Shadow} {m n : Nat}

/-- The second shadow gives the first `n` registers the same values, in more places. -/
structure Le (n : Nat) (A B : Shadow) : Prop where
  values : ∀ ρ : Reg, ρ.IsOld n → B.values ρ = A.values ρ
  mem : B.mem = A.mem
  held : ∀ ρ ∈ A.held, ρ.IsOld n → ρ ∈ B.held
  saved : ∀ v ∈ A.saved, v < n → v ∈ B.saved

namespace Le

theorem refl (n : Nat) (A : Shadow) : A.Le n A :=
  ⟨fun _ _ ↦ rfl, rfl, fun _ h _ ↦ h, fun _ h _ ↦ h⟩

theorem trans (h : A.Le n B) (h' : B.Le n C) : A.Le n C where
  values ρ hρ := (h'.values ρ hρ).trans (h.values ρ hρ)
  mem := h'.mem.trans h.mem
  held ρ hρ hold := h'.held ρ (h.held ρ hρ hold) hold
  saved v hv hlt := h'.saved v (h.saved v hv hlt) hlt

theorem mono (h : A.Le m B) (hnm : n ≤ m) : A.Le n B where
  values ρ hρ := h.values ρ (hρ.mono hnm)
  mem := h.mem
  held ρ hρ hold := h.held ρ hρ (hold.mono hnm)
  saved v hv hlt := h.saved v hv (hlt.trans_le hnm)

theorem hold (A : Shadow) (ρ : Reg) : A.Le n (A.hold ρ) where
  values _ _ := rfl
  mem := rfl
  held _ hρ _ := Set.mem_insert_of_mem _ hρ
  saved _ hv _ := hv

theorem save (A : Shadow) (v : Nat) : A.Le n (A.save v) where
  values _ _ := rfl
  mem := rfl
  held _ hρ _ := hρ
  saved _ hv _ := Set.mem_insert_of_mem _ hv

end Le

/-- The frame base is where it has to be. -/
structure HasFrame (L : Layout) (base : Word) (A : Shadow) : Prop where
  values : A.values (.phys L.frameBase) = base
  held : .phys L.frameBase ∈ A.held

theorem HasFrame.le {L : Layout} {base : Word} (h : A.HasFrame L base) (hle : A.Le n B) :
    B.HasFrame L base where
  values := (hle.values (.phys L.frameBase) trivial).trans h.values
  held := hle.held _ h.held trivial

end Shadow

namespace Layout

variable {L : Layout} {env : Surroundings} {base : Word} {Q : Regs → Prop} {A A' B C : Shadow}
  {n : Nat} {slots : List (Nat × Slot)}

/-- Only the first `n` registers matter. -/
def IsAbout (n : Nat) (Q : Regs → Prop) : Prop :=
  ∀ values values' : Regs, (∀ ρ : Reg, ρ.IsOld n → values' ρ = values ρ) → Q values → Q values'

/-! ## Inserted code -/

/-- The loads in front of an instruction put the values of the slots into temporaries. -/
theorem tracks_loads (env : Surroundings) (base : Word) {temporary : Nat → Nat}
    {used : List (Nat × Slot)} {loads : List (List Instr)}
    (h : List.Forall₂ (fun p ↦ LoadsSlot (.phys L.frameBase) (temporary p.1) p.2) used loads)
    (hused : ∀ p ∈ used, L.slots.lookup (L.owner (temporary p.1)) = some p.2 ∧
      L.owner (temporary p.1) ∈ B.saved ∧ L.owner (temporary p.1) ≠ temporary p.1)
    (hQ : Q B.values) :
    ∃ B', L.Tracks env base Q B loads.flatten [] .next B' ∧ B'.values = B.values ∧
      (∀ n, B.Le n B') ∧ ∀ p ∈ used, .virt (temporary p.1) ∈ B'.held := by
  induction h generalizing B with
  | nil => exact ⟨B, .nil, rfl, fun n ↦ .refl n B, by simp⟩
  | @cons p code used loads hcode _ ih =>
    obtain ⟨hs, hsaved, hne⟩ := hused p List.mem_cons_self
    obtain ⟨B', htracks, hvalues, hle, hheld⟩ := ih (B := B.hold (.virt (temporary p.1)))
      (fun q hq ↦ hused q (List.mem_cons_of_mem _ hq)) hQ
    refine ⟨B', .cons (.load hs hsaved hne hcode) hQ htracks, hvalues,
      fun n ↦ (Shadow.Le.hold B _).trans (hle n), fun q hq ↦ ?_⟩
    rcases List.mem_cons.1 hq with rfl | hq
    · exact (hle (temporary q.1 + 1)).held _ (Set.mem_insert _ _) (Nat.lt_succ_self _)
    · exact hheld q hq

/-- An instruction over fresh registers changes nothing that was there before. -/
theorem le_exec {i : Instr} {a : Nat} (hdefs : i.defs = [.virt a]) (hn : n ≤ a)
    (hmem : (i.effect env B.values B.mem).mem = B.mem) (hL : L.Fits) :
    B.Le n (L.exec env B i id) := by
  have hne : ∀ ρ : Reg, ρ.IsOld n → ρ ∉ i.defs := by
    intro ρ hρ hmem
    rw [hdefs, List.mem_singleton] at hmem
    rw [hmem] at hρ
    exact (hρ.trans_le hn).false
  constructor
  · exact fun ρ hρ ↦ Regs.write_of_notMem _ _ (hne ρ hρ)
  · exact hmem
  · exact fun ρ hheld hρ ↦ .inl ⟨hheld, hne _ (hρ.own hL)⟩
  · exact fun v hsaved hv ↦ ⟨hsaved, hne (.virt v) hv⟩

/-- The address of a slot far away is computed in a fresh register, which stands for itself. -/
theorem tracks_address (env : Surroundings) (hL : L.Fits) {a : Nat} (howner : L.owner a = a)
    (hn : n ≤ a) (s : Slot) (hframe : B.HasFrame L base) (habout : IsAbout n Q) (hQ : Q B.values) :
    ∃ B', L.Tracks env base Q B [.li (.virt a) (-Int32.ofNat s.offset),
        .arith .add (.virt a) (.phys L.frameBase) (.virt a)] [] .next B' ∧
      B.Le n B' ∧ .virt a ∈ B'.held ∧ B'.values (.virt a) = s.address base := by
  let li := Instr.li (.virt a) (-Int32.ofNat s.offset)
  let add := Instr.arith .add (.virt a) (.phys L.frameBase) (.virt a)
  let B₁ := L.exec env B li id
  let B₂ := L.exec env B₁ add id
  have hown : L.own (.virt a) = .virt a := by rw [own, howner]
  have hle₁ : B.Le n B₁ := le_exec rfl hn rfl hL
  have hle₂ : B.Le n B₂ := hle₁.trans (le_exec rfl hn rfl hL)
  have ha₁ : .virt a ∈ B₁.held := .inr ⟨_, List.mem_singleton_self _, rfl⟩
  have hli : L.Does env base B [li] none .next B₁ := by
    have hid : li.mapRegs id = li := Instr.mapRegs_eq_self fun _ _ ↦ rfl
    rw [← hid]
    refine .exec ⟨?_, ?_⟩ ?_ ?_ <;> simp [li, Instr.uses, Instr.defs, Instr.effect, hown]
  have hadd : L.Does env base B₁ [add] none .next B₂ := by
    have hid : add.mapRegs id = add := Instr.mapRegs_eq_self fun _ _ ↦ rfl
    rw [← hid]
    refine .exec ⟨?_, ?_⟩ ?_ ?_
    · simp [add, Instr.uses, Instr.defs, own, howner]
    · simpa [add, Instr.uses] using ⟨(hframe.le hle₁).held, ha₁⟩
    · simp [add, Instr.defs]
    · simp [add, Instr.effect]
  refine ⟨B₂, .cons hli (habout _ _ hle₁.values hQ) (.last hadd (habout _ _ hle₂.values hQ)), hle₂,
    .inr ⟨_, List.mem_singleton_self _, rfl⟩, ?_⟩
  have hvalue : B₂.values (.virt a) = B₁.values (.phys L.frameBase) + B₁.values (.virt a) :=
    Function.update_self _ _ _
  have hdisplacement : B₁.values (.virt a) = (-Int32.ofNat s.offset).toBitVec :=
    Function.update_self _ _ _
  rw [hvalue, (hframe.le hle₁).values, hdisplacement, s.add_displacement]

/-- A store puts a register into the slot of its owner. -/
theorem tracks_store (env : Surroundings) (hL : L.Fits) {t : Nat} {s : Slot}
    {sizes sizes' : Array Nat} {code : List Instr}
    (h : StoresSlot (.phys L.frameBase) t s sizes code sizes')
    (hs : L.slots.lookup (L.owner t) = some s) (ht : .virt t ∈ B.held) (hlt : t < sizes.size)
    (hfresh : sizes.size < sizes'.size → L.owner sizes.size = sizes.size)
    (hframe : B.HasFrame L base) (habout : IsAbout sizes.size Q) (hQ : Q B.values) :
    ∃ B', L.Tracks env base Q B code [] .next B' ∧ B.Le sizes.size B' ∧ L.owner t ∈ B'.saved ∧
      Q B'.values := by
  cases h with
  | near => exact ⟨_, .last (.store hs ht) hQ, .save B _, Set.mem_insert _ _, hQ⟩
  | far =>
    have howner : L.owner sizes.size = sizes.size := hfresh (by simp)
    obtain ⟨B', htracks, hle, ha, haddress⟩ :=
      tracks_address env hL howner le_rfl s hframe habout hQ
    have hQ' : Q B'.values := habout _ _ hle.values hQ
    have hstore : L.Does env base B' [.store (.ofSize s.size) (.virt t) (.virt sizes.size) 0] none
        .next (B'.save (L.owner t)) :=
      .storeVia hs (hle.held _ ht hlt) ha (by rw [howner, haddress])
    exact ⟨_, htracks.append (.last hstore hQ'), hle.trans (.save B' _), Set.mem_insert _ _, hQ'⟩

theorem IsAbout.mono {m : Nat} (h : IsAbout n Q) (hnm : n ≤ m) : IsAbout m Q :=
  fun values values' heq ↦ h values values' fun ρ hρ ↦ heq ρ (hρ.mono hnm)

/-- The stores behind an instruction put the temporaries into the slots. -/
theorem tracks_stores (env : Surroundings) (hL : L.Fits) {temporary : Nat → Nat}
    {defined : List (Nat × Slot)} {sizes sizes' : Array Nat} {stores : List (List Instr)}
    (h : Threads (fun sizes p ↦ StoresSlot (.phys L.frameBase) (temporary p.1) p.2 sizes) sizes
      defined stores sizes')
    (hdefined : ∀ p ∈ defined, L.slots.lookup (L.owner (temporary p.1)) = some p.2 ∧
      .virt (temporary p.1) ∈ B.held ∧ temporary p.1 < sizes.size)
    (hfresh : ∀ a, sizes.size ≤ a → a < sizes'.size → L.owner a = a)
    (hframe : B.HasFrame L base) (habout : IsAbout sizes.size Q) (hQ : Q B.values) :
    ∃ B', L.Tracks env base Q B stores.flatten [] .next B' ∧ B.Le sizes.size B' ∧
      ∀ p ∈ defined, L.owner (temporary p.1) ∈ B'.saved := by
  induction h generalizing B with
  | nil sizes => exact ⟨B, .nil, .refl _ B, by simp⟩
  | @cons sizes sizes₁ sizes₂ p code defined stores hcode hstores ih =>
    obtain ⟨hs, ht, hlt⟩ := hdefined p List.mem_cons_self
    have hle₁ : sizes.size ≤ sizes₁.size := hcode.size_le
    have hle₂ : sizes₁.size ≤ sizes₂.size := hstores.le (c := Array.size) StoresSlot.size_le
    obtain ⟨B₁, htracks₁, hB₁, hsaved, hQ₁⟩ := tracks_store env hL hcode hs ht hlt
      (fun h ↦ hfresh _ le_rfl (h.trans_le hle₂)) hframe habout hQ
    obtain ⟨B₂, htracks₂, hB₂, hsaved₂⟩ := ih (B := B₁)
      (fun q hq ↦ by
        obtain ⟨hs, ht, hlt⟩ := hdefined q (List.mem_cons_of_mem _ hq)
        exact ⟨hs, hB₁.held _ ht hlt, hlt.trans_le hle₁⟩)
      (fun a ha ↦ hfresh a (hle₁.trans ha)) (hframe.le hB₁) (habout.mono hle₁) hQ₁
    refine ⟨B₂, htracks₁.append htracks₂, hB₁.trans (hB₂.mono hle₁), fun q hq ↦ ?_⟩
    rcases List.mem_cons.1 hq with rfl | hq
    · exact hB₂.saved _ hsaved ((hL.owner_le _).trans_lt (hlt.trans_le hle₁))
    · exact hsaved₂ q hq

/-! ## Instructions -/

/-- The slots of the registers that are spilled are those of their owners. -/
def Admits (L : Layout) (slots : List (Nat × Slot)) : Prop :=
  ∀ p ∈ slots, L.slots.lookup (L.owner p.1) = some p.2

/-- An instruction over the first `n` registers gets temporaries from `m` on, which stand for what
the spilled registers stand for. -/
structure Covers (L : Layout) (slots : List (Nat × Slot)) (n m : Nat) (j : Instr) : Prop where
  fits : L.Fits
  admits : L.Admits slots
  le : n ≤ m
  old : ∀ ρ ∈ j.uses ++ j.defs, ρ.IsOld n
  owner : ∀ {v s}, .virt v ∈ j.uses ++ j.defs → slots.lookup v = some s →
    L.owner (temporaryIn slots m j v) = L.owner v

namespace Covers

variable {m : Nat} {j : Instr}

theorem own_substitute (h : L.Covers slots n m j) {ρ : Reg} (hρ : ρ ∈ j.uses ++ j.defs) :
    L.own (substitute (temporariesIn slots m j) ρ) = L.own ρ := by
  rcases ρ.isKept_or slots with hk | ⟨v, s, rfl, hs⟩
  · rw [(isRenaming_temporariesIn slots m j).substitute_of_isKept hk]
  · exact congrArg Reg.virt (h.owner hρ hs)

theorem lookup_owner (h : L.Covers slots n m j) {v : Nat} {s : Slot}
    (hv : .virt v ∈ j.uses ++ j.defs) (hs : slots.lookup v = some s) :
    L.slots.lookup (L.owner (temporaryIn slots m j v)) = some s := by
  rw [h.owner hv hs]
  exact h.admits (v, s) (mem_of_lookup_eq_some hs)

/-- A temporary is not an owner. -/
theorem owner_ne (h : L.Covers slots n m j) {v : Nat} {s : Slot}
    (hv : .virt v ∈ j.uses ++ j.defs) (hs : slots.lookup v = some s) :
    L.owner (temporaryIn slots m j v) ≠ temporaryIn slots m j v := by
  have hlt : v < n := h.old _ hv
  have hle := h.fits.owner_le v
  have hbound := (SpillsInstr.temporaryIn_bounds hv hs m).1
  have hn := h.le
  rw [h.owner hv hs]
  omega

theorem owner_lt (h : L.Covers slots n m j) {v : Nat} (hv : .virt v ∈ j.uses ++ j.defs) :
    L.owner v < n :=
  (h.fits.owner_le v).trans_lt (h.old _ hv)

end Covers

/-- What is left to be said when some registers are spilled: their values are in the slots. -/
def lowered (L : Layout) (slots : List (Nat × Slot)) (A : Shadow) : Shadow :=
  { A with
    held := {ρ | ρ ∈ A.held ∧ ρ.IsKept slots}
    saved := {v | v ∈ A.saved ∨ ∃ t s, .virt t ∈ A.held ∧ slots.lookup t = some s ∧ L.owner t = v} }

/-- The same, while the slots of what an instruction defines do not hold the new values yet. -/
def unsaved (L : Layout) (slots : List (Nat × Slot)) (defs : List Reg) (A : Shadow) : Shadow :=
  { L.lowered slots A with
    saved := {v | v ∈ (L.lowered slots A).saved ∧
      ∀ t s, .virt t ∈ defs → slots.lookup t = some s → L.owner t ≠ v} }

/-- Then the slots are all that is missing. -/
theorem lowered_le {defs : List Reg} (h : (L.unsaved slots defs C).Le n B)
    (hsaved : ∀ t s, .virt t ∈ defs → slots.lookup t = some s → L.owner t ∈ B.saved) :
    (L.lowered slots C).Le n B := by
  refine ⟨h.values, h.mem, h.held, fun v hv hlt ↦ ?_⟩
  by_cases hdefs : ∃ t s, .virt t ∈ defs ∧ slots.lookup t = some s ∧ L.owner t = v
  · obtain ⟨t, s, ht, hs, rfl⟩ := hdefs
    exact hsaved t s ht hs
  · exact h.saved v ⟨hv, fun t s ht hs he ↦ hdefs ⟨t, s, ht, hs, he⟩⟩ hlt

section Instr

variable {m : Nat} {j : Instr}

/-- The loads in front of an instruction get the values of all that it uses. -/
theorem tracks_before (h : L.Covers slots n m j) {loads : List (List Instr)}
    (hloads : List.Forall₂ (fun p ↦ LoadsSlot (.phys L.frameBase) (temporaryIn slots m j p.1) p.2)
      (spilledAmong slots j.uses) loads)
    (huses : ∀ ρ ∈ j.uses, ρ ∈ A.held) (hle : (L.lowered slots A).Le n B) (hQ : Q B.values) :
    ∃ B', L.Tracks env base Q B loads.flatten [] .next B' ∧ (L.lowered slots A).Le n B' ∧
      ∀ ρ ∈ j.uses, substitute (temporariesIn slots m j) ρ ∈ B'.held := by
  have hused : ∀ p ∈ spilledAmong slots j.uses,
      L.slots.lookup (L.owner (temporaryIn slots m j p.1)) = some p.2 ∧
      L.owner (temporaryIn slots m j p.1) ∈ B.saved ∧
      L.owner (temporaryIn slots m j p.1) ≠ temporaryIn slots m j p.1 := by
    rintro ⟨v, s⟩ hp
    obtain ⟨hv, hs⟩ := mem_spilledAmong.1 hp
    have hv' : .virt v ∈ j.uses ++ j.defs := List.mem_append_left _ hv
    refine ⟨h.lookup_owner hv' hs, ?_, h.owner_ne hv' hs⟩
    rw [h.owner hv' hs]
    exact hle.saved _ (.inr ⟨v, s, huses _ hv, hs, rfl⟩) (h.owner_lt hv')
  obtain ⟨B', htracks, -, hle', hheld⟩ := tracks_loads env base hloads hused hQ
  refine ⟨B', htracks, hle.trans (hle' n), fun ρ hρ ↦ ?_⟩
  rcases ρ.isKept_or slots with hk | ⟨v, s, rfl, hs⟩
  · rw [(isRenaming_temporariesIn slots m j).substitute_of_isKept hk]
    have hold : ρ.IsOld n := h.old ρ (List.mem_append_left _ hρ)
    exact (hle' n).held ρ (hle.held ρ ⟨huses ρ hρ, hk⟩ hold) hold
  · exact hheld (v, s) (mem_spilledAmong.2 ⟨hρ, hs⟩)

/-- The stores behind an instruction put all that it defines into the slots. -/
theorem tracks_after (h : L.Covers slots n m j) {stores : List (List Instr)}
    {sizes sizes' : Array Nat} (hsize : sizes.size = m + (spilledIn slots j).length)
    (hstores : Threads
      (fun sizes p ↦ StoresSlot (.phys L.frameBase) (temporaryIn slots m j p.1) p.2 sizes) sizes
      (spilledAmong slots j.defs) stores sizes')
    (hfresh : ∀ a, sizes.size ≤ a → a < sizes'.size → L.owner a = a)
    (hframe : C.HasFrame L base) (habout : IsAbout n Q)
    (hdefs : ∀ ρ ∈ j.defs, substitute (temporariesIn slots m j) ρ ∈ B.held)
    (hle : (L.unsaved slots j.defs C).Le n B) (hQ : Q B.values) :
    ∃ D, L.Tracks env base Q B stores.flatten [] .next D ∧ (L.lowered slots C).Le n D := by
  have hn : n ≤ sizes.size := hsize ▸ h.le.trans (Nat.le_add_right _ _)
  have hdefined : ∀ p ∈ spilledAmong slots j.defs,
      L.slots.lookup (L.owner (temporaryIn slots m j p.1)) = some p.2 ∧
      .virt (temporaryIn slots m j p.1) ∈ B.held ∧ temporaryIn slots m j p.1 < sizes.size := by
    rintro ⟨v, s⟩ hp
    obtain ⟨hv, hs⟩ := mem_spilledAmong.1 hp
    have hv' : .virt v ∈ j.uses ++ j.defs := List.mem_append_right _ hv
    exact ⟨h.lookup_owner hv' hs, hdefs _ hv,
      hsize ▸ (SpillsInstr.temporaryIn_bounds hv' hs m).2⟩
  have hframe' : (L.unsaved slots j.defs C).HasFrame L base :=
    ⟨hframe.values, hframe.held, trivial⟩
  obtain ⟨D, htracks, hleD, hsaved⟩ := tracks_stores env h.fits hstores hdefined hfresh
    (hframe'.le hle) (habout.mono hn) hQ
  refine ⟨D, htracks, lowered_le (hle.trans (hleD.mono hn)) fun t s ht hs ↦ ?_⟩
  rw [← h.owner (List.mem_append_right _ ht) hs]
  exact hsaved (t, s) (mem_spilledAmong.2 ⟨ht, hs⟩)

/-- The code around an instruction over temporaries: what it uses is loaded in front of it, and what
it defines is stored behind it. -/
structure Surrounds (L : Layout) (env : Surroundings) (base : Word) (Q : Regs → Prop)
    (slots : List (Nat × Slot)) (n : Nat) (j : Instr) (φ : Reg → Reg) (pre post : List Instr) :
    Prop where
  before : ∀ {A B}, (∀ ρ ∈ j.uses, ρ ∈ A.held) → (L.lowered slots A).Le n B → Q B.values →
    ∃ B', L.Tracks env base Q B pre [] .next B' ∧ (L.lowered slots A).Le n B' ∧
      ∀ ρ ∈ j.uses, φ ρ ∈ B'.held
  behind : ∀ {B C}, C.HasFrame L base → (∀ ρ ∈ j.defs, φ ρ ∈ B.held) →
    (L.unsaved slots j.defs C).Le n B → Q B.values →
    ∃ D, L.Tracks env base Q B post [] .next D ∧ (L.lowered slots C).Le n D

variable {known known' : Temporaries} {code : List Instr} {e : Option Event} {c : Control}

theorem exists_surrounds (h : L.Covers slots n known.sizes.size j)
    (hspills : SpillsInstr slots (.phys L.frameBase) known j code known')
    (hfresh : ∀ a, known.sizes.size + (spilledIn slots j).length ≤ a → a < known'.sizes.size →
      L.owner a = a) :
    ∃ pre post, code =
        pre ++ j.mapRegs (substitute (temporariesIn slots known.sizes.size j)) :: post ∧
      (j.defs = [] → post = []) ∧ ∀ env base Q, IsAbout n Q → L.Surrounds env base Q slots n j
        (substitute (temporariesIn slots known.sizes.size j)) pre post := by
  cases hspills with
  | @mk loads stores sizes hloads hstores =>
    rw [← size_sizesIn] at hfresh
    refine ⟨loads.flatten, stores.flatten, by simp, fun hdefs ↦ ?_, fun env base Q habout ↦ ?_⟩
    · rw [hdefs] at hstores
      cases hstores
      rfl
    · constructor
      · exact fun huses hle hQ ↦ tracks_before h hloads huses hle hQ
      · exact fun hframe hdefs hle hQ ↦
          tracks_after h (size_sizesIn _ _) hstores hfresh hframe habout hdefs hle hQ

/-- The instruction does over temporaries what it does to the shadow, but for the stores. -/
def DoesOver (L : Layout) (env : Surroundings) (base : Word) (slots : List (Nat × Slot)) (n : Nat)
    (j : Instr) (φ : Reg → Reg) (A : Shadow) (e : Option Event) (c : Control) (C : Shadow) : Prop :=
  ∀ B, (L.lowered slots A).Le n B → (∀ ρ ∈ j.uses, φ ρ ∈ B.held) →
    ∃ B', L.Does env base B [j.mapRegs φ] e c B' ∧ (L.unsaved slots j.defs C).Le n B' ∧
      ∀ ρ ∈ j.defs, φ ρ ∈ B'.held

/-- Then it does so with the loads and stores around it. -/
theorem Surrounds.tracks {φ : Reg → Reg} {pre post : List Instr}
    (h : L.Surrounds env base Q slots n j φ pre post)
    (hnil : j.defs = [] → post = []) (hdoes : L.DoesOver env base slots n j φ A e c C)
    (hc : c = .next ∨ j.defs = []) (huses : ∀ ρ ∈ j.uses, ρ ∈ A.held) (hframe : C.HasFrame L base)
    (habout : IsAbout n Q) (hQA : Q A.values) (hQC : Q C.values)
    (hle : (L.lowered slots A).Le n B) :
    ∃ D, L.Tracks env base Q B (pre ++ j.mapRegs φ :: post) e.toList c D ∧
      (L.lowered slots C).Le n D := by
  obtain ⟨B₁, hbefore, hle₁, hheld₁⟩ := h.before huses hle (habout _ _ hle.values hQA)
  obtain ⟨B₂, hmain, hle₂, hheld₂⟩ := hdoes B₁ hle₁ hheld₁
  have hQ₂ : Q B₂.values := habout _ _ hle₂.values hQC
  have hfront := hbefore.append (.last hmain hQ₂)
  rcases hc with rfl | hdefs
  · obtain ⟨D, hbehind, hle₃⟩ := h.behind hframe hheld₂ hle₂ hQ₂
    refine ⟨D, ?_, hle₃⟩
    simpa using hfront.append hbehind
  · rw [hnil hdefs]
    exact ⟨B₂, by simpa using hfront, lowered_le hle₂ (by simp [hdefs])⟩

/-! ## Each kind of code -/

/-- A register that gets the value of its owner gets it in its place. -/
theorem unsaved_hold_le {t : Nat} {φ : Reg → Reg} (hφ : ∀ ρ : Reg, ρ.IsKept slots → φ ρ = ρ)
    (hle : (L.lowered slots A).Le n B) :
    (L.unsaved slots [.virt t] (A.hold (.virt t))).Le n (B.hold (φ (.virt t))) where
  values := hle.values
  mem := hle.mem
  held := by
    rintro ρ ⟨hρ | hρ, hk⟩ hold
    · rw [hρ] at hk ⊢
      rw [hφ _ hk]
      exact Set.mem_insert _ _
    · exact Set.mem_insert_of_mem _ (hle.held ρ ⟨hρ, hk⟩ hold)
  saved := by
    rintro v ⟨hv | ⟨u, s, hu | hu, hs, hv⟩, hnot⟩ hlt
    · exact hle.saved v (.inl hv) hlt
    · rw [Reg.virt.injEq] at hu
      exact absurd hv (hnot u s (hu ▸ List.mem_singleton_self _) hs)
    · exact hle.saved v (.inr ⟨u, s, hu, hs, hv⟩) hlt

theorem unsaved_save_le {v : Nat} (hle : (L.lowered slots A).Le n B) :
    (L.unsaved slots [] (A.save v)).Le n (B.save v) where
  values := hle.values
  mem := hle.mem
  held := hle.held
  saved := by
    rintro u ⟨(hu | hu) | hu, -⟩ hlt
    · exact .inl hu
    · exact .inr (hle.saved u (.inl hu) hlt)
    · exact .inr (hle.saved u (.inr hu) hlt)

variable {t a : Nat} {s : Slot}

theorem Covers.owner_temporaryIn (h : L.Covers slots n m j) {v : Nat}
    (hv : .virt v ∈ j.uses ++ j.defs) : L.owner (temporaryIn slots m j v) = L.owner v :=
  Reg.virt.inj (h.own_substitute hv)

/-- The load of a register that is spilled once more gets the value into a temporary. -/
theorem doesOver_load {d : Int32} (hj : j = .load (.ofSize s.size) (.virt t) (.phys L.frameBase) d)
    (h : L.Covers slots n m j) (hs : L.slots.lookup (L.owner t) = some s)
    (hsaved : L.owner t ∈ A.saved) (hne : L.owner t ≠ t)
    (hcode : ∀ t, LoadsSlot (.phys L.frameBase) t s
      [.load (.ofSize s.size) (.virt t) (.phys L.frameBase) d]) :
    L.DoesOver env base slots n j (substitute (temporariesIn slots m j)) A none .next
      (A.hold (.virt t)) := by
  intro B hle _
  have ht : .virt t ∈ j.uses ++ j.defs := by simp [hj, Instr.defs]
  have hdefs : j.defs = [.virt t] := by rw [hj, Instr.defs]
  have howner := h.owner_temporaryIn ht
  have hne' : L.owner (temporaryIn slots m j t) ≠ temporaryIn slots m j t := by
    cases hkept : slots.lookup t with
    | none =>
      have hsub := (isRenaming_temporariesIn slots m j).substitute_of_isKept (ρ := .virt t) hkept
      have htemp : temporaryIn slots m j t = t := Reg.virt.inj hsub
      rwa [htemp]
    | some s' => exact h.owner_ne ht hkept
  refine ⟨B.hold (.virt (temporaryIn slots m j t)), ?_, ?_, ?_⟩
  · have hmap : j.mapRegs (substitute (temporariesIn slots m j)) =
        .load (.ofSize s.size) (.virt (temporaryIn slots m j t)) (.phys L.frameBase) d := by
      subst hj
      rfl
    rw [hmap]
    exact .load (howner ▸ hs) (howner ▸ hle.saved _ (.inl hsaved) (h.owner_lt ht)) hne' (hcode _)
  · rw [hdefs]
    exact unsaved_hold_le (fun ρ ↦ (isRenaming_temporariesIn slots m j).substitute_of_isKept) hle
  · intro ρ hρ
    rw [hdefs, List.mem_singleton] at hρ
    rw [hρ]
    exact Set.mem_insert _ _

/-- The store of a register that is spilled once more is that of its temporary. -/
theorem doesOver_store {d : Int32}
    (hj : j = .store (.ofSize s.size) (.virt t) (.phys L.frameBase) d) (h : L.Covers slots n m j)
    (hs : L.slots.lookup (L.owner t) = some s) (hd : d = -Int32.ofNat s.offset) :
    L.DoesOver env base slots n j (substitute (temporariesIn slots m j)) A none .next
      (A.save (L.owner t)) := by
  intro B hle huses
  have ht : .virt t ∈ j.uses := by simp [hj, Instr.uses]
  have hdefs : j.defs = [] := by rw [hj, Instr.defs]
  have howner := h.owner_temporaryIn (List.mem_append_left _ ht)
  have hmap : j.mapRegs (substitute (temporariesIn slots m j)) =
      .store (.ofSize s.size) (.virt (temporaryIn slots m j t)) (.phys L.frameBase)
        (-Int32.ofNat s.offset) := by
    subst hj hd
    rfl
  refine ⟨B.save (L.owner t), ?_, ?_, by simp [hdefs]⟩
  · rw [hmap, ← howner]
    exact .store (howner ▸ hs) (huses _ ht)
  · rw [hdefs]
    exact unsaved_save_le hle

/-- The same, where the register with the address may be spilled too. -/
theorem doesOver_storeVia (hj : j = .store (.ofSize s.size) (.virt t) (.virt a) 0)
    (h : L.Covers slots n m j) (hs : L.slots.lookup (L.owner t) = some s)
    (haddress : A.values (.virt (L.owner a)) = s.address base) :
    L.DoesOver env base slots n j (substitute (temporariesIn slots m j)) A none .next
      (A.save (L.owner t)) := by
  intro B hle huses
  have ht : .virt t ∈ j.uses := by simp [hj, Instr.uses]
  have ha : .virt a ∈ j.uses := by simp [hj, Instr.uses]
  have hdefs : j.defs = [] := by rw [hj, Instr.defs]
  have howner := h.owner_temporaryIn (List.mem_append_left _ ht)
  have hmap : j.mapRegs (substitute (temporariesIn slots m j)) = .store (.ofSize s.size)
      (.virt (temporaryIn slots m j t)) (.virt (temporaryIn slots m j a)) 0 := by
    subst hj
    rfl
  refine ⟨B.save (L.owner t), ?_, ?_, by simp [hdefs]⟩
  · rw [hmap, ← howner]
    refine .storeVia (howner ▸ hs) (huses _ ht) (huses _ ha) ?_
    rw [h.owner_temporaryIn (List.mem_append_left _ ha),
      hle.values (.virt (L.owner a)) (h.owner_lt (List.mem_append_left _ ha))]
    exact haddress
  · rw [hdefs]
    exact unsaved_save_le hle

/-- What an instruction defines is held by the temporaries in the place of the registers. -/
theorem unsaved_exec_le {i : Instr} {φ ψ : Reg → Reg} (hψ : ∀ ρ : Reg, ρ.IsKept slots → ψ ρ = ρ)
    (hle : (L.lowered slots A).Le n B)
    (heffect : i.effect env B.values B.mem = i.effect env A.values A.mem) :
    (L.unsaved slots (i.defs.map φ) (L.exec env A i φ)).Le n (L.exec env B i (ψ ∘ φ)) where
  values ρ hρ := by
    change B.values.write i.defs (i.effect env B.values B.mem).values ρ = _
    rw [heffect]
    exact Regs.write_congr i.length_values (hle.values ρ hρ)
  mem := congrArg Effect.mem heffect
  held := by
    rintro ρ ⟨⟨hρ, hdef⟩ | ⟨d, hd, rfl⟩, hk⟩ hold
    · exact .inl ⟨hle.held ρ ⟨hρ, hk⟩ hold, hdef⟩
    · exact .inr ⟨d, hd, hψ _ hk⟩
  saved := by
    rintro v ⟨⟨hv, hdef⟩ | ⟨t, s, ⟨ht, hdef⟩ | ⟨d, hd, ht⟩, hs, hv⟩, hnot⟩ hlt
    · exact ⟨hle.saved v (.inl hv) hlt, hdef⟩
    · rw [own, hv] at hdef
      exact ⟨hle.saved v (.inr ⟨t, s, ht, hs, hv⟩) hlt, hdef⟩
    · exact absurd hv (hnot t s (ht ▸ List.mem_map_of_mem hd) hs)

section Exec

variable {i : Instr} {φ : Reg → Reg}

/-- The registers of the instruction are among the first ones. -/
theorem Covers.isOld_of_mem (h : L.Covers slots n m (i.mapRegs φ)) (hφ : L.Stands A i φ) {ρ : Reg}
    (hρ : ρ ∈ i.uses ++ i.defs) : φ ρ ∈ (i.mapRegs φ).uses ++ (i.mapRegs φ).defs ∧ ρ.IsOld n := by
  have hmem : φ ρ ∈ (i.mapRegs φ).uses ++ (i.mapRegs φ).defs := by
    rw [Instr.uses_mapRegs, Instr.defs_mapRegs, ← List.map_append]
    exact List.mem_map_of_mem hρ
  refine ⟨hmem, ?_⟩
  rw [← hφ.own ρ hρ]
  exact (h.old _ hmem).own h.fits

theorem Stands.mem_held (hφ : L.Stands A i φ) : ∀ ρ ∈ (i.mapRegs φ).uses, ρ ∈ A.held := by
  intro ρ hρ
  rw [Instr.uses_mapRegs] at hρ
  obtain ⟨σ, hσ, rfl⟩ := List.mem_map.1 hρ
  exact hφ.held σ hσ

/-- Temporaries stand for what the registers in their place stand for. -/
theorem Stands.over (hφ : L.Stands A i φ) (h : L.Covers slots n m (i.mapRegs φ))
    (huses : ∀ ρ ∈ (i.mapRegs φ).uses,
      substitute (temporariesIn slots m (i.mapRegs φ)) ρ ∈ B.held) :
    L.Stands B i (substitute (temporariesIn slots m (i.mapRegs φ)) ∘ φ) where
  own ρ hρ := (h.own_substitute (h.isOld_of_mem hφ hρ).1).trans (hφ.own ρ hρ)
  held ρ hρ := huses _ (by
    rw [Instr.uses_mapRegs]
    exact List.mem_map_of_mem hρ)

theorem Stands.effect_eq (hφ : L.Stands A i φ) (h : L.Covers slots n m (i.mapRegs φ))
    (hle : (L.lowered slots A).Le n B) :
    i.effect env B.values B.mem = i.effect env A.values A.mem := by
  have huse : ∀ ρ ∈ i.uses, B.values ρ = A.values ρ :=
    fun ρ hρ ↦ hle.values ρ (h.isOld_of_mem hφ (List.mem_append_left _ hρ)).2
  rw [Instr.effect_congr huse, hle.mem]
  rfl

theorem exec_held (ψ : Reg → Reg) :
    ∀ ρ ∈ (i.mapRegs φ).defs, ψ ρ ∈ (L.exec env B i (ψ ∘ φ)).held := by
  intro ρ hρ
  rw [Instr.defs_mapRegs] at hρ
  obtain ⟨d, hd, rfl⟩ := List.mem_map.1 hρ
  exact .inr ⟨d, hd, rfl⟩

/-- An instruction over registers that stand for its own is one over their temporaries. -/
theorem doesOver_exec (h : L.Covers slots n m (i.mapRegs φ)) (hφ : L.Stands A i φ)
    (hbase : .phys L.frameBase ∉ i.defs)
    (hevent : ∀ e ∈ (i.effect env A.values A.mem).event, e.Avoids (slotBytes base L.slots)) :
    L.DoesOver env base slots n (i.mapRegs φ)
      (substitute (temporariesIn slots m (i.mapRegs φ))) A
      (i.effect env A.values A.mem).event (i.effect env A.values A.mem).control
      (L.exec env A i φ) := by
  intro B hle huses
  have heffect : i.effect env B.values B.mem = i.effect env A.values A.mem := hφ.effect_eq h hle
  refine ⟨L.exec env B i (substitute (temporariesIn slots m (i.mapRegs φ)) ∘ φ), ?_, ?_,
    exec_held _⟩
  · rw [Instr.mapRegs_mapRegs, ← heffect]
    exact .exec (hφ.over h huses) hbase (heffect ▸ hevent)
  · rw [Instr.defs_mapRegs]
    exact unsaved_exec_le
      (fun ρ ↦ (isRenaming_temporariesIn slots m (i.mapRegs φ)).substitute_of_isKept) hle heffect

end Exec

end Instr

/-! ## Code -/

section Code

variable {known known' : Temporaries} {code : List Instr} {codes : List (List Instr)}

/-- No temporary that is spilled was loaded from a slot far away: its address is computed in the
temporary. -/
def LoadsNear (L : Layout) (slots : List (Nat × Slot)) (code : List Instr) : Prop :=
  ∀ t s, slots.lookup t = some s → L.owner t ≠ t → isNear (-Int32.ofNat s.offset) = false →
    .load (.ofSize s.size) (.virt t) (.virt t) 0 ∉ code

/-- Code over the first `n` registers is spilled, in a way that fits the layout. -/
structure Lowers (L : Layout) (slots : List (Nat × Slot)) (n : Nat) (known : Temporaries)
    (code : List Instr) (codes : List (List Instr)) (known' : Temporaries) : Prop where
  fits : L.Fits
  admits : L.Admits slots
  loadsNear : L.LoadsNear slots code
  threads : Threads (SpillsInstr slots (.phys L.frameBase)) known code codes known'
  agrees : L.Agrees known'
  isTidy : known.IsTidy
  le : n ≤ known.sizes.size
  old : ∀ i ∈ code, ∀ ρ ∈ i.uses ++ i.defs, ρ.IsOld n

namespace Lowers

/-- Code in two parts is spilled part by part. -/
theorem of_append {code' : List Instr} (h : L.Lowers slots n known (code ++ code') codes known') :
    ∃ known₁ codes₁ codes₂, codes = codes₁ ++ codes₂ ∧ L.Lowers slots n known code codes₁ known₁ ∧
      L.Lowers slots n known₁ code' codes₂ known' := by
  obtain ⟨known₁, codes₁, codes₂, hcodes, h₁, h₂⟩ := h.threads.of_append
  have htidy : known₁.IsTidy := h₁.keeps (P := Temporaries.IsTidy) (fun _ h ↦ h.isTidy) h.isTidy
  have hle : known.sizes.size ≤ known₁.sizes.size :=
    h₁.le (c := fun known ↦ known.sizes.size) SpillsInstr.size_le
  refine ⟨known₁, codes₁, codes₂, hcodes, ?_, ?_⟩
  · exact { h with
      loadsNear := fun t s hs ho hfar hw ↦ h.loadsNear t s hs ho hfar (List.mem_append_left _ hw)
      threads := h₁
      agrees := h₂.reflects (P := L.Agrees) SpillsInstr.agrees h.agrees
      old := fun i hi ↦ h.old i (List.mem_append_left _ hi) }
  · exact { h with
      loadsNear := fun t s hs ho hfar hw ↦ h.loadsNear t s hs ho hfar (List.mem_append_right _ hw)
      threads := h₂
      isTidy := htidy
      le := h.le.trans hle
      old := fun i hi ↦ h.old i (List.mem_append_right _ hi) }

/-- The code of one instruction. -/
theorem exists_surrounds {j : Instr} (h : L.Lowers slots n known [j] codes known') :
    L.Covers slots n known.sizes.size j ∧ ∃ pre post, codes.flatten =
        pre ++ j.mapRegs (substitute (temporariesIn slots known.sizes.size j)) :: post ∧
      (j.defs = [] → post = []) ∧ ∀ env base Q, IsAbout n Q → L.Surrounds env base Q slots n j
        (substitute (temporariesIn slots known.sizes.size j)) pre post := by
  have hthreads := h.threads
  cases hthreads with
  | cons hspills hnil =>
    cases hnil
    have hold : ∀ ρ ∈ j.uses ++ j.defs, ρ.IsOld n := h.old j (List.mem_singleton_self j)
    have hcovers : L.Covers slots n known.sizes.size j := ⟨h.fits, h.admits, h.le, hold,
      fun hv hs ↦ hspills.owner_temporaryIn h.agrees hv hs ((hold _ hv).trans_le h.le)⟩
    rw [List.flatten_cons, List.flatten_nil, List.append_nil]
    exact ⟨hcovers, Layout.exists_surrounds hcovers hspills fun a ↦
      hspills.owner_address h.agrees h.isTidy⟩

/-- One instruction, if it does over temporaries what it does to the shadow. -/
theorem exists_tracks {j : Instr} {e : Option Event} {c : Control}
    (h : L.Lowers slots n known [j] codes known')
    (hdoes : ∀ m, L.Covers slots n m j →
      L.DoesOver env base slots n j (substitute (temporariesIn slots m j)) A e c C)
    (hc : c = .next ∨ j.defs = []) (huses : ∀ ρ ∈ j.uses, ρ ∈ A.held) (hframe : C.HasFrame L base)
    (habout : IsAbout n Q) (hQA : Q A.values) (hQC : Q C.values)
    (hle : (L.lowered slots A).Le n B) :
    ∃ D, L.Tracks env base Q B codes.flatten e.toList c D ∧ (L.lowered slots C).Le n D := by
  obtain ⟨hcovers, pre, post, hcode, hnil, hsurrounds⟩ := h.exists_surrounds
  rw [hcode]
  exact (hsurrounds env base Q habout).tracks hnil (hdoes _ hcovers) hc huses hframe habout hQA hQC
    hle

/-- Code of which nothing is spilled stays as it is. -/
theorem flatten_eq (h : L.Lowers slots n known code codes known')
    (hkept : ∀ i ∈ code, ∀ ρ ∈ i.uses ++ i.defs, ρ.IsKept slots) : codes.flatten = code := by
  have hthreads := h.threads
  clear h
  induction hthreads with
  | nil _ => rfl
  | cons h _ ih =>
    rw [List.flatten_cons, h.eq_singleton (hkept _ List.mem_cons_self),
      ih fun i hi ↦ hkept i (List.mem_cons_of_mem _ hi)]
    rfl

end Lowers

theorem Does.hasFrame {e : Option Event} {c : Control} (h : L.Does env base A code e c B)
    (hA : A.HasFrame L base) : B.HasFrame L base := by
  cases h with
  | load => exact ⟨hA.values, Set.mem_insert_of_mem _ hA.held⟩
  | store => exact ⟨hA.values, hA.held⟩
  | storeVia => exact ⟨hA.values, hA.held⟩
  | exec _ hbase _ =>
    exact ⟨(Regs.write_of_notMem _ _ hbase).trans hA.values, .inl ⟨hA.held, hbase⟩⟩

/-- A piece of code does what it did, with some of its registers spilled. -/
theorem Does.lowered {e : Option Event} {c : Control} (h : L.Does env base A code e c C)
    (hlowers : L.Lowers slots n known code codes known') (hframe : A.HasFrame L base)
    (habout : IsAbout n Q) (hQA : Q A.values) (hQC : Q C.values)
    (hle : (L.lowered slots A).Le n B) :
    ∃ D, L.Tracks env base Q B codes.flatten e.toList c D ∧ (L.lowered slots C).Le n D := by
  have hframeC := h.hasFrame hframe
  cases h with
  | @load t s code hs hsaved hne hcode =>
    cases hcode with
    | near hnear =>
      refine hlowers.exists_tracks (fun m hcovers ↦ ?_) (.inl rfl) ?_ hframeC habout hQA hQC hle
      · exact doesOver_load rfl hcovers hs hsaved hne fun t ↦ .near hnear
      · simpa [Instr.uses] using hframe.held
    | far hfar =>
      have ht : t < n := hlowers.old _ List.mem_cons_self (.virt t) (by simp [Instr.defs])
      -- the address is computed in the temporary, so this one is not spilled again
      have hkept : slots.lookup t = none := by
        rw [Option.eq_none_iff_forall_ne_some]
        intro s' hs'
        obtain rfl : s = s' :=
          Option.some.inj (hs.symm.trans (hlowers.admits _ (mem_of_lookup_eq_some hs')))
        exact hlowers.loadsNear t s hs' hne hfar (by simp)
      have hflatten : codes.flatten = _ := hlowers.flatten_eq fun i hi ρ hρ ↦ by
        rcases (LoadsSlot.far hfar).mem_regs hi hρ with rfl | rfl
        · trivial
        · exact hkept
      have hsavedB : L.owner t ∈ B.saved :=
        hle.saved _ (.inl hsaved) ((hlowers.fits.owner_le t).trans_lt ht)
      rw [hflatten]
      refine ⟨B.hold (.virt t), .last (.load hs hsavedB hne (.far hfar)) ?_, ?_⟩
      · exact habout _ _ hle.values hQA
      · refine lowered_le (unsaved_hold_le (φ := id) (fun _ _ ↦ rfl) hle) fun u s' hu _ ↦ ?_
        rw [Reg.virt.inj (List.mem_singleton.1 hu)]
        exact hsavedB
  | @store t s hs ht =>
    refine hlowers.exists_tracks (fun m hcovers ↦ ?_) (.inl rfl) ?_ hframeC habout hQA hQC hle
    · exact doesOver_store rfl hcovers hs rfl
    · simpa [Instr.uses] using ⟨ht, hframe.held⟩
  | @storeVia t a s hs ht ha haddress =>
    refine hlowers.exists_tracks (fun m hcovers ↦ ?_) (.inl rfl) ?_ hframeC habout hQA hQC hle
    · exact doesOver_storeVia rfl hcovers hs haddress
    · simpa [Instr.uses] using ⟨ht, ha⟩
  | @exec i φ hφ hbase hevent =>
    refine hlowers.exists_tracks (fun m hcovers ↦ ?_) ?_ hφ.mem_held hframeC habout hQA hQC hle
    · exact doesOver_exec hcovers hφ hbase hevent
    · refine (i.control_eq_next_or env A.values A.mem).imp_right fun hdefs ↦ ?_
      rw [Instr.defs_mapRegs, hdefs, List.map_nil]

/-- Code does what it did, with some of its registers spilled. -/
theorem Tracks.lowered {es : List Event} {c : Control} (h : L.Tracks env base Q A code es c C)
    (hlowers : L.Lowers slots n known code codes known') (hframe : A.HasFrame L base)
    (habout : IsAbout n Q) (hQ : Q A.values) (hle : (L.lowered slots A).Le n B) :
    ∃ D, L.Tracks env base Q B codes.flatten es c D ∧ (L.lowered slots C).Le n D := by
  induction h generalizing B known codes with
  | nil =>
    have hthreads := hlowers.threads
    cases hthreads
    exact ⟨B, .nil, hle⟩
  | cons h hQ' _ ih =>
    obtain ⟨known₁, codes₁, codes₂, rfl, h₁, h₂⟩ := hlowers.of_append
    obtain ⟨D, htracks, hD⟩ := h.lowered h₁ hframe habout hQ hQ' hle
    obtain ⟨E, htracks', hE⟩ := ih h₂ (h.hasFrame hframe) hQ' hD
    rw [List.flatten_append]
    exact ⟨E, htracks.append htracks', hE⟩
  | last h hQ' => exact h.lowered hlowers hframe habout hQ hQ' hle

end Code

end Layout

end RegAlloc

import Mathlib
import RegAlloc.Catalog

/-!
# Well-formed catalogs

What is known of every catalog that can be made: the register at a position has that position as its
number, the colours are exactly the positions of the allocatable registers, and the frame base is
not one of them. There are as many allocatable registers as colours, all different and none below
the first colour, so none of the colours can be left out.
-/

namespace RegAlloc

/-- A computation that may fail succeeds if both of its parts do. -/
theorem bind_eq_ok_iff {ε α β : Type} {x : Except ε α} {f : α → Except ε β} {b : β} :
    x >>= f = .ok b ↔ ∃ a, x = .ok a ∧ f a = .ok b := by
  cases x with
  | error e =>
    refine ⟨fun h ↦ ?_, fun ⟨a, ha, _⟩ ↦ ?_⟩
    · cases h
    · cases ha
  | ok a =>
    refine ⟨fun h ↦ ⟨a, rfl, h⟩, fun ⟨a', ha, h⟩ ↦ ?_⟩
    cases ha
    exact h

theorem forall₂_of_mapM {α β ε : Type} {f : α → Except ε β} {as : List α} {bs : List β}
    (h : as.mapM f = .ok bs) : List.Forall₂ (fun a b ↦ f a = .ok b) as bs := by
  induction as generalizing bs with
  | nil =>
    cases h
    exact .nil
  | cons a as ih =>
    rw [List.mapM_cons] at h
    obtain ⟨b, hb, h⟩ := bind_eq_ok_iff.1 h
    obtain ⟨bs, hbs, h⟩ := bind_eq_ok_iff.1 h
    cases h
    exact .cons hb (ih hbs)

theorem exists_of_forall₂ {α β : Type} {Q : α → β → Prop} {as : List α} {bs : List β}
    (h : List.Forall₂ Q as bs) {b : β} (hb : b ∈ bs) : ∃ a ∈ as, Q a b := by
  induction h with
  | nil => cases hb
  | cons hab _ ih =>
    rcases List.mem_cons.1 hb with rfl | hb
    · exact ⟨_, List.mem_cons_self, hab⟩
    · obtain ⟨a, ha, hq⟩ := ih hb
      exact ⟨a, List.mem_cons_of_mem _ ha, hq⟩

namespace Catalog

/-- The registers that can be handed out. -/
def allocatable (c : Catalog) : List PhysReg :=
  c.calleeSaved ++ c.callerSaved

/-- What `ofNames?` makes sure of. -/
structure WellFormed (c : Catalog) : Prop where
  index_eq : ∀ {i : Nat} {r : PhysReg}, c.registers[i]? = some r → r.index = i
  mem_registers : ∀ {r}, r ∈ c.allocatable → r ∈ c.registers
  frameBase_mem : c.frameBase ∈ c.registers
  /-- The colours are the positions of the allocatable registers. -/
  isColour_iff : ∀ i, c.isColour i = true ↔ ∃ r ∈ c.allocatable, r.index = i
  firstColour_add : c.firstColour + c.colourCount = c.size
  frameBase_not_isColour : c.isColour c.frameBase.index = false

/-! ## The parts of a catalog -/

theorem mem_of_lookup {registers : List PhysReg} {name : String} {r : PhysReg}
    (h : lookup registers name = .ok r) : r ∈ registers := by
  unfold lookup at h
  split at h
  · rename_i r' hr
    cases h
    exact List.mem_of_find?_eq_some hr
  · cases h

theorem mem_of_mapM_lookup {registers rs : List PhysReg} {names : List String}
    (h : names.mapM (lookup registers) = .ok rs) : ∀ r ∈ rs, r ∈ registers := by
  induction names generalizing rs with
  | nil =>
    cases h
    exact fun r hr ↦ absurd hr List.not_mem_nil
  | cons hd tl ih =>
    rw [List.mapM_cons] at h
    obtain ⟨r₁, h₁, h⟩ := bind_eq_ok_iff.1 h
    obtain ⟨rs₁, h₂, h⟩ := bind_eq_ok_iff.1 h
    cases h
    intro r hr
    rcases List.mem_cons.1 hr with rfl | hr
    · exact mem_of_lookup h₁
    · exact ih h₂ r hr

/-- The allocatable registers pass the check if they are all at or behind `first`, and different
from each other and from those that have been seen. -/
theorem of_checkAllocatable {first count : Nat} {seen : List Nat} {rs : List PhysReg}
    (h : checkAllocatable first count seen rs = .ok ()) :
    (∀ r ∈ rs, first ≤ r.index ∧ r.index ∉ seen) ∧ (rs.map (·.index)).Nodup := by
  induction rs generalizing seen with
  | nil => exact ⟨fun r hr ↦ absurd hr List.not_mem_nil, .nil⟩
  | cons hd tl ih =>
    unfold checkAllocatable at h
    split at h
    · cases h
    · rename_i hseen
      split at h
      · cases h
      · rename_i hfirst
        obtain ⟨hall, hnd⟩ := ih h
        refine ⟨fun r hr ↦ ?_, ?_⟩
        · rcases List.mem_cons.1 hr with rfl | hr
          · exact ⟨not_lt.1 hfirst, hseen⟩
          · exact ⟨(hall r hr).1, fun hc ↦ (hall r hr).2 (List.mem_cons_of_mem _ hc)⟩
        · rw [List.map_cons, List.nodup_cons]
          refine ⟨fun hc ↦ ?_, hnd⟩
          obtain ⟨r, hr, he⟩ := List.mem_map.1 hc
          exact (hall r hr).2 (he ▸ List.mem_cons_self)

theorem getElem?_number (names : List String) (i : Nat) :
    (number names)[i]? = names[i]?.map fun name ↦ ⟨i % 65536, name⟩ := by
  simp [number, List.getElem?_zipIdx, Function.comp_def]

theorem index_lt_of_mem_number {names : List String} {r : PhysReg} (h : r ∈ number names) :
    r.index < names.length ∧ r.index < 65536 := by
  obtain ⟨i, hi⟩ := List.mem_iff_getElem?.1 h
  rw [getElem?_number, Option.map_eq_some_iff] at hi
  obtain ⟨name, hname, rfl⟩ := hi
  have hlt := (List.getElem?_eq_some_iff.1 hname).1
  exact ⟨(Nat.mod_le _ _).trans_lt hlt, Nat.mod_lt _ (by omega)⟩

/-- As long as the positions are 16 bit numbers, each register has its own position. -/
theorem index_eq_of_getElem?_number {names : List String} (hn : names.length ≤ 65536) {i : Nat}
    {r : PhysReg} (h : (number names)[i]? = some r) : r.index = i := by
  rw [getElem?_number, Option.map_eq_some_iff] at h
  obtain ⟨name, hname, rfl⟩ := h
  have hlt := (List.getElem?_eq_some_iff.1 hname).1
  exact Nat.mod_eq_of_lt (by omega)

theorem WellFormed.getElem?_index {c : Catalog} (h : c.WellFormed) {r : PhysReg}
    (hr : r ∈ c.registers) : c.registers[r.index]? = some r := by
  obtain ⟨i, hi⟩ := List.mem_iff_getElem?.1 hr
  rwa [h.index_eq hi]

/-! ## Counting the colours -/

/-- Different numbers from `a` on and below `b`, at least as many as fit there, are all of them. -/
theorem mem_of_nodup_of_le_length {l : List Nat} (hnd : l.Nodup) {a b : Nat}
    (hl : ∀ x ∈ l, a ≤ x ∧ x < b) (hlen : b - a ≤ l.length) {x : Nat} (ha : a ≤ x) (hb : x < b) :
    x ∈ l := by
  have hsub : l.toFinset ⊆ Finset.Ico a b := fun y hy ↦ by
    rw [List.mem_toFinset] at hy
    exact Finset.mem_Ico.2 (hl y hy)
  have heq := Finset.eq_of_subset_of_card_le hsub (by
    rw [Nat.card_Ico, List.toFinset_card_of_nodup hnd]
    exact hlen)
  rw [← List.mem_toFinset, heq]
  exact Finset.mem_Ico.2 ⟨ha, hb⟩

theorem length_le_of_nodup {l : List Nat} (hnd : l.Nodup) {a b : Nat}
    (hl : ∀ x ∈ l, a ≤ x ∧ x < b) : l.length ≤ b - a := by
  rw [← List.toFinset_card_of_nodup hnd, ← Nat.card_Ico]
  refine Finset.card_le_card fun y hy ↦ ?_
  rw [List.mem_toFinset] at hy
  exact Finset.mem_Ico.2 (hl y hy)

/-! ## Made catalogs -/

/-- What a catalog that is made from names has passed. -/
structure IsMade (names : List String) (c : Catalog) : Prop where
  registers_eq : c.registers = number names
  mem_registers : ∀ r ∈ c.allocatable, r ∈ c.registers
  frameBase_mem : c.frameBase ∈ c.registers
  colourCount_pos : 0 < c.colourCount
  check : checkAllocatable c.firstColour c.colourCount [] c.allocatable = .ok ()
  frameBase_notMem : c.frameBase.index ∉ c.allocatable.map (·.index)

theorem isMade_of_ofNames? {names calleeSaved callerSaved : List String} {frameBase : String}
    {c : Catalog} (h : ofNames? names calleeSaved callerSaved frameBase = .ok c) :
    IsMade names c := by
  unfold ofNames? at h
  split at h
  · cases h
  split at h
  · cases h
  obtain ⟨callee, hcallee, h⟩ := bind_eq_ok_iff.1 h
  obtain ⟨caller, hcaller, h⟩ := bind_eq_ok_iff.1 h
  obtain ⟨base, hbase, h⟩ := bind_eq_ok_iff.1 h
  simp only at h
  split at h
  · cases h
  rename_i hpos
  obtain ⟨⟨⟩, hcheck, h⟩ := bind_eq_ok_iff.1 h
  split at h
  · cases h
  rename_i hne
  cases h
  have hlen : (callee ++ caller).length = callee.length + caller.length := List.length_append
  rw [hlen] at hpos hcheck
  refine ⟨rfl, fun r hr ↦ ?_, mem_of_lookup hbase, Nat.pos_of_ne_zero hpos, hcheck, hne⟩
  rcases List.mem_append.1 hr with hr | hr
  · exact mem_of_mapM_lookup hcallee r hr
  · exact mem_of_mapM_lookup hcaller r hr

/-- Registers that pass the checks make a well-formed catalog. -/
theorem IsMade.wellFormed {c : Catalog} {names : List String} (h : IsMade names c) :
    WellFormed c := by
  obtain ⟨hregs, hmem, hbase, hpos, hcheck, hne⟩ := h
  obtain ⟨hall, hnd⟩ := of_checkAllocatable hcheck
  have hsize : c.size = names.length := by rw [size, hregs]; simp [number]
  have hbound : ∀ x ∈ c.allocatable.map (·.index),
      c.firstColour ≤ x ∧ x < min c.size 65536 := by
    intro x hx
    obtain ⟨r, hr, rfl⟩ := List.mem_map.1 hx
    have hlt := index_lt_of_mem_number (hregs ▸ hmem r hr)
    rw [hsize]
    exact ⟨(hall r hr).1, lt_min hlt.1 hlt.2⟩
  have hcount : (c.allocatable.map (·.index)).length = c.colourCount := by
    simp [allocatable, colourCount]
  have hle := length_le_of_nodup hnd hbound
  rw [hcount, firstColour] at hle
  -- as many different positions fit only if they are not cut off at 16 bits
  have hfit : c.colourCount ≤ c.size ∧ c.size ≤ 65536 := by omega
  have hadd : c.firstColour + c.colourCount = c.size := by
    rw [firstColour]
    omega
  have hiff : ∀ i, c.isColour i = true ↔ ∃ r ∈ c.allocatable, r.index = i := by
    intro i
    rw [isColour, Bool.and_eq_true, decide_eq_true_eq, decide_eq_true_eq]
    constructor
    · rintro ⟨h₁, h₂⟩
      exact List.mem_map.1 (mem_of_nodup_of_le_length hnd hbound (by omega) h₁ (by omega))
    · rintro ⟨r, hr, rfl⟩
      have := hbound _ (List.mem_map_of_mem hr)
      omega
  refine ⟨fun hr ↦ ?_, hmem _, hbase, hiff, hadd, ?_⟩
  · rw [hregs] at hr
    exact index_eq_of_getElem?_number (by omega) hr
  · rw [← Bool.not_eq_true, hiff]
    rintro ⟨r, hr, he⟩
    exact hne (List.mem_map.2 ⟨r, hr, he⟩)

/-- Every catalog that is made from names is well formed. -/
theorem wellFormed_of_ofNames? {names calleeSaved callerSaved : List String} {frameBase : String}
    {c : Catalog} (h : ofNames? names calleeSaved callerSaved frameBase = .ok c) :
    WellFormed c :=
  (isMade_of_ofNames? h).wellFormed

/-- A small catalog: the frame base, and two colours. -/
def twoColours : Catalog where
  registers := [⟨0, "fp"⟩, ⟨1, "s1"⟩, ⟨2, "t0"⟩]
  calleeSaved := [⟨1, "s1"⟩]
  callerSaved := [⟨2, "t0"⟩]
  frameBase := ⟨0, "fp"⟩

theorem ofNames?_twoColours : ofNames? ["fp", "s1", "t0"] ["s1"] ["t0"] "fp" = .ok twoColours :=
  rfl

end Catalog

end RegAlloc

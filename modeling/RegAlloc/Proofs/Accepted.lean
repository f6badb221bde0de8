import Mathlib
import RegAlloc.Proofs.Catalog

/-!
# Which catalogs are accepted

A catalog is checked register by register: no name stands twice, the allocatable registers have
different positions, and none of these is in front of the last `K`, if there are `K` of them. That
they fill the last `K` positions is never checked, and neither is whether there are more positions
than 16 bits can tell apart. `Catalog.FitTogether` says both, and the checks are as good as that:
`K` different positions among the last `K` are all of them, and positions that are cut off at 16
bits are too small to be among the last.
-/

namespace RegAlloc

namespace Catalog

/-- The parts of a catalog fit together: the allocatable registers are the last ones, in any order,
the frame base is one of the others, and all the positions are 16 bit numbers. -/
structure FitTogether (names calleeSaved callerSaved : List String) (frameBase : String) :
    Prop where
  nodup : names.Nodup
  nodup_allocatable : (calleeSaved ++ callerSaved).Nodup
  ne_nil : calleeSaved ++ callerSaved ≠ []
  last : (names.drop (names.length - (calleeSaved.length + callerSaved.length))).Perm
    (calleeSaved ++ callerSaved)
  frameBase_mem :
    frameBase ∈ names.take (names.length - (calleeSaved.length + callerSaved.length))
  length_le : names.length ≤ 65536

variable {names calleeSaved callerSaved : List String} {frameBase : String} {c : Catalog}

/-! ## The checks -/

theorem firstRepeat?_eq_none_iff {α : Type} [DecidableEq α] {seen as : List α} :
    firstRepeat? seen as = none ↔ as.Nodup ∧ ∀ a ∈ as, a ∉ seen := by
  induction as generalizing seen with
  | nil => simp [firstRepeat?]
  | cons a as ih =>
    rw [firstRepeat?]
    split
    · rename_i ha
      constructor
      · intro h
        cases h
      · rintro ⟨-, h⟩
        exact absurd ha (h a List.mem_cons_self)
    · rename_i ha
      rw [ih, List.nodup_cons]
      constructor
      · rintro ⟨hnd, h⟩
        refine ⟨⟨fun hmem ↦ h a hmem List.mem_cons_self, hnd⟩, fun x hx ↦ ?_⟩
        rcases List.mem_cons.1 hx with rfl | hx
        · exact ha
        · exact fun hseen ↦ h x hx (List.mem_cons_of_mem a hseen)
      · rintro ⟨⟨hmem, hnd⟩, h⟩
        refine ⟨hnd, fun x hx ↦ ?_⟩
        rw [List.mem_cons, not_or]
        exact ⟨fun he ↦ hmem (he ▸ hx), h x (List.mem_cons_of_mem a hx)⟩

theorem find?_eq_some_iff {registers : List PhysReg} (hnd : (registers.map (·.name)).Nodup)
    {name : String} {r : PhysReg} :
    registers.find? (·.name = name) = some r ↔ r ∈ registers ∧ r.name = name := by
  constructor
  · intro h
    exact ⟨List.mem_of_find?_eq_some h, by simpa using List.find?_some h⟩
  · rintro ⟨hr, rfl⟩
    obtain ⟨r', hr'⟩ : ∃ r', registers.find? (·.name = r.name) = some r' := by
      rw [← Option.isSome_iff_exists, List.find?_isSome]
      exact ⟨r, hr, decide_eq_true rfl⟩
    have hname : r'.name = r.name := by simpa using List.find?_some hr'
    rw [hr', List.inj_on_of_nodup_map hnd (List.mem_of_find?_eq_some hr') hr hname]

theorem lookup_eq_ok_iff {registers : List PhysReg} (hnd : (registers.map (·.name)).Nodup)
    {name : String} {r : PhysReg} :
    lookup registers name = .ok r ↔ r ∈ registers ∧ r.name = name := by
  rw [← find?_eq_some_iff hnd, lookup]
  split
  · rename_i r' hr
    rw [hr, Except.ok.injEq, Option.some.injEq]
  · rename_i hr
    rw [hr]
    constructor <;> intro h <;> cases h

theorem mapM_lookup_eq_ok_iff {registers : List PhysReg} (hnd : (registers.map (·.name)).Nodup)
    {names : List String} {rs : List PhysReg} :
    names.mapM (lookup registers) = .ok rs ↔
      rs.map (·.name) = names ∧ ∀ r ∈ rs, r ∈ registers := by
  induction names generalizing rs with
  | nil =>
    rw [List.mapM_nil, List.map_eq_nil_iff]
    constructor
    · intro h
      cases h
      exact ⟨rfl, fun r hr ↦ absurd hr List.not_mem_nil⟩
    · rintro ⟨rfl, -⟩
      rfl
  | cons name names ih =>
    rw [List.mapM_cons, bind_eq_ok_iff]
    constructor
    · rintro ⟨r, hr, h⟩
      obtain ⟨rs, hrs, h⟩ := bind_eq_ok_iff.1 h
      cases h
      obtain ⟨hmem, rfl⟩ := (lookup_eq_ok_iff hnd).1 hr
      obtain ⟨rfl, hall⟩ := ih.1 hrs
      exact ⟨rfl, List.forall_mem_cons.2 ⟨hmem, hall⟩⟩
    · rintro ⟨hmap, hall⟩
      obtain ⟨r, rs, rfl, rfl, rfl⟩ := List.map_eq_cons_iff.1 hmap
      obtain ⟨hmem, hall⟩ := List.forall_mem_cons.1 hall
      exact ⟨r, (lookup_eq_ok_iff hnd).2 ⟨hmem, rfl⟩,
        bind_eq_ok_iff.2 ⟨rs, ih.2 ⟨rfl, hall⟩, rfl⟩⟩

theorem checkAllocatable_eq_ok {first count : Nat} {seen : List Nat} {rs : List PhysReg}
    (hfirst : ∀ r ∈ rs, first ≤ r.index) (hseen : ∀ r ∈ rs, r.index ∉ seen)
    (hnd : (rs.map (·.index)).Nodup) : checkAllocatable first count seen rs = .ok () := by
  induction rs generalizing seen with
  | nil => rfl
  | cons r rs ih =>
    obtain ⟨hr, hfirst⟩ := List.forall_mem_cons.1 hfirst
    obtain ⟨hnew, hseen⟩ := List.forall_mem_cons.1 hseen
    rw [List.map_cons, List.nodup_cons] at hnd
    rw [checkAllocatable, if_neg hnew, if_neg (not_lt.2 hr)]
    refine ih hfirst (fun r' hr' ↦ ?_) hnd.2
    rw [List.mem_cons, not_or]
    exact ⟨fun he ↦ hnd.1 (List.mem_map.2 ⟨r', hr', he⟩), hseen r' hr'⟩

/-! ## Names and positions -/

theorem map_name_number (names : List String) : (number names).map (·.name) = names := by
  simp [number, Function.comp_def]

section Number

variable {r r' : PhysReg} {k : Nat}

theorem getElem?_index_of_mem_number (hlen : names.length ≤ 65536) (hr : r ∈ number names) :
    names[r.index]? = some r.name := by
  obtain ⟨i, hi⟩ := List.mem_iff_getElem?.1 hr
  rw [index_eq_of_getElem?_number hlen hi]
  rw [getElem?_number, Option.map_eq_some_iff] at hi
  obtain ⟨name, hname, rfl⟩ := hi
  exact hname

theorem eq_of_index_eq (hlen : names.length ≤ 65536) (hr : r ∈ number names)
    (hr' : r' ∈ number names) (h : r.index = r'.index) : r = r' := by
  obtain ⟨i, hi⟩ := List.mem_iff_getElem?.1 hr
  obtain ⟨j, hj⟩ := List.mem_iff_getElem?.1 hr'
  rw [index_eq_of_getElem?_number hlen hi, index_eq_of_getElem?_number hlen hj] at h
  subst h
  exact Option.some.inj (hi.symm.trans hj)

/-- A name is at the position of its register only. -/
theorem eq_index_of_getElem? (hnd : names.Nodup) (hlen : names.length ≤ 65536)
    (hr : r ∈ number names) {i : Nat} (hi : names[i]? = some r.name) : i = r.index := by
  have hlt := (List.getElem?_eq_some_iff.1 hi).1
  exact (List.getElem?_inj hlt hnd).1 (hi.trans (getElem?_index_of_mem_number hlen hr).symm)

theorem name_mem_drop_iff (hnd : names.Nodup) (hlen : names.length ≤ 65536)
    (hr : r ∈ number names) : r.name ∈ names.drop k ↔ k ≤ r.index := by
  rw [List.mem_iff_getElem?]
  constructor
  · rintro ⟨i, hi⟩
    rw [List.getElem?_drop] at hi
    have := eq_index_of_getElem? hnd hlen hr hi
    omega
  · intro hk
    refine ⟨r.index - k, ?_⟩
    rw [List.getElem?_drop, Nat.add_sub_cancel' hk]
    exact getElem?_index_of_mem_number hlen hr

theorem name_mem_take_iff (hnd : names.Nodup) (hlen : names.length ≤ 65536)
    (hr : r ∈ number names) : r.name ∈ names.take k ↔ r.index < k := by
  rw [← not_le, ← name_mem_drop_iff hnd hlen hr]
  have hname : r.name ∈ names.take k ++ names.drop k := by
    rw [List.take_append_drop]
    exact List.mem_of_getElem? (getElem?_index_of_mem_number hlen hr)
  have hdisj : (names.take k).Disjoint (names.drop k) := by
    rw [← List.take_append_drop k names] at hnd
    exact List.disjoint_of_nodup_append hnd
  constructor
  · exact fun htake hdrop ↦ hdisj htake hdrop
  · exact (List.mem_append.1 hname).resolve_right

/-- Registers with given names. -/
theorem exists_map_name {xs : List String} (h : ∀ x ∈ xs, x ∈ names) :
    ∃ rs : List PhysReg, rs.map (·.name) = xs ∧ ∀ r ∈ rs, r ∈ number names := by
  induction xs with
  | nil => exact ⟨[], rfl, fun r hr ↦ absurd hr List.not_mem_nil⟩
  | cons x xs ih =>
    obtain ⟨hx, hxs⟩ := List.forall_mem_cons.1 h
    obtain ⟨rs, rfl, hrs⟩ := ih hxs
    rw [← map_name_number names] at hx
    obtain ⟨r, hr, rfl⟩ := List.mem_map.1 hx
    exact ⟨r :: rs, rfl, List.forall_mem_cons.2 ⟨hr, hrs⟩⟩

end Number

/-! ## Making a catalog -/

/-- The parts of the catalog have the given names. -/
structure IsNamed (c : Catalog) (calleeSaved callerSaved : List String) (frameBase : String) :
    Prop where
  calleeSaved : c.calleeSaved.map (·.name) = calleeSaved
  callerSaved : c.callerSaved.map (·.name) = callerSaved
  frameBase : c.frameBase.name = frameBase

theorem IsNamed.map_allocatable (h : c.IsNamed calleeSaved callerSaved frameBase) :
    c.allocatable.map (·.name) = calleeSaved ++ callerSaved := by
  rw [allocatable, List.map_append, h.calleeSaved, h.callerSaved]

theorem IsNamed.colourCount_eq (h : c.IsNamed calleeSaved callerSaved frameBase) :
    c.colourCount = calleeSaved.length + callerSaved.length := by
  rw [← h.calleeSaved, ← h.callerSaved, List.length_map, List.length_map]
  rfl

/-- What is made is what passes the checks. -/
theorem ofNames?_eq_ok_iff : ofNames? names calleeSaved callerSaved frameBase = .ok c ↔
    names.Nodup ∧ IsMade names c ∧ c.IsNamed calleeSaved callerSaved frameBase := by
  constructor
  · intro h
    have hmade := isMade_of_ofNames? h
    rw [ofNames?] at h
    split at h
    · cases h
    split at h
    · cases h
    rename_i hrepeat
    have hnd := (firstRepeat?_eq_none_iff.1 hrepeat).1
    refine ⟨hnd, hmade, ?_⟩
    rw [← map_name_number names] at hnd
    obtain ⟨callee, hcallee, h⟩ := bind_eq_ok_iff.1 h
    obtain ⟨caller, hcaller, h⟩ := bind_eq_ok_iff.1 h
    obtain ⟨base, hbase, h⟩ := bind_eq_ok_iff.1 h
    simp only at h
    split at h
    · cases h
    obtain ⟨⟨⟩, -, h⟩ := bind_eq_ok_iff.1 h
    split at h
    · cases h
    cases h
    constructor
    · exact ((mapM_lookup_eq_ok_iff hnd).1 hcallee).1
    · exact ((mapM_lookup_eq_ok_iff hnd).1 hcaller).1
    · exact ((lookup_eq_ok_iff hnd).1 hbase).2
  · rintro ⟨hnd, ⟨hregs, hmem, hbase, hpos, hcheck, hne⟩, ⟨rfl, rfl, rfl⟩⟩
    have hempty : names.isEmpty = false := by
      cases names with
      | nil =>
        rw [hregs] at hbase
        cases hbase
      | cons name names => rfl
    have hrepeat : firstRepeat? [] names = none :=
      firstRepeat?_eq_none_iff.2 ⟨hnd, fun x _ ↦ List.not_mem_nil⟩
    rw [← map_name_number names] at hnd
    rw [hregs] at hmem hbase
    have hcallee := (mapM_lookup_eq_ok_iff hnd).2
      ⟨rfl, fun r hr ↦ hmem r (List.mem_append_left _ hr)⟩
    have hcaller := (mapM_lookup_eq_ok_iff hnd).2
      ⟨rfl, fun r hr ↦ hmem r (List.mem_append_right _ hr)⟩
    have hlength : (c.calleeSaved ++ c.callerSaved).length = c.colourCount := List.length_append
    rw [firstColour, size, hregs] at hcheck
    rw [allocatable] at hne
    rw [ofNames?, hempty, hrepeat]
    refine bind_eq_ok_iff.2 ⟨_, hcallee, bind_eq_ok_iff.2 ⟨_, hcaller, bind_eq_ok_iff.2
      ⟨_, (lookup_eq_ok_iff hnd).2 ⟨hbase, rfl⟩, ?_⟩⟩⟩
    simp only [hlength]
    rw [if_neg hpos.ne']
    refine bind_eq_ok_iff.2 ⟨(), hcheck, ?_⟩
    rw [if_neg hne, ← hregs]

/-! ## Made catalogs fit together, and parts that fit together make one -/

theorem IsMade.length_le (h : IsMade names c) : names.length ≤ 65536 := by
  by_contra hlen
  have hlast : (number names)[names.length - 1]? =
      some ⟨(names.length - 1) % 65536, names[names.length - 1]⟩ := by
    rw [getElem?_number, List.getElem?_eq_getElem]
    rfl
  rw [← h.registers_eq] at hlast
  have hindex : (names.length - 1) % 65536 = names.length - 1 := h.wellFormed.index_eq hlast
  omega

/-- The registers whose positions are colours are the callee and the caller saved ones. -/
theorem WellFormed.isAllocatable_iff (h : WellFormed c) {r : PhysReg} (hr : r ∈ c.registers) :
    c.isAllocatable r = true ↔ r ∈ c.allocatable := by
  rw [isAllocatable, h.isColour_iff]
  constructor
  · rintro ⟨r', hr', he⟩
    have hsame := (h.getElem?_index (h.mem_registers hr')).symm.trans
      (he ▸ h.getElem?_index hr)
    exact Option.some.inj hsame ▸ hr'
  · exact fun hr ↦ ⟨r, hr, rfl⟩

theorem WellFormed.isAllocatable_iff_le (h : WellFormed c) {r : PhysReg} (hr : r ∈ c.registers) :
    c.isAllocatable r = true ↔ c.firstColour ≤ r.index := by
  have hlt : r.index < c.size := (List.getElem?_eq_some_iff.1 (h.getElem?_index hr)).1
  rw [isAllocatable, isColour, decide_eq_true hlt, Bool.and_true, decide_eq_true_iff]

theorem fitTogether_of_isMade (hnd : names.Nodup) (hmade : IsMade names c)
    (hnamed : c.IsNamed calleeSaved callerSaved frameBase) :
    FitTogether names calleeSaved callerSaved frameBase := by
  have hwf := hmade.wellFormed
  have hlen := hmade.length_le
  have hfirst : c.firstColour = names.length - (calleeSaved.length + callerSaved.length) := by
    rw [firstColour, hnamed.colourCount_eq, size, hmade.registers_eq]
    simp [number]
  have hreg : ∀ r ∈ c.registers, r ∈ number names := fun r hr ↦ hmade.registers_eq ▸ hr
  have hallocatable : (calleeSaved ++ callerSaved).Nodup := by
    rw [← hnamed.map_allocatable]
    refine List.Nodup.map_on (fun r hr r' hr' he ↦ ?_)
      (of_checkAllocatable hmade.check).2.of_map
    rw [← map_name_number names] at hnd
    exact List.inj_on_of_nodup_map hnd (hreg r (hmade.mem_registers r hr))
      (hreg r' (hmade.mem_registers r' hr')) he
  refine ⟨hnd, hallocatable, ?_, ?_, ?_, hlen⟩
  · rw [ne_eq, ← List.length_eq_zero_iff, List.length_append, ← hnamed.colourCount_eq]
    exact hmade.colourCount_pos.ne'
  · -- the colours are the last positions, and each of them is taken
    rw [← hfirst, List.perm_ext_iff_of_nodup (hnd.sublist (List.drop_sublist _ _)) hallocatable,
      ← hnamed.map_allocatable]
    intro x
    rw [List.mem_map]
    constructor
    · intro hx
      have hmem := List.mem_of_mem_drop hx
      rw [← map_name_number names, ← hmade.registers_eq] at hmem
      obtain ⟨r, hr, rfl⟩ := List.mem_map.1 hmem
      rw [name_mem_drop_iff hnd hlen (hreg r hr), ← hwf.isAllocatable_iff_le hr] at hx
      exact ⟨r, (hwf.isAllocatable_iff hr).1 hx, rfl⟩
    · rintro ⟨r, hr, rfl⟩
      have hmem := hmade.mem_registers r hr
      rw [name_mem_drop_iff hnd hlen (hreg r hmem), ← hwf.isAllocatable_iff_le hmem]
      exact (hwf.isAllocatable_iff hmem).2 hr
  · rw [← hnamed.frameBase, ← hfirst, name_mem_take_iff hnd hlen (hreg _ hmade.frameBase_mem),
      ← not_le, ← hwf.isAllocatable_iff_le hmade.frameBase_mem, Bool.not_eq_true]
    exact hwf.frameBase_not_isColour

theorem FitTogether.exists_isMade (h : FitTogether names calleeSaved callerSaved frameBase) :
    ∃ c, IsMade names c ∧ c.IsNamed calleeSaved callerSaved frameBase := by
  have hlast : ∀ x ∈ calleeSaved ++ callerSaved, x ∈ names := fun x hx ↦
    List.mem_of_mem_drop (h.last.symm.subset hx)
  obtain ⟨callee, hcallee, hmem⟩ := exists_map_name fun x hx ↦ hlast x (List.mem_append_left _ hx)
  obtain ⟨caller, hcaller, hmem'⟩ :=
    exists_map_name fun x hx ↦ hlast x (List.mem_append_right _ hx)
  obtain ⟨base, hbase, rfl⟩ : ∃ r ∈ number names, r.name = frameBase := by
    rw [← List.mem_map, map_name_number]
    exact List.mem_of_mem_take h.frameBase_mem
  let c : Catalog := ⟨number names, callee, caller, base⟩
  have hnamed : c.IsNamed calleeSaved callerSaved base.name := ⟨hcallee, hcaller, rfl⟩
  have hregs : ∀ r ∈ c.allocatable, r ∈ number names := by
    intro r hr
    exact (List.mem_append.1 hr).elim (hmem r) (hmem' r)
  have hfirst : c.firstColour = names.length - (calleeSaved.length + callerSaved.length) := by
    rw [firstColour, hnamed.colourCount_eq, size]
    simp [c, number]
  have hcolour : ∀ r ∈ c.allocatable, c.firstColour ≤ r.index := by
    intro r hr
    rw [← name_mem_drop_iff h.nodup h.length_le (hregs r hr), hfirst, h.last.mem_iff,
      ← hnamed.map_allocatable]
    exact List.mem_map_of_mem hr
  have hbaseIndex : base.index < c.firstColour := by
    rw [← name_mem_take_iff h.nodup h.length_le hbase, hfirst]
    exact h.frameBase_mem
  refine ⟨c, ⟨rfl, hregs, hbase, ?_, ?_, ?_⟩, hnamed⟩
  · rw [hnamed.colourCount_eq, ← List.length_append]
    exact List.length_pos_of_ne_nil h.ne_nil
  · refine checkAllocatable_eq_ok hcolour (fun r _ ↦ List.not_mem_nil) ?_
    have hnd : c.allocatable.Nodup := by
      have := h.nodup_allocatable
      rw [← hnamed.map_allocatable] at this
      exact this.of_map
    exact hnd.map_on fun r hr r' hr' ↦ eq_of_index_eq h.length_le (hregs r hr) (hregs r' hr')
  · intro hmem
    obtain ⟨r, hr, he⟩ := List.mem_map.1 hmem
    exact absurd (hcolour r hr) (not_le.2 (he ▸ hbaseIndex))

/-- A catalog is accepted exactly if its parts fit together, however many names there are. An
accepted catalog has the given names; its allocatable registers are the callee and the caller saved
ones, and not the frame base; and each of its registers is found by its position and by its name. -/
theorem exists_ofNames?_iff (names calleeSaved callerSaved : List String) (frameBase : String) :
    ((∃ c, ofNames? names calleeSaved callerSaved frameBase = .ok c) ↔
      FitTogether names calleeSaved callerSaved frameBase) ∧
    ∀ c, ofNames? names calleeSaved callerSaved frameBase = .ok c →
      c.registers.map (·.name) = names ∧ c.IsNamed calleeSaved callerSaved frameBase ∧
      (∀ r ∈ c.calleeSaved ++ c.callerSaved, r ∈ c.registers) ∧
      (∀ r ∈ c.registers, (c.isAllocatable r = true ↔ r ∈ c.calleeSaved ++ c.callerSaved) ∧
        c.registers[r.index]? = some r ∧ c.find? r.name = some r) ∧
      c.frameBase ∈ c.registers ∧ c.isAllocatable c.frameBase = false := by
  refine ⟨⟨?_, fun h ↦ ?_⟩, fun c h ↦ ?_⟩
  · rintro ⟨c, h⟩
    obtain ⟨hnd, hmade, hnamed⟩ := ofNames?_eq_ok_iff.1 h
    exact fitTogether_of_isMade hnd hmade hnamed
  · obtain ⟨c, hmade, hnamed⟩ := h.exists_isMade
    exact ⟨c, ofNames?_eq_ok_iff.2 ⟨h.nodup, hmade, hnamed⟩⟩
  · obtain ⟨hnd, hmade, hnamed⟩ := ofNames?_eq_ok_iff.1 h
    have hwf := hmade.wellFormed
    have hnames : c.registers.map (·.name) = names := by
      rw [hmade.registers_eq, map_name_number]
    refine ⟨hnames, hnamed, hmade.mem_registers, fun r hr ↦ ?_, hmade.frameBase_mem,
      hwf.frameBase_not_isColour⟩
    refine ⟨hwf.isAllocatable_iff hr, hwf.getElem?_index hr, ?_⟩
    rw [find?, find?_eq_some_iff (hnames.symm ▸ hnd)]
    exact ⟨hr, rfl⟩

/-- The registers of the 32 bit RISC-V machine fit together. -/
theorem exists_ofNames?_riscv32 :
    FitTogether riscv32Names (riscv32Names.drop 21) ((riscv32Names.drop 6).take 15) "s0" ∧
      riscv32.find? "a0" = some ⟨9, "a0"⟩ ∧ riscv32.isAllocatable ⟨9, "a0"⟩ = true ∧
      riscv32.isAllocatable ⟨5, "s0"⟩ = false := by
  obtain ⟨hiff, hall⟩ := exists_ofNames?_iff riscv32Names (riscv32Names.drop 21)
    ((riscv32Names.drop 6).take 15) "s0"
  obtain ⟨-, -, -, hregs, -, hbase⟩ := hall riscv32 ofNames?_riscv32
  obtain ⟨hallocatable, -, hfind⟩ := hregs ⟨9, "a0"⟩ (by decide)
  exact ⟨hiff.1 ⟨riscv32, ofNames?_riscv32⟩, hfind, hallocatable.2 (by decide), hbase⟩

end Catalog

end RegAlloc

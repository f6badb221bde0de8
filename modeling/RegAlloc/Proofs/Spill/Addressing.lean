import Mathlib
import RegAlloc.Proofs.Spill.Slot

/-!
# How slots are addressed

The offset of a slot is a number of 32 bits, but its displacement from the frame base is signed. So
offsets near `2 ^ 32` are displacements upwards, and `2 ^ 31` has no displacement at all. What spill
code does is the same for all the others: it accesses the slot once, in the width for its size, at
the address of the frame base less the offset, modulo `2 ^ 32` (`Slot.addressed_of_lt`). Loads and
stores agree on which slots are near enough for one instruction, and all the constants that stand in
a load or a store are of 12 bits.
-/

namespace RegAlloc

/-! ## Displacements -/

/-- An offset of 32 bits, read as a signed number, and negated. -/
theorem toInt_neg_ofNat {offset : Nat} (hlt : offset < UInt32.size) (hne : offset ≠ 2 ^ 31) :
    (-Int32.ofNat offset).toInt =
      if offset < 2 ^ 31 then -(offset : Int) else (UInt32.size : Int) - offset := by
  have hsigned : (Int32.ofNat offset).toInt =
      if offset < 2 ^ 31 then (offset : Int) else (offset : Int) - UInt32.size := by
    rw [Int32.toInt_ofNat', Int.bmod_def]
    simp only [Int32.size, UInt32.size] at hlt ⊢
    split_ifs <;> omega
  rw [Int32.toInt_neg, hsigned, Int.bmod_def]
  simp only [UInt32.size] at hlt ⊢
  split_ifs <;> omega

theorem ofNat_eq_minValue_iff {offset : Nat} (hlt : offset < UInt32.size) :
    Int32.ofNat offset = Int32.minValue ↔ offset = 2 ^ 31 := by
  rw [← Int32.toInt_inj, Int32.toInt_ofNat', Int32.toInt_minValue, Int.bmod_def]
  simp only [Int32.size, UInt32.size] at hlt ⊢
  split_ifs <;> omega

/-- There is a displacement for all the offsets but one. -/
theorem displacement_eq_error_iff {offset : Nat} (hlt : offset < UInt32.size) :
    displacement offset = .error .overflow ↔ offset = 2 ^ 31 := by
  rw [← ofNat_eq_minValue_iff hlt, displacement]
  split
  · rename_i h
    exact iff_of_true rfl h
  · rename_i h
    exact iff_of_false (by simp) h

namespace Slot

/-- The slot can be reached from the frame base in one instruction: it is at most 2048 bytes below
it, or less than 2048 bytes above. -/
def IsNear (s : Slot) : Prop :=
  s.offset ≤ 2048 ∨ UInt32.size - 2048 < s.offset

instance (s : Slot) : Decidable s.IsNear :=
  inferInstanceAs (Decidable (_ ∨ _))

variable {s : Slot}

theorem isNear_neg_ofNat_iff (hlt : s.offset < UInt32.size) (hne : s.offset ≠ 2 ^ 31) :
    isNear (-Int32.ofNat s.offset) = true ↔ s.IsNear := by
  rw [isNear, toInt_neg_ofNat hlt hne, Bool.and_eq_true, decide_eq_true_iff, decide_eq_true_iff,
    IsNear]
  simp only [UInt32.size] at hlt ⊢
  split_ifs <;> omega

end Slot

/-! ## Constants in loads and stores -/

/-- The constant of a load or store is a signed number of 12 bits. -/
def Instr.HasShortOffset : Instr → Prop
  | load _ _ _ offset | store _ _ _ offset => offset.toInt ∈ Set.Icc (-2048) 2047
  | _ => True

section Code

variable {frameBase : Reg} {t : Nat} {s : Slot} {sizes sizes' : Array Nat} {code : List Instr}

theorem toInt_mem_of_isNear {d : Int32} (h : isNear d = true) : d.toInt ∈ Set.Icc (-2048) 2047 := by
  rw [isNear, Bool.and_eq_true, decide_eq_true_iff, decide_eq_true_iff] at h
  exact ⟨h.1, Int.le_of_lt_add_one h.2⟩

theorem LoadsSlot.hasShortOffset (h : LoadsSlot frameBase t s code) :
    ∀ i ∈ code, i.HasShortOffset := by
  cases h with
  | near hnear =>
    intro i hi
    rw [List.mem_singleton.1 hi]
    exact toInt_mem_of_isNear hnear
  | far => simp [Instr.HasShortOffset]

theorem StoresSlot.hasShortOffset (h : StoresSlot frameBase t s sizes code sizes') :
    ∀ i ∈ code, i.HasShortOffset := by
  cases h with
  | near hnear =>
    intro i hi
    rw [List.mem_singleton.1 hi]
    exact toInt_mem_of_isNear hnear
  | far => simp [Instr.HasShortOffset]

/-- A register is reserved for the address exactly if the slot is not near. -/
theorem StoresSlot.sizes_eq (h : StoresSlot frameBase t s sizes code sizes')
    (hlt : s.offset < UInt32.size) (hne : s.offset ≠ 2 ^ 31) :
    sizes' = if s.IsNear then sizes else sizes.push 4 := by
  cases h with
  | near hnear => rw [if_pos ((Slot.isNear_neg_ofNat_iff hlt hne).1 hnear)]
  | far hfar => rw [if_neg fun hnear ↦
      Bool.noConfusion (hfar.symm.trans ((Slot.isNear_neg_ofNat_iff hlt hne).2 hnear))]

theorem loadSlot_eq_error (h : displacement s.offset = .error .overflow) :
    loadSlot frameBase t s = .error .overflow := by
  rw [loadSlot, h]
  rfl

theorem storeSlot_eq_error (h : displacement s.offset = .error .overflow) :
    storeSlot frameBase t s sizes = .error .overflow := by
  rw [storeSlot, h]
  rfl

end Code

/-! ## What spill code does -/

namespace Slot

/-- The code puts what the slot holds into the register `t`. It accesses the slot once, in the width
for its size, and changes neither another register nor the memory. -/
def IsLoadedBy (s : Slot) (frameBase : Reg) (t : Nat) (code : List Instr) : Prop :=
  ∀ env regs mem, RunsThrough env code regs mem
    [.read (s.address (regs frameBase)) (Width.ofSize s.size).bytes]
    (Function.update regs (.virt t)
      ((Width.ofSize s.size).load mem (s.address (regs frameBase)))) mem

/-- The code puts the low bytes of the register `t` into the slot, as many as the width for its size
has. It changes no register but those of `scratch`. -/
def IsStoredBy (s : Slot) (frameBase : Reg) (t : Nat) (scratch : List Reg) (code : List Instr) :
    Prop :=
  ∀ env regs mem, ∃ regs', RunsThrough env code regs mem
    [.write (s.address (regs frameBase)) ((Width.ofSize s.size).split (regs (.virt t)))] regs'
    (mem.write (s.address (regs frameBase)) ((Width.ofSize s.size).split (regs (.virt t)))) ∧
    ∀ ρ, ρ ∉ scratch → regs' ρ = regs ρ

/-- Spill code addresses a slot right, whatever its offset and its size are. Only the offset
`2 ^ 31` is refused. A store reserves and uses a register for the address if the slot is not near,
and none otherwise. -/
theorem addressed_of_lt (s : Slot) (hlt : s.offset < UInt32.size) (frameBase : PhysReg) (t : Nat)
    (sizes : Array Nat) (ht : t ≠ sizes.size) :
    (s.offset = 2 ^ 31 → loadSlot (.phys frameBase) t s = .error .overflow ∧
      storeSlot (.phys frameBase) t s sizes = .error .overflow) ∧
    (s.offset ≠ 2 ^ 31 →
      (∃ code, loadSlot (.phys frameBase) t s = .ok code ∧
        s.IsLoadedBy (.phys frameBase) t code ∧ ∀ i ∈ code, i.HasShortOffset) ∧
      ∃ code, storeSlot (.phys frameBase) t s sizes =
          .ok (code, if s.IsNear then sizes else sizes.push 4) ∧
        s.IsStoredBy (.phys frameBase) t (if s.IsNear then [] else [.virt sizes.size]) code ∧
        ∀ i ∈ code, i.HasShortOffset) := by
  constructor
  · intro heq
    have herror := (displacement_eq_error_iff hlt).2 heq
    exact ⟨loadSlot_eq_error herror, storeSlot_eq_error herror⟩
  · intro hne
    have hoff : Int32.ofNat s.offset ≠ Int32.minValue := mt (ofNat_eq_minValue_iff hlt).1 hne
    constructor
    · obtain ⟨code, hcode⟩ := exists_loadSlot_eq_ok (.phys frameBase) t hoff
      have hloads := loadsSlot_of_loadSlot hcode
      exact ⟨code, hcode, hloads.runsThrough_ofSize (by simp), hloads.hasShortOffset⟩
    · obtain ⟨code, sizes', hcode⟩ := exists_storeSlot_eq_ok (.phys frameBase) t sizes hoff
      have hstores := storesSlot_of_storeSlot hcode
      have hsizes := hstores.sizes_eq hlt hne
      refine ⟨code, hsizes ▸ hcode, fun env regs mem ↦ ?_, hstores.hasShortOffset⟩
      obtain ⟨regs', hrun, hframe⟩ := hstores.runsThrough_ofSize (by simp) ht env regs mem
      refine ⟨regs', hrun, fun ρ hρ ↦ ?_⟩
      by_contra hchanged
      obtain ⟨rfl, hpush⟩ := hframe ρ hchanged
      -- a register that is changed was reserved, so the slot is not near
      rw [hsizes] at hpush
      split_ifs at hpush hρ with hnear
      · exact absurd (congrArg Array.size hpush) (by simp)
      · exact hρ List.mem_cons_self

/-- Half a word 2048 bytes above the frame base, the first place there that is not near. -/
def above : Slot :=
  ⟨UInt32.size - 2048, 2⟩

/-- The address of this slot is computed, with a constant that is positive. -/
theorem addressed_of_above :
    (loadSlot (.phys ⟨0, "fp"⟩) 0 above =
        .ok [.li (.virt 0) 2048, .arith .add (.virt 0) (.phys ⟨0, "fp"⟩) (.virt 0),
          .load .half (.virt 0) (.virt 0) 0] ∧
      above.IsLoadedBy (.phys ⟨0, "fp"⟩) 0
        [.li (.virt 0) 2048, .arith .add (.virt 0) (.phys ⟨0, "fp"⟩) (.virt 0),
          .load .half (.virt 0) (.virt 0) 0]) ∧
    storeSlot (.phys ⟨0, "fp"⟩) 0 above #[2] =
        .ok ([.li (.virt 1) 2048, .arith .add (.virt 1) (.phys ⟨0, "fp"⟩) (.virt 1),
          .store .half (.virt 0) (.virt 1) 0], #[2, 4]) ∧
      above.IsStoredBy (.phys ⟨0, "fp"⟩) 0 [.virt 1]
        [.li (.virt 1) 2048, .arith .add (.virt 1) (.phys ⟨0, "fp"⟩) (.virt 1),
          .store .half (.virt 0) (.virt 1) 0] := by
  obtain ⟨⟨load, hload, hloaded, -⟩, store, hstore, hstored, -⟩ :=
    (addressed_of_lt above (by decide) ⟨0, "fp"⟩ 0 #[2] (by decide)).2 (by decide)
  cases hload
  cases hstore
  exact ⟨⟨rfl, hloaded⟩, rfl, hstored⟩

end Slot

end RegAlloc

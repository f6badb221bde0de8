import Mathlib
import RegAlloc.Proofs.Catalog
import RegAlloc.Proofs.Machine
import RegAlloc.Spill

/-!
# What the code of a stack slot does

A load from a slot puts the word that the slot holds into a temporary, and a store puts a temporary
into the slot. Whether the slot is near the frame base or not, that is all that can be told from
such code: the address of a slot that is far away is computed in a register that nothing else uses.
-/

namespace RegAlloc

/-! ## Words in memory -/

theorem Width.length_split (w : Width) (v : Word) : (w.split v).length = w.bytes := by
  simp [split]

/-- A word that was stored is loaded again. -/
theorem Width.load_write (mem : Memory) (a v : Word) :
    word.load (mem.write a (word.split v)) a = v := by
  have hbyte : ∀ k < 4, mem.write a (word.split v) (a + BitVec.ofNat 32 k) =
      v.extractLsb' (8 * k) 8 := by
    intro k hk
    have hk' : (a + BitVec.ofNat 32 k - a).toNat = k := by
      rw [BitVec.add_comm, BitVec.add_sub_cancel, BitVec.toNat_ofNat]
      omega
    rw [Memory.write, hk']
    simp [split, bytes, hk]
  have h₀ := hbyte 0 (by decide)
  have h₁ : mem.write a (word.split v) (a + 1) = _ := hbyte 1 (by decide)
  have h₂ : mem.write a (word.split v) (a + 2) = _ := hbyte 2 (by decide)
  have h₃ : mem.write a (word.split v) (a + 3) = _ := hbyte 3 (by decide)
  rw [BitVec.add_zero] at h₀
  simp only [load, h₀, h₁, h₂, h₃]
  ext k hk
  simp only [BitVec.getElem_append, BitVec.getElem_extractLsb']
  -- the bit is in one of the four bytes
  split_ifs <;> (rw [← BitVec.getLsbD_eq_getElem hk]; congr 1; omega)

/-! ## Slots -/

namespace Slot

/-- The address of a slot, by that of the frame base. -/
def address (base : Word) (s : Slot) : Word :=
  base - BitVec.ofNat 32 s.offset

/-- The addresses of the bytes of a slot that holds a word. -/
def bytes (base : Word) (s : Slot) : List Word :=
  (List.range 4).map fun k ↦ s.address base + BitVec.ofNat 32 k

/-- No byte of the one slot is one of the other. -/
def Disjoint (s t : Slot) : Prop :=
  ∀ x ∈ s.bytes 0, x ∉ t.bytes 0

-- found by search, the instance would go through all the words
instance (s t : Slot) : Decidable (s.Disjoint t) :=
  List.decidableBAll (· ∉ t.bytes 0) (s.bytes 0)

theorem mem_bytes_iff {base x : Word} {s : Slot} :
    x ∈ s.bytes base ↔ ∃ k < 4, s.address base + BitVec.ofNat 32 k = x := by
  simp [bytes]

/-- Where the bytes are depends on the frame base only. -/
theorem sub_mem_bytes {base x : Word} {s : Slot} (h : x ∈ s.bytes base) :
    x - base ∈ s.bytes 0 := by
  obtain ⟨k, hk, rfl⟩ := mem_bytes_iff.1 h
  refine mem_bytes_iff.2 ⟨k, hk, ?_⟩
  rw [address, address]
  grind

theorem Disjoint.notMem {base x : Word} {s t : Slot} (h : s.Disjoint t) (hx : x ∈ s.bytes base) :
    x ∉ t.bytes base :=
  fun hx' ↦ h _ (sub_mem_bytes hx) (sub_mem_bytes hx')

theorem Disjoint.symm {s t : Slot} (h : s.Disjoint t) : t.Disjoint s :=
  fun x hx hx' ↦ h x hx' hx

/-- A store to another slot does not change what a slot holds. -/
theorem Disjoint.load_write {base : Word} {s t : Slot} (h : s.Disjoint t) (mem : Memory)
    (v : Word) :
    Width.word.load (mem.write (s.address base) (Width.word.split v)) (t.address base) =
      Width.word.load mem (t.address base) := by
  refine Width.load_congr fun k hk ↦ ?_
  refine Memory.write_of_avoids (H := {x | x ∈ t.bytes base}) (fun j hj ↦ ?_)
    (mem_bytes_iff.2 ⟨k, hk, rfl⟩)
  rw [Width.length_split] at hj
  exact h.notMem (mem_bytes_iff.2 ⟨j, hj, rfl⟩)

end Slot

/-- The bytes of all the slots. -/
def slotBytes (base : Word) (slots : List (Nat × Slot)) : Set Word :=
  {x | ∃ p ∈ slots, x ∈ p.2.bytes base}

instance (base : Word) (slots : List (Nat × Slot)) : DecidablePred (· ∈ slotBytes base slots) :=
  fun x ↦ inferInstanceAs (Decidable (∃ p ∈ slots, x ∈ p.2.bytes base))

instance (H : Set Word) [DecidablePred (· ∈ H)] : DecidablePred (Event.Avoids H)
  | .read a size => inferInstanceAs (Decidable (∀ k < size, a + BitVec.ofNat 32 k ∉ H))
  | .write a bytes => inferInstanceAs (Decidable (∀ k < bytes.length, a + BitVec.ofNat 32 k ∉ H))
  | .branch .. | .jump .. | .call .. | .ret .. => inferInstanceAs (Decidable True)

/-! ## Code that is run through -/

/-- The code is run through, and leaves a trace, registers and a memory. -/
def RunsThrough (env : Surroundings) (code : List Instr) (regs : Regs) (mem : Memory)
    (trace : List Event) (regs' : Regs) (mem' : Memory) : Prop :=
  ∀ blocks b rest, (⟨b, code ++ rest, regs, mem⟩ : State).run env blocks code.length =
    (trace, ⟨b, rest, regs', mem'⟩)

namespace RunsThrough

variable {env : Surroundings} {code code' : List Instr} {regs regs' regs'' : Regs}
  {mem mem' mem'' : Memory} {trace trace' : List Event}

theorem nil : RunsThrough env [] regs mem [] regs mem :=
  fun _ _ _ ↦ rfl

theorem append (h : RunsThrough env code regs mem trace regs' mem')
    (h' : RunsThrough env code' regs' mem' trace' regs'' mem'') :
    RunsThrough env (code ++ code') regs mem (trace ++ trace') regs'' mem'' := by
  intro blocks b rest
  rw [List.length_append, State.run_add, List.append_assoc, h, h']

theorem singleton (i : Instr) (env : Surroundings) (regs : Regs) (mem : Memory)
    (h : (i.effect env regs mem).control = .next) :
    RunsThrough env [i] regs mem (i.effect env regs mem).event.toList
      (regs.write i.defs (i.effect env regs mem).values) (i.effect env regs mem).mem := by
  intro blocks b rest
  rw [List.length_singleton, State.run_succ (State.step_of_rest_eq_cons rfl), h, State.run,
    List.append_nil]
  rfl

end RunsThrough

/-! ## Loads and stores -/

section Code

variable {frameBase : Reg} {t : Nat} {slot : Slot} {sizes sizes' : Array Nat} {code : List Instr}

/-- The code that loads a register from a slot. -/
inductive LoadsSlot (frameBase : Reg) (t : Nat) (slot : Slot) : List Instr → Prop
  | near (h : isNear (-Int32.ofNat slot.offset) = true) : LoadsSlot frameBase t slot
      [.load (.ofSize slot.size) (.virt t) frameBase (-Int32.ofNat slot.offset)]
  | far (h : isNear (-Int32.ofNat slot.offset) = false) : LoadsSlot frameBase t slot
      [.li (.virt t) (-Int32.ofNat slot.offset), .arith .add (.virt t) frameBase (.virt t),
        .load (.ofSize slot.size) (.virt t) (.virt t) 0]

/-- The code that stores a register to a slot, and the sizes of the virtual registers before and
after it. -/
inductive StoresSlot (frameBase : Reg) (t : Nat) (slot : Slot) (sizes : Array Nat) :
    List Instr → Array Nat → Prop
  | near (h : isNear (-Int32.ofNat slot.offset) = true) : StoresSlot frameBase t slot sizes
      [.store (.ofSize slot.size) (.virt t) frameBase (-Int32.ofNat slot.offset)] sizes
  | far (h : isNear (-Int32.ofNat slot.offset) = false) : StoresSlot frameBase t slot sizes
      [.li (.virt sizes.size) (-Int32.ofNat slot.offset),
        .arith .add (.virt sizes.size) frameBase (.virt sizes.size),
        .store (.ofSize slot.size) (.virt t) (.virt sizes.size) 0] (sizes.push 4)

theorem displacement_eq_ok {offset : Nat} (h : Int32.ofNat offset ≠ Int32.minValue) :
    displacement offset = .ok (-Int32.ofNat offset) :=
  if_neg h

theorem displacement_eq_ok_iff {offset : Nat} {d : Int32} : displacement offset = .ok d ↔
    Int32.ofNat offset ≠ Int32.minValue ∧ d = -Int32.ofNat offset := by
  unfold displacement
  split <;> simp_all [eq_comm]

theorem loadsSlot_of_loadSlot (h : loadSlot frameBase t slot = .ok code) :
    LoadsSlot frameBase t slot code := by
  obtain ⟨d, hd, h⟩ := bind_eq_ok_iff.1 h
  obtain ⟨-, rfl⟩ := displacement_eq_ok_iff.1 hd
  cases h
  split
  · rename_i hnear
    exact .near hnear
  · rename_i hfar
    exact .far (by simpa using hfar)

theorem storesSlot_of_storeSlot (h : storeSlot frameBase t slot sizes = .ok (code, sizes')) :
    StoresSlot frameBase t slot sizes code sizes' := by
  obtain ⟨d, hd, h⟩ := bind_eq_ok_iff.1 h
  obtain ⟨-, rfl⟩ := displacement_eq_ok_iff.1 hd
  simp only at h
  split at h
  · rename_i hnear
    cases h
    exact .near hnear
  · rename_i hfar
    cases h
    exact .far (by simpa using hfar)

theorem exists_loadSlot_eq_ok (frameBase : Reg) (t : Nat)
    (h : Int32.ofNat slot.offset ≠ Int32.minValue) :
    ∃ code, loadSlot frameBase t slot = .ok code :=
  ⟨_, bind_eq_ok_iff.2 ⟨_, displacement_eq_ok h, rfl⟩⟩

theorem exists_storeSlot_eq_ok (frameBase : Reg) (t : Nat) (sizes : Array Nat)
    (h : Int32.ofNat slot.offset ≠ Int32.minValue) :
    ∃ code sizes', storeSlot frameBase t slot sizes = .ok (code, sizes') := by
  rw [storeSlot, displacement_eq_ok h]
  by_cases hnear : isNear (-Int32.ofNat slot.offset) = true
  · exact ⟨_, _, if_pos hnear⟩
  · exact ⟨_, _, if_neg hnear⟩

theorem Slot.add_displacement (base : Word) (slot : Slot) :
    base + (-Int32.ofNat slot.offset).toBitVec = slot.address base := by
  rw [Int32.toBitVec_neg, Int32.toBitVec_ofNat', address, BitVec.sub_eq_add_neg]

/-- The address of a slot that is far away is computed in a register. -/
theorem runsThrough_address (hbase : frameBase ≠ .virt t) (slot : Slot) (env : Surroundings)
    (regs : Regs) (mem : Memory) :
    RunsThrough env
      [.li (.virt t) (-Int32.ofNat slot.offset), .arith .add (.virt t) frameBase (.virt t)]
      regs mem [] (Function.update regs (.virt t) (slot.address (regs frameBase))) mem := by
  have hli : RunsThrough env [.li (.virt t) (-Int32.ofNat slot.offset)] regs mem []
      (Function.update regs (.virt t) (-Int32.ofNat slot.offset).toBitVec) mem :=
    .singleton _ _ _ _ rfl
  have hadd := RunsThrough.singleton (.arith .add (.virt t) frameBase (.virt t)) env
    (Function.update regs (.virt t) (-Int32.ofNat slot.offset).toBitVec) mem rfl
  rw [Instr.effect, BinOp.eval, Function.update_self, Function.update_of_ne hbase,
    slot.add_displacement, Instr.defs, Regs.write_cons, Function.update_idem] at hadd
  exact hli.append hadd

/-- A load puts what the slot holds, in the width for its size, into the register. -/
theorem LoadsSlot.runsThrough_ofSize (h : LoadsSlot frameBase t slot code)
    (hbase : frameBase ≠ .virt t) (env : Surroundings) (regs : Regs) (mem : Memory) :
    RunsThrough env code regs mem
      [.read (slot.address (regs frameBase)) (Width.ofSize slot.size).bytes]
      (Function.update regs (.virt t)
        ((Width.ofSize slot.size).load mem (slot.address (regs frameBase)))) mem := by
  cases h with
  | near =>
    rw [← slot.add_displacement]
    exact .singleton _ _ _ _ rfl
  | far =>
    have hload := RunsThrough.singleton (.load (.ofSize slot.size) (.virt t) (.virt t) 0) env
      (Function.update regs (.virt t) (slot.address (regs frameBase))) mem rfl
    simp only [Instr.effect, Function.update_self, Int32.toBitVec_zero, BitVec.add_zero, Instr.defs,
      Regs.write_cons, Function.update_idem] at hload
    exact (runsThrough_address hbase slot env regs mem).append hload

/-- A load puts the word that the slot holds into the register. -/
theorem LoadsSlot.runsThrough (h : LoadsSlot frameBase t slot code) (hbase : frameBase ≠ .virt t)
    (hsize : slot.size = 4) (env : Surroundings) (regs : Regs) (mem : Memory) :
    RunsThrough env code regs mem [.read (slot.address (regs frameBase)) 4]
      (Function.update regs (.virt t) (Width.word.load mem (slot.address (regs frameBase))))
      mem := by
  have hrun := h.runsThrough_ofSize hbase env regs mem
  rw [hsize] at hrun
  exact hrun

theorem StoresSlot.size_le (h : StoresSlot frameBase t slot sizes code sizes') :
    sizes.size ≤ sizes'.size := by
  cases h with
  | near => exact le_rfl
  | far => simp

/-- A store puts the register, in the width for the size of the slot, into the slot. It overwrites
no register but the next virtual one, and only if it reserves that. -/
theorem StoresSlot.runsThrough_ofSize (h : StoresSlot frameBase t slot sizes code sizes')
    (hbase : frameBase ≠ .virt sizes.size) (ht : t ≠ sizes.size) (env : Surroundings) (regs : Regs)
    (mem : Memory) : ∃ regs',
      RunsThrough env code regs mem
        [.write (slot.address (regs frameBase))
          ((Width.ofSize slot.size).split (regs (.virt t)))] regs'
        (mem.write (slot.address (regs frameBase))
          ((Width.ofSize slot.size).split (regs (.virt t)))) ∧
      ∀ ρ, regs' ρ ≠ regs ρ → ρ = .virt sizes.size ∧ sizes' = sizes.push 4 := by
  cases h with
  | near =>
    refine ⟨regs, ?_, fun _ hne ↦ absurd rfl hne⟩
    rw [← slot.add_displacement]
    exact .singleton _ _ _ _ rfl
  | far =>
    refine ⟨Function.update regs (.virt sizes.size) (slot.address (regs frameBase)), ?_,
      fun ρ hne ↦ ⟨?_, rfl⟩⟩
    · have hne : Reg.virt t ≠ .virt sizes.size := by simpa using ht
      have hstore := RunsThrough.singleton
        (.store (.ofSize slot.size) (.virt t) (.virt sizes.size) 0) env
        (Function.update regs (.virt sizes.size) (slot.address (regs frameBase))) mem rfl
      simp only [Instr.effect, Function.update_self, Function.update_of_ne hne,
        Int32.toBitVec_zero, BitVec.add_zero] at hstore
      exact (runsThrough_address hbase slot env regs mem).append hstore
    · by_contra hρ
      exact hne (Function.update_of_ne hρ _ _)

/-- A store puts the register into a slot that holds a word. -/
theorem StoresSlot.runsThrough (h : StoresSlot frameBase t slot sizes code sizes')
    (hbase : frameBase ≠ .virt sizes.size) (ht : t < sizes.size) (hsize : slot.size = 4)
    (env : Surroundings) (regs : Regs) (mem : Memory) : ∃ regs',
      RunsThrough env code regs mem
        [.write (slot.address (regs frameBase)) (Width.word.split (regs (.virt t)))] regs'
        (mem.write (slot.address (regs frameBase)) (Width.word.split (regs (.virt t)))) ∧
      ∀ ρ, ρ ≠ .virt sizes.size → regs' ρ = regs ρ := by
  obtain ⟨regs', hrun, hframe⟩ := h.runsThrough_ofSize hbase ht.ne env regs mem
  rw [hsize] at hrun
  refine ⟨regs', hrun, fun ρ hρ ↦ ?_⟩
  by_contra hne
  exact hρ (hframe ρ hne).1

/-- A load is found. -/
theorem exists_loadSlot (hbase : frameBase ≠ .virt t) (hsize : slot.size = 4)
    (hoff : Int32.ofNat slot.offset ≠ Int32.minValue) :
    ∃ code, loadSlot frameBase t slot = .ok code ∧ ∀ env regs mem,
      RunsThrough env code regs mem [.read (slot.address (regs frameBase)) 4]
        (Function.update regs (.virt t) (Width.word.load mem (slot.address (regs frameBase))))
        mem := by
  obtain ⟨code, hcode⟩ := exists_loadSlot_eq_ok frameBase t hoff
  exact ⟨code, hcode, (loadsSlot_of_loadSlot hcode).runsThrough hbase hsize⟩

/-- A store is found. -/
theorem exists_storeSlot (hbase : frameBase ≠ .virt sizes.size)
    (ht : t < sizes.size) (hsize : slot.size = 4)
    (hoff : Int32.ofNat slot.offset ≠ Int32.minValue) :
    ∃ code sizes', storeSlot frameBase t slot sizes = .ok (code, sizes') ∧
      sizes.size ≤ sizes'.size ∧ ∀ env regs mem, ∃ regs',
        RunsThrough env code regs mem
          [.write (slot.address (regs frameBase)) (Width.word.split (regs (.virt t)))] regs'
          (mem.write (slot.address (regs frameBase)) (Width.word.split (regs (.virt t)))) ∧
        ∀ ρ, ρ ≠ .virt sizes.size → regs' ρ = regs ρ := by
  obtain ⟨code, sizes', hcode⟩ := exists_storeSlot_eq_ok frameBase t sizes hoff
  have hstores := storesSlot_of_storeSlot hcode
  exact ⟨code, sizes', hcode, hstores.size_le, hstores.runsThrough hbase ht hsize⟩

end Code

end RegAlloc

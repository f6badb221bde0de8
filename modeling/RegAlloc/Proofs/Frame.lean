import Mathlib
import RegAlloc.Proofs.Catalog
import RegAlloc.Spill

/-!
# The layout of a stack frame

A new slot lies above all that the frame has handed out, and the frame then ends where the slot
does. So whatever slots are asked for, and in whatever order, each of them has the bytes between its
offset and the end of the frame before it for itself (`Frame.laidOut_of_allocAll`).

Spill code does not access these bytes, but as many as the width for the size of the slot has. There
is a width of one, two and four bytes only. Where the slot has more bytes than that, or as many, no
access leaves it. But a size of zero or three is accessed as a word, for which the slot is too small
unless it was moved up to a multiple of its size (`Frame.accessedApart_of_allocAll`).
-/

namespace RegAlloc

namespace Slot

/-- The bytes of a slot in the size that was asked for, by their distances from the frame base. -/
def extent (s : Slot) : Set Nat :=
  Set.Ioc (s.offset - s.size) s.offset

/-- The bytes that spill code reads and writes for a slot, by their positions from the frame base
on. -/
def accessed (s : Slot) : Set Int :=
  Set.Ico (-(s.offset : Int)) (-(s.offset : Int) + (Width.ofSize s.size).bytes)

theorem mem_accessed {s : Slot} {x : Int} : x ∈ s.accessed ↔
    -(s.offset : Int) ≤ x ∧ x < -(s.offset : Int) + (Width.ofSize s.size).bytes :=
  Iff.rfl

end Slot

theorem Width.bytes_pos (w : Width) : 0 < w.bytes := by
  cases w <;> decide

namespace Frame

variable {f f' : Frame} {start v size offset : Nat} {calls : List (Nat × Nat)}
  {answers made : List (Nat × Slot)}

/-! ## One slot -/

theorem dvd_slotOffset (top size : Nat) : max size 1 ∣ slotOffset top size :=
  Dvd.intro_left _ rfl

theorem add_le_slotOffset (top size : Nat) : top + size ≤ slotOffset top size := by
  have hpos : 0 < max size 1 := by omega
  have hdiv := Nat.div_add_mod (top + size + max size 1 - 1) (max size 1)
  have hmod := Nat.mod_lt (top + size + max size 1 - 1) hpos
  rw [Nat.mul_comm] at hdiv
  rw [slotOffset]
  omega

/-- What a call can do: the register has its slot already, or a new one is made. -/
theorem alloc_cases (h : f.alloc v size = .ok (offset, f')) :
    (f.get? v = some offset ∧ f' = f) ∨
      (f.get? v = none ∧ offset = slotOffset f.size size ∧
        f' = { size := offset, slots := f.slots ++ [(v, offset)] }) := by
  unfold alloc at h
  split at h
  · rename_i hget
    cases h
    exact .inl ⟨hget, rfl⟩
  · rename_i hget
    split at h
    · cases h
      exact .inr ⟨hget, rfl, rfl⟩
    · cases h

/-- A call is answered if the register has a slot, and otherwise if no sum leaves the 32 bits. -/
theorem exists_alloc_iff : (∃ offset f', f.alloc v size = .ok (offset, f')) ↔
    f.get? v ≠ none ∨ f.size + size + max size 1 < UInt32.size := by
  unfold alloc
  split
  · rename_i o hget
    exact iff_of_true ⟨o, f, rfl⟩ (.inl (by simp [hget]))
  · rename_i hget
    split
    · rename_i hlt
      exact iff_of_true ⟨_, _, rfl⟩ (.inr hlt)
    · rename_i hlt
      simp [hget, hlt]

theorem get?_concat (hget : f.get? v = none) (u top offset : Nat) :
    Frame.get? { size := top, slots := f.slots ++ [(v, offset)] } u =
      if u = v then some offset else f.get? u := by
  rw [get?, List.lookup_append, ← get?]
  split
  · rename_i hu
    rw [hu, hget]
    simp
  · rename_i hu
    have hne : (u == v) = false := by simpa using hu
    simp [List.lookup_cons, hne]

theorem get?_alloc (h : f.alloc v size = .ok (offset, f')) : f'.get? v = some offset := by
  rcases alloc_cases h with ⟨hget, rfl⟩ | ⟨hget, -, rfl⟩
  · exact hget
  · rw [get?_concat hget, if_pos rfl]

/-- A slot is never given back. -/
theorem get?_of_alloc {u o : Nat} (h : f.alloc v size = .ok (offset, f'))
    (hu : f.get? u = some o) : f'.get? u = some o := by
  rcases alloc_cases h with ⟨-, rfl⟩ | ⟨hget, -, rfl⟩
  · exact hu
  · have hne : u ≠ v := by
      rintro rfl
      rw [hget] at hu
      cases hu
    rwa [get?_concat hget, if_neg hne]

theorem size_le_of_alloc (h : f.alloc v size = .ok (offset, f')) : f.size ≤ f'.size := by
  rcases alloc_cases h with ⟨-, rfl⟩ | ⟨-, rfl, rfl⟩
  · exact le_rfl
  · exact (Nat.le_add_right _ _).trans (add_le_slotOffset f.size size)

/-! ## Slots one after the other -/

/-- Asks for the slots of registers in the given sizes. The answers say for each call which slot the
register has, in the size that was asked for. -/
def allocAll (f : Frame) (calls : List (Nat × Nat)) :
    Except Fault (List (Nat × Slot) × Frame) :=
  mapAccumM (fun f call ↦ do
    let (offset, f) ← f.alloc call.1 call.2
    return ((call.1, ⟨offset, call.2⟩), f)) f calls

theorem of_allocAll_cons (h : f.allocAll ((v, size) :: calls) = .ok (answers, f')) :
    ∃ offset f₁ rest, f.alloc v size = .ok (offset, f₁) ∧ f₁.allocAll calls = .ok (rest, f') ∧
      answers = (v, ⟨offset, size⟩) :: rest := by
  obtain ⟨⟨answer, f₁⟩, hcall, h⟩ := bind_eq_ok_iff.1 h
  obtain ⟨⟨offset, f₂⟩, halloc, hcall⟩ := bind_eq_ok_iff.1 hcall
  cases hcall
  obtain ⟨⟨rest, f₃⟩, hrest, h⟩ := bind_eq_ok_iff.1 h
  cases h
  exact ⟨offset, f₁, rest, halloc, hrest, rfl⟩

/-- What a frame keeps while slots are asked for: its end does not go down, and a register that has
a slot gets the same one again, in whatever size it asks for it. -/
theorem keeps_of_allocAll (h : f.allocAll calls = .ok (answers, f')) :
    f.size ≤ f'.size ∧ ∀ u o, f.get? u = some o →
      f'.get? u = some o ∧ ∀ a ∈ answers, a.1 = u → a.2.offset = o := by
  induction calls generalizing f answers with
  | nil =>
    cases h
    exact ⟨le_rfl, fun u o hu ↦ ⟨hu, by simp⟩⟩
  | cons call calls ih =>
    obtain ⟨offset, f₁, rest, halloc, hrest, rfl⟩ := of_allocAll_cons h
    obtain ⟨hsize, hkeeps⟩ := ih hrest
    refine ⟨(size_le_of_alloc halloc).trans hsize, fun u o hu ↦ ?_⟩
    have hu₁ := get?_of_alloc halloc hu
    obtain ⟨hu', hlater⟩ := hkeeps u o hu₁
    refine ⟨hu', fun a ha he ↦ ?_⟩
    rcases List.mem_cons.1 ha with rfl | ha
    · have hoffset := get?_alloc halloc
      rw [he, hu₁, Option.some.injEq] at hoffset
      exact hoffset.symm
    · exact hlater a ha he

theorem get?_of_mem_answers (h : f.allocAll calls = .ok (answers, f')) :
    ∀ a ∈ answers, f'.get? a.1 = some a.2.offset := by
  induction calls generalizing f answers with
  | nil =>
    cases h
    simp
  | cons call calls ih =>
    obtain ⟨offset, f₁, rest, halloc, hrest, rfl⟩ := of_allocAll_cons h
    intro a ha
    rcases List.mem_cons.1 ha with rfl | ha
    · exact ((keeps_of_allocAll hrest).2 _ _ (get?_alloc halloc)).1
    · exact ih hrest a ha

/-- Adds an answer, unless the register has one already. -/
def addFirst (made : List (Nat × Slot)) (answer : Nat × Slot) : List (Nat × Slot) :=
  if answer.1 ∈ made.map Prod.fst then made else made ++ [answer]

/-- The answers for which slots were made: the first one for each register, in order. -/
def firstAnswers (answers : List (Nat × Slot)) : List (Nat × Slot) :=
  answers.foldl addFirst []

/-! ## The layout -/

/-- The slots that were made in a frame of size `start` are those that the frame knows now. Each of
them lies above the ones that were made before. -/
structure LaidOut (start : Nat) (made : List (Nat × Slot)) (f : Frame) : Prop where
  get?_eq_some_iff : ∀ v o, f.get? v = some o ↔ ∃ size, (v, ⟨o, size⟩) ∈ made
  /-- The frame ends where the last slot does. -/
  size_eq : f.size = (made.getLast?.map fun a ↦ a.2.offset).getD start
  dvd_offset : ∀ a ∈ made, max a.2.size 1 ∣ a.2.offset
  offset_le : ∀ a ∈ made, a.2.offset ≤ f.size
  above : ∀ a ∈ made, start + a.2.size ≤ a.2.offset
  pairwise : made.Pairwise fun a b ↦ a.2.offset + b.2.size ≤ b.2.offset

theorem laidOut_start (start : Nat) : LaidOut start [] { size := start } where
  get?_eq_some_iff := by simp [get?]
  size_eq := rfl
  dvd_offset := by simp
  offset_le := by simp
  above := by simp
  pairwise := .nil

namespace LaidOut

theorem mem_map_fst_iff (h : LaidOut start made f) (v : Nat) :
    v ∈ made.map Prod.fst ↔ f.get? v ≠ none := by
  rw [Option.ne_none_iff_exists', List.mem_map]
  constructor
  · rintro ⟨a, ha, rfl⟩
    exact ⟨a.2.offset, (h.get?_eq_some_iff _ _).2 ⟨a.2.size, ha⟩⟩
  · rintro ⟨o, ho⟩
    obtain ⟨size, hmem⟩ := (h.get?_eq_some_iff v o).1 ho
    exact ⟨_, hmem, rfl⟩

theorem start_le (h : LaidOut start made f) : start ≤ f.size := by
  rw [h.size_eq]
  cases hlast : made.getLast? with
  | none => exact le_rfl
  | some a =>
    have habove := h.above a (List.mem_of_getLast? hlast)
    rw [Option.map_some, Option.getD_some]
    omega

/-- A new slot is made above all the others. -/
theorem concat (h : LaidOut start made f) (hget : f.get? v = none) (size : Nat) :
    LaidOut start (made ++ [(v, ⟨slotOffset f.size size, size⟩)])
      { size := slotOffset f.size size, slots := f.slots ++ [(v, slotOffset f.size size)] } := by
  have hroom := add_le_slotOffset f.size size
  have hstart := h.start_le
  constructor
  · intro u o
    rw [get?_concat hget]
    split
    · rename_i hu
      subst hu
      have hold : ∀ size, (u, (⟨o, size⟩ : Slot)) ∉ made := by
        intro size hmem
        have hsome := (h.get?_eq_some_iff u o).2 ⟨size, hmem⟩
        rw [hget] at hsome
        cases hsome
      simp [hold, eq_comm]
    · rename_i hu
      rw [h.get?_eq_some_iff]
      simp [hu]
  · simp
  · intro a ha
    rcases List.mem_append.1 ha with ha | ha
    · exact h.dvd_offset a ha
    · rw [List.mem_singleton.1 ha]
      exact dvd_slotOffset f.size size
  · intro a ha
    rcases List.mem_append.1 ha with ha | ha
    · exact (h.offset_le a ha).trans ((Nat.le_add_right _ _).trans hroom)
    · rw [List.mem_singleton.1 ha]
  · intro a ha
    rcases List.mem_append.1 ha with ha | ha
    · exact h.above a ha
    · rw [List.mem_singleton.1 ha]
      exact (Nat.add_le_add_right hstart size).trans hroom
  · refine List.pairwise_append.2 ⟨h.pairwise, List.pairwise_singleton _ _, fun a ha b hb ↦ ?_⟩
    rw [List.mem_singleton.1 hb]
    exact (Nat.add_le_add_right (h.offset_le a ha) size).trans hroom

/-- The answer to a call is a first one if the slot is new. -/
theorem addFirst_cases (h : LaidOut start made f) (halloc : f.alloc v size = .ok (offset, f')) :
    (f.get? v = some offset ∧ f' = f ∧ addFirst made (v, ⟨offset, size⟩) = made) ∨
      (f.get? v = none ∧ offset = slotOffset f.size size ∧
        f' = { size := offset, slots := f.slots ++ [(v, offset)] } ∧
        addFirst made (v, ⟨offset, size⟩) = made ++ [(v, ⟨offset, size⟩)]) := by
  rcases alloc_cases halloc with ⟨hget, hf'⟩ | ⟨hget, hoffset, hf'⟩
  · exact .inl ⟨hget, hf', if_pos ((h.mem_map_fst_iff v).2 (by simp [hget]))⟩
  · exact .inr ⟨hget, hoffset, hf', if_neg fun hmem ↦ (h.mem_map_fst_iff v).1 hmem hget⟩

/-- One call keeps the layout. -/
theorem alloc (h : LaidOut start made f) (halloc : f.alloc v size = .ok (offset, f')) :
    LaidOut start (addFirst made (v, ⟨offset, size⟩)) f' := by
  rcases h.addFirst_cases halloc with ⟨-, rfl, hfirst⟩ | ⟨hget, rfl, rfl, hfirst⟩
  · rwa [hfirst]
  · rw [hfirst]
    exact h.concat hget size

theorem allocAll (h : LaidOut start made f) (hcalls : f.allocAll calls = .ok (answers, f')) :
    LaidOut start (answers.foldl addFirst made) f' := by
  induction calls generalizing f made answers with
  | nil =>
    cases hcalls
    exact h
  | cons call calls ih =>
    obtain ⟨offset, f₁, rest, halloc, hrest, rfl⟩ := of_allocAll_cons hcalls
    rw [List.foldl_cons]
    exact ih (h.alloc halloc) hrest

/-- What lies above another slot has no byte in common with it. -/
theorem pairwise_disjoint (h : LaidOut start made f) :
    made.Pairwise fun a b ↦ Disjoint a.2.extent b.2.extent := by
  refine h.pairwise.imp fun {a b} hab ↦ Set.disjoint_left.2 fun x hx hx' ↦ ?_
  have hle := hx.2
  have hlt := hx'.1
  omega

end LaidOut

/-- The layout of a frame after any calls that were answered. The slots that were made are those of
the first answers. They end at multiples of their sizes, the last one where the frame ends, and have
no byte in common with each other or with what the frame had at the start. A register is always
given the slot that it has, and the frame does not become smaller; the next call is answered unless
a sum leaves the 32 bits. -/
theorem laidOut_of_allocAll (start : Nat) (calls : List (Nat × Nat))
    (h : ({ size := start } : Frame).allocAll calls = .ok (answers, f)) :
    (∀ a ∈ answers, f.get? a.1 = some a.2.offset) ∧
    (∀ later answers' f', f.allocAll later = .ok (answers', f') →
      f.size ≤ f'.size ∧ ∀ v o, f.get? v = some o →
        f'.get? v = some o ∧ ∀ a ∈ answers', a.1 = v → a.2.offset = o) ∧
    (∀ v o, f.get? v = some o ↔ ∃ size, (v, ⟨o, size⟩) ∈ firstAnswers answers) ∧
    (∀ a ∈ firstAnswers answers, max a.2.size 1 ∣ a.2.offset) ∧
    f.size = ((firstAnswers answers).getLast?.map fun a ↦ a.2.offset).getD start ∧
    ((firstAnswers answers).Pairwise fun a b ↦ Disjoint a.2.extent b.2.extent) ∧
    (∀ a ∈ firstAnswers answers, a.2.size ≤ a.2.offset ∧ ∀ x ∈ a.2.extent, start < x) ∧
    ∀ v size, (∃ offset f', f.alloc v size = .ok (offset, f')) ↔
      f.get? v ≠ none ∨ f.size + size + max size 1 < UInt32.size := by
  have hlaid : LaidOut start (firstAnswers answers) f := (laidOut_start start).allocAll h
  refine ⟨get?_of_mem_answers h, fun _ _ _ ↦ keeps_of_allocAll, hlaid.get?_eq_some_iff,
    hlaid.dvd_offset, hlaid.size_eq, hlaid.pairwise_disjoint, fun a ha ↦ ?_,
    fun v size ↦ exists_alloc_iff⟩
  have habove := hlaid.above a ha
  refine ⟨by omega, fun x hx ↦ ?_⟩
  have hlt := hx.1
  omega

/-- Sizes that do not divide each other, one of them zero, and a register that asks twice. -/
theorem laidOut_mixed_sizes :
    ({ size := 5 } : Frame).allocAll [(0, 4), (1, 3), (0, 8), (2, 0), (3, 2)] =
      .ok ([(0, ⟨12, 4⟩), (1, ⟨15, 3⟩), (0, ⟨12, 8⟩), (2, ⟨15, 0⟩), (3, ⟨18, 2⟩)],
        { size := 18, slots := [(0, 12), (1, 15), (2, 15), (3, 18)] }) ∧
    ([(0, ⟨12, 4⟩), (1, ⟨15, 3⟩), (2, ⟨15, 0⟩), (3, ⟨18, 2⟩)] : List (Nat × Slot)).Pairwise
      fun a b ↦ Disjoint a.2.extent b.2.extent :=
  ⟨rfl, (laidOut_of_allocAll 5 [(0, 4), (1, 3), (0, 8), (2, 0), (3, 2)] rfl).2.2.2.2.2.1⟩

/-! ## What is accessed -/

/-- The slots of different registers are accessed apart from each other and from all that lies in
the frame at the start. -/
def AccessedApart (start : Nat) (answers : List (Nat × Slot)) : Prop :=
  (∀ a ∈ answers, ∀ b ∈ answers, a.1 ≠ b.1 → Disjoint a.2.accessed b.2.accessed) ∧
    ∀ a ∈ answers, ∀ x ∈ a.2.accessed, x < -(start : Int)

/-- There is room for an access between the end of the frame and the offset of a slot on top of it.
A slot of no bytes has none. A slot of three bytes has one byte too few, unless it had to be moved
up to a multiple of three. -/
def HasRoom (top size : Nat) : Prop :=
  size ≠ 0 ∧ (size = 3 → ¬3 ∣ top)

theorem hasRoom_iff (top size : Nat) :
    HasRoom top size ↔ top + (Width.ofSize size).bytes ≤ slotOffset top size := by
  have hroom := add_le_slotOffset top size
  unfold HasRoom
  match size with
  | 0 => simp [Width.ofSize, Width.bytes, slotOffset]
  | 1 | 2 => simpa [Width.ofSize, Width.bytes] using hroom
  | 3 =>
    have hoffset : slotOffset top 3 = (top + 5) / 3 * 3 := rfl
    have hbytes : (Width.ofSize 3).bytes = 4 := rfl
    rw [hoffset, hbytes]
    constructor
    · rintro ⟨-, htop⟩
      have hdvd := htop rfl
      omega
    · intro hle
      exact ⟨by decide, fun _ ↦ by omega⟩
  | n + 4 =>
    simp only [Width.ofSize, Width.bytes]
    omega

/-- There is room for each slot when it is made. -/
def IsRoomy : Frame → List (Nat × Nat) → Prop
  | _, [] => True
  | f, (v, size) :: calls =>
    (f.get? v = none → HasRoom f.size size) ∧
      ∀ offset f', f.alloc v size = .ok (offset, f') → f'.IsRoomy calls

theorem isRoomy_cons_iff (h : f.alloc v size = .ok (offset, f')) :
    f.IsRoomy ((v, size) :: calls) ↔
      (f.get? v = none → HasRoom f.size size) ∧ f'.IsRoomy calls := by
  rw [IsRoomy, h]
  refine and_congr_right fun _ ↦ ⟨fun hcalls ↦ hcalls _ _ rfl, fun hcalls o f₁ he ↦ ?_⟩
  cases he
  exact hcalls

/-- All sizes but zero and three are roomy. -/
theorem isRoomy_of_size (hsize : ∀ call ∈ calls, call.2 ≠ 0 ∧ call.2 ≠ 3) : f.IsRoomy calls := by
  induction calls generalizing f with
  | nil => trivial
  | cons call calls ih =>
    obtain ⟨hcall, hcalls⟩ := List.forall_mem_cons.1 hsize
    exact ⟨fun _ ↦ ⟨hcall.1, fun he ↦ absurd he hcall.2⟩, fun _ _ _ ↦ ih hcalls⟩

namespace LaidOut

/-- A slot that is made last is accessed apart from the others if there is room for it. -/
theorem accessedApart_of_hasRoom (h : LaidOut start made f) (hapart : AccessedApart start made)
    (hroom : HasRoom f.size size) :
    AccessedApart start (made ++ [(v, ⟨slotOffset f.size size, size⟩)]) := by
  rw [hasRoom_iff] at hroom
  have hstart := h.start_le
  -- the new slot is accessed beyond the end of the frame, the others before it
  have hnew : ∀ x ∈ Slot.accessed ⟨slotOffset f.size size, size⟩, x < -(f.size : Int) := by
    intro x hx
    have hlt := (Slot.mem_accessed.1 hx).2
    dsimp only at hlt
    omega
  have hold : ∀ a ∈ made, ∀ x ∈ a.2.accessed, -(f.size : Int) ≤ x := by
    intro a ha x hx
    have hle := h.offset_le a ha
    have hlt := (Slot.mem_accessed.1 hx).1
    omega
  have hdisjoint : ∀ a ∈ made,
      Disjoint a.2.accessed (Slot.accessed ⟨slotOffset f.size size, size⟩) := by
    intro a ha
    refine Set.disjoint_left.2 fun x hx hx' ↦ ?_
    exact (hold a ha x hx).not_gt (hnew x hx')
  constructor
  · intro a ha b hb hne
    rcases List.mem_append.1 ha with ha | ha <;> rcases List.mem_append.1 hb with hb | hb
    · exact hapart.1 a ha b hb hne
    · rw [List.mem_singleton.1 hb]
      exact hdisjoint a ha
    · rw [List.mem_singleton.1 ha]
      exact (hdisjoint b hb).symm
    · rw [List.mem_singleton.1 ha, List.mem_singleton.1 hb] at hne
      exact absurd rfl hne
  · intro a ha x hx
    rcases List.mem_append.1 ha with ha | ha
    · exact hapart.2 a ha x hx
    · rw [List.mem_singleton.1 ha] at hx
      have hlt := hnew x hx
      omega

/-- A slot that is made last lies on top of the frame, so that an access for which there is no room
reaches the slot below, or what was in the frame at the start. -/
theorem hasRoom_of_accessedApart (h : LaidOut start made f) (hget : f.get? v = none)
    (hapart : AccessedApart start (made ++ [(v, ⟨slotOffset f.size size, size⟩)])) :
    HasRoom f.size size := by
  rw [hasRoom_iff]
  by_contra hroom
  have hoffset := add_le_slotOffset f.size size
  -- the byte where the frame ended is accessed
  have hmem : -(f.size : Int) ∈ Slot.accessed ⟨slotOffset f.size size, size⟩ :=
    Slot.mem_accessed.2 ⟨by dsimp only; omega, by dsimp only; omega⟩
  have hlast : (v, (⟨slotOffset f.size size, size⟩ : Slot)) ∈
      made ++ [(v, ⟨slotOffset f.size size, size⟩)] := by simp
  have hsize := h.size_eq
  cases hmade : made.getLast? with
  | none =>
    rw [hmade, Option.map_none, Option.getD_none] at hsize
    have hlt := hapart.2 _ hlast _ hmem
    omega
  | some a =>
    rw [hmade, Option.map_some, Option.getD_some] at hsize
    have ha := List.mem_of_getLast? hmade
    have hne : a.1 ≠ v := by
      rintro rfl
      exact (h.mem_map_fst_iff a.1).1 (List.mem_map_of_mem ha) hget
    have hmem' : -(f.size : Int) ∈ a.2.accessed := by
      have hpos := (Width.ofSize a.2.size).bytes_pos
      exact Slot.mem_accessed.2 ⟨by omega, by omega⟩
    exact Set.disjoint_left.1 (hapart.1 a (List.mem_append_left _ ha) _ hlast hne) hmem' hmem

theorem accessedApart_alloc_iff (h : LaidOut start made f)
    (halloc : f.alloc v size = .ok (offset, f')) :
    AccessedApart start (addFirst made (v, ⟨offset, size⟩)) ↔
      AccessedApart start made ∧ (f.get? v = none → HasRoom f.size size) := by
  rcases h.addFirst_cases halloc with ⟨hget, -, hfirst⟩ | ⟨hget, rfl, -, hfirst⟩
  · rw [hfirst]
    simp [hget]
  · rw [hfirst]
    constructor
    · intro hapart
      have hmade : AccessedApart start made :=
        ⟨fun a ha b hb ↦ hapart.1 a (List.mem_append_left _ ha) b (List.mem_append_left _ hb),
          fun a ha ↦ hapart.2 a (List.mem_append_left _ ha)⟩
      exact ⟨hmade, fun _ ↦ h.hasRoom_of_accessedApart hget hapart⟩
    · rintro ⟨hmade, hroom⟩
      exact h.accessedApart_of_hasRoom hmade (hroom hget)

/-- The slots of a run are accessed apart if there was room for each of them. -/
theorem accessedApart_iff (h : LaidOut start made f)
    (hcalls : f.allocAll calls = .ok (answers, f')) :
    AccessedApart start (answers.foldl addFirst made) ↔
      AccessedApart start made ∧ f.IsRoomy calls := by
  induction calls generalizing f made answers with
  | nil =>
    cases hcalls
    exact (and_iff_left trivial).symm
  | cons call calls ih =>
    obtain ⟨offset, f₁, rest, halloc, hrest, rfl⟩ := of_allocAll_cons hcalls
    rw [List.foldl_cons, ih (h.alloc halloc) hrest, h.accessedApart_alloc_iff halloc,
      isRoomy_cons_iff halloc, and_assoc]

/-- Where each register has one size, later answers for it are the first one again. -/
theorem mem_foldl_addFirst_iff {bytes : Nat → Nat} (h : LaidOut start made f)
    (hmade : ∀ a ∈ made, a.2.size = bytes a.1) {vs : List Nat}
    (hcalls : f.allocAll (vs.map fun v ↦ (v, bytes v)) = .ok (answers, f')) (a : Nat × Slot) :
    a ∈ answers.foldl addFirst made ↔ a ∈ made ∨ a ∈ answers := by
  induction vs generalizing f made answers with
  | nil =>
    cases hcalls
    simp
  | cons v vs ih =>
    obtain ⟨offset, f₁, rest, halloc, hrest, rfl⟩ := of_allocAll_cons hcalls
    have hfirst : ∀ b, b ∈ addFirst made (v, ⟨offset, bytes v⟩) ↔
        b ∈ made ∨ b = (v, ⟨offset, bytes v⟩) := by
      intro b
      rcases h.addFirst_cases halloc with ⟨hget, -, hsame⟩ | ⟨-, -, -, hnew⟩
      · obtain ⟨size, hmem⟩ := (h.get?_eq_some_iff v offset).1 hget
        have hsize : size = bytes v := hmade _ hmem
        rw [hsize] at hmem
        rw [hsame]
        exact (or_iff_left_of_imp fun hb ↦ hb ▸ hmem).symm
      · rw [hnew, List.mem_append, List.mem_singleton]
    rw [List.foldl_cons, ih (h.alloc halloc) ?_ hrest, hfirst, List.mem_cons, or_assoc]
    intro b hb
    rcases (hfirst b).1 hb with hb | rfl
    · exact hmade b hb
    · rfl

end LaidOut

/-- Whether the slots of registers with given sizes are accessed apart from each other and from what
was in the frame at the start. They are if no size is zero or three, and in general if and only if
there was room for each slot when it was made. -/
theorem accessedApart_of_allocAll (start : Nat) (bytes : Nat → Nat) (vs : List Nat)
    (h : ({ size := start } : Frame).allocAll (vs.map fun v ↦ (v, bytes v)) = .ok (answers, f)) :
    ((∀ v ∈ vs, bytes v ≠ 0 ∧ bytes v ≠ 3) → AccessedApart start answers) ∧
    (AccessedApart start answers ↔
      ({ size := start } : Frame).IsRoomy (vs.map fun v ↦ (v, bytes v))) := by
  have hmem := (laidOut_start start).mem_foldl_addFirst_iff (by simp) h
  have hiff : AccessedApart start answers ↔
      ({ size := start } : Frame).IsRoomy (vs.map fun v ↦ (v, bytes v)) := by
    have hrun := (laidOut_start start).accessedApart_iff h
    simpa [AccessedApart, hmem] using hrun
  refine ⟨fun hsize ↦ hiff.2 (isRoomy_of_size fun call hcall ↦ ?_), hiff⟩
  obtain ⟨v, hv, rfl⟩ := List.mem_map.1 hcall
  exact hsize v hv

/-- Three bytes that are moved up to six, then a double word, a byte and a halfword. -/
theorem accessedApart_mixed_sizes :
    ({ size := 1 } : Frame).allocAll ([0, 1, 2, 3, 1].map fun v ↦ (v, [3, 8, 1, 2].getD v 4)) =
      .ok ([(0, ⟨6, 3⟩), (1, ⟨16, 8⟩), (2, ⟨17, 1⟩), (3, ⟨20, 2⟩), (1, ⟨16, 8⟩)],
        { size := 20, slots := [(0, 6), (1, 16), (2, 17), (3, 20)] }) ∧
    AccessedApart 1 [(0, ⟨6, 3⟩), (1, ⟨16, 8⟩), (2, ⟨17, 1⟩), (3, ⟨20, 2⟩), (1, ⟨16, 8⟩)] := by
  refine ⟨rfl, (accessedApart_of_allocAll 1 (fun v ↦ [3, 8, 1, 2].getD v 4) [0, 1, 2, 3, 1]
    rfl).2.2 ?_⟩
  have hfirst : ({ size := 1 } : Frame).alloc 0 3 = .ok (6, { size := 6, slots := [(0, 6)] }) := rfl
  exact (isRoomy_cons_iff hfirst).2
    ⟨fun _ ↦ ⟨by decide, by decide⟩, isRoomy_of_size (by decide)⟩

/-- Two slots of three bytes on top of each other are accessed as words: the second access reaches
the first slot. -/
theorem not_accessedApart_three_bytes :
    ({ size := 0 } : Frame).allocAll ([0, 1].map fun v ↦ (v, 3)) =
      .ok ([(0, ⟨3, 3⟩), (1, ⟨6, 3⟩)], { size := 6, slots := [(0, 3), (1, 6)] }) ∧
    ¬AccessedApart 0 [(0, ⟨3, 3⟩), (1, ⟨6, 3⟩)] := by
  refine ⟨rfl, fun hapart ↦ ?_⟩
  have hdisjoint := hapart.1 (0, ⟨3, 3⟩) (by simp) (1, ⟨6, 3⟩) (by simp) (by simp)
  have hfirst : (-3 : Int) ∈ Slot.accessed ⟨3, 3⟩ := ⟨by decide, by decide⟩
  have hsecond : (-3 : Int) ∈ Slot.accessed ⟨6, 3⟩ := ⟨by decide, by decide⟩
  exact Set.disjoint_left.1 hdisjoint hfirst hsecond

end Frame

end RegAlloc

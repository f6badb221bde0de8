/-!
# Sets of small numbers

A set of numbers below a bound, registers or moves, with one bit for each of them.
-/

namespace RegAlloc

/-- A set of numbers below `r`. -/
@[ext]
structure BitSet (r : Nat) where
  bits : BitVec r
  deriving DecidableEq, Repr

namespace BitSet

variable {r : Nat}

instance : EmptyCollection (BitSet r) :=
  ⟨⟨0#r⟩⟩

instance : Membership (Fin r) (BitSet r) :=
  ⟨fun s i ↦ s.bits.getLsbD i = true⟩

instance (s : BitSet r) (i : Fin r) : Decidable (i ∈ s) :=
  inferInstanceAs (Decidable (s.bits.getLsbD i = true))

instance : Union (BitSet r) :=
  ⟨fun s t ↦ ⟨s.bits ||| t.bits⟩⟩

/-- The set with one more element. -/
def insert (s : BitSet r) (i : Fin r) : BitSet r :=
  ⟨s.bits ||| BitVec.twoPow r i⟩

/-- The set without one element. -/
def erase (s : BitSet r) (i : Fin r) : BitSet r :=
  ⟨s.bits &&& ~~~(BitVec.twoPow r i)⟩

/-- The set with all the elements of the list. -/
def insertAll (s : BitSet r) (is : List (Fin r)) : BitSet r :=
  is.foldl insert s

/-- The set without the elements of the list. -/
def eraseAll (s : BitSet r) (is : List (Fin r)) : BitSet r :=
  is.foldl erase s

/-- The elements in ascending order. -/
def toList (s : BitSet r) : List (Fin r) :=
  (List.finRange r).filter (· ∈ s)

theorem mem_def {s : BitSet r} {i : Fin r} : i ∈ s ↔ s.bits.getLsbD i = true :=
  Iff.rfl

@[simp]
theorem notMem_empty (i : Fin r) : i ∉ (∅ : BitSet r) := by
  simp [mem_def, EmptyCollection.emptyCollection]

@[simp]
theorem mem_union {s t : BitSet r} {i : Fin r} : i ∈ s ∪ t ↔ i ∈ s ∨ i ∈ t := by
  simp [mem_def, Union.union]

@[simp]
theorem mem_insert {s : BitSet r} {i j : Fin r} : j ∈ s.insert i ↔ j ∈ s ∨ j = i := by
  simp [mem_def, insert, Fin.ext_iff]

@[simp]
theorem mem_erase {s : BitSet r} {i j : Fin r} : j ∈ s.erase i ↔ j ∈ s ∧ j ≠ i := by
  simp [mem_def, erase, Fin.ext_iff]

@[simp]
theorem mem_insertAll {s : BitSet r} {is : List (Fin r)} {j : Fin r} :
    j ∈ s.insertAll is ↔ j ∈ s ∨ j ∈ is := by
  induction is generalizing s with
  | nil => simp [insertAll]
  | cons hd tl ih =>
    rw [insertAll, List.foldl_cons, ← insertAll, ih]
    simp [or_assoc]

@[simp]
theorem mem_eraseAll {s : BitSet r} {is : List (Fin r)} {j : Fin r} :
    j ∈ s.eraseAll is ↔ j ∈ s ∧ j ∉ is := by
  induction is generalizing s with
  | nil => simp [eraseAll]
  | cons hd tl ih =>
    rw [eraseAll, List.foldl_cons, ← eraseAll, ih]
    simp [and_assoc]

@[simp]
theorem mem_toList {s : BitSet r} {i : Fin r} : i ∈ s.toList ↔ i ∈ s := by
  simp [toList]

/-- Sets with the same elements are equal. -/
theorem ext_mem {s t : BitSet r} (h : ∀ i, i ∈ s ↔ i ∈ t) : s = t := by
  ext i hi
  rw [Bool.eq_iff_iff, ← BitVec.getLsbD_eq_getElem, ← BitVec.getLsbD_eq_getElem]
  exact h ⟨i, hi⟩

end BitSet

end RegAlloc

/-!
# Lists without repetitions

Lists that hold each element once, in the order in which the elements were added.
-/

namespace RegAlloc

variable {α : Type} [DecidableEq α]

/-- The list with `a` behind it, unless it holds `a` already. -/
def addNew (as : List α) (a : α) : List α :=
  if a ∈ as then as else as ++ [a]

/-- The elements of the list in the order of their first occurrences. -/
def distinct (as : List α) : List α :=
  as.foldl addNew []

@[simp]
theorem mem_addNew {as : List α} {a b : α} : b ∈ addNew as a ↔ b ∈ as ∨ b = a := by
  unfold addNew
  split
  · constructor
    · exact .inl
    · rintro (h | rfl)
      · exact h
      · assumption
  · simp

theorem nodup_addNew {as : List α} (h : as.Nodup) (a : α) : (addNew as a).Nodup := by
  unfold addNew
  split
  · exact h
  · rename_i ha
    refine List.nodup_append.2 ⟨h, by simp, ?_⟩
    rintro x hx y hy rfl
    simp only [List.mem_singleton] at hy
    exact ha (hy ▸ hx)

theorem mem_foldl_addNew {as bs : List α} {b : α} :
    b ∈ bs.foldl addNew as ↔ b ∈ as ∨ b ∈ bs := by
  induction bs generalizing as with
  | nil => simp
  | cons hd tl ih => simp [ih, or_assoc]

theorem nodup_foldl_addNew {as : List α} (h : as.Nodup) (bs : List α) :
    (bs.foldl addNew as).Nodup := by
  induction bs generalizing as with
  | nil => exact h
  | cons hd tl ih => exact ih (nodup_addNew h hd)

@[simp]
theorem mem_distinct {as : List α} {a : α} : a ∈ distinct as ↔ a ∈ as := by
  simp [distinct, mem_foldl_addNew]

theorem nodup_distinct (as : List α) : (distinct as).Nodup :=
  nodup_foldl_addNew .nil as

end RegAlloc

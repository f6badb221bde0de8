import Mathlib
import RegAlloc.Interference.Build

/-!
# Interference graphs as undirected graphs

The packed row of bits has a place of its own for every pair of different nodes, so the matrix is a
symmetric relation that changes at one pair at a time. The lists of neighbours follow it:
`Graph.Faithful` says that the list of every virtual register holds exactly the nodes that interfere
with it, each once. `Graph.build` makes such a graph, and `Graph.addEdge` keeps it one.
-/

/-! ## Tables -/

namespace Vector

variable {α : Type} {n : Nat}

theorem get_set (v : Vector α n) (i j : Fin n) (x : α) :
    (v.set i x i.isLt).get j = if j = i then x else v.get j := by
  rw [get_eq_getElem, getElem_set]
  by_cases h : j = i
  · rw [if_pos h, if_pos (by rw [h])]
  · rw [if_neg h, if_neg fun e ↦ h (Fin.ext e.symm)]
    rfl

theorem get_set_of_ne (v : Vector α n) {i j : Fin n} (h : j ≠ i) (x : α) :
    (v.set i x i.isLt).get j = v.get j := by
  rw [get_set, if_neg h]

end Vector

namespace RegAlloc

/-! ## Places in the packed row -/

namespace BitMatrix

variable {n : Nat}

theorem place_comm (x y : Nat) : place x y = place y x := by
  unfold place
  rw [max_comm, min_comm]

theorem place_of_lt {x y : Nat} (h : x < y) : place x y = y * (y - 1) / 2 + x := by
  unfold place
  rw [max_eq_right h.le, min_eq_left h.le]

/-- The pairs below `j` take up the places in front of those of `j`. -/
theorem triangle_add_le {i j : Nat} (h : i < j) : i * (i - 1) / 2 + i ≤ j * (j - 1) / 2 := by
  induction j, h using Nat.le_induction with
  | base => exact (Nat.triangle_succ i).ge
  | succ j _ ih =>
    rw [Nat.triangle_succ]
    exact ih.trans (Nat.le_add_right _ _)

theorem place_lt_of_lt {x y n : Nat} (hxy : x < y) (hy : y < n) : place x y < (n * n + 1) / 2 := by
  have hle := triangle_add_le hy
  have hn : n * (n - 1) ≤ n * n + 1 := by
    calc n * (n - 1) ≤ n * n := Nat.mul_le_mul_left n (Nat.sub_le n 1)
      _ ≤ n * n + 1 := Nat.le_succ _
  calc place x y = y * (y - 1) / 2 + x := place_of_lt hxy
    _ < y * (y - 1) / 2 + y := Nat.add_lt_add_left hxy _
    _ ≤ n * (n - 1) / 2 := hle
    _ ≤ (n * n + 1) / 2 := Nat.div_le_div_right hn

/-- Every pair of different numbers below `n` has a place. -/
theorem place_lt {x y n : Nat} (h : x ≠ y) (hx : x < n) (hy : y < n) :
    place x y < (n * n + 1) / 2 := by
  rcases Nat.lt_or_gt_of_ne h with h | h
  · exact place_lt_of_lt h hy
  · rw [place_comm]
    exact place_lt_of_lt h hx

theorem eq_of_place_eq_of_lt {x y x' y' : Nat} (h : x < y) (h' : x' < y')
    (he : place x y = place x' y') : x = x' ∧ y = y' := by
  rw [place_of_lt h, place_of_lt h'] at he
  have hy : y = y' := by
    by_contra hne
    rcases Nat.lt_or_gt_of_ne hne with hlt | hlt
    · have := triangle_add_le hlt
      omega
    · have := triangle_add_le hlt
      omega
  subst hy
  exact ⟨by omega, rfl⟩

/-- Different pairs have different places. -/
theorem pair_eq_of_place_eq {x y x' y' : Nat} (h : x ≠ y) (h' : x' ≠ y')
    (he : place x y = place x' y') : (x = x' ∧ y = y') ∨ (x = y' ∧ y = x') := by
  rcases Nat.lt_or_gt_of_ne h with h | h <;> rcases Nat.lt_or_gt_of_ne h' with h' | h'
  · exact .inl (eq_of_place_eq_of_lt h h' he)
  · exact .inr (eq_of_place_eq_of_lt h h' (he.trans (place_comm _ _)))
  · have := eq_of_place_eq_of_lt h h' ((place_comm _ _).trans he)
    exact .inr ⟨this.2, this.1⟩
  · have := eq_of_place_eq_of_lt h h' ((place_comm _ _).trans (he.trans (place_comm _ _)))
    exact .inl ⟨this.2, this.1⟩

@[simp]
theorem get_empty (x y : Nat) : (empty n).get x y = false := by
  unfold get empty
  cases h : (Vector.replicate ((n * n + 1) / 2) false)[place x y]? with
  | none => rfl
  | some b =>
    rw [Vector.getElem?_replicate] at h
    split at h
    · exact (Option.some.inj h).symm
    · cases h

theorem get_comm (m : BitMatrix n) (x y : Nat) : m.get x y = m.get y x := by
  unfold get
  rw [place_comm]

theorem get_set_of_eq (m : BitMatrix n) {x y : Nat} (h : x ≠ y) (hx : x < n) (hy : y < n)
    (b : Bool) : (m.set x y b).get x y = b := by
  unfold get set
  rw [Vector.getElem?_setIfInBounds, if_pos rfl, if_pos (place_lt h hx hy)]
  rfl

theorem get_set_of_ne (m : BitMatrix n) {x y x' y' : Nat} (h : place x y ≠ place x' y') (b : Bool) :
    (m.set x y b).get x' y' = m.get x' y' := by
  unfold get set
  rw [Vector.getElem?_setIfInBounds_ne h]

end BitMatrix

/-! ## Edges -/

namespace Graph

variable {n : Nat} {μ : Type}

theorem interferes_comm (g : Graph n μ) (u v : Fin n) : g.interferes u v = g.interferes v u := by
  unfold interferes
  rw [g.matrix.get_comm, decide_eq_decide.2 (ne_comm (a := u))]

@[simp]
theorem interferes_self (g : Graph n μ) (u : Fin n) : g.interferes u u = false := by
  simp [interferes]

theorem ne_of_interferes {g : Graph n μ} {u v : Fin n} (h : g.interferes u v = true) : u ≠ v := by
  rintro rfl
  simp at h

@[simp]
theorem interferes_empty (virtuals : Nat) (u v : Fin n) :
    (empty n virtuals : Graph n μ).interferes u v = false := by
  simp [interferes, empty]

section Attach

variable (g : Graph n μ) (u v w : Fin n)

@[simp]
theorem attach_virtuals : (g.attach u v).virtuals = g.virtuals := by
  unfold attach
  split <;> rfl

@[simp]
theorem attach_matrix : (g.attach u v).matrix = g.matrix := by
  unfold attach
  split <;> rfl

@[simp]
theorem attach_moves : (g.attach u v).moves = g.moves := by
  unfold attach
  split <;> rfl

theorem attach_adjacency : (g.attach u v).adjacency.get w =
    if w = u ∧ g.isPrecoloured u = false then g.adjacency.get w ++ [v] else g.adjacency.get w := by
  unfold attach
  by_cases hu : g.isPrecoloured u = true
  · rw [if_pos hu, if_neg (by simp [hu])]
  · rw [if_neg hu]
    simp only [Vector.get_set]
    by_cases hw : w = u
    · subst hw
      simp [hu]
    · simp [hw]

theorem attach_degree : (g.attach u v).degree.get w =
    if w = u ∧ g.isPrecoloured u = false then g.degree.get w + 1 else g.degree.get w := by
  unfold attach
  by_cases hu : g.isPrecoloured u = true
  · rw [if_pos hu, if_neg (by simp [hu])]
  · rw [if_neg hu]
    simp only [Vector.get_set]
    by_cases hw : w = u
    · subst hw
      simp [hu]
    · simp [hw]

end Attach

/-- An edge that changes the graph: its ends differ, and it is not there yet. -/
def IsNew (g : Graph n μ) (a b : Fin n) : Prop :=
  a ≠ b ∧ g.interferes a b = false

theorem addEdge_of_not_isNew {g : Graph n μ} {a b : Fin n} (h : ¬g.IsNew a b) :
    g.addEdge a b = g := by
  unfold addEdge
  rw [if_pos]
  by_cases hab : a = b
  · exact .inl hab
  · exact .inr (by simpa [IsNew, hab] using h)

section AddEdge

variable (g : Graph n μ) (a b u v : Fin n)

theorem addEdge_of_isNew (h : g.IsNew a b) :
    g.addEdge a b = ({ g with matrix := g.matrix.set a b true }.attach a b).attach b a := by
  unfold addEdge
  rw [if_neg]
  rintro (hab | hab)
  · exact h.1 hab
  · rw [h.2] at hab
    cases hab

@[simp]
theorem addEdge_virtuals : (g.addEdge a b).virtuals = g.virtuals := by
  by_cases h : g.IsNew a b
  · simp [addEdge_of_isNew g a b h]
  · rw [addEdge_of_not_isNew h]

@[simp]
theorem addEdge_moves : (g.addEdge a b).moves = g.moves := by
  by_cases h : g.IsNew a b
  · simp [addEdge_of_isNew g a b h]
  · rw [addEdge_of_not_isNew h]

@[simp]
theorem addEdge_isPrecoloured (w : Nat) : (g.addEdge a b).isPrecoloured w = g.isPrecoloured w := by
  simp [isPrecoloured]

/-- An edge is added between its two ends, and nowhere else. -/
theorem interferes_addEdge : (g.addEdge a b).interferes u v = true ↔
    g.interferes u v = true ∨ (a ≠ b ∧ ((u = a ∧ v = b) ∨ (u = b ∧ v = a))) := by
  by_cases h : g.IsNew a b
  · rw [addEdge_of_isNew g a b h]
    by_cases huv : u = v
    · subst huv
      simp only [interferes_self, Bool.false_eq_true, false_or, false_iff, not_and, not_or]
      intro hab
      exact ⟨fun h₁ h₂ ↦ hab (h₁.symm.trans h₂), fun h₁ h₂ ↦ hab (h₂.symm.trans h₁)⟩
    · have hne : (a : Nat) ≠ b := fun e ↦ h.1 (Fin.ext e)
      have hne' : (u : Nat) ≠ v := fun e ↦ huv (Fin.ext e)
      by_cases hp : BitMatrix.place a b = BitMatrix.place u v
      · have hget : (g.matrix.set a b true).get u v = true := by
          have := g.matrix.get_set_of_eq hne a.isLt b.isLt true
          unfold BitMatrix.get at this ⊢
          rwa [hp] at this
        have hends : (u = a ∧ v = b) ∨ (u = b ∧ v = a) := by
          rcases BitMatrix.pair_eq_of_place_eq hne hne' hp with ⟨h₁, h₂⟩ | ⟨h₁, h₂⟩
          · exact .inl ⟨Fin.ext h₁.symm, Fin.ext h₂.symm⟩
          · exact .inr ⟨Fin.ext h₂.symm, Fin.ext h₁.symm⟩
        simp [interferes, huv, hget, hends, h.1]
      · have hget := g.matrix.get_set_of_ne hp true
        have hends : ¬((u = a ∧ v = b) ∨ (u = b ∧ v = a)) := by
          rintro (⟨rfl, rfl⟩ | ⟨rfl, rfl⟩)
          · exact hp rfl
          · exact hp (BitMatrix.place_comm _ _)
        simp [interferes, hget, hends]
  · rw [addEdge_of_not_isNew h]
    refine ⟨.inl, ?_⟩
    rintro (hi | ⟨hab, hends⟩)
    · exact hi
    · have hi : g.interferes a b = true := by simpa [IsNew, hab] using h
      rcases hends with ⟨rfl, rfl⟩ | ⟨rfl, rfl⟩
      · exact hi
      · rw [interferes_comm]
        exact hi

theorem adjacency_addEdge_of_isNew (h : g.IsNew a b) : (g.addEdge a b).adjacency.get u =
    if g.isPrecoloured u = false then
      if u = a then g.adjacency.get u ++ [b] else
      if u = b then g.adjacency.get u ++ [a] else g.adjacency.get u
    else g.adjacency.get u := by
  rw [addEdge_of_isNew g a b h, attach_adjacency, attach_adjacency]
  simp only [isPrecoloured, attach_virtuals]
  by_cases ha : u = a
  · subst ha
    have hb : u ≠ b := h.1
    simp [hb]
  · by_cases hb : u = b
    · subst hb
      simp [ha]
    · simp [ha, hb]

theorem degree_addEdge_of_isNew (h : g.IsNew a b) : (g.addEdge a b).degree.get u =
    if g.isPrecoloured u = false ∧ (u = a ∨ u = b) then g.degree.get u + 1
    else g.degree.get u := by
  rw [addEdge_of_isNew g a b h, attach_degree, attach_degree]
  simp only [isPrecoloured, attach_virtuals]
  by_cases ha : u = a
  · subst ha
    have hb : u ≠ b := h.1
    simp [hb]
  · by_cases hb : u = b
    · subst hb
      simp [ha]
    · simp [ha, hb]

end AddEdge

/-! ## Lists of neighbours -/

/-- The lists of neighbours of the virtual registers agree with the edges; the others have none. -/
structure Faithful (g : Graph n μ) : Prop where
  mem_adjacency : ∀ {u : Fin n}, g.isPrecoloured u = false → ∀ v,
    (v ∈ g.adjacency.get u ↔ g.interferes u v = true)
  nodup_adjacency : ∀ u, (g.adjacency.get u).Nodup
  adjacency_precoloured : ∀ {u : Fin n}, g.isPrecoloured u = true → g.adjacency.get u = []

/-- What the lists of neighbours say does not depend on degrees and moves. -/
theorem Faithful.congr {g g' : Graph n μ} (h : g.Faithful) (hv : g'.virtuals = g.virtuals)
    (hm : g'.matrix = g.matrix) (ha : g'.adjacency = g.adjacency) : g'.Faithful := by
  have hi : ∀ u v, g'.interferes u v = g.interferes u v := fun u v ↦ by rw [interferes, hm]; rfl
  have hp : ∀ u, g'.isPrecoloured u = g.isPrecoloured u := fun u ↦ by rw [isPrecoloured, hv]; rfl
  constructor
  · intro u hu v
    rw [ha, hi]
    exact h.mem_adjacency (by rwa [hp] at hu) v
  · rw [ha]
    exact h.nodup_adjacency
  · intro u hu
    rw [ha]
    exact h.adjacency_precoloured (by rwa [hp] at hu)

theorem faithful_empty (virtuals : Nat) : (empty n virtuals : Graph n μ).Faithful := by
  constructor
  · intro u _ v
    simp [empty, interferes]
  · intro u
    simp [empty]
  · intro u _
    simp [empty]

theorem Faithful.addEdge {g : Graph n μ} (h : g.Faithful) (a b : Fin n) :
    (g.addEdge a b).Faithful := by
  by_cases hnew : g.IsNew a b
  · have hab := hnew.1
    constructor
    · intro u hu v
      rw [addEdge_isPrecoloured] at hu
      rw [interferes_addEdge, adjacency_addEdge_of_isNew _ _ _ _ hnew, if_pos hu]
      have hmem := h.mem_adjacency hu v
      by_cases ha : u = a
      · subst ha
        simp [hmem, hab]
      · by_cases hb : u = b
        · subst hb
          simp [hmem, hab, ha]
        · simp [hmem, ha, hb]
    · intro u
      rw [adjacency_addEdge_of_isNew _ _ _ _ hnew]
      have hnd := h.nodup_adjacency u
      split
      · rename_i hu
        split
        · rename_i ha
          subst ha
          refine List.nodup_append.2 ⟨hnd, List.nodup_singleton b, ?_⟩
          rintro x hx y hy rfl
          rw [List.mem_singleton.1 hy, h.mem_adjacency hu, hnew.2] at hx
          cases hx
        · split
          · rename_i hb
            subst hb
            refine List.nodup_append.2 ⟨hnd, List.nodup_singleton a, ?_⟩
            rintro x hx y hy rfl
            rw [List.mem_singleton.1 hy, h.mem_adjacency hu, interferes_comm, hnew.2] at hx
            cases hx
          · exact hnd
      · exact hnd
    · intro u hu
      rw [addEdge_isPrecoloured] at hu
      rw [adjacency_addEdge_of_isNew _ _ _ _ hnew, if_neg (by simp [hu])]
      exact h.adjacency_precoloured hu
  · rw [addEdge_of_not_isNew hnew]
    exact h

/-- The degree of a virtual register is the length of its list. -/
def HasLengths (g : Graph n μ) : Prop :=
  ∀ u : Fin n, g.isPrecoloured u = false → g.degree.get u = (g.adjacency.get u).length

theorem hasLengths_empty (virtuals : Nat) : (empty n virtuals : Graph n μ).HasLengths := by
  intro u hu
  have h : ¬virtuals ≤ u := of_decide_eq_false hu
  simp [empty, h]

theorem HasLengths.addEdge {g : Graph n μ} (h : g.HasLengths) (a b : Fin n) :
    (g.addEdge a b).HasLengths := by
  by_cases hnew : g.IsNew a b
  · intro u hu
    rw [addEdge_isPrecoloured] at hu
    rw [adjacency_addEdge_of_isNew _ _ _ _ hnew, degree_addEdge_of_isNew _ _ _ _ hnew, if_pos hu]
    have hlen := h u hu
    by_cases ha : u = a
    · subst ha
      simp [hu, hlen]
    · by_cases hb : u = b
      · subst hb
        simp [hu, ha, hlen]
      · simp [ha, hb, hlen]
  · rw [addEdge_of_not_isNew hnew]
    exact h

/-! ## Built graphs -/

section Build

variable {r : Nat} (g : Graph r μ)

@[simp]
theorem addEdges_nil : g.addEdges [] = g := rfl

@[simp]
theorem addEdges_cons (e : Fin r × Fin r) (es : List (Fin r × Fin r)) :
    g.addEdges (e :: es) = (g.addEdge e.1 e.2).addEdges es := rfl

@[simp]
theorem addEdges_virtuals (es : List (Fin r × Fin r)) : (g.addEdges es).virtuals = g.virtuals := by
  induction es generalizing g with
  | nil => rfl
  | cons hd tl ih => rw [addEdges_cons, ih, addEdge_virtuals]

@[simp]
theorem addEdges_moves (es : List (Fin r × Fin r)) : (g.addEdges es).moves = g.moves := by
  induction es generalizing g with
  | nil => rfl
  | cons hd tl ih => rw [addEdges_cons, ih, addEdge_moves]

/-- The edges of a graph with some edges added are the old and the new ones. -/
theorem interferes_addEdges (es : List (Fin r × Fin r)) (u v : Fin r) :
    (g.addEdges es).interferes u v = true ↔
      g.interferes u v = true ∨ (u ≠ v ∧ ((u, v) ∈ es ∨ (v, u) ∈ es)) := by
  induction es generalizing g with
  | nil => simp
  | cons hd tl ih =>
    obtain ⟨a, b⟩ := hd
    rw [addEdges_cons, ih, interferes_addEdge]
    simp only [List.mem_cons, Prod.mk.injEq]
    grind

variable {g}

theorem Faithful.addEdges (h : g.Faithful) (es : List (Fin r × Fin r)) :
    (g.addEdges es).Faithful := by
  induction es generalizing g with
  | nil => exact h
  | cons hd tl ih => exact ih (h.addEdge _ _)

theorem HasLengths.addEdges (h : g.HasLengths) (es : List (Fin r × Fin r)) :
    (g.addEdges es).HasLengths := by
  induction es generalizing g with
  | nil => exact h
  | cons hd tl ih => exact ih (h.addEdge _ _)

end Build

section AddMove

variable [DecidableEq μ] (g : Graph n μ) (u v : Fin n) (i j : μ)

@[simp]
theorem addMove_virtuals : (g.addMove u i).virtuals = g.virtuals := rfl

@[simp]
theorem addMove_matrix : (g.addMove u i).matrix = g.matrix := rfl

@[simp]
theorem addMove_adjacency : (g.addMove u i).adjacency = g.adjacency := rfl

@[simp]
theorem addMove_degree : (g.addMove u i).degree = g.degree := rfl

theorem mem_moves_addMove : j ∈ (g.addMove u i).moves.get v ↔
    j ∈ g.moves.get v ∨ (v = u ∧ j = i) := by
  unfold addMove
  rw [Vector.get_set]
  by_cases h : v = u
  · subst h
    simp
  · simp [h]

theorem nodup_moves_addMove (h : ∀ x, (g.moves.get x).Nodup) :
    ((g.addMove u i).moves.get v).Nodup := by
  unfold addMove
  rw [Vector.get_set]
  split
  · exact nodup_addNew (h u) i
  · exact h v

end AddMove

section Moves

variable {r : Nat} (ms : List (Move r))

/-- One move is listed with its two ends. -/
def addEnds (g : Graph r (Fin ms.length)) (i : Fin ms.length) : Graph r (Fin ms.length) :=
  (g.addMove (ms.get i).dst i).addMove (ms.get i).src i

theorem addMoves_eq (g : Graph r (Fin ms.length)) :
    addMoves ms g = (List.finRange ms.length).foldl (addEnds ms) g := rfl

theorem mem_moves_foldl_addEnds (is : List (Fin ms.length)) (g : Graph r (Fin ms.length))
    (u : Fin r) (j : Fin ms.length) : j ∈ (is.foldl (addEnds ms) g).moves.get u ↔
      j ∈ g.moves.get u ∨ (j ∈ is ∧ ((ms.get j).dst = u ∨ (ms.get j).src = u)) := by
  induction is generalizing g with
  | nil => simp
  | cons hd tl ih =>
    rw [List.foldl_cons, ih, addEnds, mem_moves_addMove, mem_moves_addMove]
    grind

theorem nodup_moves_foldl_addEnds (is : List (Fin ms.length)) (g : Graph r (Fin ms.length))
    (h : ∀ x, (g.moves.get x).Nodup) (u : Fin r) :
    ((is.foldl (addEnds ms) g).moves.get u).Nodup := by
  induction is generalizing g with
  | nil => exact h u
  | cons hd tl ih =>
    exact ih _ fun x ↦ nodup_moves_addMove _ _ _ _ fun y ↦ nodup_moves_addMove _ _ _ _ h

theorem foldl_addEnds (is : List (Fin ms.length)) (g : Graph r (Fin ms.length)) :
    (is.foldl (addEnds ms) g).virtuals = g.virtuals ∧
      (is.foldl (addEnds ms) g).matrix = g.matrix ∧
      (is.foldl (addEnds ms) g).adjacency = g.adjacency ∧
      (is.foldl (addEnds ms) g).degree = g.degree := by
  induction is generalizing g with
  | nil => exact ⟨rfl, rfl, rfl, rfl⟩
  | cons hd tl ih => exact ih (addEnds ms g hd)

variable (virtuals : Nat) (es : List (Fin r × Fin r))

@[simp]
theorem build_virtuals : (build virtuals es ms).virtuals = virtuals :=
  (foldl_addEnds ms _ _).1.trans (addEdges_virtuals _ _)

/-- The built graph has the edges that it is built from. -/
theorem interferes_build (u v : Fin r) : (build virtuals es ms).interferes u v = true ↔
    u ≠ v ∧ ((u, v) ∈ es ∨ (v, u) ∈ es) := by
  have hm : (build virtuals es ms).matrix = (addEdges (empty r virtuals) es).matrix :=
    (foldl_addEnds ms _ _).2.1
  rw [interferes, hm, ← interferes, interferes_addEdges]
  simp

/-- The built graph lists each move with its two ends. -/
theorem mem_moves_build (u : Fin r) (i : Fin ms.length) :
    i ∈ (build virtuals es ms).moves.get u ↔ (ms.get i).dst = u ∨ (ms.get i).src = u := by
  rw [build, addMoves_eq, mem_moves_foldl_addEnds, addEdges_moves]
  simp [empty]

theorem nodup_moves_build (u : Fin r) : ((build virtuals es ms).moves.get u).Nodup := by
  refine nodup_moves_foldl_addEnds ms _ _ (fun x ↦ ?_) u
  rw [addEdges_moves]
  simp [empty]

theorem faithful_build : (build virtuals es ms).Faithful :=
  have h := foldl_addEnds ms (List.finRange ms.length) (addEdges (empty r virtuals) es)
  ((faithful_empty virtuals).addEdges es).congr h.1 h.2.1 h.2.2.1

theorem hasLengths_build : (build virtuals es ms).HasLengths := by
  obtain ⟨hv, _, ha, hd⟩ :=
    foldl_addEnds ms (List.finRange ms.length) (addEdges (empty r virtuals) es)
  intro u hu
  rw [build, addMoves_eq, hd, ha]
  refine (hasLengths_empty virtuals).addEdges es u ?_
  rw [isPrecoloured, ← hv]
  exact hu

end Moves

end Graph

end RegAlloc

import Mathlib
import RegAlloc.BlockGraph.Basic

/-!
# The depth-first search finds what is reachable

The blocks that the search from the entry has seen are closed under successors. While it goes on,
each successor of a block that has been seen has been seen itself, or is still to be looked at from
a block of the path. The search ends with an empty path: each step lowers the number of blocks on
the path and of edges from there, and of blocks and edges that have not been seen, by one. It sees
no other blocks, since it only follows edges.
-/

namespace RegAlloc

namespace Search

variable {n : Nat} {next : Fin n → List (Fin n)} {a : Fin n} {s : Search (Fin n)}

/-- What holds all along the search. -/
structure Covers (next : Fin n → List (Fin n)) (a : Fin n) (s : Search (Fin n)) : Prop where
  start_mem : a ∈ s.seen
  mem_seen : ∀ x ∈ s.path, x.1 ∈ s.seen
  closed : ∀ x ∈ s.seen, ∀ b ∈ next x, b ∈ s.seen ∨ ∃ bs, (x, bs) ∈ s.path ∧ b ∈ bs

theorem Covers.start (next : Fin n → List (Fin n)) (a : Fin n) : Covers next a (start next a) where
  start_mem := List.mem_singleton_self a
  mem_seen x hx := by
    rw [List.mem_singleton.1 hx]
    exact List.mem_singleton_self a
  closed x hx b hb := by
    rw [List.mem_singleton.1 hx] at hb ⊢
    exact .inr ⟨next a, List.mem_singleton_self _, hb⟩

/-- The next edge of the path leads to a node that has been seen. -/
theorem Covers.skip {c b : Fin n} {bs : List (Fin n)} {path : List (Fin n × List (Fin n))}
    {back : List (Fin n × Fin n)} (h : Covers next a s) (hp : s.path = (c, b :: bs) :: path)
    (hb : b ∈ s.seen) : Covers next a { s with path := (c, bs) :: path, backEdges := back } where
  start_mem := h.start_mem
  mem_seen x hx := by
    rcases List.mem_cons.1 hx with rfl | hx
    · exact h.mem_seen (c, b :: bs) (hp ▸ List.mem_cons_self)
    · exact h.mem_seen x (hp ▸ List.mem_cons_of_mem _ hx)
  closed x hx y hy := by
    rcases h.closed x hx y hy with hy | ⟨ys, hmem, hys⟩
    · exact .inl hy
    · rw [hp] at hmem
      rcases List.mem_cons.1 hmem with he | hmem
      · cases he
        rcases List.mem_cons.1 hys with rfl | hys
        · exact .inl hb
        · exact .inr ⟨bs, List.mem_cons_self, hys⟩
      · exact .inr ⟨ys, List.mem_cons_of_mem _ hmem, hys⟩

/-- What a step can do: nothing, leave the current node, pass over an edge, which is recorded if it
goes back to the path, or follow one. -/
theorem step_cases (next : Fin n → List (Fin n)) (s : Search (Fin n)) :
    (s.path = [] ∧ s.step next = s) ∨
    (∃ c path, s.path = (c, []) :: path ∧ s.step next = { s with path }) ∨
    (∃ c b bs path back, s.path = (c, b :: bs) :: path ∧
      ((b ∈ s.path.map Prod.fst ∧ back = (c, b) :: s.backEdges) ∨
        (b ∉ s.path.map Prod.fst ∧ b ∈ s.seen ∧ back = s.backEdges)) ∧
      s.step next = { s with path := (c, bs) :: path, backEdges := back }) ∨
    ∃ c b bs path, s.path = (c, b :: bs) :: path ∧ b ∉ s.seen ∧
      s.step next = { s with path := (b, next b) :: (c, bs) :: path, seen := b :: s.seen } := by
  unfold Search.step
  split
  · rename_i hp
    exact .inl ⟨hp, rfl⟩
  · rename_i c path hp
    exact .inr (.inl ⟨c, path, hp, rfl⟩)
  · rename_i c b bs path hp
    simp only
    split
    · rename_i hb
      refine .inr (.inr (.inl ⟨c, b, bs, path, _, hp, .inl ⟨?_, rfl⟩, rfl⟩))
      rw [hp]
      exact hb
    · rename_i hpath
      split
      · rename_i hb
        refine .inr (.inr (.inl ⟨c, b, bs, path, _, hp, .inr ⟨?_, hb, rfl⟩, rfl⟩))
        rw [hp]
        exact hpath
      · rename_i hb
        exact .inr (.inr (.inr ⟨c, b, bs, path, hp, hb, rfl⟩))

theorem Covers.step (h : Covers next a s) : Covers next a (s.step next) := by
  rcases step_cases next s with ⟨-, he⟩ | ⟨c, path, hp, he⟩ | ⟨c, b, bs, path, back, hp, hb, he⟩ |
    ⟨c, b, bs, path, hp, hb, he⟩
  · rwa [he]
  · rw [he]
    refine ⟨h.start_mem, fun x hx ↦ h.mem_seen x (hp ▸ List.mem_cons_of_mem _ hx), ?_⟩
    intro x hx y hy
    rcases h.closed x hx y hy with hy | ⟨ys, hmem, hys⟩
    · exact .inl hy
    · rw [hp] at hmem
      rcases List.mem_cons.1 hmem with he | hmem
      · cases he
        exact absurd hys List.not_mem_nil
      · exact .inr ⟨ys, hmem, hys⟩
  · rw [he]
    refine h.skip hp (hb.elim (fun hb ↦ ?_) fun hb ↦ hb.2.1)
    obtain ⟨x, hx, rfl⟩ := List.mem_map.1 hb.1
    exact h.mem_seen x hx
  · rw [he]
    have hpath : ∀ x ∈ (c, bs) :: path, x.1 ∈ s.seen := by
      intro x hx
      rcases List.mem_cons.1 hx with rfl | hx
      · exact h.mem_seen (c, b :: bs) (hp ▸ List.mem_cons_self)
      · exact h.mem_seen x (hp ▸ List.mem_cons_of_mem _ hx)
    refine ⟨List.mem_cons_of_mem _ h.start_mem, fun x hx ↦ ?_, fun x hx y hy ↦ ?_⟩
    · rcases List.mem_cons.1 hx with rfl | hx
      · exact List.mem_cons_self
      · exact List.mem_cons_of_mem _ (hpath x hx)
    · rcases List.mem_cons.1 hx with rfl | hx
      · exact .inr ⟨next x, List.mem_cons_self, hy⟩
      · rcases h.closed x hx y hy with hy | ⟨ys, hmem, hys⟩
        · exact .inl (List.mem_cons_of_mem _ hy)
        · rw [hp] at hmem
          rcases List.mem_cons.1 hmem with he | hmem
          · cases he
            rcases List.mem_cons.1 hys with rfl | hys
            · exact .inl List.mem_cons_self
            · exact .inr ⟨bs, List.mem_cons_of_mem _ List.mem_cons_self, hys⟩
          · exact .inr ⟨ys, List.mem_cons_of_mem _ (List.mem_cons_of_mem _ hmem), hys⟩

/-- How many steps are left: one for each node of the path and each edge to be looked at from
there, and the same for the nodes that have not been seen. -/
def left (next : Fin n → List (Fin n)) (s : Search (Fin n)) : Nat :=
  (s.path.map fun x ↦ 1 + x.2.length).sum +
    ∑ x ∈ s.seen.toFinsetᶜ, (1 + (next x).length)

theorem left_step (next : Fin n → List (Fin n)) (h : s.path ≠ []) :
    (s.step next).left next + 1 = s.left next := by
  unfold left
  rcases step_cases next s with ⟨hp, -⟩ | ⟨c, path, hp, he⟩ | ⟨c, b, bs, path, back, hp, -, he⟩ |
    ⟨c, b, bs, path, hp, hb, he⟩
  · exact absurd hp h
  · simp only [he, hp, List.map_cons, List.sum_cons, List.length_nil]
    omega
  · simp only [he, hp, List.map_cons, List.sum_cons, List.length_cons]
    omega
  · have hmem : b ∈ s.seen.toFinsetᶜ := by simpa using hb
    have herase : (b :: s.seen).toFinsetᶜ = s.seen.toFinsetᶜ.erase b := by
      ext x
      simp
    have hsum := Finset.add_sum_erase _ (fun x ↦ 1 + (next x).length) hmem
    simp only [he, hp, List.map_cons, List.sum_cons, List.length_cons, herase]
    omega

theorem path_run_eq_nil {fuel : Nat} (h : s.left next ≤ fuel) :
    (run next fuel s).path = [] := by
  induction fuel generalizing s with
  | zero =>
    rw [run]
    cases hp : s.path with
    | nil => rfl
    | cons x path =>
      have := left_step next (s := s) (by simp [hp])
      omega
  | succ fuel ih =>
    rw [run]
    split
    · rename_i hp
      exact List.isEmpty_iff.1 hp
    · rename_i hp
      have := left_step next (s := s) (by simpa using hp)
      exact ih (by omega)

/-- What every step keeps holds at the end of the search. -/
theorem run_induct {P : Search (Fin n) → Prop} (step : ∀ s, P s → P (s.step next)) (h : P s)
    (fuel : Nat) : P (run next fuel s) := by
  induction fuel generalizing s with
  | zero => exact h
  | succ fuel ih =>
    rw [Search.run]
    split
    · exact h
    · exact ih (step s h)

theorem Covers.run (h : Covers next a s) (fuel : Nat) : Covers next a (run next fuel s) :=
  run_induct (fun _ h ↦ h.step) h fuel

theorem left_start (a : Fin n) : (start next a).left next =
    (List.finRange n).length + ((List.finRange n).flatMap next).length := by
  have htotal : (List.finRange n).length + ((List.finRange n).flatMap next).length =
      ∑ x, (1 + (next x).length) := by
    rw [Finset.sum_add_distrib, Fin.sum_univ_def, Fin.sum_univ_def, List.length_flatMap]
    simp
  have hunseen : (start next a).seen.toFinsetᶜ = Finset.univ.erase a := by
    ext x
    simp [start]
  rw [htotal, left, hunseen, ← Finset.add_sum_erase _ _ (Finset.mem_univ a)]
  simp [start]

/-- The search has seen where it starts, and with each node its next ones. -/
theorem seen_complete (next : Fin n → List (Fin n)) (a : Fin n) :
    a ∈ (complete next (List.finRange n) a).seen ∧
      ∀ x ∈ (complete next (List.finRange n) a).seen, ∀ b ∈ next x,
        b ∈ (complete next (List.finRange n) a).seen := by
  have hcov := (Covers.start next a).run
    ((List.finRange n).length + ((List.finRange n).flatMap next).length)
  refine ⟨hcov.start_mem, fun x hx b hb ↦ ?_⟩
  rcases hcov.closed x hx b hb with hb | ⟨bs, hmem, -⟩
  · exact hb
  · rw [path_run_eq_nil (left_start a).le] at hmem
    exact absurd hmem List.not_mem_nil

/-- What has been seen can be come to from the start, and what is to be looked at is next. -/
structure Follows (next : Fin n → List (Fin n)) (a : Fin n) (s : Search (Fin n)) : Prop where
  seen : ∀ x ∈ s.seen, Relation.ReflTransGen (fun x y ↦ y ∈ next x) a x
  path : ∀ x ∈ s.path, x.1 ∈ s.seen ∧ ∀ b ∈ x.2, b ∈ next x.1

theorem Follows.start (next : Fin n → List (Fin n)) (a : Fin n) :
    Follows next a (start next a) where
  seen x hx := by
    rw [List.mem_singleton.1 hx]
  path x hx := by
    rw [List.mem_singleton.1 hx]
    exact ⟨List.mem_singleton_self a, fun _ hb ↦ hb⟩

theorem Follows.step (h : Follows next a s) : Follows next a (s.step next) := by
  rcases step_cases next s with ⟨-, he⟩ | ⟨c, path, hp, he⟩ | ⟨c, b, bs, path, back, hp, -, he⟩ |
    ⟨c, b, bs, path, hp, -, he⟩
  · rwa [he]
  · rw [he]
    exact ⟨h.seen, fun x hx ↦ h.path x (hp ▸ List.mem_cons_of_mem _ hx)⟩
  · rw [he]
    refine ⟨h.seen, fun x hx ↦ ?_⟩
    rcases List.mem_cons.1 hx with rfl | hx
    · obtain ⟨hc, hnext⟩ := h.path (c, b :: bs) (hp ▸ List.mem_cons_self)
      exact ⟨hc, fun y hy ↦ hnext y (List.mem_cons_of_mem b hy)⟩
    · exact h.path x (hp ▸ List.mem_cons_of_mem _ hx)
  · rw [he]
    obtain ⟨hc, hnext⟩ := h.path (c, b :: bs) (hp ▸ List.mem_cons_self)
    constructor
    · intro x hx
      rcases List.mem_cons.1 hx with rfl | hx
      · exact (h.seen c hc).tail (hnext x List.mem_cons_self)
      · exact h.seen x hx
    · intro x hx
      rcases List.mem_cons.1 hx with rfl | hx
      · exact ⟨List.mem_cons_self, fun _ hy ↦ hy⟩
      · rcases List.mem_cons.1 hx with rfl | hx
        · exact ⟨List.mem_cons_of_mem b hc, fun y hy ↦ hnext y (List.mem_cons_of_mem b hy)⟩
        · obtain ⟨hx, hys⟩ := h.path x (hp ▸ List.mem_cons_of_mem _ hx)
          exact ⟨List.mem_cons_of_mem b hx, hys⟩

/-- The search sees what can be come to from its start, and nothing else. -/
theorem mem_seen_complete_iff (next : Fin n → List (Fin n)) (a b : Fin n) :
    b ∈ (complete next (List.finRange n) a).seen ↔
      Relation.ReflTransGen (fun x y ↦ y ∈ next x) a b := by
  constructor
  · have hfol : Follows next a (complete next (List.finRange n) a) :=
      run_induct (fun _ h ↦ h.step) (Follows.start next a) _
    exact hfol.seen b
  · intro h
    obtain ⟨hstart, hclosed⟩ := seen_complete next a
    induction h with
    | refl => exact hstart
    | tail _ hb ih => exact hclosed _ ih _ hb

end Search

/-! ## Reachable blocks -/

namespace BlockGraph

variable {n : Nat}

theorem reachable_iff (successors : Vector (List (Fin n)) n) (h : 0 < n) (b : Fin n) :
    (ofSuccessors successors).reachable.get b = true ↔
      b ∈ (Search.complete successors.get (List.finRange n) ⟨0, h⟩).seen := by
  simp only [ofSuccessors, search?, dif_pos h, Vector.get_ofFn]
  exact decide_eq_true_iff

theorem reachable_zero (successors : Vector (List (Fin n)) n) (h : 0 < n) :
    (ofSuccessors successors).reachable.get ⟨0, h⟩ = true :=
  (reachable_iff successors h _).2 (Search.seen_complete successors.get ⟨0, h⟩).1

theorem reachable_of_mem {successors : Vector (List (Fin n)) n} {b c : Fin n}
    (hb : (ofSuccessors successors).reachable.get b = true) (hc : c ∈ successors.get b) :
    (ofSuccessors successors).reachable.get c = true := by
  rw [reachable_iff successors b.pos] at hb ⊢
  exact (Search.seen_complete successors.get ⟨0, b.pos⟩).2 b hb c hc

/-- A block is found to be reachable if there is a way from the first block to it. -/
theorem reachable_iff_reflTransGen (successors : Vector (List (Fin n)) n) (h : 0 < n) (b : Fin n) :
    (ofSuccessors successors).reachable.get b = true ↔
      Relation.ReflTransGen (fun x y ↦ y ∈ successors.get x) ⟨0, h⟩ b := by
  rw [reachable_iff successors h, Search.mem_seen_complete_iff]

end BlockGraph

/-! ## Places in the code that control can come to -/

theorem Instr.upToTerminator_append {pre : List Instr} (h : ∀ i ∈ pre, i.isTerminator = false)
    (rest : List Instr) : upToTerminator (pre ++ rest) = pre ++ upToTerminator rest := by
  induction pre with
  | nil => rfl
  | cons hd tl ih =>
    rw [List.cons_append, upToTerminator, if_neg (by simp [h hd List.mem_cons_self]),
      ih fun i hi ↦ h i (List.mem_cons_of_mem _ hi), List.cons_append]

theorem Instr.mem_upToTerminator_cons (i : Instr) (rest : List Instr) :
    i ∈ upToTerminator (i :: rest) := by
  unfold upToTerminator
  split
  · exact List.mem_singleton_self i
  · exact List.mem_cons_self

/-- No terminator stands in front of an instruction up to the first one. -/
theorem Instr.exists_of_getElem?_upToTerminator {code : List Instr} {p : Nat} {i : Instr}
    (h : (upToTerminator code)[p]? = some i) :
    ∃ pre rest, code = pre ++ i :: rest ∧ pre.length = p ∧ ∀ j ∈ pre, j.isTerminator = false := by
  induction code generalizing p with
  | nil => simp [upToTerminator] at h
  | cons hd tl ih =>
    rw [upToTerminator] at h
    cases p with
    | zero =>
      obtain rfl : hd = i := by
        split at h <;> simpa using h
      exact ⟨[], tl, rfl, rfl, fun _ hj ↦ absurd hj List.not_mem_nil⟩
    | succ p =>
      split at h
      · simp at h
      · rename_i hhd
        obtain ⟨pre, rest, rfl, hlen, hpre⟩ := ih (by simpa using h)
        refine ⟨hd :: pre, rest, rfl, by rw [List.length_cons, hlen], fun j hj ↦ ?_⟩
        rcases List.mem_cons.1 hj with rfl | hj
        · exact Bool.not_eq_true _ ▸ hhd
        · exact hpre j hj

theorem Instr.exists_of_mem_upToTerminator {code : List Instr} {i : Instr}
    (h : i ∈ upToTerminator code) :
    ∃ pre rest, code = pre ++ i :: rest ∧ ∀ j ∈ pre, j.isTerminator = false := by
  obtain ⟨p, hp⟩ := List.mem_iff_getElem?.1 h
  obtain ⟨pre, rest, hcode, -, hpre⟩ := exists_of_getElem?_upToTerminator hp
  exact ⟨pre, rest, hcode, hpre⟩

theorem Instr.sublist_upToTerminator (code : List Instr) : (upToTerminator code).Sublist code := by
  induction code with
  | nil => exact .slnil
  | cons i code ih =>
    rw [upToTerminator]
    split
    · exact (List.nil_sublist code).cons_cons i
    · exact ih.cons_cons i

/-- Control can come to the place between `pre` and `rest` in block `b`: the block is reachable, and
there is no terminator in front of the place. -/
structure Reaches (blocks : List Block) (b : Nat) (pre rest : List Instr) : Prop where
  lt : b < blocks.length
  reachable : (BlockGraph.ofBlocks blocks).reachable.get ⟨b, lt⟩ = true
  code : (blocks.get ⟨b, lt⟩).code = pre ++ rest
  not_isTerminator : ∀ i ∈ pre, i.isTerminator = false

namespace Reaches

variable {blocks : List Block} {b : Nat} {pre rest : List Instr} {i : Instr}

theorem entry (h : 0 < blocks.length) :
    Reaches blocks 0 [] (blocks.get ⟨0, h⟩).code where
  lt := h
  reachable := BlockGraph.reachable_zero _ h
  code := rfl
  not_isTerminator _ hi := absurd hi List.not_mem_nil

theorem next (h : Reaches blocks b pre (i :: rest)) (hi : i.isTerminator = false) :
    Reaches blocks b (pre ++ [i]) rest where
  lt := h.lt
  reachable := h.reachable
  code := by rw [h.code, List.append_assoc, List.singleton_append]
  not_isTerminator j hj := by
    rcases List.mem_append.1 hj with hj | hj
    · exact h.not_isTerminator j hj
    · rwa [List.mem_singleton.1 hj]

/-- The first place of a successor. -/
theorem successor (h : Reaches blocks b pre rest) {c : Fin blocks.length}
    (hc : c ∈ blockSuccessors blocks ⟨b, h.lt⟩) : Reaches blocks c [] (blocks.get c).code where
  lt := c.isLt
  reachable := BlockGraph.reachable_of_mem h.reachable (by rwa [Vector.get_ofFn])
  code := rfl
  not_isTerminator _ hi := absurd hi List.not_mem_nil

/-- From the end of a block control goes on to the next one. -/
theorem fall (h : Reaches blocks b pre []) (hb : b + 1 < blocks.length) :
    Reaches blocks (b + 1) [] (blocks.get ⟨b + 1, hb⟩).code := by
  refine h.successor (c := ⟨b + 1, hb⟩) ?_
  have hfalls : fallsThrough (blocks.get ⟨b, h.lt⟩).code = true := by
    have hcode := h.code
    rw [List.append_nil] at hcode
    rw [fallsThrough, hcode, Bool.not_eq_true', List.any_eq_false]
    exact fun i hi ↦ by simp [h.not_isTerminator i hi]
  rw [blockSuccessors, mem_distinct]
  refine List.mem_append_right _ ?_
  rw [dif_pos hb, if_pos hfalls]
  exact List.mem_singleton_self _

/-- The label that an instruction can go to is that of a block which can be reached. -/
theorem goto (h : Reaches blocks b pre (i :: rest)) (hlabels : unknownLabel? blocks = none)
    {label : String} (hi : i.target? = some label) :
    ∃ c, labelled? blocks label = some c ∧ Reaches blocks c [] (blocks.get c).code := by
  have hmem : label ∈ targetLabels (blocks.get ⟨b, h.lt⟩).code := by
    refine List.mem_filterMap.2 ⟨i, ?_, hi⟩
    rw [h.code, Instr.upToTerminator_append h.not_isTerminator]
    exact List.mem_append_right _ (Instr.mem_upToTerminator_cons i rest)
  have hknown := List.find?_eq_none.1 hlabels label
    (List.mem_flatMap.2 ⟨_, List.get_mem blocks ⟨b, h.lt⟩, hmem⟩)
  obtain ⟨c, hc⟩ : ∃ c, labelled? blocks label = some c :=
    Option.ne_none_iff_exists'.1 (by simpa using hknown)
  refine ⟨c, hc, h.successor ?_⟩
  rw [blockSuccessors, mem_distinct]
  exact List.mem_append_left _ (List.mem_filterMap.2 ⟨label, hmem, hc⟩)

end Reaches

end RegAlloc

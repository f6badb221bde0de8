import Mathlib
import RegAlloc.Proofs.Colouring.Select
import RegAlloc.Proofs.Colouring.Termination

/-!
# Coalescing is conservative

A graph is greedily colourable with `k` colours if its virtual registers can be removed one after
the other, each with fewer than `k` neighbours among those that are left and the physical registers.
On such a graph no node is ever chosen as a potential spill, and every node finds a colour.

What stands in the way of removing nodes is a *core*: some nodes that all have `k` neighbours among
themselves and the physical registers. Neither of the two criteria for coalescing creates a core:

* if fewer than `k` neighbours of the new node have many neighbours, then the new node is in no
  core, since its neighbours in one have many neighbours before the nodes are coalesced too;
* if a node is coalesced into a physical register, a neighbour that gains the physical register as a
  neighbour had few neighbours, so it is in no core either.

Without a core some node has few neighbours as long as there are nodes at all.
-/

namespace RegAlloc

/-! ## Greedy colourability -/

namespace Graph

variable {n : Nat} {μ : Type}

/-- How many neighbours of a node are physical registers or in `rest`. -/
def degreeIn (g : Graph n μ) (rest : List (Fin n)) (u : Fin n) : Nat :=
  (List.finRange n).countP fun w ↦ g.interferes u w && (g.isPrecoloured w || rest.contains w)

/-- The nodes can be removed in the given order, each with fewer than `k` neighbours among those
that are left and the physical registers. -/
def Unravels (g : Graph n μ) (k : Nat) : List (Fin n) → Prop
  | [] => True
  | u :: rest => g.degreeIn rest u < k ∧ g.Unravels k rest

/-- The virtual registers can be removed in some order. -/
def IsGreedilyColourable (g : Graph n μ) (k : Nat) : Prop :=
  ∃ order : List (Fin n), order.Nodup ∧ (∀ u : Fin n, u ∈ order ↔ g.isPrecoloured u = false) ∧
    g.Unravels k order

instance decidableUnravels (g : Graph n μ) (k : Nat) : DecidablePred (g.Unravels k)
  | [] => .isTrue trivial
  | u :: rest =>
    have := decidableUnravels g k rest
    inferInstanceAs (Decidable (g.degreeIn rest u < k ∧ g.Unravels k rest))

/-- The neighbours of a node that are physical registers or in `W`. -/
def around (g : Graph n μ) (W : Finset (Fin n)) (u : Fin n) : Finset (Fin n) :=
  {w | g.interferes u w = true ∧ (g.isPrecoloured w = true ∨ w ∈ W)}

@[simp]
theorem mem_around {g : Graph n μ} {W : Finset (Fin n)} {u w : Fin n} :
    w ∈ g.around W u ↔ g.interferes u w = true ∧ (g.isPrecoloured w = true ∨ w ∈ W) := by
  simp [around]

theorem card_around_le_degreeIn {g : Graph n μ} {W : Finset (Fin n)} {rest : List (Fin n)}
    {u : Fin n} (h : ∀ w ∈ W, w ≠ u → w ∈ rest) : (g.around W u).card ≤ g.degreeIn rest u := by
  rw [degreeIn, List.countP_eq_length_filter]
  refine le_trans (Finset.card_le_card fun w hw ↦ ?_) (List.toFinset_card_le _)
  rw [mem_around] at hw
  have hne : w ≠ u := (ne_of_interferes hw.1).symm
  simp only [List.mem_toFinset, List.mem_filter, List.mem_finRange, true_and, Bool.and_eq_true,
    Bool.or_eq_true, List.contains_iff_mem]
  exact ⟨hw.1, hw.2.imp_right fun hW ↦ h w hW hne⟩

/-- Some node of every set of nodes that can be removed has few neighbours in it: the one that is
removed first. -/
theorem Unravels.exists_card_lt {g : Graph n μ} {k : Nat} {order : List (Fin n)}
    (h : g.Unravels k order) {W : Finset (Fin n)} (hne : W.Nonempty) (hW : ∀ w ∈ W, w ∈ order) :
    ∃ w ∈ W, (g.around W w).card < k := by
  induction order with
  | nil =>
    obtain ⟨w, hw⟩ := hne
    exact absurd (hW w hw) List.not_mem_nil
  | cons u rest ih =>
    have hrest : ∀ w ∈ W, w ≠ u → w ∈ rest := fun w hw hwu ↦
      (List.mem_cons.1 (hW w hw)).resolve_left hwu
    by_cases hu : u ∈ W
    · exact ⟨u, hu, (card_around_le_degreeIn hrest).trans_lt h.1⟩
    · exact ih h.2 fun w hw ↦ hrest w hw fun hwu ↦ hu (hwu ▸ hw)

/-- The degree of a physical register is never counted. -/
theorem degree_build {r : Nat} (virtuals : Nat) (es : List (Fin r × Fin r)) (ms : List (Move r))
    {u : Fin r} (hu : virtuals ≤ u) : (build virtuals es ms).degree.get u = infinite := by
  have hadd : ∀ (es : List (Fin r × Fin r)) (g : Graph r (Fin ms.length)),
      g.isPrecoloured u = true → (g.addEdges es).degree.get u = g.degree.get u := by
    intro es
    induction es with
    | nil => exact fun _ _ ↦ rfl
    | cons e es ih =>
      intro g hg
      rw [addEdges_cons, ih _ (by rwa [addEdge_isPrecoloured])]
      by_cases hnew : g.IsNew e.1 e.2
      · rw [degree_addEdge_of_isNew _ _ _ _ hnew, if_neg (by simp [hg])]
      · rw [addEdge_of_not_isNew hnew]
  rw [build, addMoves_eq, (foldl_addEnds ms _ _).2.2.2, hadd es _ (decide_eq_true hu)]
  simp [empty, hu]

end Graph

/-- Positions in a catalog are numbers of 16 bits. -/
theorem Catalog.size_le_of_ofNames? {names calleeSaved callerSaved : List String}
    {frameBase : String} {c : Catalog}
    (h : ofNames? names calleeSaved callerSaved frameBase = .ok c) : c.size ≤ 65536 := by
  have hwf := wellFormed_of_ofNames? h
  have hregs := (isMade_of_ofNames? h).registers_eq
  by_contra hlt
  rw [not_le] at hlt
  have hget := List.getElem?_eq_getElem (l := c.registers) hlt
  have hidx := hwf.index_eq hget
  have hmem : c.registers[65536] ∈ number names := by
    rw [← hregs]
    exact List.getElem_mem hlt
  have hlt := index_lt_of_mem_number hmem
  omega

namespace Colouring

variable {n m : Nat} {p : ColouringProblem n m} {s s' : Colouring n m} {u v : Fin n}

/-! ## Cores -/

/-- Some virtual registers in the graph all have `k` neighbours among themselves and the physical
registers. -/
def HasCore (p : ColouringProblem n m) (s : Colouring n m) : Prop :=
  ∃ W : Finset (Fin n), W.Nonempty ∧ ∀ w ∈ W, s.isPresent w = true ∧
    s.graph.isPrecoloured w = false ∧ p.k ≤ (s.graph.around W w).card

/-- A core that is still one when nodes and edges that it does without come back. -/
theorem HasCore.mono (h : HasCore p s') (hp : ∀ x, s'.isPresent x = true → s.isPresent x = true)
    (hv : ∀ x, s'.graph.isPrecoloured x = s.graph.isPrecoloured x)
    (hi : ∀ a b, s'.graph.interferes a b = true → s.graph.interferes a b = true) :
    HasCore p s := by
  obtain ⟨W, hne, hW⟩ := h
  refine ⟨W, hne, fun w hw ↦ ?_⟩
  obtain ⟨hpres, hpre, hle⟩ := hW w hw
  refine ⟨hp w hpres, by rwa [← hv], hle.trans (Finset.card_le_card fun x hx ↦ ?_)⟩
  rw [Graph.mem_around] at hx ⊢
  rw [hv] at hx
  exact ⟨hi _ _ hx.1, hx.2⟩

/-- The neighbours of a node in the graph. -/
theorem Settled.mem_adjacent (h : Settled p s) {t x : Fin n}
    (ht : s.graph.isPrecoloured t = false) :
    x ∈ s.adjacent t ↔ s.graph.interferes t x = true ∧ s.isPresent x = true := by
  rw [Colouring.mem_adjacent, h.sound.faithful.mem_adjacency ht]

/-- The degree of a virtual register counts its neighbours in the graph. -/
theorem Settled.card_adjacent (h : Settled p s) {t : Fin n} (ht : (s.node.get t).isOpen = true) :
    (s.adjacent t).toFinset.card = s.graph.degree.get t := by
  have hnd : (s.adjacent t).Nodup := (h.sound.faithful.nodup_adjacency t).filter _
  rw [List.toFinset_card_of_nodup hnd, h.degrees t ht, List.count_nil, add_zero]

theorem Settled.isOpen_of_isPresent (h : Settled p s) {t : Fin n} (ht : s.isPresent t = true)
    (hpre : s.graph.isPrecoloured t = false) : (s.node.get t).isOpen = true :=
  (h.sound.isPresent_iff.1 ht).resolve_right (by rw [hpre]; exact Bool.noConfusion)

theorem Settled.isPresent_of_isPrecoloured (h : Settled p s) {t : Fin n}
    (ht : s.graph.isPrecoloured t = true) : s.isPresent t = true :=
  h.sound.isPresent_iff.2 (.inr ht)

/-! ## Coalescing creates no core -/

namespace Coalesces

theorem isPresent_iff (hc : Coalesces p s s' u v) (x : Fin n) :
    s'.isPresent x = true ↔ s.isPresent x = true ∧ x ≠ v := by
  rw [hc.shifts.isPresent, (leaves_merge hc.isOpen).isPresent, Bool.and_eq_true, decide_eq_true_eq]

theorem isPrecoloured (hc : Coalesces p s s' u v) (x : Nat) :
    s'.graph.isPrecoloured x = s.graph.isPrecoloured x := by
  rw [hc.shifts.isPrecoloured, merge_isPrecoloured]

variable (h : Settled p s) (hc : Coalesces p s s' u v)
include h hc

theorem not_isPrecoloured : s.graph.isPrecoloured v = false :=
  h.sound.not_isPrecoloured_of_isOpen hc.isOpen

/-- The new edges go from `u` to the neighbours of `v`. -/
theorem interferes_iff (a b : Fin n) : s'.graph.interferes a b = true ↔
    s.graph.interferes a b = true ∨
      (a = u ∧ b ∈ s.adjacent v) ∨ (b = u ∧ a ∈ s.adjacent v) := by
  have hmem : ∀ t, t ∈ (s.merge u v).adjacent v ↔ t ∈ s.adjacent v := by
    intro t
    rw [Colouring.mem_adjacent, Colouring.mem_adjacent, (leaves_merge hc.isOpen).adjacency,
      (leaves_merge hc.isOpen).isPresent, Bool.and_eq_true, decide_eq_true_eq]
    refine ⟨fun ht ↦ ⟨ht.1, ht.2.1⟩, fun ht ↦ ⟨ht.1, ht.2, ?_⟩⟩
    rintro rfl
    have hself := (h.mem_adjacent (hc.not_isPrecoloured h)).1 (Colouring.mem_adjacent.2 ht)
    simp at hself
  rw [hc.shifts.interferes, merge_interferes, Between, hmem, hmem]

/-- A neighbour of `v` gains `u` in exchange for `v`, so it has no more neighbours than before. -/
theorem card_around_le {W : Finset (Fin n)} (hW : ∀ w ∈ W, s'.isPresent w = true) {t : Fin n}
    (ht : s.isPresent t = true) (htp : s.graph.isPrecoloured t = false) (htu : t ≠ u) :
    (s'.graph.around W t).card ≤ s.graph.degree.get t := by
  rw [← h.card_adjacent (h.isOpen_of_isPresent ht htp)]
  -- what is around `t` and not `u` has been there before, and is not `v`
  have hold : ∀ x ∈ s'.graph.around W t, x ≠ u → x ∈ s.adjacent t ∧ x ≠ v := by
    intro x hx hxu
    rw [Graph.mem_around, hc.isPrecoloured, hc.interferes_iff h] at hx
    have hint := hx.1.resolve_right fun hnew ↦
      hnew.elim (fun hnew ↦ htu hnew.1) fun hnew ↦ hxu hnew.1
    rw [h.mem_adjacent htp]
    rcases hx.2 with hpre | hxW
    · refine ⟨⟨hint, h.isPresent_of_isPrecoloured hpre⟩, ?_⟩
      rintro rfl
      rw [hc.not_isPrecoloured h] at hpre
      cases hpre
    · have hpres := (hc.isPresent_iff x).1 (hW x hxW)
      exact ⟨⟨hint, hpres.1⟩, hpres.2⟩
  by_cases hv : t ∈ s.adjacent v
  · have hvt : v ∈ (s.adjacent t).toFinset := by
      rw [h.mem_adjacent (hc.not_isPrecoloured h), Graph.interferes_comm] at hv
      rw [List.mem_toFinset, h.mem_adjacent htp]
      exact ⟨hv.1, isPresent_of_isOpen hc.isOpen⟩
    calc (s'.graph.around W t).card
        ≤ (insert u ((s.adjacent t).toFinset.erase v)).card := by
          refine Finset.card_le_card fun x hx ↦ ?_
          rw [Finset.mem_insert, Finset.mem_erase, List.mem_toFinset]
          by_cases hxu : x = u
          · exact .inl hxu
          · exact .inr ⟨(hold x hx hxu).2, (hold x hx hxu).1⟩
      _ ≤ ((s.adjacent t).toFinset.erase v).card + 1 := Finset.card_insert_le _ _
      _ = (s.adjacent t).toFinset.card := Finset.card_erase_add_one hvt
  · refine Finset.card_le_card fun x hx ↦ ?_
    rw [List.mem_toFinset]
    by_cases hxu : x = u
    · subst hxu
      rw [Graph.mem_around, hc.interferes_iff h] at hx
      rw [h.mem_adjacent htp]
      refine ⟨hx.1.resolve_right fun hnew ↦ ?_, hc.isPresent⟩
      exact hnew.elim (fun hnew ↦ htu hnew.1) fun hnew ↦ hv hnew.2
    · exact (hold x hx hxu).1

omit h in
/-- A core that gains nothing from the new edges has been one before. -/
theorem hasCore_of_subset {W : Finset (Fin n)} (hne : W.Nonempty)
    (hW : ∀ w ∈ W, s'.isPresent w = true ∧ s'.graph.isPrecoloured w = false ∧
      p.k ≤ (s'.graph.around W w).card)
    (hsub : ∀ w ∈ W, s'.graph.around W w ⊆ s.graph.around W w) : HasCore p s := by
  refine ⟨W, hne, fun w hw ↦ ?_⟩
  obtain ⟨hpres, hpre, hle⟩ := hW w hw
  rw [hc.isPrecoloured] at hpre
  exact ⟨((hc.isPresent_iff w).1 hpres).1, hpre, hle.trans (Finset.card_le_card (hsub w hw))⟩

theorem around_subset {W : Finset (Fin n)} {w : Fin n} (hwu : w ≠ u)
    (hu : u ∈ s'.graph.around W w → s.graph.interferes w u = true) :
    s'.graph.around W w ⊆ s.graph.around W w := by
  intro x hx
  by_cases hxu : x = u
  · subst hxu
    have hint := hu hx
    rw [Graph.mem_around, hc.isPrecoloured] at hx
    rw [Graph.mem_around]
    exact ⟨hint, hx.2⟩
  · rw [Graph.mem_around, hc.isPrecoloured, hc.interferes_iff h] at hx
    rw [Graph.mem_around]
    exact ⟨hx.1.resolve_right fun hnew ↦
      hnew.elim (fun hnew ↦ hwu hnew.1) fun hnew ↦ hxu hnew.1, hx.2⟩

/-- Coalescing into a physical register. -/
theorem not_hasCore_of_isPrecoloured (hcore : ¬HasCore p s)
    (hu : s.graph.isPrecoloured u = true) : ¬HasCore p s' := by
  rintro ⟨W, hne, hW⟩
  refine hcore (hc.hasCore_of_subset hne hW fun w hw ↦ ?_)
  obtain ⟨hpres, hpre, hle⟩ := hW w hw
  rw [hc.isPrecoloured] at hpre
  have hwp := ((hc.isPresent_iff w).1 hpres).1
  have hwu : w ≠ u := by
    rintro rfl
    rw [hu] at hpre
    cases hpre
  refine hc.around_subset h hwu fun hx ↦ ?_
  rw [Graph.mem_around, hc.interferes_iff h] at hx
  rcases hx.1 with hint | ⟨hwu', -⟩ | ⟨-, hwv⟩
  · exact hint
  · exact absurd hwu' hwu
  · -- a neighbour of `v` that does not interfere with `u` has few neighbours
    have hcan := hc.canCoalesce
    rw [Colouring.canCoalesce, if_pos hu, List.all_eq_true] at hcan
    have hharm := hcan w hwv
    rw [isHarmless, hpre, Bool.or_false, Bool.or_eq_true, decide_eq_true_eq] at hharm
    refine hharm.resolve_left fun hlt ↦ ?_
    exact absurd (hc.card_around_le h (fun x hx ↦ (hW x hx).1) hwp hpre hwu) (by omega)

/-- Coalescing two virtual registers. -/
theorem not_hasCore_of_not_isPrecoloured (hcore : ¬HasCore p s)
    (hdeg : ∀ x : Fin n, s.graph.isPrecoloured x = true → p.k ≤ s.graph.degree.get x)
    (hu : s.graph.isPrecoloured u = false) : ¬HasCore p s' := by
  rintro ⟨W, hne, hW⟩
  by_cases huW : u ∈ W
  · -- all that is around `u` in the core has many neighbours
    have hcan := hc.canCoalesce
    rw [Colouring.canCoalesce, if_neg (by simp [hu]), decide_eq_true_eq,
      List.countP_eq_length_filter] at hcan
    refine absurd ((hW u huW).2.2.trans ((Finset.card_le_card fun t ht ↦ ?_).trans
      (List.toFinset_card_le _))) (not_le.2 hcan)
    rw [Graph.mem_around, hc.isPrecoloured, hc.interferes_iff h] at ht
    obtain ⟨hint, htW⟩ := ht
    have htp : s.isPresent t = true :=
      htW.elim h.isPresent_of_isPrecoloured fun htW ↦ ((hc.isPresent_iff t).1 (hW t htW).1).1
    rw [List.mem_toFinset, List.mem_filter, mem_distinct, List.mem_append, decide_eq_true_eq]
    constructor
    · rcases hint with hint | ⟨-, htv⟩ | ⟨rfl, huv⟩
      · exact .inl ((h.mem_adjacent hu).2 ⟨hint, htp⟩)
      · exact .inr htv
      · exact .inr huv
    · by_cases htpre : s.graph.isPrecoloured t = true
      · exact hdeg t htpre
      · rw [Bool.not_eq_true] at htpre
        have htW := htW.resolve_left (by simp [htpre])
        have htu : t ≠ u := by
          rintro rfl
          have hself : s'.graph.interferes t t = true := (hc.interferes_iff h t t).2 hint
          simp at hself
        exact (hW t htW).2.2.trans
          (hc.card_around_le h (fun x hx ↦ (hW x hx).1) htp htpre htu)
  · refine hcore (hc.hasCore_of_subset hne hW fun w hw ↦ ?_)
    refine hc.around_subset h (fun hwu ↦ huW (hwu ▸ hw)) fun hx ↦ ?_
    rw [Graph.mem_around, hc.isPrecoloured, hu] at hx
    exact absurd (hx.2.resolve_left Bool.noConfusion) huW

end Coalesces

/-! ## Nodes that see few others -/

/-- Fewer than `k` nodes stand for the neighbours of `u` that get their colours before it. -/
def SeesFew (p : ColouringProblem n m) (s : Colouring n m) (u : Fin n) : Prop :=
  ∃ T : Finset (Fin n), T.card < p.k ∧ ∀ w ∈ s.graph.adjacency.get u,
    s.isPresent (s.rep w) = true ∨ Above s.work.stack (s.rep w) u → s.rep w ∈ T

theorem Sound.isPresent_of_mem_stack (h : Sound p s) (hu : u ∈ s.work.stack) :
    s.isPresent u = false := by
  rw [isPresent, (h.mirror.mem_stack u).1 hu]

/-- The neighbours that a selected node leaves behind are as many as its degree says. -/
theorem Settled.seesFew_select (h : Settled p s) (hu : s.node.get u = .simplify)
    (hlt : s.graph.degree.get u < p.k) : SeesFew p (s.setNode u .selected) u := by
  have hopen : (s.node.get u).isOpen = true := by rw [hu]; rfl
  have hpre := h.sound.not_isPrecoloured_of_isOpen hopen
  have hnot : u ∉ s.work.stack := fun hmem ↦ by
    rw [h.sound.mirror.mem_stack, hu] at hmem
    cases hmem
  refine ⟨(s.adjacent u).toFinset, by rwa [h.card_adjacent hopen], fun w hw hseen ↦ ?_⟩
  rw [rep_select hopen] at hseen ⊢
  rw [select_stack] at hseen
  have hpres : s.isPresent (s.rep w) = true := by
    rw [(leaves_select hopen).isPresent, Bool.and_eq_true] at hseen
    exact (hseen.resolve_right (not_above_cons hnot)).1
  have hint : s.graph.interferes u w = true := (h.sound.faithful.mem_adjacency hpre w).1 hw
  obtain ⟨-, hedge, -⟩ := h.forwarded u w hint
  rw [rep_of_isRoot (isRoot_of_isOpen hopen)] at hedge
  rw [List.mem_toFinset, h.mem_adjacent hpre]
  exact ⟨(hedge (isPresent_of_isOpen hopen) hpres).resolve_right id, hpres⟩

namespace SeesFew

variable {x : Fin n}

theorem shifts (h : SeesFew p s x) (hs : Sound p s) (hx : x ∈ s.work.stack)
    (hsh : Shifts (fun _ _ ↦ False) s s') : SeesFew p s' x := by
  obtain ⟨T, hcard, hT⟩ := h
  refine ⟨T, hcard, fun w hw hseen ↦ ?_⟩
  rw [hsh.adjacency x (hs.isPresent_of_mem_stack hx)] at hw
  rw [hsh.rep] at hseen ⊢
  rw [hsh.isPresent, hsh.stack] at hseen
  exact hT w hw hseen

/-- A node that was selected before has counted `u` while `u` was in the graph. -/
theorem select (h : SeesFew p s x) (hopen : (s.node.get u).isOpen = true) :
    SeesFew p (s.setNode u .selected) x := by
  obtain ⟨T, hcard, hT⟩ := h
  refine ⟨T, hcard, fun w hw hseen ↦ ?_⟩
  rw [rep_select hopen] at hseen ⊢
  rw [select_stack, (leaves_select hopen).isPresent, Bool.and_eq_true] at hseen
  refine hT w hw ?_
  rcases hseen with hseen | hseen
  · exact .inl hseen.1
  · rcases above_cons hseen with he | hseen
    · rw [he]
      exact .inl (isPresent_of_isOpen hopen)
    · exact .inr hseen

/-- What was represented by `v` is represented by `u` after `v` is coalesced into it, so no more
nodes stand for the neighbours than before. -/
theorem coalesces (h : SeesFew p s x) (hset : Settled p s) (hx : x ∈ s.work.stack)
    (hc : Coalesces p s s' u v) : SeesFew p s' x := by
  have hl := leaves_merge (u := u) hc.isOpen
  have hur := isRoot_of_isPresent hc.isPresent
  have hrep : ∀ y, s'.rep y = if s.rep y = v then u else s.rep y := fun y ↦ by
    rw [hc.shifts.rep, rep_merge hset.sound.aliases hc.isOpen hur hc.ne]
  have habs : (s.merge u v).isPresent x = false := by
    rw [hl.isPresent, hset.sound.isPresent_of_mem_stack hx]
    rfl
  obtain ⟨T, hcard, hT⟩ := h
  refine ⟨T.image fun y ↦ if y = v then u else y, Finset.card_image_le.trans_lt hcard,
    fun w hw hseen ↦ ?_⟩
  rw [hc.shifts.adjacency x habs, hl.adjacency] at hw
  rw [hrep] at hseen ⊢
  refine Finset.mem_image.2 ⟨s.rep w, hT w hw ?_, rfl⟩
  by_cases hwv : s.rep w = v
  · rw [hwv]
    exact .inl (isPresent_of_isOpen hc.isOpen)
  · rw [if_neg hwv, hc.isPresent_iff, hc.shifts.stack, merge_stack] at hseen
    exact hseen.imp_left And.left

theorem note (h : SeesFew p s x) (e : ColouringEvent n m) : SeesFew p (s.note e) x := by
  obtain ⟨T, hcard, hT⟩ := h
  refine ⟨T, hcard, fun w hw hseen ↦ ?_⟩
  rw [(Quiet.note s e).rep] at hseen ⊢
  exact hT w hw hseen

/-- A node of the stack that sees few others does so after every step. -/
theorem change (h : SeesFew p s x) (hset : Settled p s) (hx : x ∈ s.work.stack)
    (hc : Change p s s') : SeesFew p s' x := by
  cases hc with
  | select u hu hst =>
    have hopen : (s.node.get u).isOpen = true := by rw [hu]; rfl
    refine (h.select hopen).shifts (hset.sound.select hopen) ?_ hst.toShifts
    rw [select_stack]
    exact List.mem_cons_of_mem u hx
  | stir hst => exact h.shifts hset.sound hx hst.toShifts
  | wait i hi hsh hm => exact h.shifts hset.sound hx hsh
  | coalesce u v hc => exact h.coalesces hset hx hc
  | choose u hu hs hf hst =>
    exact (h.note _).shifts (hset.sound.tweak (.note s _)) hx hst.toShifts

end SeesFew

/-! ## Steps of a loose graph -/

/-- What keeps every node from being spilled. -/
structure Loose (p : ColouringProblem n m) (s : Colouring n m) : Prop where
  not_hasCore : ¬HasCore p s
  le_degree : ∀ x : Fin n, s.graph.isPrecoloured x = true → p.k ≤ s.graph.degree.get x
  /-- What does not take part in the work is alone. -/
  isolated : ∀ a b, s.node.get a = .initial → s.graph.interferes a b = false
  isEnd : ∀ x, IsEnd p x → s.node.get x ≠ .initial
  seesFew : ∀ u ∈ s.work.stack, SeesFew p s u
  not_wasChosen : ∀ u, ¬s.WasChosen u

namespace Loose

theorem shifts (h : Loose p s) (hs : Sound p s) (hsh : Shifts (fun _ _ ↦ False) s s') :
    Loose p s' where
  not_hasCore hcore := h.not_hasCore (hcore.mono (fun x ↦ by rw [hsh.isPresent]; exact id)
    hsh.isPrecoloured fun a b hab ↦ ((hsh.interferes a b).1 hab).resolve_right id)
  le_degree x hx := by
    rw [hsh.isPrecoloured] at hx
    rw [hsh.degree x hx]
    exact h.le_degree x hx
  isolated a b ha := by
    have hab := h.isolated a b (hsh.initial a ha)
    rw [← Bool.not_eq_true, hsh.interferes, hab]
    simp
  isEnd x hx hi := h.isEnd x hx (hsh.initial x hi)
  seesFew u hu := by
    rw [hsh.stack] at hu
    exact (h.seesFew u hu).shifts hs hu hsh
  not_wasChosen u hu := h.not_wasChosen u (hsh.wasChosen u hu)

/-- What is simplified has few neighbours, since nothing was chosen. -/
theorem degree_lt (h : Loose p s) (hset : Settled p s) (hu : s.node.get u = .simplify) :
    s.graph.degree.get u < p.k := by
  have hcl := hset.classified u id
  rw [Classified, hu] at hcl
  by_contra hge
  exact h.not_wasChosen u (hcl.2 (not_lt.1 hge))

theorem select (h : Loose p s) (hset : Settled p s) (hu : s.node.get u = .simplify) :
    Loose p (s.setNode u .selected) := by
  have hopen : (s.node.get u).isOpen = true := by rw [hu]; rfl
  have hl := leaves_select hopen
  have hinit : ∀ x, (s.setNode u .selected).node.get x = .initial → s.node.get x = .initial := by
    intro x hx
    rw [setNode_node] at hx
    split at hx
    · cases hx
    · exact hx
  refine ⟨fun hcore ↦ h.not_hasCore (hcore.mono (fun x hx ↦ ?_) (fun _ ↦ rfl) fun _ _ ↦ id),
    h.le_degree, fun a b ha ↦ h.isolated a b (hinit a ha), fun x hx hi ↦ h.isEnd x hx (hinit x hi),
    fun x hx ↦ ?_, fun x hx ↦ h.not_wasChosen x (.of_cons (by simp) rfl x hx)⟩
  · rw [hl.isPresent, Bool.and_eq_true] at hx
    exact hx.1
  · rw [select_stack, List.mem_cons] at hx
    rcases hx with rfl | hx
    · exact hset.seesFew_select hu (h.degree_lt hset hu)
    · exact (h.seesFew x hx).select hopen

theorem coalesces (h : Loose p s) (hset : Settled p s) (hc : Coalesces p s s' u v) :
    Loose p s' := by
  have hl := leaves_merge (u := u) hc.isOpen
  have hinit : ∀ x, s'.node.get x = .initial → s.node.get x = .initial := by
    intro x hx
    have hx := hc.shifts.initial x hx
    rw [merge_node] at hx
    split at hx
    · cases hx
    · exact hx
  constructor
  · by_cases hu : s.graph.isPrecoloured u = true
    · exact hc.not_hasCore_of_isPrecoloured hset h.not_hasCore hu
    · exact hc.not_hasCore_of_not_isPrecoloured hset h.not_hasCore h.le_degree
        (Bool.not_eq_true _ ▸ hu)
  · intro x hx
    rw [hc.isPrecoloured] at hx
    rw [hc.shifts.degree x (by rwa [merge_isPrecoloured]), hl.degree]
    exact h.le_degree x hx
  · intro a b ha
    have ha := hinit a ha
    rw [← Bool.not_eq_true, hc.interferes_iff hset, h.isolated a b ha]
    rintro (hab | ⟨rfl, -⟩ | ⟨-, hav⟩)
    · cases hab
    · exact h.isEnd a hc.isEnd ha
    · rw [hset.mem_adjacent (hc.not_isPrecoloured hset), Graph.interferes_comm,
        h.isolated a v ha] at hav
      cases hav.1
  · exact fun x hx hi ↦ h.isEnd x hx (hinit x hi)
  · intro x hx
    rw [hc.shifts.stack, merge_stack] at hx
    exact (h.seesFew x hx).coalesces hset hx hc
  · intro x hx
    exact h.not_wasChosen x (.of_cons (by simp) rfl x (hc.shifts.wasChosen x hx))

/-- If only nodes with many neighbours are left, they are a core. -/
theorem node_ne_spill (h : Loose p s) (hset : Settled p s) (hs : s.work.simplify.toList = [])
    (hf : s.work.freeze.toList = []) (u : Fin n) : s.node.get u ≠ .spill := by
  intro hu
  have hm := hset.sound.mirror
  refine h.not_hasCore ⟨Finset.univ.filter fun w ↦ s.node.get w = .spill, ⟨u, by simpa using hu⟩,
    fun w hw ↦ ?_⟩
  have hw : s.node.get w = .spill := by simpa using hw
  have hopen : (s.node.get w).isOpen = true := by rw [hw]; rfl
  have hpre := hset.sound.not_isPrecoloured_of_isOpen hopen
  have hcl := hset.classified w id
  rw [Classified, hw] at hcl
  refine ⟨isPresent_of_isOpen hopen, hpre, ?_⟩
  calc p.k ≤ s.graph.degree.get w := hcl
    _ = (s.adjacent w).toFinset.card := (hset.card_adjacent hopen).symm
    _ ≤ _ := Finset.card_le_card fun x hx ↦ ?_
  rw [List.mem_toFinset, hset.mem_adjacent hpre] at hx
  rw [Graph.mem_around, Finset.mem_filter]
  refine ⟨hx.1, (hset.sound.isPresent_iff.1 hx.2).symm.imp_right fun ho ↦ ⟨Finset.mem_univ x, ?_⟩⟩
  have hsim : s.node.get x ≠ .simplify := by
    rw [Ne, ← hm.mem_simplify, ← BitSet.mem_toList, hs]
    exact List.not_mem_nil
  have hfre : s.node.get x ≠ .freeze := by
    rw [Ne, ← hm.mem_freeze, ← BitSet.mem_toList, hf]
    exact List.not_mem_nil
  have hini : s.node.get x ≠ .initial := by
    intro hi
    rw [Graph.interferes_comm, h.isolated x w hi] at hx
    cases hx.1
  revert ho hsim hfre hini
  cases s.node.get x <;> simp [NodeState.isOpen]

/-- No step makes a graph harder to colour. -/
theorem change (h : Loose p s) (hset : Settled p s) (hc : Change p s s') : Loose p s' := by
  cases hc with
  | select u hu hst =>
    have hopen : (s.node.get u).isOpen = true := by rw [hu]; rfl
    exact (h.select hset hu).shifts (hset.sound.select hopen) hst.toShifts
  | stir hst => exact h.shifts hset.sound hst.toShifts
  | wait i hi hsh hm => exact h.shifts hset.sound hsh
  | coalesce u v hc => exact h.coalesces hset hc
  | choose u hu hs hf hst => exact absurd hu (h.node_ne_spill hset hs hf u)

end Loose

/-! ## Runs on a greedily colourable graph -/

section Run

variable {g : Graph n (Fin m)} {retired : List Nat}

/-- Retired nodes have neither neighbours nor moves. -/
def AreAlone (p : ColouringProblem n m) (g : Graph n (Fin m)) (retired : List Nat) : Prop :=
  ∀ u : Fin n, u.val ∈ retired → (∀ v, g.interferes u v = false) ∧ ¬IsEnd p u

theorem not_hasCore_start (hg : g.IsGreedilyColourable p.k) : ¬HasCore p (Colouring.start g) := by
  rintro ⟨W, hne, hW⟩
  obtain ⟨order, -, hmem, horder⟩ := hg
  obtain ⟨w, hw, hlt⟩ := horder.exists_card_lt hne fun w hw ↦ (hmem w).2 (hW w hw).2.1
  exact absurd (hW w hw).2.2 (not_le.2 hlt)

theorem Loose.start (h₀ : Settled p (Colouring.start g)) (hg : g.IsGreedilyColourable p.k)
    (hdeg : ∀ x : Fin n, g.isPrecoloured x = true → p.k ≤ g.degree.get x)
    (hret : AreAlone p g retired)
    (hok : (Colouring.start g).makeWorklist p (unretired g retired) = .ok s) : Loose p s := by
  obtain ⟨_, hok', -, -, hlisted⟩ := h₀.makeWorklist_unretired retired
  rw [hok] at hok'
  cases hok'
  have hst : Stirs (Colouring.start g) s := .makeWorklist (fun _ _ ↦ start_isPresent _) hok
  -- only a retired node is left out of the work
  have hinit : ∀ x : Fin n, s.node.get x = .initial → x.val ∈ retired := by
    intro x hx
    by_contra hnot
    have hpre : g.isPrecoloured x = false := by
      have hx := hst.initial x hx
      rw [start_node] at hx
      by_contra hpre
      rw [if_pos (by simpa using hpre)] at hx
      cases hx
    exact hlisted x (List.mem_filter.2 ⟨List.mem_finRange x, by simp [hpre, hnot]⟩) hx
  refine ⟨fun hcore ↦ not_hasCore_start hg (hcore.mono (fun x _ ↦ start_isPresent x)
    hst.isPrecoloured fun a b hab ↦ ((hst.interferes a b).1 hab).resolve_right id), ?_, ?_, ?_, ?_,
    ?_⟩
  · intro x hx
    rw [hst.isPrecoloured] at hx
    rw [hst.degree x hx]
    exact hdeg x hx
  · intro a b ha
    have hab : (Colouring.start g).graph.interferes a b = false := (hret a (hinit a ha)).1 b
    rw [← Bool.not_eq_true, hst.interferes, hab]
    simp
  · exact fun x hx hi ↦ (hret x (hinit x hi)).2 hx
  · intro u hu
    rw [hst.stack] at hu
    exact absurd hu List.not_mem_nil
  · intro u hu
    obtain ⟨d, hd⟩ := hst.wasChosen u hu
    exact absurd hd List.not_mem_nil

theorem Reachable.loose (h₀ : Settled p (Colouring.start g))
    (hstart : ∀ s, (Colouring.start g).makeWorklist p (unretired g retired) = .ok s → Loose p s)
    (h : Reachable p g retired s) : Loose p s := by
  induction h with
  | start hok => exact hstart _ hok
  | step h choose hs ih =>
    have hset := (h.settled h₀).1
    exact ih.change hset (hset.change hs)

end Run

/-! ## Every node finds a colour -/

/-- A node that sees few others finds a colour. -/
theorem Selecting.freeColour?_ne_none {s₁ : Colouring n m} {done rest : List (Fin n)}
    (h : Selecting p s s₁ done (u :: rest)) (hset : Settled p s) (hfew : SeesFew p s u) :
    s₁.freeColour? p u ≠ none := by
  intro hnone
  obtain ⟨T, hcard, hT⟩ := hfew
  have hm := hset.sound.mirror
  -- all colours are used, each by a node of `T`
  have hused : (List.range' p.firstColour p.k).toFinset.image some ⊆ T.image s₁.colour.get := by
    intro c hc
    obtain ⟨c, hrange, rfl⟩ := Finset.mem_image.1 hc
    have hmem : c ∈ s₁.usedColours u := by
      have := List.find?_eq_none.1 hnone c (List.mem_toFinset.1 hrange)
      simpa using this
    obtain ⟨w, hw, hcol⟩ := List.mem_filterMap.1 hmem
    rw [h.graph] at hw
    simp only [h.rep_eq hm] at hcol
    have hseen : s.isPresent (s.rep w) = true ∨ Above s.work.stack (s.rep w) u := by
      by_cases hdone : s.rep w ∈ done
      · exact .inr ⟨done, rest, h.stack, hdone⟩
      · rw [(h.node_rest _ hdone).1] at hcol
        split at hcol
        · rename_i hn
          exact absurd hn (hset.sound.not_coloured _)
        · rename_i hn
          exact .inl (by rw [isPresent, hn])
        · cases hcol
    refine Finset.mem_image.2 ⟨s.rep w, hT w hw hseen, ?_⟩
    split at hcol
    · exact hcol
    · exact hcol
    · cases hcol
  have hle := (Finset.card_le_card hused).trans Finset.card_image_le
  rw [Finset.card_image_of_injective _ (Option.some_injective Nat),
    List.toFinset_card_of_nodup (List.nodup_range' ..), List.length_range'] at hle
  omega

theorem Selecting.spilled_colourNode {s₁ s₂ : Colouring n m} {done rest : List (Fin n)}
    (h : Selecting p s s₁ done (u :: rest)) (hset : Settled p s)
    (hok : s₁.colourNode p u = .ok s₂) : s₂.work.spilled = s₁.work.spilled ∨
      (s₂.work.spilled = s₁.work.spilled ++ [u] ∧ ¬SeesFew p s u) := by
  unfold Colouring.colourNode at hok
  split at hok
  · obtain ⟨-, rfl⟩ := transition_eq_ok_iff.1 hok
    rw [setNode_work, Worklists.enter_spilled, if_neg (by simp),
      (Worklists.leave_lists _ _ _).2.2.1]
    exact .inl rfl
  · rename_i hnone
    obtain ⟨-, rfl⟩ := transition_eq_ok_iff.1 hok
    rw [setNode_work, Worklists.enter_spilled, if_pos rfl, (Worklists.leave_lists _ _ _).2.2.1]
    exact .inr ⟨rfl, fun hfew ↦ h.freeColour?_ne_none hset hfew hnone⟩

/-- What is spilled is part of the stack, and does not see few others. -/
theorem Settled.spilled_assignColours (hset : Settled p s) (hp : s.IsPlain)
    (hok : s.assignColours p = .ok s') :
    s'.work.spilled.Sublist s.work.stack ∧ ∀ u ∈ s'.work.spilled, ¬SeesFew p s u := by
  unfold Colouring.assignColours at hok
  obtain ⟨s₁, hok₁, hok⟩ := bind_eq_ok_iff.1 hok
  cases hok
  have hnil : s.work.spilled = [] := List.eq_nil_iff_forall_not_mem.2 fun x hx ↦
    hset.sound.not_spilled x ((hset.sound.mirror.mem_spilled x).1 hx)
  obtain ⟨done, hsel, hsub, hfew⟩ := foldlM_induct
    (fun rest s₁ ↦ ∃ done, Selecting p s s₁ done rest ∧ s₁.work.spilled.Sublist done ∧
      ∀ u ∈ s₁.work.spilled, ¬SeesFew p s u)
    (by
      rintro u rest s₁ s₂ ⟨done, hsel, hsub, hfew⟩ hok
      obtain ⟨s₂', hok', hsel₂⟩ := hsel.colourNode hset hp
      rw [hok] at hok'
      cases hok'
      refine ⟨done ++ [u], hsel₂, ?_⟩
      rcases hsel.spilled_colourNode hset hok with he | ⟨he, hu⟩
      · rw [he]
        exact ⟨hsub.trans (List.sublist_append_left done [u]), hfew⟩
      · rw [he]
        refine ⟨hsub.append (List.Sublist.refl [u]), fun x hx ↦ ?_⟩
        rcases List.mem_append.1 hx with hx | hx
        · exact hfew x hx
        · rwa [List.mem_singleton.1 hx])
    ⟨[], Selecting.start hset hp, hnil ▸ List.Sublist.refl [], by simp [note, hnil]⟩ hok₁
  rw [inheritColours, (foldl_inheritColour_eq _).2.2]
  have hdone := hsel.stack
  rw [List.append_nil] at hdone
  exact ⟨hdone ▸ hsub, hfew⟩

/-- Nothing is spilled if every node of the stack sees few others. -/
theorem Settled.spilled_eq_nil (hset : Settled p s) (hp : s.IsPlain)
    (hfew : ∀ u ∈ s.work.stack, SeesFew p s u) (hok : s.assignColours p = .ok s') :
    s'.work.spilled = [] := by
  obtain ⟨hsub, hnot⟩ := hset.spilled_assignColours hp hok
  exact List.eq_nil_iff_forall_not_mem.2 fun x hx ↦ hnot x hx (hfew x (hsub.subset hx))

section Build

variable {names calleeSaved callerSaved : List String} {frameBase : String} {catalog : Catalog}
  (hcat : Catalog.ofNames? names calleeSaved callerSaved frameBase = .ok catalog) {r virtuals : Nat}
  {edges : List (Fin r × Fin r)} {moves : List (Move r)} {retired : List Nat}
  (hgreedy : (Graph.build virtuals edges moves).IsGreedilyColourable catalog.colourCount)
  (hret : AreAlone (catalog.problem moves) (Graph.build virtuals edges moves) retired)

include hcat hgreedy hret

theorem Loose.start_build {s : Colouring r moves.length}
    (hok : (Colouring.start (Graph.build virtuals edges moves)).makeWorklist
      (catalog.problem moves) (unretired (Graph.build virtuals edges moves) retired) = .ok s) :
    Loose (catalog.problem moves) s := by
  have hk : catalog.colourCount ≤ Graph.infinite := by
    have hsize := Catalog.size_le_of_ofNames? hcat
    have hadd := (Catalog.wellFormed_of_ofNames? hcat).firstColour_add
    have : 65536 ≤ Graph.infinite := by decide
    omega
  refine Loose.start (settled_start_build catalog virtuals edges moves) hgreedy (fun x hx ↦ ?_)
    hret hok
  rw [Graph.degree_build]
  · exact hk
  · rw [Graph.isPrecoloured, Graph.build_virtuals] at hx
    exact of_decide_eq_true hx

/-- All the nodes of a greedily colourable graph find colours. -/
theorem spilled_eq_nil_of_attempt {choose : SpillChoice r moves.length}
    {s : Colouring r moves.length}
    (hok : attempt (catalog.problem moves) choose retired (Graph.build virtuals edges moves) =
      .ok s) : s.work.spilled = [] := by
  have h₀ := settled_start_build catalog virtuals edges moves
  obtain ⟨s₁, s₂, hok₁, hok₂, hok, hdone, -⟩ := isDone_of_attempt h₀ hok
  obtain ⟨count, hsteps, -⟩ := steps_of_runWithin hok₂
  have hloose := (hsteps.reachable (.start hok₁)).loose h₀
    fun s ↦ Loose.start_build hcat hgreedy hret
  exact hdone.settled.spilled_eq_nil ((IsPlain.start _).grows hdone.grows) hloose.seesFew hok

end Build

/-- On a greedily colourable graph coalescing is harmless. Whatever is done to choose a node to
spill, none is ever chosen in any state that can be reached, and the selection spills none. -/
theorem exists_unspilled {names calleeSaved callerSaved : List String} {frameBase : String}
    {catalog : Catalog}
    (hcat : Catalog.ofNames? names calleeSaved callerSaved frameBase = .ok catalog) {r : Nat}
    (virtuals : Nat) (edges : List (Fin r × Fin r)) (moves : List (Move r)) (retired : List Nat)
    (hgreedy : (Graph.build virtuals edges moves).IsGreedilyColourable catalog.colourCount)
    (hret : AreAlone (catalog.problem moves) (Graph.build virtuals edges moves) retired)
    (choose : SpillChoice r moves.length) :
    (∀ s, Reachable (catalog.problem moves) (Graph.build virtuals edges moves) retired s →
      ∀ u, ¬s.WasChosen u) ∧
    ∃ s₁ s₂ s, (start (Graph.build virtuals edges moves)).makeWorklist (catalog.problem moves)
        (unretired (Graph.build virtuals edges moves) retired) = .ok s₁ ∧
      s₁.run (catalog.problem moves) choose = .ok s₂ ∧ (∀ u, ¬s₂.WasChosen u) ∧
      s₂.assignColours (catalog.problem moves) = .ok s ∧ s.work.spilled = [] ∧
      ∀ u, s.node.get u ≠ .spilled := by
  have h₀ := settled_start_build catalog virtuals edges moves
  have hstart : ∀ s, (start (Graph.build virtuals edges moves)).makeWorklist
      (catalog.problem moves) (unretired (Graph.build virtuals edges moves) retired) = .ok s →
      Loose (catalog.problem moves) s :=
    fun s ↦ Loose.start_build hcat hgreedy hret
  obtain ⟨s₁, s₂, s, hok₁, hok₂, hok, hdone, hsel⟩ := exists_isDone h₀ retired choose
  obtain ⟨count, hsteps, -⟩ := steps_of_runWithin hok₂
  have hloose := (hsteps.reachable (.start hok₁)).loose h₀ hstart
  have hnil := hdone.settled.spilled_eq_nil ((IsPlain.start _).grows hdone.grows) hloose.seesFew hok
  refine ⟨fun s hs ↦ (hs.loose h₀ hstart).not_wasChosen, s₁, s₂, s, hok₁, hok₂,
    hloose.not_wasChosen, hok, hnil, fun u hu ↦ ?_⟩
  rw [← hsel.mem_spilled, hnil] at hu
  exact absurd hu List.not_mem_nil

/-- A path of four registers, of which every second one is a copy, with two colours. -/
theorem exists_unspilled_of_path :
    (Graph.build (r := 7) 4 [(0, 1), (1, 2), (2, 3)] [⟨0, 0, 2⟩, ⟨1, 1, 3⟩]).IsGreedilyColourable
      Catalog.twoColours.colourCount ∧
    AreAlone (Catalog.twoColours.problem [⟨0, 0, 2⟩, ⟨1, 1, 3⟩])
      (Graph.build (r := 7) 4 [(0, 1), (1, 2), (2, 3)] [⟨0, 0, 2⟩, ⟨1, 1, 3⟩]) [] ∧
    ∃ s₁ s₂ s, (start (Graph.build (r := 7) 4 [(0, 1), (1, 2), (2, 3)]
        [⟨0, 0, 2⟩, ⟨1, 1, 3⟩])).makeWorklist (Catalog.twoColours.problem [⟨0, 0, 2⟩, ⟨1, 1, 3⟩])
        (unretired (Graph.build 4 [(0, 1), (1, 2), (2, 3)] [⟨0, 0, 2⟩, ⟨1, 1, 3⟩]) []) = .ok s₁ ∧
      s₁.run (Catalog.twoColours.problem [⟨0, 0, 2⟩, ⟨1, 1, 3⟩])
        (fun _ u _ ↦ ⟨u, List.mem_cons_self⟩) = .ok s₂ ∧
      s₂.assignColours (Catalog.twoColours.problem [⟨0, 0, 2⟩, ⟨1, 1, 3⟩]) = .ok s ∧
      s.work.spilled = [] := by
  have hgreedy : (Graph.build (r := 7) 4 [(0, 1), (1, 2), (2, 3)]
      [⟨0, 0, 2⟩, ⟨1, 1, 3⟩]).IsGreedilyColourable Catalog.twoColours.colourCount :=
    ⟨[0, 1, 2, 3], by decide, by decide, by decide⟩
  have halone : AreAlone (Catalog.twoColours.problem [⟨0, 0, 2⟩, ⟨1, 1, 3⟩])
      (Graph.build (r := 7) 4 [(0, 1), (1, 2), (2, 3)] [⟨0, 0, 2⟩, ⟨1, 1, 3⟩]) [] :=
    fun _ hu ↦ absurd hu List.not_mem_nil
  obtain ⟨-, s₁, s₂, s, hok₁, hok₂, -, hok, hnil, -⟩ :=
    exists_unspilled Catalog.ofNames?_twoColours 4 [(0, 1), (1, 2), (2, 3)]
      [⟨0, 0, 2⟩, ⟨1, 1, 3⟩] [] hgreedy halone fun _ u _ ↦ ⟨u, List.mem_cons_self⟩
  exact ⟨hgreedy, halone, s₁, s₂, s, hok₁, hok₂, hok, hnil⟩

end Colouring

end RegAlloc

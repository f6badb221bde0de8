import Mathlib
import RegAlloc.Proofs.Colouring.Change

/-!
# Runs end and finish every node

Whatever is chosen to be spilled at each step, the number of steps is bounded by the `potential` of
the colouring that they start from. When no step is left, every node that is to be coloured has been
selected or coalesced, and every move has been decided.

A move that waits could be left over only if nobody ever gave it up. The nodes that represent its
ends give up their moves before they leave the graph, unless both of them are physical registers,
and between those no move waits: `NoneStuck`.
-/

namespace RegAlloc.Colouring

variable {n m : Nat} {p : ColouringProblem n m} {g : Graph n (Fin m)} {retired : List Nat}
  {s s' : Colouring n m} {count : Nat}

/-! ## Counted steps -/

/-- So many steps lead from `s` to another colouring. Each of them may choose the node to spill in
another way. -/
inductive Steps (p : ColouringProblem n m) (s : Colouring n m) : Nat → Colouring n m → Prop
  | refl : Steps p s 0 s
  | tail {count : Nat} {s₁ s₂ : Colouring n m} (h : Steps p s count s₁) (choose : SpillChoice n m)
    (hs : s₁.step? p choose = some (.ok s₂)) : Steps p s (count + 1) s₂

namespace Steps

theorem head {s₁ : Colouring n m} {choose : SpillChoice n m}
    (hs : s.step? p choose = some (.ok s₁)) (h : Steps p s₁ count s') :
    Steps p s (count + 1) s' := by
  induction h with
  | refl => exact .tail .refl choose hs
  | tail _ choose' hs' ih => exact .tail ih choose' hs'

theorem reachable (h : Steps p s count s') (hs : Reachable p g retired s) :
    Reachable p g retired s' := by
  induction h with
  | refl => exact hs
  | tail _ choose hs' ih => exact .step ih choose hs'

/-- Each of the steps has lowered the potential. -/
theorem add_potential_le (h : Steps p s count s') (hs : Settled p s) :
    Settled p s' ∧ count + s'.potential ≤ s.potential := by
  induction h with
  | refl => exact ⟨hs, by omega⟩
  | tail _ choose hs' ih =>
    obtain ⟨hset, hle⟩ := ih
    rcases hset.step choose with hnone | ⟨s₂, hsome, hadv⟩
    · rw [hnone] at hs'
      cases hs'
    · rw [hsome] at hs'
      cases hs'
      have hlt := hadv.progress.potential_lt
      exact ⟨hadv.settled, by omega⟩

theorem grows (h : Steps p s count s') (hs : Settled p s) : Grows s s' := by
  induction h with
  | refl => exact .refl s
  | tail h choose hs' ih =>
    rcases (h.add_potential_le hs).1.step choose with hnone | ⟨s₂, hsome, hadv⟩
    · rw [hnone] at hs'
      cases hs'
    · rw [hsome] at hs'
      cases hs'
      exact ih.trans hadv.grows

theorem count_le (h : Steps p s count s') (hs : Settled p s) : count ≤ (n + 1) * (m + 3) := by
  have hle := (h.add_potential_le hs).2
  have hlt := s.potential_lt_fuel
  omega

end Steps

/-- A run takes steps until none is left. -/
theorem steps_of_runWithin {choose : SpillChoice n m} {fuel : Nat}
    (h : s.runWithin p choose fuel = .ok s') :
    ∃ count, Steps p s count s' ∧ s'.step? p choose = none := by
  induction fuel generalizing s with
  | zero => cases h
  | succ fuel ih =>
    rw [runWithin] at h
    split at h
    · rename_i hnone
      cases h
      exact ⟨0, .refl, hnone⟩
    · rename_i next hnext
      obtain ⟨s₁, hs₁, hrun⟩ := bind_eq_ok_iff.1 h
      rw [hs₁] at hnext
      split at hrun
      · obtain ⟨count, hsteps, hnone⟩ := ih hrun
        exact ⟨count + 1, .head hnext hsteps, hnone⟩
      · cases hrun

/-! ## Moves that wait -/

/-- No move that waits has physical registers at both ends. -/
def NoneStuck (p : ColouringProblem n m) (s : Colouring n m) : Prop :=
  ∀ i, s.move.get i = .active →
    s.graph.isPrecoloured (s.rep (p.moves.get i).dst) = false ∨
      s.graph.isPrecoloured (s.rep (p.moves.get i).src) = false

/-- What waits has waited before, between the same nodes. -/
theorem NoneStuck.congr (h : NoneStuck p s)
    (hp : ∀ x, s'.graph.isPrecoloured x = s.graph.isPrecoloured x)
    (hm : ∀ i, s'.move.get i = .active → s.move.get i = .active ∧
      s'.rep (p.moves.get i).dst = s.rep (p.moves.get i).dst ∧
      s'.rep (p.moves.get i).src = s.rep (p.moves.get i).src) : NoneStuck p s' := by
  intro i hi
  obtain ⟨hact, hdst, hsrc⟩ := hm i hi
  rw [hdst, hsrc, hp, hp]
  exact h i hact

theorem NoneStuck.stirs (h : NoneStuck p s) (hs : Stirs s s') : NoneStuck p s' :=
  h.congr hs.isPrecoloured fun i hi ↦ ⟨hs.active i hi, hs.rep _, hs.rep _⟩

theorem NoneStuck.coalesces {u v : Fin n} (h : NoneStuck p s) (hs : Sound p s)
    (hc : Coalesces p s s' u v) : NoneStuck p s' := by
  have hur := isRoot_of_isPresent hc.isPresent
  refine h.congr (fun x ↦ ?_) fun i hi ↦ ?_
  · rw [hc.shifts.isPrecoloured, merge_isPrecoloured]
  · -- the moves of `v` have been enabled, so the ends of `i` are represented as before
    obtain ⟨hact, hnot⟩ := hc.active i hi
    rw [hs.mem_moves (isRoot_of_isOpen hc.isOpen), not_or] at hnot
    refine ⟨hact, ?_, ?_⟩
    · rw [hc.shifts.rep, rep_merge hs.aliases hc.isOpen hur hc.ne, if_neg hnot.1]
    · rw [hc.shifts.rep, rep_merge hs.aliases hc.isOpen hur hc.ne, if_neg hnot.2]

theorem NoneStuck.change (h : NoneStuck p s) (hs : Sound p s) (hc : Change p s s') :
    NoneStuck p s' := by
  cases hc with
  | select u hu hst =>
    have hsel : NoneStuck p (s.setNode u .selected) :=
      h.congr (fun _ ↦ rfl) fun i hi ↦
        ⟨hi, rep_select (by rw [hu]; rfl) _, rep_select (by rw [hu]; rfl) _⟩
    exact hsel.stirs hst
  | stir hst => exact h.stirs hst
  | wait i hi hsh hm =>
    intro j hj
    rw [hsh.rep, hsh.rep, hsh.isPrecoloured, hsh.isPrecoloured]
    rcases hm j hj with rfl | hj
    · exact hi
    · exact h j hj
  | coalesce u v hc => exact h.coalesces hs hc
  | choose u hu hs hf hst =>
    have hnote := Quiet.note s (.potentialSpill u (s.graph.degree.get u))
    have hn : NoneStuck p (s.note (.potentialSpill u (s.graph.degree.get u))) :=
      h.congr (fun _ ↦ rfl) fun i hi ↦ ⟨hi, hnote.rep _, hnote.rep _⟩
    exact hn.stirs hst

theorem Reachable.noneStuck (h₀ : Settled p (Colouring.start g)) (h : Reachable p g retired s) :
    NoneStuck p s := by
  induction h with
  | start hok =>
    have hstart : NoneStuck p (Colouring.start g) := by
      intro i hi
      simp [Colouring.start] at hi
    exact hstart.stirs (.makeWorklist (fun _ _ ↦ start_isPresent _) hok)
  | step h choose hs ih =>
    have hset := (h.settled h₀).1
    exact ih.change hset.sound (hset.change hs)

/-! ## No step is left -/

/-- No move is to be looked at when no work is left. -/
theorem Settled.done_move (h : Settled p s) {choose : SpillChoice n m}
    (hs : s.step? p choose = none) (i : Fin m) : s.move.get i ≠ .worklist := by
  have hempty : s.work.worklistMoves.toList = [] := by
    unfold step? at hs
    split at hs <;> simp_all
  rw [Ne, ← h.sound.mirror.mem_worklistMoves, ← BitSet.mem_toList, hempty]
  exact List.not_mem_nil

/-- Everything that is to be done to the nodes of `g` that are not `retired` has been done. -/
structure IsFinished (g : Graph n (Fin m)) (retired : List Nat) (s : Colouring n m) : Prop where
  node : ∀ u ∈ unretired g retired,
    s.node.get u = .selected ∨ ∃ v, s.node.get u = .coalesced v
  mem_stack : ∀ u, u ∈ s.work.stack ↔ s.node.get u = .selected
  nodup_stack : s.work.stack.Nodup

/-- No end of a move is retired. -/
def AreCurrent (p : ColouringProblem n m) (retired : List Nat) : Prop :=
  ∀ u : Fin n, IsEnd p u → u.val ∉ retired

/-- Every move has been decided. -/
def IsDecided (s : Colouring n m) : Prop :=
  ∀ i, s.move.get i = .coalesced ∨ s.move.get i = .constrained ∨ s.move.get i = .frozen

section Done

variable {choose : SpillChoice n m}

theorem Reachable.isFinished (h₀ : Settled p (Colouring.start g)) (h : Reachable p g retired s)
    (hs : s.step? p choose = none) : IsFinished g retired s := by
  obtain ⟨hset, hv, hinit⟩ := h.settled h₀
  refine ⟨fun u hu ↦ ?_, hset.sound.mirror.mem_stack, hset.sound.mirror.nodup_stack⟩
  have hnode := (hset.wellKept hv hinit).node u hu
  have hlisted := hset.done hs u
  rcases hnode with he | he | he | he | he
  · rw [he] at hlisted
    cases hlisted
  · rw [he] at hlisted
    cases hlisted
  · rw [he] at hlisted
    cases hlisted
  · exact .inl he
  · exact .inr he

/-- A virtual register that represents an end of a pending move is in the lists of work. -/
theorem Reachable.isListed_of_isPending (h₀ : Settled p (Colouring.start g))
    (h : Reachable p g retired s) (hcur : AreCurrent p retired) {i : Fin m}
    (hi : s.isPending i = true) {x : Fin n} (hend : IsEnd p x)
    (hx : s.rep (p.moves.get i).dst = s.rep x ∨ s.rep (p.moves.get i).src = s.rep x)
    (hpre : s.graph.isPrecoloured (s.rep x) = false) :
    (s.node.get (s.rep x)).isListed = true := by
  obtain ⟨hset, hv, hinit⟩ := h.settled h₀
  have hmem : s.rep x ∈ unretired g retired := by
    have hpre' : g.isPrecoloured (s.rep x) = false := by rwa [Graph.isPrecoloured, ← hv]
    have hret := hcur _ (hset.sound.isEnd_rep hend)
    simp [unretired, hpre', hret]
  have hsel := hset.node_rep_ne_selected hi hx
  have hroot := hset.sound.aliases.isRoot_rep x
  rcases (hset.wellKept hv hinit).node _ hmem with he | he | he | he | ⟨v, he⟩
  · rw [he]
    rfl
  · rw [he]
    rfl
  · rw [he]
    rfl
  · exact absurd he hsel
  · exact absurd he (hroot v)

theorem Reachable.isDecided (h₀ : Settled p (Colouring.start g)) (h : Reachable p g retired s)
    (hcur : AreCurrent p retired) (hs : s.step? p choose = none) : IsDecided s := by
  have hset := (h.settled h₀).1
  intro i
  cases hi : s.move.get i with
  | worklist => exact absurd hi (hset.done_move hs i)
  | active =>
    exfalso
    have hpend : s.isPending i = true := by rw [isPending, hi]; rfl
    have hdone : ∀ x, IsEnd p x → (s.rep (p.moves.get i).dst = s.rep x ∨
        s.rep (p.moves.get i).src = s.rep x) → s.graph.isPrecoloured (s.rep x) = true := by
      intro x hend hx
      by_contra hpre
      rw [Bool.not_eq_true] at hpre
      have hlisted := h.isListed_of_isPending h₀ hcur hpend hend hx hpre
      rw [hset.done hs] at hlisted
      cases hlisted
    rcases h.noneStuck h₀ i hi with hpre | hpre
    · rw [hdone _ ⟨i, .inl rfl⟩ (.inl rfl)] at hpre
      cases hpre
    · rw [hdone _ ⟨i, .inr rfl⟩ (.inr rfl)] at hpre
      cases hpre
  | coalesced => exact .inl rfl
  | constrained => exact .inr (.inl rfl)
  | frozen => exact .inr (.inr rfl)

end Done

end RegAlloc.Colouring

import Mathlib
import RegAlloc.Proofs.Colouring.Select
import RegAlloc.Proofs.Colouring.Termination

/-!
# Coalesced moves

The two ends of a move that has been coalesced are represented by one node. This holds when the move
is coalesced, and from then on whatever else is coalesced into that node, or that node into: nodes
that are represented alike stay so. In the end they have one colour.
-/

namespace RegAlloc.Colouring

variable {n m : Nat} {p : ColouringProblem n m} {s s' s'' : Colouring n m} {u v : Fin n}
  {g : Graph n (Fin m)} {retired : List Nat}

/-! ## Representatives -/

theorem Coalesces.rep_eq (h : Coalesces p s s' u v) (hs : Sound p s) (x : Fin n) :
    s'.rep x = if s.rep x = v then u else s.rep x := by
  rw [h.shifts.rep, rep_merge hs.aliases h.isOpen (isRoot_of_isPresent h.isPresent) h.ne]

/-- Nodes that are represented alike stay so. -/
theorem Change.rep_congr (hc : Change p s s') (hs : Sound p s) {x y : Fin n}
    (h : s.rep x = s.rep y) : s'.rep x = s'.rep y := by
  cases hc with
  | select u hu hst =>
    rw [hst.rep, hst.rep, rep_select (by rw [hu]; rfl), rep_select (by rw [hu]; rfl), h]
  | stir hst => rw [hst.rep, hst.rep, h]
  | wait i hi hsh => rw [hsh.rep, hsh.rep, h]
  | coalesce u v hc => rw [hc.rep_eq hs, hc.rep_eq hs, h]
  | choose u hu _ _ hst =>
    have hnote := Quiet.note s (.potentialSpill u (s.graph.degree.get u))
    rw [hst.rep, hst.rep, hnote.rep, hnote.rep, h]

theorem ends_cases {i : Fin m} (he : s.ends p i = (u, v)) :
    (s.rep (p.moves.get i).dst = u ∧ s.rep (p.moves.get i).src = v) ∨
      (s.rep (p.moves.get i).dst = v ∧ s.rep (p.moves.get i).src = u) := by
  unfold ends at he
  simp only at he
  split at he <;> obtain ⟨rfl, rfl⟩ := Prod.mk.inj he
  · exact .inr ⟨rfl, rfl⟩
  · exact .inl ⟨rfl, rfl⟩

/-! ## Where no move is coalesced -/

/-- No move has been coalesced on the way. -/
def Abstains (s s' : Colouring n m) : Prop :=
  ∀ i, s'.move.get i = .coalesced → s.move.get i = .coalesced

namespace Abstains

theorem of_eq (h : s'.move = s.move) : Abstains s s' := by
  intro i
  rw [h]
  exact id

theorem refl (s : Colouring n m) : Abstains s s :=
  fun _ ↦ id

theorem trans (h : Abstains s s') (h' : Abstains s' s'') : Abstains s s'' :=
  fun i hi ↦ h i (h' i hi)

theorem foldl {α : Type} {f : Colouring n m → α → Colouring n m} (h : ∀ s a, Abstains s (f s a))
    (as : List α) (s : Colouring n m) : Abstains s (as.foldl f s) := by
  induction as generalizing s with
  | nil => exact refl s
  | cons hd tl ih => exact (h s hd).trans (ih (f s hd))

theorem foldlM {α : Type} {f : Colouring n m → α → Except Fault (Colouring n m)}
    (h : ∀ {s a s'}, f s a = .ok s' → Abstains s s') {as : List α}
    (hok : as.foldlM f s = .ok s') : Abstains s s' :=
  foldlM_induct (fun _ s₁ ↦ Abstains s s₁) (fun _ _ _ _ h₁ hok ↦ h₁.trans (h hok)) (refl s) hok

theorem setMove (s : Colouring n m) (i : Fin m) {st : MoveState} (hst : st ≠ .coalesced) :
    Abstains s (s.setMove i st) := by
  intro j hj
  rw [setMove_move] at hj
  split at hj
  · exact absurd hj hst
  · exact hj

theorem setNode (s : Colouring n m) (u : Fin n) (st : NodeState n) : Abstains s (s.setNode u st) :=
  of_eq rfl

theorem transition {st : NodeState n} (hok : s.transition u st = .ok s') : Abstains s s' := by
  obtain ⟨-, rfl⟩ := transition_eq_ok_iff.1 hok
  exact setNode s u st

theorem enableMove (s : Colouring n m) (i : Fin m) : Abstains s (s.enableMove i) := by
  unfold Colouring.enableMove
  split
  · exact setMove s i (by decide)
  · exact refl s

theorem enableMoves (s : Colouring n m) (us : List (Fin n)) : Abstains s (s.enableMoves us) :=
  foldl (fun s u ↦ foldl enableMove (s.nodeMoves u) s) us s

theorem decrementDegree (hok : s.decrementDegree p u = .ok s') : Abstains s s' := by
  unfold Colouring.decrementDegree at hok
  split at hok
  · cases hok
    exact refl s
  split at hok
  · cases hok
  rename_i d hd
  have hset : Abstains s (s.setDegree u d) := of_eq rfl
  split at hok
  · exact (hset.trans (enableMoves _ _)).trans (transition hok)
  · cases hok
    exact hset

theorem addWorklist (s : Colouring n m) (u : Fin n) : Abstains s (s.addWorklist p u) := by
  unfold Colouring.addWorklist
  split
  · exact setNode s u .simplify
  · exact refl s

theorem freezeMove {i : Fin m} (hok : freezeMove p u s i = .ok s') : Abstains s s' := by
  unfold Colouring.freezeMove at hok
  obtain ⟨s₁, h₁, hok⟩ := bind_eq_ok_iff.1 hok
  cases hok
  obtain ⟨-, rfl⟩ := transitionMove_eq_ok_iff.1 h₁
  exact (setMove s i (by decide)).trans (addWorklist _ _)

/-- A node is made ready to be simplified. -/
theorem wake (hok : s.freeze p u = .ok s') : Abstains s s' :=
  (setNode s u .simplify).trans (foldlM freezeMove (freezeMoves_of_freeze hok))

theorem simplify (hok : s.simplify p u = .ok s') : Abstains s s' :=
  (setNode s u .selected).trans (foldlM decrementDegree (foldlM_of_simplify hok))

theorem combine (hok : s.combine p u v = .ok s') : Abstains s s' := by
  unfold Colouring.combine at hok
  obtain ⟨s₁, h₁, hok⟩ := bind_eq_ok_iff.1 hok
  obtain ⟨s₂, h₂, hok⟩ := bind_eq_ok_iff.1 hok
  have hnote : Abstains s (s.note (.combine u v)) := of_eq rfl
  have htake : Abstains s₁
      { s₁ with graph := (s₁.graph.moves.get v).foldl (fun g i ↦ g.addMove u i) s₁.graph } :=
    of_eq rfl
  have hmerge := (hnote.trans (transition h₁)).trans htake
  have hforward := foldlM (s := Colouring.enableMoves _ [v])
    (fun {s t s'} hok ↦ (of_eq (addEdge_move s t u)).trans (decrementDegree hok)) h₂
  have hend : Abstains s₂ s' := by
    cases hok
    split
    · exact setNode s₂ u .spill
    · exact refl s₂
  exact ((hmerge.trans (enableMoves _ [v])).trans hforward).trans hend

theorem makeWorklist {us : List (Fin n)} (hok : s.makeWorklist p us = .ok s') : Abstains s s' :=
  foldlM transition hok

theorem colourNode (hok : s.colourNode p u = .ok s') : Abstains s s' := by
  unfold Colouring.colourNode at hok
  split at hok
  · rename_i c _
    have hset : Abstains s (s.setColour u c) := of_eq rfl
    exact hset.trans (transition hok)
  · have hnote : Abstains s (s.note (.noColour u)) := of_eq rfl
    exact hnote.trans (transition hok)

theorem assignColours (hok : s.assignColours p = .ok s') : Abstains s s' := by
  obtain ⟨s₁, h₁, hok⟩ := bind_eq_ok_iff.1 hok
  cases hok
  have hnote : Abstains s { s.note .select with work.stack := [] } := of_eq rfl
  have hinherit : ∀ (s : Colouring n m) u, Abstains s (s.inheritColour u) := fun _ _ ↦ of_eq rfl
  exact (hnote.trans (foldlM colourNode h₁)).trans (foldl hinherit s₁.work.coalesced s₁)

end Abstains

/-! ## Steps and runs -/

/-- The ends of every move that has been coalesced are represented alike. -/
def Merged (p : ColouringProblem n m) (s : Colouring n m) : Prop :=
  ∀ i, s.move.get i = .coalesced → s.rep (p.moves.get i).dst = s.rep (p.moves.get i).src

/-- A move is coalesced by the step that makes one node of its ends. -/
theorem Settled.merged_coalesce {i j : Fin m} (h : Settled p s) (hi : s.move.get i = .worklist)
    (hok : s.coalesce p i = .ok s') (hj : s'.move.get j = .coalesced) :
    s.move.get j = .coalesced ∨ s'.rep (p.moves.get j).dst = s'.rep (p.moves.get j).src := by
  have hchange := h.change_coalesce hi hok
  obtain ⟨⟨u, v⟩, he⟩ : ∃ e, s.ends p i = e := ⟨_, rfl⟩
  have ha : Attempt p (s.note (.attempt i u v)) i u v := Attempt.note ⟨h, hi, he⟩ _
  -- a move other than `i` is coalesced only if it was before
  have hset : ∀ {s₁ : Colouring n m}, Abstains ((s.note (.attempt i u v)).setMove i .coalesced) s₁ →
      s₁.move.get j = .coalesced → j = i ∨ s.move.get j = .coalesced := by
    intro s₁ habs hj
    have hj := habs j hj
    rw [setMove_move] at hj
    split at hj
    · exact .inl ‹_›
    · exact .inr hj
  rw [coalesce_of_worklist hi he] at hok
  dsimp only at hok
  split at hok
  · rename_i huv
    cases hok
    rcases hset (.addWorklist _ u) hj with rfl | hj
    · refine .inr (hchange.rep_congr h.sound ?_)
      rcases ends_cases he with ⟨hdst, hsrc⟩ | ⟨hdst, hsrc⟩ <;> rw [hdst, hsrc, huv]
    · exact .inl hj
  rename_i huv
  split at hok
  · cases hok
    have hgive : Abstains s ((s.note (.attempt i u v)).setMove i .constrained) :=
      .setMove (s.note (.attempt i u v)) i (by decide)
    exact .inl (((hgive.trans (.addWorklist _ u)).trans (.addWorklist _ v)) j hj)
  rename_i hfree
  simp only [Bool.or_eq_true, not_or, Bool.not_eq_true] at hfree
  obtain ⟨⟨hv, hni⟩, -⟩ := hfree
  split at hok
  · rename_i hcan
    obtain ⟨s₁, hok₁, hok⟩ := bind_eq_ok_iff.1 hok
    cases hok
    rcases hset ((Abstains.combine hok₁).trans (.addWorklist s₁ u)) hj with rfl | hj
    · have hrep := (ha.coalesces huv hv hni hcan hok₁).rep_eq ha.settled.sound
      have hnote := (Quiet.note s (.attempt j u v)).rep
      rw [hrep, hrep, hnote, hnote]
      rcases ends_cases he with ⟨hdst, hsrc⟩ | ⟨hdst, hsrc⟩ <;> simp [hdst, hsrc, huv]
    · exact .inl hj
  · cases hok
    have hwait : Abstains s ((s.note (.attempt i u v)).setMove i .active) :=
      .setMove (s.note (.attempt i u v)) i (by decide)
    exact .inl (hwait j hj)

theorem Settled.merged_step (h : Settled p s) {choose : SpillChoice n m}
    (hok : s.step? p choose = some (.ok s')) (hm : Merged p s) : Merged p s' := by
  have hchange := h.change hok
  intro j hj
  suffices hold : s.move.get j = .coalesced ∨
      s'.rep (p.moves.get j).dst = s'.rep (p.moves.get j).src from
    hold.elim (fun hj ↦ hchange.rep_congr h.sound (hm j hj)) id
  rcases step?_cases hok with ⟨u, hp⟩ | ⟨i, hi, hok⟩ | ⟨u, -, hok⟩ | ⟨u, hc⟩
  · exact .inl (Abstains.simplify hp.eq_ok j hj)
  · exact h.merged_coalesce ((h.sound.mirror.mem_worklistMoves i).1 hi) hok hj
  · exact .inl (Abstains.wake hok j hj)
  · exact .inl (Abstains.wake hc.eq_ok j hj)

theorem Reachable.merged (h₀ : Settled p (Colouring.start g)) (h : Reachable p g retired s) :
    Merged p s := by
  induction h with
  | start hok =>
    intro i hi
    have hstart := Abstains.makeWorklist hok i hi
    simp [Colouring.start] at hstart
  | step h choose hs ih => exact (h.settled h₀).1.merged_step hs ih

/-- In the end the ends of a coalesced move are represented alike, and have one colour. -/
theorem merged_of_attempt {choose : SpillChoice n m} (h₀ : Settled p (start g))
    (hok : attempt p choose retired g = .ok s) {i : Fin m} (hi : s.move.get i = .coalesced) :
    s.rep (p.moves.get i).dst = s.rep (p.moves.get i).src ∧
      s.colour.get (p.moves.get i).dst = s.colour.get (p.moves.get i).src := by
  obtain ⟨s₁, s₂, hok₁, hok₂, hok₃, -, hsel⟩ := isDone_of_attempt h₀ hok
  obtain ⟨count, hsteps, -⟩ := steps_of_runWithin hok₂
  have hmerged := (hsteps.reachable (.start hok₁)).merged h₀
  have hrep := hmerged i (Abstains.assignColours hok₃ i hi)
  exact ⟨by rw [hsel.rep, hsel.rep, hrep], by rw [hsel.colour_eq, hrep, ← hsel.colour_eq]⟩

end RegAlloc.Colouring

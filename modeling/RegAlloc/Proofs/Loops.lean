import Mathlib
import RegAlloc.Proofs.Assignment

/-!
# Loops are where the cycles are

The depth-first search leaves a node for good when all its edges have been looked at. Listed by the
time at which they are left, the last one first, every edge leads from a node to a later one of the
list, unless it was found to go back (`Search.Orders`). So of the nodes of a strongly connected part
of the graph the first of the list is a header: an edge to it from within the part would lead to an
earlier node if it were not one that goes back. All the other nodes of the part can reach the source
of such an edge without passing the header, which is what `gather` looks for.

An edge that goes back closes a cycle, since its target is on the path to its source
(`Search.Closes`). But a node from which the source can be reached need not be on a cycle, unless
all the ways to the source pass the header.
-/

namespace RegAlloc

open Relation

/-! ## Ways around a node -/

section Avoiding

variable {α : Type} {edge : α → α → Prop} {a b c h : α}

/-- An edge with neither end at `h`. -/
def Avoiding (edge : α → α → Prop) (h x y : α) : Prop :=
  x ≠ h ∧ y ≠ h ∧ edge x y

theorem reflTransGen_of_avoiding (hab : ReflTransGen (Avoiding edge h) a b) :
    ReflTransGen edge a b :=
  ReflTransGen.mono (fun _ _ hxy ↦ hxy.2.2) _ _ hab

/-- A way passes a node or avoids it. -/
theorem passes_or_avoids (hab : ReflTransGen edge a b) (h : α) :
    (ReflTransGen edge a h ∧ ReflTransGen edge h b) ∨
      (b ≠ h ∧ ReflTransGen (Avoiding edge h) a b) := by
  induction hab with
  | refl =>
    by_cases ha : a = h
    · subst ha
      exact .inl ⟨.refl, .refl⟩
    · exact .inr ⟨ha, .refl⟩
  | @tail b c hab hbc ih =>
    rcases ih with ⟨hah, hhb⟩ | ⟨hb, hav⟩
    · exact .inl ⟨hah, hhb.tail hbc⟩
    · by_cases hc : c = h
      · subst hc
        exact .inl ⟨hab.tail hbc, .refl⟩
      · exact .inr ⟨hc, hav.tail ⟨hb, hc, hbc⟩⟩

/-- A way to a node ends with an edge to it, and avoids it up to there. -/
theorem exists_avoiding_of_ne (hah : ReflTransGen edge a h) (hne : a ≠ h) :
    ∃ x, x ≠ h ∧ ReflTransGen (Avoiding edge h) a x ∧ edge x h := by
  induction hah using ReflTransGen.head_induction_on with
  | refl => exact absurd rfl hne
  | @head a b hab _ ih =>
    by_cases hb : b = h
    · subst hb
      exact ⟨a, hne, .refl, hab⟩
    · obtain ⟨x, hx, hav, hxh⟩ := ih hb
      exact ⟨x, hx, hav.head ⟨hne, hb, hab⟩, hxh⟩

/-- The nodes on a way that avoids `h`. -/
theorem exists_isChain_of_avoiding (hab : ReflTransGen (Avoiding edge h) a b) (hb : b ≠ h) :
    ∃ way : List α, way.head? = some a ∧ way.getLast? = some b ∧ way.IsChain edge ∧ h ∉ way := by
  induction hab using ReflTransGen.head_induction_on with
  | refl => exact ⟨[b], rfl, rfl, .singleton b, by simpa using hb.symm⟩
  | @head a c hac _ ih =>
    obtain ⟨way, hhead, hlast, hchain, hnot⟩ := ih
    refine ⟨a :: way, rfl, ?_, List.isChain_cons.2 ⟨?_, hchain⟩, ?_⟩
    · rw [List.getLast?_cons, hlast]
      rfl
    · intro y hy
      rw [hhead, Option.mem_some_iff] at hy
      exact hy ▸ hac.2.2
    · rw [List.mem_cons, not_or]
      exact ⟨hac.1.symm, hnot⟩

end Avoiding

/-! ## Gathering -/

section Gather

variable {α : Type} [DecidableEq α] {next : α → List α} {fuel : Nat} {domain pending : List α}
  {a b p : α}

/-- An edge between nodes of the domain. -/
def Inside (next : α → List α) (domain : List α) (x y : α) : Prop :=
  x ∈ domain ∧ y ∈ domain ∧ y ∈ next x

theorem reflTransGen_inside_of_erase (h : ReflTransGen (Inside next (domain.erase a)) p b) :
    ReflTransGen (Inside next domain) p b :=
  ReflTransGen.mono
    (fun _ _ hxy ↦ ⟨List.mem_of_mem_erase hxy.1, List.mem_of_mem_erase hxy.2.1, hxy.2.2⟩) _ _ h

/-- If a node is taken out of the domain, the end of a way can still be reached, from where it
started or from a node that comes next to the one taken out. -/
theorem exists_inside_erase (hnd : domain.Nodup) (h : ReflTransGen (Inside next domain) p b)
    (hp : p ∈ domain) (hne : b ≠ a) :
    ∃ q, (q = p ∨ q ∈ next a) ∧ q ∈ domain.erase a ∧
      ReflTransGen (Inside next (domain.erase a)) q b := by
  induction h with
  | refl => exact ⟨p, .inl rfl, hnd.mem_erase_iff.2 ⟨hne, hp⟩, .refl⟩
  | @tail b c _ hbc ih =>
    have hc : c ∈ domain.erase a := hnd.mem_erase_iff.2 ⟨hne, hbc.2.1⟩
    by_cases hb : b = a
    · subst hb
      exact ⟨c, .inr hbc.2.2, hc, .refl⟩
    · obtain ⟨q, hq, hmem, hway⟩ := ih hb
      exact ⟨q, hq, hmem, hway.tail ⟨hnd.mem_erase_iff.2 ⟨hb, hbc.1⟩, hc, hbc.2.2⟩⟩

/-- What is gathered is what can be reached from the pending nodes inside of the domain. -/
theorem mem_gather_iff (hnd : domain.Nodup) (hfuel : domain.length ≤ fuel) :
    b ∈ gather next fuel domain pending ↔
      ∃ p ∈ pending, p ∈ domain ∧ ReflTransGen (Inside next domain) p b := by
  induction fuel generalizing domain pending with
  | zero =>
    obtain rfl : domain = [] := List.eq_nil_of_length_eq_zero (Nat.le_zero.1 hfuel)
    simp [gather]
  | succ fuel ih =>
    rw [gather]
    split
    · rename_i hnone
      rw [List.find?_eq_none] at hnone
      constructor
      · intro hb
        cases hb
      · rintro ⟨p, hp, hmem, -⟩
        exact absurd hmem (by simpa using hnone p hp)
    · rename_i a hsome
      have ha : a ∈ domain := by simpa using List.find?_some hsome
      have hlen : (domain.erase a).length ≤ fuel := by
        rw [List.length_erase_of_mem ha]
        omega
      rw [List.mem_cons, ih (hnd.erase a) hlen]
      constructor
      · rintro (rfl | ⟨p, hp, hmem, hway⟩)
        · exact ⟨b, List.mem_of_find?_eq_some hsome, ha, .refl⟩
        · have hway := reflTransGen_inside_of_erase hway
          have hmem := List.mem_of_mem_erase hmem
          rcases List.mem_append.1 hp with hp | hp
          · exact ⟨a, List.mem_of_find?_eq_some hsome, ha, hway.head ⟨ha, hmem, hp⟩⟩
          · exact ⟨p, hp, hmem, hway⟩
      · rintro ⟨p, hp, hmem, hway⟩
        by_cases hb : b = a
        · exact .inl hb
        · obtain ⟨q, hq, hmem, hway⟩ := exists_inside_erase hnd hway hmem hb
          refine .inr ⟨q, List.mem_append.2 ?_, hmem, hway⟩
          rcases hq with rfl | hq
          · exact .inr hp
          · exact .inl hq

end Gather

/-! ## The order in which nodes are left -/

/-- The first element of a list with some property has none with it in front. -/
theorem not_of_sublist_of_find? {α : Type} {l : List α} (hnd : l.Nodup) {p : α → Bool} {x y : α}
    (hy : l.find? p = some y) (hxy : [x, y].Sublist l) : p x = false := by
  induction l with
  | nil => cases hy
  | cons a l ih =>
    obtain ⟨ha, hnd⟩ := List.nodup_cons.1 hnd
    rw [List.find?_cons] at hy
    cases hpa : p a with
    | true =>
      rw [hpa] at hy
      cases hy
      cases hxy with
      | cons _ h => exact absurd (h.subset (by simp)) ha
      | cons_cons _ h => exact absurd (List.singleton_sublist.1 h) ha
    | false =>
      rw [hpa] at hy
      cases hxy with
      | cons _ h => exact ih hnd hy h
      | cons_cons _ _ => exact hpa

namespace Search

variable {n : Nat} {next : Fin n → List (Fin n)} {a : Fin n} {s : Search (Fin n)}

/-- The nodes that have been seen: those of the path from the start on, and then the others from the
last one that was left to the first. Every edge leads to a later node, unless it is still to be
looked at or goes back. -/
structure Orders (next : Fin n → List (Fin n)) (s : Search (Fin n)) (order : List (Fin n)) :
    Prop where
  path : (s.path.map Prod.fst).reverse <+: order
  nodup : order.Nodup
  mem_seen : ∀ x, x ∈ s.seen ↔ x ∈ order
  edge : ∀ x ∈ order, ∀ y ∈ next x,
    (∃ bs, (x, bs) ∈ s.path ∧ y ∈ bs) ∨ (x, y) ∈ s.backEdges ∨ [x, y].Sublist order

theorem Orders.start (next : Fin n → List (Fin n)) (a : Fin n) :
    Orders next (start next a) [a] where
  path := List.prefix_rfl
  nodup := List.nodup_singleton a
  mem_seen _ := Iff.rfl
  edge x hx y hy := by
    rw [List.mem_singleton.1 hx] at hy ⊢
    exact .inl ⟨next a, List.mem_singleton_self _, hy⟩

/-- One edge has been looked at. -/
theorem pending_of_cons {c b x y : Fin n} {bs : List (Fin n)} {path : List (Fin n × List (Fin n))}
    (h : ∃ ys, (x, ys) ∈ (c, b :: bs) :: path ∧ y ∈ ys) :
    (x = c ∧ y = b) ∨ ∃ ys, (x, ys) ∈ (c, bs) :: path ∧ y ∈ ys := by
  obtain ⟨ys, hmem, hy⟩ := h
  rcases List.mem_cons.1 hmem with he | hmem
  · cases he
    rcases List.mem_cons.1 hy with rfl | hy
    · exact .inl ⟨rfl, rfl⟩
    · exact .inr ⟨bs, List.mem_cons_self, hy⟩
  · exact .inr ⟨ys, List.mem_cons_of_mem _ hmem, hy⟩

section Orders

variable {order rest bs : List (Fin n)} {c b : Fin n} {path : List (Fin n × List (Fin n))}

/-- A node that is left stays where it is. -/
theorem Orders.leave (h : Orders next s order) (hp : s.path = (c, []) :: path) :
    Orders next { s with path } order := by
  refine ⟨List.IsPrefix.trans ?_ h.path, h.nodup, h.mem_seen, fun x hx y hy ↦ ?_⟩
  · rw [hp, List.map_cons, List.reverse_cons]
    exact List.prefix_append _ _
  · refine (h.edge x hx y hy).imp_left ?_
    rintro ⟨ys, hmem, hys⟩
    rw [hp] at hmem
    rcases List.mem_cons.1 hmem with he | hmem
    · cases he
      cases hys
    · exact ⟨ys, hmem, hys⟩

/-- An edge is passed over if it goes back or leads down the list. -/
theorem Orders.pass {back : List (Fin n × Fin n)} (h : Orders next s order)
    (hp : s.path = (c, b :: bs) :: path) (hback : ∀ e ∈ s.backEdges, e ∈ back)
    (hnew : (c, b) ∈ back ∨ [c, b].Sublist order) :
    Orders next { s with path := (c, bs) :: path, backEdges := back } order := by
  refine ⟨?_, h.nodup, h.mem_seen, fun x hx y hy ↦ ?_⟩
  · have hpath := h.path
    rwa [hp] at hpath
  · rcases h.edge x hx y hy with hpend | hmem | hsub
    · rw [hp] at hpend
      rcases pending_of_cons hpend with ⟨rfl, rfl⟩ | hpend
      · exact .inr hnew
      · exact .inl hpend
    · exact .inr (.inl (hback _ hmem))
    · exact .inr (.inr hsub)

/-- A new node comes between the path and what has been left. -/
theorem Orders.follow (h : Orders next s ((s.path.map Prod.fst).reverse ++ rest))
    (hp : s.path = (c, b :: bs) :: path) (hb : b ∉ s.seen) :
    Orders next { s with path := (b, next b) :: (c, bs) :: path, seen := b :: s.seen }
      ((s.path.map Prod.fst).reverse ++ b :: rest) := by
  have hsub : ((s.path.map Prod.fst).reverse ++ rest).Sublist
      ((s.path.map Prod.fst).reverse ++ b :: rest) :=
    (List.Sublist.refl _).append (List.sublist_cons_self b rest)
  have hmem : ∀ x, x ∈ (s.path.map Prod.fst).reverse ++ b :: rest ↔
      x = b ∨ x ∈ (s.path.map Prod.fst).reverse ++ rest := by
    intro x
    simp only [List.mem_append, List.mem_cons]
    exact or_left_comm
  constructor
  · rw [hp]
    simp
  · rw [List.nodup_middle, List.nodup_cons, ← h.mem_seen]
    exact ⟨hb, h.nodup⟩
  · intro x
    rw [List.mem_cons, h.mem_seen, hmem]
  · intro x hx y hy
    rcases (hmem x).1 hx with rfl | hx
    · exact .inl ⟨next x, List.mem_cons_self, hy⟩
    · rcases h.edge x hx y hy with hpend | hback | hxy
      · rw [hp] at hpend
        rcases pending_of_cons hpend with ⟨rfl, rfl⟩ | ⟨ys, hys, hy⟩
        · have hc : x ∈ (s.path.map Prod.fst).reverse := by simp [hp]
          exact .inr (.inr ((List.singleton_sublist.2 hc).append
            (List.singleton_sublist.2 List.mem_cons_self)))
        · exact .inl ⟨ys, List.mem_cons_of_mem _ hys, hy⟩
      · exact .inr (.inl hback)
      · exact .inr (.inr (hxy.trans hsub))

theorem Orders.step (h : Orders next s order) : ∃ order, Orders next (s.step next) order := by
  obtain ⟨rest, rfl⟩ := h.path
  rcases step_cases next s with ⟨-, he⟩ | ⟨c, path, hp, he⟩ | ⟨c, b, bs, path, back, hp, hb, he⟩ |
    ⟨c, b, bs, path, hp, hb, he⟩
  · rw [he]
    exact ⟨_, h⟩
  · rw [he]
    exact ⟨_, h.leave hp⟩
  · rw [he]
    rcases hb with ⟨-, rfl⟩ | ⟨hpath, hseen, rfl⟩
    · exact ⟨_, h.pass hp (fun e ↦ List.mem_cons_of_mem _) (.inl List.mem_cons_self)⟩
    · -- what has been seen and is not on the path has been left
      rw [h.mem_seen, List.mem_append, List.mem_reverse] at hseen
      have hc : c ∈ (s.path.map Prod.fst).reverse := by simp [hp]
      have hrest := hseen.resolve_left hpath
      exact ⟨_, h.pass hp (fun e ↦ id) (.inr ((List.singleton_sublist.2 hc).append
        (List.singleton_sublist.2 hrest)))⟩
  · rw [he]
    exact ⟨_, h.follow hp hb⟩

end Orders

/-! ## Edges that go back -/

/-- Each node of the path comes next to the one before, so an edge back to the path closes a
cycle. -/
structure Closes (next : Fin n → List (Fin n)) (s : Search (Fin n)) : Prop where
  chain : (s.path.map Prod.fst).IsChain fun y x ↦ y ∈ next x
  back : ∀ e ∈ s.backEdges, e.1 ∈ s.seen ∧ e.2 ∈ next e.1 ∧
    ReflTransGen (fun x y ↦ y ∈ next x) e.2 e.1

theorem Closes.start (next : Fin n → List (Fin n)) (a : Fin n) : Closes next (start next a) where
  chain := .singleton a
  back e he := by cases he

/-- From all the nodes of a path its end can be reached. -/
theorem reflTransGen_of_isChain {c q : Fin n} {qs : List (Fin n)}
    (h : (c :: qs).IsChain fun y x ↦ y ∈ next x) (hq : q ∈ c :: qs) :
    ReflTransGen (fun x y ↦ y ∈ next x) q c := by
  induction qs generalizing c with
  | nil =>
    rw [List.mem_singleton.1 hq]
  | cons d qs ih =>
    rcases List.mem_cons.1 hq with rfl | hq
    · exact .refl
    · obtain ⟨hcd, hchain⟩ := List.isChain_cons_cons.1 h
      exact (ih hchain hq).tail hcd

theorem Closes.step (h : Closes next s) (hfol : Follows next a s) : Closes next (s.step next) := by
  rcases step_cases next s with ⟨-, he⟩ | ⟨c, path, hp, he⟩ | ⟨c, b, bs, path, back, hp, hb, he⟩ |
    ⟨c, b, bs, path, hp, -, he⟩
  · rwa [he]
  · rw [he]
    refine ⟨?_, h.back⟩
    have hchain := h.chain
    rw [hp] at hchain
    exact hchain.tail
  · rw [he]
    have hchain := h.chain
    rw [hp] at hchain
    refine ⟨hchain, ?_⟩
    rcases hb with ⟨hb, rfl⟩ | ⟨-, -, rfl⟩
    · intro e hmem
      rcases List.mem_cons.1 hmem with rfl | hmem
      · obtain ⟨hc, hnext⟩ := hfol.path (c, b :: bs) (hp ▸ List.mem_cons_self)
        rw [hp] at hb
        exact ⟨hc, hnext b List.mem_cons_self, reflTransGen_of_isChain hchain hb⟩
      · exact h.back e hmem
    · exact h.back
  · rw [he]
    have hchain := h.chain
    rw [hp] at hchain
    constructor
    · apply List.isChain_cons_cons.2
      exact ⟨(hfol.path (c, b :: bs) (hp ▸ List.mem_cons_self)).2 b List.mem_cons_self, hchain⟩
    · exact fun e hmem ↦ (h.back e hmem).imp_left (List.mem_cons_of_mem b)

/-! ## The whole search -/

variable (next) (a)

theorem exists_orders_complete :
    ∃ order, Orders next (complete next (List.finRange n) a) order := by
  refine run_induct (P := fun s ↦ ∃ order, Orders next s order) ?_ ⟨[a], .start next a⟩ _
  rintro s ⟨order, h⟩
  exact h.step

theorem closes_complete : Closes next (complete next (List.finRange n) a) := by
  have h : Follows next a (complete next (List.finRange n) a) ∧
      Closes next (complete next (List.finRange n) a) :=
    run_induct (P := fun s ↦ Follows next a s ∧ Closes next s)
      (fun _ h ↦ ⟨h.1.step, h.2.step h.1⟩) ⟨.start next a, .start next a⟩ _
  exact h.2

theorem path_complete : (complete next (List.finRange n) a).path = [] :=
  path_run_eq_nil (left_start a).le

variable {next a}

theorem exists_iterate_of_run (next : Fin n → List (Fin n)) (fuel : Nat) (s : Search (Fin n)) :
    ∃ k ≤ fuel, run next fuel s = (step next)^[k] s := by
  induction fuel generalizing s with
  | zero => exact ⟨0, le_rfl, rfl⟩
  | succ fuel ih =>
    rw [run]
    split
    · exact ⟨0, Nat.zero_le _, rfl⟩
    · obtain ⟨k, hk, he⟩ := ih (s.step next)
      exact ⟨k + 1, Nat.succ_le_succ hk, he⟩

/-- A node on a cycle is the target of an edge that goes back, or the source of one can be reached
from it around the target. -/
theorem exists_backEdge {b : Fin n} (hb : b ∈ (complete next (List.finRange n) a).seen)
    (hcycle : TransGen (fun x y ↦ y ∈ next x) b b) :
    ∃ e ∈ (complete next (List.finRange n) a).backEdges, b = e.2 ∨
      (e.1 ≠ e.2 ∧ ReflTransGen (Avoiding (fun x y ↦ y ∈ next x) e.2) b e.1) := by
  classical
  obtain ⟨order, h⟩ := exists_orders_complete next a
  let inPart (y : Fin n) : Prop :=
    ReflTransGen (fun x y ↦ y ∈ next x) b y ∧ ReflTransGen (fun x y ↦ y ∈ next x) y b
  obtain ⟨header, hheader⟩ : ∃ header, order.find? (fun y ↦ decide (inPart y)) = some header := by
    rw [← Option.isSome_iff_exists, List.find?_isSome]
    exact ⟨b, (h.mem_seen b).1 hb, decide_eq_true ⟨.refl, .refl⟩⟩
  have hpart : inPart header := by simpa using List.find?_some hheader
  -- no edge within the part leads down the list to the header, which is its first node there
  have hback : ∀ x, inPart x → header ∈ next x →
      (x, header) ∈ (complete next (List.finRange n) a).backEdges := by
    intro x hx hedge
    have hseen : x ∈ order := by
      rw [← h.mem_seen]
      rw [mem_seen_complete_iff] at hb ⊢
      exact hb.trans hx.1
    rcases h.edge x hseen header hedge with ⟨bs, hmem, -⟩ | hmem | hsub
    · rw [path_complete] at hmem
      cases hmem
    · exact hmem
    · have hnot := not_of_sublist_of_find? h.nodup hheader hsub
      exact absurd hx (of_decide_eq_false hnot)
  by_cases hne : b = header
  · subst hne
    obtain ⟨x, hbx, hxb⟩ := TransGen.tail'_iff.1 hcycle
    exact ⟨(x, b), hback x ⟨hbx, .single hxb⟩ hxb, .inl rfl⟩
  · obtain ⟨x, hx, hav, hxh⟩ := exists_avoiding_of_ne hpart.1 hne
    refine ⟨(x, header), hback x ⟨reflTransGen_of_avoiding hav, hpart.2.head hxh⟩ hxh, .inr ?_⟩
    exact ⟨hx, hav⟩

end Search

/-! ## Loop depths -/

namespace BlockGraph

variable {n : Nat}

/-- Control can go from one block to another. -/
def Edge (g : BlockGraph n) (b c : Fin n) : Prop :=
  c ∈ g.successors.get b

/-- The edges that the search finds to go back. -/
def backEdges (g : BlockGraph n) : List (Fin n × Fin n) :=
  (search? g.successors).elim [] Search.backEdges

/-- All the ways from the first block to `x` pass `h`. -/
def Dominates (g : BlockGraph n) (h x : Fin n) : Prop :=
  ∀ way : List (Fin n), way.head? = some ⟨0, x.pos⟩ → way.getLast? = some x →
    way.IsChain g.Edge → h ∈ way

variable (successors : Vector (List (Fin n)) n)

theorem backEdges_ofSuccessors (h : 0 < n) : (ofSuccessors successors).backEdges =
    (Search.complete successors.get (List.finRange n) ⟨0, h⟩).backEdges := by
  simp only [backEdges, ofSuccessors, search?, dif_pos h]
  rfl

theorem mem_loopBody_iff {header b : Fin n} {sources : List (Fin n)} :
    b ∈ loopBody successors header sources ↔ b = header ∨ ∃ x ∈ sources, x ≠ header ∧
      ReflTransGen (Avoiding (fun x y ↦ y ∈ successors.get x) header) b x := by
  have hdomain : ∀ x, x ∈ (List.finRange n).erase header ↔ x ≠ header := by
    intro x
    rw [(List.nodup_finRange n).mem_erase_iff]
    exact and_iff_left (List.mem_finRange x)
  have hinside : Inside (predecessorsIn successors) ((List.finRange n).erase header) =
      Function.swap (Avoiding (fun x y ↦ y ∈ successors.get x) header) := by
    ext x y
    simp only [Inside, Function.swap, Avoiding, hdomain, predecessorsIn, List.mem_filter,
      List.mem_finRange, true_and, decide_eq_true_eq]
    tauto
  have hlen : ((List.finRange n).erase header).length ≤ n :=
    (List.length_erase_le ..).trans (List.length_finRange ..).le
  rw [loopBody, List.mem_cons, mem_gather_iff ((List.nodup_finRange n).erase header) hlen, hinside]
  simp only [hdomain, reflTransGen_swap]

/-- A block has a loop depth if it is in the loop of an edge that goes back. -/
theorem one_le_loopDepth_iff {b : Fin n} : 1 ≤ (ofSuccessors successors).loopDepth.get b ↔
    ∃ e ∈ (ofSuccessors successors).backEdges, b = e.2 ∨ (e.1 ≠ e.2 ∧
      ReflTransGen (Avoiding (ofSuccessors successors).Edge e.2) b e.1) := by
  have hdepth : (ofSuccessors successors).loopDepth.get b =
      (loops successors (ofSuccessors successors).backEdges).countP (b ∈ ·) := by
    simp only [ofSuccessors, Vector.get_ofFn]
    rfl
  rw [hdepth, Nat.one_le_iff_ne_zero, ← Nat.pos_iff_ne_zero, List.countP_pos_iff]
  simp only [loops, List.mem_map, mem_distinct, decide_eq_true_eq]
  constructor
  · rintro ⟨_, ⟨header, ⟨e, he, rfl⟩, rfl⟩, hb⟩
    rcases (mem_loopBody_iff successors).1 hb with rfl | ⟨x, hx, hne, hav⟩
    · exact ⟨e, he, .inl rfl⟩
    · obtain ⟨e', he', rfl⟩ := List.mem_map.1 hx
      obtain ⟨hmem, hheader⟩ := List.mem_filter.1 he'
      rw [decide_eq_true_eq] at hheader
      rw [← hheader] at hne hav
      exact ⟨e', hmem, .inr ⟨hne, hav⟩⟩
  · rintro ⟨e, he, hb⟩
    refine ⟨_, ⟨e.2, ⟨e, he, rfl⟩, rfl⟩, (mem_loopBody_iff successors).2 ?_⟩
    refine hb.imp_right fun hb ↦ ⟨e.1, List.mem_map.2 ⟨e, ?_, rfl⟩, hb⟩
    exact List.mem_filter.2 ⟨he, decide_eq_true rfl⟩

/-- An edge that goes back closes a cycle through a reachable block. -/
theorem cycle_of_mem_backEdges {e : Fin n × Fin n} (he : e ∈ (ofSuccessors successors).backEdges) :
    (ofSuccessors successors).reachable.get e.2 = true ∧
      (ofSuccessors successors).Edge e.1 e.2 ∧
      ReflTransGen (ofSuccessors successors).Edge e.2 e.1 := by
  rw [backEdges_ofSuccessors successors e.1.pos] at he
  obtain ⟨hseen, hedge, hway⟩ := (Search.closes_complete _ _).back e he
  refine ⟨?_, hedge, hway⟩
  rw [← reachable_iff] at hseen
  exact reachable_of_mem hseen hedge

theorem one_le_loopDepth_of_cycle {b : Fin n}
    (hb : (ofSuccessors successors).reachable.get b = true)
    (hcycle : TransGen (ofSuccessors successors).Edge b b) :
    1 ≤ (ofSuccessors successors).loopDepth.get b := by
  rw [reachable_iff successors b.pos] at hb
  rw [one_le_loopDepth_iff, backEdges_ofSuccessors successors b.pos]
  exact Search.exists_backEdge hb hcycle

theorem loopDepth_eq_zero
    (hacyclic : ∀ b, (ofSuccessors successors).reachable.get b = true →
      ¬TransGen (ofSuccessors successors).Edge b b) (b : Fin n) :
    (ofSuccessors successors).loopDepth.get b = 0 := by
  by_contra hne
  obtain ⟨e, he, -⟩ := (one_le_loopDepth_iff successors).1 (Nat.one_le_iff_ne_zero.2 hne)
  obtain ⟨hreach, hedge, hway⟩ := cycle_of_mem_backEdges successors he
  exact hacyclic e.2 hreach (.tail' hway hedge)

/-- If headers dominate the sources of the edges that go back to them, there are loops on cycles
only. -/
theorem cycle_of_one_le_loopDepth
    (hdom : ∀ e ∈ (ofSuccessors successors).backEdges,
      (ofSuccessors successors).Dominates e.2 e.1) {b : Fin n}
    (hb : (ofSuccessors successors).reachable.get b = true)
    (hdepth : 1 ≤ (ofSuccessors successors).loopDepth.get b) :
    TransGen (ofSuccessors successors).Edge b b := by
  obtain ⟨e, he, hor⟩ := (one_le_loopDepth_iff successors).1 hdepth
  obtain ⟨-, hedge, hway⟩ := cycle_of_mem_backEdges successors he
  rcases hor with rfl | ⟨hne, hav⟩
  · exact .tail' hway hedge
  · rw [reachable_iff_reflTransGen successors b.pos] at hb
    rcases passes_or_avoids hb e.2 with ⟨-, hpass⟩ | ⟨-, havoid⟩
    · exact (TransGen.tail' (reflTransGen_of_avoiding hav) hedge).trans_left hpass
    · -- the way to the source would pass the header neither before nor behind `b`
      obtain ⟨way, hhead, hlast, hchain, hnot⟩ :=
        exists_isChain_of_avoiding (havoid.trans hav) hne
      exact absurd (hdom e he way hhead hlast hchain) hnot

end BlockGraph

/-- The block graph of a routine knows what can be reached and where the cycles are. The search ends
by itself, and the reachable blocks are those to which there is a way from the first one. A
reachable block on a cycle has a loop depth, whatever the graph is like; without such cycles all
loop depths are zero; and if the targets of all the edges that go back dominate their sources,
reachable blocks have a loop depth on cycles only. -/
theorem Routine.loopDepth_of_blockGraph {f : Routine} {g : BlockGraph f.blocks.length}
    (hg : f.blockGraph = .ok g) :
    (∀ h : 0 < f.blocks.length, ∃ k s,
      (Search.step g.successors.get)^[k] (.start g.successors.get ⟨0, h⟩) = s ∧ s.path = [] ∧
        (∀ b, g.reachable.get b = true ↔ b ∈ s.seen) ∧ g.backEdges = s.backEdges) ∧
    (∀ b, g.reachable.get b = true ↔ ReflTransGen g.Edge ⟨0, b.pos⟩ b) ∧
    (∀ b, g.reachable.get b = true → TransGen g.Edge b b → 1 ≤ g.loopDepth.get b) ∧
    ((∀ b, g.reachable.get b = true → ¬TransGen g.Edge b b) → ∀ b, g.loopDepth.get b = 0) ∧
    ((∀ e ∈ g.backEdges, g.Dominates e.2 e.1) →
      ∀ b, g.reachable.get b = true → 1 ≤ g.loopDepth.get b → TransGen g.Edge b b) := by
  obtain ⟨-, rfl⟩ := Routine.blockGraph_eq_ok hg
  refine ⟨fun h ↦ ?_, fun b ↦ BlockGraph.reachable_iff_reflTransGen _ b.pos b,
    fun b ↦ BlockGraph.one_le_loopDepth_of_cycle _, BlockGraph.loopDepth_eq_zero _,
    fun hdom b ↦ BlockGraph.cycle_of_one_le_loopDepth _ hdom⟩
  obtain ⟨k, -, hk⟩ := Search.exists_iterate_of_run
    (BlockGraph.ofBlocks f.blocks).successors.get _ (.start _ ⟨0, h⟩)
  exact ⟨k, _, hk.symm, Search.path_complete _ _, BlockGraph.reachable_iff _ h,
    BlockGraph.backEdges_ofSuccessors _ h⟩

/-- Two blocks that go to each other, both of which the first block can go to. -/
def Routine.twoEntries : Routine where
  name := "two"
  blocks :=
    [⟨"entry", [.branch .beq (.virt 0) (.virt 0) "y"]⟩,
      ⟨"x", [.branch .beq (.virt 0) (.virt 0) "y", .jump "z"]⟩, ⟨"y", [.jump "x"]⟩,
      ⟨"z", [.ret [] []]⟩]
  sizes := #[4]

def BlockGraph.twoEntries : BlockGraph 4 :=
  .ofBlocks Routine.twoEntries.blocks

/-- Both blocks of the cycle have a loop depth, and so has the first block, which is on no cycle: it
can go to the source of the edge back around the target. -/
theorem Routine.loopDepth_twoEntries :
    twoEntries.blockGraph = .ok .twoEntries ∧ TransGen BlockGraph.twoEntries.Edge 1 1 ∧
      1 ≤ BlockGraph.twoEntries.loopDepth.get 1 ∧ 1 ≤ BlockGraph.twoEntries.loopDepth.get 2 ∧
      1 ≤ BlockGraph.twoEntries.loopDepth.get 0 ∧ ¬TransGen BlockGraph.twoEntries.Edge 0 0 ∧
      ¬∀ e ∈ BlockGraph.twoEntries.backEdges, BlockGraph.twoEntries.Dominates e.2 e.1 := by
  have hg : twoEntries.blockGraph = .ok .twoEntries := rfl
  obtain ⟨-, -, hcycle, -, hdom⟩ := loopDepth_of_blockGraph hg
  have hxy : (2 : Fin 4) ∈ BlockGraph.twoEntries.successors.get 1 := by decide +kernel
  have hyx : (1 : Fin 4) ∈ BlockGraph.twoEntries.successors.get 2 := by decide +kernel
  have hdepth : 1 ≤ BlockGraph.twoEntries.loopDepth.get 0 := by decide +kernel
  have hentry : ¬TransGen BlockGraph.twoEntries.Edge 0 0 := by
    intro h
    obtain ⟨b, -, hb⟩ := TransGen.tail'_iff.1 h
    have hnone : ∀ b, (0 : Fin 4) ∉ BlockGraph.twoEntries.successors.get b := by decide +kernel
    exact hnone b hb
  have hx : TransGen BlockGraph.twoEntries.Edge 1 1 := .tail (.single hxy) hyx
  have hy : TransGen BlockGraph.twoEntries.Edge 2 2 := .tail (.single hyx) hxy
  refine ⟨hg, hx, hcycle (1 : Fin 4) ?_ hx, hcycle (2 : Fin 4) ?_ hy, hdepth, hentry,
    fun h ↦ hentry (hdom h (0 : Fin 4) ?_ hdepth)⟩
  all_goals decide +kernel

end RegAlloc

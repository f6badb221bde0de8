import Mathlib
import RegAlloc.Proofs.Assignment

/-!
# The flow graph is the reachable program

Control goes from instruction to instruction: a branch or jump goes to the first instruction at or
after the start of the last block with its label, and what is no terminator also goes on to what
follows it. The nodes of a flow graph are the positions that can be come to in this way from the
first instruction, and the successors of a node are where control goes from there.

A flow graph is made from the blocks that are reachable, and the steps between instructions know
nothing of them. Both meet in `Reaches`: a block is reachable if control comes to its first
instruction, or would do so if the block were not empty, which is why `Arrives` speaks of the first
instruction at or after a block.
-/

namespace RegAlloc

variable {blocks : List Block} {b c p : Nat} {x y : Nat × Nat} {i : Instr} {pre rest : List Instr}

/-! ## Steps between instructions -/

/-- The instruction at a position, which is a block and a place in its code. -/
def instrAt? (blocks : List Block) (x : Nat × Nat) : Option Instr :=
  blocks[x.1]?.bind fun block ↦ block.code[x.2]?

/-- The first instruction at or after the start of block `b` is at `x`: the blocks in between are
empty. -/
structure IsFirst (blocks : List Block) (b : Nat) (x : Nat × Nat) : Prop where
  le : b ≤ x.1
  start : x.2 = 0
  isSome : (instrAt? blocks x).isSome = true
  empty : ∀ c block, b ≤ c → c < x.1 → blocks[c]? = some block → block.code = []

/-- The last block with the label is `b`. -/
structure IsLabelled (blocks : List Block) (label : String) (b : Nat) : Prop where
  label_eq : blocks[b]?.map Block.label = some label
  last : ∀ c > b, blocks[c]?.map Block.label ≠ some label

/-- Where control can go from a position. -/
inductive GoesTo (blocks : List Block) : Nat × Nat → Nat × Nat → Prop
  | goto {x y : Nat × Nat} {i : Instr} {label : String} {b : Nat}
    (hi : instrAt? blocks x = some i) (ht : i.target? = some label)
    (hb : IsLabelled blocks label b) (hy : IsFirst blocks b y) : GoesTo blocks x y
  | next {b p : Nat} {i : Instr} (hi : instrAt? blocks (b, p) = some i)
    (ht : i.isTerminator = false) (hy : (instrAt? blocks (b, p + 1)).isSome = true) :
    GoesTo blocks (b, p) (b, p + 1)
  | fall {b p : Nat} {y : Nat × Nat} {i : Instr} (hi : instrAt? blocks (b, p) = some i)
    (ht : i.isTerminator = false) (hend : instrAt? blocks (b, p + 1) = none)
    (hy : IsFirst blocks (b + 1) y) : GoesTo blocks (b, p) y

/-- Control comes to a position from the first instruction of all. -/
def IsReached (blocks : List Block) (y : Nat × Nat) : Prop :=
  ∃ x, IsFirst blocks 0 x ∧ Relation.ReflTransGen (GoesTo blocks) x y

theorem instrAt?_get (b : Fin blocks.length) (p : Nat) :
    instrAt? blocks (b.val, p) = (blocks.get b).code[p]? := by
  simp [instrAt?]

theorem instrAt?_append {b : Fin blocks.length} (hcode : (blocks.get b).code = pre ++ i :: rest) :
    instrAt? blocks (b.val, pre.length) = some i := by
  rw [instrAt?_get, hcode]
  simp

theorem lt_of_isSome_instrAt? (h : (instrAt? blocks x).isSome = true) : x.1 < blocks.length := by
  obtain ⟨i, hi⟩ := Option.isSome_iff_exists.1 h
  obtain ⟨block, hblock, -⟩ := Option.bind_eq_some_iff.1 hi
  exact (List.getElem?_eq_some_iff.1 hblock).1

namespace IsFirst

theorem lt (h : IsFirst blocks b x) : x.1 < blocks.length :=
  lt_of_isSome_instrAt? h.isSome

/-- The block where an instruction comes first is not empty. -/
theorem exists_code (h : IsFirst blocks b x) :
    ∃ i rest, (blocks.get ⟨x.1, h.lt⟩).code = i :: rest := by
  have hsome := h.isSome
  obtain ⟨c, p⟩ := x
  obtain rfl : p = 0 := h.start
  rw [instrAt?_get ⟨c, h.lt⟩] at hsome
  cases hcode : (blocks.get ⟨c, h.lt⟩).code with
  | nil =>
    rw [hcode] at hsome
    cases hsome
  | cons i rest => exact ⟨i, rest, rfl⟩

/-- A block that is not empty has its own first instruction. -/
theorem self {b : Fin blocks.length} (hcode : (blocks.get b).code = i :: rest) :
    IsFirst blocks b (b, 0) where
  le := le_rfl
  start := rfl
  isSome := by
    rw [instrAt?_get, hcode]
    rfl
  empty c _ hle hlt := absurd hlt (not_lt.2 hle)

/-- Nothing comes first in a block that is empty. -/
theorem succ_iff {b : Fin blocks.length} (hcode : (blocks.get b).code = []) :
    IsFirst blocks (b + 1) y ↔ IsFirst blocks b y := by
  constructor
  · intro h
    refine ⟨(Nat.le_succ _).trans h.le, h.start, h.isSome, fun c block hle hlt hblock ↦ ?_⟩
    rcases hle.eq_or_lt with rfl | hle
    · rw [List.getElem?_eq_getElem b.isLt, Option.some.injEq] at hblock
      rw [← hblock]
      exact hcode
    · exact h.empty c block hle hlt hblock
  · intro h
    have hne : y.1 ≠ b := by
      intro he
      obtain ⟨i, rest, hi⟩ := h.exists_code
      simp only [he, hcode] at hi
      cases hi
    exact ⟨by have := h.le; omega, h.start, h.isSome,
      fun c block hle hlt ↦ h.empty c block (Nat.le_of_succ_le hle) hlt⟩

end IsFirst

theorem IsLabelled.eq {label : String} (hb : IsLabelled blocks label b)
    (hc : IsLabelled blocks label c) : b = c := by
  rcases lt_trichotomy b c with hlt | he | hlt
  · exact absurd hc.label_eq (hb.last c hlt)
  · exact he
  · exact absurd hb.label_eq (hc.last b hlt)

theorem isLabelled_of_labelled? {label : String} {c : Fin blocks.length}
    (h : labelled? blocks label = some c) : IsLabelled blocks label c := by
  obtain ⟨hlabel, before, behind, hlist, hbefore⟩ := List.find?_eq_some_iff_append.1 h
  rw [decide_eq_true_eq] at hlabel
  constructor
  · rw [List.getElem?_eq_getElem c.isLt]
    exact congrArg some hlabel
  · intro d hd he
    obtain ⟨block, hblock, hblabel⟩ := Option.map_eq_some_iff.1 he
    obtain ⟨hlt, hget⟩ := List.getElem?_eq_some_iff.1 hblock
    -- the blocks are looked at from the last one, so `d` comes before `c`
    have hsorted : (before ++ c :: behind).Pairwise (· > ·) := by
      rw [← hlist, List.pairwise_reverse]
      exact List.pairwise_lt_finRange blocks.length
    have hmem : (⟨d, hlt⟩ : Fin blocks.length) ∈ before ++ c :: behind := by
      rw [← hlist]
      exact List.mem_reverse.2 (List.mem_finRange _)
    have hdbefore : (⟨d, hlt⟩ : Fin blocks.length) ∈ before := by
      rcases List.mem_append.1 hmem with hmem | hmem
      · exact hmem
      · rw [List.pairwise_append, List.pairwise_cons] at hsorted
        rcases List.mem_cons.1 hmem with he | hmem
        · exact absurd (congrArg Fin.val he) hd.ne'
        · exact absurd (hsorted.2.1.1 _ hmem) (not_lt.2 hd.le)
    have hnot := hbefore _ hdbefore
    rw [Bool.not_eq_true', decide_eq_false_iff_not] at hnot
    refine hnot ?_
    rw [List.get_eq_getElem, hget]
    exact hblabel

/-! ## Control comes to what stands in a reachable block -/

/-- Control comes to the first instruction at or after the block. -/
def Arrives (blocks : List Block) (b : Nat) : Prop :=
  ∀ y, IsFirst blocks b y → IsReached blocks y

theorem IsReached.tail (h : IsReached blocks x) (hs : GoesTo blocks x y) : IsReached blocks y := by
  obtain ⟨z, hz, hsteps⟩ := h
  exact ⟨z, hz, hsteps.tail hs⟩

namespace Arrives

/-- Control goes through a block up to the first terminator. -/
theorem isReached {b : Fin blocks.length} (h : Arrives blocks b)
    (hcode : (blocks.get b).code = pre ++ i :: rest) (hpre : ∀ j ∈ pre, j.isTerminator = false) :
    IsReached blocks (b, pre.length) := by
  induction pre using List.reverseRecOn generalizing i rest with
  | nil => exact h _ (IsFirst.self hcode)
  | append_singleton pre j ih =>
    have hsome := instrAt?_append hcode
    rw [List.append_assoc, List.singleton_append] at hcode
    have hreach := ih hcode fun j hj ↦ hpre j (List.mem_append_left _ hj)
    rw [List.length_append, List.length_singleton] at hsome ⊢
    refine hreach.tail (.next (instrAt?_append hcode) (hpre j (by simp)) ?_)
    rw [hsome]
    rfl

theorem fall {b : Fin blocks.length} (h : Arrives blocks b)
    (hfalls : fallsThrough (blocks.get b).code = true) : Arrives blocks (b + 1) := by
  intro y hy
  rw [fallsThrough, Bool.not_eq_true', List.any_eq_false] at hfalls
  rcases List.eq_nil_or_concat (blocks.get b).code with hcode | ⟨pre, i, hcode⟩
  · exact h y ((IsFirst.succ_iff hcode).1 hy)
  · rw [List.concat_eq_append] at hcode
    rw [hcode] at hfalls
    have hpre : ∀ j ∈ pre ++ [i], j.isTerminator = false :=
      fun j hj ↦ Bool.not_eq_true _ ▸ hfalls j hj
    have hreach := h.isReached hcode fun j hj ↦ hpre j (List.mem_append_left _ hj)
    refine hreach.tail (.fall (instrAt?_append hcode) (hpre i (by simp)) ?_ hy)
    rw [instrAt?_get, hcode]
    simp

theorem successor {b c : Fin blocks.length} (h : Arrives blocks b)
    (hc : c ∈ blockSuccessors blocks b) : Arrives blocks c := by
  rw [blockSuccessors, mem_distinct, List.mem_append] at hc
  rcases hc with hc | hc
  · intro y hy
    obtain ⟨label, hmem, hlabel⟩ := List.mem_filterMap.1 hc
    obtain ⟨i, hi, htarget⟩ := List.mem_filterMap.1 hmem
    obtain ⟨pre, rest, hcode, hpre⟩ := Instr.exists_of_mem_upToTerminator hi
    exact (h.isReached hcode hpre).tail
      (.goto (instrAt?_append hcode) htarget (isLabelled_of_labelled? hlabel) hy)
  · split_ifs at hc with hlt hfalls
    · rw [List.mem_singleton.1 hc]
      exact h.fall hfalls
    · exact absurd hc List.not_mem_nil
    · exact absurd hc List.not_mem_nil

end Arrives

theorem arrives_of_reachable {b : Fin blocks.length}
    (h : (BlockGraph.ofBlocks blocks).reachable.get b = true) : Arrives blocks b := by
  rw [BlockGraph.ofBlocks, BlockGraph.reachable_iff_reflTransGen _ b.pos] at h
  induction h with
  | refl => exact fun y hy ↦ ⟨y, hy, .refl⟩
  | tail _ hc ih =>
    rw [Vector.get_ofFn] at hc
    exact ih.successor hc

/-! ## Nodes in program order -/

/-- Where a node stands. -/
def FlowNode.spot {r n : Nat} (node : FlowNode r n) : Nat × Nat :=
  (node.block, node.position)

theorem pairwise_zipIdx {α : Type} (l : List α) : l.zipIdx.Pairwise fun x y ↦ x.2 < y.2 := by
  rw [List.pairwise_iff_getElem]
  intro j k hj hk hjk
  simpa using hjk

theorem Flow.pairwise_sites (code : List (List Instr)) : (sites code).Pairwise fun s t ↦
    toLex (s.block, s.position) < toLex (t.block, t.position) := by
  rw [sites, List.pairwise_flatMap]
  constructor
  · rintro ⟨run, b⟩ -
    rw [List.pairwise_map]
    refine (pairwise_zipIdx run).imp fun {x y} hxy ↦ ?_
    exact Prod.Lex.toLex_lt_toLex.2 (.inr ⟨rfl, hxy⟩)
  · refine (pairwise_zipIdx code).imp fun {x y} hxy s hs t ht ↦ ?_
    obtain ⟨_, -, rfl⟩ := List.mem_map.1 hs
    obtain ⟨_, -, rfl⟩ := List.mem_map.1 ht
    exact Prod.Lex.toLex_lt_toLex.2 (.inl hxy)

theorem Flow.strictMono_sites (code : List (List Instr)) : StrictMono fun k ↦
    toLex (((sites code).get k).block, ((sites code).get k).position) :=
  fun j k hjk ↦ List.pairwise_iff_get.1 (pairwise_sites code) j k hjk

/-- The sites of the reached code are places that control can come to. -/
theorem Flow.exists_reaches_of_mem_sites {s : Site}
    (h : s ∈ sites (reachedCode blocks (.ofBlocks blocks))) :
    ∃ pre rest, Reaches blocks s.block pre (s.instr :: rest) ∧ pre.length = s.position := by
  obtain ⟨⟨run, b⟩, hrun, hs⟩ := List.mem_flatMap.1 h
  obtain ⟨⟨i, p⟩, hi, rfl⟩ := List.mem_map.1 hs
  rw [List.mem_zipIdx_iff_getElem?] at hrun hi
  rw [reachedCode, List.getElem?_map] at hrun
  obtain ⟨c, hc, rfl⟩ := Option.map_eq_some_iff.1 hrun
  obtain ⟨hlt, hget⟩ := List.getElem?_eq_some_iff.1 hc
  rw [List.getElem_finRange] at hget
  obtain rfl : b = c.val := by rw [← hget]; rfl
  split at hi
  · rename_i hreach
    obtain ⟨pre, rest, hcode, hlen, hpre⟩ := Instr.exists_of_getElem?_upToTerminator hi
    exact ⟨pre, rest, ⟨c.isLt, hreach, hcode, hpre⟩, hlen⟩
  · simp at hi

/-- Each node is that of a place which control can come to. -/
theorem exists_reaches (k : Fin (Flow.sites (reachedCode blocks (.ofBlocks blocks))).length) :
    ∃ b pre i rest, ∃ h : Reaches blocks b pre (i :: rest),
      k = ⟨Reaches.place blocks b pre, h.place_lt⟩ := by
  obtain ⟨pre, rest, h, hlen⟩ := Flow.exists_reaches_of_mem_sites (List.get_mem _ k)
  have hget : (Flow.sites (reachedCode blocks (.ofBlocks blocks))).get ⟨_, h.place_lt⟩ = _ :=
    (List.getElem?_eq_some_iff.1 h.getElem?_sites).2
  refine ⟨_, pre, _, rest, h, (Flow.strictMono_sites _).injective ?_⟩
  rw [hget, hlen]

variable {ν : Numbering}

theorem strictMono_spot (ν : Numbering) (blocks : List Block) :
    StrictMono fun k ↦ toLex ((reachedFlow ν blocks).get k).spot := by
  intro j k hjk
  simp only [get_reachedFlow]
  exact Flow.strictMono_sites _ hjk

theorem Reaches.spot_get (h : Reaches blocks b pre (i :: rest)) :
    ((reachedFlow ν blocks).get ⟨place blocks b pre, h.place_lt⟩).spot = (b, pre.length) := by
  rw [h.get_reachedFlow]
  rfl

/-! ## Where control goes from a node -/

namespace Reaches

theorem instrAt?_eq (h : Reaches blocks b pre (i :: rest)) :
    instrAt? blocks (b, pre.length) = some i :=
  instrAt?_append (b := ⟨b, h.lt⟩) h.code

theorem instrAt?_eq_none (h : Reaches blocks b pre []) : instrAt? blocks (b, pre.length) = none := by
  rw [instrAt?_get ⟨b, h.lt⟩, h.code]
  simp

/-- The first instruction at or after a block that control comes to has the number of the start of
the block. -/
theorem first (h : Reaches blocks b [] rest) (hy : IsFirst blocks b y) :
    ∃ i rest', Reaches blocks y.1 [] (i :: rest') ∧ place blocks b [] = place blocks y.1 [] := by
  obtain ⟨k, hk⟩ := Nat.exists_eq_add_of_le hy.le
  induction k generalizing b rest with
  | zero =>
    obtain rfl : b = y.1 := hk.symm
    obtain ⟨i, rest', hcode⟩ := hy.exists_code
    obtain rfl : rest = i :: rest' := h.code.symm.trans hcode
    exact ⟨i, rest', h, rfl⟩
  | succ k ih =>
    have hcode := hy.empty b _ le_rfl (by omega) (List.getElem?_eq_getElem h.lt)
    obtain rfl : rest = [] := h.code.symm.trans hcode
    have hlt := hy.lt
    obtain ⟨i, rest', hreach, hplace⟩ := ih (h.fall (by omega))
      ((IsFirst.succ_iff (b := ⟨b, h.lt⟩) hcode).2 hy) (by omega)
    exact ⟨i, rest', hreach, by rw [← hplace, place_fall h]⟩

/-- There is no place behind the end of the last block. -/
theorem lt_of_place_lt (h : Reaches blocks b pre [])
    (hlt : place blocks b pre < (Flow.sites (reachedCode blocks (.ofBlocks blocks))).length) :
    b + 1 < blocks.length := by
  by_contra hge
  have hend : place blocks (b + 1) [] =
      (Flow.sites (reachedCode blocks (.ofBlocks blocks))).length :=
    Flow.offset_of_length_le (by simpa [reachedCode] using hge)
  rw [← place_fall h, hend] at hlt
  exact absurd hlt (lt_irrefl _)

/-- If the start of a block has the number of a node, an instruction comes first there. -/
theorem exists_isFirst (h : Reaches blocks b [] rest)
    (hlt : place blocks b [] < (Flow.sites (reachedCode blocks (.ofBlocks blocks))).length) :
    ∃ y, IsFirst blocks b y := by
  obtain ⟨k, hk⟩ := Nat.exists_eq_add_of_lt h.lt
  induction k generalizing b rest with
  | zero =>
    cases rest with
    | nil =>
      have := h.lt_of_place_lt hlt
      omega
    | cons i rest => exact ⟨(b, 0), IsFirst.self (b := ⟨b, h.lt⟩) h.code⟩
  | succ k ih =>
    cases rest with
    | nil =>
      have hfall := h.fall (h.lt_of_place_lt hlt)
      obtain ⟨y, hy⟩ := ih hfall (by rwa [place_fall h]) (by omega)
      exact ⟨y, (IsFirst.succ_iff (b := ⟨b, h.lt⟩) h.code).1 hy⟩
    | cons i rest => exact ⟨(b, 0), IsFirst.self (b := ⟨b, h.lt⟩) h.code⟩

/-- The first instruction at or after a block that control comes to is the node with the number of
its start. -/
theorem isFirst_iff (h : Reaches blocks b [] rest) : IsFirst blocks b y ↔
    ∃ j : Fin (Flow.sites (reachedCode blocks (.ofBlocks blocks))).length,
      j.val = place blocks b [] ∧ ((reachedFlow ν blocks).get j).spot = y := by
  have hnode : ∀ {y}, IsFirst blocks b y →
      ∃ j : Fin (Flow.sites (reachedCode blocks (.ofBlocks blocks))).length,
        j.val = place blocks b [] ∧ ((reachedFlow ν blocks).get j).spot = y := by
    intro y hy
    obtain ⟨i, rest', hreach, hplace⟩ := h.first hy
    refine ⟨⟨_, hreach.place_lt⟩, hplace.symm, ?_⟩
    rw [hreach.spot_get, List.length_nil, ← hy.start]
  refine ⟨hnode, ?_⟩
  rintro ⟨j, hj, rfl⟩
  obtain ⟨y, hy⟩ := h.exists_isFirst (hj ▸ j.isLt)
  obtain ⟨j', hj', rfl⟩ := hnode hy
  rwa [Fin.ext (hj.trans hj'.symm)]

/-- What follows an instruction that control goes on from is the node with the number of the place
behind it. -/
theorem follows_iff (h : Reaches blocks b pre (i :: rest)) (hi : i.isTerminator = false) :
    (∃ j : Fin (Flow.sites (reachedCode blocks (.ofBlocks blocks))).length,
      j.val = place blocks b (pre ++ [i]) ∧ ((reachedFlow ν blocks).get j).spot = y) ↔
      ((instrAt? blocks (b, pre.length + 1)).isSome = true ∧ y = (b, pre.length + 1)) ∨
      (instrAt? blocks (b, pre.length + 1) = none ∧ IsFirst blocks (b + 1) y) := by
  have hnext := h.next hi
  have hlen : (pre ++ [i]).length = pre.length + 1 := by simp
  cases rest with
  | nil =>
    have hnone := hnext.instrAt?_eq_none
    rw [hlen] at hnone
    rw [hnone, ← place_fall hnext]
    simp only [Option.isSome_none, Bool.false_eq_true, false_and, true_and, false_or]
    by_cases hb : b + 1 < blocks.length
    · exact (hnext.fall hb).isFirst_iff.symm
    · refine iff_of_false ?_ fun hy ↦ hb (hy.le.trans_lt hy.lt)
      rintro ⟨j, hj, -⟩
      rw [place_fall hnext] at hj
      exact hb (hnext.lt_of_place_lt (hj ▸ j.isLt))
  | cons i' rest =>
    have hsome := hnext.instrAt?_eq
    rw [hlen] at hsome
    rw [hsome]
    simp only [Option.isSome_some, true_and, reduceCtorEq, false_and, or_false]
    constructor
    · rintro ⟨j, hj, rfl⟩
      obtain rfl : j = ⟨_, hnext.place_lt⟩ := Fin.ext hj
      rw [hnext.spot_get, hlen]
    · rintro rfl
      exact ⟨⟨_, hnext.place_lt⟩, rfl, by rw [hnext.spot_get, hlen]⟩

/-- The successors of a node are where control can go from it. -/
theorem goesTo_iff (h : Reaches blocks b pre (i :: rest)) (hlabels : unknownLabel? blocks = none) :
    (∃ j ∈ ((reachedFlow ν blocks).get ⟨place blocks b pre, h.place_lt⟩).successors,
      ((reachedFlow ν blocks).get j).spot = y) ↔ GoesTo blocks (b, pre.length) y := by
  have hinstr := h.instrAt?_eq
  have hnode : ((reachedFlow ν blocks).get ⟨place blocks b pre, h.place_lt⟩).successors =
      Flow.successors blocks (reachedCode blocks (.ofBlocks blocks)) _ ⟨b, pre.length, i⟩ := by
    rw [h.get_reachedFlow]
    rfl
  simp only [hnode, Flow.mem_successors]
  constructor
  · rintro ⟨j, ⟨label, c, ht, hc, hj⟩ | ⟨ht, hj⟩, hy⟩
    · obtain ⟨c', hc', hreach⟩ := h.goto hlabels ht
      rw [hc] at hc'
      cases hc'
      exact .goto hinstr ht (isLabelled_of_labelled? hc) (hreach.isFirst_iff.2 ⟨j, hj, hy⟩)
    · rcases (h.follows_iff ht).1 ⟨j, hj.trans place_next.symm, hy⟩ with ⟨hsome, rfl⟩ | ⟨hend, hy⟩
      · exact .next hinstr ht hsome
      · exact .fall hinstr ht hend hy
  · intro hs
    cases hs with
    | goto hi ht hb hy =>
      rw [hinstr] at hi
      cases hi
      obtain ⟨c, hc, hreach⟩ := h.goto hlabels ht
      rw [hb.eq (isLabelled_of_labelled? hc)] at hy
      obtain ⟨j, hj, hy⟩ := hreach.isFirst_iff.1 hy
      exact ⟨j, .inl ⟨_, c, ht, hc, hj⟩, hy⟩
    | next hi ht hsome =>
      rw [hinstr] at hi
      cases hi
      obtain ⟨j, hj, hy⟩ := (h.follows_iff ht).2 (.inl ⟨hsome, rfl⟩)
      exact ⟨j, .inr ⟨ht, hj.trans place_next⟩, hy⟩
    | fall hi ht hend hy =>
      rw [hinstr] at hi
      cases hi
      obtain ⟨j, hj, hy⟩ := (h.follows_iff ht).2 (.inr ⟨hend, hy⟩)
      exact ⟨j, .inr ⟨ht, hj.trans place_next⟩, hy⟩

end Reaches

theorem goesTo_spot_iff (hlabels : unknownLabel? blocks = none)
    (k : Fin (Flow.sites (reachedCode blocks (.ofBlocks blocks))).length) :
    (∃ j ∈ ((reachedFlow ν blocks).get k).successors, ((reachedFlow ν blocks).get j).spot = y) ↔
      GoesTo blocks ((reachedFlow ν blocks).get k).spot y := by
  obtain ⟨b, pre, i, rest, h, rfl⟩ := exists_reaches k
  rw [h.spot_get]
  exact h.goesTo_iff hlabels

/-- The nodes stand where control comes to. -/
theorem exists_spot_iff (hlabels : unknownLabel? blocks = none) :
    (∃ k, ((reachedFlow ν blocks).get k).spot = x) ↔ IsReached blocks x := by
  constructor
  · rintro ⟨k, rfl⟩
    obtain ⟨b, pre, i, rest, h, rfl⟩ := exists_reaches k
    rw [h.spot_get]
    exact (arrives_of_reachable h.reachable).isReached h.code h.not_isTerminator
  · rintro ⟨x, hx, hsteps⟩
    induction hsteps with
    | refl =>
      obtain ⟨j, -, hj⟩ := (Reaches.entry (hx.le.trans_lt hx.lt)).isFirst_iff.1 hx
      exact ⟨j, hj⟩
    | tail _ hs ih =>
      obtain ⟨k, rfl⟩ := ih
      obtain ⟨j, -, hj⟩ := (goesTo_spot_iff hlabels k).2 hs
      exact ⟨j, hj⟩

/-- The flow graph of a routine is the part of its code that control comes to. The nodes stand at
the positions that can be reached from the first instruction, in program order and each of them
once. The successors of a node are the positions where control can go from there, each of them
once too. -/
theorem Routine.isReached_iff_of_blockGraph {f : Routine} {g : BlockGraph f.blocks.length}
    (hg : f.blockGraph = .ok g) (ν : Numbering) :
    let flow := Flow.ofSites ν f.blocks g (reachedCode f.blocks g)
      (Flow.sites (reachedCode f.blocks g))
    (StrictMono fun k ↦ toLex (flow.get k).spot) ∧
      (∀ x, (∃ k, (flow.get k).spot = x) ↔ IsReached f.blocks x) ∧
      ∀ k, (flow.get k).successors.Nodup ∧
        ∀ y, (∃ j ∈ (flow.get k).successors, (flow.get j).spot = y) ↔
          GoesTo f.blocks (flow.get k).spot y := by
  obtain ⟨hlabels, rfl⟩ := Routine.blockGraph_eq_ok hg
  refine ⟨strictMono_spot ν f.blocks, fun x ↦ exists_spot_iff hlabels, fun k ↦ ⟨?_, fun y ↦ ?_⟩⟩
  · have hnode := get_reachedFlow ν f.blocks k
    rw [reachedFlow] at hnode
    rw [hnode]
    exact nodup_distinct _
  · exact goesTo_spot_iff hlabels k

/-- Branches and jumps over empty blocks to a label that stands twice, and code that is left out
behind a jump and at the end. -/
def Routine.overEmpty : Routine where
  name := "over"
  blocks :=
    [⟨"entry", [.branch .beq (.virt 0) (.virt 0) "x", .li (.virt 0) 1]⟩, ⟨"x", []⟩,
      ⟨"y", [.jump "x", .li (.virt 0) 2]⟩, ⟨"x", []⟩, ⟨"z", [.ret [.virt 0] []]⟩,
      ⟨"w", [.li (.virt 0) 3]⟩]
  sizes := #[4]

/-- The branch goes to the return and not to the jump behind the first of the two blocks, and what
stands behind the jump is never come to. -/
theorem Routine.isReached_iff_overEmpty :
    (∃ g, overEmpty.blockGraph = .ok g) ∧
      GoesTo overEmpty.blocks (0, 0) (4, 0) ∧ ¬GoesTo overEmpty.blocks (0, 0) (2, 0) ∧
      IsReached overEmpty.blocks (2, 0) ∧ ¬IsReached overEmpty.blocks (2, 1) ∧
      ¬IsReached overEmpty.blocks (5, 0) := by
  have hg : overEmpty.blockGraph = .ok (.ofBlocks overEmpty.blocks) := by rfl
  obtain ⟨-, hreach, hstep⟩ :=
    isReached_iff_of_blockGraph hg (overEmpty.numbering Catalog.twoColours)
  have hentry : ((reachedFlow (overEmpty.numbering Catalog.twoColours) overEmpty.blocks).get
      ⟨0, by decide +kernel⟩).spot = (0, 0) := by
    decide +kernel
  have hbranch := (hstep ⟨0, by decide +kernel⟩).2
  rw [← reachedFlow, hentry] at hbranch
  refine ⟨⟨_, hg⟩, (hbranch (4, 0)).1 ?_, fun h ↦ absurd ((hbranch (2, 0)).2 h) ?_,
    (hreach (2, 0)).1 ?_, fun h ↦ absurd ((hreach (2, 1)).2 h) ?_,
    fun h ↦ absurd ((hreach (5, 0)).2 h) ?_⟩
  all_goals decide +kernel

end RegAlloc

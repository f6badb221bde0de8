import Mathlib
import RegAlloc.Interference.Build
import RegAlloc.Proofs.BlockGraph

/-!
# Flow graphs and live registers along a run

The place between `pre` and `rest` in block `b` has the number `offset code b + pre.length` in the
flow graph. If an instruction stands there, that is the number of its node; at the end of a block
it is that of the first instruction behind, where control goes next. So what is live in front of the
places that control goes to is live behind the instruction that it comes from.
-/

namespace RegAlloc

/-! ## Numbers of places -/

theorem getElem?_flatten {α : Type} (L : List (List α)) {b : Nat} {l : List α} (hb : L[b]? = some l)
    {k : Nat} (hk : k < l.length) : L.flatten[(L.take b).flatten.length + k]? = l[k]? := by
  induction L generalizing b with
  | nil => simp at hb
  | cons hd tl ih =>
    cases b with
    | zero =>
      rw [List.getElem?_cons_zero, Option.some.injEq] at hb
      rw [List.take_zero, List.flatten_cons, List.flatten_nil, List.length_nil, Nat.zero_add, hb,
        List.getElem?_append_left hk]
    | succ b =>
      rw [List.getElem?_cons_succ] at hb
      rw [List.take_succ_cons, List.flatten_cons, List.flatten_cons, List.length_append,
        Nat.add_assoc, List.getElem?_append_right (Nat.le_add_right _ _), Nat.add_sub_cancel_left]
      exact ih hb

namespace Flow

/-- The sites of each block. -/
def blockSites (code : List (List Instr)) : List (List Site) :=
  code.zipIdx.map fun (run, b) ↦ run.zipIdx.map fun (i, p) ↦ ⟨b, p, i⟩

theorem sites_eq_flatten (code : List (List Instr)) : sites code = (blockSites code).flatten :=
  List.flatMap_def

/-- The sites hold the instructions one after the other. -/
theorem map_instr_sites (code : List (List Instr)) : (sites code).map Site.instr = code.flatten := by
  have hrun : ∀ x : List Instr × Nat,
      (x.1.zipIdx.map fun y ↦ (⟨x.2, y.2, y.1⟩ : Site)).map Site.instr = x.1 := by
    intro x
    rw [List.map_map]
    exact List.zipIdx_map_fst 0 x.1
  rw [sites, List.map_flatMap]
  calc code.zipIdx.flatMap (fun x ↦
        (x.1.zipIdx.map fun y ↦ (⟨x.2, y.2, y.1⟩ : Site)).map Site.instr)
    _ = code.zipIdx.flatMap Prod.fst := congrArg (List.flatMap · _) (funext hrun)
    _ = (code.zipIdx.map Prod.fst).flatten := List.flatMap_def
    _ = code.flatten := by rw [List.zipIdx_map_fst]

theorem length_flatten_take_blockSites (code : List (List Instr)) (b : Nat) :
    ((blockSites code).take b).flatten.length = offset code b := by
  have hmap : (blockSites code).map List.length = code.map List.length := by
    refine List.ext_getElem? fun k ↦ ?_
    cases h : code[k]? <;> simp [blockSites, List.getElem?_zipIdx, h]
  rw [offset, List.length_flatten, List.length_flatten, List.map_take, List.map_take, hmap]

/-- The site at a position of a block. -/
theorem getElem?_sites {code : List (List Instr)} {b p : Nat} {run : List Instr} {i : Instr}
    (hb : code[b]? = some run) (hp : run[p]? = some i) :
    (sites code)[offset code b + p]? = some ⟨b, p, i⟩ := by
  have hlt := (List.getElem?_eq_some_iff.1 hp).1
  have hsites : (blockSites code)[b]? = some (run.zipIdx.map fun (i, p) ↦ ⟨b, p, i⟩) := by
    simp [blockSites, List.getElem?_zipIdx, hb]
  rw [sites_eq_flatten, ← length_flatten_take_blockSites,
    getElem?_flatten _ hsites (by simpa using hlt)]
  simp [List.getElem?_zipIdx, hp]

theorem offset_succ {code : List (List Instr)} {b : Nat} {run : List Instr}
    (hb : code[b]? = some run) : offset code (b + 1) = offset code b + run.length := by
  rw [offset, offset, List.take_add_one, hb, List.flatten_append, List.length_append]
  simp

/-- There is nothing behind the last block. -/
theorem offset_of_length_le {code : List (List Instr)} {b : Nat} (h : code.length ≤ b) :
    offset code b = (sites code).length := by
  rw [← length_flatten_take_blockSites, sites_eq_flatten, List.take_of_length_le]
  simpa [blockSites] using h

theorem at?_eq_some_iff {n k : Nat} {j : Fin n} : at? n k = some j ↔ j.val = k := by
  unfold at?
  split
  · rw [Option.some.injEq, Fin.ext_iff, eq_comm]
  · rename_i h
    exact iff_of_false nofun fun he ↦ h (he ▸ j.isLt)

theorem mem_successors {blocks : List Block} {code : List (List Instr)} {n : Nat} {s : Site}
    {j : Fin n} : j ∈ successors blocks code n s ↔
      (∃ label c, s.instr.target? = some label ∧ labelled? blocks label = some c ∧
        j.val = offset code c) ∨
      (s.instr.isTerminator = false ∧ j.val = offset code s.block + s.position + 1) := by
  simp only [successors, mem_distinct, List.mem_append, Option.mem_toList,
    Option.bind_eq_some_iff, at?_eq_some_iff]
  refine or_congr ?_ ?_
  · constructor
    · rintro ⟨label, ht, c, hc, hj⟩
      exact ⟨label, c, ht, hc, hj⟩
    · rintro ⟨label, c, ht, hc, hj⟩
      exact ⟨label, ht, c, hc, hj⟩
  · split
    · rename_i ht
      simp [ht]
    · rename_i ht
      simp [ht, at?_eq_some_iff]

end Flow

/-- What can be reached stands in the code in the same order. -/
theorem sublist_flatten_reachedCode (f : Routine) (g : BlockGraph f.blocks.length) :
    (reachedCode f.blocks g).flatten.Sublist f.instrs := by
  have hinstrs : f.instrs = (List.finRange f.blocks.length).flatMap fun b ↦
      (f.blocks.get b).code := by
    rw [Routine.instrs]
    conv_lhs => rw [← List.map_get_finRange f.blocks]
    rw [List.flatMap_map]
  rw [hinstrs, reachedCode, ← List.flatMap_def]
  refine .flatMap_right _ fun b _ ↦ ?_
  split
  · exact Instr.sublist_upToTerminator _
  · exact List.nil_sublist _

/-- What stands in the flow graph stands in the code. -/
theorem Flow.mem_instrs_of_mem_sites {f : Routine} {g : BlockGraph f.blocks.length} {s : Site}
    (h : s ∈ sites (reachedCode f.blocks g)) : s.instr ∈ f.instrs := by
  refine (sublist_flatten_reachedCode f g).subset ?_
  rw [← map_instr_sites]
  exact List.mem_map_of_mem h

/-! ## Reached places -/

namespace Reaches

variable {blocks : List Block} {b : Nat} {pre rest : List Instr} {i : Instr}

/-- The number of the place. -/
def place (blocks : List Block) (b : Nat) (pre : List Instr) : Nat :=
  Flow.offset (reachedCode blocks (.ofBlocks blocks)) b + pre.length

theorem getElem?_reachedCode (h : Reaches blocks b pre rest) :
    (reachedCode blocks (.ofBlocks blocks))[b]? = some (pre ++ Instr.upToTerminator rest) := by
  have hget : (List.finRange blocks.length)[b]? = some ⟨b, h.lt⟩ := by
    rw [List.getElem?_eq_getElem (by simpa using h.lt)]
    simp
  rw [reachedCode, List.getElem?_map, hget, Option.map_some, if_pos h.reachable, h.code,
    Instr.upToTerminator_append h.not_isTerminator]

theorem getElem?_sites (h : Reaches blocks b pre (i :: rest)) :
    (Flow.sites (reachedCode blocks (.ofBlocks blocks)))[place blocks b pre]? =
      some ⟨b, pre.length, i⟩ := by
  refine Flow.getElem?_sites h.getElem?_reachedCode ?_
  rw [List.getElem?_append_right le_rfl, Nat.sub_self]
  unfold Instr.upToTerminator
  split <;> rfl

/-- The end of a block has the number of the start of the next one. -/
theorem place_fall (h : Reaches blocks b pre []) :
    place blocks (b + 1) [] = place blocks b pre := by
  rw [place, place, Flow.offset_succ h.getElem?_reachedCode]
  simp [Instr.upToTerminator]

theorem place_next : place blocks b (pre ++ [i]) = place blocks b pre + 1 := by
  rw [place, place, List.length_append, List.length_singleton, Nat.add_assoc]

theorem place_lt (h : Reaches blocks b pre (i :: rest)) :
    place blocks b pre < (Flow.sites (reachedCode blocks (.ofBlocks blocks))).length :=
  (List.getElem?_eq_some_iff.1 h.getElem?_sites).1

end Reaches

/-! ## Live registers -/

namespace Liveness

variable {r n : Nat} {flow : Flow r n} {l : Liveness r n}

theorem mem_behind {node : FlowNode r n} {u : Fin r} :
    u ∈ l.behind node ↔ ∃ j ∈ node.successors, u ∈ l.liveIn.get j := by
  have hfold : ∀ (js : List (Fin n)) (s : BitSet r),
      u ∈ js.foldl (fun s j ↦ s ∪ l.liveIn.get j) s ↔ u ∈ s ∨ ∃ j ∈ js, u ∈ l.liveIn.get j := by
    intro js
    induction js with
    | nil => simp
    | cons hd tl ih =>
      intro s
      rw [List.foldl_cons, ih]
      simp [or_assoc]
  simp [behind, hfold]

theorem isCurrent_iff {i : Fin n} : isCurrent flow l i = true ↔
    l.liveOut.get i = l.behind (flow.get i) ∧
      l.liveIn.get i = inFrontOf (flow.get i) (l.behind (flow.get i)) := by
  simp [isCurrent]

theorem update_of_isCurrent {i : Fin n} (h : isCurrent flow l i = true) : update flow l i = l := by
  obtain ⟨hout, hin⟩ := isCurrent_iff.1 h
  simp only [update]
  rw [← hin, ← hout]
  simp [Vector.get_eq_getElem]

/-- Nothing changes in a sweep if all the sets are current from the start. -/
theorem sweep_snd_eq_false_iff {is : List (Fin n)} :
    (sweep flow is l).2 = false ↔ ∀ i ∈ is, isCurrent flow l i = true := by
  induction is generalizing l with
  | nil => simp [sweep]
  | cons i is ih =>
    simp only [sweep, Bool.or_eq_false_iff, Bool.not_eq_false', List.forall_mem_cons]
    refine and_congr_right fun h ↦ ?_
    rw [update_of_isCurrent h]
    exact ih

/-- The sets are a solution if they satisfy the equations of all the nodes. -/
theorem isFixpoint_iff : l.isFixpoint flow = true ↔ ∀ i, isCurrent flow l i = true := by
  simp [isFixpoint, sweep_snd_eq_false_iff]

/-- The equations of a node: what is live behind it is so in front of a successor, and what is live
in front of it is used, or live behind and not defined. -/
theorem isCurrent_iff_mem {i : Fin n} : isCurrent flow l i = true ↔ ∀ u,
    (u ∈ l.liveOut.get i ↔ ∃ j ∈ (flow.get i).successors, u ∈ l.liveIn.get j) ∧
      (u ∈ l.liveIn.get i ↔ u ∈ (flow.get i).uses ∨
        (u ∈ l.liveOut.get i ∧ u ∉ (flow.get i).defs)) := by
  have hfront : ∀ {out : BitSet r} {u : Fin r}, u ∈ inFrontOf (flow.get i) out ↔
      u ∈ (flow.get i).uses ∨ (u ∈ out ∧ u ∉ (flow.get i).defs) := by
    intro out u
    rw [inFrontOf, BitSet.mem_insertAll, BitSet.mem_eraseAll, or_comm]
  rw [isCurrent_iff]
  constructor
  · rintro ⟨hout, hin⟩ u
    rw [hin, hout, hfront, mem_behind]
    exact ⟨Iff.rfl, Iff.rfl⟩
  · intro h
    have hout : l.liveOut.get i = l.behind (flow.get i) :=
      BitSet.ext_mem fun u ↦ by rw [(h u).1, mem_behind]
    refine ⟨hout, BitSet.ext_mem fun u ↦ ?_⟩
    rw [(h u).2, hfront, hout]

/-- A solution gives what is live behind a node by its successors, and in front of it by what is
live behind. -/
theorem mem_of_isFixpoint (h : l.isFixpoint flow = true) (k : Fin n) (u : Fin r) :
    (u ∈ l.liveOut.get k ↔ ∃ j ∈ (flow.get k).successors, u ∈ l.liveIn.get j) ∧
      (u ∈ l.liveIn.get k ↔ u ∈ (flow.get k).uses ∨
        (u ∈ l.liveOut.get k ∧ u ∉ (flow.get k).defs)) :=
  isCurrent_iff_mem.1 (isFixpoint_iff.1 h k) u

/-- The register is live in front of a place. -/
def IsLiveAt (l : Liveness r n) (k : Nat) (u : Fin r) : Prop :=
  ∃ h : k < n, u ∈ l.liveIn.get ⟨k, h⟩

end Liveness

/-- The flow graph of the code that can be reached. -/
def reachedFlow (ν : Numbering) (blocks : List Block) :
    Flow ν.size (Flow.sites (reachedCode blocks (.ofBlocks blocks))).length :=
  Flow.ofSites ν blocks (.ofBlocks blocks) (reachedCode blocks (.ofBlocks blocks))
    (Flow.sites (reachedCode blocks (.ofBlocks blocks)))

theorem get_reachedFlow (ν : Numbering) (blocks : List Block)
    (k : Fin (Flow.sites (reachedCode blocks (.ofBlocks blocks))).length) :
    (reachedFlow ν blocks).get k =
      Flow.node ν blocks (.ofBlocks blocks) (reachedCode blocks (.ofBlocks blocks))
        (Flow.sites (reachedCode blocks (.ofBlocks blocks))).length
        ((Flow.sites (reachedCode blocks (.ofBlocks blocks))).get k) := by
  simp only [reachedFlow, Flow.ofSites, Vector.get, Vector.map, Array.getElem_map,
    List.getElem_toArray]
  rfl

namespace Reaches

variable {ν : Numbering} {blocks : List Block} {b : Nat} {pre rest : List Instr} {i : Instr}
  {l : Liveness ν.size (Flow.sites (reachedCode blocks (.ofBlocks blocks))).length}

/-- The node of an instruction that control can come to. -/
theorem get_reachedFlow (h : Reaches blocks b pre (i :: rest)) :
    (reachedFlow ν blocks).get ⟨place blocks b pre, h.place_lt⟩ =
      Flow.node ν blocks (.ofBlocks blocks) (reachedCode blocks (.ofBlocks blocks))
        (Flow.sites (reachedCode blocks (.ofBlocks blocks))).length ⟨b, pre.length, i⟩ := by
  rw [RegAlloc.get_reachedFlow]
  exact congrArg _ (List.getElem?_eq_some_iff.1 h.getElem?_sites).2

/-- What is live behind the instruction. -/
def out (l : Liveness ν.size (Flow.sites (reachedCode blocks (.ofBlocks blocks))).length)
    (h : Reaches blocks b pre (i :: rest)) : BitSet ν.size :=
  l.liveOut.get ⟨place blocks b pre, h.place_lt⟩

theorem isLiveAt_of_mem_uses (h : Reaches blocks b pre (i :: rest))
    (hl : l.isFixpoint (reachedFlow ν blocks) = true) {ρ : Reg} {u : Fin ν.size}
    (hρ : ρ ∈ i.uses) (hu : ν.node? ρ = some u) : l.IsLiveAt (place blocks b pre) u := by
  refine ⟨h.place_lt, ((Liveness.mem_of_isFixpoint hl _ u).2).2 (.inl ?_)⟩
  rw [h.get_reachedFlow]
  exact List.mem_filterMap.2 ⟨ρ, hρ, hu⟩

theorem isLiveAt_of_mem_out (h : Reaches blocks b pre (i :: rest))
    (hl : l.isFixpoint (reachedFlow ν blocks) = true) {u : Fin ν.size} (hu : u ∈ h.out l)
    (hd : u ∉ i.defs.filterMap ν.node?) : l.IsLiveAt (place blocks b pre) u := by
  refine ⟨h.place_lt, ((Liveness.mem_of_isFixpoint hl _ u).2).2 (.inr ⟨hu, ?_⟩)⟩
  rw [h.get_reachedFlow]
  exact hd

/-- What is live in front of the next instruction is live behind this one. -/
theorem mem_out_of_next (h : Reaches blocks b pre (i :: rest))
    (hl : l.isFixpoint (reachedFlow ν blocks) = true) (hi : i.isTerminator = false)
    {u : Fin ν.size} (hu : l.IsLiveAt (place blocks b (pre ++ [i])) u) : u ∈ h.out l := by
  rw [place_next] at hu
  obtain ⟨hlt, hu⟩ := hu
  refine ((Liveness.mem_of_isFixpoint hl _ u).1).2 ⟨_, ?_, hu⟩
  rw [h.get_reachedFlow]
  exact Flow.mem_successors.2 (.inr ⟨hi, rfl⟩)

/-- What is live at the start of a block that control can go to is live behind the instruction. -/
theorem mem_out_of_goto (h : Reaches blocks b pre (i :: rest))
    (hl : l.isFixpoint (reachedFlow ν blocks) = true) {label : String} {c : Fin blocks.length}
    (hi : i.target? = some label) (hc : labelled? blocks label = some c)
    {u : Fin ν.size} (hu : l.IsLiveAt (place blocks c []) u) : u ∈ h.out l := by
  obtain ⟨hlt, hu⟩ := hu
  refine ((Liveness.mem_of_isFixpoint hl _ u).1).2 ⟨_, ?_, hu⟩
  rw [h.get_reachedFlow]
  exact Flow.mem_successors.2 (.inl ⟨label, c, hi, hc, rfl⟩)

/-! ## Edges -/

/-- The pairs of one node are edges of the flow graph. -/
theorem mem_edges_of_mem_nodeEdges (h : Reaches blocks b pre (i :: rest)) {coalesce : Bool}
    {e : Fin ν.size × Fin ν.size}
    (he : e ∈ Flow.nodeEdges ((reachedFlow ν blocks).get ⟨place blocks b pre, h.place_lt⟩)
      (h.out l) coalesce) : e ∈ (reachedFlow ν blocks).edges l coalesce :=
  List.mem_flatMap.2 ⟨_, List.mem_reverse.2 (List.mem_finRange _), he⟩

/-- A register that is live behind the instruction interferes with those that it defines; only the
source of a move is left out. -/
theorem mem_edges_of_mem_out (h : Reaches blocks b pre (i :: rest)) {coalesce : Bool}
    {u d : Fin ν.size} (hu : u ∈ h.out l) (hd : d ∈ i.defs.filterMap ν.node?)
    (hmove : i.move?.isSome = true → u ∉ i.uses.filterMap ν.node?) :
    (u, d) ∈ (reachedFlow ν blocks).edges l coalesce := by
  refine h.mem_edges_of_mem_nodeEdges ?_
  rw [h.get_reachedFlow, Flow.nodeEdges, List.mem_append, List.mem_flatMap]
  refine .inl ⟨d, hd, List.mem_map.2 ⟨u, ?_, rfl⟩⟩
  rw [BitSet.mem_toList, BitSet.mem_insertAll]
  refine .inl ?_
  split
  · rename_i hc
    rw [Bool.and_eq_true] at hc
    refine BitSet.mem_eraseAll.2 ⟨hu, hmove ?_⟩
    obtain ⟨x, hx⟩ := Option.isSome_iff_exists.1 hc.2
    obtain ⟨y, hy, -⟩ := Option.bind_eq_some_iff.1 hx
    exact Option.isSome_iff_exists.2 ⟨y, hy⟩
  · exact hu

/-- The two registers of a store to a symbol interfere. -/
theorem mem_edges_of_symbolicStore (h : Reaches blocks b pre (i :: rest)) {coalesce : Bool}
    {ρ σ : Reg} {u v : Fin ν.size} (hi : i.symbolicStore? = some (ρ, σ))
    (hu : ν.node? ρ = some u) (hv : ν.node? σ = some v) :
    (u, v) ∈ (reachedFlow ν blocks).edges l coalesce := by
  refine h.mem_edges_of_mem_nodeEdges ?_
  rw [h.get_reachedFlow, Flow.nodeEdges, List.mem_append]
  refine .inr (Option.mem_toList.2 ?_)
  simp only [Flow.node, hi, Option.bind_some, hu, hv]
  rfl

end Reaches

end RegAlloc

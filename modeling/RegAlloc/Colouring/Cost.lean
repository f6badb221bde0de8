import RegAlloc.Colouring.Run
import RegAlloc.Flow

/-!
# Spill costs

Spilling a register costs a memory access at each of its definitions and uses, and such an access
counts ten times as much in each loop around it. The cost is divided by the number of neighbours for
which the spill makes room; the node with the lowest cost is chosen, and of equal ones the first.
-/

namespace RegAlloc

/-- The power `base ^ exponent`, by repeated squaring: `acc` times it. -/
def floatPower (base acc : Float) : (fuel exponent : Nat) → Float
  | 0, _ => acc
  | fuel + 1, exponent =>
    let acc := if exponent % 2 = 1 then acc * base else acc
    if exponent / 2 = 0 then acc else floatPower (base * base) acc fuel (exponent / 2)

/-- How much an access inside of so many loops counts. -/
def accessWeight (loopDepth : Nat) : Float :=
  floatPower 10 1 (loopDepth + 1) loopDepth

namespace Flow

variable {r n : Nat}

/-- The weighted number of definitions and uses of each register. -/
def accessCosts (flow : Flow r n) : Vector Float r :=
  flow.toList.foldl (fun costs node ↦
    let weight := accessWeight node.loopDepth
    (node.defs ++ node.uses).foldl
      (fun costs (i : Fin r) ↦ costs.set i (costs.get i + weight) i.isLt) costs)
    (Vector.replicate r 0)

end Flow

/-- The cost of a node with the given degree. -/
def spillCost {n : Nat} (costs : Vector Float n) (u : Fin n) (degree : Nat) : Float :=
  costs.get u / Float.ofNat degree

/-- The first of the nodes with the lowest cost. -/
def cheapestNode {n : Nat} (cost : Fin n → Float) (u : Fin n) (us : List (Fin n)) : Fin n :=
  us.foldl (fun best u ↦ if cost u < cost best then u else best) u

theorem cheapestNode_mem {n : Nat} (cost : Fin n → Float) (u : Fin n) (us : List (Fin n)) :
    cheapestNode cost u us ∈ u :: us := by
  induction us generalizing u with
  | nil => exact List.mem_singleton_self u
  | cons hd tl ih =>
    have h := ih (if cost hd < cost u then hd else u)
    rw [List.mem_cons] at h ⊢
    rw [List.mem_cons]
    rcases h with h | h
    · have heq : cheapestNode cost u (hd :: tl) = if cost hd < cost u then hd else u := h
      split at heq
      · exact .inr (.inl heq)
      · exact .inl heq
    · exact .inr (.inr h)

/-- Chooses the cheapest node. -/
def cheapest {n m : Nat} (costs : Vector Float n) : SpillChoice n m := fun s u us ↦
  let cost (u : Fin n) := spillCost costs u (s.graph.degree.get u)
  ⟨cheapestNode cost u us, cheapestNode_mem cost u us⟩

end RegAlloc

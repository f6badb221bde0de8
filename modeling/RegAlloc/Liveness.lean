import RegAlloc.Flow
import RegAlloc.BitSet

/-!
# Liveness

A register is live at a place if its value there may still be read. The live registers behind a node
are those in front of its successors; in front of the node they are those that it uses, and those
behind it that it does not define. The solution is found by going over all the nodes, again and
again, until nothing changes. Any order of the nodes will do; going backwards is the fastest.
-/

namespace RegAlloc

open Text

/-- The registers that are live in front of and behind each of `n` nodes. -/
@[ext]
structure Liveness (r n : Nat) where
  liveIn : Vector (BitSet r) n
  liveOut : Vector (BitSet r) n
  deriving DecidableEq

namespace Liveness

variable {r n : Nat}

/-- No register is live. -/
def empty (r n : Nat) : Liveness r n where
  liveIn := Vector.replicate n ∅
  liveOut := Vector.replicate n ∅

/-- What has to be live behind a node. -/
def behind (l : Liveness r n) (node : FlowNode r n) : BitSet r :=
  node.successors.foldl (fun s i ↦ s ∪ l.liveIn.get i) ∅

/-- What has to be live in front of a node, by what is live behind it. -/
def inFrontOf (node : FlowNode r n) (out : BitSet r) : BitSet r :=
  (out.eraseAll node.defs).insertAll node.uses

/-- Computes the sets of one node anew. -/
def update (flow : Flow r n) (l : Liveness r n) (i : Fin n) : Liveness r n :=
  let out := l.behind (flow.get i)
  { liveIn := l.liveIn.set i (inFrontOf (flow.get i) out) i.isLt
    liveOut := l.liveOut.set i out i.isLt }

/-- Whether the sets of a node are what they would be if they were computed anew. -/
def isCurrent (flow : Flow r n) (l : Liveness r n) (i : Fin n) : Bool :=
  let out := l.behind (flow.get i)
  l.liveOut.get i = out && l.liveIn.get i = inFrontOf (flow.get i) out

/-- Computes the sets of the given nodes anew, one after the other, and says whether any of them has
changed. -/
def sweep (flow : Flow r n) : List (Fin n) → Liveness r n → Liveness r n × Bool
  | [], l => (l, false)
  | i :: is, l =>
    let swept := sweep flow is (update flow l i)
    (swept.1, !isCurrent flow l i || swept.2)

/-- Makes passes over the nodes until one changes nothing, which is counted too. -/
def iterate (flow : Flow r n) (order : List (Fin n)) :
    (fuel passes : Nat) → Liveness r n → Liveness r n × Nat
  | 0, passes, l => (l, passes)
  | fuel + 1, passes, l =>
    let swept := sweep flow order l
    if swept.2 then iterate flow order fuel (passes + 1) swept.1 else (swept.1, passes + 1)

/-- The solution that is found by visiting the nodes in the given order, and the number of passes to
it. Every pass but the last one adds a register to one of the sets. -/
def solveAlong (flow : Flow r n) (order : List (Fin n)) : Liveness r n × Nat :=
  iterate flow order (2 * r * n + 1) 0 (empty r n)

/-- The solution that is found backwards. -/
def solve (flow : Flow r n) : Liveness r n × Nat :=
  solveAlong flow flow.order

/-- Whether the sets of all the nodes fit together: another pass changes none of them. -/
def isFixpoint (flow : Flow r n) (l : Liveness r n) : Bool :=
  !(sweep flow (List.finRange n) l).2

/-- One line for each node. -/
def text (l : Liveness r n) : String :=
  let numbers (s : BitSet r) := bracketed (s.toList.map Fin.val)
  unlines <| (List.finRange n).map fun i ↦
    toString i.val ++ " => live_in: " ++ numbers (l.liveIn.get i) ++ " live_out: " ++
      numbers (l.liveOut.get i)

end Liveness

end RegAlloc

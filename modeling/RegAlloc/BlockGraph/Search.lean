/-!
# Searches in a finite graph

Two searches in a graph that is given by the list of the next nodes of each node. `Search` is a
depth-first search which also finds the edges back to a node on the way to the current one;
`gather` collects what can be reached inside a set of nodes.
-/

namespace RegAlloc

variable {α : Type} [DecidableEq α]

/-- The state of a depth-first search. -/
structure Search (α : Type) where
  /-- The nodes on the way to the current one, which comes first, each with its next nodes that have
  not been looked at. -/
  path : List (α × List α)
  seen : List α
  /-- The edges, newest first, that were found to go back to a node of the path. -/
  backEdges : List (α × α)

namespace Search

/-- The search that has only seen where it starts. -/
def start (next : α → List α) (a : α) : Search α where
  path := [(a, next a)]
  seen := [a]
  backEdges := []

/-- Looks at one next node of the current node, or goes back if there is none. -/
def step (next : α → List α) (s : Search α) : Search α :=
  match s.path with
  | [] => s
  | (_, []) :: path => { s with path }
  | (a, b :: bs) :: path =>
    let path := (a, bs) :: path
    if b ∈ path.map Prod.fst then { s with path, backEdges := (a, b) :: s.backEdges }
    else if b ∈ s.seen then { s with path }
    else { s with path := (b, next b) :: path, seen := b :: s.seen }

/-- Goes on until the path is empty, for at most the given number of steps. -/
def run (next : α → List α) : Nat → Search α → Search α
  | 0, s => s
  | fuel + 1, s => if s.path.isEmpty then s else run next fuel (s.step next)

/-- The whole search from `a`, in a graph with the given nodes: every step either uses up an edge or
leaves a node for good. -/
def complete (next : α → List α) (nodes : List α) (a : α) : Search α :=
  run next (nodes.length + (nodes.flatMap next).length) (start next a)

end Search

/-- The nodes of `domain` that are pending, and all that can be reached from them inside of
`domain`; `fuel` is at least the size of `domain`, from which each step takes one node. -/
def gather (next : α → List α) : (fuel : Nat) → (domain pending : List α) → List α
  | 0, _, _ => []
  | fuel + 1, domain, pending =>
    match pending.find? (· ∈ domain) with
    | none => []
    | some a => a :: gather next fuel (domain.erase a) (next a ++ pending)

end RegAlloc

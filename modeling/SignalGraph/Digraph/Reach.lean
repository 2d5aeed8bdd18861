/-!
# SignalGraph.Digraph.Reach

The nodes that can be reached in a directed graph, breadth first.
-/

namespace SignalGraph.Digraph

variable {α : Type} [BEq α]

/-- Takes nodes off a queue and adds their successors that have not been seen.  The number bounds
how many nodes are taken. -/
def explore (successors : α → List α) : Nat → List α → List α → List α
  | 0, _, seen => seen
  | _, [], seen => seen
  | n + 1, x :: queue, seen =>
    let fresh := ((successors x).filter (!seen.contains ·)).eraseDups
    explore successors n (queue ++ fresh) (seen ++ fresh)

/-- The nodes that can be reached from `start` in a graph of at most `size` nodes. -/
def reachable (successors : α → List α) (size : Nat) (start : α) : List α :=
  explore successors size [start] [start]

end SignalGraph.Digraph

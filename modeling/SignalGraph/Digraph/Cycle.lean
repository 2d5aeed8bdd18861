/-!
# SignalGraph.Digraph.Cycle

Finding a cycle in a directed graph, depth first.  The graph is given by the labelled edges that
leave each node.  A node is on the stack while the nodes after it are searched, and done
afterwards; an edge to a node on the stack closes a cycle, one to a node that is done is skipped.
-/

namespace SignalGraph.Digraph

variable {α β : Type} [BEq α]

/-- A cycle: its nodes, each with an edge to the next, and the label of the edge from the last
back to the first. -/
structure Cycle (α β : Type) where
  nodes : List α
  closing : β
deriving Repr

/-- What a search has found: a cycle, or that none passes through the nodes that are done. -/
inductive Outcome (α β : Type) where
  | cycle (c : Cycle α β)
  | clear (done : List α)

/-- The nodes of a stack from `x`, which is on it, up to the top.  Stacks have their top first. -/
def fromNode (stack : List α) (x : α) : List α := x :: (stack.takeWhile (· != x)).reverse

/-- Follows the edges that leave the top of the stack. -/
def followEdges (visit : List α → α → Outcome α β) (stack : List α) :
    List (β × α) → List α → Outcome α β
  | [], done => .clear done
  | (label, y) :: edges, done =>
    if stack.contains y then .cycle ⟨fromNode stack y, label⟩
    else if done.contains y then followEdges visit stack edges done
    else
      match visit done y with
      | .cycle c => .cycle c
      | .clear done => followEdges visit stack edges done

/-- Searches from a node that is neither on the stack nor done.  The first number bounds the
depth. -/
def visit (edges : α → List (β × α)) : Nat → List α → List α → α → Outcome α β
  | 0, _, done, _ => .clear done
  | n + 1, stack, done, x =>
    match followEdges (visit edges n (x :: stack)) (x :: stack) (edges x) done with
    | .cycle c => .cycle c
    | .clear done => .clear (x :: done)

/-- Searches from every node of a list that is not done. -/
def searchAll (edges : α → List (β × α)) (bound : Nat) : List α → List α → Outcome α β
  | [], done => .clear done
  | x :: xs, done =>
    if done.contains x then searchAll edges bound xs done
    else
      match visit edges bound [] done x with
      | .cycle c => .cycle c
      | .clear done => searchAll edges bound xs done

/-- The first cycle that is met from the given nodes, which hold all nodes with edges. -/
def findCycle? (edges : α → List (β × α)) (nodes : List α) : Option (Cycle α β) :=
  match searchAll edges (nodes.length + 1) nodes [] with
  | .cycle c => some c
  | .clear _ => none

end SignalGraph.Digraph

import SignalGraph.Digraph.Cycle
import SignalGraph.Link.Fault
import SignalGraph.Program.Basic

/-!
# SignalGraph.Link.Feedback

Feedback: a loop of connections between nodes of a graph on which nothing is delayed.
-/

namespace SignalGraph.Link

/-- The connections without delay that leave a node, and the nodes that they lead to. -/
def directEdges (m : Module) (node : NodeId) : List (ConnectionId × NodeId) :=
  m.connections.entries.filterMap fun (id, c) =>
    match c.source.node, c.dest.node with
    | some a, some b =>
      if a = node && !c.isDelayed && b.idx < m.nodes.size then some (id, b) else none
    | _, _ => none

/-- A loop without delay. -/
def feedback? (m : Module) : Option (Digraph.Cycle NodeId ConnectionId) :=
  Digraph.findCycle? (directEdges m) m.nodes.handles

/-- The nodes of a loop, the first one again at the end. -/
def loopNodes (c : Digraph.Cycle NodeId ConnectionId) : List NodeId := c.nodes ++ c.nodes.take 1

/-- Fails if a graph has feedback; the place is the connection that closes the loop. -/
def checkFeedback (m : Module) : Except Diagnostic Unit :=
  match feedback? m with
  | none => .ok ()
  | some c =>
    let names := (loopNodes c).map fun id => (m.nodes.get id).name
    .error ((Fault.feedback names).diagnose (m.connections.get c.closing).span)

end SignalGraph.Link

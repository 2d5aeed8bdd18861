import SignalGraph.Link.Feedback
import SignalGraph.Proofs.Digraph.Loops
import SignalGraph.Proofs.Handle

/-!
# SignalGraph.Proofs.Link.FeedbackLoops

Feedback is found exactly where there is some: the edges of the search are the connections without
delay between two nodes of the graph (`mem_directEdges_iff`), so the search finds a loop of these,
and finds one if there is any (`feedback?_exact`).
-/

namespace SignalGraph

namespace Module

variable (m : Module)

/-- A connection leads from the first node to the second, and its delay is absent or not
positive. -/
structure Feeds (id : ConnectionId) (a b : NodeId) : Prop where
  source : a ∈ m.nodes.handles
  dest : b ∈ m.nodes.handles
  direct : ∃ c, m.connections.get? id = some c ∧ c.source.node = some a ∧ c.dest.node = some b ∧
    ∀ d, c.delay = some d → d ≤ 0

/-- Some connection without delay leads from the first node to the second. -/
def Fed (a b : NodeId) : Prop := ∃ id, m.Feeds id a b

/-- A way along connections without delay that comes back to where it starts and passes every other
node once; the named connection is the last of them. -/
structure FeedbackLoop (nodes : List NodeId) (closing : ConnectionId) : Prop where
  length : 2 ≤ nodes.length
  closed : nodes.head? = nodes.getLast?
  nodup : nodes.dropLast.Nodup
  fed : nodes.IsChain m.Fed
  last : ∃ a b, nodes.dropLast.getLast? = some a ∧ nodes.getLast? = some b ∧ m.Feeds closing a b

end Module

namespace Connection

theorem isDelayed_eq_false_iff {c : Connection} :
    c.isDelayed = false ↔ ∀ d, c.delay = some d → d ≤ 0 := by
  unfold isDelayed
  cases c.delay <;> simp

end Connection

namespace Link

variable {m : Module}

/-- The edges that leave a node of the graph are its connections without delay to other nodes. -/
theorem mem_directEdges_iff {id : ConnectionId} {a b : NodeId} (ha : a ∈ m.nodes.handles) :
    (id, b) ∈ directEdges m a ↔ m.Feeds id a b := by
  simp only [directEdges, List.mem_filterMap, Prod.exists]
  constructor
  · rintro ⟨k, c, hc, hedge⟩
    split at hedge
    · next x y hx hy =>
      simp only [Option.ite_none_right_eq_some, Option.some.injEq, Prod.mk.injEq,
        Bool.and_eq_true, decide_eq_true_eq, Bool.not_eq_true'] at hedge
      obtain ⟨⟨⟨rfl, hdirect⟩, hlt⟩, rfl, rfl⟩ := hedge
      exact ⟨ha, Arena.mem_handles_iff.mpr hlt, c, Arena.mem_entries_iff.mp hc, hx, hy,
        Connection.isDelayed_eq_false_iff.mp hdirect⟩
    · cases hedge
  · rintro ⟨-, hb, c, hc, hsource, hdest, hdelay⟩
    have hdirect : c.isDelayed = false := Connection.isDelayed_eq_false_iff.mpr hdelay
    have hlt : b.idx < m.nodes.size := Arena.mem_handles_iff.mp hb
    refine ⟨id, c, Arena.mem_entries_iff.mpr hc, ?_⟩
    simp [hsource, hdest, hdirect, hlt]

/-- Edges only lead to nodes of the graph. -/
theorem mem_handles_of_directEdge {id : ConnectionId} {a b : NodeId}
    (h : (id, b) ∈ directEdges m a) : b ∈ m.nodes.handles := by
  obtain ⟨⟨k, c⟩, -, hedge⟩ := List.mem_filterMap.mp h
  dsimp only at hedge
  split at hedge
  · simp only [Option.ite_none_right_eq_some, Option.some.injEq, Prod.mk.injEq,
      Bool.and_eq_true, decide_eq_true_eq] at hedge
    obtain ⟨⟨-, hlt⟩, -, rfl⟩ := hedge
    exact Arena.mem_handles_iff.mpr hlt
  · cases hedge

theorem fed_of_joins {a b : NodeId} (ha : a ∈ m.nodes.handles)
    (h : Digraph.Joins (directEdges m) a b) : m.Fed a b :=
  h.imp fun _ he => (mem_directEdges_iff ha).mp he

theorem joins_of_fed {a b : NodeId} (h : m.Fed a b) : Digraph.Joins (directEdges m) a b :=
  h.imp fun _ hid => (mem_directEdges_iff hid.source).mpr hid

/-- A node is on a cycle of the search if and only if it is on one of the graph. -/
theorem transGen_joins_self_iff {a : NodeId} :
    Relation.TransGen (Digraph.Joins (directEdges m)) a a ↔ Relation.TransGen m.Fed a a :=
  Digraph.transGen_joins_self_iff (fun _ _ => joins_of_fed)
    (fun _ _ ⟨_, he⟩ => mem_handles_of_directEdge he) fun _ _ => fed_of_joins

/-- A loop that the search finds, with its first node repeated, is feedback. -/
theorem feedbackLoop_of_isLoop {c : Digraph.Cycle NodeId ConnectionId}
    (h : c.IsLoop (directEdges m)) : m.FeedbackLoop (loopNodes c) c.closing := by
  obtain ⟨first, last, hfirst, hlast, hclosing⟩ := h.closed
  have hwhole : loopNodes c = c.nodes ++ [first] := by
    rw [loopNodes, List.take_one, hfirst, Option.toList_some]
  have hlen : 0 < c.nodes.length := List.length_pos_iff.mpr h.ne_nil
  have hhandles : ∀ x ∈ c.nodes, x ∈ m.nodes.handles := by
    intro x hx
    obtain ⟨a, id, he⟩ := h.exists_joins hx
    exact mem_handles_of_directEdge he
  have hfeeds : m.Feeds c.closing last first :=
    (mem_directEdges_iff (hhandles last (List.mem_of_getLast? hlast))).mp hclosing
  have hfed : c.nodes.IsChain m.Fed :=
    h.joined.imp_of_mem_imp fun a b ha _ => fed_of_joins (hhandles a ha)
  rw [hwhole]
  refine ⟨?_, ?_, ?_, ?_, last, first, ?_, ?_, hfeeds⟩
  · rw [List.length_append, List.length_singleton]
    omega
  · rw [List.head?_append, hfirst, List.getLast?_concat, Option.some_or]
  · rw [List.dropLast_concat]
    exact h.nodup
  · refine List.isChain_append.mpr ⟨hfed, .singleton first, ?_⟩
    intro a ha b hb
    obtain rfl : last = a := Option.some.inj (hlast.symm.trans ha)
    obtain rfl : first = b := by simpa using hb
    exact ⟨c.closing, hfeeds⟩
  · rw [List.dropLast_concat, hlast]
  · exact List.getLast?_concat

/-- The search for feedback is exact.  It finds none if and only if the connections without delay
between nodes of the graph form no cycle, and what it finds is such a cycle. -/
theorem feedback?_exact (m : Module) :
    (feedback? m = none ↔ ∀ a, ¬ Relation.TransGen m.Fed a a) ∧
      ∀ c, feedback? m = some c → m.FeedbackLoop (loopNodes c) c.closing := by
  refine ⟨?_, fun c hc => feedbackLoop_of_isLoop (Digraph.isLoop_of_findCycle? hc)⟩
  have hclosed : ∀ a id b, (id, b) ∈ directEdges m a →
      b ∈ m.nodes.handles ∨ directEdges m b = [] :=
    fun _ _ _ he => .inl (mem_handles_of_directEdge he)
  simp only [feedback?, Digraph.findCycle?_eq_none_iff hclosed, transGen_joins_self_iff]

/-- Node `b` feeds node `a` back twice, after one frame and at once. -/
def resonator : Module where
  kind := .graph
  name := "Resonator"
  nodes := ⟨#[{ name := "a", source := "P" }, { name := "b", source := "P" }]⟩
  connections := ⟨#[
    { source := { node := some ⟨0⟩, endpoint := "out" }
      dest := { node := some ⟨1⟩, endpoint := "in" } },
    { source := { node := some ⟨1⟩, endpoint := "out" }
      dest := { node := some ⟨0⟩, endpoint := "in" }
      delay := some 1 },
    { source := { node := some ⟨1⟩, endpoint := "out" }
      dest := { node := some ⟨0⟩, endpoint := "in" }
      delay := some 0 }]⟩

theorem feedback?_exact_resonator :
    (∃ c, feedback? resonator = some c ∧ loopNodes c = [⟨0⟩, ⟨1⟩, ⟨0⟩] ∧ c.closing = ⟨2⟩) ∧
      resonator.FeedbackLoop [⟨0⟩, ⟨1⟩, ⟨0⟩] ⟨2⟩ := by
  have hfound : feedback? resonator = some ⟨[⟨0⟩, ⟨1⟩], ⟨2⟩⟩ := by rfl
  exact ⟨⟨_, hfound, rfl, rfl⟩, (feedback?_exact resonator).2 _ hfound⟩

end Link

end SignalGraph

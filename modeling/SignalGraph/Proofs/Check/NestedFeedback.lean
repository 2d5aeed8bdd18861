import SignalGraph.Proofs.Check.Verdicts
import SignalGraph.Proofs.Link.FeedbackLoops
import SignalGraph.Proofs.Link.Growth

/-!
# SignalGraph.Proofs.Check.NestedFeedback

Verified programs have no feedback without delay, at any depth of nesting.

The check looks at each graph alone and takes a node for a single point, whatever is inside of it.
Here a graph is expanded into the tree of all instances that it is made of: `Occurs` follows nodes
into the graphs that they are instances of, and `Flows` leads from endpoint to endpoint of that
tree, along connections without delay and through processors.

Main statement: data never flows back to where it came from (`linkAndVerify_acyclic`).  On a cycle
of least depth no endpoint belongs to the graph around it, since data enters a graph by its inputs
only and leaves it by its outputs only.  So the cycle either runs through several nodes of one
graph, which the check of that graph rules out, or stays inside of one node and touches that node's
endpoints from the inside, entering by an output or leaving by an input.
-/

namespace SignalGraph

/-! ## What resolved connections say -/

namespace Link

variable {p : Program} {graph : ModuleId} {r : EndpointRef} {side : Side} {span : Span}
  {x : ResolvedEnd × EndpointDetails}

theorem endOwner_of_resolveEnd (h : resolveEnd p graph r side span = .ok x) :
    ∃ owner node k, endOwner p graph r span = .ok (owner, node) ∧
      (p.moduleAt owner).findEndpoint? r.endpoint = some k ∧
      ((p.moduleAt owner).endpoints.get k).direction = usableDirection side node.isSome := by
  simp only [resolveEnd, Check.bind_eq_ok] at h
  obtain ⟨⟨owner, node⟩, howner, h⟩ := h
  split at h
  · cases h
  · next k hk =>
    refine ⟨owner, node, k, howner, hk, ?_⟩
    by_cases hdirection : ((p.moduleAt owner).endpoints.get k).direction =
        usableDirection side node.isSome
    · exact hdirection
    · simp [hdirection, bind, Except.bind, throw, throwThe, MonadExceptOf.throw] at h

/-- An endpoint of the graph itself is used from the inside. -/
theorem own_of_resolveEnd (h : resolveEnd p graph r side span = .ok x) (hnode : r.node = none) :
    ∃ k, (p.moduleAt graph).findEndpoint? r.endpoint = some k ∧
      ((p.moduleAt graph).endpoints.get k).direction = usableDirection side false := by
  obtain ⟨owner, node, k, howner, hk, hdirection⟩ := endOwner_of_resolveEnd h
  simp only [endOwner, hnode, Except.ok.injEq, Prod.mk.injEq] at howner
  obtain ⟨rfl, rfl⟩ := howner
  exact ⟨k, hk, hdirection⟩

/-- A node that a connection refers to is a node of the graph. -/
theorem node_of_resolveEnd (h : resolveEnd p graph r side span = .ok x) {id : NodeId}
    (hnode : r.node = some id) : id.idx < (p.moduleAt graph).nodes.size := by
  obtain ⟨owner, node, k, howner, -⟩ := endOwner_of_resolveEnd h
  simp only [endOwner, hnode] at howner
  split at howner
  · cases howner
  · next n hn => exact Arena.lt_size_of_get? hn

end Link

namespace Check

/-! ## The expansion of a graph -/

/-- A path of nodes, the innermost first, leads from a graph to an instance of a module. -/
inductive Occurs (p : Program) (root : ModuleId) : List NodeId → ModuleId → Prop
  | root : Occurs p root [] root
  | node {path : List NodeId} {graph child : ModuleId} {id : NodeId} {n : Node} :
      Occurs p root path graph → graph ∈ p.graphs →
      (p.moduleAt graph).nodes.get? id = some n → p.findModule? n.source = some child →
      Occurs p root (id :: path) child

/-- An endpoint of one of the instances. -/
structure EndpointOccurrence where
  path : List NodeId
  endpoint : String

/-- The endpoint that a connection of the graph at `path` refers to. -/
def endOccurrence (path : List NodeId) (r : EndpointRef) : EndpointOccurrence :=
  ⟨r.node.toList ++ path, r.endpoint⟩

/-- Data passes without delay at the instance at `path`: along a connection of a graph, or from an
input to an output of a processor. -/
inductive FlowsAt (p : Program) (root : ModuleId) (path : List NodeId) :
    EndpointOccurrence → EndpointOccurrence → Prop
  | connection {graph : ModuleId} {w : Connection} :
      Occurs p root path graph → graph ∈ p.graphs → w ∈ (p.moduleAt graph).connections.toList →
      w.isDelayed = false →
      FlowsAt p root path (endOccurrence path w.source) (endOccurrence path w.dest)
  | processor {id : ModuleId} {input output : Endpoint} :
      Occurs p root path id → (p.moduleAt id).isProcessor → input ∈ (p.moduleAt id).inputs →
      output ∈ (p.moduleAt id).outputs →
      FlowsAt p root path ⟨path, input.name⟩ ⟨path, output.name⟩

/-- Data passes without delay somewhere in the expansion of a graph. -/
def Flows (p : Program) (root : ModuleId) (x y : EndpointOccurrence) : Prop :=
  ∃ path, FlowsAt p root path x y

variable {p : Program} {root : ModuleId}

/-- A path leads to one module only. -/
theorem Occurs.unique {path : List NodeId} {id id' : ModuleId} (h : Occurs p root path id)
    (h' : Occurs p root path id') : id = id' := by
  induction h generalizing id' with
  | root =>
      cases h'
      rfl
  | node _ _ hnode hsource ih =>
      cases h' with
      | node houter' _ hnode' hsource' =>
          cases ih houter'
          cases hnode.symm.trans hnode'
          exact Option.some.inj (hsource.symm.trans hsource')

/-! ## Programs without feedback in single graphs -/

/-- The rules that matter for feedback. -/
structure Feedforward (p : Program) : Prop where
  resolves : ∀ graph ∈ p.graphs, ∀ w ∈ (p.moduleAt graph).connections.toList,
    ∃ r, Link.resolveConnection p graph w = .ok r
  feedback : ∀ graph ∈ p.graphs, Link.feedback? (p.moduleAt graph) = none
  names : ∀ id, (p.moduleAt id).isProcessor →
    ((p.moduleAt id).endpoints.toList.map (·.name)).Nodup

theorem verified_feedforward {q : Program} {settings : Settings}
    (h : linkAndVerify q settings = .ok p) : Feedforward p := by
  obtain ⟨c, -, hrules⟩ := verified_keeps h
  refine ⟨fun graph hgraph w hw => connections_resolve (hrules .connections) hgraph hw,
    fun graph hgraph => feedback?_eq_none (hrules .graphCycles) hgraph, fun id hprocessor => ?_⟩
  cases hm : p.modules.get? id with
  | none =>
      have hdefault : p.moduleAt id = default := by simp [Program.moduleAt, Arena.get, hm]
      rw [hdefault]
      exact List.nodup_nil
  | some m =>
      have hat : p.moduleAt id = m := Arena.get_eq_of_get? hm
      rw [hat] at hprocessor ⊢
      refine checkModules_endpoints (hrules .moduleStructure) hm ?_
      rw [Module.isProcessor, beq_iff_eq] at hprocessor
      simp [Module.isNamespace, hprocessor]

namespace Feedforward

variable (h : Feedforward p)

include h

/-- Both ends of a connection have been found. -/
theorem ends {graph : ModuleId} (hgraph : graph ∈ p.graphs) {w : Connection}
    (hw : w ∈ (p.moduleAt graph).connections.toList) :
    (∃ x, Link.resolveEnd p graph w.source .source w.span = .ok x) ∧
      ∃ y, Link.resolveEnd p graph w.dest .destination w.span = .ok y := by
  obtain ⟨r, hr⟩ := h.resolves graph hgraph w hw
  simp only [Link.resolveConnection, bind_eq_ok] at hr
  obtain ⟨x, hx, y, hy, -⟩ := hr
  exact ⟨⟨x, hx⟩, ⟨y, hy⟩⟩

/-- No path of direct connections leads from a node of a graph back to it. -/
theorem not_transGen_self {graph : ModuleId} (hgraph : graph ∈ p.graphs) (id : NodeId) :
    ¬ Relation.TransGen (fun a b => ∃ label, (label, b) ∈ Link.directEdges (p.moduleAt graph) a)
      id id := by
  have hclosed : ∀ a label b, (label, b) ∈ Link.directEdges (p.moduleAt graph) a →
      b ∈ (p.moduleAt graph).nodes.handles ∨ Link.directEdges (p.moduleAt graph) b = [] :=
    fun _ _ _ hb => .inl (Link.mem_handles_of_directEdge hb)
  exact (Digraph.findCycle?_eq_none_iff hclosed).mp (h.feedback graph hgraph) id

/-- A connection between two nodes is an edge of the check. -/
theorem edge {graph : ModuleId} (hgraph : graph ∈ p.graphs) {w : Connection}
    (hw : w ∈ (p.moduleAt graph).connections.toList) (hdirect : w.isDelayed = false)
    {a b : NodeId} (ha : w.source.node = some a) (hb : w.dest.node = some b) :
    ∃ label, (label, b) ∈ Link.directEdges (p.moduleAt graph) a := by
  obtain ⟨k, hk⟩ := Arena.mem_toList_iff.mp hw
  obtain ⟨-, y, hy⟩ := h.ends hgraph hw
  have hlt := Link.node_of_resolveEnd hy hb
  refine ⟨k, List.mem_filterMap.mpr ⟨(k, w), Arena.mem_entries_iff.mpr hk, ?_⟩⟩
  simp [ha, hb, hdirect, hlt]

omit h in
/-- With distinct names an endpoint is found by its own. -/
theorem findEndpoint?_name {m : Module} (hnames : (m.endpoints.toList.map (·.name)).Nodup)
    {e : Endpoint} (he : e ∈ m.endpoints.toList) :
    ∃ k, m.findEndpoint? e.name = some k ∧ m.endpoints.get k = e := by
  obtain ⟨k, hk⟩ := Arena.mem_toList_iff.mp he
  refine ⟨k, Arena.find?_eq_some_iff.mpr ⟨e, hk, beq_self_eq_true _, ?_⟩, Arena.get_eq_of_get? hk⟩
  intro j x hj hx hname
  have heq : j = k := Arena.handle_eq_of_nodup hnames hx hk (eq_of_beq hname)
  exact absurd (heq ▸ hj) (Nat.lt_irrefl _)

/-- What an instance passes on to an endpoint of its own is an output of it. -/
theorem output_of_flowsAt {path : List NodeId} {x y : EndpointOccurrence}
    (hflow : FlowsAt p root path x y) (hy : y.path = path) :
    ∃ id k, Occurs p root path id ∧ (p.moduleAt id).findEndpoint? y.endpoint = some k ∧
      ((p.moduleAt id).endpoints.get k).direction = .output := by
  cases hflow with
  | @connection graph w here hgraph hw _ =>
      have hown : w.dest.node = none := by simpa [endOccurrence] using hy
      obtain ⟨-, y, hend⟩ := h.ends hgraph hw
      obtain ⟨k, hk, hdirection⟩ := Link.own_of_resolveEnd hend hown
      exact ⟨graph, k, here, hk, hdirection⟩
  | @processor id _ output here hprocessor _ hout =>
      obtain ⟨hmem, hdirection⟩ := List.mem_filter.mp hout
      obtain ⟨k, hk, hget⟩ := findEndpoint?_name (h.names id hprocessor) hmem
      refine ⟨id, k, here, hk, ?_⟩
      rw [hget]
      exact eq_of_beq hdirection

/-- What an instance takes from an endpoint of its own is an input of it. -/
theorem input_of_flowsAt {path : List NodeId} {x y : EndpointOccurrence}
    (hflow : FlowsAt p root path x y) (hx : x.path = path) :
    ∃ id k, Occurs p root path id ∧ (p.moduleAt id).findEndpoint? x.endpoint = some k ∧
      ((p.moduleAt id).endpoints.get k).direction = .input := by
  cases hflow with
  | @connection graph w here hgraph hw _ =>
      have hown : w.source.node = none := by simpa [endOccurrence] using hx
      obtain ⟨⟨y, hend⟩, -⟩ := h.ends hgraph hw
      obtain ⟨k, hk, hdirection⟩ := Link.own_of_resolveEnd hend hown
      exact ⟨graph, k, here, hk, hdirection⟩
  | @processor id input _ here hprocessor hin _ =>
      obtain ⟨hmem, hdirection⟩ := List.mem_filter.mp hin
      obtain ⟨k, hk, hget⟩ := findEndpoint?_name (h.names id hprocessor) hmem
      refine ⟨id, k, here, hk, ?_⟩
      rw [hget]
      exact eq_of_beq hdirection

/-- An instance does not take from one of its endpoints what it passes on to it. -/
theorem not_through {path : List NodeId} {x y z : EndpointOccurrence} (hy : y.path = path)
    (hin : FlowsAt p root path x y) (hout : FlowsAt p root path y z) : False := by
  obtain ⟨id, k, here, hk, houtput⟩ := h.output_of_flowsAt hin hy
  obtain ⟨id', k', here', hk', hinput⟩ := h.input_of_flowsAt hout hy
  cases here.unique here'
  cases hk.symm.trans hk'
  rw [houtput] at hinput
  cases hinput

/-! ## Cycles -/

/-- Data that is inside of node `i` of the graph at `outer` passes on inside of it, or by a
connection of that graph to another node, or to the graph's own endpoints. -/
theorem flows_cases {outer : List NodeId} {graph : ModuleId} (hgraph : Occurs p root outer graph)
    {i : NodeId} {l : List NodeId} {x y : EndpointOccurrence} (hx : x.path = l ++ i :: outer)
    (hflow : Flows p root x y) :
    (∃ l' below, y.path = l' ++ i :: outer ∧ FlowsAt p root (below ++ i :: outer) x y) ∨
      (∃ j, y.path = j :: outer ∧
        ∃ label, (label, j) ∈ Link.directEdges (p.moduleAt graph) i) ∨ y.path = outer := by
  obtain ⟨path, hflow⟩ := hflow
  have hflow' := hflow
  cases hflow with
  | processor => exact .inl ⟨l, l, hx, hx ▸ hflow'⟩
  | @connection g w here hg hw hdirect =>
      have hx : w.source.node.toList ++ path = l ++ i :: outer := hx
      have hinside : ∀ below, path = below ++ i :: outer →
          ∃ l' below, (endOccurrence path w.dest).path = l' ++ i :: outer ∧
            FlowsAt p root (below ++ i :: outer) (endOccurrence path w.source)
              (endOccurrence path w.dest) := by
        rintro below rfl
        exact ⟨w.dest.node.toList ++ below, below, by simp [endOccurrence], hflow'⟩
      cases hsource : w.source.node with
      | none =>
          rw [hsource] at hx
          exact .inl (hinside l hx)
      | some k =>
          rw [hsource] at hx
          cases l with
          | cons k' l => exact .inl (hinside l (List.cons.inj hx).2)
          | nil =>
              obtain ⟨rfl, rfl⟩ := List.cons.inj hx
              cases here.unique hgraph
              cases hdest : w.dest.node with
              | none => exact .inr (.inr (by simp [endOccurrence, hdest]))
              | some j =>
                  exact .inr (.inl ⟨j, by simp [endOccurrence, hdest],
                    h.edge hg hw hdirect hsource hdest⟩)

omit h in
/-- An instance joins endpoints of its own and of its nodes. -/
theorem suffix_of_flowsAt {path : List NodeId} {x y : EndpointOccurrence}
    (hflow : FlowsAt p root path x y) : path <:+ x.path ∧ path <:+ y.path := by
  cases hflow with
  | connection => exact ⟨List.suffix_append _ _, List.suffix_append _ _⟩
  | processor => exact ⟨List.suffix_refl _, List.suffix_refl _⟩

omit h in
/-- Where data flows there are instances. -/
theorem occurs_of_flows {i : NodeId} {outer : List NodeId} {x y : EndpointOccurrence}
    (hflow : Flows p root x y) (hx : x.path = i :: outer) :
    ∃ graph ∈ p.graphs, Occurs p root outer graph := by
  obtain ⟨path, hflow⟩ := hflow
  have hinner : ∀ id, Occurs p root (i :: outer) id →
    ∃ graph ∈ p.graphs, Occurs p root outer graph := by
    intro id hid
    cases hid with
    | node houter hgraph _ _ => exact ⟨_, hgraph, houter⟩
  cases hflow with
  | processor here =>
      obtain rfl : path = i :: outer := hx
      exact hinner _ here
  | @connection graph w here hgraph =>
      have hx : w.source.node.toList ++ path = i :: outer := hx
      cases hsource : w.source.node with
      | none =>
          rw [hsource] at hx
          exact hinner graph (hx ▸ here)
      | some k =>
          rw [hsource] at hx
          exact ⟨graph, hgraph, (List.cons.inj hx).2 ▸ here⟩

/-- On a cycle that never comes out of the graph at `outer`, data gets from node to node of that
graph along its direct connections, or else stays inside of one node. -/
theorem reach_cases {outer : List NodeId} {graph : ModuleId} (hgraph : Occurs p root outer graph)
    (hdeep : ∀ w, Relation.TransGen (Flows p root) w w → outer.length < w.path.length)
    {i : NodeId} {v w : EndpointOccurrence} (hv : v.path = i :: outer)
    (hcycle : Relation.TransGen (Flows p root) v v)
    (hreach : Relation.ReflTransGen (Flows p root) v w)
    (hback : Relation.ReflTransGen (Flows p root) w v) :
    ∃ j l, w.path = l ++ j :: outer ∧
      (Relation.TransGen
          (fun a b => ∃ label, (label, b) ∈ Link.directEdges (p.moduleAt graph) a) i j ∨
        j = i ∧ Relation.ReflTransGen
          (fun x y => ∃ below, FlowsAt p root (below ++ i :: outer) x y) v w) := by
  induction hreach with
  | refl => exact ⟨i, [], hv, .inr ⟨rfl, .refl⟩⟩
  | @tail u w hreach hstep ih =>
      obtain ⟨j, l, hu, hj⟩ := ih (hback.head hstep)
      rcases h.flows_cases hgraph hu hstep with ⟨l', below, hw, hinside⟩ | ⟨k, hw, hedge⟩ | hw
      · refine ⟨j, l', hw, hj.imp_right ?_⟩
        rintro ⟨rfl, hstay⟩
        exact ⟨rfl, hstay.tail ⟨below, hinside⟩⟩
      · refine ⟨k, [], hw, .inl ?_⟩
        rcases hj with hj | ⟨rfl, -⟩
        · exact hj.tail hedge
        · exact .single hedge
      · -- the graph's own endpoints do not lie on the cycle
        have hround := hcycle.trans_left (hreach.tail hstep)
        have hshort := hdeep w (Relation.TransGen.trans_right hback hround)
        rw [hw] at hshort
        exact absurd hshort (Nat.lt_irrefl _)

/-- Data never flows back to where it came from. -/
theorem acyclic (v : EndpointOccurrence) : ¬ Relation.TransGen (Flows p root) v v := by
  induction hn : v.path.length using Nat.strongRecOn generalizing v with
  | _ n ih =>
      subst hn
      intro hcycle
      -- the occurrence is the outermost one of all cycles, so every cycle stays as deep as it
      have hdeep : ∀ w, Relation.TransGen (Flows p root) w w → v.path.length ≤ w.path.length := by
        intro w hw
        by_contra hlt
        exact ih _ (Nat.lt_of_not_le hlt) w rfl hw
      obtain ⟨y, ⟨below, hfirst⟩, -⟩ := Relation.TransGen.head'_iff.mp hcycle
      obtain ⟨u, hreach, hlast⟩ := Relation.TransGen.tail'_iff.mp hcycle
      cases hv : v.path with
      | nil =>
          -- both steps are taken by the outermost graph
          obtain ⟨above, hlast⟩ := hlast
          have hbelow : below = [] := by simpa [hv] using (suffix_of_flowsAt hfirst).1
          have habove : above = [] := by simpa [hv] using (suffix_of_flowsAt hlast).2
          subst hbelow habove
          exact h.not_through hv hlast hfirst
      | cons i outer =>
          obtain ⟨graph, hmem, hgraph⟩ := occurs_of_flows ⟨below, hfirst⟩ hv
          rw [hv] at hdeep
          obtain ⟨j, l, hu, hj⟩ := h.reach_cases hgraph hdeep hv hcycle hreach (.single hlast)
          rcases h.flows_cases hgraph hu hlast with ⟨l', path, hw, hinside⟩ | ⟨k, hw, hedge⟩ | hw
          · have hlength := congrArg List.length (hv.symm.trans hw)
            obtain rfl : l' = [] := by
              rw [List.length_cons, List.length_append, List.length_cons] at hlength
              exact List.eq_nil_of_length_eq_zero (by omega)
            obtain ⟨rfl, -⟩ := List.cons.inj (hv.symm.trans hw)
            rcases hj with hj | ⟨-, hstay⟩
            · exact h.not_transGen_self hmem i hj
            · -- both steps are taken by the node, at one of its own endpoints
              have hround := Relation.TransGen.tail' hstay ⟨path, hinside⟩
              obtain ⟨y, ⟨path', hfirst⟩, -⟩ := Relation.TransGen.head'_iff.mp hround
              have hself : ∀ l : List NodeId, l ++ i :: outer <:+ v.path →
                l ++ i :: outer = i :: outer := by
                intro l hl
                rw [hv] at hl
                exact hl.eq_of_length_le (by simp)
              have hfirst' := hself path' (suffix_of_flowsAt hfirst).1 ▸ hfirst
              have hlast' := hself path (suffix_of_flowsAt hinside).2 ▸ hinside
              exact h.not_through hv hlast' hfirst'
          · obtain ⟨rfl, -⟩ := List.cons.inj (hv.symm.trans hw)
            rcases hj with hj | ⟨rfl, -⟩
            · exact h.not_transGen_self hmem i (hj.tail hedge)
            · exact h.not_transGen_self hmem j (.single hedge)
          · rw [hv] at hw
            exact absurd (congrArg List.length hw) (by simp)

end Feedforward

/-- Data in a verified program never flows back without delay to where it came from: the expansion
of a module, and so of every graph, into all instances that it is made of has no cycle of
connections without delay and of ways through processors. -/
theorem linkAndVerify_acyclic {p p' : Program} {settings : Settings}
    (h : linkAndVerify p settings = .ok p') (root : ModuleId) (v : EndpointOccurrence) :
    ¬ Relation.TransGen (Flows p' root) v v :=
  (verified_feedforward h).acyclic v

/-- In `Top` the inner graph `a` feeds the processor `b`, which feeds `a` after two frames. -/
def echo : Program where
  modules := ⟨#[
    { kind := .graph
      name := "Top"
      endpoints := ⟨#[port "out" .output]⟩
      nodes := ⟨#[{ name := "a", source := "Inner" }, { name := "b", source := "P" }]⟩
      connections := ⟨#[wire (some ⟨0⟩) "out" (some ⟨1⟩) "in",
        { wire (some ⟨1⟩) "out" (some ⟨0⟩) "in" with delay := some 2 },
        wire (some ⟨1⟩) "out" none "out"]⟩ },
    { kind := .graph
      name := "Inner"
      endpoints := ⟨#[port "in" .input, port "out" .output]⟩
      nodes := ⟨#[{ name := "q", source := "P" }]⟩
      connections := ⟨#[wire none "in" (some ⟨0⟩) "in", wire (some ⟨0⟩) "out" none "out"]⟩ },
    { kind := .processor
      name := "P"
      endpoints := ⟨#[port "in" .input, port "out" .output]⟩ }]⟩
where
  port (name : String) (direction : Direction) : Endpoint :=
    { name, direction, details := some { kind := .stream, types := [.prim .float32] } }
  wire (a : Option NodeId) (x : String) (b : Option NodeId) (y : String) : Connection :=
    { source := { node := a, endpoint := x }, dest := { node := b, endpoint := y } }

theorem linkAndVerify_acyclic_echo : ∃ p', linkAndVerify echo {} = .ok p' ∧
    Relation.TransGen (Flows p' ⟨0⟩) ⟨[⟨0⟩, ⟨0⟩], "in"⟩ ⟨[⟨1⟩], "out"⟩ ∧
    ¬ Relation.TransGen (Flows p' ⟨0⟩) ⟨[⟨0⟩, ⟨0⟩], "in"⟩ ⟨[⟨0⟩, ⟨0⟩], "in"⟩ := by
  have hrun : ((verifyEdit {}).apply echo).1 = .ok () := by decide +kernel
  have hverify : linkAndVerify echo {} = .ok ((verifyEdit {}).apply echo).2 := by
    unfold linkAndVerify
    rw [← Prod.eta ((verifyEdit {}).apply echo), hrun]
  refine ⟨_, hverify, ?_, linkAndVerify_acyclic hverify ⟨0⟩ _⟩
  generalize hq : ((verifyEdit {}).apply echo).2 = q
  have htop : Occurs q ⟨0⟩ [] ⟨0⟩ := .root
  have hinner : Occurs q ⟨0⟩ [⟨0⟩] ⟨1⟩ := by
    subst hq
    exact .node (n := { name := "a", source := "Inner" }) htop (by decide +kernel)
      (by decide +kernel) (by decide +kernel)
  have hq₀ : Occurs q ⟨0⟩ [⟨0⟩, ⟨0⟩] ⟨2⟩ := by
    subst hq
    exact .node (n := { name := "q", source := "P" }) hinner (by decide +kernel)
      (by decide +kernel) (by decide +kernel)
  have hb : Occurs q ⟨0⟩ [⟨1⟩] ⟨2⟩ := by
    subst hq
    exact .node (n := { name := "b", source := "P" }) htop (by decide +kernel)
      (by decide +kernel) (by decide +kernel)
  have hports : echo.port "in" .input ∈ (q.moduleAt ⟨2⟩).inputs ∧
      echo.port "out" .output ∈ (q.moduleAt ⟨2⟩).outputs := by
    subst hq
    decide +kernel
  have hthrough : ∀ path, Occurs q ⟨0⟩ path ⟨2⟩ → Flows q ⟨0⟩ ⟨path, "in"⟩ ⟨path, "out"⟩ := by
    intro path hpath
    have hprocessor : (q.moduleAt ⟨2⟩).isProcessor = true := by
      subst hq
      decide +kernel
    exact ⟨path, .processor hpath hprocessor hports.1 hports.2⟩
  have hout : Flows q ⟨0⟩ ⟨[⟨0⟩, ⟨0⟩], "out"⟩ ⟨[⟨0⟩], "out"⟩ := by
    subst hq
    exact ⟨[⟨0⟩], .connection (w := echo.wire (some ⟨0⟩) "out" none "out") hinner
      (by decide +kernel) (by decide +kernel) rfl⟩
  have hnext : Flows q ⟨0⟩ ⟨[⟨0⟩], "out"⟩ ⟨[⟨1⟩], "in"⟩ := by
    subst hq
    exact ⟨[], .connection (w := echo.wire (some ⟨0⟩) "out" (some ⟨1⟩) "in") htop
      (by decide +kernel) (by decide +kernel) rfl⟩
  exact (((Relation.TransGen.single (hthrough _ hq₀)).tail hout).tail hnext).tail (hthrough _ hb)

end Check

end SignalGraph

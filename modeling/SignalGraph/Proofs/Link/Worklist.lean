import SignalGraph.Proofs.Digraph.Loops
import SignalGraph.Proofs.Link.Exposure
import SignalGraph.Proofs.Link.Failures
import SignalGraph.Proofs.Link.Hoisting

/-!
# SignalGraph.Proofs.Link.Worklist

Linking as a run of turns.  In a turn the first graph of the queue is hoisted and exposed; if that
changed its endpoints, the graphs that hold it are queued again.

* `linkGraph_links` says what one turn leaves behind;
* `Turns` is the relation between the state before and the state after a number of turns, with no
  bound on them;
* `linkQueue_eq_ok_iff` and `linkQueue_eq_unsettled_iff` tie it to the bounded queue: it succeeds
  with the run that empties the queue, and gives up when the bound is met before that;
* the rest are the invariants of runs, each from what one turn does.
-/

namespace SignalGraph.Link

/-! ## One turn -/

/-- A turn of the queue: the graph whose turn it was, the answers, and the program after it. -/
structure Turn where
  graph : ModuleId
  /-- Whether endpoints of the graph changed. -/
  changed : Bool
  /-- The endpoints of nodes that were passed on. -/
  passed : List EndpointPlace
  after : Program

namespace Turn

/-- The turn is what linking the graph makes of a program. -/
def Runs (t : Turn) (p : Program) : Prop :=
  (linkGraph t.graph).apply p = (.ok (t.changed, t.passed), t.after)

/-- The queue after the turn, from the rest of the queue. -/
def requeue (t : Turn) (queue : List ModuleId) : List ModuleId :=
  let parents :=
    if t.changed then instantiatingGraphs t.after (t.after.moduleAt t.graph).name else []
  queue ++ parents.filter (!queue.contains ·)

/-- A graph is in the queue after a turn if it was, or if it instantiates a graph that the turn
changed. -/
theorem mem_requeue {t : Turn} {queue : List ModuleId} {id : ModuleId} :
    id ∈ t.requeue queue ↔ id ∈ queue ∨
      t.changed ∧ id ∈ instantiatingGraphs t.after (t.after.moduleAt t.graph).name := by
  simp only [requeue, List.mem_append, List.mem_filter]
  by_cases hid : id ∈ queue
  · simp [hid]
  · cases t.changed <;> simp [hid]

/-- What a turn leaves behind. -/
structure Links (t : Turn) (p : Program) : Prop where
  grown : p.Grown t.after
  resolved : ∀ id, (p.moduleAt id).Resolved → (t.after.moduleAt id).Resolved
  own : (t.after.moduleAt t.graph).Resolved
  /-- New endpoints are resolved; those that are marked are endpoints of the graph, which then
  counts as changed. -/
  fresh : ∀ id k e, (p.moduleAt id).endpoints.get? k = none →
    (t.after.moduleAt id).endpoints.get? k = some e →
    e.details.isSome ∧ (e.exposed → id = t.graph ∧ t.changed)
  /-- New connections come from hoisting, which comes first, or from exposing in the graph. -/
  connections : ∃ r, Hoists [] p r ∧ r.Grown t.after ∧
    ∀ id, ∀ c ∈ (t.after.moduleAt id).connections.toList,
      c ∈ (p.moduleAt id).connections.toList ∨ Forwards p r id c ∨
        id = t.graph ∧ ∃ node e, Marked t.after t.graph node e ∧
          c = forwarding e.direction e.name node e.name e.span
  /-- What is marked and resolved on a node is passed on and on offer. -/
  offers : ∀ node, node.idx < (p.moduleAt t.graph).nodes.size →
    ∃ child, p.findModule? ((p.moduleAt t.graph).nodes.get node).source = some child ∧
      (t.graph ≠ child → ∀ k e, (t.after.moduleAt child).endpoints.get? k = some e → e.exposed →
        e.details.isSome →
        (child, k) ∈ t.passed ∧ Offers (t.after.moduleAt t.graph) node e.direction e.name)

end Turn

/-- Exposing in a whole graph, for any handle. -/
theorem exposeChildren_exposes {graph : ModuleId} {changed : Bool} {passed : List EndpointPlace}
    {p q : Program} (h : (exposeChildren graph).apply p = (.ok (changed, passed), q)) :
    Exposes graph changed p q ∧ ∀ node, node.idx < (p.moduleAt graph).nodes.size →
      ∃ child, p.findModule? ((p.moduleAt graph).nodes.get node).source = some child ∧
        (graph ≠ child → ∀ k e, (p.moduleAt child).endpoints.get? k = some e → e.exposed →
          e.details.isSome →
          (child, k) ∈ passed ∧ Offers (q.moduleAt graph) node e.direction e.name) := by
  rw [exposeChildren, Edit.apply_program_bind] at h
  by_cases hlt : graph.idx < p.modules.size
  · obtain ⟨hexposes, hnodes⟩ := exposeNodes_exposes hlt h
    exact ⟨hexposes, fun node hnode => hnodes node (Arena.mem_handles_iff.mpr hnode)⟩
  · -- a handle out of range reads as a module without nodes
    have hnone : p.modules.get? graph = none := Arena.get?_eq_none_iff.mpr (Nat.not_lt.mp hlt)
    have hempty : p.moduleAt graph = default := by
      rw [Program.moduleAt, Arena.get, hnone]
      rfl
    rw [hempty] at h
    cases h
    refine ⟨.refl _ _, ?_⟩
    intro node hnode
    rw [hempty] at hnode
    exact absurd hnode (Nat.not_lt_zero _)

/-- A turn hoists and then exposes. -/
theorem linkGraph_links {t : Turn} {p : Program} (h : t.Runs p) : t.Links p := by
  obtain ⟨graph, changed, passed, q⟩ := t
  obtain ⟨hoisted, r, hhoist, h⟩ := Edit.apply_bind_eq_ok.mp h
  obtain ⟨⟨exposed, passed'⟩, q', hexpose, h⟩ := Edit.apply_bind_eq_ok.mp h
  cases h
  obtain ⟨hhoists, hresolved⟩ := hoistEndpoints_hoists hhoist
  obtain ⟨hexposes, hoffers⟩ := exposeChildren_exposes hexpose
  -- exposing changes the graph alone, so what hoisting did elsewhere is still so
  refine ⟨hhoists.grown.trans hexposes.grown, ?_, hexposes.resolved hresolved, ?_, ?_, ?_⟩
  · intro id hid
    by_cases hgraph : graph = id
    · exact hgraph ▸ hexposes.resolved hresolved
    · rw [hexposes.others id hgraph]
      exact hhoists.resolved id hid
  · intro id k e hnone hsome
    cases hmid : (r.moduleAt id).endpoints.get? k with
    | some e' =>
        obtain ⟨hd, hx⟩ := hhoists.fresh id k e' hnone hmid
        obtain ⟨e'', he'', hd'', hgrown⟩ := hexposes.grown.resolved hmid hd
        cases hsome.symm.trans he''
        exact ⟨hd'', by rw [hgrown.exposed, hx]; exact nofun⟩
    | none =>
        by_cases hgraph : graph = id
        · subst hgraph
          refine ⟨(hexposes.fresh k e hmid hsome).1, fun _ => ⟨rfl, ?_⟩⟩
          cases hchanged : exposed with
          | true => exact Bool.or_true _
          | false =>
              rw [hexposes.unchanged hchanged] at hsome
              cases hmid.symm.trans hsome
        · rw [hexposes.others id hgraph] at hsome
          cases hmid.symm.trans hsome
  · refine ⟨r, hhoists, hexposes.grown, ?_⟩
    intro id c hc
    by_cases hgraph : graph = id
    · subst hgraph
      rcases hexposes.connections c hc with hc | hc
      · exact (hhoists.connections graph c hc).imp_right .inl
      · exact .inr (.inr ⟨rfl, hc⟩)
    · rw [hexposes.others id hgraph] at hc
      exact (hhoists.connections id c hc).imp_right .inl
  · intro node hnode
    obtain ⟨child, hchild, hchild'⟩ := hoffers node
      (by rw [hhoists.grown.sameShape.nodes]; exact hnode)
    rw [hhoists.grown.sameShape.findModule?, hhoists.grown.sameShape.nodes] at hchild
    refine ⟨child, hchild, ?_⟩
    intro hne k e he
    rw [hexposes.others child hne] at he
    exact hchild' hne k e he

/-! ## Runs -/

/-- Some turns lead from one program and queue to another. -/
inductive Turns : Program → List ModuleId → List Turn → Program → List ModuleId → Prop where
  | nil (p : Program) (queue : List ModuleId) : Turns p queue [] p queue
  | cons {p q : Program} {queue queue' : List ModuleId} {t : Turn} {ts : List Turn} :
    t.Runs p → Turns t.after (t.requeue queue) ts q queue' →
    Turns p (t.graph :: queue) (t :: ts) q queue'

/-- What linking reports when the rounds are used up. -/
def unsettled (limit : Nat) : Diagnostic :=
  InternalError.toDiagnostic ⟨s!"endpoint linking did not settle after {limit} iterations"⟩

variable {p q : Program} {queue queue' : List ModuleId} {limit n : Nat}

/-- One turn: the first graph is linked, then the queue goes on with the graphs to look at again. -/
theorem apply_linkQueue_cons (limit n : Nat) (graph : ModuleId) (queue : List ModuleId)
    (p : Program) : (linkQueue limit (n + 1) (graph :: queue)).apply p =
      match (linkGraph graph).apply p with
      | (.error d, q) => (.error d, q)
      | (.ok (changed, passed), q) =>
        match (linkQueue limit n (Turn.requeue ⟨graph, changed, passed, q⟩ queue)).apply q with
        | (.error d, r) => (.error d, r)
        | (.ok places, r) => (.ok (passed ++ places), r) := by
  rw [linkQueue, Edit.apply_bind]
  cases (linkGraph graph).apply p with
  | mk outcome q =>
      cases outcome with
      | error d => rfl
      | ok answer =>
          obtain ⟨changed, passed⟩ := answer
          dsimp only
          rw [Edit.apply_program_bind, Edit.apply_bind]
          dsimp only [Turn.requeue]
          split
          · next hrest => rw [hrest, Edit.apply_pure]
          · next hrest => rw [hrest]

/-- The queue is worked off within the rounds exactly if there is a run of that many turns at most
that empties it. -/
theorem linkQueue_eq_ok_iff {places : List EndpointPlace} :
    (linkQueue limit n queue).apply p = (.ok places, q) ↔
      ∃ ts, Turns p queue ts q [] ∧ ts.length ≤ n ∧ places = ts.flatMap (·.passed) := by
  induction n generalizing p queue places with
  | zero =>
      cases queue with
      | nil =>
          constructor
          · intro h
            cases h
            exact ⟨[], .nil _ _, Nat.le_refl _, rfl⟩
          · rintro ⟨ts, hturns, hlen, rfl⟩
            cases hturns
            rfl
      | cons graph queue =>
          constructor
          · exact fun h => nomatch h
          · rintro ⟨ts, hturns, hlen, -⟩
            cases hturns
            cases hlen
  | succ n ih =>
      cases queue with
      | nil =>
          constructor
          · intro h
            cases h
            exact ⟨[], .nil _ _, Nat.zero_le _, rfl⟩
          · rintro ⟨ts, hturns, hlen, rfl⟩
            cases hturns
            rfl
      | cons graph queue =>
          -- one turn, and then the same for the rest of the queue with one round less
          rw [apply_linkQueue_cons]
          constructor
          · intro h
            split at h
            · cases h
            · next changed passed p' hgraph =>
              split at h
              · cases h
              · next later r hrest =>
                cases h
                obtain ⟨ts, hturns, hlen, rfl⟩ := ih.mp hrest
                have hruns : Turn.Runs ⟨graph, changed, passed, p'⟩ p := hgraph
                exact ⟨_ :: ts, .cons hruns hturns, Nat.succ_le_succ hlen, rfl⟩
          · rintro ⟨ts, hturns, hlen, rfl⟩
            cases hturns with
            | cons hruns hrest =>
                have hlater := ih.mpr ⟨_, hrest, Nat.le_of_succ_le_succ hlen, rfl⟩
                rw [Turn.Runs] at hruns
                rw [hruns]
                dsimp only
                rw [hlater]
                rfl

/-- Linking gives up exactly if the rounds are used up by a run that leaves graphs in the queue. -/
theorem linkQueue_eq_unsettled_iff :
    (linkQueue limit n queue).apply p = (.error (unsettled limit), q) ↔
      ∃ ts queue', Turns p queue ts q queue' ∧ ts.length = n ∧ queue' ≠ [] := by
  induction n generalizing p queue with
  | zero =>
      cases queue with
      | nil =>
          constructor
          · exact fun h => nomatch h
          · rintro ⟨ts, queue', hturns, -, hne⟩
            cases hturns
            exact absurd rfl hne
      | cons graph queue =>
          constructor
          · intro h
            cases h
            exact ⟨[], _, .nil _ _, rfl, nofun⟩
          · rintro ⟨ts, queue', hturns, hlen, -⟩
            cases hturns with
            | nil => rfl
            | cons _ _ => cases hlen
  | succ n ih =>
      cases queue with
      | nil =>
          constructor
          · exact fun h => nomatch h
          · rintro ⟨ts, queue', hturns, hlen, -⟩
            cases hturns
            cases hlen
      | cons graph queue =>
          rw [apply_linkQueue_cons]
          constructor
          · intro h
            split at h
            · next d p' hgraph =>
              -- a single graph does not fail like this
              cases h
              exact absurd (linkGraph_fails hgraph) (not_reportsFault_internal _ _)
            · next changed passed p' hgraph =>
              split at h
              · next d r hrest =>
                cases h
                obtain ⟨ts, queue', hturns, hlen, hne⟩ := ih.mp hrest
                have hruns : Turn.Runs ⟨graph, changed, passed, p'⟩ p := hgraph
                exact ⟨_ :: ts, queue', .cons hruns hturns, congrArg Nat.succ hlen, hne⟩
              · cases h
          · rintro ⟨ts, queue', hturns, hlen, hne⟩
            cases hturns with
            | nil => cases hlen
            | cons hruns hrest =>
                have hlater := ih.mpr ⟨_, _, hrest, Nat.succ.inj hlen, hne⟩
                rw [Turn.Runs] at hruns
                rw [hruns]
                dsimp only
                rw [hlater]

namespace Turns

variable {ts : List Turn}

/-- A run taken apart at one of its turns. -/
theorem split {t : Turn} (h : Turns p queue ts q queue') (ht : t ∈ ts) :
    ∃ before after mid rest, Turns p queue before mid (t.graph :: rest) ∧ t.Runs mid ∧
      Turns t.after (t.requeue rest) after q queue' ∧ ts = before ++ t :: after := by
  induction h with
  | nil => cases ht
  | @cons p q queue queue' t' ts hruns hrest ih =>
      rcases List.mem_cons.mp ht with rfl | ht
      · exact ⟨[], ts, p, queue, .nil _ _, hruns, hrest, rfl⟩
      · obtain ⟨before, after, mid, rest, hbefore, hturn, hafter, rfl⟩ := ih ht
        exact ⟨t' :: before, after, mid, rest, .cons hruns hbefore, hturn, hafter, rfl⟩

/-- Turns make a program grow. -/
theorem grown (h : Turns p queue ts q queue') : p.Grown q := by
  induction h with
  | nil => exact .refl _
  | cons hruns _ ih => exact (linkGraph_links hruns).grown.trans ih

/-- A resolved module stays resolved through all turns. -/
theorem keeps_resolved (h : Turns p queue ts q queue') {id : ModuleId}
    (hid : (p.moduleAt id).Resolved) : (q.moduleAt id).Resolved := by
  induction h with
  | nil => exact hid
  | cons hruns _ ih => exact ih ((linkGraph_links hruns).resolved id hid)

/-- What is queued gets its turn, or is queued still. -/
theorem turn_of_mem (h : Turns p queue ts q queue') {id : ModuleId} (hid : id ∈ queue) :
    (∃ t ∈ ts, t.graph = id) ∨ id ∈ queue' := by
  induction h with
  | nil => exact .inr hid
  | @cons p q queue queue' t ts hruns _ ih =>
      rcases List.mem_cons.mp hid with rfl | hid
      · exact .inl ⟨t, List.mem_cons_self, rfl⟩
      · refine (ih (Turn.mem_requeue.mpr (.inl hid))).imp_left ?_
        rintro ⟨t', ht', heq⟩
        exact ⟨t', List.mem_cons_of_mem _ ht', heq⟩

/-- A graph that had a turn is resolved at the end. -/
theorem resolved_of_turn {t : Turn} (h : Turns p queue ts q queue') (ht : t ∈ ts) :
    (q.moduleAt t.graph).Resolved := by
  obtain ⟨_, _, _, _, -, hruns, hafter, -⟩ := h.split ht
  exact hafter.keeps_resolved (linkGraph_links hruns).own

/-- From the end of a run back to the program after one of its turns. -/
theorem grown_of_turn {t : Turn} (h : Turns p queue ts q queue') (ht : t ∈ ts) :
    p.Grown t.after ∧ t.after.Grown q := by
  obtain ⟨_, _, _, _, hbefore, hruns, hafter, -⟩ := h.split ht
  exact ⟨hbefore.grown.trans (linkGraph_links hruns).grown, hafter.grown⟩

end Turns

/-! ## Marks taken off -/

/-- A program with the marks of the given endpoints taken off. -/
def unmark (places : List EndpointPlace) (p : Program) : Program :=
  places.foldl (fun p place => p.modifyModule place.1 fun m => { m with
    endpoints := m.endpoints.modify place.2 fun e => { e with exposed := false } }) p

/-- Clearing marks never fails. -/
theorem apply_forM_clearExposed (places : List EndpointPlace) (p : Program) :
    (places.forM clearExposed).apply p = (.ok (), unmark places p) := by
  induction places generalizing p with
  | nil => rfl
  | cons place places ih =>
      rw [List.forM_eq_forM, List.forM_cons, clearExposed, Edit.apply_modifyModule_bind]
      exact ih _

/-- Taking marks off touches nothing but the marks of those endpoints. -/
theorem moduleAt_unmark (places : List EndpointPlace) (p : Program) (id : ModuleId) :
    ∃ endpoints, (unmark places p).moduleAt id = { p.moduleAt id with endpoints } ∧
      ∀ k, endpoints.get? k = ((p.moduleAt id).endpoints.get? k).map fun e =>
        { e with exposed := e.exposed && !places.contains (id, k) } := by
  induction places generalizing p with
  | nil =>
      refine ⟨(p.moduleAt id).endpoints, rfl, ?_⟩
      intro k
      simp
  | cons place places ih =>
      obtain ⟨j, h⟩ := place
      obtain ⟨endpoints, heq, hget⟩ := ih (p.modifyModule j fun m => { m with
        endpoints := m.endpoints.modify h fun e => { e with exposed := false } })
      -- only a mark in this module counts, and only where the module has that endpoint
      by_cases hid : j = id
      · subst hid
        by_cases hlt : j.idx < p.modules.size
        · rw [Program.moduleAt_modifyModule_self hlt] at heq hget
          refine ⟨endpoints, heq, ?_⟩
          intro k
          rw [hget k, Arena.get?_modify]
          by_cases hk : h = k
          · subst hk
            cases (p.moduleAt j).endpoints.get? h <;> simp
          · have hne : ((j, k) == (j, h)) = false := by
              simpa using fun heq : k = h => hk heq.symm
            rw [if_neg hk, List.contains_cons, hne, Bool.false_or]
        · have hnone : ∀ k, (p.moduleAt j).endpoints.get? k = none := by
            intro k
            cases hk : (p.moduleAt j).endpoints.get? k with
            | none => rfl
            | some e => exact absurd (Program.lt_size_of_endpoint hk) hlt
          rw [Program.moduleAt_modifyModule, if_neg (fun h => hlt h.2)] at heq hget
          refine ⟨endpoints, heq, ?_⟩
          intro k
          rw [hget k, hnone k]
          rfl
      · rw [Program.moduleAt_modifyModule_of_ne hid] at heq hget
        refine ⟨endpoints, heq, ?_⟩
        intro k
        have hne : ((id, k) == (j, h)) = false := by
          simpa using fun heq : id = j => absurd heq.symm hid
        rw [hget k, List.contains_cons, hne, Bool.false_or]

/-- Clearing marks keeps the shape. -/
theorem sameShape_unmark (places : List EndpointPlace) (p : Program) :
    p.SameShape (unmark places p) := by
  have hsize : (unmark places p).modules.size = p.modules.size := by
    induction places generalizing p with
    | nil => rfl
    | cons place places ih => exact (ih _).trans (Program.size_modules_modifyModule _ _ _)
  have hmodule : ∀ id, ∃ endpoints, (unmark places p).moduleAt id =
      { p.moduleAt id with endpoints } := by
    intro id
    obtain ⟨endpoints, heq, -⟩ := moduleAt_unmark places p id
    exact ⟨endpoints, heq⟩
  refine ⟨hsize, ?_, ?_, ?_, ?_⟩
  all_goals
    intro id
    obtain ⟨endpoints, heq⟩ := hmodule id
    rw [heq]

/-- Clearing marks keeps connections. -/
theorem connections_unmark (places : List EndpointPlace) (p : Program) (id : ModuleId) :
    ((unmark places p).moduleAt id).connections = (p.moduleAt id).connections := by
  obtain ⟨endpoints, heq, -⟩ := moduleAt_unmark places p id
  rw [heq]

/-- Clearing marks changes nothing of an endpoint but its mark. -/
theorem get?_endpoints_unmark (places : List EndpointPlace) (p : Program) (id : ModuleId)
    (k : EndpointId) : ((unmark places p).moduleAt id).endpoints.get? k =
      ((p.moduleAt id).endpoints.get? k).map fun e =>
        { e with exposed := e.exposed && !places.contains (id, k) } := by
  obtain ⟨endpoints, heq, hget⟩ := moduleAt_unmark places p id
  rw [heq]
  exact hget k

/-! ## Linking as a whole -/

/-- Linking succeeds exactly if no graph contains itself and a run within the bound empties the
queue of all graphs; the marks of what was passed on are then taken off. -/
theorem linkEndpoints_eq_ok_iff {p p' : Program} :
    linkEndpoints.apply p = (.ok (), p') ↔
      checkGraphRecursion p = .ok () ∧ ∃ ts q, Turns p p.graphs ts q [] ∧
        ts.length ≤ roundLimit p ∧ p' = unmark (ts.flatMap (·.passed)) q := by
  rw [linkEndpoints, Edit.apply_program_bind]
  cases hcheck : checkGraphRecursion p with
  | error d => simp
  | ok _ =>
      simp only [true_and, Edit.apply_bind_eq_ok, linkQueue_eq_ok_iff, apply_forM_clearExposed,
        Prod.mk.injEq]
      constructor
      · rintro ⟨places, q, ⟨ts, hturns, hlen, rfl⟩, rfl⟩
        exact ⟨ts, q, hturns, hlen, rfl⟩
      · rintro ⟨ts, q, hturns, hlen, rfl⟩
        exact ⟨_, q, ⟨ts, hturns, hlen, rfl⟩, rfl⟩

/-- Linking gives up exactly if the bound is met by a run that leaves graphs in the queue. -/
theorem linkEndpoints_eq_unsettled_iff {p q : Program} (hcheck : checkGraphRecursion p = .ok ()) :
    linkEndpoints.apply p = (.error (unsettled (roundLimit p)), q) ↔
      ∃ ts queue, Turns p p.graphs ts q queue ∧ ts.length = roundLimit p ∧ queue ≠ [] := by
  have hqueue : (linkQueue (roundLimit p) (roundLimit p) p.graphs).apply p =
      (.error (unsettled (roundLimit p)), q) ↔ _ := linkQueue_eq_unsettled_iff
  rw [linkEndpoints, Edit.apply_program_bind, hcheck, ← hqueue]
  dsimp only
  rw [Edit.apply_bind]
  split
  · next hrun =>
    rw [hrun, apply_forM_clearExposed]
    simp
  · next hrun =>
    rw [hrun]
    simp

/-! ## Graphs that hold modules -/

/-- A node of a graph is an instance of a module. -/
structure Holds (p : Program) (graph : ModuleId) (node : NodeId) (child : ModuleId) : Prop where
  isGraph : graph ∈ p.graphs
  inRange : node.idx < (p.moduleAt graph).nodes.size
  source : p.findModule? ((p.moduleAt graph).nodes.get node).source = some child

namespace Holds

variable {graph child : ModuleId} {node : NodeId}

/-- What a node holds is part of the shape. -/
theorem sameShape {p p' : Program} (h : Holds p graph node child) (hshape : p.SameShape p') :
    Holds p' graph node child where
  isGraph := by
    rw [hshape.graphs]
    exact h.isGraph
  inRange := by
    rw [hshape.nodes]
    exact h.inRange
  source := by
    rw [hshape.findModule?, hshape.nodes]
    exact h.source

theorem of_sameShape {p p' : Program} (h : Holds p' graph node child) (hshape : p.SameShape p') :
    Holds p graph node child where
  isGraph := by
    rw [← hshape.graphs]
    exact h.isGraph
  inRange := by
    rw [← hshape.nodes]
    exact h.inRange
  source := by
    rw [← hshape.findModule?, ← hshape.nodes]
    exact h.source

/-- When a module changes, the graphs that hold it are queued. -/
theorem mem_instantiatingGraphs {p : Program} (h : Holds p graph node child) :
    graph ∈ instantiatingGraphs p (p.moduleAt child).name := by
  obtain ⟨hlt, hgraph⟩ := Program.mem_graphs_iff.mp h.isGraph
  rw [Program.name_of_findModule? h.source]
  simp only [instantiatingGraphs, List.mem_map, List.mem_filter, Prod.exists, Arena.mem_entries_iff]
  refine ⟨graph, p.moduleAt graph, ⟨Arena.get?_eq_some_get hlt, ?_⟩, rfl⟩
  rw [Bool.and_eq_true]
  refine ⟨hgraph, List.any_eq_true.mpr ⟨(p.moduleAt graph).nodes.get node, ?_, beq_self_eq_true _⟩⟩
  exact Arena.mem_toList_iff.mpr ⟨node, Arena.get?_eq_some_get h.inRange⟩

end Holds

namespace Turns

variable {p q : Program} {queue queue' : List ModuleId} {ts : List Turn} {t : Turn}

/-- In its turn a graph finds the modules of all its nodes. -/
theorem exists_holds (h : Turns p queue ts q queue') (ht : t ∈ ts) (hgraph : t.graph ∈ p.graphs)
    {node : NodeId} (hnode : node.idx < (p.moduleAt t.graph).nodes.size) :
    ∃ child, Holds p t.graph node child := by
  obtain ⟨_, _, mid, _, hbefore, hruns, -, -⟩ := h.split ht
  have hshape := hbefore.grown.sameShape
  obtain ⟨child, hchild, -⟩ :=
    (linkGraph_links hruns).offers node (by rw [hshape.nodes]; exact hnode)
  rw [hshape.findModule?, hshape.nodes] at hchild
  exact ⟨child, hgraph, hnode, hchild⟩

/-- What is marked and resolved on a node when its graph has a turn is passed on, and is on offer
at the end. -/
theorem offers_of_turn (h : Turns p queue ts q queue') (ht : t ∈ ts) {node : NodeId}
    {child : ModuleId} {k : EndpointId} {e : Endpoint} (hholds : Holds p t.graph node child)
    (hne : t.graph ≠ child) (he : (t.after.moduleAt child).endpoints.get? k = some e)
    (hexposed : e.exposed) (hdetails : e.details.isSome) :
    (child, k) ∈ t.passed ∧ Offers (q.moduleAt t.graph) node e.direction e.name := by
  obtain ⟨_, _, mid, _, hbefore, hruns, hafter, -⟩ := h.split ht
  have hholds' := hholds.sameShape hbefore.grown.sameShape
  obtain ⟨child', hchild', hoffers⟩ := (linkGraph_links hruns).offers node hholds'.inRange
  cases hholds'.source.symm.trans hchild'
  obtain ⟨hpassed, hoffered⟩ := hoffers hne k e he hexposed hdetails
  exact ⟨hpassed, hoffered.grown (hafter.grown.modules t.graph)⟩

end Turns

/-- If no graph contains itself, the graphs stand in an order in which each comes before the graphs
that it holds. -/
theorem exists_order {p : Program} (h : checkGraphRecursion p = .ok ()) :
    ∃ done, Digraph.Ordered (fun id => (nestedGraphs p id).map fun child => ((), child)) done ∧
      ∀ id, id ∈ done ↔ id ∈ p.graphs := by
  refine Digraph.exists_ordered_of_findCycle?_eq_none ?_ ?_
  · intro id _ label child hchild
    obtain ⟨child', hchild', heq⟩ := List.mem_map.mp hchild
    cases heq
    obtain ⟨hmem, hgraph⟩ := List.mem_filter.mp hchild'
    obtain ⟨n, -, hfind⟩ := List.mem_filterMap.mp hmem
    exact Program.mem_graphs_iff.mpr ⟨Program.lt_size_of_findModule? hfind, hgraph⟩
  · rw [checkGraphRecursion, graphRecursion?] at h
    cases hcycle : Digraph.findCycle? (fun id => (nestedGraphs p id).map fun child => ((), child))
        p.graphs with
    | none => rfl
    | some c =>
        have hne := (Digraph.isLoop_of_findCycle? hcycle).ne_nil
        rw [hcycle] at h
        cases hnodes : c.nodes with
        | nil => exact absurd hnodes hne
        | cons id ids =>
            rw [Option.map_some, hnodes] at h
            cases h

/-- A graph that a node holds is nested. -/
theorem Holds.mem_nestedGraphs {p : Program} {graph child : ModuleId} {node : NodeId}
    (h : Holds p graph node child) (hchild : (p.moduleAt child).isGraph) :
    child ∈ nestedGraphs p graph := by
  refine List.mem_filter.mpr ⟨List.mem_filterMap.mpr ⟨_, ?_, h.source⟩, hchild⟩
  exact Arena.mem_toList_iff.mpr ⟨node, Arena.get?_eq_some_get h.inRange⟩

/-- If no graph contains itself, no graph holds itself. -/
theorem Holds.ne {p : Program} {graph child : ModuleId} {node : NodeId}
    (h : Holds p graph node child) (hcheck : checkGraphRecursion p = .ok ()) : graph ≠ child := by
  rintro rfl
  obtain ⟨done, hord, hdone⟩ := exists_order hcheck
  have hnested := h.mem_nestedGraphs (Program.mem_graphs_iff.mp h.isGraph).2
  have hedge : ((), graph) ∈ (nestedGraphs p graph).map fun child => ((), child) :=
    List.mem_map.mpr ⟨graph, hnested, rfl⟩
  exact hord.not_edge_self ((hdone graph).mpr h.isGraph) hedge

/-! ## Small programs -/

/-- A graph without connections, given by its endpoints and by its nodes with their modules. -/
def graphOf (name : String) (endpoints : List Endpoint) (nodes : List (String × String)) :
    Module where
  kind := .graph
  name := name
  endpoints := ⟨endpoints.toArray⟩
  nodes := ⟨(nodes.map fun (node, source) => { name := node, source }).toArray⟩

/-- A processor with one output and nothing to do. -/
def sourceOf (name : String) (output : Endpoint) : Module where
  kind := .processor
  name := name
  endpoints := ⟨#[output]⟩

end SignalGraph.Link

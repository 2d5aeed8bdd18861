import SignalGraph.Proofs.Link.Worklist

/-!
# SignalGraph.Proofs.Link.Changes

Linking as a sequence of single changes.  `ModuleChange` lists all that linking ever does to a
module, with the facts that each change rests on; `linkEndpoints_moves` says that linking is made
of nothing else, also when it fails halfway.

Invariants of linking are then shown change by change:

* endpoint names stay distinct (`Change.namesDistinct`);
* what holds of the details of all endpoints, and of the union of two that hold it, goes on to hold
  (`Change.allDetails`).

The main result is that linking only adds (`linkEndpoints_adds`).
-/

namespace SignalGraph

/-- The endpoints of a module have distinct names. -/
def Module.NamesDistinct (m : Module) : Prop := (m.endpoints.toList.map (·.name)).Nodup

instance (m : Module) : Decidable m.NamesDistinct :=
  inferInstanceAs (Decidable (m.endpoints.toList.map (·.name)).Nodup)

/-- Types are listed as an endpoint of the kind lists them: events at least one, others exactly
one. -/
def EndpointDetails.Listed (d : EndpointDetails) : Prop :=
  d.types ≠ [] ∧ (d.kind ≠ .event → d.types.length = 1)

instance (d : EndpointDetails) : Decidable d.Listed :=
  inferInstanceAs (Decidable (d.types ≠ [] ∧ (d.kind ≠ .event → d.types.length = 1)))

namespace Link

/-! ## Single changes -/

/-- What linking does to the module `id` of a program. -/
inductive ModuleChange (p : Program) (id : ModuleId) : (Module → Module) → Prop where
  /-- A fresh endpoint that stands for the rest of a path. -/
  | relay {e : Endpoint} (fresh : (p.moduleAt id).findEndpoint? e.name = none)
    (unresolved : e.details = none) (bare : e.annotations = {}) (unmarked : e.exposed = false) :
    ModuleChange p id (·.addEndpoint e)
  /-- An unresolved endpoint takes over the details of another one. -/
  | resolve {k : EndpointId} {e : Endpoint} {child : ModuleId} {k' : EndpointId} {x : Endpoint}
    {d : EndpointDetails} (own : (p.moduleAt id).endpoints.get? k = some e)
    (unresolved : e.details = none) (inner : (p.moduleAt child).endpoints.get? k' = some x)
    (details : x.details = some d) :
    ModuleChange p id fun m =>
      { m with endpoints := m.endpoints.modify k (resolvedWith d x.annotations) }
  /-- An endpoint of the module is connected to one of a node. -/
  | connect {node : NodeId} (inRange : node.idx < (p.moduleAt id).nodes.size)
    (direction : Direction) (own inner : String) (span : Span) :
    ModuleChange p id (·.addConnection (forwarding direction own node inner span))
  /-- The module offers a marked endpoint of another one under its name. -/
  | offer {child : ModuleId} {k : EndpointId} {x : Endpoint}
    (inner : (p.moduleAt child).endpoints.get? k = some x) (marked : x.exposed)
    (resolved : x.details.isSome) (fresh : (p.moduleAt id).findEndpoint? x.name = none) :
    ModuleChange p id (·.addEndpoint { x with path := none, exposed := true })
  /-- An event endpoint takes the types that it lacks of a marked one of that name. -/
  | extend {k : EndpointId} {e : Endpoint} {d : EndpointDetails} {child : ModuleId}
    {k' : EndpointId} {x : Endpoint} {d' : EndpointDetails}
    (own : (p.moduleAt id).endpoints.get? k = some e) (details : e.details = some d)
    (event : d.kind = .event) (inner : (p.moduleAt child).endpoints.get? k' = some x)
    (marked : x.exposed) (name : e.name = x.name) (details' : x.details = some d')
    (kind : d.kind = d'.kind) :
    ModuleChange p id fun m => { m with
      endpoints := m.endpoints.modify k (extendTypes (d'.types.filter (!d.hasType ·))) }
  /-- A mark for exposure is taken off. -/
  | clear (k : EndpointId) :
    ModuleChange p id fun m => { m with
      endpoints := m.endpoints.modify k fun e => { e with exposed := false } }

/-- One change of one module. -/
def Change (p q : Program) : Prop := ∃ id f, ModuleChange p id f ∧ q = p.modifyModule id f

/-- A change of one module is a change of the program. -/
theorem ModuleChange.change {p : Program} {id : ModuleId} {f : Module → Module}
    (h : ModuleChange p id f) : Change p (p.modifyModule id f) := ⟨id, f, h, rfl⟩

/-- Changes touch endpoints and connections only. -/
theorem ModuleChange.rest {p : Program} {id : ModuleId} {f : Module → Module}
    (h : ModuleChange p id f) (m : Module) :
    { f m with endpoints := m.endpoints, connections := m.connections } = m := by
  cases h <;> rfl

/-- A change of linking keeps the shape of the program. -/
theorem Change.sameShape {p q : Program} (h : Change p q) : p.SameShape q := by
  obtain ⟨id, f, hf, rfl⟩ := h
  exact Program.sameShape_modifyModule p id hf.rest

/-- A sequence of changes. -/
abbrev Changes : Program → Program → Prop := Relation.ReflTransGen Change

/-- Linking keeps the shape of the program. -/
theorem Changes.sameShape {p q : Program} (h : Changes p q) : p.SameShape q := by
  induction h with
  | refl => exact (Program.Grown.refl p).sameShape
  | tail _ hstep ih => exact ih.trans hstep.sameShape

/-! ## Hoisting -/

variable {p q : Program} {id child : ModuleId} {hoistChild : ModuleId → Edit Unit}

open Edit

/-- Only endpoints that are there have details. -/
theorem get?_of_details {m : Module} {k : EndpointId} {d : EndpointDetails}
    (h : (m.endpoints.get k).details = some d) :
    m.endpoints.get? k = some (m.endpoints.get k) := by
  by_cases hlt : k.idx < m.endpoints.size
  · exact Arena.get?_eq_some_get hlt
  · have hnone : m.endpoints.get? k = none := Arena.get?_eq_none_iff.mpr (Nat.not_lt.mp hlt)
    rw [Arena.get, hnone] at h
    cases h

/-- Adding an endpoint on the way is a change of linking. -/
theorem addIntermediate_moves (nodeName : String) (e : Endpoint)
    (fullPath rest : List PathSegment) :
    Moves Change (addIntermediate child nodeName e fullPath rest) p := by
  unfold addIntermediate
  refine .program_bind ?_
  have hrelay : ModuleChange p child (·.addEndpoint
      (intermediate (p.moduleAt child) e fullPath rest)) :=
    .relay (findEndpoint?_uniqueEndpointName _ _) rfl rfl rfl
  dsimp only
  split
  · exact .single hrelay.change
  · exact .refl

/-- Starting on a path changes nothing. -/
theorem pathStart_moves (m : Module) (e : Endpoint) (first : PathSegment) :
    Moves Change (pathStart m e first) p := by
  unfold pathStart
  refine .bind (moves_require _ _) fun node q _ => ?_
  refine .ite (fun _ => moves_throw _) fun _ => .program_bind ?_
  exact .bind (moves_require _ _) fun child r _ => moves_pure _

/-- Looking at an inner endpoint makes the changes of resolving the nested module. -/
theorem innerEndpoint_moves (hchild : ∀ q, Moves Change (hoistChild child) q) (name : String)
    (e : Endpoint) : Moves Change (innerEndpoint hoistChild child name e) p := by
  have hrest : ∀ (k : EndpointId) (q : Program), Moves Change (do
      let inner := ((← Edit.program).moduleAt child).endpoints.get k
      let details ← Edit.require ((Fault.unresolvedEndpoint name).diagnose e.span) inner.details
      if details.arraySize.isSome then
        throw ((Fault.notYetImplemented "hoisting endpoint arrays").diagnose e.span)
      return (details, inner.annotations) : Edit (EndpointDetails × Annotations)) q := by
    intro k q
    refine .program_bind (.bind (moves_require _ _) fun details r _ => ?_)
    exact .ite (fun _ => moves_throw _) fun _ => moves_pure _
  unfold innerEndpoint
  refine .program_bind (.bind (moves_require _ _) fun k q _ => ?_)
  exact .ite (fun _ => .bind (hchild q) fun _ r _ => hrest k r) fun _ => hrest k q

/-- Hoisting one endpoint relays the rest of the path, has the inner endpoint resolved, takes over
its details and connects the two. -/
theorem hoistEndpoint_moves {stack : List ModuleId} (hhoists : HoistsChild hoistChild (id :: stack))
    (hchild : ∀ child q, Moves Change (hoistChild child) q) {endpoint : EndpointId} {e : Endpoint}
    (he : (p.moduleAt id).endpoints.get? endpoint = some e) (hunresolved : e.details = none) :
    Moves Change (hoistEndpoint hoistChild id endpoint) p := by
  unfold hoistEndpoint
  refine .program_bind ?_
  dsimp only
  rw [Arena.get_eq_of_get? he]
  split
  · exact moves_throw _
  · exact moves_throw _
  · next first second deeper _ =>
    refine .ite (fun _ => moves_throw _) fun _ => ?_
    refine .bind (pathStart_moves _ _ _) ?_
    rintro ⟨node, child⟩ p' hstart
    obtain ⟨hnode, -, -, rfl⟩ := pathStart_eq_ok hstart
    have hnode' : node.idx < (p'.moduleAt id).nodes.size := by
      obtain ⟨n, hn, -⟩ := Arena.find?_eq_some_iff.mp hnode
      exact Arena.lt_size_of_get? hn
    -- what is left once the inner endpoint has its name
    have hrest : ∀ (inner : String) (q : Program), p'.SameShape q →
        (q.moduleAt id).endpoints.get? endpoint = some e → Moves Change (do
        let found ← innerEndpoint hoistChild child inner e
        Edit.modifyModule id fun m => { m with
          endpoints := m.endpoints.modify endpoint (resolvedWith found.1 found.2) }
        Edit.modifyModule id (·.addConnection (forwarding e.direction e.name node inner e.span)))
          q := by
      intro inner q hshape hown
      have hinner := innerEndpoint_moves (p := q) (hchild child) inner e
      refine .bind hinner ?_
      rintro ⟨details, annotations⟩ r hr
      have hshape' : p'.SameShape r := hshape.trans (Changes.sameShape (hinner.of_apply hr))
      obtain ⟨k, -, hrun, hdetails, rfl, -⟩ := innerEndpoint_eq_ok hr
      have hwaits : (r.moduleAt id).endpoints.get? endpoint = some e := by
        rcases hrun with ⟨-, rfl⟩ | ⟨-, hrun⟩
        · exact hown
        · rw [(hhoists child q r hrun).2.1.waiting id List.mem_cons_self]
          exact hown
      have hresolve : ModuleChange r id fun m => { m with
          endpoints := m.endpoints.modify endpoint
            (resolvedWith details ((r.moduleAt child).endpoints.get k).annotations) } :=
        .resolve hwaits hunresolved (get?_of_details hdetails) hdetails
      refine .bind (moves_modifyModule hresolve.change) fun _ r' hr' => ?_
      cases hr'
      refine moves_modifyModule (ModuleChange.change (.connect ?_ _ _ _ _))
      have hnodes := (hresolve.change.sameShape.nodes id).trans (hshape'.nodes id)
      exact Nat.lt_of_lt_of_eq hnode' (congrArg Arena.size hnodes.symm)
    split
    · refine .bind (moves_pure _) fun inner q hq => ?_
      cases hq
      exact hrest _ _ (Program.Grown.refl _).sameShape he
    · have hadd : Moves Change (addIntermediate child first.name e (first :: second :: deeper)
          (second :: deeper)) p' := addIntermediate_moves _ _ _ _
      refine .bind hadd fun inner q hq => hrest _ _ (Changes.sameShape (hadd.of_apply hq)) ?_
      obtain ⟨-, -, rfl⟩ := addIntermediate_eq_ok hq
      exact Program.get?_addEndpoint child _ he

/-- Resolving the endpoints of a module makes changes of linking, one after the other. -/
theorem hoistEach_moves {stack : List ModuleId} (hhoists : HoistsChild hoistChild (id :: stack))
    (hchild : ∀ child q, Moves Change (hoistChild child) q) (n : Nat) :
    Moves Change (hoistEach hoistChild id n) p := by
  induction n generalizing p with
  | zero => exact moves_pure _
  | succ n ih =>
      unfold hoistEach
      refine .program_bind ?_
      split
      · exact moves_pure _
      · next endpoint hfind =>
        obtain ⟨e, he, hunresolved, -⟩ := Arena.find?_eq_some_iff.mp hfind
        have hnone : e.details = none := by simpa [Endpoint.isUnresolved] using hunresolved
        refine .bind (hoistEndpoint_moves hhoists hchild he hnone) fun _ q _ => ?_
        exact .bind ih fun _ r _ => moves_pure _

/-- Resolving at every depth makes changes of linking, by induction on the fuel. -/
theorem hoistModule_moves (n : Nat) (stack : List ModuleId) :
    Moves Change (hoistModule n stack id) p := by
  induction n generalizing p id stack with
  | zero => exact .program_bind (moves_throw _)
  | succ n ih =>
      unfold hoistModule
      refine .ite (fun _ => .program_bind ?_) fun _ => .program_bind ?_
      · exact moves_throw _
      · refine hoistEach_moves (hoistsChild_hoistModule n (id :: stack)) (fun child q => ?_) _
        exact .bind (ih _) fun _ r _ => moves_pure _

/-- Resolving the endpoints of a module makes changes of linking. -/
theorem hoistEndpoints_moves (id : ModuleId) (p : Program) : Moves Change (hoistEndpoints id) p :=
  .program_bind (hoistModule_moves _ _)

/-! ## Exposing -/

variable {graph : ModuleId} {node : NodeId}

/-- Offering an endpoint of another module adds it, or extends the one of that name. -/
theorem mergeExposed_moves {k : EndpointId} {e : Endpoint}
    (he : (p.moduleAt child).endpoints.get? k = some e) (hmarked : e.exposed)
    (hresolved : e.details.isSome) : Moves Change (mergeExposed graph node e) p := by
  obtain ⟨incoming, hincoming⟩ := Option.isSome_iff_exists.mp hresolved
  unfold Moves
  cases hrun : (mergeExposed graph node e).apply p with
  | mk outcome q =>
      cases outcome with
      | error d =>
          have hsame : q = p := by
            rw [mergeExposed, hincoming] at hrun
            dsimp only at hrun
            rw [apply_program_bind] at hrun
            split at hrun
            · cases hrun
            · split at hrun
              · cases hrun
                rfl
              · cases hrun
              · cases hrun
          exact hsame ▸ .refl
      | ok changed =>
          rcases mergeExposed_eq_ok hincoming hrun with ⟨-, hfresh, rfl⟩ |
            ⟨j, existing, hexisting, hname, -, ⟨-, rfl⟩ | ⟨-, d, hd, hevent, hkind, rfl⟩⟩
          · exact .single (ModuleChange.change (.offer he hmarked hresolved hfresh))
          · exact .refl
          · exact .single (ModuleChange.change
              (.extend hexisting hd hevent he hmarked hname hincoming hkind))

/-- Offering endpoints of another module leaves that module alone, so each of them is still there
when its turn comes. -/
theorem exposeEndpoints_moves {es : List Endpoint} (hne : graph ≠ child)
    (hnode : node.idx < (p.moduleAt graph).nodes.size)
    (hes : ∀ e ∈ es, e.exposed ∧ e.details.isSome ∧
      ∃ k, (p.moduleAt child).endpoints.get? k = some e) :
    Moves Change (exposeEndpoints graph node es) p := by
  induction es generalizing p with
  | nil => exact moves_pure _
  | cons e es ih =>
      obtain ⟨hmarked, hresolved, k, he⟩ := hes e List.mem_cons_self
      have hmerge : Moves Change (mergeExposed graph node e) p :=
        mergeExposed_moves he hmarked hresolved
      have hlt : graph.idx < p.modules.size := by
        by_contra hge
        have hnone : p.modules.get? graph = none := Arena.get?_eq_none_iff.mpr (Nat.not_lt.mp hge)
        rw [Program.moduleAt, Arena.get, hnone] at hnode
        exact Nat.not_lt_zero _ hnode
      unfold exposeEndpoints
      refine .program_bind (.ite (fun _ => moves_throw _) fun _ => ?_)
      refine .bind hmerge fun changed q hq => ?_
      have hexposes := (mergeExposed_exposes hlt hresolved hq).1
      have hshape := hexposes.grown.sameShape
      have hothers := hexposes.others child hne
      have hnode' : node.idx < (q.moduleAt graph).nodes.size := by
        rw [hshape.nodes]
        exact hnode
      dsimp only
      generalize hc : forwarding e.direction e.name node e.name e.span = c
      -- the connection is there already, and nothing changes, or it is added
      have hconnect : Moves Change (Edit.modifyModule graph fun m =>
          if m.hasConnection c then m else m.addConnection c) q := by
        by_cases hhas : (q.moduleAt graph).hasConnection c
        · have hsame : q.modifyModule graph (fun m =>
              if m.hasConnection c then m else m.addConnection c) = q := by
            refine Program.modifyModule_eq_self ?_
            rw [if_pos hhas]
          unfold Moves
          rw [apply_modifyModule, hsame]
        · have hadd : q.modifyModule graph (fun m =>
              if m.hasConnection c then m else m.addConnection c) =
              q.modifyModule graph (·.addConnection c) := by
            refine Program.modifyModule_congr ?_
            rw [if_neg hhas]
          unfold Moves
          rw [apply_modifyModule, hadd, ← hc]
          exact .single (ModuleChange.change (.connect hnode' _ _ _ _))
      refine .bind hconnect fun _ r hr => .bind (ih ?_ ?_) fun _ _ _ => moves_pure _
      · cases hr
        rw [Program.moduleAt_modifyModule]
        split
        · split
          · exact hnode'
          · exact hnode'
        · exact hnode'
      · cases hr
        intro x hx
        rw [Program.moduleAt_modifyModule_of_ne hne, hothers]
        exact hes x (List.mem_cons_of_mem _ hx)

/-- Taking over what nodes expose makes changes of linking. -/
theorem exposeNodes_moves {nodes : List NodeId}
    (hnodes : ∀ node ∈ nodes, node.idx < (p.moduleAt graph).nodes.size ∧
      p.findModule? ((p.moduleAt graph).nodes.get node).source ≠ some graph) :
    Moves Change (exposeNodes graph nodes) p := by
  induction nodes generalizing p with
  | nil => exact moves_pure _
  | cons node nodes ih =>
      obtain ⟨hnode, hself⟩ := hnodes node List.mem_cons_self
      unfold exposeNodes
      refine .program_bind (.bind (moves_require _ _) fun child q hq => ?_)
      obtain ⟨hchild, rfl⟩ := apply_require_eq_ok.mp hq
      have hne : graph ≠ child := by
        rintro rfl
        exact hself hchild
      dsimp only
      generalize hflagged : (q.moduleAt child).endpoints.entries.filter
        (fun x : EndpointId × Endpoint => x.2.exposed && !x.2.isUnresolved) = flagged
      have hexpose : Moves Change (exposeEndpoints graph node (flagged.map (·.2))) q := by
        refine exposeEndpoints_moves hne hnode ?_
        intro e he
        obtain ⟨⟨k, e'⟩, hin, rfl⟩ := List.mem_map.mp he
        rw [← hflagged, List.mem_filter, Arena.mem_entries_iff] at hin
        obtain ⟨hget, hmarked⟩ := hin
        simp only [Endpoint.isUnresolved, Bool.and_eq_true, Bool.not_eq_true'] at hmarked
        exact ⟨hmarked.1, by simpa using hmarked.2, k, hget⟩
      refine .bind hexpose fun changed r hr => .bind (ih ?_) fun _ _ _ => moves_pure _
      have hshape := Changes.sameShape (hexpose.of_apply hr)
      intro n hn
      rw [hshape.findModule?, hshape.nodes]
      exact hnodes n (List.mem_cons_of_mem _ hn)

/-- Exposing in a graph, in a program where no graph contains itself. -/
theorem exposeChildren_moves (hcheck : checkGraphRecursion p = .ok ()) (hgraph : graph ∈ p.graphs) :
    Moves Change (exposeChildren graph) p := by
  refine .program_bind (exposeNodes_moves fun node hnode => ?_)
  have hlt := Arena.mem_handles_iff.mp hnode
  exact ⟨hlt, fun hsource => Holds.ne ⟨hgraph, hlt, hsource⟩ hcheck rfl⟩

/-! ## Linking -/

/-- A turn of a graph makes changes of linking. -/
theorem linkGraph_moves (hcheck : checkGraphRecursion p = .ok ()) (hgraph : graph ∈ p.graphs) :
    Moves Change (linkGraph graph) p := by
  have hhoist := hoistEndpoints_moves graph p
  unfold linkGraph
  refine .bind hhoist fun hoisted q hq => ?_
  have hshape := Changes.sameShape (hhoist.of_apply hq)
  refine .bind (exposeChildren_moves ?_ ?_) fun _ _ _ => moves_pure _
  · rw [hshape.checkGraphRecursion, hcheck]
  · rwa [hshape.graphs]

/-- What instantiates a module is a graph. -/
theorem mem_graphs_of_mem_instantiatingGraphs {name : String}
    (h : graph ∈ instantiatingGraphs p name) : graph ∈ p.graphs := by
  obtain ⟨⟨id, m⟩, hmem, rfl⟩ := List.mem_map.mp h
  obtain ⟨hentry, hholds⟩ := List.mem_filter.mp hmem
  refine List.mem_map.mpr ⟨(id, m), List.mem_filter.mpr ⟨hentry, ?_⟩, rfl⟩
  exact (Bool.and_eq_true_iff.mp hholds).1

/-- What is queued again are graphs. -/
theorem Turn.requeue_graphs (t : Turn) (hshape : p.SameShape t.after) {queue : List ModuleId}
    (hqueue : ∀ id ∈ queue, id ∈ p.graphs) : ∀ id ∈ t.requeue queue, id ∈ t.after.graphs := by
  intro id hid
  rcases Turn.mem_requeue.mp hid with hid | ⟨-, hid⟩
  · rw [hshape.graphs]
    exact hqueue id hid
  · exact mem_graphs_of_mem_instantiatingGraphs hid

/-- The turns make changes of linking, by induction on their number. -/
theorem linkQueue_moves {limit n : Nat} {queue : List ModuleId}
    (hcheck : checkGraphRecursion p = .ok ()) (hqueue : ∀ id ∈ queue, id ∈ p.graphs) :
    Moves Change (linkQueue limit n queue) p := by
  induction n generalizing p queue with
  | zero =>
      cases queue with
      | nil => exact moves_pure _
      | cons graph queue => exact moves_throw _
  | succ n ih =>
      cases queue with
      | nil => exact moves_pure _
      | cons graph queue =>
          have hturn := linkGraph_moves hcheck (hqueue graph List.mem_cons_self)
          unfold linkQueue
          refine .bind hturn fun answer q hq => .program_bind ?_
          have hshape := Changes.sameShape (hturn.of_apply hq)
          refine .bind (ih (hshape.checkGraphRecursion.trans hcheck) ?_) fun _ _ _ => moves_pure _
          exact Turn.requeue_graphs ⟨graph, answer.1, answer.2, q⟩ hshape fun id hid =>
            hqueue id (List.mem_cons_of_mem _ hid)

/-- Clearing marks makes changes of linking. -/
theorem forM_clearExposed_moves (places : List EndpointPlace) (p : Program) :
    Moves Change (places.forM clearExposed) p := by
  induction places generalizing p with
  | nil => exact moves_pure _
  | cons place places ih =>
      rw [List.forM_eq_forM, List.forM_cons]
      exact .bind (moves_modifyModule (ModuleChange.change (.clear place.2))) fun _ q _ => ih q

/-- Linking is made of the changes listed, also when it fails. -/
theorem linkEndpoints_moves (p : Program) : Moves Change linkEndpoints p := by
  unfold linkEndpoints
  refine .program_bind ?_
  cases hcheck : checkGraphRecursion p with
  | error d => exact moves_throw d
  | ok _ =>
      have hqueue : Moves Change (linkQueue (roundLimit p) (roundLimit p) p.graphs) p :=
        linkQueue_moves hcheck fun _ hid => hid
      exact .bind hqueue fun places q _ => forM_clearExposed_moves places q

/-! ## Invariants -/

/-- A name that no endpoint has is new to the list of names. -/
theorem not_mem_names {m : Module} {name : String} (h : m.findEndpoint? name = none) :
    name ∉ m.endpoints.toList.map (·.name) := by
  intro hmem
  obtain ⟨e, he, rfl⟩ := List.mem_map.mp hmem
  obtain ⟨k, hk⟩ := Arena.mem_toList_iff.mp he
  exact Arena.find?_eq_none_iff.mp h k e hk (beq_self_eq_true _)

/-- Names stay distinct: what is added has a fresh name, and nothing is renamed. -/
theorem ModuleChange.namesDistinct {f : Module → Module} (h : ModuleChange p id f)
    (hp : (p.moduleAt id).NamesDistinct) : (f (p.moduleAt id)).NamesDistinct := by
  have hadd : ∀ e : Endpoint, (p.moduleAt id).findEndpoint? e.name = none →
      ((p.moduleAt id).addEndpoint e).NamesDistinct := by
    intro e hfresh
    simp only [Module.NamesDistinct, Module.addEndpoint, Arena.toList_push, List.map_append,
      List.map_cons, List.map_nil]
    refine List.nodup_append.mpr ⟨hp, List.nodup_singleton _, ?_⟩
    rintro x hx y hy rfl
    rw [List.mem_singleton.mp hy] at hx
    exact not_mem_names hfresh hx
  have hmodify : ∀ (k : EndpointId) (g : Endpoint → Endpoint), (∀ e, (g e).name = e.name) →
      Module.NamesDistinct { p.moduleAt id with
        endpoints := (p.moduleAt id).endpoints.modify k g } := by
    intro k g hg
    simp only [Module.NamesDistinct]
    rw [Arena.map_toList_modify hg]
    exact hp
  cases h with
  | relay fresh => exact hadd _ fresh
  | resolve => exact hmodify _ _ fun _ => rfl
  | connect => exact hp
  | offer _ _ _ fresh => exact hadd _ fresh
  | extend => exact hmodify _ _ fun _ => rfl
  | clear k => exact hmodify k _ fun _ => rfl

/-- A change of linking keeps the names of endpoints distinct. -/
theorem Change.namesDistinct (h : Change p q) (hp : ∀ id, (p.moduleAt id).NamesDistinct)
    (id : ModuleId) : (q.moduleAt id).NamesDistinct := by
  obtain ⟨k, f, hf, rfl⟩ := h
  rw [Program.moduleAt_modifyModule]
  split
  · next heq => exact heq.1 ▸ hf.namesDistinct (hp k)
  · exact hp id

/-- Linking keeps the names of endpoints distinct. -/
theorem Changes.namesDistinct (h : Changes p q) (hp : ∀ id, (p.moduleAt id).NamesDistinct) :
    ∀ id, (q.moduleAt id).NamesDistinct := by
  induction h with
  | refl => exact hp
  | tail _ hstep ih => exact hstep.namesDistinct ih

/-- All resolved endpoints of a program have details of the given kind. -/
def AllDetails (good : EndpointDetails → Prop) (p : Program) : Prop :=
  ∀ id k e d, (p.moduleAt id).endpoints.get? k = some e → e.details = some d → good d

/-- What holds of the details of every endpoint of every module holds of all details. -/
theorem AllDetails.of_modules {good : EndpointDetails → Prop}
    (h : ∀ m ∈ p.modules.toList, ∀ e ∈ m.endpoints.toList, ∀ d ∈ e.details, good d) :
    AllDetails good p := by
  have hmodule : ∀ id, ∀ e ∈ (p.moduleAt id).endpoints.toList, ∀ d ∈ e.details, good d :=
    Program.forall_moduleAt (fun _ hnone => absurd hnone List.not_mem_nil) h
  intro id k e d he hd
  exact hmodule id e (Arena.mem_toList_iff.mpr ⟨k, he⟩) d hd

/-- Details come from other endpoints, or are the union of two. -/
theorem Change.allDetails {good : EndpointDetails → Prop}
    (hunion : ∀ d d' : EndpointDetails, good d → good d' → d.kind = .event → d.kind = d'.kind →
      good { d with types := d.types ++ d'.types.filter (!d.hasType ·) })
    (h : Change p q) (hp : AllDetails good p) : AllDetails good q := by
  obtain ⟨j, f, hf, rfl⟩ := h
  -- it is enough to look at the module that changed
  suffices hmodule : ∀ k e d, (f (p.moduleAt j)).endpoints.get? k = some e → e.details = some d →
      good d by
    intro id k e d he hd
    rw [Program.moduleAt_modifyModule] at he
    split at he
    · next heq => exact hmodule k e d (heq.1 ▸ he) hd
    · exact hp id k e d he hd
  intro k e d he hd
  -- two ways to change endpoints, by adding one and by modifying one, cover all kinds of change
  have hadd : ∀ x : Endpoint, ((p.moduleAt j).addEndpoint x).endpoints.get? k = some e →
      (∀ d, x.details = some d → good d) → good d := by
    intro x hx hgood
    rw [Module.addEndpoint, Arena.get?_push] at hx
    split at hx
    · cases hx
      exact hgood d hd
    · exact hp j k e d hx hd
  have hmodify : ∀ (h : EndpointId) (g : Endpoint → Endpoint),
      ((p.moduleAt j).endpoints.modify h g).get? k = some e →
      (∀ x d, (p.moduleAt j).endpoints.get? h = some x → (g x).details = some d → good d) →
      good d := by
    intro h g hx hgood
    rw [Arena.get?_modify] at hx
    split at hx
    · next heq =>
      subst heq
      obtain ⟨x, hget, rfl⟩ := Option.map_eq_some_iff.mp hx
      exact hgood x d hget hd
    · exact hp j k e d hx hd
  cases hf with
  | relay fresh unresolved => exact hadd _ he fun d hd => by simp [unresolved] at hd
  | resolve _ _ inner details =>
      refine hmodify _ _ he fun x d' _ hd' => ?_
      cases hd'
      exact hp _ _ _ _ inner details
  | connect => exact hp j k e d he hd
  | offer inner => exact hadd _ he fun d hd => hp _ _ _ d inner hd
  | @extend h x d₀ _ _ y d₁ own details event inner _ _ details' kind =>
      refine hmodify h _ he fun x' d' hx' hd' => ?_
      cases own.symm.trans hx'
      rw [extendTypes, details] at hd'
      cases hd'
      exact hunion d₀ d₁ (hp _ _ _ d₀ own details) (hp _ _ _ d₁ inner details') event kind
  | clear h =>
      refine hmodify h _ he fun x d' hx hd' => ?_
      exact hp j h x d' hx hd'

/-- Types stay listed as their kinds list them. -/
theorem Changes.listed (h : Changes p q) (hp : AllDetails EndpointDetails.Listed p) :
    AllDetails EndpointDetails.Listed q := by
  induction h with
  | refl => exact hp
  | tail _ hstep ih =>
      refine hstep.allDetails ?_ ih
      intro d d' hd _ hevent _
      refine ⟨?_, fun hkind => absurd hevent hkind⟩
      simp [hd.1]

/-! ## Linking only adds -/

/-- What linking keeps of an endpoint: its name and direction, once it is resolved all details but
for event types that are added at the end, and a mark for exposure may only be taken off. -/
structure Keeps (e e' : Endpoint) : Prop where
  name : e'.name = e.name
  direction : e'.direction = e.direction
  exposed : e'.exposed → e.exposed
  details : ∀ d, e.details = some d → ∃ more, e'.details = some { d with types := d.types ++ more }
  annotations : e.details.isSome → e'.annotations = e.annotations

/-- An endpoint that has grown keeps what it had, whatever becomes of its mark. -/
theorem keeps_unmark {e e' : Endpoint} (h : e.Grown e') (mark : Bool) :
    Keeps e { e' with exposed := e'.exposed && mark } where
  name := h.name
  direction := h.direction
  exposed hmark := by
    rw [← h.exposed]
    exact (Bool.and_eq_true_iff.mp hmark).1
  details := h.details
  annotations := h.annotations

/-- Clearing marks changes modules only. -/
theorem unmark_rest (places : List EndpointPlace) (p : Program) :
    { unmark places p with modules := p.modules } = p := by
  induction places generalizing p with
  | nil => rfl
  | cons place places ih =>
      have h := ih (p.modifyModule place.1 fun m => { m with
        endpoints := m.endpoints.modify place.2 fun e => { e with exposed := false } })
      exact (congrArg (fun r : Program => { r with modules := p.modules }) h :)

/-- Linking only adds.  Everything but the modules' endpoints and connections stays; connections are
added at the end; every endpoint keeps its place, and what `Keeps` says; all endpoints of graphs are
resolved; and distinct endpoint names stay distinct. -/
theorem linkEndpoints_adds {p p' : Program} (h : linkEndpoints.apply p = (.ok (), p')) :
    { p' with modules := p.modules } = p ∧ p'.modules.size = p.modules.size ∧
    (∀ id,
      { p'.moduleAt id with
        endpoints := (p.moduleAt id).endpoints
        connections := (p.moduleAt id).connections } = p.moduleAt id ∧
      (p.moduleAt id).connections.toList <+: (p'.moduleAt id).connections.toList ∧
      ∀ k e, (p.moduleAt id).endpoints.get? k = some e →
        ∃ e', (p'.moduleAt id).endpoints.get? k = some e' ∧ Keeps e e') ∧
    (∀ graph ∈ p'.graphs, (p'.moduleAt graph).Resolved) ∧
    ((∀ id, (p.moduleAt id).NamesDistinct) → ∀ id, (p'.moduleAt id).NamesDistinct) := by
  have hmoves : Changes p p' := (linkEndpoints_moves p).of_apply h
  obtain ⟨-, ts, q, hturns, -, rfl⟩ := linkEndpoints_eq_ok_iff.mp h
  generalize ts.flatMap (·.passed) = places at hmoves
  have hgrown := hturns.grown
  have hshape := hgrown.sameShape.trans (sameShape_unmark places q)
  refine ⟨?_, hshape.size, ?_, ?_, hmoves.namesDistinct⟩
  · calc
      { unmark places q with modules := p.modules }
        = { { unmark places q with modules := q.modules } with modules := p.modules } := rfl
      _ = p := by rw [unmark_rest, hgrown.rest]
  · intro id
    obtain ⟨endpoints, heq, -⟩ := moduleAt_unmark places q id
    have hmodule := hgrown.modules id
    refine ⟨?_, ?_, ?_⟩
    · rw [heq]
      exact hmodule.rest
    · rw [connections_unmark]
      exact hmodule.connections
    · intro k e he
      obtain ⟨e', he', hgrown'⟩ := hmodule.endpoints k e he
      exact ⟨_, by rw [get?_endpoints_unmark, he']; rfl, keeps_unmark hgrown' _⟩
  · intro graph hgraph
    rw [hshape.graphs] at hgraph
    rcases hturns.turn_of_mem hgraph with ⟨t, ht, rfl⟩ | hnil
    · intro k e he
      rw [get?_endpoints_unmark] at he
      obtain ⟨e', he', rfl⟩ := Option.map_eq_some_iff.mp he
      exact hturns.resolved_of_turn ht k e' he'
    · cases hnil

/-- `Top` reaches through `M` and `C` for the output `o` of `P`, whose output `log` is marked. -/
def nested : Program where
  modules := ⟨#[
    graphOf "Top"
      [{ name := "z", direction := .output, path := some [⟨"m", none⟩, ⟨"c", none⟩, ⟨"x", none⟩] }]
      [("m", "M")],
    graphOf "M" [] [("c", "C")],
    graphOf "C" [{ name := "x", direction := .output, path := some [⟨"p", none⟩, ⟨"o", none⟩] }]
      [("p", "P")],
    { kind := .processor
      name := "P"
      endpoints := ⟨#[
        { name := "o", direction := .output
          details := some { kind := .stream, types := [.prim .float32] } },
        { name := "log", direction := .output
          details := some { kind := .event, types := [.prim .int32] }, exposed := true }]⟩ }]⟩

/-- `nested` is linked. -/
theorem linkEndpoints_nested_ok : (linkEndpoints.apply nested).1 = .ok () := by decide +kernel

/-- `nested` is linked, and names of endpoints stay distinct. -/
theorem linkEndpoints_adds_nested : (linkEndpoints.apply nested).1 = .ok () ∧
    ∀ id, ((linkEndpoints.apply nested).2.moduleAt id).NamesDistinct := by
  have hnames : ∀ id, (nested.moduleAt id).NamesDistinct :=
    Program.forall_moduleAt List.nodup_nil (by decide)
  exact ⟨linkEndpoints_nested_ok,
    (linkEndpoints_adds (Prod.ext linkEndpoints_nested_ok rfl)).2.2.2.2 hnames⟩

end Link

end SignalGraph

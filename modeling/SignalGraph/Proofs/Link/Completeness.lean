import SignalGraph.Proofs.Link.Worklist

/-!
# SignalGraph.Proofs.Link.Completeness

Which marked endpoints reach the graphs that hold their module.  A graph offers a marked endpoint of
a node if the endpoint is resolved by the end of one of the graph's turns (`Seen`).

* An endpoint that is declared with details is resolved from the start; one that exposure creates
  counts as a change of its module, which queues the graphs that hold it.  Both are always seen.
* An endpoint that is declared by a path may be resolved while yet another graph has its turn.  A
  graph that has no turn after that does not see it, and then it does not offer it.

`linkEndpoints_offers_iff` puts these together.
-/

namespace SignalGraph.Link

variable {p q : Program} {queue queue' : List ModuleId} {ts : List Turn} {t : Turn}
  {graph child : ModuleId} {node : NodeId} {k : EndpointId} {e : Endpoint}

/-- One of the turns of a graph leaves an endpoint resolved. -/
def Seen (ts : List Turn) (graph child : ModuleId) (k : EndpointId) : Prop :=
  ∃ t ∈ ts, t.graph = graph ∧
    ∃ e, (t.after.moduleAt child).endpoints.get? k = some e ∧ e.details.isSome

/-! ## What is seen is on offer -/

/-- Taking marks off leaves what is on offer. -/
theorem offers_unmark_iff (places : List EndpointPlace) (p : Program) (graph : ModuleId)
    (node : NodeId) (direction : Direction) (name : String) :
    Offers ((unmark places p).moduleAt graph) node direction name ↔
      Offers (p.moduleAt graph) node direction name := by
  have hendpoint : (∃ k own, ((unmark places p).moduleAt graph).endpoints.get? k = some own ∧
      own.name = name ∧ own.direction = direction) ↔
      ∃ k own, (p.moduleAt graph).endpoints.get? k = some own ∧ own.name = name ∧
        own.direction = direction := by
    simp only [get?_endpoints_unmark, Option.map_eq_some_iff]
    constructor
    · rintro ⟨k, _, ⟨own, hown, rfl⟩, hname, hdirection⟩
      exact ⟨k, own, hown, hname, hdirection⟩
    · rintro ⟨k, own, hown, hname, hdirection⟩
      exact ⟨k, _, ⟨own, hown, rfl⟩, hname, hdirection⟩
  have hconnection : ∀ c, ((unmark places p).moduleAt graph).hasConnection c =
      (p.moduleAt graph).hasConnection c := by
    intro c
    rw [Module.hasConnection, connections_unmark]
    rfl
  constructor
  · intro h
    exact ⟨hendpoint.mp h.endpoint, (hconnection _).symm.trans h.connection⟩
  · intro h
    exact ⟨hendpoint.mpr h.endpoint, (hconnection _).trans h.connection⟩

theorem offers_of_seen (hcheck : checkGraphRecursion p = .ok ()) (h : Turns p queue ts q queue')
    (hholds : Holds p graph node child) (he : (q.moduleAt child).endpoints.get? k = some e)
    (hexposed : e.exposed) (hseen : Seen ts graph child k) :
    Offers (q.moduleAt graph) node e.direction e.name := by
  obtain ⟨t, ht, rfl, e', he', hdetails⟩ := hseen
  obtain ⟨x, hx, -, hgrown⟩ := (h.grown_of_turn ht).2.resolved he' hdetails
  cases he.symm.trans hx
  rw [hgrown.name, hgrown.direction]
  exact (h.offers_of_turn ht hholds (hholds.ne hcheck) he'
    (hgrown.exposed.symm.trans hexposed) hdetails).2

/-! ## What is always seen -/

/-- A graph that is queued sees what is resolved by then. -/
theorem Turns.seen_of_mem (h : Turns p queue ts q []) (hgraph : graph ∈ queue)
    (he : (p.moduleAt child).endpoints.get? k = some e) (hdetails : e.details.isSome) :
    Seen ts graph child k := by
  rcases h.turn_of_mem hgraph with ⟨t, ht, rfl⟩ | hnil
  · obtain ⟨e', he', hdetails', -⟩ := (h.grown_of_turn ht).1.resolved he hdetails
    exact ⟨t, ht, rfl, e', he', hdetails'⟩
  · cases hnil

/-- A new endpoint comes from one of the turns. -/
theorem Turns.exists_creating (h : Turns p queue ts q queue')
    (hnone : (p.moduleAt child).endpoints.get? k = none)
    (hsome : (q.moduleAt child).endpoints.get? k = some e) :
    ∃ before t after mid rest e', ts = before ++ t :: after ∧ t.Runs mid ∧
      Turns t.after (t.requeue rest) after q queue' ∧
      (mid.moduleAt child).endpoints.get? k = none ∧
      (t.after.moduleAt child).endpoints.get? k = some e' := by
  induction h with
  | nil => cases hnone.symm.trans hsome
  | @cons p q queue queue' t ts hruns hrest ih =>
      cases hmid : (t.after.moduleAt child).endpoints.get? k with
      | some e' => exact ⟨[], t, ts, p, queue, e', rfl, hruns, hrest, hnone, hmid⟩
      | none =>
          obtain ⟨before, t', after, mid, rest, e', rfl, h⟩ := ih hmid hsome
          exact ⟨t :: before, t', after, mid, rest, e', rfl, h⟩

/-- A marked endpoint that was not declared by a path is seen by all graphs that hold its module. -/
theorem Turns.seen_of_not_path (h : Turns p p.graphs ts q []) (hholds : Holds p graph node child)
    (hdeclared : ∀ e₀, (p.moduleAt child).endpoints.get? k = some e₀ → e₀.details.isSome)
    (he : (q.moduleAt child).endpoints.get? k = some e) (hexposed : e.exposed) :
    Seen ts graph child k := by
  cases hold : (p.moduleAt child).endpoints.get? k with
  | some e₀ => exact h.seen_of_mem hholds.isGraph hold (hdeclared e₀ hold)
  | none =>
      obtain ⟨before, t, after, mid, rest, e', rfl, hruns, hafter, hnone, hsome⟩ :=
        h.exists_creating hold he
      have hmem : t ∈ before ++ t :: after := by simp
      obtain ⟨hdetails, hcreated⟩ := (linkGraph_links hruns).fresh child k e' hnone hsome
      obtain ⟨x, hx, -, hgrown⟩ := hafter.grown.resolved hsome hdetails
      cases he.symm.trans hx
      -- exposure created it, so the graph is queued again
      obtain ⟨hchild, hchanged⟩ := hcreated (hgrown.exposed.symm.trans hexposed)
      have hholds' : Holds t.after graph node t.graph :=
        hchild ▸ hholds.sameShape (h.grown_of_turn hmem).1.sameShape
      have hqueued : graph ∈ t.requeue rest :=
        Turn.mem_requeue.mpr (.inr ⟨hchanged, hholds'.mem_instantiatingGraphs⟩)
      obtain ⟨t', ht', hgraph, hseen⟩ := hafter.seen_of_mem hqueued hsome hdetails
      exact ⟨t', by simp [ht'], hgraph, hseen⟩

/-! ## What is on offer was seen -/

/-- The ends of a forwarding connection say what it forwards. -/
theorem forwarding_eq_of_sameEnds {direction direction' : Direction}
    {own own' inner inner' : String} {node node' : NodeId} {span span' : Span}
    (h : (forwarding direction own node inner span).sameEnds
      (forwarding direction' own' node' inner' span')) :
    direction = direction' ∧ own = own' ∧ node = node' ∧ inner = inner' := by
  cases direction <;> cases direction' <;>
    simp_all [forwarding, Connection.sameEnds]

/-- A new connection comes from one of the turns. -/
theorem Turns.exists_connecting {c : Connection} (h : Turns p queue ts q queue')
    (hout : c ∉ (p.moduleAt graph).connections.toList)
    (hin : c ∈ (q.moduleAt graph).connections.toList) :
    ∃ before t after mid rest, ts = before ++ t :: after ∧
      Turns p queue before mid (t.graph :: rest) ∧ t.Runs mid ∧
      Turns t.after (t.requeue rest) after q queue' ∧ c ∉ (mid.moduleAt graph).connections.toList ∧
      c ∈ (t.after.moduleAt graph).connections.toList := by
  induction h with
  | nil => exact absurd hin hout
  | @cons p q queue queue' t ts hruns hrest ih =>
      by_cases hmid : c ∈ (t.after.moduleAt graph).connections.toList
      · exact ⟨[], t, ts, p, queue, rfl, .nil _ _, hruns, hrest, hout, hmid⟩
      · obtain ⟨before, t', after, mid, rest, rfl, hbefore, h⟩ := ih hmid hin
        exact ⟨t :: before, t', after, mid, rest, rfl, .cons hruns hbefore, h⟩

/-- The endpoint is the only one of its module with its name and direction. -/
def OnlyOne (m : Module) (k : EndpointId) (e : Endpoint) : Prop :=
  ∀ k' e', m.endpoints.get? k' = some e' → e'.name = e.name → e'.direction = e.direction → k' = k

/-- Growth towards a module where the name is unique leads to that endpoint. -/
theorem OnlyOne.eq_of_grown {m m' : Module} {k' : EndpointId} {e' : Endpoint} (h : OnlyOne m' k e)
    (hgrown : m.Grown m') (he' : m.endpoints.get? k' = some e') (hname : e'.name = e.name)
    (hdirection : e'.direction = e.direction) : k' = k := by
  obtain ⟨x, hx, hgrown'⟩ := hgrown.endpoints k' e' he'
  exact h k' x hx (hgrown'.name.trans hname) (hgrown'.direction.trans hdirection)

/-- If a graph offers a marked endpoint, and not because it was declared to, it has seen it. -/
theorem Turns.seen_of_offers (h : Turns p p.graphs ts q []) (hholds : Holds p graph node child)
    (he : (q.moduleAt child).endpoints.get? k = some e) (hexposed : e.exposed)
    (honly : OnlyOne (q.moduleAt child) k e)
    (hundeclared : ¬ (p.moduleAt graph).hasConnection
      (forwarding e.direction e.name node e.name .dummy))
    (hoffers : Offers (q.moduleAt graph) node e.direction e.name) : Seen ts graph child k := by
  obtain ⟨c, hc, hends⟩ := List.any_eq_true.mp hoffers.connection
  have hout : c ∉ (p.moduleAt graph).connections.toList :=
    fun hin => hundeclared (List.any_eq_true.mpr ⟨c, hin, hends⟩)
  obtain ⟨before, t, after, mid, rest, rfl, hbefore, hruns, hafter, hmid, hin⟩ :=
    h.exists_connecting hout hc
  have hmem : t ∈ before ++ t :: after := by simp
  obtain ⟨hgrown, hgrown'⟩ := h.grown_of_turn hmem
  obtain ⟨r, hhoists, hgrownr, hconnections⟩ := (linkGraph_links hruns).connections
  rcases hconnections graph c hin with hold | hforwards | ⟨hgraph, node', e', hmarked, rfl⟩
  · exact absurd hold hmid
  · -- hoisting made the connection
    obtain ⟨direction, own, node', inner, span, child', k', d, rfl, hchild, hk', hd, hown⟩ :=
      hforwards
    obtain ⟨rfl, rfl, rfl, rfl⟩ := forwarding_eq_of_sameEnds hends
    rw [hbefore.grown.sameShape.findModule?, hbefore.grown.sameShape.nodes] at hchild
    cases hholds.source.symm.trans hchild
    obtain ⟨x, hx, hmatch, -⟩ := Arena.find?_eq_some_iff.mp hk'
    rw [Bool.and_eq_true, beq_iff_eq, beq_iff_eq] at hmatch
    have hgrownq : r.Grown q := hgrownr.trans hgrown'
    obtain rfl := honly.eq_of_grown (hgrownq.modules child) hx hmatch.1 hmatch.2
    have hresolved : x.details.isSome := by
      rw [Arena.get_eq_of_get? hx] at hd
      simp [hd]
    obtain ⟨y, hy, hresolved', -⟩ := hgrownr.resolved hx hresolved
    rcases hown with hne | hnew | ⟨j, own, _, _, hj, hunresolved, -⟩
    · exact absurd rfl hne
    · -- what hoisting creates is not marked
      obtain ⟨z, hz, hgrownz⟩ := (hgrownq.modules child).endpoints k' x hx
      cases he.symm.trans hz
      rw [hgrownz.exposed, (hhoists.fresh child k' x hnew hx).2] at hexposed
      cases hexposed
    · -- the graph has an unresolved endpoint, so its first turn is this one or comes later
      have hturn : graph ∈ t.graph :: rest := by
        rcases hbefore.turn_of_mem hholds.isGraph with ⟨t', ht', rfl⟩ | hqueued
        · have := hbefore.resolved_of_turn ht' j own hj
          simp [hunresolved] at this
        · exact hqueued
      rcases List.mem_cons.mp hturn with rfl | hrest
      · exact ⟨t, hmem, rfl, y, hy, hresolved'⟩
      · obtain ⟨t', ht', hgraph, hseen⟩ :=
          hafter.seen_of_mem (Turn.mem_requeue.mpr (.inl hrest)) hy hresolved'
        exact ⟨t', by simp [ht'], hgraph, hseen⟩
  · -- exposing made it, in a turn of the graph
    subst hgraph
    obtain ⟨hdirection, hname, rfl, -⟩ := forwarding_eq_of_sameEnds hends
    obtain ⟨child', k', x, hchild, hx, hgrownx, -, hdetails⟩ := hmarked
    rw [hgrown.sameShape.findModule?, hgrown.sameShape.nodes] at hchild
    cases hholds.source.symm.trans hchild
    obtain rfl := honly.eq_of_grown (hgrown'.modules child) hx (hgrownx.name.trans hname)
      (hgrownx.direction.trans hdirection)
    exact ⟨t, hmem, rfl, x, hx, hgrownx.isSome_details hdetails⟩

/-! ## Linking as a whole -/

/-- An endpoint was marked in the program, or was created with a mark in one of the turns. -/
def Flagged (p : Program) (ts : List Turn) (child : ModuleId) (k : EndpointId) : Prop :=
  (∃ e, (p.moduleAt child).endpoints.get? k = some e ∧ e.exposed) ∨
    (p.moduleAt child).endpoints.get? k = none ∧
      ∃ t ∈ ts, ∃ e, (t.after.moduleAt child).endpoints.get? k = some e ∧ e.exposed

/-- Marks stay until the end of a run. -/
theorem Flagged.exposed (h : Turns p queue ts q queue') (hflagged : Flagged p ts child k)
    (he : (q.moduleAt child).endpoints.get? k = some e) : e.exposed := by
  rcases hflagged with ⟨e₀, he₀, hexposed⟩ | ⟨-, t, ht, e₀, he₀, hexposed⟩
  · obtain ⟨x, hx, hgrown⟩ := (h.grown.modules child).endpoints k e₀ he₀
    cases he.symm.trans hx
    exact hgrown.exposed.trans hexposed
  · obtain ⟨x, hx, hgrown⟩ := ((h.grown_of_turn ht).2.modules child).endpoints k e₀ he₀
    cases he.symm.trans hx
    exact hgrown.exposed.trans hexposed

/-- Linking goes through a run of turns and takes off the marks of what was passed on.  Of an
endpoint that was marked in the program or created by exposure and is resolved in the result, and of
a graph that holds its module:

* if the endpoint was not declared by a path, the graph sees it;
* if the graph sees it, the graph offers it;
* if the graph offers it, without a connection of the kind being declared and without another
  endpoint of that name and direction, the graph has seen it. -/
theorem linkEndpoints_offers_iff {p' : Program} (h : linkEndpoints.apply p = (.ok (), p')) :
    ∃ ts q, Turns p p.graphs ts q [] ∧ p' = unmark (ts.flatMap (·.passed)) q ∧
      ∀ graph node child k e, Holds p graph node child → Flagged p ts child k →
        (p'.moduleAt child).endpoints.get? k = some e → e.details.isSome →
        ((∀ e₀, (p.moduleAt child).endpoints.get? k = some e₀ → e₀.details.isSome) →
          Seen ts graph child k) ∧
        (Seen ts graph child k → Offers (p'.moduleAt graph) node e.direction e.name) ∧
        (OnlyOne (p'.moduleAt child) k e →
          ¬ (p.moduleAt graph).hasConnection (forwarding e.direction e.name node e.name .dummy) →
          Offers (p'.moduleAt graph) node e.direction e.name → Seen ts graph child k) := by
  obtain ⟨hcheck, ts, q, hturns, -, rfl⟩ := linkEndpoints_eq_ok_iff.mp h
  refine ⟨ts, q, hturns, rfl, ?_⟩
  intro graph node child k e hholds hflagged he _
  rw [get?_endpoints_unmark] at he
  obtain ⟨x, hx, rfl⟩ := Option.map_eq_some_iff.mp he
  have hexposed : x.exposed := hflagged.exposed hturns hx
  rw [offers_unmark_iff]
  dsimp only
  refine ⟨?_, ?_, ?_⟩
  · exact fun hdeclared => hturns.seen_of_not_path hholds hdeclared hx hexposed
  · exact offers_of_seen hcheck hturns hholds hx hexposed
  · intro honly
    have honly' : OnlyOne (q.moduleAt child) k x := by
      intro k' y hy hname hdirection
      have hy' := get?_endpoints_unmark (ts.flatMap (·.passed)) q child k'
      rw [hy] at hy'
      exact honly k' _ hy' hname hdirection
    exact hturns.seen_of_offers hholds hx hexposed honly'

/-! ## A graph that misses an endpoint -/

/-- Two graphs hold `C`, whose endpoint `x` is given by a path and marked.  The second one also
reaches for it, which resolves it after the first one had its turn. -/
def shared : Program where
  modules := ⟨#[
    graphOf "G1" [] [("c", "C")],
    graphOf "G2" [{ name := "z", direction := .output, path := some [⟨"c", none⟩, ⟨"x", none⟩] }]
      [("c", "C")],
    graphOf "C"
      [{ name := "x", direction := .output, path := some [⟨"p", none⟩, ⟨"o", none⟩]
         exposed := true }]
      [("p", "P")],
    sourceOf "P" {
      name := "o"
      direction := .output
      details := some { kind := .stream, types := [.prim .float32] } }]⟩

/-- What linking makes of `shared`: `x` is resolved, and the first graph gets no endpoint. -/
theorem run_shared : shared.findModule? "C" = some ⟨2⟩ ∧ (linkEndpoints.apply shared).1 = .ok () ∧
    ((linkEndpoints.apply shared).2.moduleAt ⟨0⟩).endpoints.size = 0 ∧
    (⟨0⟩ : EndpointId).idx < ((linkEndpoints.apply shared).2.moduleAt ⟨2⟩).endpoints.size ∧
    (((linkEndpoints.apply shared).2.moduleAt ⟨2⟩).endpoints.get ⟨0⟩).direction = .output ∧
    (((linkEndpoints.apply shared).2.moduleAt ⟨2⟩).endpoints.get ⟨0⟩).name = "x" ∧
    (((linkEndpoints.apply shared).2.moduleAt ⟨2⟩).endpoints.get ⟨0⟩).details.isSome := by
  decide +kernel

theorem holds_shared : Holds shared ⟨0⟩ ⟨0⟩ ⟨2⟩ :=
  ⟨by decide, by decide, run_shared.1⟩

theorem not_offers_shared :
    ¬ Offers ((linkEndpoints.apply shared).2.moduleAt ⟨0⟩) ⟨0⟩ .output "x" := by
  intro h
  obtain ⟨k, own, hown, -⟩ := h.endpoint
  have hlt := Arena.lt_size_of_get? hown
  rw [run_shared.2.2.1] at hlt
  exact Nat.not_lt_zero _ hlt

theorem linkEndpoints_shared : (linkEndpoints.apply shared).1 = .ok () ∧
    Holds shared ⟨0⟩ ⟨0⟩ ⟨2⟩ ∧ ((shared.moduleAt ⟨2⟩).endpoints.get ⟨0⟩).exposed ∧
    (((linkEndpoints.apply shared).2.moduleAt ⟨2⟩).endpoints.get ⟨0⟩).details.isSome ∧
    ¬ Offers ((linkEndpoints.apply shared).2.moduleAt ⟨0⟩) ⟨0⟩ .output "x" := by
  obtain ⟨-, hlink, -, -, -, -, hresolved⟩ := run_shared
  exact ⟨hlink, holds_shared, rfl, hresolved, not_offers_shared⟩

theorem not_seen_shared : ∃ ts q, Turns shared shared.graphs ts q [] ∧
    ¬ Seen ts ⟨0⟩ ⟨2⟩ ⟨0⟩ := by
  obtain ⟨-, hlink, -, hlt, hdirection, hname, hresolved⟩ := run_shared
  obtain ⟨ts, q, hturns, -, hoffers⟩ := linkEndpoints_offers_iff (Prod.ext hlink rfl)
  have hflagged : Flagged shared ts ⟨2⟩ ⟨0⟩ := .inl ⟨_, rfl, rfl⟩
  refine ⟨ts, q, hturns, fun hseen => not_offers_shared ?_⟩
  have hoffer := (hoffers ⟨0⟩ ⟨0⟩ ⟨2⟩ ⟨0⟩ _ holds_shared hflagged (Arena.get?_eq_some_get hlt)
    hresolved).2.1 hseen
  rw [hdirection, hname] at hoffer
  exact hoffer

end SignalGraph.Link

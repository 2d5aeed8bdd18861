import SignalGraph.Proofs.Link.Growth
import SignalGraph.Proofs.Program.Edit

/-!
# SignalGraph.Proofs.Link.Exposure

What exposing does to a graph when it succeeds.

* `Offers` says that a graph has an endpoint of its own for an endpoint of a node, and a connection
  between the two;
* `Exposes` lists what a successful exposure leaves behind: the graph has grown and no other module
  is touched, new endpoints of the graph are resolved and marked in turn, and every new connection
  leads to a marked endpoint of a node;
* `exposeEndpoints_exposes`, `exposeNodes_exposes` and `exposeChildren_exposes` show it layer by
  layer, together with what is then on offer.
-/

namespace SignalGraph.Link

/-! ## What is on offer -/

theorem sameEnds_forwarding (c : Connection) (direction : Direction) (own inner : String)
    (node : NodeId) (span span' : Span) :
    c.sameEnds (forwarding direction own node inner span) =
      c.sameEnds (forwarding direction own node inner span') := by
  cases direction <;> rfl

/-- A graph offers the endpoint `name` of a node: it has an endpoint of that name and direction, and
a connection between the two. -/
structure Offers (m : Module) (node : NodeId) (direction : Direction) (name : String) : Prop where
  endpoint : ∃ k own, m.endpoints.get? k = some own ∧ own.name = name ∧ own.direction = direction
  connection : m.hasConnection (forwarding direction name node name .dummy)

theorem Offers.grown {m m' : Module} {node : NodeId} {direction : Direction} {name : String}
    (h : Offers m node direction name) (hgrown : m.Grown m') : Offers m' node direction name where
  endpoint := by
    obtain ⟨k, own, hown, hname, hdirection⟩ := h.endpoint
    obtain ⟨own', hown', hgrown'⟩ := hgrown.endpoints k own hown
    exact ⟨k, own', hown', hgrown'.name.trans hname, hgrown'.direction.trans hdirection⟩
  connection := by
    obtain ⟨c, hc, hends⟩ := List.any_eq_true.mp h.connection
    exact List.any_eq_true.mpr ⟨c, hgrown.connections.subset hc, hends⟩

/-- An endpoint of a node's module is marked for exposure and resolved; `e` is the endpoint as it
was when it was looked at. -/
def Marked (p : Program) (graph : ModuleId) (node : NodeId) (e : Endpoint) : Prop :=
  ∃ child k e', p.findModule? ((p.moduleAt graph).nodes.get node).source = some child ∧
    (p.moduleAt child).endpoints.get? k = some e' ∧ e.Grown e' ∧ e.exposed ∧ e.details.isSome

theorem Marked.grown {p q : Program} {graph : ModuleId} {node : NodeId} {e : Endpoint}
    (h : Marked p graph node e) (hgrown : p.Grown q) : Marked q graph node e := by
  obtain ⟨child, k, e', hchild, he', hgrown', hexposed, hdetails⟩ := h
  obtain ⟨e'', he'', hgrown''⟩ := (hgrown.modules child).endpoints k e' he'
  rw [← hgrown.sameShape.findModule?, ← hgrown.sameShape.nodes graph] at hchild
  exact ⟨child, k, e'', hchild, he'', hgrown'.trans hgrown'', hexposed, hdetails⟩

/-! ## What exposure leaves behind -/

/-- What a successful exposure in a graph leaves behind; `changed` is its answer to whether an
endpoint of the graph changed. -/
structure Exposes (graph : ModuleId) (changed : Bool) (p q : Program) : Prop where
  grown : p.Grown q
  others : ∀ id, graph ≠ id → q.moduleAt id = p.moduleAt id
  resolved : (p.moduleAt graph).Resolved → (q.moduleAt graph).Resolved
  /-- New endpoints are resolved and marked in turn. -/
  fresh : ∀ k e, (p.moduleAt graph).endpoints.get? k = none →
    (q.moduleAt graph).endpoints.get? k = some e → e.details.isSome ∧ e.exposed
  unchanged : changed = false → (q.moduleAt graph).endpoints = (p.moduleAt graph).endpoints
  connections : ∀ c ∈ (q.moduleAt graph).connections.toList,
    c ∈ (p.moduleAt graph).connections.toList ∨
      ∃ node e, Marked q graph node e ∧ c = forwarding e.direction e.name node e.name e.span

namespace Exposes

variable {graph : ModuleId} {changed changed' : Bool} {p q r : Program}

theorem refl (graph : ModuleId) (p : Program) : Exposes graph false p p where
  grown := .refl p
  others _ _ := rfl
  resolved h := h
  fresh _ _ hnone hsome := by cases hnone.symm.trans hsome
  unchanged _ := rfl
  connections _ hc := .inl hc

theorem trans (h : Exposes graph changed p q) (h' : Exposes graph changed' q r) :
    Exposes graph (changed || changed') p r where
  grown := h.grown.trans h'.grown
  others id hid := (h'.others id hid).trans (h.others id hid)
  resolved hp := h'.resolved (h.resolved hp)
  fresh k e hnone hsome := by
    cases hmid : (q.moduleAt graph).endpoints.get? k with
    | none => exact h'.fresh k e hmid hsome
    | some e' =>
        obtain ⟨hd, hx⟩ := h.fresh k e' hnone hmid
        obtain ⟨e'', he'', hd'', hgrown⟩ := h'.grown.resolved hmid hd
        cases hsome.symm.trans he''
        exact ⟨hd'', hgrown.exposed.trans hx⟩
  unchanged hnot := by
    obtain ⟨hfst, hsnd⟩ := Bool.or_eq_false_iff.mp hnot
    exact (h'.unchanged hsnd).trans (h.unchanged hfst)
  connections c hc := by
    rcases h'.connections c hc with hc | hc
    · refine (h.connections c hc).imp_right ?_
      rintro ⟨node, e, hmarked, rfl⟩
      exact ⟨node, e, hmarked.grown h'.grown, rfl⟩
    · exact .inr hc

/-- Connecting an endpoint of the graph and a marked endpoint of a node, unless they are connected
already. -/
theorem connect {node : NodeId} {e : Endpoint} (h : Exposes graph changed p q)
    (hlt : graph.idx < p.modules.size) (hmarked : Marked p graph node e) :
    Exposes graph changed p (q.modifyModule graph fun m =>
      if m.hasConnection (forwarding e.direction e.name node e.name e.span) then m
      else m.addConnection (forwarding e.direction e.name node e.name e.span)) := by
  generalize hc : forwarding e.direction e.name node e.name e.span = c
  have hgrown : q.Grown (q.modifyModule graph fun m =>
      if m.hasConnection c then m else m.addConnection c) := by
    refine .modifyModule q graph _ ?_
    split
    · exact .refl _
    · exact .addConnection _ _
  have hself := Program.moduleAt_modifyModule_self (h.grown.size ▸ hlt)
    (fun m : Module => if m.hasConnection c then m else m.addConnection c)
  have hendpoints : ((q.modifyModule graph fun m =>
      if m.hasConnection c then m else m.addConnection c).moduleAt graph).endpoints =
      (q.moduleAt graph).endpoints := by
    rw [hself]
    split
    · rfl
    · rfl
  -- only connections of the graph change, so the endpoints are as they were
  refine ⟨h.grown.trans hgrown, ?_, ?_, ?_, ?_, ?_⟩
  · intro id hid
    rw [Program.moduleAt_modifyModule_of_ne hid, h.others id hid]
  · intro hp k x hx
    rw [hendpoints] at hx
    exact h.resolved hp k x hx
  · intro k x hnone hsome
    rw [hendpoints] at hsome
    exact h.fresh k x hnone hsome
  · intro hnot
    rw [hendpoints]
    exact h.unchanged hnot
  -- a connection of the graph is an old one or the one that was added
  · intro x hx
    have hx' : x ∈ (q.moduleAt graph).connections.toList ∨ x = c := by
      rw [hself] at hx
      split at hx
      · exact .inl hx
      · simpa [Module.addConnection] using hx
    rcases hx' with hx | rfl
    · refine (h.connections x hx).imp_right ?_
      rintro ⟨node', e', hmarked', rfl⟩
      exact ⟨node', e', hmarked'.grown hgrown, rfl⟩
    · exact .inr ⟨node, e, (hmarked.grown h.grown).grown hgrown, hc.symm⟩

end Exposes

/-! ## Single endpoints -/

/-- An endpoint that also takes the given types. -/
def extendTypes (missing : List Ty) (e : Endpoint) : Endpoint :=
  { e with details := e.details.map fun d => { d with types := d.types ++ missing } }

theorem extendTypes_grown (missing : List Ty) {e : Endpoint}
    (hevent : ∀ d, e.details = some d → d.kind = .event) : e.Grown (extendTypes missing e) where
  name := rfl
  direction := rfl
  span := rfl
  exposed := rfl
  details d hd := ⟨missing, by simp [extendTypes, hd]⟩
  steady d hd hkind := absurd (hevent d hd) hkind
  annotations _ := rfl
  path := .inl rfl
  untouched hnone := by
    have hd : e.details = none := by simpa [extendTypes] using hnone
    cases e
    cases hd
    rfl

variable {graph : ModuleId} {node : NodeId} {p q : Program} {changed : Bool}

/-- Two endpoints fit if they are resolved and of the same direction and kind; only events can lack
types then. -/
theorem missingTypes?_eq_some {existing e : Endpoint} {incoming : EndpointDetails}
    {missing : List Ty} (h : missingTypes? existing e incoming = some missing) :
    existing.direction = e.direction ∧ ∃ d, existing.details = some d ∧ d.kind = incoming.kind ∧
      (d.kind = .event ∧ missing = incoming.types.filter (!d.hasType ·) ∨ missing = []) := by
  cases hd : existing.details with
  | none => simp [missingTypes?, hd] at h
  | some d =>
      simp only [missingTypes?, hd, Option.bind_eq_bind, Option.bind_some] at h
      split at h
      · cases h
      · next hfit =>
        obtain ⟨hdirection, hkind⟩ : existing.direction = e.direction ∧ d.kind = incoming.kind := by
          simpa using hfit
        refine ⟨hdirection, d, rfl, hkind, ?_⟩
        split at h
        · next hevent => exact .inl ⟨hevent, (Option.some.inj h).symm⟩
        · split at h
          · exact .inr (Option.some.inj h).symm
          · cases h

/-- Offering a resolved endpoint: it is new to the graph, or the graph has an endpoint of that name
and direction, which may get further types if the two are events. -/
theorem mergeExposed_eq_ok {e : Endpoint} {incoming : EndpointDetails}
    (hincoming : e.details = some incoming)
    (h : (mergeExposed graph node e).apply p = (.ok changed, q)) :
    changed = true ∧ (p.moduleAt graph).findEndpoint? e.name = none ∧
        q = p.modifyModule graph (·.addEndpoint { e with path := none, exposed := true }) ∨
      ∃ k existing, (p.moduleAt graph).endpoints.get? k = some existing ∧
        existing.name = e.name ∧ existing.direction = e.direction ∧
        (changed = false ∧ q = p ∨
          changed = true ∧ ∃ d, existing.details = some d ∧ d.kind = .event ∧
            d.kind = incoming.kind ∧ q = p.modifyModule graph fun m => { m with
              endpoints := m.endpoints.modify k
                (extendTypes (incoming.types.filter (!d.hasType ·))) }) := by
  rw [mergeExposed, hincoming] at h
  dsimp only at h
  rw [Edit.apply_program_bind] at h
  cases hfind : (p.moduleAt graph).findEndpoint? e.name with
  | none =>
      rw [hfind] at h
      dsimp only at h
      rw [Edit.apply_modifyModule_bind, Edit.apply_pure] at h
      cases h
      exact .inl ⟨rfl, rfl, by rw [hincoming]⟩
  | some k =>
      obtain ⟨existing, hexisting, hname, -⟩ := Arena.find?_eq_some_iff.mp hfind
      rw [hfind] at h
      dsimp only at h
      rw [Arena.get_eq_of_get? hexisting] at h
      generalize exposureClash p graph node e incoming existing = clash at h
      refine .inr ⟨k, existing, hexisting, eq_of_beq hname, ?_⟩
      split at h
      · cases h
      · next hmissing =>
        cases h
        exact ⟨(missingTypes?_eq_some hmissing).1, .inl ⟨rfl, rfl⟩⟩
      · next missing hne hmissing =>
        cases h
        obtain ⟨hdirection, d, hd, hkind, ⟨hevent, rfl⟩ | rfl⟩ := missingTypes?_eq_some hmissing
        · exact ⟨hdirection, .inr ⟨rfl, d, hd, hevent, hkind, rfl⟩⟩
        · exact absurd rfl hne

/-- After an endpoint was offered, the graph has an endpoint of its name and direction. -/
theorem mergeExposed_exposes {e : Endpoint} (hlt : graph.idx < p.modules.size)
    (hdetails : e.details.isSome) (h : (mergeExposed graph node e).apply p = (.ok changed, q)) :
    Exposes graph changed p q ∧ ∃ k own, (q.moduleAt graph).endpoints.get? k = some own ∧
      own.name = e.name ∧ own.direction = e.direction := by
  obtain ⟨incoming, hincoming⟩ := Option.isSome_iff_exists.mp hdetails
  rcases mergeExposed_eq_ok hincoming h with ⟨rfl, -, rfl⟩ |
    ⟨k, existing, hexisting, hname, hdirection, ⟨rfl, rfl⟩ | ⟨rfl, d, hd, hevent, -, rfl⟩⟩
  · -- a new endpoint
    have hself := Program.moduleAt_modifyModule_self hlt
      (·.addEndpoint { e with path := none, exposed := true })
    have hnew : ∀ k x, ((p.modifyModule graph
        (·.addEndpoint { e with path := none, exposed := true })).moduleAt graph).endpoints.get? k =
          some x → (p.moduleAt graph).endpoints.get? k = some x ∨
            x.details.isSome ∧ x.exposed := by
      intro k x hx
      rw [hself, Module.addEndpoint, Arena.get?_push] at hx
      split at hx
      · cases hx
        exact .inr ⟨hdetails, rfl⟩
      · exact .inl hx
    -- other modules stay, the new endpoint is resolved and marked, and connections stay
    refine ⟨⟨.modifyModule p graph _ (.addEndpoint _ _), ?_, ?_, ?_, nofun, ?_⟩,
      (p.moduleAt graph).endpoints.next, { e with path := none, exposed := true }, ?_, rfl, rfl⟩
    · exact fun id hid => Program.moduleAt_modifyModule_of_ne hid _
    · intro hp k x hx
      rcases hnew k x hx with hold | ⟨hd, -⟩
      · exact hp k x hold
      · exact hd
    · intro k x hnone hsome
      rcases hnew k x hsome with hold | hfresh
      · cases hnone.symm.trans hold
      · exact hfresh
    · intro c hc
      rw [hself] at hc
      exact .inl hc
    · rw [hself]
      exact Arena.get?_push_next _ _
  · -- an endpoint that takes all types already
    exact ⟨.refl _ _, k, existing, hexisting, hname, hdirection⟩
  · -- an endpoint that gets further types
    generalize incoming.types.filter (!d.hasType ·) = missing
    -- types are only added, and only to an event, which is what growth allows
    have hgrown : ∀ x, (p.moduleAt graph).endpoints.get? k = some x →
        x.Grown (extendTypes missing x) := by
      intro x hx
      cases hexisting.symm.trans hx
      exact extendTypes_grown missing fun d' hd' => by cases hd.symm.trans hd'; exact hevent
    have hself := Program.moduleAt_modifyModule_self hlt
      (fun m : Module => { m with endpoints := m.endpoints.modify k (extendTypes missing) })
    refine ⟨⟨.modifyModule p graph _ (.modifyEndpoint _ _ _ hgrown), ?_,
      ?_, ?_, nofun, ?_⟩, k, extendTypes missing existing, ?_, hname, hdirection⟩
    · exact fun id hid => Program.moduleAt_modifyModule_of_ne hid _
    · intro hp j x hx
      rw [hself, Arena.get?_modify] at hx
      split at hx
      · next heq =>
        subst heq
        obtain ⟨y, hy, rfl⟩ := Option.map_eq_some_iff.mp hx
        exact (hgrown y hy).isSome_details (hp k y hy)
      · exact hp j x hx
    · intro j x hnone hsome
      rw [hself, Arena.get?_modify, hnone] at hsome
      split at hsome <;> cases hsome
    · intro c hc
      rw [hself] at hc
      exact .inl hc
    · rw [hself]
      exact (Arena.get?_modify_self _ _ _).trans (congrArg _ hexisting)

/-- Offering the marked endpoints of a node one by one. -/
theorem exposeEndpoints_exposes {es : List Endpoint} (hlt : graph.idx < p.modules.size)
    (hmarked : ∀ e ∈ es, Marked p graph node e)
    (h : (exposeEndpoints graph node es).apply p = (.ok changed, q)) :
    Exposes graph changed p q ∧ ∀ e ∈ es, Offers (q.moduleAt graph) node e.direction e.name := by
  induction es generalizing p changed with
  | nil =>
      cases h
      exact ⟨.refl _ _, nofun⟩
  | cons e es ih =>
      simp only [exposeEndpoints, Edit.apply_program_bind] at h
      split at h
      · cases h
      · obtain ⟨here, p₁, hmerge, h⟩ := Edit.apply_bind_eq_ok.mp h
        rw [Edit.apply_modifyModule_bind] at h
        obtain ⟨later, _, hrest, h⟩ := Edit.apply_bind_eq_ok.mp h
        cases h
        -- a marked endpoint has details, so the graph can take them over
        have hdetails : e.details.isSome := by
          obtain ⟨_, _, _, -, -, -, -, hdetails⟩ := hmarked e List.mem_cons_self
          exact hdetails
        obtain ⟨hexposes, own⟩ := mergeExposed_exposes hlt hdetails hmerge
        have hfirst := hexposes.connect hlt (hmarked e List.mem_cons_self)
        generalize hp₂ : p₁.modifyModule graph (fun m =>
          if m.hasConnection (forwarding e.direction e.name node e.name e.span) then m
          else m.addConnection (forwarding e.direction e.name node e.name e.span)) =
            p₂ at hfirst hrest
        -- whether the connection was there or was added now, the graph has it after this step
        have hoffer : Offers (p₂.moduleAt graph) node e.direction e.name := by
          rw [← hp₂, Program.moduleAt_modifyModule_self (hexposes.grown.size ▸ hlt)]
          split
          · next hhas =>
            refine ⟨own, ?_⟩
            simpa only [Module.hasConnection, sameEnds_forwarding _ _ _ _ _ e.span .dummy]
              using hhas
          · refine ⟨own, ?_⟩
            refine List.any_eq_true.mpr ⟨forwarding e.direction e.name node e.name e.span, ?_, ?_⟩
            · simp [Module.addConnection]
            · rw [sameEnds_forwarding _ _ _ _ _ .dummy e.span]
              simp [Connection.sameEnds]
        -- what is offered after one step stays on offer in the others, since modules only grow
        obtain ⟨hlater, hoffers⟩ := ih (hfirst.grown.size ▸ hlt)
          (fun x hx => (hmarked x (List.mem_cons_of_mem _ hx)).grown hfirst.grown) hrest
        refine ⟨?_, ?_⟩
        · rw [Bool.or_comm]
          exact hfirst.trans hlater
        · intro x hx
          rcases List.mem_cons.mp hx with rfl | hx
          · exact hoffer.grown (hlater.grown.modules graph)
          · exact hoffers x hx

/-! ## Whole graphs -/

/-- Exposing what the given nodes offer: every marked and resolved endpoint of their modules is
passed on and is then on offer. -/
theorem exposeNodes_exposes {nodes : List NodeId} {passed : List EndpointPlace}
    (hlt : graph.idx < p.modules.size)
    (h : (exposeNodes graph nodes).apply p = (.ok (changed, passed), q)) :
    Exposes graph changed p q ∧ ∀ node ∈ nodes,
      ∃ child, p.findModule? ((p.moduleAt graph).nodes.get node).source = some child ∧
        (graph ≠ child → ∀ k e, (p.moduleAt child).endpoints.get? k = some e → e.exposed →
          e.details.isSome →
          (child, k) ∈ passed ∧ Offers (q.moduleAt graph) node e.direction e.name) := by
  induction nodes generalizing p changed passed with
  | nil =>
      cases h
      exact ⟨.refl _ _, nofun⟩
  | cons node nodes ih =>
      rw [exposeNodes, Edit.apply_program_bind] at h
      generalize (Fault.noProcessor ((p.moduleAt graph).nodes.get node).source).diagnose
        (p.moduleAt graph).span = missing at h
      obtain ⟨child, p', hrequire, h⟩ := Edit.apply_bind_eq_ok.mp h
      obtain ⟨hchild, hp'⟩ := Edit.apply_require_eq_ok.mp hrequire
      rw [hp'] at h
      obtain ⟨here, p₁, hendpoints, h⟩ := Edit.apply_bind_eq_ok.mp h
      obtain ⟨⟨later, passed'⟩, _, hnodes, h⟩ := Edit.apply_bind_eq_ok.mp h
      rw [Edit.apply_pure] at h
      cases h
      generalize hflagged : (p.moduleAt child).endpoints.entries.filter
        (fun x : EndpointId × Endpoint => x.2.exposed && !x.2.isUnresolved) = flagged at hendpoints
      -- the endpoints that are passed on are the marked and resolved ones of the child
      have hmem : ∀ k e, (k, e) ∈ flagged ↔ (p.moduleAt child).endpoints.get? k = some e ∧
          e.exposed ∧ e.details.isSome := by
        intro k e
        rw [← hflagged, List.mem_filter, Arena.mem_entries_iff]
        simp [Endpoint.isUnresolved, Option.isSome_iff_ne_none]
      have hmarked : ∀ e ∈ flagged.map (·.2), Marked p graph node e := by
        intro e he
        obtain ⟨⟨k, e'⟩, hin, rfl⟩ := List.mem_map.mp he
        obtain ⟨hget, hexposed, hdetails⟩ := (hmem k e').mp hin
        exact ⟨child, k, e', hchild, hget, .refl e', hexposed, hdetails⟩
      obtain ⟨hfirst, hoffers⟩ := exposeEndpoints_exposes hlt hmarked hendpoints
      obtain ⟨hlater, hnodes⟩ := ih (hfirst.grown.size ▸ hlt) hnodes
      refine ⟨hfirst.trans hlater, ?_⟩
      intro n hn
      rcases List.mem_cons.mp hn with rfl | hn
      · refine ⟨child, hchild, ?_⟩
        intro _ k e he hexposed hdetails
        have hin : (k, e) ∈ flagged := (hmem k e).mpr ⟨he, hexposed, hdetails⟩
        constructor
        · exact List.mem_append_left _ (List.mem_map.mpr ⟨(k, e), hin, rfl⟩)
        · have hin' : e ∈ flagged.map (·.2) := List.mem_map.mpr ⟨(k, e), hin, rfl⟩
          exact (hoffers e hin').grown (hlater.grown.modules graph)
      -- for a later node: the first step changed the graph only, so its child still offers the same
      · obtain ⟨other, hother, hrest⟩ := hnodes n hn
        rw [hfirst.grown.sameShape.findModule?, hfirst.grown.sameShape.nodes graph] at hother
        refine ⟨other, hother, ?_⟩
        intro hne k e he hexposed hdetails
        rw [← hfirst.others other hne] at he
        obtain ⟨hpassed, hoffered⟩ := hrest hne k e he hexposed hdetails
        exact ⟨List.mem_append_right _ hpassed, hoffered⟩

/-- Where no node has anything marked and resolved, exposing does nothing. -/
theorem exposeNodes_of_unmarked {nodes : List NodeId}
    (h : ∀ node ∈ nodes, ∃ child,
      p.findModule? ((p.moduleAt graph).nodes.get node).source = some child ∧
        ∀ k e, (p.moduleAt child).endpoints.get? k = some e → e.exposed → e.details = none) :
    (exposeNodes graph nodes).apply p = (.ok (false, []), p) := by
  induction nodes with
  | nil => rfl
  | cons node nodes ih =>
      obtain ⟨child, hchild, hnone⟩ := h node List.mem_cons_self
      have hflagged : (p.moduleAt child).endpoints.entries.filter
          (fun x : EndpointId × Endpoint => x.2.exposed && !x.2.isUnresolved) = [] := by
        refine List.filter_eq_nil_iff.mpr ?_
        rintro ⟨k, e⟩ he
        have hd := hnone k e (Arena.mem_entries_iff.mp he)
        by_cases hexposed : e.exposed
        · simp [Endpoint.isUnresolved, hd hexposed]
        · simp [hexposed]
      have hrest := ih fun n hn => h n (List.mem_cons_of_mem _ hn)
      rw [exposeNodes, Edit.apply_program_bind]
      generalize (Fault.noProcessor ((p.moduleAt graph).nodes.get node).source).diagnose
        (p.moduleAt graph).span = missing
      simp only [hchild, Edit.require, pure_bind, hflagged, List.map_nil, exposeEndpoints]
      rw [Edit.apply_bind, hrest]
      rfl

end SignalGraph.Link

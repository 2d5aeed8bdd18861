import SignalGraph.Proofs.Link.Changes

/-!
# SignalGraph.Proofs.Link.Wiring

The wires that hoisting lays.  An endpoint that is declared by the path `s₁.s₂. … .sₙ` is joined to
an endpoint of the node `s₁`, that one to an endpoint of the node `s₂` inside it, and so on down to
the endpoint `sₙ`.

* `Wire` is such a chain, for any notion of what joins two endpoints;
* `Wires` says what hoisting does: resolved endpoints stay as they are, and every endpoint that gets
  resolved is at the upper end of a wire whose endpoints are copies of each other;
* in the rest of the run events may get further types, but all endpoints of a wire go on to share
  the types that they had first (`Shares`), so that every connection on it is accepted.

`linkEndpoints_wires` puts these together.
-/

namespace SignalGraph

/-! ## Types that fit themselves -/

theorem Ty.castKind_self (t : Ty) : t.castKind t = .identity := by
  cases t with
  | ref t => cases t <;> simp [castKind, unqualified, unreferenced, unconst, isConst]
  | const t => cases t <;> simp [castKind, castArray, castFlat, unqualified, unreferenced, unconst]
  | array e n => simp [castKind, castArray, unqualified, unreferenced, unconst]
  | _ => simp [castKind, castFlat, unqualified, unreferenced, unconst]

theorem Ty.canSilentlyCast_self (t : Ty) : t.canSilentlyCast t := by
  simp [canSilentlyCast, castKind_self, CastKind.isSilent]

namespace Link

/-! ## Wires -/

/-- What joins endpoint `k` of a module to the endpoint `k'`, called `inner`, of one of its nodes:
the module, `k`, the name of the node, the node's module, `k'` and `inner`. -/
abbrev Joint := ModuleId → EndpointId → String → ModuleId → EndpointId → String → Prop

/-- A chain of joints along a path; the last segment names the endpoint at the end. -/
inductive Wire (joint : Joint) : ModuleId → EndpointId → List PathSegment → Prop where
  | last {id child : ModuleId} {k k' : EndpointId} {first second : PathSegment} :
    joint id k first.name child k' second.name → Wire joint id k [first, second]
  | step {id child : ModuleId} {k k' : EndpointId} {first second third : PathSegment}
    {rest : List PathSegment} {inner : String} :
    joint id k first.name child k' inner → Wire joint child k' (second :: third :: rest) →
    Wire joint id k (first :: second :: third :: rest)

theorem Wire.mono {joint joint' : Joint} {id : ModuleId} {k : EndpointId} {path : List PathSegment}
    (himp : ∀ id k node child k' inner, joint id k node child k' inner →
      joint' id k node child k' inner)
    (h : Wire joint id k path) : Wire joint' id k path := by
  induction h with
  | last hjoint => exact .last (himp _ _ _ _ _ _ hjoint)
  | step hjoint _ ih => exact .step (himp _ _ _ _ _ _ hjoint) ih

/-- Two endpoints of one direction, related by `fit`, with the connection that forwards one to the
other; the node is not an array. -/
def Forwarded (fit : Endpoint → Endpoint → Prop) (p : Program) : Joint :=
  fun id k nodeName child k' inner => ∃ node own x span,
    (p.moduleAt id).findNode? nodeName = some node ∧
    ((p.moduleAt id).nodes.get node).arraySize = none ∧
    p.findModule? ((p.moduleAt id).nodes.get node).source = some child ∧
    (p.moduleAt id).endpoints.get? k = some own ∧
    (p.moduleAt child).endpoints.get? k' = some x ∧
    x.name = inner ∧ x.direction = own.direction ∧ fit own x ∧
    forwarding own.direction own.name node inner span ∈ (p.moduleAt id).connections.toList

/-- A program of the same shape with no fewer connections in which the endpoints still fit. -/
theorem Forwarded.of_sameShape {fit fit' : Endpoint → Endpoint → Prop} {p q : Program}
    (hshape : p.SameShape q)
    (hconnections : ∀ id, (p.moduleAt id).connections.toList ⊆ (q.moduleAt id).connections.toList)
    (hfit : ∀ id k own child k' x, (p.moduleAt id).endpoints.get? k = some own →
      (p.moduleAt child).endpoints.get? k' = some x → fit own x →
      ∃ own' x', (q.moduleAt id).endpoints.get? k = some own' ∧
        (q.moduleAt child).endpoints.get? k' = some x' ∧ fit' own' x' ∧ own'.name = own.name ∧
        own'.direction = own.direction ∧ x'.name = x.name ∧ x'.direction = x.direction)
    {id child : ModuleId} {k k' : EndpointId} {nodeName inner : String}
    (h : Forwarded fit p id k nodeName child k' inner) :
    Forwarded fit' q id k nodeName child k' inner := by
  obtain ⟨node, own, x, span, hnode, hsingle, hsource, hown, hx, hname, hdirection, hfits, hmem⟩ :=
    h
  obtain ⟨own', x', hown', hx', hfits', hownName, hownDirection, hxName, hxDirection⟩ :=
    hfit id k own child k' x hown hx hfits
  refine ⟨node, own', x', span, ?_, ?_, ?_, hown', hx', hxName.trans hname, ?_, hfits', ?_⟩
  · rw [Module.findNode?, hshape.nodes]
    exact hnode
  · rw [hshape.nodes]
    exact hsingle
  · rw [hshape.findModule?, hshape.nodes]
    exact hsource
  · rw [hxDirection, hdirection, hownDirection]
  · rw [hownDirection, hownName]
    exact hconnections id hmem

/-! ## Hoisting lays wires -/

/-- An endpoint has the details and the annotations of another one, which is no array. -/
def Copies (own x : Endpoint) : Prop :=
  ∃ d, own.details = some d ∧ x.details = some d ∧ own.annotations = x.annotations ∧
    d.arraySize = none

/-- A wire stays in a grown program where all resolved endpoints are as they were. -/
theorem Wire.of_kept {p q : Program} (hgrown : p.Grown q)
    (hkept : ∀ id k e, (p.moduleAt id).endpoints.get? k = some e → e.details.isSome →
      (q.moduleAt id).endpoints.get? k = some e)
    {id : ModuleId} {k : EndpointId} {path : List PathSegment}
    (hwire : Wire (Forwarded Copies p) id k path) : Wire (Forwarded Copies q) id k path := by
  refine hwire.mono fun _ _ _ _ _ _ hjoint => ?_
  refine Forwarded.of_sameShape hgrown.sameShape (fun j => (hgrown.modules j).connections.subset)
    ?_ hjoint
  intro j i own child k' x hown hx hcopies
  have hownKept := hkept j i own hown (by obtain ⟨d, hd, -⟩ := hcopies; simp [hd])
  have hxKept := hkept child k' x hx (by obtain ⟨d, -, hd, -⟩ := hcopies; simp [hd])
  exact ⟨own, x, hownKept, hxKept, hcopies, rfl, rfl, rfl, rfl⟩

/-- What hoisting does to endpoints. -/
structure Wires (p q : Program) : Prop where
  grown : p.Grown q
  /-- Resolved endpoints stay as they are. -/
  kept : ∀ id k e, (p.moduleAt id).endpoints.get? k = some e → e.details.isSome →
    (q.moduleAt id).endpoints.get? k = some e
  /-- An endpoint that gets resolved is wired along its path. -/
  wired : ∀ id k e e', (p.moduleAt id).endpoints.get? k = some e → e.details = none →
    (q.moduleAt id).endpoints.get? k = some e' → e'.details.isSome →
    ∃ path, e.path = some path ∧ Wire (Forwarded Copies q) id k path

namespace Wires

variable {p q r : Program}

theorem refl (p : Program) : Wires p p where
  grown := .refl p
  kept _ _ _ he _ := he
  wired _ _ _ _ he hnone he' hsome := by
    cases he.symm.trans he'
    simp [hnone] at hsome

/-- Wires that are there stay. -/
theorem wire (h : Wires p q) {id : ModuleId} {k : EndpointId} {path : List PathSegment}
    (hwire : Wire (Forwarded Copies p) id k path) : Wire (Forwarded Copies q) id k path :=
  hwire.of_kept h.grown h.kept

theorem trans (h : Wires p q) (h' : Wires q r) : Wires p r where
  grown := h.grown.trans h'.grown
  kept id k e he hsome := h'.kept id k e (h.kept id k e he hsome) hsome
  wired id k e e' he hnone he' hsome := by
    obtain ⟨mid, hmid, hgrown⟩ := (h.grown.modules id).endpoints k e he
    cases hdetails : mid.details with
    | none =>
        cases hgrown.untouched hdetails
        exact h'.wired id k e e' hmid hnone he' hsome
    | some d =>
        obtain ⟨path, hpath, hwire⟩ := h.wired id k e mid he hnone hmid (by simp [hdetails])
        exact ⟨path, hpath, h'.wire hwire⟩

/-- Adding an endpoint wires nothing. -/
theorem addEndpoint (p : Program) (id : ModuleId) (e : Endpoint) :
    Wires p (p.modifyModule id (·.addEndpoint e)) where
  grown := .modifyModule p id _ (.addEndpoint _ _)
  kept _ _ _ hx _ := Program.get?_addEndpoint id e hx
  wired _ _ _ _ hx hnone hx' hsome := by
    cases hx'.symm.trans (Program.get?_addEndpoint id e hx)
    simp [hnone] at hsome

end Wires

variable {hoistChild : ModuleId → Edit Unit} {stack : List ModuleId} {id : ModuleId}

/-- Resolving an endpoint and connecting it to the inner one that it copies, at the end of a path or
at the upper end of a wire. -/
theorem Wires.resolveEndpoint {p : Program} {endpoint k : EndpointId} {e x : Endpoint}
    {first second : PathSegment} {deeper : List PathSegment} {node : NodeId} {child : ModuleId}
    {details : EndpointDetails} (he : (p.moduleAt id).endpoints.get? endpoint = some e)
    (hunresolved : e.details = none) (hpath : e.path = some (first :: second :: deeper))
    (hnode : (p.moduleAt id).findNode? first.name = some node)
    (hsingle : ((p.moduleAt id).nodes.get node).arraySize = none)
    (hsource : p.findModule? ((p.moduleAt id).nodes.get node).source = some child)
    (hx : (p.moduleAt child).endpoints.get? k = some x) (hdirection : x.direction = e.direction)
    (hdetails : x.details = some details) (hplain : details.arraySize = none)
    (hrest : deeper = [] ∧ x.name = second.name ∨
      deeper ≠ [] ∧ Wire (Forwarded Copies p) child k (second :: deeper)) :
    Wires p ((p.modifyModule id fun m => { m with
        endpoints :=
          m.endpoints.modify endpoint (resolvedWith details x.annotations) }).modifyModule
      id (·.addConnection (forwarding e.direction e.name node x.name e.span))) := by
  have hlt : id.idx < p.modules.size := Program.lt_size_of_endpoint he
  have hgrown₁ : p.Grown (p.modifyModule id fun m => { m with
      endpoints := m.endpoints.modify endpoint (resolvedWith details x.annotations) }) := by
    refine .modifyModule p id _ (.modifyEndpoint _ _ _ ?_)
    intro y hy
    cases he.symm.trans hy
    exact ⟨rfl, rfl, rfl, rfl, by simp [hunresolved], by simp [hunresolved], by simp [hunresolved],
      .inr rfl, nofun⟩
  generalize hc : forwarding e.direction e.name node x.name e.span = c
  generalize hq : (p.modifyModule id fun m => { m with
    endpoints := m.endpoints.modify endpoint (resolvedWith details x.annotations) }).modifyModule id
      (·.addConnection c) = q
  have hgrown : p.Grown q := by
    rw [← hq]
    exact hgrown₁.trans (.modifyModule _ id _ (.addConnection _ _))
  have hself : q.moduleAt id = { p.moduleAt id with
      endpoints := (p.moduleAt id).endpoints.modify endpoint (resolvedWith details x.annotations)
      connections := (p.moduleAt id).connections.push c } := by
    rw [← hq, Program.moduleAt_modifyModule_self (hgrown₁.size ▸ hlt),
      Program.moduleAt_modifyModule_self hlt]
    rfl
  -- all other endpoints are as they were
  have hother : ∀ j k', ¬ (j = id ∧ k' = endpoint) →
      (q.moduleAt j).endpoints.get? k' = (p.moduleAt j).endpoints.get? k' := by
    intro j k' hne
    by_cases hj : j = id
    · subst hj
      rw [hself, Arena.get?_modify, if_neg fun heq => hne ⟨rfl, heq.symm⟩]
    · rw [← hq, Program.moduleAt_modifyModule_of_ne (Ne.symm hj),
        Program.moduleAt_modifyModule_of_ne (Ne.symm hj)]
  have hown : (q.moduleAt id).endpoints.get? endpoint =
    some (resolvedWith details x.annotations e) := by
    rw [hself]
    exact (Arena.get?_modify_self _ _ _).trans (congrArg _ he)
  have hkept : ∀ j k' y, (p.moduleAt j).endpoints.get? k' = some y → y.details.isSome →
      (q.moduleAt j).endpoints.get? k' = some y := by
    intro j k' y hy hsome
    rw [hother j k' ?_, hy]
    rintro ⟨rfl, rfl⟩
    cases he.symm.trans hy
    simp [hunresolved] at hsome
  -- the new joint, and what hangs on it
  have hjoint : Forwarded Copies q id endpoint first.name child k x.name := by
    refine ⟨node, _, x, e.span, ?_, ?_, ?_, hown, hkept child k x hx (by simp [hdetails]), rfl,
      hdirection, ⟨details, rfl, hdetails, rfl, hplain⟩, ?_⟩
    · rw [Module.findNode?, hgrown.sameShape.nodes]
      exact hnode
    · rw [hgrown.sameShape.nodes]
      exact hsingle
    · rw [hgrown.sameShape.findModule?, hgrown.sameShape.nodes]
      exact hsource
    · rw [hself, Arena.toList_push]
      exact List.mem_append_right _ (List.mem_singleton.mpr hc)
  -- an endpoint that is resolved in between must be the one that was filled in here
  refine ⟨hgrown, hkept, ?_⟩
  intro j k' y y' hy hnone hy' hsome
  by_cases hplace : j = id ∧ k' = endpoint
  · obtain ⟨rfl, rfl⟩ := hplace
    cases he.symm.trans hy
    refine ⟨_, hpath, ?_⟩
    rcases hrest with ⟨rfl, hname⟩ | ⟨hne, hwire⟩
    · exact .last (hname ▸ hjoint)
    · cases deeper with
      | nil => exact absurd rfl hne
      | cons third rest => exact .step hjoint (hwire.of_kept hgrown hkept)
  · rw [hother j k' hplace, hy] at hy'
    cases hy'
    simp [hnone] at hsome

/-- Hoisting one endpoint lays its wire.  If the path goes deeper, the endpoint in between is wired
first, as one of the nested module's own. -/
theorem hoistEndpoint_wires (hchild : HoistsChild hoistChild (id :: stack))
    (hwires : ∀ child p q, (hoistChild child).apply p = (.ok (), q) → Wires p q) {p q : Program}
    {endpoint : EndpointId} {e : Endpoint}
    (he : (p.moduleAt id).endpoints.get? endpoint = some e) (hunresolved : e.details = none)
    (h : (hoistEndpoint hoistChild id endpoint).apply p = (.ok (), q)) : Wires p q := by
  obtain ⟨first, second, deeper, node, child, inner, p₁, p₂, k, details, annotations, hpath, hnode,
    hsingle, hsource, hsteps, hk, hinner, hdetails, rfl, hplain, rfl⟩ :=
    hoistEndpoint_eq_ok (Arena.get_eq_of_get? he) h
  have hlt : child.idx < p.modules.size := Program.lt_size_of_findModule? hsource
  -- up to where the inner endpoint is resolved
  have hwires₂ : Wires p₁ p₂ := by
    rcases hinner with ⟨-, rfl⟩ | ⟨-, hrun⟩
    · exact .refl _
    · exact hwires child p₁ p₂ hrun
  have hwires₁ : Wires p p₁ := by
    rcases hsteps with ⟨-, -, rfl⟩ | ⟨-, fresh, -, -, rfl⟩
    · exact .refl _
    · exact .addEndpoint _ _ _
  have hgrown := hwires₁.grown.trans hwires₂.grown
  have hshape := hgrown.sameShape
  -- the endpoint itself waits
  have hwaits : (p₂.moduleAt id).endpoints.get? endpoint = some e := by
    have he₁ : (p₁.moduleAt id).endpoints.get? endpoint = some e := by
      rcases hsteps with ⟨-, -, rfl⟩ | ⟨-, fresh, -, -, rfl⟩
      · exact he
      · exact Program.get?_addEndpoint child fresh he
    rcases hinner with ⟨-, rfl⟩ | ⟨-, hrun⟩
    · exact he₁
    · rw [(hchild child p₁ p₂ hrun).2.1.waiting id List.mem_cons_self]
      exact he₁
  -- the inner endpoint was found by its name and direction
  have hx := get?_of_details hdetails
  obtain ⟨x₁, hx₁, hmatch, -⟩ := Arena.find?_eq_some_iff.mp hk
  obtain ⟨x, hx', hgrownx⟩ := (hwires₂.grown.modules child).endpoints k x₁ hx₁
  cases hx.symm.trans hx'
  have hname : ((p₂.moduleAt child).endpoints.get k).name = inner := by
    simp only [Bool.and_eq_true, beq_iff_eq] at hmatch
    rw [hgrownx.name, hmatch.1]
  have hdirection : ((p₂.moduleAt child).endpoints.get k).direction = e.direction := by
    simp only [Bool.and_eq_true, beq_iff_eq] at hmatch
    rw [hgrownx.direction, hmatch.2]
  refine (hwires₁.trans hwires₂).trans
    (hname ▸ .resolveEndpoint hwaits hunresolved hpath ?_ ?_ ?_ hx hdirection hdetails hplain ?_)
  · rw [Module.findNode?, hshape.nodes]
    exact hnode
  · rw [hshape.nodes]
    exact hsingle
  · rw [hshape.findModule?, hshape.nodes]
    exact hsource
  · rcases hsteps with ⟨rfl, rfl, rfl⟩ | ⟨hdeeper, fresh, hfresh, rfl, rfl⟩
    · exact .inl ⟨rfl, hname⟩
    · rw [Program.moduleAt_modifyModule_self hlt] at hk
      have hnext : k = (p.moduleAt child).endpoints.next := by
        rw [hfresh] at hk
        exact (Option.some.inj ((findDirected?_addEndpoint_intermediate _ _ _ _).symm.trans
          hk)).symm
      have hget : x₁ = fresh := by
        rw [Program.moduleAt_modifyModule_self hlt, hnext] at hx₁
        exact Option.some.inj (hx₁.symm.trans (Arena.get?_push_next _ _))
      obtain ⟨path, hrest, hwire⟩ := hwires₂.wired child k x₁ _ hx₁ (by rw [hget, hfresh]; rfl) hx
        (by simp [hdetails])
      rw [hget, hfresh] at hrest
      cases hrest
      exact .inr ⟨hdeeper, hwire⟩

theorem hoistEach_wires (hchild : HoistsChild hoistChild (id :: stack))
    (hwires : ∀ child p q, (hoistChild child).apply p = (.ok (), q) → Wires p q) {n : Nat}
    {p q : Program} {changed : Bool}
    (h : (hoistEach hoistChild id n).apply p = (.ok changed, q)) : Wires p q := by
  induction n generalizing p changed with
  | zero =>
      cases h
      exact .refl _
  | succ n ih =>
      simp only [hoistEach, Edit.apply_program_bind] at h
      cases hfind : (p.moduleAt id).endpoints.find? Endpoint.isUnresolved with
      | none =>
          rw [hfind] at h
          cases h
          exact .refl _
      | some endpoint =>
          rw [hfind] at h
          obtain ⟨e, he, hunresolved, -⟩ := Arena.find?_eq_some_iff.mp hfind
          obtain ⟨_, p', hendpoint, h⟩ := Edit.apply_bind_eq_ok.mp h
          obtain ⟨changed', q', hrest, h⟩ := Edit.apply_bind_eq_ok.mp h
          cases h
          have hnone : e.details = none := by simpa [Endpoint.isUnresolved] using hunresolved
          exact (hoistEndpoint_wires hchild hwires he hnone hendpoint).trans (ih hrest)

theorem hoistModule_wires {n : Nat} {p q : Program} {changed : Bool}
    (h : (hoistModule n stack id).apply p = (.ok changed, q)) : Wires p q := by
  induction n generalizing stack id p q changed with
  | zero => cases h
  | succ n ih =>
      simp only [hoistModule] at h
      split at h
      · cases h
      · rw [Edit.apply_program_bind] at h
        refine hoistEach_wires (hoistsChild_hoistModule n (id :: stack)) ?_ h
        intro child r r' hr
        obtain ⟨changed', r'', hrun, hr⟩ := Edit.apply_bind_eq_ok.mp hr
        cases hr
        exact ih hrun

/-- Hoisting a graph wires the endpoints that it resolves. -/
theorem hoistEndpoints_wires {p q : Program} {changed : Bool}
    (h : (hoistEndpoints id).apply p = (.ok changed, q)) : Wires p q := by
  rw [hoistEndpoints, Edit.apply_program_bind] at h
  exact hoistModule_wires h

/-! ## Wires of a run -/

/-- A turn hoists, which wires all that it resolves, and then exposes in a graph that is
resolved. -/
theorem Turn.Runs.wires {t : Turn} {p : Program} (h : t.Runs p)
    (hcheck : checkGraphRecursion p = .ok ()) (hgraph : t.graph ∈ p.graphs) :
    ∃ mid, Wires p mid ∧ Changes p mid ∧ Changes mid t.after ∧ mid.Grown t.after ∧
      (mid.moduleAt t.graph).Resolved ∧
      ∀ id, t.graph ≠ id → t.after.moduleAt id = mid.moduleAt id := by
  obtain ⟨graph, changed, passed, q⟩ := t
  obtain ⟨hoisted, mid, hhoist, h⟩ := Edit.apply_bind_eq_ok.mp h
  obtain ⟨⟨exposed, passed'⟩, q', hexpose, h⟩ := Edit.apply_bind_eq_ok.mp h
  cases h
  have hchanges : Changes p mid := (hoistEndpoints_moves graph p).of_apply hhoist
  have hshape := hchanges.sameShape
  have hexposes := (exposeChildren_exposes hexpose).1
  refine ⟨mid, hoistEndpoints_wires hhoist, hchanges, ?_, hexposes.grown,
    (hoistEndpoints_hoists hhoist).2, hexposes.others⟩
  refine (exposeChildren_moves ?_ ?_).of_apply hexpose
  · rw [hshape.checkGraphRecursion, hcheck]
  · rw [hshape.graphs]
    exact hgraph

/-- Turns are made of changes. -/
theorem Turns.changes {p q : Program} {queue queue' : List ModuleId} {ts : List Turn}
    (h : Turns p queue ts q queue') (hcheck : checkGraphRecursion p = .ok ())
    (hqueue : ∀ id ∈ queue, id ∈ p.graphs) : Changes p q := by
  induction h with
  | nil => exact .refl
  | @cons p q queue queue' t ts hruns hturns ih =>
      have hturn : Changes p t.after :=
        (linkGraph_moves hcheck (hqueue t.graph List.mem_cons_self)).of_apply hruns
      have hshape := hturn.sameShape
      refine hturn.trans (ih ?_ ?_)
      · rw [hshape.checkGraphRecursion, hcheck]
      · exact t.requeue_graphs hshape fun id hid => hqueue id (List.mem_cons_of_mem _ hid)

/-- Every endpoint that a run resolves is wired along its path when one of the turns has hoisted. -/
theorem Turns.wired {p q : Program} {queue queue' : List ModuleId} {ts : List Turn}
    (h : Turns p queue ts q queue') (hcheck : checkGraphRecursion p = .ok ())
    (hqueue : ∀ id ∈ queue, id ∈ p.graphs) {id : ModuleId} {k : EndpointId} {e e' : Endpoint}
    (he : (p.moduleAt id).endpoints.get? k = some e) (hunresolved : e.details = none)
    (he' : (q.moduleAt id).endpoints.get? k = some e') (hresolved : e'.details.isSome) :
    ∃ mid path, Changes p mid ∧ Changes mid q ∧ p.Grown mid ∧ mid.Grown q ∧ e.path = some path ∧
      Wire (Forwarded Copies mid) id k path := by
  induction h with
  | nil =>
      cases he.symm.trans he'
      simp [hunresolved] at hresolved
  | @cons p q queue queue' t ts hruns hturns ih =>
      obtain ⟨mid, hwires, hhoist, hexpose, hgrown, hgraph, hothers⟩ :=
        hruns.wires hcheck (hqueue t.graph List.mem_cons_self)
      have hturn : Changes p t.after := hhoist.trans hexpose
      have hshape := hturn.sameShape
      have hcheck' : checkGraphRecursion t.after = .ok () := by
        rw [hshape.checkGraphRecursion, hcheck]
      have hqueue' : ∀ id ∈ t.requeue queue, id ∈ t.after.graphs :=
        t.requeue_graphs hshape fun id hid => hqueue id (List.mem_cons_of_mem _ hid)
      obtain ⟨x, hx, hgrownx⟩ := (hwires.grown.modules id).endpoints k e he
      cases hdetails : x.details with
      | some d =>
          -- the hoisting of this turn resolved it
          obtain ⟨path, hpath, hwire⟩ :=
            hwires.wired id k e x he hunresolved hx (by simp [hdetails])
          exact ⟨mid, path, hhoist, hexpose.trans (hturns.changes hcheck' hqueue'), hwires.grown,
            hgrown.trans hturns.grown, hpath, hwire⟩
      | none =>
          -- it is still unresolved, so it is none of the graph's, and exposing leaves it alone
          cases hgrownx.untouched hdetails
          have hne : t.graph ≠ id := by
            rintro rfl
            simpa [hunresolved] using hgraph k e hx
          rw [← hothers id hne] at hx
          obtain ⟨mid', path, hbefore, hafter, hgrown₁, hgrown₂, hpath, hwire⟩ :=
            ih hcheck' hqueue' hx he'
          exact ⟨mid', path, hturn.trans hbefore, hafter,
            (hwires.grown.trans hgrown).trans hgrown₁, hgrown₂, hpath, hwire⟩

/-! ## Details that stay shared -/

/-- Two endpoints share details: what they have beyond them are types that were added later, and
only to events. -/
def Shares (d : EndpointDetails) (own x : Endpoint) : Prop :=
  d.arraySize = none ∧ own.annotations = x.annotations ∧
    ∃ more more', own.details = some { d with types := d.types ++ more } ∧
      x.details = some { d with types := d.types ++ more' } ∧
      (d.kind ≠ .event → more = [] ∧ more' = [])

/-- Copies go on to share what they had first. -/
theorem Copies.grown {own own' x x' : Endpoint} (h : Copies own x) (hown : own.Grown own')
    (hx : x.Grown x') : ∃ d, own.details = some d ∧ x.details = some d ∧ Shares d own' x' := by
  obtain ⟨d, hd, hd', hannotations, hplain⟩ := h
  obtain ⟨more, hmore⟩ := hown.details d hd
  obtain ⟨more', hmore'⟩ := hx.details d hd'
  refine ⟨d, hd, hd', hplain, ?_, more, more', hmore, hmore', fun hkind => ?_⟩
  · rw [hown.annotations (by simp [hd]), hx.annotations (by simp [hd']), hannotations]
  · -- an endpoint that is no event keeps its types, so there is nothing beyond them
    have hnil : ∀ l, some { d with types := d.types ++ l } = some d → l = [] := by
      intro l hl
      have htypes : d.types ++ l = d.types := congrArg EndpointDetails.types (Option.some.inj hl)
      simpa using htypes
    exact ⟨hnil more (hmore.symm.trans (hown.steady d hd hkind)),
      hnil more' (hmore'.symm.trans (hx.steady d hd' hkind))⟩

/-- Marks that are taken off do not matter. -/
theorem Copies.unmark {p q : Program} (hgrown : p.Grown q) (places : List EndpointPlace)
    {id child : ModuleId} {k k' : EndpointId} {own x : Endpoint}
    (hown : (p.moduleAt id).endpoints.get? k = some own)
    (hx : (p.moduleAt child).endpoints.get? k' = some x) (h : Copies own x) :
    ∃ own' x', ((unmark places q).moduleAt id).endpoints.get? k = some own' ∧
      ((unmark places q).moduleAt child).endpoints.get? k' = some x' ∧
      (∃ d, own.details = some d ∧ x.details = some d ∧ Shares d own' x') ∧ own'.name = own.name ∧
      own'.direction = own.direction ∧ x'.name = x.name ∧ x'.direction = x.direction := by
  obtain ⟨own', hown', hownGrown⟩ := (hgrown.modules id).endpoints k own hown
  obtain ⟨x', hx', hxGrown⟩ := (hgrown.modules child).endpoints k' x hx
  have hshared := h.grown hownGrown hxGrown
  refine ⟨{ own' with exposed := own'.exposed && !places.contains (id, k) },
    { x' with exposed := x'.exposed && !places.contains (child, k') }, ?_, ?_, hshared, ?_⟩
  · rw [get?_endpoints_unmark, hown']
    rfl
  · rw [get?_endpoints_unmark, hx']
    rfl
  · exact ⟨hownGrown.name, hownGrown.direction, hxGrown.name, hxGrown.direction⟩

/-! ## Connections that are accepted -/

/-- With distinct names an endpoint is found by its own. -/
theorem Module.NamesDistinct.findEndpoint? {m : Module} (h : m.NamesDistinct) {k : EndpointId}
    {e : Endpoint} (he : m.endpoints.get? k = some e) : m.findEndpoint? e.name = some k := by
  refine Arena.find?_eq_some_iff.mpr ⟨e, he, beq_self_eq_true _, ?_⟩
  intro j x hj hx hname
  have heq : j = k := Arena.handle_eq_of_nodup h hx he (eq_of_beq hname)
  exact absurd (heq ▸ hj) (Nat.lt_irrefl _)

/-- The end of a connection at an endpoint of the module itself. -/
theorem resolveEnd_own {p : Program} {id : ModuleId} {k : EndpointId} {own : Endpoint}
    {d : EndpointDetails} (side : Side) (span : Span) (hnames : (p.moduleAt id).NamesDistinct)
    (hown : (p.moduleAt id).endpoints.get? k = some own) (hd : own.details = some d)
    (hplain : d.arraySize = none) (hside : own.direction = usableDirection side false) :
    resolveEnd p id { endpoint := own.name } side span = .ok (⟨id, k, none, 1, 1⟩, d) := by
  have hfind := Module.NamesDistinct.findEndpoint? hnames hown
  simp [resolveEnd, endOwner, bind, Except.bind, pure, Except.pure, hfind,
    Arena.get_eq_of_get? hown, hside, hd, selection, EndpointDetails.arrayLength, hplain]

/-- The end of a connection at an endpoint of a node that is no array. -/
theorem resolveEnd_node {p : Program} {id child : ModuleId} {node : NodeId} {n : Node}
    {k : EndpointId} {x : Endpoint} {d : EndpointDetails} (side : Side) (span : Span)
    (hnode : (p.moduleAt id).nodes.get? node = some n) (hsingle : n.arraySize = none)
    (hsource : p.findModule? n.source = some child) (hnames : (p.moduleAt child).NamesDistinct)
    (hx : (p.moduleAt child).endpoints.get? k = some x) (hd : x.details = some d)
    (hplain : d.arraySize = none) (hside : x.direction = usableDirection side true) :
    resolveEnd p id { node := some node, endpoint := x.name } side span =
      .ok (⟨child, k, some node, 1, 1⟩, d) := by
  have hfind := Module.NamesDistinct.findEndpoint? hnames hx
  simp [resolveEnd, endOwner, bind, Except.bind, pure, Except.pure, hnode, hsource, hfind,
    Arena.get_eq_of_get? hx, hside, hd, selection, EndpointDetails.arrayLength, Node.arrayLength,
    hplain, hsingle]

/-- Endpoints that share listed details fit each other. -/
theorem mismatch?_of_shared {p : Program} {sourceDesc destDesc : String} {source dest : ResolvedEnd}
    {d : EndpointDetails} {more more' : List Ty} (hlisted : d.Listed) (hfan : source.fan = 1)
    (hevent : d.kind ≠ .event → more = [] ∧ more' = []) :
    mismatch? p sourceDesc destDesc source dest { d with types := d.types ++ more }
      { d with types := d.types ++ more' } = none := by
  obtain ⟨kind, types, size⟩ := d
  obtain ⟨hne, hsingle⟩ := hlisted
  cases types with
  | nil => exact absurd rfl hne
  | cons t rest =>
      by_cases hkind : kind = .event
      · -- the first type is common to both
        simp [mismatch?, hkind, hfan, eventTypesFit, Ty.canSilentlyCast_self]
      · obtain ⟨rfl, rfl⟩ := hevent hkind
        have hrest : rest = [] := by simpa using hsingle hkind
        subst hrest
        simp [mismatch?, hkind, EndpointDetails.singleType?, framesFit, Ty.sameFrame]

/-- What a forwarding connection resolves to. -/
def joined (direction : Direction) (id : ModuleId) (k : EndpointId) (node : NodeId)
    (child : ModuleId) (k' : EndpointId) : ResolvedConnection :=
  match direction with
  | .input => ⟨⟨id, k, none, 1, 1⟩, ⟨child, k', some node, 1, 1⟩⟩
  | .output => ⟨⟨child, k', some node, 1, 1⟩, ⟨id, k, none, 1, 1⟩⟩

theorem resolveConnection_forwarding {p : Program} {id child : ModuleId} {node : NodeId} {n : Node}
    {k k' : EndpointId} {own x : Endpoint} {d : EndpointDetails} (span : Span)
    (hnames : ∀ id, (p.moduleAt id).NamesDistinct)
    (hnode : (p.moduleAt id).nodes.get? node = some n) (hsingle : n.arraySize = none)
    (hsource : p.findModule? n.source = some child)
    (hown : (p.moduleAt id).endpoints.get? k = some own)
    (hx : (p.moduleAt child).endpoints.get? k' = some x) (hdirection : x.direction = own.direction)
    (hlisted : d.Listed) (hshares : Shares d own x) :
    resolveConnection p id (forwarding own.direction own.name node x.name span) =
      .ok (joined own.direction id k node child k') := by
  obtain ⟨hplain, -, more, more', hd, hd', hevent⟩ := hshares
  cases hcase : own.direction with
  | input =>
      have hsourceEnd := resolveEnd_own .source span (hnames id) hown hd hplain hcase
      have hdestEnd := resolveEnd_node .destination span hnode hsingle hsource (hnames child) hx hd'
        hplain (hdirection.trans hcase)
      simp only [resolveConnection, forwarding, hsourceEnd, hdestEnd, bind, Except.bind]
      rw [mismatch?_of_shared hlisted rfl hevent]
      rfl
  | output =>
      have hsourceEnd := resolveEnd_node .source span hnode hsingle hsource (hnames child) hx hd'
        hplain (hdirection.trans hcase)
      have hdestEnd := resolveEnd_own .destination span (hnames id) hown hd hplain hcase
      simp only [resolveConnection, forwarding, hsourceEnd, hdestEnd, bind, Except.bind]
      rw [mismatch?_of_shared hlisted rfl fun hkind => (hevent hkind).symm]
      rfl

/-! ## The wires that linking lays -/

/-- A connection forwards one endpoint to another and resolves to the two. -/
def Accepted (p : Program) : Joint :=
  fun id k nodeName child k' inner => ∃ node own x span,
    (p.moduleAt id).findNode? nodeName = some node ∧
    p.findModule? ((p.moduleAt id).nodes.get node).source = some child ∧
    (p.moduleAt id).endpoints.get? k = some own ∧
    (p.moduleAt child).endpoints.get? k' = some x ∧
    x.name = inner ∧ x.direction = own.direction ∧
    forwarding own.direction own.name node inner span ∈ (p.moduleAt id).connections.toList ∧
    resolveConnection p id (forwarding own.direction own.name node inner span) =
      .ok (joined own.direction id k node child k')

theorem Forwarded.accepted {p : Program} (hnames : ∀ id, (p.moduleAt id).NamesDistinct)
    {id child : ModuleId} {k k' : EndpointId} {nodeName inner : String}
    (h : Forwarded (fun own x => ∃ d, d.Listed ∧ Shares d own x) p id k nodeName child k' inner) :
    Accepted p id k nodeName child k' inner := by
  obtain ⟨node, own, x, span, hnode, hsingle, hsource, hown, hx, rfl, hdirection,
    ⟨d, hlisted, hshares⟩, hmem⟩ := h
  obtain ⟨n, hn, -⟩ := Arena.find?_eq_some_iff.mp hnode
  have hresolved : resolveConnection p id (forwarding own.direction own.name node x.name span) =
      .ok (joined own.direction id k node child k') := by
    rw [Arena.get_eq_of_get? hn] at hsingle hsource
    exact resolveConnection_forwarding span hnames hn hsingle hsource hown hx hdirection hlisted
      hshares
  exact ⟨node, own, x, span, hnode, hsource, hown, hx, rfl, hdirection, hmem, hresolved⟩

/-- Linking lays the wires that the paths ask for.  In a program with distinct endpoint names and
types listed as their kinds list them, every endpoint of a graph that is declared by a path is
joined along that path, node by node, down to the endpoint that the path ends with; all endpoints on
the way have its direction, and every connection resolves to the two endpoints that it joins. -/
theorem linkEndpoints_wires {p p' : Program} (h : linkEndpoints.apply p = (.ok (), p'))
    (hnames : ∀ id, (p.moduleAt id).NamesDistinct) (hlisted : AllDetails EndpointDetails.Listed p)
    {graph : ModuleId} (hgraph : graph ∈ p.graphs) {k : EndpointId} {e : Endpoint}
    {path : List PathSegment} (he : (p.moduleAt graph).endpoints.get? k = some e)
    (hunresolved : e.details = none) (hpath : e.path = some path) :
    Wire (Accepted p') graph k path := by
  have hnames' : ∀ id, (p'.moduleAt id).NamesDistinct :=
    Changes.namesDistinct ((linkEndpoints_moves p).of_apply h) hnames
  obtain ⟨hcheck, ts, q, hturns, -, rfl⟩ := linkEndpoints_eq_ok_iff.mp h
  obtain ⟨e', he', -⟩ := (hturns.grown.modules graph).endpoints k e he
  have hresolved : e'.details.isSome := by
    rcases hturns.turn_of_mem hgraph with ⟨t, ht, rfl⟩ | hnil
    · exact hturns.resolved_of_turn ht k e' he'
    · cases hnil
  obtain ⟨mid, path', hbefore, -, -, hgrown, hpath', hwire⟩ :=
    hturns.wired hcheck (fun _ hid => hid) he hunresolved he' hresolved
  cases hpath.symm.trans hpath'
  have hlisted' := Changes.listed hbefore hlisted
  refine hwire.mono fun id k₁ nodeName child k₂ inner hjoint => Forwarded.accepted hnames' ?_
  refine Forwarded.of_sameShape (hgrown.sameShape.trans (sameShape_unmark _ q)) ?_ ?_ hjoint
  · intro id
    rw [connections_unmark]
    exact (hgrown.modules id).connections.subset
  · intro id k₁ own child k₂ x hown hx hcopies
    obtain ⟨own', x', hown', hx', ⟨d, hd, -, hshares⟩, hrest⟩ :=
      hcopies.unmark hgrown (ts.flatMap (·.passed)) hown hx
    exact ⟨own', x', hown', hx', ⟨d, hlisted' id k₁ own d hown hd, hshares⟩, hrest⟩

theorem linkEndpoints_wires_nested : Wire (Accepted (linkEndpoints.apply nested).2) ⟨0⟩ ⟨0⟩
    [⟨"m", none⟩, ⟨"c", none⟩, ⟨"x", none⟩] := by
  have hnames : ∀ id, (nested.moduleAt id).NamesDistinct :=
    Program.forall_moduleAt List.nodup_nil (by decide)
  have hlisted : AllDetails EndpointDetails.Listed nested := .of_modules (by decide)
  exact linkEndpoints_wires (Prod.ext linkEndpoints_nested_ok rfl) hnames hlisted (by decide) rfl
    rfl rfl

end Link

end SignalGraph

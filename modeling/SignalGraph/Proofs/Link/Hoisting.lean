import SignalGraph.Proofs.Link.Growth
import SignalGraph.Proofs.Program.Edit

/-!
# SignalGraph.Proofs.Link.Hoisting

What hoisting does to a program when it succeeds.

* `hoistEndpoint_eq_ok` takes one hoisted endpoint apart into its steps;
* `Hoists` lists what a successful hoisting leaves behind: the program has grown, modules that
  wait on the stack are untouched, modules without unresolved endpoints still have none, new
  endpoints are not marked for exposure, and every new connection leads to a resolved endpoint;
* `hoistEndpoint_hoists`, `hoistEach_hoists` and `hoistModule_hoists` show it layer by layer.
-/

namespace SignalGraph.Link

/-! ## Fresh names -/

/-- The names that are tried for a fresh endpoint. -/
def candidates (base : String) (n : Nat) : List String :=
  base :: (List.range n).map fun i => base ++ "_" ++ toString (i + 2)

theorem uniqueEndpointName_eq (m : Module) (base : String) :
    uniqueEndpointName m base =
      ((candidates base m.endpoints.size).find? fun name => (m.findEndpoint? name).isNone).getD
        base := rfl

theorem nodup_candidates (base : String) (n : Nat) : (candidates base n).Nodup := by
  refine List.nodup_cons.mpr ⟨?_, List.nodup_range.map ?_⟩
  · intro hmem
    obtain ⟨i, -, heq⟩ := List.mem_map.mp hmem
    have hlen := congrArg String.length heq
    have hdash : "_".length = 1 := rfl
    simp only [String.length_append] at hlen
    omega
  · intro i j heq
    have hrepr : toString (i + 2) = toString (j + 2) := (String.append_right_inj _).mp heq
    have hnumber := Arena.eq_of_toString_eq hrepr
    omega

/-- No endpoint has the fresh name: there is one candidate more than there are endpoints. -/
theorem findEndpoint?_uniqueEndpointName (m : Module) (base : String) :
    m.findEndpoint? (uniqueEndpointName m base) = none := by
  have hlength : m.endpoints.size < (candidates base m.endpoints.size).length := by
    simp [candidates]
  obtain ⟨name, hfind⟩ := Arena.exists_free_name Endpoint.name
    (nodup_candidates base m.endpoints.size) hlength
  have hname : uniqueEndpointName m base = name := by
    rw [uniqueEndpointName_eq]
    exact congrArg (·.getD base) hfind
  rw [hname]
  have hfree := List.find?_some hfind
  simpa [Module.findEndpoint?] using hfree

/-- The fresh name is at least as long as the one it was made from. -/
theorem length_le_uniqueEndpointName (m : Module) (base : String) :
    base.length ≤ (uniqueEndpointName m base).length := by
  rw [uniqueEndpointName_eq]
  cases hfind : (candidates base m.endpoints.size).find?
      fun name => (m.findEndpoint? name).isNone with
  | none => exact Nat.le_refl _
  | some name =>
      rcases List.mem_cons.mp (List.mem_of_find?_eq_some hfind) with rfl | hmem
      · exact Nat.le_refl _
      · obtain ⟨i, -, rfl⟩ := List.mem_map.mp hmem
        simp only [Option.getD_some, String.length_append]
        omega

/-! ## The steps of hoisting one endpoint -/

/-- The endpoint that stands for the rest of a path in a nested graph. -/
def intermediate (m : Module) (e : Endpoint) (fullPath rest : List PathSegment) : Endpoint where
  name := uniqueEndpointName m ("expose_" ++ "_".intercalate (fullPath.map (·.name)))
  direction := e.direction
  path := some rest
  span := e.span

/-- An endpoint with the details of the one that it stands for. -/
def resolvedWith (details : EndpointDetails) (annotations : Annotations) (e : Endpoint) :
    Endpoint :=
  { e with details := some details, annotations, path := none }

theorem addIntermediate_eq_ok {child : ModuleId} {nodeName name : String} {e : Endpoint}
    {fullPath rest : List PathSegment} {p q : Program}
    (h : (addIntermediate child nodeName e fullPath rest).apply p = (.ok name, q)) :
    (p.moduleAt child).isGraph ∧ name = (intermediate (p.moduleAt child) e fullPath rest).name ∧
      q = p.modifyModule child
        (·.addEndpoint (intermediate (p.moduleAt child) e fullPath rest)) := by
  simp only [addIntermediate, Edit.apply_program_bind] at h
  split at h
  · next hgraph =>
    cases h
    exact ⟨hgraph, rfl, rfl⟩
  · cases h

theorem pathStart_eq_ok {m : Module} {e : Endpoint} {first : PathSegment} {node : NodeId}
    {child : ModuleId} {p q : Program}
    (h : (pathStart m e first).apply p = (.ok (node, child), q)) :
      m.findNode? first.name = some node ∧ (m.nodes.get node).arraySize = none ∧
      p.findModule? (m.nodes.get node).source = some child ∧ q = p := by
  simp only [pathStart, Edit.apply_bind_eq_ok, Edit.apply_require_eq_ok] at h
  obtain ⟨node', _, ⟨hnode, rfl⟩, h⟩ := h
  split at h
  · cases h
  · next hsingle =>
    simp only [Edit.apply_program_bind, Edit.apply_bind_eq_ok, Edit.apply_require_eq_ok] at h
    obtain ⟨child', _, ⟨hchild, rfl⟩, h⟩ := h
    cases h
    exact ⟨hnode, by simpa using hsingle, hchild, rfl⟩

theorem innerEndpoint_eq_ok {hoistChild : ModuleId → Edit Unit} {child : ModuleId} {name : String}
    {e : Endpoint} {details : EndpointDetails} {annotations : Annotations} {p q : Program}
    (h : (innerEndpoint hoistChild child name e).apply p = (.ok (details, annotations), q)) :
    ∃ k, (p.moduleAt child).findDirected? e.direction name = some k ∧
      (((p.moduleAt child).endpoints.get k).details.isSome ∧ q = p ∨
        ((p.moduleAt child).endpoints.get k).details = none ∧
          (hoistChild child).apply p = (.ok (), q)) ∧
      ((q.moduleAt child).endpoints.get k).details = some details ∧
      ((q.moduleAt child).endpoints.get k).annotations = annotations ∧
      details.arraySize = none := by
  simp only [innerEndpoint, Edit.apply_program_bind, Edit.apply_bind_eq_ok,
    Edit.apply_require_eq_ok] at h
  obtain ⟨k, _, ⟨hk, rfl⟩, h⟩ := h
  refine ⟨k, hk, ?_⟩
  -- what is left once the nested module is hoisted
  have hrest : ∀ r : Program, (do
      let inner := ((← Edit.program).moduleAt child).endpoints.get k
      let details ← Edit.require ((Fault.unresolvedEndpoint name).diagnose e.span) inner.details
      if details.arraySize.isSome then
        throw ((Fault.notYetImplemented "hoisting endpoint arrays").diagnose e.span)
      return (details, inner.annotations) : Edit (EndpointDetails × Annotations)).apply r =
        (.ok (details, annotations), q) →
      q = r ∧ ((r.moduleAt child).endpoints.get k).details = some details ∧
        ((r.moduleAt child).endpoints.get k).annotations = annotations ∧
        details.arraySize = none := by
    intro r hr
    simp only [Edit.apply_program_bind, Edit.apply_bind_eq_ok, Edit.apply_require_eq_ok] at hr
    obtain ⟨d, _, ⟨hd, rfl⟩, hr⟩ := hr
    split at hr
    · cases hr
    · next hsingle =>
      cases hr
      exact ⟨rfl, hd, rfl, by simpa using hsingle⟩
  split at h
  · next hunresolved =>
    obtain ⟨_, r, hchild, h⟩ := Edit.apply_bind_eq_ok.mp h
    obtain ⟨rfl, hd⟩ := hrest r h
    exact ⟨.inr ⟨by simpa [Endpoint.isUnresolved] using hunresolved, hchild⟩, hd⟩
  · next hresolved =>
    obtain ⟨rfl, hd⟩ := hrest _ h
    exact ⟨.inl ⟨by simp [hd.1], rfl⟩, hd⟩

/-- What a successful hoisting of one endpoint did: it went to the node at the start of the path,
added an endpoint there if the path goes deeper, had the inner endpoint resolved if it was not,
and took over its details. -/
theorem hoistEndpoint_eq_ok {hoistChild : ModuleId → Edit Unit} {id : ModuleId}
    {endpoint : EndpointId} {e : Endpoint} {p q : Program}
    (he : (p.moduleAt id).endpoints.get endpoint = e)
    (h : (hoistEndpoint hoistChild id endpoint).apply p = (.ok (), q)) :
    ∃ first second deeper node child inner p₁ p₂ k details annotations,
      e.path = some (first :: second :: deeper) ∧
      (p.moduleAt id).findNode? first.name = some node ∧
      ((p.moduleAt id).nodes.get node).arraySize = none ∧
      p.findModule? ((p.moduleAt id).nodes.get node).source = some child ∧
      (deeper = [] ∧ inner = second.name ∧ p₁ = p ∨
        deeper ≠ [] ∧ ∃ fresh, fresh = intermediate (p.moduleAt child) e (first :: second :: deeper)
            (second :: deeper) ∧
          inner = fresh.name ∧ p₁ = p.modifyModule child (·.addEndpoint fresh)) ∧
      (p₁.moduleAt child).findDirected? e.direction inner = some k ∧
      (((p₁.moduleAt child).endpoints.get k).details.isSome ∧ p₂ = p₁ ∨
        ((p₁.moduleAt child).endpoints.get k).details = none ∧
          (hoistChild child).apply p₁ = (.ok (), p₂)) ∧
      ((p₂.moduleAt child).endpoints.get k).details = some details ∧
      ((p₂.moduleAt child).endpoints.get k).annotations = annotations ∧
      details.arraySize = none ∧
      q = (p₂.modifyModule id fun m => { m with
          endpoints :=
            m.endpoints.modify endpoint (resolvedWith details annotations) }).modifyModule
        id (·.addConnection (forwarding e.direction e.name node inner e.span)) := by
  subst he
  rw [hoistEndpoint, Edit.apply_program_bind] at h
  dsimp only at h
  split at h
  · cases h
  · cases h
  · next first second deeper hpath =>
    split at h
    · cases h
    · obtain ⟨⟨node, child⟩, p', hstart, h⟩ := Edit.apply_bind_eq_ok.mp h
      obtain ⟨hnode, hsingle, hchild, rfl⟩ := pathStart_eq_ok hstart
      have hpath' : ((p'.moduleAt id).endpoints.get endpoint).path =
          some (first :: second :: deeper) := by
        cases hp : ((p'.moduleAt id).endpoints.get endpoint).path with
        | none => simp [hp] at hpath
        | some path => simpa [hp] using hpath
      -- two cases: the path ends at the node, or an endpoint in between carries on its rest
      refine ⟨first, second, deeper, node, child, ?_⟩
      split at h
      · next hempty =>
        obtain ⟨inner, p₁, hinner, h⟩ := Edit.apply_bind_eq_ok.mp h
        cases hinner
        obtain ⟨⟨details, annotations⟩, p₂, hinner, h⟩ := Edit.apply_bind_eq_ok.mp h
        obtain ⟨k, hk, hhoist, hdetails, hannotations, hplain⟩ := innerEndpoint_eq_ok hinner
        cases h
        exact ⟨second.name, p', p₂, k, details, annotations, hpath', hnode, hsingle, hchild,
          .inl ⟨List.isEmpty_iff.mp hempty, rfl, rfl⟩, hk, hhoist, hdetails, hannotations, hplain,
          rfl⟩
      · next hdeeper =>
        obtain ⟨inner, p₁, hinner, h⟩ := Edit.apply_bind_eq_ok.mp h
        obtain ⟨-, hname, hp₁⟩ := addIntermediate_eq_ok hinner
        obtain ⟨⟨details, annotations⟩, p₂, hinner, h⟩ := Edit.apply_bind_eq_ok.mp h
        obtain ⟨k, hk, hhoist, hdetails, hannotations, hplain⟩ := innerEndpoint_eq_ok hinner
        cases h
        exact ⟨inner, p₁, p₂, k, details, annotations, hpath', hnode, hsingle, hchild,
          .inr ⟨fun hnil => hdeeper (List.isEmpty_iff.mpr hnil), _, rfl, hname, hp₁⟩, hk, hhoist,
          hdetails, hannotations, hplain, rfl⟩

/-! ## What hoisting leaves behind -/

/-- Where a connection that hoisting made in a module comes from: it joins an endpoint `own` of the
module and an endpoint `inner` of a node, which is resolved.  The two names differ, unless `inner`
is itself new or `own` was declared as the path `node.inner`. -/
def Forwards (p q : Program) (id : ModuleId) (c : Connection) : Prop :=
  ∃ direction own node inner span child k d,
    c = forwarding direction own node inner span ∧
    p.findModule? ((p.moduleAt id).nodes.get node).source = some child ∧
    (q.moduleAt child).findDirected? direction inner = some k ∧
    ((q.moduleAt child).endpoints.get k).details = some d ∧
    (own ≠ inner ∨ (p.moduleAt child).endpoints.get? k = none ∨
      ∃ h e first second, (p.moduleAt id).endpoints.get? h = some e ∧ e.details = none ∧
        e.name = own ∧ e.path = some [first, second] ∧ second.name = inner)

namespace Forwards

variable {p q r : Program} {id : ModuleId} {c : Connection}

/-- Later growth keeps the connection explained. -/
theorem grown (h : Forwards p q id c) (hgrown : q.Grown r) : Forwards p r id c := by
  obtain ⟨direction, own, node, inner, span, child, k, d, hc, hchild, hk, hd, hown⟩ := h
  obtain ⟨e, he, -⟩ := Arena.find?_eq_some_iff.mp hk
  rw [Arena.get_eq_of_get? he] at hd
  obtain ⟨e', he', hgrown'⟩ := (hgrown.modules child).endpoints k e he
  obtain ⟨more, hmore⟩ := hgrown'.details d hd
  exact ⟨direction, own, node, inner, span, child, k, _, hc, hchild,
    (hgrown.modules child).findDirected? hk, by rw [Arena.get_eq_of_get? he']; exact hmore, hown⟩

/-- Earlier growth keeps it explained too, as long as endpoints that were new and unresolved have
other names than what their paths lead to. -/
theorem of_grown (h : Forwards q r id c) (hgrown : p.Grown q)
    (hnew : ∀ k e first second, (p.moduleAt id).endpoints.get? k = none →
      (q.moduleAt id).endpoints.get? k = some e → e.details = none →
      e.path = some [first, second] → e.name ≠ second.name) : Forwards p r id c := by
  obtain ⟨direction, own, node, inner, span, child, k, d, hc, hchild, hk, hd, hown⟩ := h
  rw [hgrown.sameShape.findModule?, hgrown.sameShape.nodes id] at hchild
  refine ⟨direction, own, node, inner, span, child, k, d, hc, hchild, hk, hd, ?_⟩
  rcases hown with hne | hnone | ⟨j, e, first, second, he, hnone, rfl, hpath, rfl⟩
  · exact .inl hne
  · refine .inr (.inl ?_)
    cases hold : (p.moduleAt child).endpoints.get? k with
    | none => rfl
    | some e =>
        obtain ⟨e', he', -⟩ := (hgrown.modules child).endpoints k e hold
        cases hnone.symm.trans he'
  · cases hold : (p.moduleAt id).endpoints.get? j with
    | none => exact .inl (hnew j e first second hold he hnone hpath)
    | some e' =>
        obtain ⟨e'', he'', hgrown'⟩ := (hgrown.modules id).endpoints j e' hold
        cases he.symm.trans he''
        cases hgrown'.untouched hnone
        exact .inr (.inr ⟨j, e, first, second, hold, hnone, rfl, hpath, rfl⟩)

end Forwards

/-- What a successful hoisting leaves behind, while the modules of the stack wait for it. -/
structure Hoists (stack : List ModuleId) (p q : Program) : Prop where
  grown : p.Grown q
  /-- The modules that wait are untouched. -/
  waiting : ∀ id ∈ stack, q.moduleAt id = p.moduleAt id
  resolved : ∀ id, (p.moduleAt id).Resolved → (q.moduleAt id).Resolved
  /-- New endpoints are resolved and not marked for exposure. -/
  fresh : ∀ id k e, (p.moduleAt id).endpoints.get? k = none →
    (q.moduleAt id).endpoints.get? k = some e → e.details.isSome ∧ e.exposed = false
  connections : ∀ id, ∀ c ∈ (q.moduleAt id).connections.toList,
    c ∈ (p.moduleAt id).connections.toList ∨ Forwards p q id c

namespace Hoists

variable {stack : List ModuleId} {p q r : Program}

theorem refl (stack : List ModuleId) (p : Program) : Hoists stack p p where
  grown := .refl p
  waiting _ _ := rfl
  resolved _ h := h
  fresh _ _ _ hnone hsome := by cases hnone.symm.trans hsome
  connections _ _ hc := .inl hc

theorem trans (h : Hoists stack p q) (h' : Hoists stack q r) : Hoists stack p r where
  grown := h.grown.trans h'.grown
  waiting id hid := (h'.waiting id hid).trans (h.waiting id hid)
  resolved id hid := h'.resolved id (h.resolved id hid)
  fresh id k e hnone hsome := by
    cases hmid : (q.moduleAt id).endpoints.get? k with
    | none => exact h'.fresh id k e hmid hsome
    | some e' =>
        obtain ⟨hd, hx⟩ := h.fresh id k e' hnone hmid
        obtain ⟨e'', he'', hd'', hgrown⟩ := h'.grown.resolved hmid hd
        cases hsome.symm.trans he''
        exact ⟨hd'', hgrown.exposed.trans hx⟩
  connections id c hc := by
    rcases h'.connections id c hc with hc | hc
    · exact (h.connections id c hc).imp_right fun hf => hf.grown h'.grown
    · refine .inr (hc.of_grown h.grown ?_)
      intro k e first second hnone hsome hunresolved
      obtain ⟨hd, -⟩ := h.fresh id k e hnone hsome
      simp [hunresolved] at hd

end Hoists

/-! ## Endpoints in between -/

/-- The endpoint in between is found by its name, since the name is fresh. -/
theorem findDirected?_addEndpoint_intermediate (m : Module) (e : Endpoint)
    (fullPath rest : List PathSegment) :
    (m.addEndpoint (intermediate m e fullPath rest)).findDirected? e.direction
      (intermediate m e fullPath rest).name = some m.endpoints.next := by
  refine Arena.find?_eq_some_iff.mpr ⟨_, Arena.get?_push_next _ _, by simp [intermediate], ?_⟩
  intro k x hk hx hmatch
  have hold : m.endpoints.get? k = some x :=
    (Arena.get?_push_of_lt _ _ k hk).symm.trans hx
  have hfresh := findEndpoint?_uniqueEndpointName m
    ("expose_" ++ "_".intercalate (fullPath.map (·.name)))
  rw [Module.findEndpoint?, Arena.find?_eq_none_iff] at hfresh
  simp only [Bool.and_eq_true] at hmatch
  exact hfresh k x hold hmatch.1

/-- The endpoint in between is not called like what it stands for: its name holds the whole
path. -/
theorem name_intermediate_ne (m : Module) (e : Endpoint) (first second third : PathSegment) :
    (intermediate m e [first, second, third] [second, third]).name ≠ third.name := by
  intro heq
  have hlen := length_le_uniqueEndpointName m
    ("expose_" ++ "_".intercalate ([first, second, third].map (·.name)))
  rw [show uniqueEndpointName m ("expose_" ++ "_".intercalate ([first, second, third].map (·.name)))
    = third.name from heq] at hlen
  simp only [List.map_cons, List.map_nil, String.intercalate_cons_cons,
    String.intercalate_singleton, String.length_append] at hlen
  have hprefix : "expose_".length = 7 := rfl
  omega

/-- Hoisting through an endpoint in between, seen from before that endpoint was added. -/
theorem Hoists.of_intermediate {stack : List ModuleId} {p q : Program} {child : ModuleId}
    {e : Endpoint} {first second : PathSegment} {deeper : List PathSegment}
    (hlt : child.idx < p.modules.size)
    (h : Hoists stack (p.modifyModule child (·.addEndpoint (intermediate (p.moduleAt child) e
      (first :: second :: deeper) (second :: deeper)))) q)
    (hstack : child ∉ stack) (hresolved : (q.moduleAt child).Resolved) : Hoists stack p q := by
  generalize hfresh : intermediate (p.moduleAt child) e (first :: second :: deeper)
    (second :: deeper) = fresh at h
  have hself : (p.modifyModule child (·.addEndpoint fresh)).moduleAt child =
      (p.moduleAt child).addEndpoint fresh := Program.moduleAt_modifyModule_self hlt _
  have hother : ∀ id, child ≠ id →
      (p.modifyModule child (·.addEndpoint fresh)).moduleAt id = p.moduleAt id :=
    fun id hid => Program.moduleAt_modifyModule_of_ne hid _
  have hgrown : p.Grown (p.modifyModule child (·.addEndpoint fresh)) :=
    .modifyModule p child _ (.addEndpoint _ _)
  -- the only endpoint that is new before hoisting starts is the one in between
  have hnew : ∀ id k x, (p.moduleAt id).endpoints.get? k = none →
      ((p.modifyModule child (·.addEndpoint fresh)).moduleAt id).endpoints.get? k = some x →
      id = child ∧ x = fresh := by
    intro id k x hnone hsome
    by_cases hid : child = id
    · subst hid
      rw [hself, Module.addEndpoint, Arena.get?_push] at hsome
      split at hsome
      · exact ⟨rfl, (Option.some.inj hsome).symm⟩
      · cases hnone.symm.trans hsome
    · rw [hother id hid] at hsome
      cases hnone.symm.trans hsome
  -- the endpoint in between counts as new in the longer step, and it is resolved by its end
  refine ⟨hgrown.trans h.grown, ?_, ?_, ?_, ?_⟩
  · intro id hid
    have hne : child ≠ id := fun heq => hstack (heq ▸ hid)
    rw [h.waiting id hid, hother id hne]
  · intro id hid
    by_cases hchild : child = id
    · exact hchild ▸ hresolved
    · exact h.resolved id (by rw [hother id hchild]; exact hid)
  · intro id k x hnone hsome
    cases hmid : ((p.modifyModule child (·.addEndpoint fresh)).moduleAt id).endpoints.get? k with
    | none => exact h.fresh id k x hmid hsome
    | some y =>
        obtain ⟨rfl, rfl⟩ := hnew id k y hnone hmid
        obtain ⟨y', hy', hgrown'⟩ := (h.grown.modules id).endpoints k y hmid
        cases hsome.symm.trans hy'
        refine ⟨hresolved k x hsome, ?_⟩
        rw [hgrown'.exposed, ← hfresh]
        rfl
  · intro id c hc
    rcases h.connections id c hc with hc | hc
    · left
      by_cases hid : child = id
      · subst hid
        rw [hself] at hc
        exact hc
      · rw [hother id hid] at hc
        exact hc
    -- no path of the old program names the endpoint in between, since its name is new
    · refine .inr (hc.of_grown hgrown ?_)
      intro k x f s hnone hsome _ hpath
      obtain ⟨-, rfl⟩ := hnew id k x hnone hsome
      rw [← hfresh] at hpath ⊢
      simp only [intermediate, Option.some.injEq, List.cons.injEq] at hpath
      obtain ⟨rfl, rfl⟩ := hpath
      exact name_intermediate_ne _ _ _ _ _

/-! ## Layer by layer -/

/-- What hoisting a nested module is known to do while `id` and the modules of the stack wait. -/
def HoistsChild (hoistChild : ModuleId → Edit Unit) (stack : List ModuleId) : Prop :=
  ∀ child p q, (hoistChild child).apply p = (.ok (), q) →
    child ∉ stack ∧ Hoists stack p q ∧ (q.moduleAt child).Resolved

variable {hoistChild : ModuleId → Edit Unit} {stack : List ModuleId} {id : ModuleId}

/-- Resolving one endpoint and connecting it, once the inner endpoint is resolved. -/
theorem Hoists.resolveEndpoint {p q : Program} {endpoint : EndpointId} {e : Endpoint}
    {node : NodeId} {child : ModuleId} {inner : String} {k : EndpointId}
    {details : EndpointDetails} {annotations : Annotations} (h : Hoists (id :: stack) p q)
    (hid : id ∉ stack) (he : (p.moduleAt id).endpoints.get? endpoint = some e)
    (hunresolved : e.details = none)
    (hchild : p.findModule? ((p.moduleAt id).nodes.get node).source = some child)
    (hk : (q.moduleAt child).findDirected? e.direction inner = some k)
    (hdetails : ((q.moduleAt child).endpoints.get k).details = some details)
    (hnew : (p.moduleAt child).endpoints.get? k = none ∨
      ∃ first second, e.path = some [first, second] ∧ second.name = inner) :
    Hoists stack p ((q.modifyModule id fun m => { m with
        endpoints := m.endpoints.modify endpoint (resolvedWith details annotations) }).modifyModule
      id (·.addConnection (forwarding e.direction e.name node inner e.span))) := by
  have hlt : id.idx < q.modules.size := by
    rw [h.grown.size]
    exact Program.lt_size_of_endpoint he
  have hsame : q.moduleAt id = p.moduleAt id := h.waiting id List.mem_cons_self
  -- the endpoint is still as it was, so filling it in is growth
  have hgrown₁ : q.Grown (q.modifyModule id fun m => { m with
      endpoints := m.endpoints.modify endpoint (resolvedWith details annotations) }) := by
    refine .modifyModule q id _ (.modifyEndpoint _ _ _ ?_)
    intro x hx
    rw [hsame, he] at hx
    cases hx
    exact ⟨rfl, rfl, rfl, rfl, by simp [hunresolved], by simp [hunresolved], by simp [hunresolved],
      .inr rfl, nofun⟩
  generalize hq₁ : q.modifyModule id (fun m => { m with
    endpoints := m.endpoints.modify endpoint (resolvedWith details annotations) }) = q₁ at hgrown₁
  generalize hc : forwarding e.direction e.name node inner e.span = c
  have hgrown₂ : q₁.Grown (q₁.modifyModule id (·.addConnection c)) :=
    .modifyModule q₁ id _ (.addConnection _ _)
  have hgrown : q.Grown (q₁.modifyModule id (·.addConnection c)) := hgrown₁.trans hgrown₂
  have hself : (q₁.modifyModule id (·.addConnection c)).moduleAt id = { p.moduleAt id with
      endpoints := (p.moduleAt id).endpoints.modify endpoint (resolvedWith details annotations)
      connections := (p.moduleAt id).connections.push c } := by
    rw [Program.moduleAt_modifyModule_self (hgrown₁.size ▸ hlt), ← hq₁,
      Program.moduleAt_modifyModule_self hlt, hsame]
    rfl
  have hother : ∀ x, id ≠ x → (q₁.modifyModule id (·.addConnection c)).moduleAt x =
      q.moduleAt x := by
    intro x hx
    rw [Program.moduleAt_modifyModule_of_ne hx, ← hq₁, Program.moduleAt_modifyModule_of_ne hx]
  -- only the module of the endpoint changes; each part is the old one there, or concerns others
  refine ⟨h.grown.trans hgrown, ?_, ?_, ?_, ?_⟩
  · intro x hx
    have hne : id ≠ x := fun heq => hid (heq ▸ hx)
    rw [hother x hne, h.waiting x (List.mem_cons_of_mem _ hx)]
  · intro x hx
    by_cases hne : id = x
    · subst hne
      have := hx endpoint e he
      simp [hunresolved] at this
    · rw [hother x hne]
      exact h.resolved x hx
  · intro x j y hnone hsome
    by_cases hne : id = x
    · subst hne
      rw [hself, Arena.get?_modify] at hsome
      split at hsome
      · next heq =>
        subst heq
        cases he.symm.trans hnone
      · cases hnone.symm.trans hsome
    · rw [hother x hne] at hsome
      exact h.fresh x j y hnone hsome
  · intro x w hw
    by_cases hne : id = x
    · subst hne
      rw [hself, Arena.toList_push, List.mem_append, List.mem_singleton] at hw
      rcases hw with hw | rfl
      · exact .inl hw
      -- the new connection forwards the inner endpoint, which has its details by now
      · refine .inr ⟨e.direction, e.name, node, inner, e.span, child, k, ?_⟩
        obtain ⟨y, hy, -⟩ := Arena.find?_eq_some_iff.mp hk
        rw [Arena.get_eq_of_get? hy] at hdetails
        obtain ⟨y', hy', hgrown'⟩ := (hgrown.modules child).endpoints k y hy
        obtain ⟨more, hmore⟩ := hgrown'.details details hdetails
        refine ⟨_, hc.symm, hchild, (hgrown.modules child).findDirected? hk,
          by rw [Arena.get_eq_of_get? hy']; exact hmore, .inr ?_⟩
        refine hnew.imp_right ?_
        rintro ⟨first, second, hpath, hname⟩
        exact ⟨endpoint, e, first, second, he, hunresolved, rfl, hpath, hname⟩
    · rw [hother x hne] at hw
      exact (h.connections x w hw).imp_right fun hf => hf.grown hgrown

/-- Hoisting one unresolved endpoint resolves it and leaves the module's other endpoints as they
are. -/
theorem hoistEndpoint_hoists (hchild : HoistsChild hoistChild (id :: stack)) (hid : id ∉ stack)
    {p q : Program} {endpoint : EndpointId} {e : Endpoint}
    (he : (p.moduleAt id).endpoints.get? endpoint = some e) (hunresolved : e.details = none)
    (h : (hoistEndpoint hoistChild id endpoint).apply p = (.ok (), q)) :
    Hoists stack p q ∧ ∃ details annotations, (q.moduleAt id).endpoints =
      (p.moduleAt id).endpoints.modify endpoint (resolvedWith details annotations) := by
  obtain ⟨first, second, deeper, node, child, inner, p₁, p₂, k, details, annotations, hpath, -, -,
    hsource, hsteps, hk, hinner, hdetails, -, -, rfl⟩ :=
    hoistEndpoint_eq_ok (Arena.get_eq_of_get? he) h
  have hlt : child.idx < p.modules.size := Program.lt_size_of_findModule? hsource
  obtain ⟨hhoists, hk₂, hnew⟩ : Hoists (id :: stack) p p₂ ∧
      (p₂.moduleAt child).findDirected? e.direction inner = some k ∧
      ((p.moduleAt child).endpoints.get? k = none ∨
        ∃ first second, e.path = some [first, second] ∧ second.name = inner) := by
    rcases hsteps with ⟨rfl, rfl, rfl⟩ | ⟨-, fresh, hfresh, rfl, rfl⟩
    · -- the path ends here: the inner endpoint was resolved, or is resolved now
      have hhoists : Hoists (id :: stack) p₁ p₂ := by
        rcases hinner with ⟨-, rfl⟩ | ⟨-, hrun⟩
        · exact .refl _ _
        · exact (hchild child p₁ p₂ hrun).2.1
      exact ⟨hhoists, (hhoists.grown.modules child).findDirected? hk,
        .inr ⟨first, second, hpath, rfl⟩⟩
    · -- the path goes on: the endpoint in between is unresolved, so the nested module is hoisted
      rw [Program.moduleAt_modifyModule_self hlt] at hk hinner
      have hnext : k = (p.moduleAt child).endpoints.next := by
        rw [hfresh] at hk
        exact (Option.some.inj ((findDirected?_addEndpoint_intermediate _ _ _ _).symm.trans
          hk)).symm
      subst hnext
      have hget : ((p.moduleAt child).addEndpoint fresh).endpoints.get
          (p.moduleAt child).endpoints.next = fresh :=
        Arena.get_eq_of_get? (Arena.get?_push_next _ _)
      rw [hget] at hinner
      rcases hinner with ⟨hsome, -⟩ | ⟨-, hrun⟩
      · rw [hfresh] at hsome
        cases hsome
      · obtain ⟨hout, hhoists, hresolved⟩ := hchild child _ p₂ hrun
        have hk' : ((p.modifyModule child (·.addEndpoint fresh)).moduleAt child).findDirected?
            e.direction fresh.name = some (p.moduleAt child).endpoints.next := by
          rw [Program.moduleAt_modifyModule_self hlt]
          exact hk
        refine ⟨?_, (hhoists.grown.modules child).findDirected? hk', .inl ?_⟩
        · subst hfresh
          exact .of_intermediate hlt hhoists hout hresolved
        · exact Arena.get?_eq_none_iff.mpr (Nat.le_refl _)
  refine ⟨hhoists.resolveEndpoint hid he hunresolved hsource hk₂ hdetails hnew, details,
    annotations, ?_⟩
  have hlt' : id.idx < p₂.modules.size := by
    rw [hhoists.grown.size]
    exact Program.lt_size_of_endpoint he
  rw [Program.moduleAt_modifyModule_self (by simpa using hlt'),
    Program.moduleAt_modifyModule_self hlt', hhoists.waiting id List.mem_cons_self]
  rfl

/-- Hoisting the unresolved endpoints of a module one by one.  The first unresolved endpoint moves
on with every round, so as many rounds as there are endpoints suffice: all endpoints before
`done` are resolved. -/
theorem hoistEach_hoists (hchild : HoistsChild hoistChild (id :: stack)) (hid : id ∉ stack)
    {n done : Nat} {p q : Program} {changed : Bool}
    (hsize : (p.moduleAt id).endpoints.size ≤ n + done)
    (hdone : ∀ k e, k.idx < done → (p.moduleAt id).endpoints.get? k = some e → e.details.isSome)
    (h : (hoistEach hoistChild id n).apply p = (.ok changed, q)) :
    Hoists stack p q ∧ (q.moduleAt id).Resolved := by
  induction n generalizing done p changed with
  | zero =>
      cases h
      refine ⟨.refl _ _, ?_⟩
      intro k e he
      exact hdone k e (by have := Arena.lt_size_of_get? he; omega) he
  | succ n ih =>
      simp only [hoistEach, Edit.apply_program_bind] at h
      cases hfind : (p.moduleAt id).endpoints.find? Endpoint.isUnresolved with
      | none =>
          rw [hfind] at h
          cases h
          refine ⟨.refl _ _, ?_⟩
          intro k e he
          have := Arena.find?_eq_none_iff.mp hfind k e he
          simpa [Endpoint.isUnresolved, Option.isSome_iff_ne_none] using this
      | some endpoint =>
          rw [hfind] at h
          obtain ⟨e, he, hunresolved, hbefore⟩ := Arena.find?_eq_some_iff.mp hfind
          obtain ⟨_, p', hendpoint, h⟩ := Edit.apply_bind_eq_ok.mp h
          obtain ⟨changed', q', hrest, h⟩ := Edit.apply_bind_eq_ok.mp h
          cases h
          have hnone : e.details = none := by simpa [Endpoint.isUnresolved] using hunresolved
          obtain ⟨hhoists, details, annotations, hendpoints⟩ :=
            hoistEndpoint_hoists hchild hid he hnone hendpoint
          -- the endpoint found is not before `done`, so the bound moves past it
          have hle : done ≤ endpoint.idx := by
            by_contra hlt
            have := hdone endpoint e (by omega) he
            simp [hnone] at this
          have hsize' : (p'.moduleAt id).endpoints.size ≤ n + (endpoint.idx + 1) := by
            rw [hendpoints, Arena.size_modify]
            omega
          have hdone' : ∀ k x, k.idx < endpoint.idx + 1 →
              (p'.moduleAt id).endpoints.get? k = some x → x.details.isSome := by
            intro k x hk hx
            rw [hendpoints, Arena.get?_modify] at hx
            split at hx
            · obtain ⟨y, -, rfl⟩ := Option.map_eq_some_iff.mp hx
              rfl
            · next hne =>
              have hlt : k.idx < endpoint.idx := by
                have : k.idx ≠ endpoint.idx := fun heq =>
                  hne (by cases endpoint; cases k; exact congrArg _ heq.symm)
                omega
              have := hbefore k x hlt hx
              simpa [Endpoint.isUnresolved, Option.isSome_iff_ne_none] using this
          obtain ⟨hrest, hresolved⟩ := ih hsize' hdone' hrest
          exact ⟨hhoists.trans hrest, hresolved⟩

/-- Hoisting a module resolves all its endpoints. -/
theorem hoistModule_hoists {n : Nat} {p q : Program} {changed : Bool}
    (h : (hoistModule n stack id).apply p = (.ok changed, q)) :
    id ∉ stack ∧ Hoists stack p q ∧ (q.moduleAt id).Resolved := by
  induction n generalizing stack id p q changed with
  | zero => cases h
  | succ n ih =>
      simp only [hoistModule] at h
      split at h
      · cases h
      · next hstack =>
        have hid : id ∉ stack := by simpa using hstack
        have hchild : HoistsChild (fun child => do
            let _ ← hoistModule n (id :: stack) child) (id :: stack) := by
          intro child r r' hr
          obtain ⟨changed', r'', hrun, hr⟩ := Edit.apply_bind_eq_ok.mp hr
          cases hr
          exact ih hrun
        rw [Edit.apply_program_bind] at h
        have hsize : (p.moduleAt id).endpoints.size ≤ (p.moduleAt id).endpoints.size + 0 :=
          Nat.le_refl _
        exact ⟨hid, hoistEach_hoists hchild hid hsize (fun _ _ hlt => absurd hlt (by omega)) h⟩

/-- Hoisting is known to do as much for nested modules. -/
theorem hoistsChild_hoistModule (n : Nat) (stack : List ModuleId) :
    HoistsChild (fun child => do let _ ← hoistModule n stack child) stack := by
  intro child p q h
  obtain ⟨changed, q', hrun, h⟩ := Edit.apply_bind_eq_ok.mp h
  cases h
  exact hoistModule_hoists hrun

/-! ## Whole graphs -/

/-- Hoisting a graph resolves its endpoints. -/
theorem hoistEndpoints_hoists {p q : Program} {changed : Bool}
    (h : (hoistEndpoints id).apply p = (.ok changed, q)) :
    Hoists [] p q ∧ (q.moduleAt id).Resolved := by
  rw [hoistEndpoints, Edit.apply_program_bind] at h
  exact (hoistModule_hoists h).2

/-- Hoisting a graph without unresolved endpoints does nothing. -/
theorem hoistEndpoints_of_resolved {p : Program} (h : (p.moduleAt id).Resolved) :
    (hoistEndpoints id).apply p = (.ok false, p) := by
  have hfind : (p.moduleAt id).endpoints.find? Endpoint.isUnresolved = none := by
    refine Arena.find?_eq_none_iff.mpr ?_
    intro k e he
    simpa [Endpoint.isUnresolved, Option.isSome_iff_ne_none] using h k e he
  have heach : ∀ (hoistChild : ModuleId → Edit Unit) (n : Nat),
      (hoistEach hoistChild id n).apply p = (.ok false, p) := by
    intro hoistChild n
    cases n with
    | zero => rfl
    | succ n =>
        simp only [hoistEach, Edit.apply_program_bind, hfind]
        rfl
  rw [hoistEndpoints, Edit.apply_program_bind, hoistModule, if_neg (by simp),
    Edit.apply_program_bind]
  exact heach _ _

end SignalGraph.Link

import SignalGraph.Link.Endpoints
import SignalGraph.Proofs.Handle

/-!
# SignalGraph.Proofs.Link.Growth

Linking only adds.  `Grown` says of two endpoints, modules or programs that the second can come
from the first by linking: endpoints keep their place, name, direction and mark; resolved ones
keep all details but for event types that are added; connections are added at the end; everything
else stays.  The relation is transitive, so it is shown for single changes and then holds of whole
runs.

What linking never touches is the *shape* of a program: which modules there are, their names,
kinds and nodes.  All questions about which graph holds which module depend on the shape alone
(`SameShape`).
-/

namespace SignalGraph

/-! ## Endpoints -/

/-- What linking may make of an endpoint. -/
structure Endpoint.Grown (e e' : Endpoint) : Prop where
  name : e'.name = e.name
  direction : e'.direction = e.direction
  span : e'.span = e.span
  exposed : e'.exposed = e.exposed
  /-- Details stay, but for types that are added at the end. -/
  details : ∀ d, e.details = some d → ∃ more, e'.details = some { d with types := d.types ++ more }
  /-- Only events get further types. -/
  steady : ∀ d, e.details = some d → d.kind ≠ .event → e'.details = some d
  annotations : e.details.isSome → e'.annotations = e.annotations
  path : e'.path = e.path ∨ e'.path = none
  /-- An endpoint that is still unresolved is as it was. -/
  untouched : e'.details = none → e' = e

namespace Endpoint.Grown

theorem refl (e : Endpoint) : e.Grown e where
  name := rfl
  direction := rfl
  span := rfl
  exposed := rfl
  details d hd := ⟨[], by simpa using hd⟩
  steady _ hd _ := hd
  annotations _ := rfl
  path := .inl rfl
  untouched _ := rfl

/-- Resolved endpoints stay resolved. -/
theorem isSome_details {e e' : Endpoint} (h : e.Grown e') (he : e.details.isSome) :
    e'.details.isSome := by
  obtain ⟨d, hd⟩ := Option.isSome_iff_exists.mp he
  obtain ⟨more, hmore⟩ := h.details d hd
  simp [hmore]

/-- What grows twice has grown. -/
theorem trans {e e' e'' : Endpoint} (h : e.Grown e') (h' : e'.Grown e'') : e.Grown e'' where
  name := h'.name.trans h.name
  direction := h'.direction.trans h.direction
  span := h'.span.trans h.span
  exposed := h'.exposed.trans h.exposed
  details d hd := by
    obtain ⟨more, hmore⟩ := h.details d hd
    obtain ⟨more', hmore'⟩ := h'.details _ hmore
    exact ⟨more ++ more', by simpa using hmore'⟩
  steady d hd hkind := h'.steady d (h.steady d hd hkind) hkind
  annotations he := (h'.annotations (h.isSome_details he)).trans (h.annotations he)
  path := by
    rcases h'.path with hpath | hpath
    · rw [hpath]
      exact h.path
    · exact .inr hpath
  untouched hnone := by
    have hmid := h'.untouched hnone
    rw [hmid]
    exact h.untouched (hmid ▸ hnone)

end Endpoint.Grown

/-! ## Modules -/

/-- What linking may make of a module. -/
structure Module.Grown (m m' : Module) : Prop where
  rest : { m' with endpoints := m.endpoints, connections := m.connections } = m
  endpoints : ∀ h e, m.endpoints.get? h = some e →
    ∃ e', m'.endpoints.get? h = some e' ∧ e.Grown e'
  connections : m.connections.toList <+: m'.connections.toList

namespace Module.Grown

variable {m m' m'' : Module}

theorem refl (m : Module) : m.Grown m where
  rest := rfl
  endpoints _ e he := ⟨e, he, .refl e⟩
  connections := List.prefix_refl _

/-- Growing modules keep their names. -/
theorem name (h : m.Grown m') : m'.name = m.name := (congrArg Module.name h.rest :)

/-- Growing modules keep their kinds. -/
theorem kind (h : m.Grown m') : m'.kind = m.kind := (congrArg Module.kind h.rest :)

/-- Growing modules keep their nodes. -/
theorem nodes (h : m.Grown m') : m'.nodes = m.nodes := (congrArg Module.nodes h.rest :)

theorem span (h : m.Grown m') : m'.span = m.span := (congrArg Module.span h.rest :)

/-- Modules that grow twice have grown. -/
theorem trans (h : m.Grown m') (h' : m'.Grown m'') : m.Grown m'' where
  rest := by
    have heq := h'.rest
    calc
      _ = { { m'' with endpoints := m'.endpoints, connections := m'.connections } with
            endpoints := m.endpoints, connections := m.connections } := rfl
      _ = m := by rw [heq, h.rest]
  endpoints k e he := by
    obtain ⟨e', he', hgrown⟩ := h.endpoints k e he
    obtain ⟨e'', he'', hgrown'⟩ := h'.endpoints k e' he'
    exact ⟨e'', he'', hgrown.trans hgrown'⟩
  connections := h.connections.trans h'.connections

/-- Adding an endpoint. -/
theorem addEndpoint (m : Module) (e : Endpoint) : m.Grown (m.addEndpoint e) where
  rest := rfl
  endpoints _ e' he' := ⟨e', Arena.get?_push_of_get? e he', .refl e'⟩
  connections := List.prefix_refl _

/-- Adding a connection. -/
theorem addConnection (m : Module) (c : Connection) : m.Grown (m.addConnection c) where
  rest := rfl
  endpoints _ e he := ⟨e, he, .refl e⟩
  connections := by
    simp only [Module.addConnection, Arena.toList_push]
    exact List.prefix_append _ _

/-- Changing one endpoint the way linking does. -/
theorem modifyEndpoint (m : Module) (h : EndpointId) (f : Endpoint → Endpoint)
    (hf : ∀ e, m.endpoints.get? h = some e → e.Grown (f e)) :
    m.Grown { m with endpoints := m.endpoints.modify h f } where
  rest := rfl
  endpoints k e he := by
    by_cases hk : h = k
    · subst hk
      exact ⟨f e, by rw [Arena.get?_modify_self, he]; rfl, hf e he⟩
    · exact ⟨e, by rw [Arena.get?_modify, if_neg hk, he], .refl e⟩
  connections := List.prefix_refl _

end Module.Grown

/-- All endpoints of a module are resolved. -/
def Module.Resolved (m : Module) : Prop :=
  ∀ h e, m.endpoints.get? h = some e → e.details.isSome

/-- A name goes on to mean the same endpoint. -/
theorem Module.Grown.findDirected? {m m' : Module} (h : m.Grown m') {direction : Direction}
    {name : String} {k : EndpointId} (hk : m.findDirected? direction name = some k) :
    m'.findDirected? direction name = some k := by
  obtain ⟨e, he, hmatch, hbefore⟩ := Arena.find?_eq_some_iff.mp hk
  obtain ⟨e', he', hgrown⟩ := h.endpoints k e he
  refine Arena.find?_eq_some_iff.mpr ⟨e', he', ?_, ?_⟩
  · rw [hgrown.name, hgrown.direction]
    exact hmatch
  · intro j x hj hx
    -- whatever stands before is an old endpoint
    have hlt : j.idx < m.endpoints.size := Nat.lt_trans hj (Arena.lt_size_of_get? he)
    obtain ⟨x', hx', hgrown'⟩ := h.endpoints j _ (Arena.get?_eq_some_get hlt)
    cases hx.symm.trans hx'
    rw [hgrown'.name, hgrown'.direction]
    exact hbefore j _ hj (Arena.get?_eq_some_get hlt)

/-! ## Programs -/

namespace Program

variable {p p' p'' : Program}

/-- A change of a module is seen there and nowhere else. -/
theorem moduleAt_modifyModule (p : Program) (id k : ModuleId) (f : Module → Module) :
    (p.modifyModule id f).moduleAt k =
      if id = k ∧ id.idx < p.modules.size then f (p.moduleAt k) else p.moduleAt k := by
  simp only [moduleAt, modifyModule, Arena.get, Arena.get?_modify]
  by_cases hk : id = k
  · subst hk
    by_cases hlt : id.idx < p.modules.size
    · rw [if_pos rfl, if_pos ⟨rfl, hlt⟩, Arena.get?_eq_some_get hlt]
      rfl
    · have hnone : p.modules.get? id = none := Arena.get?_eq_none_iff.mpr (Nat.not_lt.mp hlt)
      rw [if_pos rfl, if_neg (fun h => hlt h.2), hnone]
      rfl
  · rw [if_neg hk, if_neg (fun h => hk h.1)]

/-- The changed module is found changed. -/
theorem moduleAt_modifyModule_self {id : ModuleId} (hid : id.idx < p.modules.size)
    (f : Module → Module) : (p.modifyModule id f).moduleAt id = f (p.moduleAt id) := by
  rw [moduleAt_modifyModule, if_pos ⟨rfl, hid⟩]

/-- Other modules are found as before. -/
theorem moduleAt_modifyModule_of_ne {id k : ModuleId} (h : id ≠ k) (f : Module → Module) :
    (p.modifyModule id f).moduleAt k = p.moduleAt k := by
  rw [moduleAt_modifyModule, if_neg (fun hk => h hk.1)]

@[simp] theorem size_modules_modifyModule (p : Program) (id : ModuleId) (f : Module → Module) :
    (p.modifyModule id f).modules.size = p.modules.size := by
  simp [modifyModule]

/-- Endpoints stay where they are when one is added. -/
theorem get?_addEndpoint (id : ModuleId) (e : Endpoint) {j : ModuleId} {k : EndpointId}
    {x : Endpoint} (hx : (p.moduleAt j).endpoints.get? k = some x) :
    ((p.modifyModule id (·.addEndpoint e)).moduleAt j).endpoints.get? k = some x := by
  rw [moduleAt_modifyModule]
  split
  · exact Arena.get?_push_of_get? e hx
  · exact hx

/-- Changes that do the same to the module do the same to the program. -/
theorem modifyModule_congr {id : ModuleId} {f g : Module → Module}
    (h : f (p.moduleAt id) = g (p.moduleAt id)) : p.modifyModule id f = p.modifyModule id g := by
  have hmodules : p.modules.modify id f = p.modules.modify id g := by
    refine Arena.modify_congr fun m hm => ?_
    rwa [moduleAt, Arena.get_eq_of_get? hm] at h
  rw [modifyModule, modifyModule, hmodules]

/-- A change that does nothing to the module does nothing to the program. -/
theorem modifyModule_eq_self {id : ModuleId} {f : Module → Module}
    (h : f (p.moduleAt id) = p.moduleAt id) : p.modifyModule id f = p := by
  have hmodules : p.modules.modify id f = p.modules := by
    refine Arena.modify_eq_self fun m hm => ?_
    rwa [moduleAt, Arena.get_eq_of_get? hm] at h
  rw [modifyModule, hmodules]

/-- What linking may make of a program. -/
structure Grown (p p' : Program) : Prop where
  rest : { p' with modules := p.modules } = p
  size : p'.modules.size = p.modules.size
  modules : ∀ id, (p.moduleAt id).Grown (p'.moduleAt id)

namespace Grown

theorem refl (p : Program) : p.Grown p where
  rest := rfl
  size := rfl
  modules _ := .refl _

/-- Programs that grow twice have grown. -/
theorem trans (h : p.Grown p') (h' : p'.Grown p'') : p.Grown p'' where
  rest := by
    have heq := h'.rest
    calc
      _ = { { p'' with modules := p'.modules } with modules := p.modules } := rfl
      _ = p := by rw [heq, h.rest]
  size := h'.size.trans h.size
  modules id := (h.modules id).trans (h'.modules id)

/-- Changing one module the way linking does. -/
theorem modifyModule (p : Program) (id : ModuleId) (f : Module → Module)
    (hf : (p.moduleAt id).Grown (f (p.moduleAt id))) : p.Grown (p.modifyModule id f) where
  rest := rfl
  size := size_modules_modifyModule p id f
  modules k := by
    rw [moduleAt_modifyModule]
    split
    · next h =>
      rw [← h.1]
      exact hf
    · exact .refl _

/-- A resolved endpoint stays resolved. -/
theorem resolved (h : p.Grown p') {id : ModuleId} {k : EndpointId} {e : Endpoint}
    (he : (p.moduleAt id).endpoints.get? k = some e) (hd : e.details.isSome) :
    ∃ e', (p'.moduleAt id).endpoints.get? k = some e' ∧ e'.details.isSome ∧ e.Grown e' := by
  obtain ⟨e', he', hgrown⟩ := (h.modules id).endpoints k e he
  exact ⟨e', he', hgrown.isSome_details hd, hgrown⟩

end Grown

/-! ## Shape -/

/-- The programs have the same modules with the same names, kinds and nodes. -/
structure SameShape (p p' : Program) : Prop where
  size : p'.modules.size = p.modules.size
  name : ∀ id, (p'.moduleAt id).name = (p.moduleAt id).name
  kind : ∀ id, (p'.moduleAt id).kind = (p.moduleAt id).kind
  nodes : ∀ id, (p'.moduleAt id).nodes = (p.moduleAt id).nodes
  span : ∀ id, (p'.moduleAt id).span = (p.moduleAt id).span

/-- Growing programs keep their shape: modules, kinds, names and nodes. -/
theorem Grown.sameShape (h : p.Grown p') : p.SameShape p' where
  size := h.size
  name id := (h.modules id).name
  kind id := (h.modules id).kind
  nodes id := (h.modules id).nodes
  span id := (h.modules id).span

/-- A module that only changes its endpoints and connections keeps the shape of the program. -/
theorem sameShape_modifyModule (p : Program) (id : ModuleId) {f : Module → Module}
    (hf : ∀ m, { f m with endpoints := m.endpoints, connections := m.connections } = m) :
    p.SameShape (p.modifyModule id f) := by
  have hrest : ∀ k, { (p.modifyModule id f).moduleAt k with
      endpoints := (p.moduleAt k).endpoints, connections := (p.moduleAt k).connections } =
      p.moduleAt k := by
    intro k
    rw [moduleAt_modifyModule]
    split
    · exact hf _
    · rfl
  refine ⟨size_modules_modifyModule p id f, ?_, ?_, ?_, ?_⟩
  · exact fun k => (congrArg Module.name (hrest k) :)
  · exact fun k => (congrArg Module.kind (hrest k) :)
  · exact fun k => (congrArg Module.nodes (hrest k) :)
  · exact fun k => (congrArg Module.span (hrest k) :)

namespace SameShape

/-- Programs of the same shape as one another have the same shape. -/
theorem trans (h : p.SameShape p') (h' : p'.SameShape p'') : p.SameShape p'' where
  size := h'.size.trans h.size
  name id := (h'.name id).trans (h.name id)
  kind id := (h'.kind id).trans (h.kind id)
  nodes id := (h'.nodes id).trans (h.nodes id)
  span id := (h'.span id).trans (h.span id)

/-- Which modules are graphs is part of the shape. -/
theorem isGraph (h : p.SameShape p') (id : ModuleId) :
    (p'.moduleAt id).isGraph = (p.moduleAt id).isGraph := by
  simp only [Module.isGraph, h.kind id]

/-- Which module has a name is part of the shape. -/
theorem findModule? (h : p.SameShape p') (name : String) :
    p'.findModule? name = p.findModule? name := by
  apply Arena.find?_congr h.size
  intro id m m' hm hm'
  have hname := h.name id
  simp only [moduleAt, Arena.get_eq_of_get? hm, Arena.get_eq_of_get? hm'] at hname
  rw [hname]

/-- The graphs are part of the shape. -/
theorem graphs (h : p.SameShape p') : p'.graphs = p.graphs := by
  apply Arena.map_fst_filter_entries_congr h.size
  intro id m m' hm hm'
  have hgraph := h.isGraph id
  rw [moduleAt, moduleAt, Arena.get_eq_of_get? hm, Arena.get_eq_of_get? hm'] at hgraph
  exact hgraph

/-- Which graphs instantiate a module is part of the shape. -/
theorem instantiatingGraphs (h : p.SameShape p') (name : String) :
    Link.instantiatingGraphs p' name = Link.instantiatingGraphs p name := by
  let holds (m : Module) : Bool := m.isGraph && m.nodes.toList.any (·.source == name)
  refine Arena.map_fst_filter_entries_congr (p := holds) (q := holds) h.size ?_
  intro id m m' hm hm'
  show (m.isGraph && m.nodes.toList.any (·.source == name)) =
    (m'.isGraph && m'.nodes.toList.any (·.source == name))
  have hgraph := h.isGraph id
  have hnodes := h.nodes id
  simp only [moduleAt, Arena.get_eq_of_get? hm, Arena.get_eq_of_get? hm'] at hgraph hnodes
  rw [hgraph, hnodes]

/-- Which graphs are nested is part of the shape. -/
theorem nestedGraphs (h : p.SameShape p') : Link.nestedGraphs p' = Link.nestedGraphs p := by
  funext id
  simp only [Link.nestedGraphs, h.nodes id, h.findModule?, h.isGraph]

/-- Whether graphs are recursive is part of the shape. -/
theorem checkGraphRecursion (h : p.SameShape p') :
    Link.checkGraphRecursion p' = Link.checkGraphRecursion p := by
  have hrec : ∀ id, Link.recursiveGraph p' id = Link.recursiveGraph p id := by
    intro id
    simp only [Link.recursiveGraph, h.name id, h.span id]
  simp only [Link.checkGraphRecursion, Link.graphRecursion?, h.nestedGraphs, h.graphs, hrec]

end SameShape

/-! ## Handles of modules -/

/-- What holds of all modules, and of the one that a stray handle reads as, holds at every
handle. -/
theorem forall_moduleAt {property : Module → Prop} (hdefault : property default)
    (h : ∀ m ∈ p.modules.toList, property m) (id : ModuleId) : property (p.moduleAt id) := by
  cases hm : p.modules.get? id with
  | none =>
      rw [moduleAt, Arena.get, hm]
      exact hdefault
  | some m =>
      rw [moduleAt, Arena.get_eq_of_get? hm]
      exact h m (Arena.mem_toList_iff.mpr ⟨id, hm⟩)

/-- Only modules of the program have endpoints. -/
theorem lt_size_of_endpoint {id : ModuleId} {k : EndpointId} {e : Endpoint}
    (h : (p.moduleAt id).endpoints.get? k = some e) : id.idx < p.modules.size := by
  by_contra hge
  have hnone : p.modules.get? id = none := Arena.get?_eq_none_iff.mpr (Nat.not_lt.mp hge)
  rw [moduleAt, Arena.get, hnone] at h
  have hempty : (default : Module).endpoints.get? k = none :=
    Arena.get?_eq_none_iff.mpr (Nat.zero_le _)
  cases h.symm.trans hempty

/-- A module that is found is there. -/
theorem lt_size_of_findModule? {name : String} {id : ModuleId} (h : p.findModule? name = some id) :
    id.idx < p.modules.size := by
  obtain ⟨m, hm, -⟩ := Arena.find?_eq_some_iff.mp h
  exact Arena.lt_size_of_get? hm

/-- A module that is found has the name. -/
theorem name_of_findModule? {name : String} {id : ModuleId} (h : p.findModule? name = some id) :
    (p.moduleAt id).name = name := by
  obtain ⟨m, hm, hname, -⟩ := Arena.find?_eq_some_iff.mp h
  rw [moduleAt, Arena.get_eq_of_get? hm]
  exact eq_of_beq hname

/-- The graphs of a program are its modules of that kind. -/
theorem mem_graphs_iff {id : ModuleId} :
    id ∈ p.graphs ↔ id.idx < p.modules.size ∧ (p.moduleAt id).isGraph := by
  simp only [graphs, List.mem_map, List.mem_filter, Prod.exists, Arena.mem_entries_iff]
  constructor
  · rintro ⟨k, m, ⟨hm, hgraph⟩, rfl⟩
    exact ⟨Arena.lt_size_of_get? hm, by rw [moduleAt, Arena.get_eq_of_get? hm]; exact hgraph⟩
  · rintro ⟨hlt, hgraph⟩
    exact ⟨id, p.moduleAt id, ⟨Arena.get?_eq_some_get hlt, hgraph⟩, rfl⟩

/-- No graph is listed twice. -/
theorem nodup_graphs (p : Program) : p.graphs.Nodup := by
  rw [graphs, Arena.map_fst_filter_entries]
  exact p.modules.nodup_handles.filter _

end Program

end SignalGraph

import SignalGraph.Link.Endpoints
import SignalGraph.Proofs.Check.AlikeVerdicts
import SignalGraph.Proofs.Program.Agreement

/-!
# SignalGraph.Proofs.Link.AlikeLinking

Linking does the same to alike programs (`agree_linkEndpoints`): what it decides by, names,
directions, details and wires, alike programs have in common, and what it adds to one program it
adds to the other, renamed.
-/

namespace SignalGraph

/-- Changes that agree under a renaming are made to a table and its renaming alike. -/
theorem Arena.rename_modify {e : Entity} {α : Type} {r : α → Option α} {a b : Arena e α}
    {f g : α → α} (h : a.rename r = some b)
    (hfg : ∀ x y, r x = some y → r (f x) = some (g y)) (k : Handle e) :
    (a.modify k f).rename r = some (b.modify k g) := by
  have hall := Arena.forall₂_of_rename h
  rw [Arena.rename_eq_some_iff, mapM_eq_some_iff_forall₂]
  have hgo : ∀ (l l' : List α) (i : Nat), List.Forall₂ (fun x y => r x = some y) l l' →
      List.Forall₂ (fun x y => r x = some y) (l.modify i f) (l'.modify i g) := by
    intro l l' i hall
    induction hall generalizing i with
    | nil => cases i <;> exact .nil
    | cons hxy hrest ih =>
        cases i with
        | zero => exact .cons (hfg _ _ hxy) hrest
        | succ i => exact .cons hxy (ih i)
  have hlist : ∀ (c : Arena e α) (f : α → α), (c.modify k f).toList = c.toList.modify k.idx f := by
    intro c f
    simp [Arena.toList, Arena.modify]
  rw [hlist, hlist]
  exact hgo _ _ _ hall

namespace Program

variable {p q : Program} {V : VariableId → Option VariableId} {r : Renaming}

/-- Alike programs, where `r` is what the second one calls the handles of the first. -/
structure AlikeBy (V : VariableId → Option VariableId) (r : Renaming) (p q : Program) : Prop where
  alike : Alike V p q
  names : alikeNames V p q = r

namespace AlikeBy

variable (h : AlikeBy V r p q)

include h

/-- Modules under the same handle are alike while linking goes on. -/
theorem moduleAt (id : ModuleId) : (p.moduleAt id).Renames r (q.moduleAt id) :=
  h.names ▸ h.alike.moduleAt id

/-- Modules that change alike stay alike. -/
theorem modifyModule {f g : Module → Module} (id : ModuleId)
    (hfg : ∀ m m', m.Renames r m' → (f m).Renames r (g m')) :
    AlikeBy V r (p.modifyModule id f) (q.modifyModule id g) where
  alike := { h.alike with
    modules := by
      refine Arena.rename_modify h.alike.modules (fun m m' hm => ?_) id
      rw [h.names, Module.rename_eq_some_iff] at hm ⊢
      exact hfg m m' hm }
  names := h.names

/-- Details of endpoints are the same on both sides. -/
theorem detailsRename : EndpointDetails.rename r = some := by
  rw [← h.names, detailsRename_alikeNames]

/-- Alike endpoints differ in their annotations only. -/
theorem endpoint_eq {e e' : Endpoint} (he : e.Renames r e') :
    e' = { e with annotations := e'.annotations } := by
  rw [← h.names] at he
  exact Program.endpoint_eq he

end AlikeBy

end Program

namespace Link

open Program Edit

variable {p q : Program} {V : VariableId → Option VariableId} {r : Renaming}

/-- The programs are alike, and the answers the same. -/
def Same (V : VariableId → Option VariableId) (r : Renaming) {α : Type} (a b : α) (p q : Program) :
    Prop := a = b ∧ AlikeBy V r p q

/-! ## Graphs inside graphs -/

section

variable (h : Alike V p q)

include h

/-- Alike programs nest the same graphs. -/
theorem nestedGraphs_alike (id : ModuleId) : nestedGraphs q id = nestedGraphs p id := by
  have hsources : (q.moduleAt id).nodes.toList.filterMap (fun n => q.findModule? n.source) =
      (p.moduleAt id).nodes.toList.filterMap fun n => p.findModule? n.source :=
    filterMap_eq_of_forall₂ (Arena.forall₂_of_rename (h.moduleAt id).nodes) fun n n' hn => by
      rw [(Node.rename_eq_some_iff.mp hn).source, h.findModule?]
  rw [nestedGraphs, hsources, nestedGraphs]
  exact List.filter_congr fun child _ => (h.moduleAt child).isGraph

/-- A graph is recursive in both programs or in neither. -/
theorem recursiveGraph_alike (id : ModuleId) : recursiveGraph q id = recursiveGraph p id := by
  rw [recursiveGraph, (h.moduleAt id).name, (h.moduleAt id).span, recursiveGraph]

/-- Recursive graphs are reported alike. -/
theorem checkGraphRecursion_alike : checkGraphRecursion q = checkGraphRecursion p := by
  have hrecursion : graphRecursion? q = graphRecursion? p := by
    simp only [graphRecursion?, nestedGraphs_alike h, h.graphs]
  simp only [checkGraphRecursion, hrecursion, recursiveGraph_alike h]

/-- A module is instantiated by the same graphs. -/
theorem instantiatingGraphs_alike (name : String) :
    instantiatingGraphs q name = instantiatingGraphs p name := by
  refine map_eq_of_forall₂ (filter_of_forall₂ h.entries ?_) fun _ _ hxy => hxy.1.symm
  rintro ⟨id, m⟩ ⟨id', m'⟩ hxy
  dsimp only
  rw [hxy.2.isGraph]
  congr 1
  exact any_eq_of_forall₂ (Arena.forall₂_of_rename hxy.2.nodes) fun n n' hn => by
    rw [(Node.rename_eq_some_iff.mp hn).source]

/-- Alike programs have the same limit on turns: it counts graphs, endpoints and paths. -/
theorem roundLimit_alike : roundLimit q = roundLimit p := by
  have hendpoints :
      (q.modules.toList.flatMap (·.endpoints.toList)).map (fun e : Endpoint => e.path) =
      (p.modules.toList.flatMap (·.endpoints.toList)).map fun e : Endpoint => e.path := by
    rw [List.map_flatMap, List.map_flatMap]
    refine flatMap_eq_of_forall₂ (Arena.forall₂_of_rename h.modules) fun m m' hm => ?_
    have hm := Module.rename_eq_some_iff.mp hm
    exact map_eq_of_forall₂ (Arena.forall₂_of_rename hm.endpoints) fun e e' he =>
      (Endpoint.rename_eq_some_iff.mp he).path
  have hwork := congrArg (List.foldr
    (fun (path : Option (List PathSegment)) n => 1 + (path.map List.length).getD 0 + n) 0)
      hendpoints
  rw [List.foldr_map, List.foldr_map] at hwork
  simp only [roundLimit, h.graphs]
  rw [hwork]

end

/-! ## Hoisting -/

section

variable (h : AlikeBy V r p q)

include h

omit h in
/-- A free name is found alike, since endpoints have the same names. -/
theorem uniqueEndpointName_alike {m m' : Module} (hm : m.Renames r m') (base : String) :
    uniqueEndpointName m' base = uniqueEndpointName m base := by
  simp only [uniqueEndpointName, hm.findEndpoint?, Arena.size_of_rename hm.endpoints]

/-- An endpoint that is added to both programs. -/
theorem addEndpoint_alike (id : ModuleId) {e e' : Endpoint} (he : e.Renames r e') :
    AlikeBy V r (p.modifyModule id (·.addEndpoint e)) (q.modifyModule id (·.addEndpoint e')) :=
  h.modifyModule id fun _ _ hm =>
    { hm with endpoints := Arena.rename_push hm.endpoints (Endpoint.rename_eq_some_iff.mpr he) }

/-- The endpoint on the way is added on both sides, with alike annotations. -/
theorem agree_addIntermediate (child : ModuleId) (nodeName : String) {e e' : Endpoint}
    (he : e.Renames r e') (fullPath rest : List PathSegment) :
    Agree (Same V r) (addIntermediate child nodeName e fullPath rest)
      (addIntermediate child nodeName e' fullPath rest) p q := by
  have hm := h.moduleAt child
  unfold addIntermediate
  refine .program_bind ?_
  simp only [hm.isGraph, uniqueEndpointName_alike hm, he.span, he.direction]
  refine .ite (fun _ => ?_) fun _ => agree_throw_bind _ _ _
  refine .bind (agree_modifyModule (R := Same V r) ⟨rfl, addEndpoint_alike h child ?_⟩) ?_
  · exact ⟨rfl, rfl, rfl, rfl, rfl, rfl, rfl⟩
  · rintro _ _ p' q' ⟨-, h⟩
    exact agree_pure ⟨rfl, h⟩

/-- A path starts at the same node on both sides, or is refused with the same message. -/
theorem agree_pathStart {m m' : Module} (hm : m.Renames r m') {e e' : Endpoint}
    (he : e.Renames r e') (first : PathSegment) :
    Agree (Same V r) (pathStart m e first) (pathStart m' e' first) p q := by
  have hnode : ∀ k, (m'.nodes.get k).arraySize = (m.nodes.get k).arraySize ∧
      (m'.nodes.get k).source = (m.nodes.get k).source := fun k =>
    ⟨(hm.node k).arraySize, (hm.node k).source⟩
  unfold pathStart
  simp only [hm.findNode?, he.span, hnode]
  refine .bind (agree_require (R := Same V r) fun k _ => ⟨rfl, h⟩) ?_
  rintro k _ p' q' ⟨rfl, h⟩
  refine .ite (fun _ => agree_throw _) fun _ => .program_bind ?_
  simp only [h.alike.findModule?]
  refine .bind (agree_require (R := Same V r) fun child _ => ⟨rfl, h⟩) ?_
  rintro child _ p' q' ⟨rfl, h⟩
  exact agree_pure ⟨rfl, h⟩

/-- An edit for each module that does the same to alike programs. -/
def AgreesOn (V : VariableId → Option VariableId) (r : Renaming)
    (hoistChild : ModuleId → Edit Unit) : Prop :=
  ∀ child p q, AlikeBy V r p q → Agree (Same V r) (hoistChild child) (hoistChild child) p q

/-- The endpoint that a path leads to is the same one on both sides, if nested modules are treated
alike. -/
theorem agree_innerEndpoint {hoistChild : ModuleId → Edit Unit} (hchild : AgreesOn V r hoistChild)
    (child : ModuleId) (name : String) {e e' : Endpoint} (he : e.Renames r e') :
    Agree (fun x y p q => y.1 = x.1 ∧ x.2.mapConstants r.onConstant = some y.2 ∧ AlikeBy V r p q)
      (innerEndpoint hoistChild child name e) (innerEndpoint hoistChild child name e') p q := by
  unfold innerEndpoint
  refine .program_bind ?_
  have hm := h.moduleAt child
  have hunresolved : ∀ k, ((q.moduleAt child).endpoints.get k).isUnresolved =
      ((p.moduleAt child).endpoints.get k).isUnresolved := fun k => by
    rw [h.endpoint_eq (hm.endpoint k)]
    rfl
  simp only [he.direction, hm.findDirected?, hm.name, he.span, hunresolved]
  refine .bind (agree_require (R := Same V r) fun k _ => ⟨rfl, h⟩) ?_
  rintro k _ p' q' ⟨rfl, h⟩
  -- what is left once the inner endpoint is resolved
  have hrest : ∀ p q, AlikeBy V r p q → Agree
      (fun x y p q => y.1 = x.1 ∧ x.2.mapConstants r.onConstant = some y.2 ∧ AlikeBy V r p q)
      (do
        let inner := ((← Edit.program).moduleAt child).endpoints.get k
        let details ← Edit.require ((Fault.unresolvedEndpoint name).diagnose e.span) inner.details
        if details.arraySize.isSome then
          throw ((Fault.notYetImplemented "hoisting endpoint arrays").diagnose e.span)
        return (details, inner.annotations) : Edit (EndpointDetails × Annotations))
      (do
        let inner := ((← Edit.program).moduleAt child).endpoints.get k
        let details ← Edit.require ((Fault.unresolvedEndpoint name).diagnose e.span) inner.details
        if details.arraySize.isSome then
          throw ((Fault.notYetImplemented "hoisting endpoint arrays").diagnose e.span)
        return (details, inner.annotations) : Edit (EndpointDetails × Annotations)) p q := by
    intro p q h
    have hinner := (h.moduleAt child).endpoint k
    refine .program_bind ?_
    have hdetails : ((q.moduleAt child).endpoints.get k).details =
        ((p.moduleAt child).endpoints.get k).details := by rw [h.endpoint_eq hinner]
    simp only [hdetails]
    refine .bind (agree_require (R := fun d d' p' q' => d' = d ∧ p' = p ∧ q' = q)
      fun d _ => ⟨rfl, rfl, rfl⟩) ?_
    rintro d _ _ _ ⟨rfl, rfl, rfl⟩
    exact .ite (fun _ => agree_throw_bind _ _ _) fun _ => agree_pure ⟨rfl, hinner.annotations, h⟩
  refine .ite (fun _ => .bind (hchild child p' q' h) ?_) fun _ => hrest p' q' h
  rintro _ _ p' q' ⟨-, h⟩
  exact hrest p' q' h

/-- An endpoint is resolved alike on both sides. -/
theorem agree_hoistEndpoint {hoistChild : ModuleId → Edit Unit} (hchild : AgreesOn V r hoistChild)
    (id : ModuleId) (k : EndpointId) :
    Agree (Same V r) (hoistEndpoint hoistChild id k) (hoistEndpoint hoistChild id k) p q := by
  have hm := h.moduleAt id
  have he := hm.endpoint k
  unfold hoistEndpoint
  refine .program_bind ?_
  dsimp only
  generalize (p.moduleAt id).endpoints.get k = e at he
  generalize (q.moduleAt id).endpoints.get k = e' at he
  rw [he.path, he.name, he.direction, he.span, hm.name]
  split
  · exact agree_throw _
  · exact agree_throw _
  · next first second deeper _ =>
    refine .ite (fun _ => agree_throw_bind _ _ _) fun _ => ?_
    refine .bind (agree_pathStart h hm he first) ?_
    rintro ⟨node, child⟩ _ p' q' ⟨rfl, h⟩
    -- what is left once the inner endpoint has its name
    have hrest : ∀ inner p q, AlikeBy V r p q → Agree (Same V r) (do
        let found ← innerEndpoint hoistChild child inner e
        Edit.modifyModule id fun m => { m with
          endpoints := m.endpoints.modify k fun e =>
            { e with details := some found.1, annotations := found.2, path := none } }
        Edit.modifyModule id (·.addConnection (forwarding e.direction e.name node inner e.span)))
        (do
        let found ← innerEndpoint hoistChild child inner e'
        Edit.modifyModule id fun m => { m with
          endpoints := m.endpoints.modify k fun e =>
            { e with details := some found.1, annotations := found.2, path := none } }
        Edit.modifyModule id
          (·.addConnection (forwarding e.direction e.name node inner e.span))) p q := by
      intro inner p q h
      refine .bind (agree_innerEndpoint h hchild child inner he) ?_
      rintro ⟨d, a⟩ ⟨d', a'⟩ p q ⟨hd, ha, h⟩
      cases hd
      -- filled in alike: details have no references to constants, and annotations are renamed
      have hresolve : AlikeBy V r
          (p.modifyModule id fun m => { m with endpoints := m.endpoints.modify k fun e =>
            { e with details := some d, annotations := a, path := none } })
          (q.modifyModule id fun m => { m with endpoints := m.endpoints.modify k fun e =>
            { e with details := some d, annotations := a', path := none } }) :=
        h.modifyModule id fun _ _ hm => { hm with
          endpoints := Arena.rename_modify hm.endpoints (fun x y hx => by
            have hx := Endpoint.rename_eq_some_iff.mp hx
            refine Endpoint.rename_eq_some_iff.mpr { hx with
              details := ?_
              annotations := ha
              path := rfl }
            rw [h.detailsRename, optionMapM_some]) k }
      refine .bind (agree_modifyModule (R := Same V r) ⟨rfl, hresolve⟩) ?_
      rintro _ _ p q ⟨-, h⟩
      refine agree_modifyModule ⟨rfl, ?_⟩
      exact h.modifyModule id fun _ _ hm => { hm with
        connections := congrArg (Arena.push · _) hm.connections }
    refine .ite (fun _ => .bind (agree_pure (R := Same V r) ⟨rfl, h⟩) ?_)
      fun _ => .bind (agree_addIntermediate h child first.name he _ _) ?_
    all_goals
      rintro inner _ p q ⟨rfl, h⟩
      exact hrest inner p q h

/-- The endpoints of a module are resolved alike, one after the other. -/
theorem agree_hoistEach {hoistChild : ModuleId → Edit Unit} (hchild : AgreesOn V r hoistChild)
    (id : ModuleId) (n : Nat) :
    Agree (Same V r) (hoistEach hoistChild id n) (hoistEach hoistChild id n) p q := by
  induction n generalizing p q with
  | zero => exact agree_pure ⟨rfl, h⟩
  | succ n ih =>
      unfold hoistEach
      refine .program_bind ?_
      have hfind : (q.moduleAt id).endpoints.find? Endpoint.isUnresolved =
          (p.moduleAt id).endpoints.find? Endpoint.isUnresolved :=
        Arena.find?_of_rename (h.moduleAt id).endpoints fun e e' he => by
          rw [h.endpoint_eq (Endpoint.rename_eq_some_iff.mp he)]
          rfl
      rw [hfind]
      split
      · exact agree_pure ⟨rfl, h⟩
      · refine .bind (agree_hoistEndpoint h hchild id _) ?_
        rintro _ _ p q ⟨-, h⟩
        refine .bind (ih h) ?_
        rintro _ _ p q ⟨-, h⟩
        exact agree_pure ⟨rfl, h⟩

/-- The endpoints of a module are resolved alike at every depth, by induction on the fuel. -/
theorem agree_hoistModule (n : Nat) (stack : List ModuleId) (id : ModuleId) :
    Agree (Same V r) (hoistModule n stack id) (hoistModule n stack id) p q := by
  induction n generalizing p q stack id with
  | zero =>
      unfold hoistModule
      refine .program_bind ?_
      rw [recursiveGraph_alike h.alike]
      exact agree_throw _
  | succ n ih =>
      unfold hoistModule
      refine .ite (fun _ => .program_bind ?_) fun _ => .program_bind ?_
      · rw [recursiveGraph_alike h.alike]
        exact agree_throw_bind _ _ _
      · rw [Arena.size_of_rename (h.moduleAt id).endpoints]
        refine agree_hoistEach h (fun child p q h => ?_) id _
        refine .bind (ih h _ child) ?_
        rintro _ _ p q ⟨-, h⟩
        exact agree_pure ⟨rfl, h⟩

/-- Resolving the endpoints of a module does the same to alike programs. -/
theorem agree_hoistEndpoints (id : ModuleId) :
    Agree (Same V r) (hoistEndpoints id) (hoistEndpoints id) p q := by
  refine .program_bind ?_
  rw [h.alike.size]
  exact agree_hoistModule h _ _ _

/-! ## Exposing -/

/-- An exposed endpoint is taken over alike. -/
theorem agree_mergeExposed (graph : ModuleId) (node : NodeId) {e e' : Endpoint}
    (he : e.Renames r e') :
    Agree (Same V r) (mergeExposed graph node e) (mergeExposed graph node e') p q := by
  have hm := h.moduleAt graph
  have hsame := h.endpoint_eq he
  unfold mergeExposed
  rw [hsame]
  dsimp only
  cases hdetails : e.details with
  | none => exact agree_pure ⟨rfl, h⟩
  | some incoming =>
      refine .program_bind ?_
      rw [hm.findEndpoint?]
      split
      -- no endpoint of that name: it is added on both sides
      · refine .bind (agree_modifyModule (R := Same V r) ⟨rfl, addEndpoint_alike h graph ?_⟩) ?_
        · rw [← hdetails]
          rw [hsame] at he
          exact { he with path := rfl, exposed := rfl }
        · rintro _ _ p q ⟨-, h⟩
          exact agree_pure ⟨rfl, h⟩
      · next k _ =>
        -- there is one: the same types are missing on both sides, and the same clash is reported
        have hown := hm.endpoint k
        generalize (p.moduleAt graph).endpoints.get k = own at hown
        generalize (q.moduleAt graph).endpoints.get k = own' at hown
        have hown := h.endpoint_eq hown
        have hclash : exposureClash q graph node { e with annotations := e'.annotations } incoming
            own' = exposureClash p graph node e incoming own := by
          rw [hown]
          simp only [exposureClash, (hm.node node).name, Check.describeTypes_alike h.alike]
        have hmissing : missingTypes? own' { e with annotations := e'.annotations } incoming =
            missingTypes? own e incoming := by
          rw [hown]
          rfl
        rw [← hdetails, hmissing, hclash]
        split
        · exact agree_throw _
        · exact agree_pure ⟨rfl, h⟩
        · next missing _ _ =>
          refine .bind (agree_modifyModule (R := Same V r)
            ⟨rfl, h.modifyModule graph (fun m m' hm => ?_)⟩) ?_
          · refine { hm with endpoints := Arena.rename_modify hm.endpoints (fun x y hx => ?_) k }
            have hx := Endpoint.rename_eq_some_iff.mp hx
            refine Endpoint.rename_eq_some_iff.mpr { hx with details := ?_ }
            have hsame := hx.details
            rw [h.detailsRename, optionMapM_some] at hsame ⊢
            rw [Option.some.inj hsame]
          · rintro _ _ p q ⟨-, h⟩
            exact agree_pure ⟨rfl, h⟩

/-- The exposed endpoints of one node are taken over alike, one after the other. -/
theorem agree_exposeEndpoints (graph : ModuleId) (node : NodeId) {es es' : List Endpoint}
    (hes : List.Forall₂ (Endpoint.Renames r) es es') :
    Agree (Same V r) (exposeEndpoints graph node es) (exposeEndpoints graph node es') p q := by
  induction hes generalizing p q with
  | nil => exact agree_pure ⟨rfl, h⟩
  | @cons e e' es es' he _ ih =>
      unfold exposeEndpoints
      refine .program_bind ?_
      rw [((h.moduleAt graph).node node).arraySize, he.span, he.direction, he.name]
      refine .ite (fun _ => agree_throw_bind _ _ _) fun _ => ?_
      refine .bind (agree_mergeExposed h graph node he) ?_
      rintro changed _ p q ⟨rfl, h⟩
      have hconnect : AlikeBy V r
          (p.modifyModule graph fun m =>
            if m.hasConnection (forwarding e.direction e.name node e.name e.span) then m
            else m.addConnection (forwarding e.direction e.name node e.name e.span))
          (q.modifyModule graph fun m =>
            if m.hasConnection (forwarding e.direction e.name node e.name e.span) then m
            else m.addConnection (forwarding e.direction e.name node e.name e.span)) := by
        refine h.modifyModule graph fun m m' hm => ?_
        rw [hm.hasConnection]
        split
        · exact hm
        · exact { hm with connections := congrArg (Arena.push · _) hm.connections }
      refine .bind (agree_modifyModule (R := Same V r) ⟨rfl, hconnect⟩) ?_
      rintro _ _ p q ⟨-, h⟩
      refine .bind (ih h) ?_
      rintro more _ p q ⟨rfl, h⟩
      exact agree_pure ⟨rfl, h⟩

/-- The nodes of a graph are gone through alike. -/
theorem agree_exposeNodes (graph : ModuleId) (nodes : List NodeId) :
    Agree (Same V r) (exposeNodes graph nodes) (exposeNodes graph nodes) p q := by
  induction nodes generalizing p q with
  | nil => exact agree_pure ⟨rfl, h⟩
  | cons node nodes ih =>
      have hm := h.moduleAt graph
      unfold exposeNodes
      refine .program_bind ?_
      dsimp only
      rw [(hm.node node).source, hm.span, h.alike.findModule?]
      refine .bind (agree_require (R := fun c c' p' q' => c = c' ∧ p' = p ∧ q' = q)
        fun d _ => ⟨rfl, rfl, rfl⟩) ?_
      rintro child _ _ _ ⟨rfl, rfl, rfl⟩
      have hflagged := filter_of_forall₂ (Arena.entries_of_rename (h.moduleAt child).endpoints)
        (u := fun x : EndpointId × Endpoint => x.2.exposed && !x.2.isUnresolved)
        (v := fun x : EndpointId × Endpoint => x.2.exposed && !x.2.isUnresolved)
        fun x y hxy => by
          rw [h.endpoint_eq (Endpoint.rename_eq_some_iff.mp hxy.2)]
          rfl
      have hplaces := map_eq_of_forall₂ hflagged (u := fun x => (child, x.1))
        (v := fun x => (child, x.1)) fun x y hxy => by rw [hxy.1]
      rw [hplaces]
      refine .bind (agree_exposeEndpoints h graph node ?_) ?_
      · rw [List.forall₂_map_left_iff, List.forall₂_map_right_iff]
        exact hflagged.imp fun x y hxy => Endpoint.rename_eq_some_iff.mp hxy.2
      · rintro changed _ p q ⟨rfl, h⟩
        refine .bind (ih h) ?_
        rintro ⟨more, passed⟩ _ p q ⟨rfl, h⟩
        exact agree_pure ⟨rfl, h⟩

/-- A graph takes over what its nodes expose alike. -/
theorem agree_exposeChildren (graph : ModuleId) :
    Agree (Same V r) (exposeChildren graph) (exposeChildren graph) p q := by
  refine .program_bind ?_
  rw [(h.moduleAt graph).nodeHandles]
  exact agree_exposeNodes h graph _

/-! ## Linking -/

/-- One turn of a graph does the same to alike programs. -/
theorem agree_linkGraph (graph : ModuleId) :
    Agree (Same V r) (linkGraph graph) (linkGraph graph) p q := by
  refine .bind (agree_hoistEndpoints h graph) ?_
  rintro hoisted _ p q ⟨rfl, h⟩
  refine .bind (agree_exposeChildren h graph) ?_
  rintro ⟨exposed, passed⟩ _ p q ⟨rfl, h⟩
  exact agree_pure ⟨rfl, h⟩

/-- The turns go on alike, by induction on their number. -/
theorem agree_linkQueue (limit n : Nat) (queue : List ModuleId) :
    Agree (Same V r) (linkQueue limit n queue) (linkQueue limit n queue) p q := by
  induction n generalizing p q queue with
  | zero =>
      cases queue with
      | nil => exact agree_pure ⟨rfl, h⟩
      | cons graph queue => exact agree_throw _
  | succ n ih =>
      cases queue with
      | nil => exact agree_pure ⟨rfl, h⟩
      | cons graph queue =>
          unfold linkQueue
          refine .bind (agree_linkGraph h graph) ?_
          rintro ⟨changed, passed⟩ _ p q ⟨rfl, h⟩
          refine .program_bind ?_
          rw [(h.moduleAt graph).name]
          simp only [instantiatingGraphs_alike h.alike]
          refine .bind (ih h _) ?_
          rintro more _ p q ⟨rfl, h⟩
          exact agree_pure ⟨rfl, h⟩

/-- Marks are cleared alike. -/
theorem agree_forM_clearExposed (places : List EndpointPlace) :
    Agree (Same V r) (places.forM clearExposed) (places.forM clearExposed) p q := by
  induction places generalizing p q with
  | nil => exact agree_pure ⟨rfl, h⟩
  | cons place places ih =>
      rw [List.forM_eq_forM, List.forM_cons]
      refine .bind (agree_modifyModule (R := Same V r) ⟨rfl, ?_⟩) ?_
      · exact h.modifyModule place.1 fun _ _ hm => { hm with
          endpoints := Arena.rename_modify (f := fun e : Endpoint => { e with exposed := false })
            (g := fun e : Endpoint => { e with exposed := false }) hm.endpoints (fun e e' he =>
              Endpoint.rename_eq_some_iff.mpr
                { Endpoint.rename_eq_some_iff.mp he with exposed := rfl }) place.2 }
      · rintro _ _ p q ⟨-, h⟩
        exact ih h

/-- Linking does the same to alike programs. -/
theorem agree_linkEndpoints : Agree (Same V r) linkEndpoints linkEndpoints p q := by
  unfold linkEndpoints
  refine .program_bind ?_
  rw [checkGraphRecursion_alike h.alike, roundLimit_alike h.alike, h.alike.graphs]
  split
  · exact agree_throw _
  · refine .bind (agree_linkQueue h _ _ _) ?_
    rintro places _ p q ⟨rfl, h⟩
    exact agree_forM_clearExposed h places

end

end Link

end SignalGraph

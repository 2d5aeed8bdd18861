import SignalGraph.Proofs.Link.Changes
import SignalGraph.Proofs.Link.Rerouting
import SignalGraph.Proofs.Program.CopiedConstants

/-!
# SignalGraph.Proofs.Link.Intactness

Linking and specialising keep programs intact, whether or not they succeed.

* Linking is a sequence of changes of single modules, each of which does (`Change.intact`).
* Specialising is a sequence of two kinds of steps (`SpecialisingStep`): it makes copies, which
  never fails in an intact program, and points nodes to them.
-/

namespace SignalGraph

open Program

/-- All endpoints of a well-formed program mention what is there. -/
theorem Program.WellFormed.endpoint {p : Program} (h : p.WellFormed) {id : ModuleId}
    {k : EndpointId} {e : Endpoint} (he : (p.moduleAt id).endpoints.get? k = some e) :
    e.rename p.inRange = some e := by
  have hid : id ∈ p.modules.handles := by
    by_contra hid
    have hnone : p.modules.get? id = none :=
      Arena.get?_eq_none_iff.mpr (Nat.not_lt.mp fun hlt => hid (Arena.mem_handles_iff.mpr hlt))
    rw [Program.moduleAt, Arena.get, hnone] at he
    cases he
  exact eq_some_of_mapM_self (Arena.rename_eq_some_iff.mp (h.moduleAt hid).endpoints)
    (Arena.mem_toList_iff.mpr ⟨k, he⟩)

namespace Link

variable {p q : Program} {id : ModuleId}

/-- A change of linking to a module refers to nothing that is not there. -/
theorem ModuleChange.adds (hp : p.WellFormed) (hid : id ∈ p.modules.handles) {f : Module → Module}
    (h : ModuleChange p id f) : p.Adds (p.modifyModule id f) [] := by
  -- modified endpoints are in range if what replaces them is
  have hmodify : ∀ (k : EndpointId) (g : Endpoint → Endpoint),
      (∀ e, (p.moduleAt id).endpoints.get? k = some e → (g e).rename p.inRange = some (g e)) →
      p.Adds (p.modifyModule id fun m => { m with endpoints := m.endpoints.modify k g }) [] := by
    intro k g hg
    refine adds_editModule hp hid rfl rfl rfl rfl (hp.moduleAt hid).annotations (fun x hx => ?_)
      (fun n hn => .inl hn) (hp.wired hid)
    refine (Arena.mem_toList_modify hx).imp_right fun h => ?_
    rw [h.2]
    exact hg _ (Arena.get?_eq_some_get (Arena.mem_handles_iff.mp h.1))
  cases h with
  | @relay e _ unresolved bare _ =>
      refine adds_addEndpoint hp hid
        (Endpoint.rename_eq_some_iff.mpr ⟨rfl, rfl, ?_, ?_, rfl, rfl, rfl⟩)
      · rw [unresolved]
        rfl
      · rw [bare]
        rfl
  | @resolve k e child k' x d own unresolved inner details =>
      have hx := Endpoint.rename_eq_some_iff.mp (hp.endpoint inner)
      refine hmodify k _ fun e _ => Endpoint.rename_eq_some_iff.mpr { hx with
        name := rfl, direction := rfl, details := ?_, path := rfl, exposed := rfl, span := rfl }
      have hdetails := hx.details
      rw [details] at hdetails
      exact hdetails
  | connect inRange direction own inner span =>
      refine adds_addConnection hp hid fun r hr n hn => ?_
      cases direction <;> simp [forwarding] at hr <;> rcases hr with rfl | rfl <;> cases hn <;>
        exact inRange
  | offer inner =>
      have hx := Endpoint.rename_eq_some_iff.mp (hp.endpoint inner)
      exact adds_addEndpoint hp hid
        (Endpoint.rename_eq_some_iff.mpr { hx with path := rfl, exposed := rfl })
  | @extend k e d child k' x d' own details event inner marked name details' kind =>
      refine hmodify k _ fun e' he' => ?_
      cases own.symm.trans he'
      have he := Endpoint.rename_eq_some_iff.mp (hp.endpoint own)
      have hx := Endpoint.rename_eq_some_iff.mp (hp.endpoint inner)
      refine Endpoint.rename_eq_some_iff.mpr { he with details := ?_ }
      have hown := he.details
      have hinner := hx.details
      rw [details] at hown
      rw [details'] at hinner
      rw [EndpointDetails.mapM_rename_iff] at hown hinner
      rw [extendTypes, details]
      refine EndpointDetails.mapM_rename_iff.mpr fun t ht => ?_
      rcases List.mem_append.mp ht with ht | ht
      · exact hown t ht
      · exact hinner t (List.mem_of_mem_filter ht)
  | clear k =>
      refine hmodify k _ fun e he => ?_
      have he := Endpoint.rename_eq_some_iff.mp (hp.endpoint he)
      exact Endpoint.rename_eq_some_iff.mpr { he with exposed := rfl }

/-- A step of linking keeps a program intact. -/
theorem Change.intact (h : Change p q) (hp : p.Intact) : q.Intact := by
  obtain ⟨id, f, hf, rfl⟩ := h
  by_cases hid : id ∈ p.modules.handles
  · exact hp.adds (hf.adds hp.wellFormed hid)
  · rw [modifyModule_of_not_mem hid]
    exact hp

/-- Linking keeps a program intact in every outcome. -/
theorem intact_linkEndpoints (hp : p.Intact) : (linkEndpoints.apply p).2.Intact :=
  (linkEndpoints_moves p).keeps (fun _ _ h => h.intact) hp

/-! ## Specialising -/

/-- The values that are bound are as sound as those that were there. -/
theorem bindAll_constants {l : List (VariableId × Value)} (hl : ∀ x ∈ l, SoundValue p x.2)
    (hp : ∀ v ∈ p.constants.toList, SoundValue p v) :
    ∀ v ∈ (bindAll l p).constants.toList, SoundValue (bindAll l p) v := by
  induction l generalizing p with
  | nil => exact hp
  | cons x l ih =>
      -- binding changes neither structs nor texts
      refine ih (fun y hy => hl y (List.mem_cons_of_mem _ hy)) fun v hv => ?_
      rcases Interner.mem_toList_intern hv with hv | rfl
      · exact hp v hv
      · exact hl x List.mem_cons_self

/-- A copy can be made for the key. -/
structure KeySound (p : Program) (key : SpecialisationKey) : Prop where
  source : key.source ∈ p.modules.handles
  length : (p.moduleAt key.source).parameters.length = key.values.length
  values : ∀ value ∈ key.values, SoundValue p value

/-- The values of a key are those of constants, or casts of them, so they are sound. -/
theorem keySound_of_specialisationKey {n : Node} (hargs : ∀ c ∈ n.args, p.sound c = some c)
    {key : SpecialisationKey} (hkey : specialisationKey p n = .ok key) : KeySound p key := by
  obtain ⟨hfind, hlength, hvalues⟩ := specialisationKey_eq_ok_iff.mp hkey
  obtain ⟨m, hm, -⟩ := Arena.find?_eq_some_iff.mp hfind
  refine ⟨Arena.mem_handles_iff.mpr (Arena.lt_size_of_get? hm), ?_, fun value hvalue => ?_⟩
  · rw [← hvalues.length_eq, List.length_zip, hlength, Nat.min_self]
  · obtain ⟨x, hx, hbound⟩ := exists_of_forall₂ hvalues.flip hvalue
    exact boundValue_sound hbound (hargs _ (List.of_mem_zip hx).2)

/-- The copy for a key keeps a program intact. -/
theorem intact_specialisedCopy (hp : p.Intact) {key : SpecialisationKey}
    (hkey : KeySound p key) : ((specialisedCopy key).apply p).2.Intact := by
  obtain ⟨r, q, hrun, hmade⟩ :=
    specialisedCopy_makes hp.wellFormed hkey.source hkey.length hkey.values
  rw [hrun]
  refine ⟨hmade.wellFormed, ?_⟩
  obtain ⟨p', hcopy, hbind⟩ := specialisedCopy_eq_ok.mp hrun
  obtain ⟨p'', hcopy', hc⟩ := hp.wellFormed.specialiseModule_copied hkey.source
    (specialisedName p (p.moduleAt key.source).name)
  cases hcopy.symm.trans hcopy'
  rw [apply_bindParameters] at hbind
  cases hbind
  refine bindAll_constants (fun x hx => ?_) (specialiseModule_constants hp.constants hcopy)
  refine (hkey.values x.2 (List.of_mem_zip hx).2).mono ?_ hc.tables.texts
  rw [hc.structs.size]
  exact Nat.le_add_right _ _

/-- The arguments of every node are constants that mention what is there. -/
theorem node_args_sound (hp : p.WellFormed) (graph : ModuleId) (k : NodeId) :
    ∀ c ∈ ((p.moduleAt graph).nodes.get k).args, p.sound c = some c := by
  intro c hc
  cases hn : (p.moduleAt graph).nodes.get? k with
  | none =>
      rw [Arena.get, hn] at hc
      cases hc
  | some n =>
      rw [Arena.get_eq_of_get? hn] at hc
      by_cases hgraph : graph ∈ p.modules.handles
      · exact args_sound hp hgraph hn c hc
      · have hnone : p.modules.get? graph = none :=
          Arena.get?_eq_none_iff.mpr (Nat.not_lt.mp fun h => hgraph (Arena.mem_handles_iff.mpr h))
        rw [moduleAt, Arena.get, hnone] at hn
        cases hn

/-- A node that is pointed to a copy has no arguments left. -/
def pointed (p : Program) (graph : ModuleId) (k : NodeId) (source : String) : Program :=
  p.modifyModule graph fun m =>
    { m with nodes := m.nodes.modify k fun n => { n with source, args := [] } }

/-- A node that is pointed to a copy brings no references with it. -/
theorem adds_pointed (hp : p.WellFormed) {graph : ModuleId} (hgraph : graph ∈ p.modules.handles)
    (k : NodeId) (source : String) : p.Adds (pointed p graph k source) [] := by
  refine adds_editModule hp hgraph rfl rfl rfl rfl (hp.moduleAt hgraph).annotations
    (fun e he => .inl he) (fun n hn => ?_) fun w hw r hr n hn => ?_
  · refine (Arena.mem_toList_modify hn).imp_right fun h => ?_
    rw [h.2]
    exact Node.rename_of_args_nil rfl
  · rw [Arena.size_modify]
    exact hp.nodes _ (Arena.get_mem_toList hgraph) w hw r hr n hn

/-- The steps of specialising: a copy is made for the key of a node, and a node is pointed to a
copy. -/
inductive SpecialisingStep (p : Program) : Program → Prop
  | copy {graph : ModuleId} {k : NodeId} {key : SpecialisationKey}
    (hkey : specialisationKey p ((p.moduleAt graph).nodes.get k) = .ok key) :
    SpecialisingStep p ((specialisedCopy key).apply p).2
  | point (graph : ModuleId) (k : NodeId) (source : String) :
    SpecialisingStep p (pointed p graph k source)

/-- A step of specialising keeps a program intact. -/
theorem SpecialisingStep.intact (h : SpecialisingStep p q) (hp : p.Intact) : q.Intact := by
  cases h with
  | @copy graph k key hkey =>
      have hargs := node_args_sound hp.wellFormed graph k
      exact intact_specialisedCopy hp (keySound_of_specialisationKey hargs hkey)
  | point graph k source =>
      by_cases hgraph : graph ∈ p.modules.handles
      · exact hp.adds (adds_pointed hp.wellFormed hgraph k source)
      · rw [pointed, modifyModule_of_not_mem hgraph]
        exact hp

variable {settings : Settings}

/-- Finding the copy for a node is at most one step of specialising. -/
theorem copyFor_moves (graph : ModuleId) (k : NodeId) (made : Specialisations) :
    Edit.Moves SpecialisingStep (copyFor settings ((p.moduleAt graph).nodes.get k) made) p := by
  unfold copyFor
  refine .program_bind ?_
  cases hkey : specialisationKey p ((p.moduleAt graph).nodes.get k) with
  | error d => exact Edit.moves_throw d
  | ok key =>
      dsimp only
      split
      · exact Edit.moves_pure _
      · refine .ite (fun _ => Edit.moves_throw _) fun _ => ?_
        exact .bind (.single (.copy hkey)) fun _ _ _ => Edit.moves_pure _

/-- The nodes of a graph are specialised in steps. -/
theorem specialiseNodes_moves (graph : ModuleId) (ids : List NodeId) (made : Specialisations)
    (p : Program) : Edit.Moves SpecialisingStep (specialiseNodes settings graph ids made) p := by
  induction ids generalizing made p with
  | nil => exact Edit.moves_pure _
  | cons k ids ih =>
      unfold specialiseNodes
      refine .program_bind (.bind (copyFor_moves graph k made) fun x q _ => .program_bind ?_)
      exact .bind (Edit.moves_modifyModule (.point graph k _)) fun _ r _ => ih _ r

/-- All graphs are specialised in steps, by induction on the bound on the modules visited. -/
theorem specialiseFrom_moves (fuel : Nat) (id : ModuleId) (made : Specialisations) (p : Program) :
    Edit.Moves SpecialisingStep (specialiseFrom settings fuel id made) p := by
  induction fuel generalizing id made p with
  | zero => exact Edit.moves_pure _
  | succ fuel ih =>
      unfold specialiseFrom
      refine .program_bind ?_
      split
      · exact Edit.moves_pure _
      · exact .bind (specialiseNodes_moves id _ made p) fun made q _ => ih _ made q

/-- Specialising is made of the steps listed, also when it fails. -/
theorem specialiseInstances_moves (settings : Settings) (p : Program) :
    Edit.Moves SpecialisingStep (specialiseInstances settings) p :=
  .program_bind (specialiseFrom_moves _ _ _ p)

/-- Specialising keeps a program intact in every outcome. -/
theorem intact_specialiseInstances (hp : p.Intact) (settings : Settings) :
    ((specialiseInstances settings).apply p).2.Intact :=
  (specialiseInstances_moves settings p).keeps (fun _ _ h => h.intact) hp

end Link

end SignalGraph

import SignalGraph.Proofs.Link.Wiring

/-!
# SignalGraph.Proofs.Link.Forwarding

What an endpoint that was declared by a path has in common with the endpoint that it forwards to
once linking is done.  It took over the details of that endpoint, and kinds, array sizes and
annotations stay the same on both.  The types of events may still grow afterwards, on each of the
two alone.

That happens only where endpoints are marked for exposure: an endpoint gets further types from a
marked one of its own name, and linking marks no names that were not marked (`Change.markedName`).
So the two go on to have the same details where neither name is marked
(`linkEndpoints_takesOver`).
-/

namespace SignalGraph.Link

/-! ## Marked names -/

/-- Some endpoint of that name is marked for exposure. -/
def MarkedName (p : Program) (name : String) : Prop :=
  ∃ m ∈ p.modules.toList, ∃ e ∈ m.endpoints.toList, e.exposed ∧ e.name = name

instance (p : Program) (name : String) : Decidable (MarkedName p name) :=
  inferInstanceAs (Decidable (∃ m ∈ p.modules.toList, ∃ e ∈ m.endpoints.toList, _))

/-- A name is marked if an endpoint under some handle says so. -/
theorem markedName_iff {p : Program} {name : String} : MarkedName p name ↔
    ∃ id k e, (p.moduleAt id).endpoints.get? k = some e ∧ e.exposed ∧ e.name = name := by
  constructor
  · rintro ⟨m, hm, e, he, hmarked⟩
    obtain ⟨id, hid⟩ := Arena.mem_toList_iff.mp hm
    obtain ⟨k, hk⟩ := Arena.mem_toList_iff.mp he
    refine ⟨id, k, e, ?_, hmarked⟩
    rw [Program.moduleAt, Arena.get_eq_of_get? hid]
    exact hk
  · rintro ⟨id, k, e, he, hmarked⟩
    have hlt : id.idx < p.modules.size := Program.lt_size_of_endpoint he
    exact ⟨p.moduleAt id, Arena.mem_toList_iff.mpr ⟨id, Arena.get?_eq_some_get hlt⟩, e,
      Arena.mem_toList_iff.mpr ⟨k, he⟩, hmarked⟩

variable {p q : Program} {id : ModuleId} {k : EndpointId}

/-- A name is marked only if it was. -/
theorem Change.markedName (h : Change p q) {name : String} (hq : MarkedName q name) :
    MarkedName p name := by
  obtain ⟨j, f, hf, rfl⟩ := h
  obtain ⟨id, k, e, he, hmarked, rfl⟩ := markedName_iff.mp hq
  rw [Program.moduleAt_modifyModule] at he
  split at he
  · next heq =>
    obtain ⟨rfl, -⟩ := heq
    -- endpoints are added or modified; a mark on one of them was there before
    have hadd : ∀ x : Endpoint, ((p.moduleAt j).addEndpoint x).endpoints.get? k = some e →
        (x.exposed → MarkedName p x.name) → MarkedName p e.name := by
      intro x hx hname
      rw [Module.addEndpoint, Arena.get?_push] at hx
      split at hx
      · cases hx
        exact hname hmarked
      · exact markedName_iff.mpr ⟨j, k, e, hx, hmarked, rfl⟩
    have hmodify : ∀ (h : EndpointId) (g : Endpoint → Endpoint),
        ((p.moduleAt j).endpoints.modify h g).get? k = some e →
        (∀ x, (g x).name = x.name ∧ ((g x).exposed → x.exposed)) → MarkedName p e.name := by
      intro h g hx hg
      rw [Arena.get?_modify] at hx
      split at hx
      · obtain ⟨x, hget, rfl⟩ := Option.map_eq_some_iff.mp hx
        exact markedName_iff.mpr ⟨j, k, x, hget, (hg x).2 hmarked, (hg x).1.symm⟩
      · exact markedName_iff.mpr ⟨j, k, e, hx, hmarked, rfl⟩
    cases hf with
    | relay _ _ _ unmarked => exact hadd _ he fun hx => by simp [unmarked] at hx
    | resolve => exact hmodify _ _ he fun x => ⟨rfl, fun hx => hx⟩
    | connect => exact markedName_iff.mpr ⟨j, k, e, he, hmarked, rfl⟩
    | offer inner marked =>
        exact hadd _ he fun _ => markedName_iff.mpr ⟨_, _, _, inner, marked, rfl⟩
    | extend => exact hmodify _ _ he fun x => ⟨rfl, fun hx => hx⟩
    | clear => exact hmodify _ _ he fun x => ⟨rfl, fun hx => by cases hx⟩
  · exact markedName_iff.mpr ⟨id, k, e, he, hmarked, rfl⟩

/-- Linking marks no further names. -/
theorem Changes.markedName (h : Changes p q) {name : String} (hq : MarkedName q name) :
    MarkedName p name := by
  induction h with
  | refl => exact hq
  | tail _ hstep ih => exact ih (hstep.markedName hq)

/-- Only endpoints of marked names get further types. -/
theorem Change.details_of_unmarked (h : Change p q) {e : Endpoint} {d : EndpointDetails}
    (he : (p.moduleAt id).endpoints.get? k = some e) (hd : e.details = some d)
    (hname : ¬ MarkedName p e.name) :
    ∃ e', (q.moduleAt id).endpoints.get? k = some e' ∧ e'.name = e.name ∧ e'.details = some d := by
  obtain ⟨j, f, hf, rfl⟩ := h
  rw [Program.moduleAt_modifyModule]
  split
  · next heq =>
    obtain ⟨rfl, -⟩ := heq
    -- a modified endpoint keeps its details unless it is the one that is filled in or extended
    have hmodify : ∀ (h : EndpointId) (g : Endpoint → Endpoint), (h = k → (g e).name = e.name ∧
        (g e).details = some d) → ∃ e', ((p.moduleAt j).endpoints.modify h g).get? k = some e' ∧
          e'.name = e.name ∧ e'.details = some d := by
      intro h g hg
      by_cases hk : h = k
      · subst hk
        exact ⟨g e, by rw [Arena.get?_modify_self, he]; rfl, hg rfl⟩
      · exact ⟨e, by rw [Arena.get?_modify, if_neg hk, he], rfl, hd⟩
    cases hf with
    | relay => exact ⟨e, Arena.get?_push_of_get? _ he, rfl, hd⟩
    | resolve own unresolved =>
        refine hmodify _ _ ?_
        rintro rfl
        cases he.symm.trans own
        cases hd.symm.trans unresolved
    | connect => exact ⟨e, he, rfl, hd⟩
    | offer => exact ⟨e, Arena.get?_push_of_get? _ he, rfl, hd⟩
    | extend own _ _ inner marked name =>
        refine hmodify _ _ ?_
        rintro rfl
        cases he.symm.trans own
        exact absurd (markedName_iff.mpr ⟨_, _, _, inner, marked, name.symm⟩) hname
    | clear => exact hmodify _ _ fun _ => ⟨rfl, hd⟩
  · exact ⟨e, he, rfl, hd⟩

/-- An endpoint whose name is not marked keeps its details. -/
theorem Changes.details_of_unmarked (h : Changes p q) {e : Endpoint} {d : EndpointDetails}
    (he : (p.moduleAt id).endpoints.get? k = some e) (hd : e.details = some d)
    (hname : ¬ MarkedName p e.name) :
    ∃ e', (q.moduleAt id).endpoints.get? k = some e' ∧ e'.name = e.name ∧ e'.details = some d := by
  induction h with
  | refl => exact ⟨e, he, rfl, hd⟩
  | @tail mid q hbefore hstep ih =>
      obtain ⟨x, hx, hxName, hxDetails⟩ := ih
      have hname' : ¬ MarkedName mid x.name := by
        rw [hxName]
        exact fun hmarked => hname (Changes.markedName hbefore hmarked)
      obtain ⟨y, hy, hyName, hyDetails⟩ := hstep.details_of_unmarked hx hxDetails hname'
      exact ⟨y, hy, hyName.trans hxName, hyDetails⟩

/-! ## Endpoints and what they forward to -/

/-- The first joint of a wire. -/
theorem Wire.head {joint : Joint} {path : List PathSegment} (h : Wire joint id k path) :
    ∃ first second deeper child k' inner, path = first :: second :: deeper ∧
      joint id k first.name child k' inner ∧ (deeper = [] → inner = second.name) := by
  cases h with
  | last hjoint => exact ⟨_, _, _, _, _, _, rfl, hjoint, fun _ => rfl⟩
  | step hjoint => exact ⟨_, _, _, _, _, _, rfl, hjoint, nofun⟩

/-- An endpoint that was declared by a path has taken over the details of the endpoint `x` of the
node at the start of the path that it is connected to.  Of these the two still share all but types
that were added later, to events only and only under a marked name; so the two have the same details
unless they are events and one of the two names was marked. -/
theorem linkEndpoints_takesOver {p p' : Program} (h : linkEndpoints.apply p = (.ok (), p'))
    {id : ModuleId} {k : EndpointId} {e e' : Endpoint}
    (he : (p.moduleAt id).endpoints.get? k = some e) (hunresolved : e.details = none)
    (he' : (p'.moduleAt id).endpoints.get? k = some e') :
    (id ∈ p.graphs → e'.details.isSome) ∧
    (e'.details.isSome → ∃ first second deeper node child k' x span d,
      e.path = some (first :: second :: deeper) ∧
      (p'.moduleAt id).findNode? first.name = some node ∧
      p'.findModule? ((p'.moduleAt id).nodes.get node).source = some child ∧
      (p'.moduleAt child).endpoints.get? k' = some x ∧ (deeper = [] → x.name = second.name) ∧
      x.direction = e'.direction ∧
      forwarding e'.direction e'.name node x.name span ∈ (p'.moduleAt id).connections.toList ∧
      Shares d e' x ∧
      (¬ MarkedName p e'.name → e'.details = some d) ∧
      (¬ MarkedName p x.name → x.details = some d) ∧
      (d.kind ≠ .event ∨ ¬ MarkedName p e'.name ∧ ¬ MarkedName p x.name →
        e'.details = x.details)) := by
  obtain ⟨hcheck, ts, q, hturns, -, rfl⟩ := linkEndpoints_eq_ok_iff.mp h
  generalize ts.flatMap (·.passed) = places at he' ⊢
  rw [get?_endpoints_unmark] at he'
  obtain ⟨e₁, he₁, rfl⟩ := Option.map_eq_some_iff.mp he'
  refine ⟨fun hgraph => ?_, fun hresolved => ?_⟩
  · rcases hturns.turn_of_mem hgraph with ⟨t, ht, rfl⟩ | hnil
    · exact hturns.resolved_of_turn ht k e₁ he₁
    · cases hnil
  · obtain ⟨mid, path, hbefore, hafter, -, hgrown, hpath, hwire⟩ :=
      hturns.wired hcheck (fun _ hid => hid) he hunresolved he₁ hresolved
    obtain ⟨first, second, deeper, child, k', inner, rfl, hjoint, hlast⟩ := hwire.head
    have hclear : Changes q (unmark places q) :=
      (forM_clearExposed_moves places q).of_apply (apply_forM_clearExposed places q)
    have hchanges : Changes mid (unmark places q) := hafter.trans hclear
    have hshape := hchanges.sameShape
    obtain ⟨node, own, x, span, hnode, -, hsource, hown, hx, rfl, hdirection, hcopies, hmem⟩ :=
      hjoint
    obtain ⟨own', x', hown', hx', ⟨d, hd, hd', hshares⟩, hownName, hownDirection, hxName,
      hxDirection⟩ := hcopies.unmark hgrown places hown hx
    rw [get?_endpoints_unmark, he₁] at hown'
    cases hown'
    -- an unmarked name kept its details through the rest of the run
    have hkept : ∀ {j i y y'}, (mid.moduleAt j).endpoints.get? i = some y → y.details = some d →
        ((unmark places q).moduleAt j).endpoints.get? i = some y' → y'.name = y.name →
        ¬ MarkedName p y'.name → y'.details = some d := by
      intro j i y y' hy hyDetails hy' hyName hunmarked
      rw [hyName] at hunmarked
      obtain ⟨z, hz, -, hzDetails⟩ := hchanges.details_of_unmarked hy hyDetails
        fun hmarked => hunmarked (Changes.markedName hbefore hmarked)
      cases hy'.symm.trans hz
      exact hzDetails
    have hownKept := hkept hown hd (by rw [get?_endpoints_unmark, he₁]; rfl) hownName
    have hxKept := hkept hx hd' hx' hxName
    refine ⟨first, second, deeper, node, child, k', x', span, d, hpath, ?_, ?_, hx', ?_, ?_, ?_,
      hshares, hownKept, hxKept, ?_⟩
    · rw [Module.findNode?, hshape.nodes]
      exact hnode
    · rw [hshape.findModule?, hshape.nodes]
      exact hsource
    · exact fun hnil => hxName.trans (hlast hnil)
    · rw [hxDirection, hdirection, hownDirection]
    · rw [hownDirection, hownName, hxName, connections_unmark]
      exact (hgrown.modules id).connections.subset hmem
    · intro hcase
      obtain ⟨-, -, more, more', hmore, hmore', hevent⟩ := hshares
      rcases hcase with hkind | ⟨hunmarked, hunmarked'⟩
      · obtain ⟨rfl, rfl⟩ := hevent hkind
        exact hmore.trans hmore'.symm
      · exact (hownKept hunmarked).trans (hxKept hunmarked').symm

/-- `out` of `Top` forwards to `log` of `Sub`, which gets a second type once it is `Sub`'s turn. -/
def late : Program where
  modules := ⟨#[
    graphOf "Top"
      [{ name := "out", direction := .output, path := some [⟨"c", none⟩, ⟨"log", none⟩] }]
      [("c", "Sub")],
    graphOf "Sub"
      [{ name := "log", direction := .output
         details := some { kind := .event, types := [.prim .int32] } }]
      [("p", "P")],
    sourceOf "P"
      { name := "log", direction := .output
        details := some { kind := .event, types := [.prim .float32] }, exposed := true }]⟩

theorem run_late : (linkEndpoints.apply late).1 = .ok () ∧
    ((linkEndpoints.apply late).2.moduleAt ⟨0⟩).endpoints.toList.map
      (fun e => (e.name, e.details)) = [("out", some { kind := .event, types := [.prim .int32] })] ∧
    ((linkEndpoints.apply late).2.moduleAt ⟨1⟩).endpoints.toList.map
      (fun e => (e.name, e.details)) =
        [("log", some { kind := .event, types := [.prim .int32, .prim .float32] })] ∧
    0 < ((linkEndpoints.apply late).2.moduleAt ⟨0⟩).endpoints.size ∧
    ¬ MarkedName late (((linkEndpoints.apply late).2.moduleAt ⟨0⟩).endpoints.get ⟨0⟩).name := by
  decide +kernel

/-- `late` is linked, and then `out` lacks the second type of `log`. -/
theorem linkEndpoints_late : (linkEndpoints.apply late).1 = .ok () ∧
    ((linkEndpoints.apply late).2.moduleAt ⟨0⟩).endpoints.toList.map
      (fun e => (e.name, e.details)) = [("out", some { kind := .event, types := [.prim .int32] })] ∧
    ((linkEndpoints.apply late).2.moduleAt ⟨1⟩).endpoints.toList.map
      (fun e => (e.name, e.details)) =
        [("log", some { kind := .event, types := [.prim .int32, .prim .float32] })] := by
  obtain ⟨hlink, hout, hlog, -⟩ := run_late
  exact ⟨hlink, hout, hlog⟩

theorem takesOver_late : ∃ child k' x d,
    ((linkEndpoints.apply late).2.moduleAt child).endpoints.get? k' = some x ∧ x.name = "log" ∧
    Shares d (((linkEndpoints.apply late).2.moduleAt ⟨0⟩).endpoints.get ⟨0⟩) x ∧
    (((linkEndpoints.apply late).2.moduleAt ⟨0⟩).endpoints.get ⟨0⟩).details = some d := by
  obtain ⟨hlink, -, -, hlt, hunmarked⟩ := run_late
  have he : (late.moduleAt ⟨0⟩).endpoints.get? ⟨0⟩ = some _ := rfl
  obtain ⟨hresolved, hforward⟩ :=
    linkEndpoints_takesOver (Prod.ext hlink rfl) he rfl (Arena.get?_eq_some_get hlt)
  obtain ⟨first, second, deeper, node, child, k', x, span, d, hpath, -, -, hx, hname, -, -, hshares,
    hkept, -⟩ := hforward (hresolved (by decide))
  cases hpath
  exact ⟨child, k', x, d, hx, hname rfl, hshares, hkept hunmarked⟩

end SignalGraph.Link

import SignalGraph.Link.Endpoints
import SignalGraph.Proofs.Program.Edit
import SignalGraph.Proofs.Program.Places

/-!
# SignalGraph.Proofs.Link.Failures

How linking fails, and where.  Hoisting and exposing give all that they add a place that the program
has already, and they only fail with faults of the program, which they report at such places
(`linkGraph_blames`).  So an internal error of linking can only come from the queue itself, and all
of linking reports its faults where something of the program stands (`linkEndpoints_blames`).
-/

namespace SignalGraph.Link

open Edit

/-- A diagnostic reports a fault of the program at a good place. -/
def ReportsFault (good : Span → Prop) (d : Diagnostic) : Prop :=
  ∃ (f : Fault) (span : Span), d = f.diagnose span ∧ good span

/-- Faults of the program are told apart from internal errors by their codes. -/
theorem not_reportsFault_internal (good : Span → Prop) (e : InternalError) :
    ¬ ReportsFault good e.toDiagnostic := by
  rintro ⟨f, span, heq, -⟩
  have hcode : (⟨.invariant, 999⟩ : Code) = f.code := congrArg Diagnostic.code heq
  cases f <;> cases hcode

variable {good : Span → Prop}

theorem ReportsFault.span {d : Diagnostic} (h : ReportsFault good d) : good d.span := by
  obtain ⟨f, span, rfl, hspan⟩ := h
  exact hspan

/-- Programs whose places are all good stay so, and faults are reported at good places. -/
abbrev Blames {α : Type} (good : Span → Prop) (x : Edit α) : Prop :=
  Upholds (Program.Placed good) (ReportsFault good) x

variable (hdummy : good .dummy)

/-! ## Hoisting -/

/-- Adding an endpoint on the way is blamed on the endpoint that is resolved. -/
theorem addIntermediate_blames (child : ModuleId) (nodeName : String) {e : Endpoint}
    (he : good e.span) (fullPath rest : List PathSegment) :
    Blames good (addIntermediate child nodeName e fullPath rest) := by
  refine .program_bind fun p _ => .ite ?_ (upholds_throw_bind ⟨_, _, rfl, he⟩ _)
  exact (upholds_modifyModule fun _ hp => hp.modifyModule fun _ hm => hm.addEndpoint he).bind
    fun _ => upholds_pure _

/-- A path that starts nowhere is blamed on its endpoint. -/
theorem pathStart_blames (m : Module) {e : Endpoint} (he : good e.span) (first : PathSegment) :
    Blames good (pathStart m e first) := by
  refine (upholds_require ⟨_, _, rfl, he⟩ _).bind fun node => ?_
  refine .ite (upholds_throw_bind ⟨_, _, rfl, he⟩ _) (.program_bind fun _ _ => ?_)
  exact (upholds_require ⟨_, _, rfl, he⟩ _).bind fun _ => upholds_pure _

/-- A missing inner endpoint is blamed on the endpoint that is resolved. -/
theorem innerEndpoint_blames {hoistChild : ModuleId → Edit Unit}
    (hchild : ∀ child, Blames good (hoistChild child)) (child : ModuleId) (name : String)
    {e : Endpoint} (he : good e.span) : Blames good (innerEndpoint hoistChild child name e) := by
  refine .program_bind fun p _ => (upholds_require ⟨_, _, rfl, he⟩ _).bind fun k => ?_
  have hrest : Blames good (do
      let inner := ((← Edit.program).moduleAt child).endpoints.get k
      let details ← Edit.require ((Fault.unresolvedEndpoint name).diagnose e.span) inner.details
      if details.arraySize.isSome then
        throw ((Fault.notYetImplemented "hoisting endpoint arrays").diagnose e.span)
      return (details, inner.annotations)) := by
    refine .program_bind fun _ _ => (upholds_require ⟨_, _, rfl, he⟩ _).bind fun _ => ?_
    exact .ite (upholds_throw_bind ⟨_, _, rfl, he⟩ _) (upholds_pure _)
  exact .ite ((hchild child).bind fun _ => hrest) hrest

/-- Where a connection of a forwarded endpoint stands. -/
theorem span_forwarding (direction : Direction) (own : String) (node : NodeId) (inner : String)
    (span : Span) : (forwarding direction own node inner span).span = span := by
  cases direction <;> rfl

include hdummy

/-- Resolving an endpoint is blamed on it, or on one of a nested module. -/
theorem hoistEndpoint_blames {hoistChild : ModuleId → Edit Unit}
    (hchild : ∀ child, Blames good (hoistChild child)) (id : ModuleId)
    (endpoint : EndpointId) : Blames good (hoistEndpoint hoistChild id endpoint) := by
  refine .program_bind fun p hp => ?_
  have he : good ((p.moduleAt id).endpoints.get endpoint).span :=
    (hp.moduleAt hdummy id).endpoints.get hdummy endpoint
  dsimp only
  split
  · exact upholds_throw ⟨_, _, rfl, he⟩
  · exact upholds_throw ⟨_, _, rfl, he⟩
  · refine .ite (upholds_throw_bind ⟨_, _, rfl, he⟩ _)
      ((pathStart_blames _ he _).bind fun start => ?_)
    refine .ite ((upholds_pure _).bind fun inner => ?_)
      ((addIntermediate_blames _ _ he _ _).bind fun inner => ?_)
    all_goals
      refine (innerEndpoint_blames hchild start.2 inner he).bind fun _ => ?_
      refine (upholds_modifyModule fun _ hq => ?_).bind fun _ => upholds_modifyModule fun _ hq => ?_
      · exact hq.modifyModule fun _ hm => hm.modifyEndpoint fun _ => rfl
      · exact hq.modifyModule fun _ hm => hm.addConnection (by rwa [span_forwarding])

/-- Resolving the endpoints of a module is blamed on one of them, or on one of a nested module. -/
theorem hoistEach_blames {hoistChild : ModuleId → Edit Unit}
    (hchild : ∀ child, Blames good (hoistChild child)) (id : ModuleId) (n : Nat) :
    Blames good (hoistEach hoistChild id n) := by
  induction n with
  | zero => exact upholds_pure _
  | succ n ih =>
      refine .program_bind fun p _ => ?_
      split
      · exact upholds_pure _
      · exact (hoistEndpoint_blames hdummy hchild id _).bind fun _ => ih.bind fun _ =>
          upholds_pure _

/-- Recursion is blamed on a graph. -/
theorem reportsFault_recursiveGraph {p : Program} (hp : p.Placed good) (id : ModuleId) :
    ReportsFault good (recursiveGraph p id) := ⟨_, _, rfl, (hp.moduleAt hdummy id).span⟩

/-- Resolving at every depth is blamed on an endpoint, by induction on the fuel. -/
theorem hoistModule_blames (n : Nat) (stack : List ModuleId) (id : ModuleId) :
    Blames good (hoistModule n stack id) := by
  induction n generalizing stack id with
  | zero => exact .program_bind fun p hp => upholds_throw (reportsFault_recursiveGraph hdummy hp id)
  | succ n ih =>
      refine .ite (.program_bind fun p hp => ?_) (.program_bind fun p _ => ?_)
      · exact upholds_throw_bind (reportsFault_recursiveGraph hdummy hp id) _
      · refine hoistEach_blames hdummy (fun child => ?_) id _
        exact (ih (id :: stack) child).bind fun _ => upholds_pure _

/-- Resolving the endpoints of a module is blamed on an endpoint. -/
theorem hoistEndpoints_blames (id : ModuleId) : Blames good (hoistEndpoints id) :=
  .program_bind fun _ _ => hoistModule_blames hdummy _ _ _

/-! ## Exposing -/

omit hdummy in
/-- A conflict of exposed endpoints is blamed on one of them. -/
theorem mergeExposed_blames (graph : ModuleId) (node : NodeId) {e : Endpoint} (he : good e.span) :
    Blames good (mergeExposed graph node e) := by
  unfold mergeExposed
  split
  · exact upholds_pure _
  · refine .program_bind fun p _ => ?_
    dsimp only
    split
    · exact (upholds_modifyModule fun _ hq => hq.modifyModule fun _ hm => hm.addEndpoint he).bind
        fun _ => upholds_pure _
    · split
      · exact upholds_throw ⟨_, _, rfl, he⟩
      · exact upholds_pure _
      · refine (upholds_modifyModule fun _ hq => ?_).bind fun _ => upholds_pure _
        exact hq.modifyModule fun _ hm => hm.modifyEndpoint fun _ => rfl

omit hdummy in
/-- Taking over exposed endpoints is blamed on one of them. -/
theorem exposeEndpoints_blames (graph : ModuleId) (node : NodeId) {es : List Endpoint}
    (hes : ∀ e ∈ es, good e.span) : Blames good (exposeEndpoints graph node es) := by
  induction es with
  | nil => exact upholds_pure _
  | cons e es ih =>
      have he := hes e List.mem_cons_self
      have hrest := ih fun e' he' => hes e' (List.mem_cons_of_mem e he')
      refine .program_bind fun p _ => .ite (upholds_throw_bind ⟨_, _, rfl, he⟩ _) ?_
      refine (mergeExposed_blames graph node he).bind fun _ => .bind ?_ fun _ =>
        hrest.bind fun _ => upholds_pure _
      refine upholds_modifyModule fun _ hq => hq.modifyModule fun m hm => ?_
      split
      · exact hm
      · exact hm.addConnection (by rwa [span_forwarding])

/-- Taking over what nodes expose is blamed on an endpoint. -/
theorem exposeNodes_blames (graph : ModuleId) (nodes : List NodeId) :
    Blames good (exposeNodes graph nodes) := by
  induction nodes with
  | nil => exact upholds_pure _
  | cons node nodes ih =>
      refine .program_bind fun p hp => ?_
      refine (upholds_require ⟨_, _, rfl, (hp.moduleAt hdummy graph).span⟩ _).bind fun child => ?_
      refine (exposeEndpoints_blames graph node fun e he => ?_).bind fun _ => ?_
      · obtain ⟨x, hx, rfl⟩ := List.mem_map.mp he
        exact (hp.moduleAt hdummy child).endpoints.of_mem_entries (List.mem_of_mem_filter hx)
      · exact ih.bind fun _ => upholds_pure _

/-! ## Graphs -/

/-- A turn of a graph is blamed on an endpoint or a graph. -/
theorem linkGraph_blames (graph : ModuleId) : Blames good (linkGraph graph) := by
  refine (hoistEndpoints_blames hdummy graph).bind fun _ => .bind ?_ fun _ => upholds_pure _
  exact .program_bind fun _ _ => exposeNodes_blames hdummy graph _

/-- The turns are blamed on something that stands in the program, or on nothing. -/
theorem linkQueue_blames (limit n : Nat) (queue : List ModuleId) :
    Upholds (Program.Placed good) (good ·.span) (linkQueue limit n queue) := by
  induction n generalizing queue with
  | zero =>
      cases queue with
      | nil => exact upholds_pure _
      | cons graph queue => exact upholds_throw hdummy
  | succ n ih =>
      cases queue with
      | nil => exact upholds_pure _
      | cons graph queue =>
          unfold linkQueue
          refine ((linkGraph_blames hdummy graph).mono fun _ => ReportsFault.span).bind fun _ => ?_
          exact .program_bind fun _ _ => (ih _).bind fun _ => upholds_pure _

/-- Linking keeps all places good, and what it reports it reports at a good place. -/
theorem linkEndpoints_blames :
    Upholds (Program.Placed good) (good ·.span) linkEndpoints := by
  refine .program_bind fun p hp => ?_
  unfold checkGraphRecursion
  split
  · next d h =>
      split at h
      · next id _ _ =>
          cases h
          exact upholds_throw (hp.moduleAt hdummy id).span
      · cases h
  · refine (linkQueue_blames hdummy _ _ _).bind fun passed => upholds_forM fun place => ?_
    exact upholds_modifyModule fun _ hq => hq.modifyModule fun _ hm =>
      hm.modifyEndpoint fun _ => rfl

omit hdummy in
/-- Linking one graph only fails with faults of the program. -/
theorem linkGraph_fails {graph : ModuleId} {p q : Program} {d : Diagnostic}
    (h : (linkGraph graph).apply p = (.error d, q)) : ReportsFault (fun _ => True) d := by
  have hblames : Blames (fun _ => True) (linkGraph graph) := linkGraph_blames trivial graph
  have hfails := (hblames p p.placed_true).2 d
  rw [h] at hfails
  exact hfails rfl

end SignalGraph.Link

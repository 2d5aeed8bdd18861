import SignalGraph.Link.Hoist
import SignalGraph.Link.Resolve

/-!
# SignalGraph.Link.Expose

Exposure: an endpoint of a node that is marked as exposed becomes an endpoint of the graph, with
a connection between the two.  Several nodes may share such an endpoint; of events it then takes
all their types.
-/

namespace SignalGraph.Link

/-- An endpoint by its module. -/
abbrev EndpointPlace := ModuleId × EndpointId

/-- The fault of an exposed endpoint that does not fit the graph's endpoint of that name. -/
def exposureClash (p : Program) (graph : ModuleId) (node : NodeId) (e : Endpoint)
    (incoming : EndpointDetails) (existing : Endpoint) : Diagnostic :=
  let nodeName := ((p.moduleAt graph).nodes.get node).name
  let existingTypes := match existing.details with
    | some d => describeTypes p d
    | none => "unresolved"
  let fault : Fault :=
    .typeMismatch (nodeName ++ "." ++ e.name) (describeTypes p incoming) e.name existingTypes
  fault.diagnose e.span

/-- The types that an endpoint lacks to take what another one sends, or nothing if the two do not
fit at all. -/
def missingTypes? (existing : Endpoint) (e : Endpoint) (incoming : EndpointDetails) :
    Option (List Ty) := do
  let d ← existing.details
  if existing.direction ≠ e.direction || d.kind ≠ incoming.kind then none
  else if d.kind = .event then some (incoming.types.filter (!d.hasType ·))
  else if d.types = incoming.types then some []
  else none

/-- Offers an endpoint of a node on the graph, and says whether that changed an endpoint. -/
def mergeExposed (graph : ModuleId) (node : NodeId) (e : Endpoint) : Edit Bool := do
  match e.details with
  | none => return false
  | some incoming =>
    let p ← Edit.program
    let m := p.moduleAt graph
    match m.findEndpoint? e.name with
    | none =>
      let offered : Endpoint := { e with path := none, exposed := true }
      Edit.modifyModule graph (·.addEndpoint offered)
      return true
    | some id =>
      let existing := m.endpoints.get id
      match missingTypes? existing e incoming with
      | none => throw (exposureClash p graph node e incoming existing)
      | some [] => return false
      | some missing =>
        let extend (d : EndpointDetails) : EndpointDetails := { d with types := d.types ++ missing }
        Edit.modifyModule graph fun m => { m with
          endpoints := m.endpoints.modify id fun e => { e with details := e.details.map extend } }
        return true

/-- Offers the given endpoints of a node on the graph and connects them. -/
def exposeEndpoints (graph : ModuleId) (node : NodeId) : List Endpoint → Edit Bool
  | [] => return false
  | e :: es => do
    if (((← Edit.program).moduleAt graph).nodes.get node).arraySize.isSome then
      throw ((Fault.notYetImplemented "exposing endpoints of arrays of processors").diagnose e.span)
    let changed ← mergeExposed graph node e
    let c := forwarding e.direction e.name node e.name e.span
    Edit.modifyModule graph fun m => if m.hasConnection c then m else m.addConnection c
    return (← exposeEndpoints graph node es) || changed

/-- Exposes what the given nodes of a graph offer.  Answers whether an endpoint of the graph
changed, and which endpoints were passed on. -/
def exposeNodes (graph : ModuleId) : List NodeId → Edit (Bool × List EndpointPlace)
  | [] => return (false, [])
  | node :: nodes => do
    let p ← Edit.program
    let source := ((p.moduleAt graph).nodes.get node).source
    let child ← Edit.require ((Fault.noProcessor source).diagnose (p.moduleAt graph).span)
      (p.findModule? source)
    let flagged := (p.moduleAt child).endpoints.entries.filter
      fun (_, e) => e.exposed && !e.isUnresolved
    let changed ← exposeEndpoints graph node (flagged.map (·.2))
    let (more, passed) ← exposeNodes graph nodes
    return (changed || more, flagged.map (fun (id, _) => (child, id)) ++ passed)

/-- Exposes what the nodes of a graph offer. -/
def exposeChildren (graph : ModuleId) : Edit (Bool × List EndpointPlace) := do
  exposeNodes graph ((← Edit.program).moduleAt graph).nodes.handles

end SignalGraph.Link

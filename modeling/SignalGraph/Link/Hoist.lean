import SignalGraph.Digraph.Cycle
import SignalGraph.Link.Fault
import SignalGraph.Program.Edit

/-!
# SignalGraph.Link.Hoist

Hoisting: an endpoint that is given by a path to an endpoint of a nested node takes over that
endpoint's details and is connected to it.  A path of several steps goes through fresh endpoints
of the graphs in between.
-/

namespace SignalGraph.Link

/-! ## Graphs inside graphs -/

/-- The graphs that a graph's nodes are instances of. -/
def nestedGraphs (p : Program) (id : ModuleId) : List ModuleId :=
  ((p.moduleAt id).nodes.toList.filterMap fun n => p.findModule? n.source).filter
    fun child => (p.moduleAt child).isGraph

/-- A way from a graph through nested graphs back to itself. -/
def graphRecursion? (p : Program) : Option (List ModuleId) :=
  (Digraph.findCycle? (fun id => (nestedGraphs p id).map ((), ·)) p.graphs).map (·.nodes)

/-- The fault of a graph that contains itself. -/
def recursiveGraph (p : Program) (id : ModuleId) : Diagnostic :=
  (Fault.recursiveGraph (p.moduleAt id).name).diagnose (p.moduleAt id).span

/-- Fails if a graph contains itself. -/
def checkGraphRecursion (p : Program) : Except Diagnostic Unit :=
  match graphRecursion? p with
  | some (id :: _) => .error (recursiveGraph p id)
  | _ => .ok ()

/-! ## Single endpoints -/

/-- The first of `base`, `base_2`, `base_3` and so on that no endpoint of the module has. -/
def uniqueEndpointName (m : Module) (base : String) : String :=
  let numbered := (List.range m.endpoints.size).map fun n => base ++ "_" ++ toString (n + 2)
  let candidates := base :: numbered
  (candidates.find? fun name => (m.findEndpoint? name).isNone).getD base

/-- The connection between an endpoint of a graph and the one of a node that it stands for. -/
def forwarding (direction : Direction) (own : String) (node : NodeId) (inner : String)
    (span : Span) : Connection :=
  let outside : EndpointRef := { endpoint := own }
  let inside : EndpointRef := { node := some node, endpoint := inner }
  match direction with
  | .input => { source := outside, dest := inside, span }
  | .output => { source := inside, dest := outside, span }

/-- Adds an endpoint to a nested graph that stands for the rest of a path. -/
def addIntermediate (child : ModuleId) (nodeName : String) (e : Endpoint)
    (fullPath rest : List PathSegment) : Edit String := do
  let m := (← Edit.program).moduleAt child
  unless m.isGraph do throw ((Fault.notAGraph nodeName).diagnose e.span)
  let name := uniqueEndpointName m ("expose_" ++ "_".intercalate (fullPath.map (·.name)))
  Edit.modifyModule child (·.addEndpoint
    { name, direction := e.direction, path := some rest, span := e.span })
  return name

/-- The node at the start of a path and the module that it is an instance of. -/
def pathStart (m : Module) (e : Endpoint) (first : PathSegment) : Edit (NodeId × ModuleId) := do
  let node ← Edit.require ((Fault.noProcessor first.name).diagnose e.span) (m.findNode? first.name)
  let n := m.nodes.get node
  if n.arraySize.isSome then
    throw ((Fault.notYetImplemented "hoisting endpoints from arrays of processors").diagnose e.span)
  let child ← Edit.require ((Fault.noProcessor n.source).diagnose e.span)
    ((← Edit.program).findModule? n.source)
  return (node, child)

/-- The details and the annotations of the endpoint that an endpoint stands for; `hoistChild`
resolves the endpoints of the nested module if that is still to be done. -/
def innerEndpoint (hoistChild : ModuleId → Edit Unit) (child : ModuleId) (name : String)
    (e : Endpoint) : Edit (EndpointDetails × Annotations) := do
  let m := (← Edit.program).moduleAt child
  let id ← Edit.require ((Fault.noEndpoint name m.name).diagnose e.span)
    (m.findDirected? e.direction name)
  if (m.endpoints.get id).isUnresolved then hoistChild child
  let inner := ((← Edit.program).moduleAt child).endpoints.get id
  let details ← Edit.require ((Fault.unresolvedEndpoint name).diagnose e.span) inner.details
  if details.arraySize.isSome then
    throw ((Fault.notYetImplemented "hoisting endpoint arrays").diagnose e.span)
  return (details, inner.annotations)

/-- Resolves one endpoint of a module. -/
def hoistEndpoint (hoistChild : ModuleId → Edit Unit) (id : ModuleId) (endpoint : EndpointId) :
    Edit Unit := do
  let m := (← Edit.program).moduleAt id
  let e := m.endpoints.get endpoint
  match e.path.getD [] with
  | [] => throw ((Fault.unresolvedEndpoint e.name).diagnose e.span)
  | [first] => throw ((Fault.noEndpoint first.name m.name).diagnose e.span)
  | first :: second :: deeper =>
    let path := first :: second :: deeper
    if path.any (·.index.isSome) then
      throw ((Fault.notYetImplemented "indexed segments in hoisted endpoint paths").diagnose e.span)
    let (node, child) ← pathStart m e first
    let inner ← if deeper.isEmpty then pure second.name
      else addIntermediate child first.name e path (second :: deeper)
    let (details, annotations) ← innerEndpoint hoistChild child inner e
    Edit.modifyModule id fun m => { m with
      endpoints := m.endpoints.modify endpoint fun e =>
        { e with details := some details, annotations, path := none } }
    Edit.modifyModule id (·.addConnection (forwarding e.direction e.name node inner e.span))

/-! ## Whole modules -/

/-- Resolves unresolved endpoints of a module, the first one first, and says whether there were
any.  The number bounds the endpoints resolved. -/
def hoistEach (hoistChild : ModuleId → Edit Unit) (id : ModuleId) : Nat → Edit Bool
  | 0 => return false
  | n + 1 => do
    match ((← Edit.program).moduleAt id).endpoints.find? Endpoint.isUnresolved with
    | none => return false
    | some endpoint =>
      hoistEndpoint hoistChild id endpoint
      let _ ← hoistEach hoistChild id n
      return true

/-- Resolves all endpoints of a module; the stack holds the modules that wait for this one.  The
first number bounds the nesting. -/
def hoistModule : Nat → List ModuleId → ModuleId → Edit Bool
  | 0, _, id => do throw (recursiveGraph (← Edit.program) id)
  | n + 1, stack, id => do
    if stack.contains id then throw (recursiveGraph (← Edit.program) id)
    let hoistChild (child : ModuleId) : Edit Unit := do
      let _ ← hoistModule n (id :: stack) child
    hoistEach hoistChild id ((← Edit.program).moduleAt id).endpoints.size

/-- Resolves all endpoints of a graph, and says whether there were any to resolve. -/
def hoistEndpoints (id : ModuleId) : Edit Bool := do
  hoistModule ((← Edit.program).modules.size + 1) [] id

end SignalGraph.Link

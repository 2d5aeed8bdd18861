import SignalGraph.Link.Expose

/-!
# SignalGraph.Link.Endpoints

Linking: hoisting and exposure repeated over all graphs until nothing changes.  Whenever the
endpoints of a graph change, the graphs that hold it are looked at again.  Endpoints that were
passed on lose their mark at the end, so that all graphs that hold a module see it.
-/

namespace SignalGraph.Link

/-- The graphs with a node that is an instance of the named module. -/
def instantiatingGraphs (p : Program) (name : String) : List ModuleId :=
  (p.modules.entries.filter fun (_, m) =>
    m.isGraph && m.nodes.toList.any (·.source == name)).map (·.1)

/-- The bound on the rounds of linking: one more than the number of graphs times one more than
the number of endpoints and path steps. -/
def roundLimit (p : Program) : Nat :=
  let cost (e : Endpoint) : Nat := 1 + (e.path.map List.length).getD 0
  let endpoints := p.modules.toList.flatMap (·.endpoints.toList)
  let work := endpoints.foldr (fun e n => cost e + n) 0
  (p.graphs.length + 1) * (work + 1)

/-- Hoists and exposes in one graph. -/
def linkGraph (graph : ModuleId) : Edit (Bool × List EndpointPlace) := do
  let hoisted ← hoistEndpoints graph
  let (exposed, passed) ← exposeChildren graph
  return (hoisted || exposed, passed)

/-- Works off a queue of graphs and answers the endpoints that were passed on.  The number is how
many rounds are left. -/
def linkQueue (limit : Nat) : Nat → List ModuleId → Edit (List EndpointPlace)
  | _, [] => return []
  | 0, _ :: _ =>
    throw (InternalError.toDiagnostic
      ⟨s!"endpoint linking did not settle after {limit} iterations"⟩)
  | n + 1, graph :: queue => do
    let (changed, passed) ← linkGraph graph
    let p ← Edit.program
    let parents := if changed then instantiatingGraphs p (p.moduleAt graph).name else []
    let again := parents.filter (!queue.contains ·)
    return passed ++ (← linkQueue limit n (queue ++ again))

/-- Takes the mark for exposure off an endpoint. -/
def clearExposed (place : EndpointPlace) : Edit Unit :=
  Edit.modifyModule place.1 fun m => { m with
    endpoints := m.endpoints.modify place.2 fun e => { e with exposed := false } }

/-- Resolves hoisted endpoints and exposes marked ones in all graphs. -/
def linkEndpoints : Edit Unit := do
  let p ← Edit.program
  match checkGraphRecursion p with
  | .error d => throw d
  | .ok _ =>
    let passed ← linkQueue (roundLimit p) (roundLimit p) p.graphs
    passed.forM clearExposed

end SignalGraph.Link

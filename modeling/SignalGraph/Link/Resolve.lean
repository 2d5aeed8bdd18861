import SignalGraph.Link.Fault
import SignalGraph.Program.Basic
import SignalGraph.Settings.Basic

/-!
# SignalGraph.Link.Resolve

Resolving connections: finding the endpoints that a connection joins and checking that they fit.

1. data flows from a graph's own inputs or its nodes' outputs to its nodes' inputs or its own
   outputs;
2. an index selects one node of an array of nodes, otherwise one element of the endpoint;
3. kinds must agree; streams and values need one type with the same frames, or an array of them;
   events need sizes that fit and a type that converts.
-/

namespace SignalGraph.Link

/-- The two ends of a connection. -/
inductive Side where
  | source | destination
deriving DecidableEq, Repr

/-- An end of a connection once it is found. -/
structure ResolvedEnd where
  owner : ModuleId
  endpoint : EndpointId
  node : Option NodeId
  /-- The number of nodes selected. -/
  multiplicity : Nat
  /-- The number of elements selected on each of them. -/
  arraySize : Nat
deriving DecidableEq, Repr

namespace ResolvedEnd

/-- The number of pairs of node and element. -/
def fan (e : ResolvedEnd) : Nat := e.multiplicity * e.arraySize

end ResolvedEnd

structure ResolvedConnection where
  source : ResolvedEnd
  dest : ResolvedEnd
deriving DecidableEq, Repr

/-! ## Descriptions -/

/-- How messages call an end of a connection. -/
def describeRef (m : Module) (r : EndpointRef) : String :=
  match r.node >>= m.nodes.get? with
  | some n => n.name ++ "." ++ r.endpoint
  | none => r.endpoint

/-- How messages call the types of an endpoint. -/
def describeTypes (p : Program) (d : EndpointDetails) : String :=
  match d.types with
  | [t] => p.describe t
  | ts => "(" ++ ", ".intercalate (ts.map p.describe) ++ ")"

/-! ## Ends -/

/-- The node and the module that own the endpoint of an end. -/
def endOwner (p : Program) (graph : ModuleId) (r : EndpointRef) (span : Span) :
    Except Diagnostic (ModuleId × Option (NodeId × Node)) :=
  let m := p.moduleAt graph
  match r.node with
  | none => .ok (graph, none)
  | some id =>
    match m.nodes.get? id with
    | none => .error ((Fault.noProcessor (describeRef m r)).diagnose span)
    | some n =>
      match p.findModule? n.source with
      | none => .error ((Fault.noProcessor n.source).diagnose span)
      | some owner => .ok (owner, some (id, n))

/-- The direction that an endpoint must have to stand on a side; nodes are seen from outside. -/
def usableDirection (side : Side) (ofNode : Bool) : Direction :=
  match side, ofNode with
  | .source, false | .destination, true => .input
  | .source, true | .destination, false => .output

def missingEnd (side : Side) (desc : String) : Fault :=
  match side with
  | .source => .noSource desc
  | .destination => .noDestination desc

def wrongDirection (side : Side) (direction desc : String) : Fault :=
  match side with
  | .source => .badSourceDirection direction desc
  | .destination => .badDestinationDirection direction desc

def indexTooLarge (side : Side) (desc : String) (index size : Nat) : Fault :=
  match side with
  | .source => .sourceIndex desc index size
  | .destination => .destinationIndex desc index size

/-- How many nodes and how many elements of each an end selects, or the index and the size that
do not fit. -/
def selection (node : Option Node) (d : EndpointDetails) (index : Option Nat) :
    Except (Nat × Nat) (Nat × Nat) :=
  let nodes := (node.map Node.arrayLength).getD 1
  let ofArray := node.any (·.arraySize.isSome)
  let size := if ofArray then nodes else d.arrayLength
  match index with
  | none => .ok (nodes, d.arrayLength)
  | some i =>
    if size ≤ i then .error (i, size)
    else if ofArray then .ok (1, d.arrayLength)
    else .ok (nodes, 1)

/-- Finds an end of a connection and the details of its endpoint. -/
def resolveEnd (p : Program) (graph : ModuleId) (r : EndpointRef) (side : Side) (span : Span) :
    Except Diagnostic (ResolvedEnd × EndpointDetails) := do
  let desc := describeRef (p.moduleAt graph) r
  let (owner, node) ← endOwner p graph r span
  match (p.moduleAt owner).findEndpoint? r.endpoint with
  | none => throw ((missingEnd side desc).diagnose span)
  | some id =>
    let e := (p.moduleAt owner).endpoints.get id
    if e.direction ≠ usableDirection side node.isSome then
      throw ((wrongDirection side e.direction.keyword desc).diagnose span)
    match e.details with
    | none => throw ((Fault.unresolvedEndpoint desc).diagnose span)
    | some d =>
      match selection (node.map (·.2)) d r.index with
      | .error (index, size) => throw ((indexTooLarge side desc index size).diagnose span)
      | .ok (multiplicity, arraySize) =>
        return (⟨owner, id, node.map (·.1), multiplicity, arraySize⟩, d)

/-! ## Connections -/

/-- Whether a type is an array of another one, of a fixed size. -/
def isArrayOf (array element : Ty) : Bool :=
  array.isFixedSizeArray && array.elementType?.any (·.sameFrame element)

/-- Whether frames of one type can become frames of the other. -/
def framesFit (source dest : Ty) : Bool :=
  let source := source.unqualified
  let dest := dest.unqualified
  source.sameFrame dest || isArrayOf source dest || isArrayOf dest source

/-- Whether events of one endpoint can be sent to another as far as their types go. -/
def eventTypesFit (source dest : EndpointDetails) : Bool :=
  source.types.any fun s => dest.types.any fun d => d.canSilentlyCast s

/-- What is wrong with joining two ends. -/
def mismatch? (p : Program) (sourceDesc destDesc : String) (source dest : ResolvedEnd)
    (s d : EndpointDetails) : Option Fault :=
  let types := Fault.typeMismatch sourceDesc (describeTypes p s) destDesc (describeTypes p d)
  if s.kind ≠ d.kind then some (.kindMismatch sourceDesc s.kind.name destDesc d.kind.name)
  else if s.kind = .event then
    if source.fan = 1 || dest.fan = 1 || source.fan = dest.fan then
      if eventTypesFit s d then none else some types
    else some (.eventSizes sourceDesc source.fan destDesc dest.fan)
  else
    match s.singleType?, d.singleType? with
    | some a, some b => if framesFit a b then none else some types
    | _, _ => some types

/-- Finds both ends of a connection and checks that they fit. -/
def resolveConnection (p : Program) (graph : ModuleId) (c : Connection) :
    Except Diagnostic ResolvedConnection := do
  let m := p.moduleAt graph
  let (source, s) ← resolveEnd p graph c.source .source c.span
  let (dest, d) ← resolveEnd p graph c.dest .destination c.span
  match mismatch? p (describeRef m c.source) (describeRef m c.dest) source dest s d with
  | some fault => throw (fault.diagnose c.span)
  | none => return ⟨source, dest⟩

/-- Checks the length of a connection's delay. -/
def checkDelay (c : Connection) (max : Nat) : Except Diagnostic Unit :=
  match c.delay with
  | none => .ok ()
  | some length =>
    if length < 0 then .error (Fault.delayTooShort.diagnose c.span)
    else if (max : Int) < length then .error ((Fault.delayTooLong length max).diagnose c.span)
    else .ok ()

/-- Resolves a connection and checks its delay. -/
def checkConnection (p : Program) (settings : Settings) (graph : ModuleId) (c : Connection) :
    Except Diagnostic ResolvedConnection := do
  let resolved ← resolveConnection p graph c
  checkDelay c settings.maxDelayLength
  return resolved

end SignalGraph.Link

import SignalGraph.Program.Annotations
import SignalGraph.Program.Connection
import SignalGraph.Program.Endpoint
import SignalGraph.Program.Node

/-!
# SignalGraph.Program.Module

Modules: processors, graphs and namespaces.  A full name is a path whose parts are joined by `::`.
-/

namespace SignalGraph

/-! ## Paths -/

/-- The parts before and after the last `::`. -/
def splitPath? (path : String) : Option (String × String) :=
  let rec go (after : List Char) : List Char → Option (String × String)
    | ':' :: ':' :: before => some (String.ofList before.reverse, String.ofList after)
    | c :: before => go (c :: after) before
    | [] => none
  go [] path.toList.reverse

inductive ModuleKind where
  | processor | graph | nameSpace
deriving DecidableEq, Repr, Inhabited

namespace ModuleKind

def all : List ModuleKind := [processor, graph, nameSpace]

def keyword : ModuleKind → String
  | processor => "processor"
  | graph => "graph"
  | nameSpace => "namespace"

def ofKeyword? (s : String) : Option ModuleKind := all.find? (·.keyword == s)

end ModuleKind

structure Module where
  kind : ModuleKind
  /-- The full name. -/
  name : String
  annotations : Annotations := {}
  endpoints : Arena .endpoint Endpoint := ∅
  nodes : Arena .node Node := ∅
  connections : Arena .wire Connection := ∅
  structs : List StructId := []
  functions : List FunctionId := []
  state : List VariableId := []
  /-- The parameters that an instance has to supply. -/
  parameters : List VariableId := []
  span : Span := .dummy
deriving Repr, Inhabited

namespace Module

/-- The part of the full name after the last `::`. -/
def shortName (m : Module) : String := ((splitPath? m.name).map (·.2)).getD m.name

/-- The part of the full name before the last `::`. -/
def parentName? (m : Module) : Option String := (splitPath? m.name).map (·.1)

def isProcessor (m : Module) : Bool := m.kind == .processor

def isGraph (m : Module) : Bool := m.kind == .graph

def isNamespace (m : Module) : Bool := m.kind == .nameSpace

def findEndpoint? (m : Module) (name : String) : Option EndpointId :=
  m.endpoints.find? (·.name == name)

/-- The first endpoint with a name and a direction. -/
def findDirected? (m : Module) (direction : Direction) (name : String) : Option EndpointId :=
  m.endpoints.find? fun e => e.name == name && e.direction == direction

def findInput? (m : Module) (name : String) : Option EndpointId := m.findDirected? .input name

def findOutput? (m : Module) (name : String) : Option EndpointId := m.findDirected? .output name

def inputs (m : Module) : List Endpoint := m.endpoints.toList.filter Endpoint.isInput

def outputs (m : Module) : List Endpoint := m.endpoints.toList.filter Endpoint.isOutput

def findNode? (m : Module) (name : String) : Option NodeId := m.nodes.find? (·.name == name)

/-- Whether there is a connection between the same ends. -/
def hasConnection (m : Module) (c : Connection) : Bool := m.connections.toList.any (·.sameEnds c)

def addEndpoint (m : Module) (e : Endpoint) : Module := { m with endpoints := m.endpoints.push e }

def addNode (m : Module) (n : Node) : Module := { m with nodes := m.nodes.push n }

def addConnection (m : Module) (c : Connection) : Module :=
  { m with connections := m.connections.push c }

end Module

end SignalGraph

import SignalGraph.Program.Annotations
import SignalGraph.Source.Span
import SignalGraph.Ty.Cast

/-!
# SignalGraph.Program.Endpoint

Endpoints: the inputs and outputs through which modules are connected.
-/

namespace SignalGraph

inductive Direction where
  | input | output
deriving DecidableEq, Repr, Inhabited

namespace Direction

def keyword : Direction → String
  | input => "input"
  | output => "output"

end Direction

/-- How data passes through an endpoint. -/
inductive EndpointKind where
  /-- One value for every frame. -/
  | stream
  /-- A value that stays until it is changed. -/
  | value
  /-- Single values at certain frames. -/
  | event
deriving DecidableEq, Repr, Inhabited

namespace EndpointKind

def all : List EndpointKind := [stream, value, event]

def name : EndpointKind → String
  | stream => "stream"
  | value => "value"
  | event => "event"

def ofName? (s : String) : Option EndpointKind := all.find? (·.name == s)

end EndpointKind

/-- What is known about an endpoint once it is resolved. -/
structure EndpointDetails where
  kind : EndpointKind
  types : List Ty
  arraySize : Option Nat := none
deriving DecidableEq, Repr, Inhabited

namespace EndpointDetails

/-- The number of elements; a plain endpoint has one. -/
def arrayLength (d : EndpointDetails) : Nat := d.arraySize.getD 1

/-- The type of an endpoint that has exactly one. -/
def singleType? (d : EndpointDetails) : Option Ty :=
  match d.types with
  | [t] => some t
  | _ => none

/-- The first type that a value of type `t` silently becomes. -/
def acceptedType? (d : EndpointDetails) (t : Ty) : Option Ty := d.types.find? (·.canSilentlyCast t)

/-- Whether a type is listed, qualifiers aside. -/
def hasType (d : EndpointDetails) (t : Ty) : Bool := d.types.any (·.unqualified == t.unqualified)

end EndpointDetails

/-- A step of the path to an endpoint of a nested node. -/
structure PathSegment where
  name : String
  index : Option Nat := none
deriving DecidableEq, Repr, Inhabited

/-- An input or output of a module.  An endpoint without details is unresolved: linking fills
them in from the endpoint of a nested node at the end of `path`. -/
structure Endpoint where
  name : String
  direction : Direction
  details : Option EndpointDetails := none
  annotations : Annotations := {}
  /-- The path to the endpoint that this one stands for. -/
  path : Option (List PathSegment) := none
  /-- Whether the graphs that hold the module are to offer the endpoint as their own. -/
  exposed : Bool := false
  span : Span := .dummy
deriving DecidableEq, Repr, Inhabited

namespace Endpoint

def isInput (e : Endpoint) : Bool := e.direction == .input

def isOutput (e : Endpoint) : Bool := e.direction == .output

def isUnresolved (e : Endpoint) : Bool := e.details.isNone

def kind? (e : Endpoint) : Option EndpointKind := e.details.map (·.kind)

def arraySize? (e : Endpoint) : Option Nat := e.details >>= (·.arraySize)

end Endpoint

/-- The name of the output through which every module may report to the outside. -/
def consoleEndpoint : String := "_console"

end SignalGraph

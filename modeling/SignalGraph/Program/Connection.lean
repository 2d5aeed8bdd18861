import SignalGraph.Handle
import SignalGraph.Source.Span

/-!
# SignalGraph.Program.Connection

Connections between endpoints of a graph and of its nodes.
-/

namespace SignalGraph

/-- How values are made up between two rates. -/
inductive Interpolation where
  | none | latch | linear | sinc | fast | best
deriving DecidableEq, Repr, Inhabited

namespace Interpolation

def all : List Interpolation := [none, latch, linear, sinc, fast, best]

def name : Interpolation → String
  | none => "none"
  | latch => "latch"
  | linear => "linear"
  | sinc => "sinc"
  | fast => "fast"
  | best => "best"

def ofName? (s : String) : Option Interpolation := all.find? (·.name == s)

end Interpolation

/-- One end of a connection: an endpoint of a node, or of the graph itself. -/
structure EndpointRef where
  node : Option NodeId := .none
  endpoint : String
  index : Option Nat := .none
deriving DecidableEq, Repr, Inhabited

structure Connection where
  source : EndpointRef
  dest : EndpointRef
  interpolation : Interpolation := .none
  /-- The delay in frames. -/
  delay : Option Int := .none
  span : Span := .dummy
deriving DecidableEq, Repr, Inhabited

namespace Connection

/-- Whether data takes at least one frame to pass. -/
def isDelayed (c : Connection) : Bool := c.delay.any (0 < ·)

/-- Whether two connections have the same ends. -/
def sameEnds (c d : Connection) : Bool := c.source == d.source && c.dest == d.dest

end Connection

end SignalGraph

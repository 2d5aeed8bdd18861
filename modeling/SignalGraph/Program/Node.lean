import SignalGraph.Diagnostic.Basic
import SignalGraph.Float.Format
import SignalGraph.Handle

/-!
# SignalGraph.Program.Node

Nodes: the instances of modules of which a graph is made, and their clocks.
-/

namespace SignalGraph

/-- How much faster or slower than its graph a node runs; one of the two numbers is one. -/
structure ClockRatio where
  multiplier : Nat := 1
  divider : Nat := 1
deriving DecidableEq, Repr, Inhabited

namespace ClockRatio

def one : ClockRatio := {}

def isOne (r : ClockRatio) : Bool := r == one

/-- The ratios that a clock can have. -/
def allowed : List Nat := [1, 2, 4, 8, 16, 32, 64, 128, 256, 512]

/-- The fault of a ratio that is not allowed. -/
def invalid (value : Int) (span : Span) : Diagnostic :=
  .error ⟨.limit, 101⟩ s!"Clock ratio {value} must be a power of 2 between 1 and 512" span

def check (value : Int) (span : Span) : Except Diagnostic Nat :=
  match allowed.find? (fun n : Nat => Int.ofNat n == value) with
  | some n => .ok n
  | none => .error (invalid value span)

def ofMultiplier (value : Int) (span : Span) : Except Diagnostic ClockRatio :=
  return { multiplier := ← check value span }

def ofDivider (value : Int) (span : Span) : Except Diagnostic ClockRatio :=
  return { divider := ← check value span }

/-- The bits of the ratio as a double. -/
def rate (r : ClockRatio) : Nat := Float.roundRatio Float.binary64 r.multiplier r.divider

end ClockRatio

/-- An instance of a module inside a graph. -/
structure Node where
  name : String
  /-- The full name of the module that the node is an instance of. -/
  source : String
  /-- The values for the module's parameters. -/
  args : List ConstantId := []
  arraySize : Option Nat := none
  clock : ClockRatio := .one
  span : Span := .dummy
deriving DecidableEq, Repr, Inhabited

namespace Node

/-- The number of copies; a plain node is one. -/
def arrayLength (n : Node) : Nat := n.arraySize.getD 1

end Node

end SignalGraph

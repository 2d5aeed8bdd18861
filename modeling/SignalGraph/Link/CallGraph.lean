import SignalGraph.Digraph.Cycle
import SignalGraph.Digraph.Reach
import SignalGraph.Float.Format
import SignalGraph.Link.Fault
import SignalGraph.Program.Basic

/-!
# SignalGraph.Link.CallGraph

Which functions call which, and what follows: recursion, the size of the call stack, and loops
that never end.
-/

namespace SignalGraph

/-! ## Calls -/

/-- The functions that a function calls, each once, in order of the first call. -/
def Function.distinctCallees (f : Function) : List FunctionId := f.callees.eraseDups

namespace Program

/-- The functions that a function calls; an unknown function calls none. -/
def callees (p : Program) (id : FunctionId) : List FunctionId :=
  ((p.functions.get? id).map Function.distinctCallees).getD []

/-- Functions that call each other in turn, the last one calling the first. -/
def recursion? (p : Program) : Option (List FunctionId) :=
  (Digraph.findCycle? (fun f => (p.callees f).map ((), ·)) p.functions.handles).map (·.nodes)

/-! ## The call stack -/

/-- The bytes that a call of a function takes: its result, parameters and local variables. -/
def frameSize (p : Program) (f : Function) : Nat :=
  (f.parameters ++ f.locals).foldl
    (fun total v => Saturating.add total ((p.variableAt v).ty.packedSize p.structs))
    (f.returns.packedSize p.structs)

/-- The greatest of some sizes. -/
def greatest (sizes : List Nat) : Nat := sizes.foldl max 0

/-- What every function needs, frames of the functions it calls included, when calls are at most
the given number deep. -/
def stackNeeds (p : Program) : Nat → List Nat
  | 0 => p.functions.toList.map fun _ => 0
  | n + 1 =>
    let needs := p.stackNeeds n
    p.functions.entries.map fun (id, f) =>
      Saturating.add (p.frameSize f) (greatest ((p.callees id).map fun g => (needs[g.idx]?).getD 0))

/-- The greatest stack that a call can need; without a bound if there is recursion. -/
def maximumStack? (p : Program) : Option Nat :=
  if p.recursion?.isSome then none else some (greatest (p.stackNeeds p.functions.size))

/-- Settles what one function needs, once that is settled for the functions it calls. -/
def settleNeed (p : Program) (needs : List Nat) (f : FunctionId) : List Nat :=
  needs.set f.idx <|
    Saturating.add (p.frameSize (p.functionAt f))
      (greatest ((p.callees f).map fun g => (needs[g.idx]?).getD 0))

/-- What every function needs, settled from the end of an order in which functions stand before
those that they call. -/
def stackNeedsAlong (p : Program) (order : List FunctionId) : List Nat :=
  order.reverse.foldl p.settleNeed (p.functions.toList.map fun _ => 0)

/-- The greatest stack that a call can need, by way of a topological sort; without a bound if the
functions cannot be sorted. -/
def maximumStackAlong? (sort : (FunctionId → List FunctionId) → List FunctionId →
    Option (List FunctionId)) (p : Program) : Option Nat :=
  (sort p.callees p.functions.handles).map fun order => greatest (p.stackNeedsAlong order)

end Program

/-! ## Loops -/

namespace Function

/-- Whether control can stay in a block for good: it neither returns nor lets time pass. -/
def isStuckBlock (f : Function) (id : BlockId) : Bool :=
  let b := f.blocks.get id
  !b.terminator.isReturn && !b.advances

/-- The blocks that can be reached from the entry. -/
def reachableBlocks (f : Function) : List BlockId :=
  match f.entry? with
  | none => []
  | some entry =>
    Digraph.reachable
      (fun id => (f.blocks.get id).terminator.successors.filter fun b => (f.blocks.get? b).isSome)
      f.blocks.size entry

/-- Whether no block that can be reached returns or lets time pass. -/
def hasInfiniteLoop (f : Function) : Bool := f.hasBody && f.reachableBlocks.all f.isStuckBlock

end Function

/-! ## Checks -/

namespace Link

/-- Fails if there is recursion. -/
def checkRecursion (p : Program) : Except Diagnostic Unit :=
  match p.recursion? with
  | none => .ok ()
  | some cycle =>
    let names := cycle.map p.functionName
    let fault : Fault := match names with
      | [f] => .selfRecursion f
      | [f, g] => .mutualRecursion f g
      | _ => .recursionChain names
    .error (fault.diagnose (p.functionAt (cycle.headD default)).span)

/-- A number with one decimal, rounded to nearest with ties to even. -/
def oneDecimal (num den : Nat) : String :=
  let tenths := Float.roundDiv (10 * num) den
  toString (tenths / 10) ++ "." ++ toString (tenths % 10)

/-- The integer nearest to `n` that a double can hold. -/
def asDouble (n : Nat) : Nat :=
  match Float.decode Float.binary64 (Float.ofInt Float.binary64 n) with
  | .finite _ m q => m * Float.power 2 q / Float.power 2 (-q)
  | _ => n

/-- A number of bytes as it is shown to people. -/
def describeSize (bytes : Nat) : String :=
  if bytes < 1024 then toString bytes ++ " bytes"
  else if bytes < 1024 * 1024 then oneDecimal (asDouble bytes) 1024 ++ " KB"
  else oneDecimal (asDouble bytes) (1024 * 1024) ++ " MB"

/-- Fails if the call stack may grow beyond a limit; zero is no limit. -/
def checkStackSize (p : Program) (max : Nat) : Except Diagnostic Unit :=
  match p.maximumStack? with
  | some required =>
    if max ≠ 0 && max < required then
      .error ((Fault.stackTooLarge (describeSize required) (describeSize max)).diagnose .dummy)
    else .ok ()
  | none => .ok ()

/-- Fails at the first function that can neither return nor let time pass. -/
def checkInfiniteLoops (p : Program) : Except Diagnostic Unit :=
  match p.functions.entries.find? (·.2.hasInfiniteLoop) with
  | some (id, f) => .error ((Fault.infiniteLoop (p.functionName id)).diagnose f.span)
  | none => .ok ()

end Link

end SignalGraph

import SignalGraph.Check.Modules
import SignalGraph.Check.Streams
import SignalGraph.Link.Feedback
import SignalGraph.Link.Resolve

/-!
# SignalGraph.Check.Rule

The rules that a linked program has to keep, in the order in which they are checked.
-/

namespace SignalGraph.Check

inductive Rule where
  | moduleStructure | advanceAndStreamCalls | connections | recursionAndStack | infiniteLoops
  | blockParameters | graphCycles | streamOperations | functionReturnTypes
deriving DecidableEq, Repr

/-- What the rules are checked against besides the program. -/
structure Context where
  settings : Settings
  main : Option ModuleId

namespace Context

/-- The context of a program; a configured main module must be there. -/
def ofProgram (p : Program) (settings : Settings) : Except Diagnostic Context :=
  match settings.mainProcessor, p.mainModule? settings.mainProcessor with
  | some name, none => .error ((Fault.noMainProcessor name).diagnose .dummy)
  | _, main => .ok ⟨settings, main⟩

end Context

namespace Rule

/-- All rules, in the order in which they are checked. -/
def all : List Rule :=
  [moduleStructure, advanceAndStreamCalls, connections, recursionAndStack, infiniteLoops,
    blockParameters, graphCycles, streamOperations, functionReturnTypes]

def name : Rule → String
  | moduleStructure => "module-structure"
  | advanceAndStreamCalls => "advance-and-stream-calls"
  | connections => "connections"
  | recursionAndStack => "recursion-and-stack"
  | infiniteLoops => "infinite-loops"
  | blockParameters => "block-parameters"
  | graphCycles => "graph-cycles"
  | streamOperations => "stream-operations"
  | functionReturnTypes => "function-return-types"

def ofName? (s : String) : Option Rule := all.find? (·.name == s)

/-- The code that stands for the rule. -/
def code : Rule → Code
  | moduleStructure => ⟨.structural, 301⟩
  | advanceAndStreamCalls => ⟨.invariant, 301⟩
  | connections => ⟨.typing, 201⟩
  | recursionAndStack => ⟨.invariant, 201⟩
  | infiniteLoops => ⟨.invariant, 204⟩
  | blockParameters => ⟨.structural, 308⟩
  | graphCycles => ⟨.graph, 201⟩
  | streamOperations => ⟨.invariant, 305⟩
  | functionReturnTypes => ⟨.typing, 307⟩

def description : Rule → String
  | moduleStructure => "module, endpoint and instance declarations are well formed"
  | advanceAndStreamCalls =>
    "advance is only called from run, and runtime entry points are not called directly"
  | connections => "connections join compatible endpoints with a legal delay"
  | recursionAndStack => "no function is recursive and the call stack fits the budget"
  | infiniteLoops => "every function can return or advance"
  | blockParameters => "branch arguments match the parameters of their target blocks"
  | graphCycles => "graphs contain no feedback loop without a delay"
  | streamOperations =>
    "endpoint reads and writes happen in the right functions with the right types"
  | functionReturnTypes => "no function returns a reference"

/-- The connections of a graph. -/
def checkGraphConnections (p : Program) (settings : Settings) (graph : ModuleId) : Verdict :=
  (p.moduleAt graph).connections.toList |> each fun c => do
    let _ ← Link.checkConnection p settings graph c

/-- The verdict of a rule on a program. -/
def check (p : Program) (c : Context) : Rule → Verdict
  | moduleStructure => checkModules p c.settings c.main
  | advanceAndStreamCalls => eachFunction p (checkCalls p)
  | connections => p.graphs |> each (checkGraphConnections p c.settings)
  | recursionAndStack => do
    Link.checkRecursion p
    Link.checkStackSize p c.settings.maxStackSize
  | infiniteLoops => Link.checkInfiniteLoops p
  | blockParameters => eachFunction p (checkBlocks p)
  | graphCycles => p.graphs |> each fun g => Link.checkFeedback (p.moduleAt g)
  | streamOperations => eachFunction p (checkStreams p)
  | functionReturnTypes => eachFunction p (checkReturnType p)

end Rule

/-- Checks some rules in order. -/
def checkRules (rules : List Rule) (p : Program) (settings : Settings) : Verdict := do
  let c ← Context.ofProgram p settings
  rules |> each (Rule.check p c)

/-- Checks all rules. -/
def checkProgram (p : Program) (settings : Settings) : Verdict := checkRules Rule.all p settings

end SignalGraph.Check

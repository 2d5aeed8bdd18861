import SignalGraph.Check.Fault
import SignalGraph.Program.Basic
import SignalGraph.Settings.Basic

/-!
# SignalGraph.Check.Modules

The declarations of modules: names are distinct, only namespaces hold modules, endpoints and
nodes are complete, everything that runs has an output, and the main module's endpoints are plain.
-/

namespace SignalGraph.Check

/-- Fails at the first item that has the name of an earlier one, or else as `check` says; items
are taken in order. -/
def distinctly {α : Type} (name : α → String) (span : α → Span) (duplicate : String → Fault)
    (check : α → Verdict) : List String → List α → Verdict
  | _, [] => .ok ()
  | seen, a :: as => do
    refuse (seen.contains (name a)) (duplicate (name a)) (span a)
    check a
    distinctly name span duplicate check (name a :: seen) as

/-- The module around a module must be a namespace. -/
def checkParent (p : Program) (id : ModuleId) (m : Module) : Verdict :=
  match p.parentModule? id with
  | none => .ok ()
  | some parent =>
    refuse (!(p.moduleAt parent).isNamespace)
      (.moduleInsideModule m.name (p.moduleAt parent).name) m.span

/-- An array has at least one element and no more than allowed. -/
def checkArraySize (settings : Settings) (name : String) (size : Option Nat) (span : Span) :
    Verdict :=
  match size with
  | none => .ok ()
  | some n =>
    refuse (n = 0 || settings.maxArraySize < n) (.arraySize name n settings.maxArraySize) span

/-- An endpoint is resolved and has a type; only events have several. -/
def checkEndpoint (settings : Settings) (e : Endpoint) : Verdict :=
  match e.details with
  | none => .error ((Fault.unresolvedEndpoint e.name).diagnose e.span)
  | some d => do
    refuse d.types.isEmpty (.noTypes e.name) e.span
    refuse (1 < d.types.length && d.kind ≠ .event) (.severalTypes e.name) e.span
    checkArraySize settings e.name d.arraySize e.span

/-- A node is an instance of something that runs. -/
def checkNode (p : Program) (settings : Settings) (n : Node) : Verdict := do
  checkArraySize settings n.name n.arraySize n.span
  match p.findModule? n.source with
  | none => .error ((Fault.noProcessor n.source).diagnose n.span)
  | some source => refuse (p.moduleAt source).isNamespace (.namespaceInstance n.source) n.span

/-- Endpoints and nodes of a module that runs. -/
def checkRunnable (p : Program) (settings : Settings) (m : Module) : Verdict := do
  distinctly (·.name) (·.span) .duplicateEndpoint (checkEndpoint settings) [] m.endpoints.toList
  distinctly (·.name) (·.span) .duplicateNode (checkNode p settings) [] m.nodes.toList
  refuse m.outputs.isEmpty (.noOutput m.name) m.span

/-- The endpoints of the main module are no arrays, and its inputs have one type. -/
def checkMain (m : Module) : Verdict := do
  m.inputs |> each fun e => do
    refuse ((e.details.map (·.types.length)).getD 0 ≠ 1) (.mainInputTypes e.name) e.span
    refuse e.arraySize?.isSome (.mainEndpointArray e.name) e.span
  m.outputs |> each fun e => refuse e.arraySize?.isSome (.mainEndpointArray e.name) e.span

def checkModules (p : Program) (settings : Settings) (main : Option ModuleId) : Verdict := do
  distinctly (·.2.name) (·.2.span) .duplicateModule (fun (id, m) => checkParent p id m) []
    p.modules.entries
  p.runnable |> each fun (_, m) => checkRunnable p settings m
  match main with
  | none => .ok ()
  | some id => checkMain (p.moduleAt id)

end SignalGraph.Check

import SignalGraph.Check.Functions

/-!
# SignalGraph.Check.Streams

Reads and writes of endpoints: they name an endpoint of the module that can be used so, happen in
functions where it may be used, and pass values of a type that it takes.
-/

namespace SignalGraph.Check

/-- Streams and values are read in the run function. -/
def checkRead (p : Program) (id : FunctionId) (f : Function) (span : Span) (name : String) :
    Verdict := do
  let m := p.moduleAt f.owner
  let kind := (m.findInput? name).bind fun e => (m.endpoints.get e).kind?
  refuse (!(kind = some .stream || kind = some .value)) (.cannotRead name) span
  refuse (f.kind ≠ .run) (.readOutsideRun name (p.functionName id)) span

/-- Events are sent outside initialisers, streams and values are written in the run function. -/
def checkWriter (p : Program) (id : FunctionId) (f : Function) (span : Span) (name : String)
    (kind : EndpointKind) : Verdict :=
  match kind with
  | .event =>
    refuse (f.kind = .userInit || f.kind = .systemInit)
      (.eventFromInit name (p.functionName id)) span
  | .stream | .value => refuse (f.kind ≠ .run) (.writeOutsideRun name (p.functionName id)) span

/-- Only arrays have elements, and a constant index lies within them. -/
def checkElement (p : Program) (span : Span) (name : String) (size : Option Nat) (element : Expr) :
    Verdict :=
  match size, element with
  | none, _ => .error ((Fault.notAnArray name).diagnose span)
  | some n, .const c =>
    match (p.constantAt c).asInt64? with
    | some i => refuse (i.toInt < 0 || (n : Int) ≤ i.toInt) (.indexTooLarge name i.toInt n) span
    | none => .ok ()
  | some _, _ => .ok ()

/-- Whether an endpoint takes a value: as one of its types, or as the elements of an array that is
written as a whole. -/
def accepts (d : EndpointDetails) (whole : Bool) (t : Ty) : Bool :=
  (d.acceptedType? t).isSome ||
    (whole && d.arraySize.isSome && t.elementCount? = d.arraySize &&
      t.elementType?.any fun e => (d.acceptedType? e).isSome)

/-- A write to an output of the module. -/
def checkWrite (p : Program) (id : FunctionId) (f : Function) (span : Span) (name : String)
    (element : Option Expr) (value : Expr) : Verdict :=
  let m := p.moduleAt f.owner
  match (m.findOutput? name).bind fun e => (m.endpoints.get e).details with
  | none => .error ((Fault.cannotWrite name).diagnose span)
  | some d => do
    checkWriter p id f span name d.kind
    element.toList |> each (checkElement p span name d.arraySize)
    let t := p.exprType value
    refuse (!accepts d element.isNone t) (.endpointType name (p.describe t)) span

def checkStatement (p : Program) (id : FunctionId) (f : Function) (span : Span) :
    Statement → Verdict
  | .read _ name => checkRead p id f span name
  | .write name element value => checkWrite p id f span name element value
  | _ => .ok ()

/-- All reads and writes of a function. -/
def checkStreams (p : Program) (id : FunctionId) (f : Function) : Verdict :=
  f.blocks.toList |> each fun b => b.statements |> each (checkStatement p id f b.span)

end SignalGraph.Check

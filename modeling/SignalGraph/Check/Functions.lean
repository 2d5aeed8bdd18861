import SignalGraph.Check.Fault
import SignalGraph.Link.CallGraph
import SignalGraph.Program.Typing

/-!
# SignalGraph.Check.Functions

Rules about functions: where time may pass, who may call whom, what branches pass to blocks, and
what functions return.
-/

namespace SignalGraph.Check

/-! ## Time and calls -/

/-- Whether a function is the run function of a processor. -/
def isProcessorRun (p : Program) (f : Function) : Bool :=
  (p.moduleAt f.owner).isProcessor && f.kind = .run

/-- Whether a statement reads or writes an endpoint. -/
def usesEndpoint : Statement → Bool
  | .read _ _ | .write _ _ _ => true
  | _ => false

/-- Time passes in run functions and only there; what the runtime calls is called by nobody else
but system initialisers; user initialisers touch no endpoints. -/
def checkCalls (p : Program) (id : FunctionId) (f : Function) : Verdict := do
  let run := isProcessorRun p f
  refuse (run && f.hasBody && !f.advances) (.runWithoutAdvance (p.moduleAt f.owner).name) f.span
  refuse (f.advances && !run) (.advanceOutsideRun (p.functionName id)) f.span
  if f.kind ≠ .systemInit then
    match f.distinctCallees.find? fun g => (p.functionAt g).kind.isEntryPoint with
    | some g =>
      throw ((Fault.callsEntryPoint (p.functionName g) (p.functionName id)).diagnose f.span)
    | none => pure ()
  refuse (f.kind = .userInit && f.statements.any usesEndpoint)
    (.endpointsInInit (p.functionName id)) f.span

/-! ## Blocks -/

/-- The values that a branch passes fit the parameters of its target. -/
def checkBranch (p : Program) (id : FunctionId) (f : Function) (span : Span) (target : BlockId)
    (args : List Expr) : Verdict :=
  match f.blocks.get? target with
  | none => .error ((Fault.unknownBlock (p.functionName id)).diagnose span)
  | some b => do
    refuse (b.parameters.length ≠ args.length)
      (.blockArgumentCount b.name b.parameters.length args.length) span
    b.parameters.zip args |> each fun (param, arg) =>
      let expected := (p.variableAt param).ty
      let found := p.exprType arg
      refuse (!expected.canSilentlyCast found)
        (.blockArgumentType b.name (p.describe expected) (p.describe found)) span

/-- Blocks take values only. -/
def checkBlockParameters (p : Program) (b : Block) : Verdict :=
  b.parameters |> each fun v =>
    let t := (p.variableAt v).ty
    refuse (t.isVoid || t.isReference) (.blockParameterType b.name (p.describe t)) b.span

/-- The branches at the end of a block. -/
def checkTerminator (p : Program) (id : FunctionId) (f : Function) (b : Block) : Verdict :=
  match b.terminator with
  | .branch target args => checkBranch p id f b.span target args
  | .branchIf _ ifTrue trueArgs ifFalse falseArgs => do
    refuse (!trueArgs.isEmpty || !falseArgs.isEmpty)
      (.conditionalArguments (p.functionName id)) b.span
    checkBranch p id f b.span ifTrue []
    checkBranch p id f b.span ifFalse []
  | .returnVoid | .returnValue _ => .ok ()

/-- The blocks of a function; the entry takes no parameters. -/
def checkBlocks (p : Program) (id : FunctionId) (f : Function) : Verdict := do
  match f.blocks.toList with
  | [] => pure ()
  | entry :: _ =>
    refuse (!entry.parameters.isEmpty) (.entryParameters (p.functionName id)) entry.span
  f.blocks.toList |> each (checkBlockParameters p)
  f.blocks.toList |> each (checkTerminator p id f)

/-! ## Results -/

def checkReturnType (p : Program) (id : FunctionId) (f : Function) : Verdict :=
  refuse f.returns.isReference (.returnsReference (p.functionName id)) f.span

/-- Checks every function of a program. -/
def eachFunction (p : Program) (check : FunctionId → Function → Verdict) : Verdict :=
  p.functions.entries |> each fun (id, f) => check id f

end SignalGraph.Check

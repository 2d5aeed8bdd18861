import SignalGraph.Diagnostic.Basic

/-!
# SignalGraph.Check.Fault

What the rules can find wrong with a linked program.
-/

namespace SignalGraph.Check

inductive Fault where
  | duplicateModule (name : String)
  | moduleInsideModule (name parent : String)
  | duplicateEndpoint (name : String)
  | duplicateNode (name : String)
  | noOutput (name : String)
  | namespaceInstance (name : String)
  | entryParameters (function : String)
  | blockArgumentCount (block : String) (expected found : Nat)
  | unknownBlock (function : String)
  | unresolvedEndpoint (name : String)
  | noProcessor (name : String)
  | cannotRead (name : String)
  | cannotWrite (name : String)
  | noMainProcessor (name : String)
  | noTypes (name : String)
  | severalTypes (name : String)
  | mainInputTypes (name : String)
  | blockParameterType (block ty : String)
  | blockArgumentType (block expected found : String)
  | endpointType (name ty : String)
  | returnsReference (function : String)
  | notAnArray (name : String)
  | indexTooLarge (name : String) (index : Int) (size : Nat)
  | runWithoutAdvance (processor : String)
  | advanceOutsideRun (function : String)
  | callsEntryPoint (callee caller : String)
  | endpointsInInit (function : String)
  | readOutsideRun (endpoint function : String)
  | writeOutsideRun (endpoint function : String)
  | eventFromInit (endpoint function : String)
  | arraySize (name : String) (size max : Nat)
  | mainEndpointArray (name : String)
  | conditionalArguments (function : String)
deriving DecidableEq, Repr

namespace Fault

def code : Fault → Code
  | duplicateModule _ => ⟨.structural, 301⟩
  | moduleInsideModule _ _ => ⟨.structural, 302⟩
  | duplicateEndpoint _ => ⟨.structural, 303⟩
  | duplicateNode _ => ⟨.structural, 304⟩
  | noOutput _ => ⟨.structural, 305⟩
  | namespaceInstance _ => ⟨.structural, 306⟩
  | entryParameters _ => ⟨.structural, 307⟩
  | blockArgumentCount _ _ _ => ⟨.structural, 308⟩
  | unknownBlock _ => ⟨.structural, 309⟩
  | unresolvedEndpoint _ => ⟨.resolution, 301⟩
  | noProcessor _ => ⟨.resolution, 302⟩
  | cannotRead _ => ⟨.resolution, 303⟩
  | cannotWrite _ => ⟨.resolution, 304⟩
  | noMainProcessor _ => ⟨.resolution, 305⟩
  | noTypes _ => ⟨.typing, 301⟩
  | severalTypes _ => ⟨.typing, 302⟩
  | mainInputTypes _ => ⟨.typing, 303⟩
  | blockParameterType _ _ => ⟨.typing, 304⟩
  | blockArgumentType _ _ _ => ⟨.typing, 305⟩
  | endpointType _ _ => ⟨.typing, 306⟩
  | returnsReference _ => ⟨.typing, 307⟩
  | notAnArray _ => ⟨.graph, 301⟩
  | indexTooLarge _ _ _ => ⟨.graph, 302⟩
  | runWithoutAdvance _ => ⟨.invariant, 301⟩
  | advanceOutsideRun _ => ⟨.invariant, 302⟩
  | callsEntryPoint _ _ => ⟨.invariant, 303⟩
  | endpointsInInit _ => ⟨.invariant, 304⟩
  | readOutsideRun _ _ => ⟨.invariant, 305⟩
  | writeOutsideRun _ _ => ⟨.invariant, 306⟩
  | eventFromInit _ _ => ⟨.invariant, 307⟩
  | arraySize _ _ _ => ⟨.limit, 301⟩
  | mainEndpointArray _ => ⟨.unsupported, 301⟩
  | conditionalArguments _ => ⟨.unsupported, 302⟩

def message : Fault → String
  | duplicateModule name => s!"The module name '{name}' is already in use"
  | moduleInsideModule name parent => s!"The module '{name}' cannot be declared inside '{parent}'"
  | duplicateEndpoint name => s!"The endpoint name '{name}' is already in use"
  | duplicateNode name => s!"The processor name '{name}' is already in use"
  | noOutput name => s!"The processor '{name}' must declare at least one output"
  | namespaceInstance name => s!"'{name}' is a namespace, not a processor or graph"
  | entryParameters function => s!"The entry block of '{function}' cannot take parameters"
  | blockArgumentCount block expected found =>
    s!"Block {block} takes {expected} arguments, but {found} were passed"
  | unknownBlock function => s!"A branch in '{function}' targets a block that does not exist"
  | unresolvedEndpoint name => s!"The endpoint '{name}' could not be resolved"
  | noProcessor name => s!"Cannot find processor '{name}'"
  | cannotRead name => s!"'{name}' is not a stream or value input that can be read"
  | cannotWrite name => s!"'{name}' is not an output that can be written"
  | noMainProcessor name => s!"Cannot find the main processor '{name}'"
  | noTypes name => s!"The endpoint '{name}' has no data type"
  | severalTypes name =>
    s!"The endpoint '{name}' declares several types, but only event endpoints may"
  | mainInputTypes name => s!"The top-level input '{name}' must have exactly one data type"
  | blockParameterType block ty => s!"Block {block} cannot take a parameter of type {ty}"
  | blockArgumentType block expected found =>
    s!"Cannot pass {found} to a parameter of type {expected} of block {block}"
  | endpointType name ty => s!"The endpoint '{name}' cannot accept a value of type {ty}"
  | returnsReference function => s!"The function '{function}' cannot return a reference"
  | notAnArray name => s!"The endpoint '{name}' is not an array and cannot be indexed"
  | indexTooLarge name index size =>
    s!"Index {index} is out of range for the endpoint '{name}', which has {size} elements"
  | runWithoutAdvance processor => s!"The run function of '{processor}' must call advance()"
  | advanceOutsideRun function =>
    s!"advance() can only be called from a processor's run function, not from '{function}'"
  | callsEntryPoint callee caller => s!"The function '{callee}' cannot be called from '{caller}'"
  | endpointsInInit function => s!"'{function}' cannot read or write endpoints"
  | readOutsideRun endpoint function =>
    s!"'{endpoint}' can only be read from the run function, not from '{function}'"
  | writeOutsideRun endpoint function =>
    s!"'{endpoint}' can only be written from the run function, not from '{function}'"
  | eventFromInit endpoint function => s!"The event '{endpoint}' cannot be sent from '{function}'"
  | arraySize name size max =>
    s!"The array size of '{name}' is {size}, but must be between 1 and {max}"
  | mainEndpointArray name => s!"Not yet implemented: top-level endpoint arrays ('{name}')"
  | conditionalArguments function =>
    s!"Not yet implemented: block arguments on a conditional branch in '{function}'"

/-- What the reader may want to know besides. -/
def notes : Fault → List String
  | callsEntryPoint _ _ => ["run, init and event functions are only called by the runtime"]
  | _ => []

/-- What the reader may do about it. -/
def help : Fault → List String
  | moduleInsideModule _ _ => ["only namespaces may contain other modules"]
  | runWithoutAdvance _ => ["a run function that never advances never finishes a frame"]
  | _ => []

/-- The diagnostic that reports the fault at a place. -/
def diagnose (f : Fault) (span : Span) : Diagnostic :=
  { code := f.code, message := f.message, span, notes := f.notes, help := f.help }

end Fault

/-- The outcome of a check: nothing, or the first fault. -/
abbrev Verdict := Except Diagnostic Unit

/-- The verdict on a list of things, in order. -/
def each {α : Type} (check : α → Verdict) : List α → Verdict
  | [] => .ok ()
  | a :: as => do
    check a
    each check as

/-- Fails with a fault if a condition holds. -/
def refuse (condition : Bool) (f : Fault) (span : Span) : Verdict :=
  if condition then .error (f.diagnose span) else .ok ()

end SignalGraph.Check

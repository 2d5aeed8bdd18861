import SignalGraph.Diagnostic.Basic

/-!
# SignalGraph.Link.Fault

What can be wrong with the way modules are put together.
-/

namespace SignalGraph.Link

inductive Fault where
  | noSource (desc : String)
  | noDestination (desc : String)
  | badSourceDirection (direction desc : String)
  | badDestinationDirection (direction desc : String)
  | noProcessor (name : String)
  | noEndpoint (name owner : String)
  | notAGraph (name : String)
  | unresolvedEndpoint (desc : String)
  | typeMismatch (source sourceType dest destType : String)
  | kindMismatch (source sourceKind dest destKind : String)
  | argumentType (param expected found : String)
  | argumentCount (owner : String) (expected found : Nat)
  | feedback (cycle : List String)
  | sourceIndex (desc : String) (index size : Nat)
  | destinationIndex (desc : String) (index size : Nat)
  | eventSizes (source : String) (sourceSize : Nat) (dest : String) (destSize : Nat)
  | recursiveGraph (name : String)
  | delayTooShort
  | delayTooLong (length : Int) (max : Nat)
  | selfRecursion (name : String)
  | mutualRecursion (first second : String)
  | recursionChain (names : List String)
  | infiniteLoop (name : String)
  | stackTooLarge (required max : String)
  | tooManySpecialisations (max : Nat)
  | notYetImplemented (what : String)
deriving DecidableEq, Repr

namespace Fault

def code : Fault → Code
  | noSource _ => ⟨.resolution, 201⟩
  | noDestination _ => ⟨.resolution, 202⟩
  | badSourceDirection _ _ => ⟨.resolution, 203⟩
  | badDestinationDirection _ _ => ⟨.resolution, 204⟩
  | noProcessor _ => ⟨.resolution, 205⟩
  | noEndpoint _ _ => ⟨.resolution, 206⟩
  | notAGraph _ => ⟨.resolution, 207⟩
  | unresolvedEndpoint _ => ⟨.resolution, 208⟩
  | typeMismatch _ _ _ _ => ⟨.typing, 201⟩
  | kindMismatch _ _ _ _ => ⟨.typing, 202⟩
  | argumentType _ _ _ => ⟨.typing, 203⟩
  | argumentCount _ _ _ => ⟨.typing, 204⟩
  | feedback _ => ⟨.graph, 201⟩
  | sourceIndex _ _ _ => ⟨.graph, 202⟩
  | destinationIndex _ _ _ => ⟨.graph, 203⟩
  | eventSizes _ _ _ _ => ⟨.graph, 204⟩
  | recursiveGraph _ => ⟨.graph, 205⟩
  | delayTooShort => ⟨.graph, 206⟩
  | delayTooLong _ _ => ⟨.limit, 201⟩
  | selfRecursion _ => ⟨.invariant, 201⟩
  | mutualRecursion _ _ => ⟨.invariant, 202⟩
  | recursionChain _ => ⟨.invariant, 203⟩
  | infiniteLoop _ => ⟨.invariant, 204⟩
  | stackTooLarge _ _ => ⟨.limit, 202⟩
  | tooManySpecialisations _ => ⟨.limit, 203⟩
  | notYetImplemented _ => ⟨.unsupported, 201⟩

def message : Fault → String
  | noSource desc => s!"Cannot find source endpoint '{desc}'"
  | noDestination desc => s!"Cannot find destination endpoint '{desc}'"
  | badSourceDirection direction desc => s!"Cannot connect from the {direction} '{desc}'"
  | badDestinationDirection direction desc => s!"Cannot connect to the {direction} '{desc}'"
  | noProcessor name => s!"Cannot find processor '{name}'"
  | noEndpoint name owner => s!"Cannot find endpoint '{name}' in '{owner}'"
  | notAGraph name => s!"'{name}' is not a graph"
  | unresolvedEndpoint desc => s!"The endpoint '{desc}' could not be resolved"
  | typeMismatch source sourceType dest destType =>
    s!"Cannot connect {source} ({sourceType}) to {dest} ({destType})"
  | kindMismatch source sourceKind dest destKind =>
    s!"Cannot connect {source} ({sourceKind}) to {dest} ({destKind})"
  | argumentType param expected found =>
    s!"Specialisation argument for '{param}' has type {found}, expected {expected}"
  | argumentCount owner expected found =>
    s!"'{owner}' takes {expected} specialisation arguments, but {found} were given"
  | feedback cycle => "Feedback cycle in graph: " ++ " -> ".intercalate cycle
  | sourceIndex desc index size =>
    s!"Source endpoint index {index} is out of range for '{desc}', which has {size} elements"
  | destinationIndex desc index size =>
    s!"Destination endpoint index {index} is out of range for '{desc}', which has {size} elements"
  | eventSizes source sourceSize dest destSize =>
    s!"Cannot connect {source} (size {sourceSize}) to {dest} (size {destSize})"
  | recursiveGraph name => s!"The graph '{name}' contains itself recursively"
  | delayTooShort => "A delay line length must be greater than zero"
  | delayTooLong length max => s!"Illegal delay line length {length}, the maximum is {max}"
  | selfRecursion name => s!"The function '{name}' calls itself recursively"
  | mutualRecursion first second =>
    s!"The functions '{first}' and '{second}' call each other recursively"
  | recursionChain names => "Recursive call sequence via functions: " ++ ", ".intercalate names
  | infiniteLoop name => s!"The function '{name}' contains at least one infinite loop"
  | stackTooLarge required max =>
    s!"Stack size limit exceeded - program requires {required}, maximum allowed is {max}"
  | tooManySpecialisations max =>
    s!"Exceeded the maximum number of specialised processor instances ({max})"
  | notYetImplemented what => s!"Not yet implemented: {what}"

/-- What the reader may want to know besides. -/
def notes : Fault → List String
  | eventSizes _ _ _ _ => ["event arrays connect one to many, many to one, or between equal sizes"]
  | _ => []

/-- What the reader may do about it. -/
def help : Fault → List String
  | notAGraph _ => ["only graphs can forward endpoints of their own children"]
  | feedback _ => ["add a delay to one of the connections to break the loop"]
  | infiniteLoop _ => ["loops that never return must call advance"]
  | _ => []

/-- The diagnostic that reports the fault at a place. -/
def diagnose (f : Fault) (span : Span) : Diagnostic :=
  { code := f.code, message := f.message, span, notes := f.notes, help := f.help }

end Fault

end SignalGraph.Link

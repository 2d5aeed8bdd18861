import SignalGraph.Heart.Parser.Constant

/-!
# SignalGraph.Heart.Parser.Item

The items of a module: structs, endpoints, parameters, state, nodes, connections and function
signatures.  Function bodies are only skipped here.
-/

namespace SignalGraph.Heart.Parser

/-- A number in brackets, or nothing. -/
def optionalIndex : Parser (Option Nat) := do
  if ← eat .leftBracket then
    let n ← natural
    let _ ← expect .rightBracket
    return some n
  else return none

/-! ## Structs -/

def structItem (m : ModuleId) : Parser Unit := do
  expectKeyword "struct"
  let t ← current
  let name ← identifier
  match (← program).findStruct? m name with
  | none => fail (.unknownName "struct" name) t.span
  | some id =>
    let _ ← expect .leftBrace
    untilClosed .rightBrace do
      let first ← current
      let ty ← type
      let name ← identifier
      let _ ← expect .semicolon
      let p ← lift ((← program).addMember id name ty (← spanFrom first))
      modifyProgram fun _ => p

/-! ## Endpoints -/

/-- The path to an endpoint of a nested node. -/
def endpointPath : Parser (List PathSegment) := do
  let rec go : Nat → Parser (List PathSegment)
    | 0 => expected "identifier"
    | n + 1 => do
      let name ← identifier
      let index ← optionalIndex
      if ← eat .dot then return ⟨name, index⟩ :: (← go n)
      else return [⟨name, index⟩]
  go (← bound)

def endpointDetails : Parser EndpointDetails := do
  let arraySize ← optionalIndex
  let t ← current
  match if t.kind = .identifier then EndpointKind.ofName? t.text else none with
  | none => expected "'stream', 'value' or 'event'"
  | some kind =>
    advance
    let types ← if ← eat .leftParen then commaList .rightParen type else pure [← type]
    return { kind, types, arraySize }

def endpointItem (m : ModuleId) : Parser Unit := do
  let first ← current
  let direction ← if ← eatKeyword "input" then pure .input else do
    expectKeyword "output"
    pure .output
  let name ← identifier
  let (details, path) ← if ← eat .equals then pure (none, some (← endpointPath))
    else pure (some (← endpointDetails), none)
  let exposed ← eatKeyword "exposed"
  let annotations ← annotations
  let _ ← expect .semicolon
  let span ← spanFrom first
  modifyProgram (·.modifyModule m
    (·.addEndpoint { name, direction, details, path, exposed, annotations, span }))

/-! ## Variables -/

def parameterItem (m : ModuleId) : Parser Unit := do
  let first ← current
  expectKeyword "param"
  let ty ← type
  let name ← identifier
  let _ ← expect .semicolon
  let span ← spanFrom first
  let _ ← add (·.addParameter m name ty span)

def stateItem (m : ModuleId) : Parser Unit := do
  let first ← current
  let role ← if ← eatKeyword "let" then pure .constant else do
    expectKeyword "var"
    if ← eatKeyword "external" then pure .external else pure .state
  let ty ← type
  let name ← identifier
  let initial ← if ← eat .equals then pure (some (← internedConstant)) else pure none
  let annotations ← annotations
  let _ ← expect .semicolon
  let span ← spanFrom first
  let _ ← add (·.addState m { name, ty, role, initial, annotations, span })

/-! ## Nodes and connections -/

/-- The rate of a node after `*` or `/`. -/
def clockRatio : Parser ClockRatio := do
  let span := (← current).span
  if ← eat .star then lift (ClockRatio.ofMultiplier (← wide) span)
  else if ← eat .slash then lift (ClockRatio.ofDivider (← wide) span)
  else return .one

def nodeItem (m : ModuleId) : Parser Unit := do
  let first ← current
  expectKeyword "node"
  let name ← identifier
  let _ ← expect .equals
  let source ← qualifiedName
  let arraySize ← optionalIndex
  let values ← if ← eat .leftParen then commaList .rightParen constant else pure []
  let args ← values.mapM fun v => add (·.intern v)
  let clock ← clockRatio
  let _ ← expect .semicolon
  let span ← spanFrom first
  modifyProgram (·.modifyModule m (·.addNode { name, source, args, arraySize, clock, span }))

def endpointRef (m : ModuleId) : Parser EndpointRef := do
  let t ← current
  let first ← identifier
  let (node, endpoint) ← if ← eat .dot then
      match ((← program).moduleAt m).findNode? first with
      | some node => pure (some node, ← identifier)
      | none => fail (.unknownName "processor instance" first) t.span
    else pure (none, first)
  return { node, endpoint, index := ← optionalIndex }

/-- A kind of interpolation, if it stands before the first end of a connection. -/
def interpolation : Parser Interpolation := do
  let t ← current
  if t.kind = .identifier && (← nextIs .identifier) then
    match Interpolation.ofName? t.text with
    | some i => do advance; return i
    | none => return .none
  else return .none

def connectionItem (m : ModuleId) : Parser Unit := do
  let first ← current
  expectKeyword "connection"
  let interpolation ← interpolation
  let source ← endpointRef m
  let _ ← expect .arrow
  let delay ← if ← eat .leftBracket then do
      let frames ← wide
      let _ ← expect .rightBracket
      let _ ← expect .arrow
      pure (some frames)
    else pure none
  let dest ← endpointRef m
  let _ ← expect .semicolon
  let span ← spanFrom first
  modifyProgram (·.modifyModule m (·.addConnection { source, dest, interpolation, delay, span }))

/-! ## Functions -/

/-- A parameter of a function, added to the program. -/
def functionParameter : Parser VariableId := do
  let first ← current
  let ty ← type
  let name := (← expect .localName).text
  let span ← spanFrom first
  add (·.addVariable { name, ty, role := .parameter, span })

/-- A function whose body is still to be read. -/
structure PendingBody where
  function : FunctionId
  /-- The place of the opening brace. -/
  start : Cursor

/-- A function without its body, which is skipped if there is one. -/
def functionItem (m : ModuleId) : Parser (Option PendingBody) := do
  let first ← current
  let keyword ← identifier
  let name ← identifier
  let _ ← expect .leftParen
  let parameters ← commaList .rightParen functionParameter
  let _ ← expect .arrow
  let returns ← type
  let inProcessor := ((← program).moduleAt m).isProcessor
  let kind : FunctionKind :=
    if keyword = "event" then .event
    else if keyword = "intrinsic" then .intrinsic
    else if inProcessor then .ofProcessorFunction name
    else .normal
  let annotations ← annotations
  let span ← spanFrom first
  let id ← add (·.addFunction { name, owner := m, kind, returns, parameters, annotations, span })
  if ← eat .semicolon then return none
  let start ← cursor
  skipBalanced .leftBrace .rightBrace
  return some ⟨id, start⟩

/-- One item; for a function with a body, what is still to be read. -/
def item (m : ModuleId) : Parser (Option PendingBody) := do
  match (← current).text with
  | "struct" => do structItem m; return none
  | "input" | "output" => do endpointItem m; return none
  | "param" => do parameterItem m; return none
  | "var" | "let" => do stateItem m; return none
  | "node" => do nodeItem m; return none
  | "connection" => do connectionItem m; return none
  | "function" | "event" | "intrinsic" => functionItem m
  | _ => expected "a module item"

/-- The items of a module up to its closing brace. -/
def items (m : ModuleId) : Nat → Parser (List PendingBody)
  | 0 => expected "a module item"
  | n + 1 => do
    if ← eat .rightBrace then return []
    let pending ← item m
    return pending.toList ++ (← items m n)

end SignalGraph.Heart.Parser

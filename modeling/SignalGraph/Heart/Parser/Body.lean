import SignalGraph.Heart.Parser.Expr

/-!
# SignalGraph.Heart.Parser.Body

Function bodies: local variables, then blocks of statements.  Block labels are declared before
the blocks are read, so that branches can go forward.
-/

namespace SignalGraph.Heart.Parser

/-! ## Statements -/

/-- A call with its keyword. -/
def call (scope : Scope) : Parser (FunctionId × List Expr) := do
  expectKeyword "call"
  let f ← functionRef
  return (f, ← arguments (expr scope))

/-- What is written to an output. -/
def write (scope : Scope) : Parser Statement := do
  let endpoint ← identifier
  let element ← if ← eat .leftBracket then do
      let e ← expr scope
      let _ ← expect .rightBracket
      pure (some e)
    else pure none
  return .write endpoint element (← expr scope)

/-- What is stored into a target. -/
def store (scope : Scope) : Parser Statement := do
  let _ ← eatKeyword "let"
  let target ← expr scope
  let _ ← expect .equals
  if ← eatKeyword "read" then return .read target (← identifier)
  else if ← atKeyword "call" then
    let (f, args) ← call scope
    return .call (some target) f args
  else return .assign target (← expr scope)

/-- A statement without the semicolon at its end. -/
def bareStatement (scope : Scope) : Parser Statement := do
  if ← eatKeyword "advance" then return .advance
  else if ← atKeyword "call" then
    let (f, args) ← call scope
    return .call none f args
  else if ← eatKeyword "write" then write scope
  else store scope

def statement (scope : Scope) : Parser Statement := do
  let s ← bareStatement scope
  let _ ← expect .semicolon
  return s

/-! ## Blocks -/

def blockRef (scope : Scope) : Parser BlockId := do
  let t ← expect .blockLabel
  match scope.blocks.lookup t.text with
  | some b => return b
  | none => fail (.unknownName "block" t.text) t.span

/-- A block to go to, and the values for its parameters. -/
def branchTarget (scope : Scope) : Parser (BlockId × List Expr) := do
  let b ← blockRef scope
  let args ← if ← at_ .leftParen then arguments (expr scope) else pure []
  return (b, args)

/-- What ends a block, or nothing if a statement comes next. -/
def terminator (scope : Scope) : Parser (Option Terminator) := do
  if ← eatKeyword "branch" then
    let (b, args) ← branchTarget scope
    return some (.branch b args)
  else if ← eatKeyword "branch_if" then
    let c ← expr scope
    let _ ← expect .question
    let (t, trueArgs) ← branchTarget scope
    let _ ← expect .colon
    let (f, falseArgs) ← branchTarget scope
    return some (.branchIf c t trueArgs f falseArgs)
  else if ← eatKeyword "return" then
    if ← at_ .semicolon then return some .returnVoid
    else return some (.returnValue (← expr scope))
  else return none

def modifyBlock (f : FunctionId) (b : BlockId) (change : Block → Block) : Parser Unit :=
  modifyProgram (·.modifyFunction f fun fn => { fn with blocks := fn.blocks.modify b change })

/-- A typed local name, added to the program. -/
def declaredVariable (role : VariableRole) : Parser (String × VariableId) := do
  let ty ← type
  let name := (← expect .localName).text
  return (name, ← add (·.addVariable { name, ty, role }))

/-- The statements of a block up to its terminator. -/
def blockBody (scope : Scope) (f : FunctionId) (b : BlockId) : Parser Unit := do
  let rec go : Nat → Parser Unit
    | 0 => expected "an expression"
    | n + 1 => do
      match ← terminator scope with
      | some terminator =>
        let _ ← expect .semicolon
        modifyBlock f b fun k => { k with terminator }
      | none =>
        let s ← statement scope
        modifyBlock f b fun k => { k with statements := k.statements ++ [s] }
        go n
  go (← bound)

/-- One block; its parameters stay in scope for the blocks after it. -/
def block (f : FunctionId) (scope : Scope) : Parser Scope := do
  let first ← current
  let b ← blockRef scope
  let params ← if ← eat .leftParen then commaList .rightParen (declaredVariable .parameter)
    else pure []
  modifyBlock f b fun k => { k with parameters := k.parameters ++ params.map (·.2) }
  let scope := { scope with vars := params.reverse ++ scope.vars }
  let _ ← expect .colon
  let span ← spanFrom first
  modifyBlock f b fun k => { k with span }
  blockBody scope f b
  return scope

def blocks (f : FunctionId) : Nat → Scope → Parser Unit
  | 0, _ => expected "block label"
  | n + 1, scope => do
    unless ← eat .rightBrace do blocks f n (← block f scope)

/-- The labels of the blocks of a body: those after a semicolon or an opening brace, up to the
brace that closes the body. -/
def blockLabels : TokenKind → Nat → List Token → List String
  | _, _, [] => []
  | before, depth, t :: rest =>
    match t.kind with
    | .leftBrace => blockLabels t.kind (depth + 1) rest
    | .rightBrace => if depth = 0 then [] else blockLabels t.kind (depth - 1) rest
    | .blockLabel =>
      if before = .semicolon || before = .leftBrace then t.text :: blockLabels t.kind depth rest
      else blockLabels t.kind depth rest
    | _ => blockLabels t.kind depth rest

/-- Adds a block for every label. -/
def addBlocks (f : FunctionId) : List String → Scope → Parser Scope
  | [], scope => return scope
  | label :: labels, scope => do
    let id := ((← program).functionAt f).blocks.next
    modifyProgram (·.modifyFunction f fun fn =>
      { fn with blocks := fn.blocks.push (.ofName label) })
    addBlocks f labels { scope with blocks := (label, id) :: scope.blocks }

/-- Adds the blocks of the body that comes next. -/
def declareBlocks (f : FunctionId) (scope : Scope) : Parser Scope := do
  let c ← cursor
  addBlocks f (blockLabels c.before.kind 0 c.rest) scope

/-! ## Bodies -/

/-- The role that a keyword gives to the local variable after it, if there is one. -/
def localRole : Parser (Option VariableRole) := do
  if ← eatKeyword "let" then return some .constant
  else if ← eatKeyword "var" then return some .mutableLocal
  else return none

/-- The declarations of local variables before the blocks. -/
def locals (f : FunctionId) : Nat → Scope → Parser Scope
  | 0, scope => return scope
  | n + 1, scope => do
    let first ← current
    match ← localRole with
    | none => return scope
    | some role =>
      let (name, id) ← declaredVariable role
      let _ ← expect .semicolon
      let span ← spanFrom first
      modifyProgram fun p => (p.modifyVariable id fun v => { v with span }).modifyFunction f
        fun fn => { fn with locals := fn.locals ++ [id] }
      locals f n { scope with vars := (name, id) :: scope.vars }

def functionBody (f : FunctionId) : Parser Unit := do
  let p ← program
  let parameters := (p.functionAt f).parameters.map fun v => ((p.variableAt v).name, v)
  let _ ← expect .leftBrace
  let scope ← locals f (← bound) { vars := parameters.reverse }
  let scope ← declareBlocks f scope
  blocks f (← bound) scope

end SignalGraph.Heart.Parser

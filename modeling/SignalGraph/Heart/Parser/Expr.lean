import SignalGraph.Heart.Parser.Constant

/-!
# SignalGraph.Heart.Parser.Expr

Expressions.  Which word starts an expression decides its form; a word that starts none is read
as a module variable if it is a path to one, and else as a constant.
-/

namespace SignalGraph.Heart.Parser

/-- The names that a function body can refer to; of several with one name the latest counts. -/
structure Scope where
  vars : List (String × VariableId) := []
  blocks : List (String × BlockId) := []

/-- A function by its path. -/
def functionRef : Parser FunctionId := do
  let t ← current
  let path ← qualifiedName
  match (← program).functionByPath? path with
  | some f => return f
  | none => fail (.unknownName "function" path) t.span

/-- The arguments of a call. -/
def arguments (expr : Parser Expr) : Parser (List Expr) := do
  let _ ← expect .leftParen
  commaList .rightParen expr

/-- A local variable. -/
def localVariable (scope : Scope) : Parser Expr := do
  let t ← current
  match scope.vars.lookup t.text with
  | some v => do advance; return .var v
  | none => fail (.unknownName "variable" t.text) t.span

def castExpr (expr : Parser Expr) : Parser Expr := do
  advance
  let ty ← type
  let _ ← expect .leftParen
  let source ← expr
  let _ ← expect .rightParen
  return .cast ty source

def pureCall (expr : Parser Expr) : Parser Expr := do
  advance
  let f ← functionRef
  return .pureCall f (← arguments expr)

def processorProperty : Parser Expr := do
  advance
  advance
  let t ← current
  let name ← identifier
  match Property.ofName? name with
  | some p => return .property p
  | none => fail (.unknownName "processor property" name) t.span

def unaryExpr (expr : Parser Expr) (op : UnaryOp) : Parser Expr := do
  advance
  advance
  let source ← expr
  let _ ← expect .rightParen
  return .unary op source

def binaryExpr (expr : Parser Expr) (op : BinaryOp) : Parser Expr := do
  advance
  advance
  let lhs ← expr
  let _ ← expect .comma
  let rhs ← expr
  let _ ← expect .rightParen
  return .binary op lhs rhs

/-- A module variable by its path, or a constant. -/
def pathOrConstant : Parser Expr := do
  let here ← cursor
  let found ← if ← nextIs .doubleColon then
      let path ← qualifiedName
      pure ((← program).variableByPath? path)
    else pure none
  match found with
  | some v => return .var v
  | none => do
    moveTo here
    return .const (← internedConstant)

/-- An expression that starts with a word. -/
def wordExpr (expr : Parser Expr) : Parser Expr := do
  let word := (← current).text
  let called ← nextIs .leftParen
  if word = "cast" then castExpr expr
  else if word = "pure_call" then pureCall expr
  else if word = "processor" && (← nextIs .dot) then processorProperty
  else
    match (if called then UnaryOp.ofName? word else none),
      (if called then BinaryOp.ofName? word else none) with
    | some op, _ => unaryExpr expr op
    | none, some op => binaryExpr expr op
    | none, none => pathOrConstant

/-- An expression without selections. -/
def primaryExpr (scope : Scope) (expr : Parser Expr) : Parser Expr := do
  match (← current).kind with
  | .localName => localVariable scope
  | .identifier => wordExpr expr
  | .integer | .float | .stringLiteral => return .const (← internedConstant)
  | _ => expected "an expression"

/-- What stands in brackets after `parent`: a position, a range or an expression. -/
def indexed (expr : Parser Expr) (parent : Expr) : Parser Expr := do
  advance
  let selected ←
    if (← at_ .integer) && (← nextIs .rightBracket) then
      pure (.element parent (← natural))
    else if (← at_ .integer) && (← nextIs .colon) then do
      let start ← natural
      let _ ← expect .colon
      pure (.slice parent start (← natural))
    else
      pure (.elementAt parent (← expr))
  let _ ← expect .rightBracket
  return selected

/-- The selections after an expression. -/
def selections (expr : Parser Expr) : Nat → Expr → Parser Expr
  | 0, e => return e
  | n + 1, e => do
    if ← at_ .leftBracket then selections expr n (← indexed expr e)
    else if (← at_ .dot) && (← nextIs .identifier) then
      advance
      selections expr n (.member e (← identifier))
    else return e

/-- An expression whose nesting is at most the given depth. -/
def exprTo (scope : Scope) : Nat → Parser Expr
  | 0 => expected "an expression"
  | n + 1 => do
    let e ← primaryExpr scope (exprTo scope n)
    selections (exprTo scope n) (← bound) e

def expr (scope : Scope) : Parser Expr := do exprTo scope (← bound)

end SignalGraph.Heart.Parser

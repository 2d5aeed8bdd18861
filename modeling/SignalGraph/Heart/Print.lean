import SignalGraph.Float.Decimal
import SignalGraph.Heart.Fault
import SignalGraph.Heart.Lexer
import SignalGraph.Heart.Quoted
import SignalGraph.Program.Basic

/-!
# SignalGraph.Heart.Print

Writing a program as text.  Every construct has one written form, which the parser reads back.
-/

namespace SignalGraph.Heart

/-- Texts joined by commas. -/
def commaSeparated (parts : List String) : String := ", ".intercalate parts

/-- One line, indented by four blanks for every level. -/
def line (depth : Nat) (text : String) : String :=
  String.ofList (List.replicate (4 * depth) ' ') ++ text ++ "\n"

/-- A number in brackets, or nothing. -/
def bracketed : Option Nat → String
  | some n => "[" ++ toString n ++ "]"
  | none => ""

/-! ## Constants -/

/-- The shortest text of a finite float, or the name of another one. -/
def floatText (f : Float.Format) (width suffix : String) (bits : Nat) : String :=
  match Float.decode f bits with
  | .nan _ _ => "_nan" ++ width
  | .infinite neg => (if neg then "_ninf" else "_inf") ++ width
  | .finite neg m q => Float.finiteText f neg m q ++ suffix

mutual

def valueText (p : Program) : Value → String
  | .void => "void"
  | .bool b => if b then "true" else "false"
  | .int32 n => toString n.toInt
  | .int64 n => toString n.toInt ++ "L"
  | .float32 b => floatText Float.binary32 "32" "f" b.toNat
  | .float64 b => floatText Float.binary64 "64" "" b.toNat
  | .string id => escape (p.textAt id)
  | .aggregate t vs => p.describe t ++ " (" ++ commaSeparated (valueTexts p vs) ++ ")"
  | .zero t => p.describe t ++ " ()"

def valueTexts (p : Program) : List Value → List String
  | [] => []
  | v :: vs => valueText p v :: valueTexts p vs

end

def constantText (p : Program) (id : ConstantId) : String := valueText p (p.constantAt id)

/-- Whether a text can stand as a name without quotes. -/
def isIdentifier (s : String) : Bool :=
  match s.toList with
  | c :: cs => isIdentStart c && cs.all isIdentChar
  | [] => false

/-- Annotations in double brackets after a blank; nothing if there are none. -/
def annotationsText (p : Program) (a : Annotations) : String :=
  if a.isEmpty then ""
  else
    let properties := a.properties.map fun (key, id) =>
      (if isIdentifier key then key else escape key) ++ ": " ++ constantText p id
    " [[" ++ commaSeparated properties ++ "]]"

/-! ## Expressions -/

/-- The module that lists a variable; of several the last. -/
def ownerOf? (p : Program) (v : VariableId) : Option Module :=
  p.modules.toList.reverse.find? fun m => m.state.contains v || m.parameters.contains v

/-- The name by which a variable is used: module variables go by their path. -/
def variableText (p : Program) (v : VariableId) : String :=
  let name := (p.variableAt v).name
  match ownerOf? p v with
  | some m => m.name ++ "::" ++ name
  | none => name

mutual

def exprText (p : Program) : Expr → String
  | .var v => variableText p v
  | .const c => constantText p c
  | .element e i => exprText p e ++ "[" ++ toString i ++ "]"
  | .elementAt e i => exprText p e ++ "[" ++ exprText p i ++ "]"
  | .member e name => exprText p e ++ "." ++ name
  | .slice e start stop => exprText p e ++ "[" ++ toString start ++ ":" ++ toString stop ++ "]"
  | .cast t e => "cast " ++ p.describe t ++ " (" ++ exprText p e ++ ")"
  | .unary op e => op.name ++ " (" ++ exprText p e ++ ")"
  | .binary op l r => op.name ++ " (" ++ exprText p l ++ ", " ++ exprText p r ++ ")"
  | .pureCall f args =>
    "pure_call " ++ p.functionName f ++ " (" ++ commaSeparated (exprTexts p args) ++ ")"
  | .property q => "processor." ++ q.name

def exprTexts (p : Program) : List Expr → List String
  | [] => []
  | e :: es => exprText p e :: exprTexts p es

end

/-! ## Statements -/

def callText (p : Program) (f : FunctionId) (args : List Expr) : String :=
  "call " ++ p.functionName f ++ " (" ++ commaSeparated (exprTexts p args) ++ ")"

/-- A statement.  An assignment to a constant variable is marked as its definition. -/
def statementText (p : Program) : Statement → String
  | .assign target value =>
    let definition : Bool := match target with
      | .var v => (p.variableAt v).role == .constant
      | _ => false
    (if definition then "let " else "") ++ exprText p target ++ " = " ++ exprText p value ++ ";"
  | .call none f args => callText p f args ++ ";"
  | .call (some target) f args => exprText p target ++ " = " ++ callText p f args ++ ";"
  | .read target endpoint => exprText p target ++ " = read " ++ endpoint ++ ";"
  | .write endpoint none value => "write " ++ endpoint ++ " " ++ exprText p value ++ ";"
  | .write endpoint (some element) value =>
    "write " ++ endpoint ++ "[" ++ exprText p element ++ "] " ++ exprText p value ++ ";"
  | .advance => "advance;"

def targetText (p : Program) (f : Function) (b : BlockId) (args : List Expr) : String :=
  let name := (f.blocks.get b).name
  if args.isEmpty then name else name ++ " (" ++ commaSeparated (exprTexts p args) ++ ")"

def terminatorText (p : Program) (f : Function) : Terminator → String
  | .branch b args => "branch " ++ targetText p f b args ++ ";"
  | .branchIf c t trueArgs e falseArgs =>
    "branch_if " ++ exprText p c ++ " ? " ++ targetText p f t trueArgs ++ " : " ++
      targetText p f e falseArgs ++ ";"
  | .returnVoid => "return;"
  | .returnValue v => "return " ++ exprText p v ++ ";"

/-! ## Functions -/

/-- A variable with its type. -/
def declarationText (p : Program) (v : VariableId) : String :=
  p.describe (p.variableAt v).ty ++ " " ++ (p.variableAt v).name

def declarationTexts (p : Program) (vs : List VariableId) : String :=
  commaSeparated (vs.map (declarationText p))

def localText (p : Program) (v : VariableId) : String :=
  (if (p.variableAt v).role == .constant then "let " else "var ") ++ declarationText p v ++ ";"

def blockText (p : Program) (f : Function) (b : Block) : String :=
  let parameters :=
    if b.parameters.isEmpty then "" else " (" ++ declarationTexts p b.parameters ++ ")"
  line 2 (b.name ++ parameters ++ ":") ++
    String.join (b.statements.map fun s => line 3 (statementText p s)) ++
    line 3 (terminatorText p f b.terminator)

def functionKeyword : FunctionKind → String
  | .event => "event"
  | .intrinsic => "intrinsic"
  | _ => "function"

def functionText (p : Program) (f : Function) : String :=
  let header := functionKeyword f.kind ++ " " ++ f.name ++
    " (" ++ declarationTexts p f.parameters ++ ") -> " ++ p.describe f.returns ++
      annotationsText p f.annotations
  if f.hasBody then
    line 1 header ++ line 1 "\x7b" ++
      String.join (f.locals.map fun v => line 2 (localText p v)) ++
      String.join (f.blocks.toList.map (blockText p f)) ++ line 1 "\x7d"
  else line 1 (header ++ ";")

/-! ## Modules -/

def structText (p : Program) (s : Structure) : String :=
  line 1 ("struct " ++ s.name) ++ line 1 "\x7b" ++
    String.join (s.members.map fun m => line 2 (p.describe m.ty ++ " " ++ m.name ++ ";")) ++
    line 1 "\x7d"

def detailsText (p : Program) (d : EndpointDetails) : String :=
  let types := match d.types with
    | [t] => p.describe t
    | ts => "(" ++ commaSeparated (ts.map p.describe) ++ ")"
  bracketed d.arraySize ++ " " ++ d.kind.name ++ " " ++ types

def pathText (path : List PathSegment) : String :=
  " = " ++ ".".intercalate (path.map fun s => s.name ++ bracketed s.index)

/-- An endpoint: by its details if it is resolved, else by its path. -/
def endpointText (p : Program) (e : Endpoint) : String :=
  let what := match e.details, e.path with
    | some d, _ => detailsText p d
    | none, some path => pathText path
    | none, none => " = ?"
  e.direction.keyword ++ " " ++ e.name ++ what ++ (if e.exposed then " exposed" else "") ++
    annotationsText p e.annotations ++ ";"

def stateText (p : Program) (v : Variable) : String :=
  let keyword := match v.role with
    | .external => "var external"
    | .constant => "let"
    | _ => "var"
  let initial := match v.initial with
    | some c => " = " ++ constantText p c
    | none => ""
  keyword ++ " " ++ p.describe v.ty ++ " " ++ v.name ++ initial ++
    annotationsText p v.annotations ++ ";"

def nodeText (p : Program) (n : Node) : String :=
  let args :=
    if n.args.isEmpty then "" else " (" ++ commaSeparated (n.args.map (constantText p)) ++ ")"
  let rate :=
    if n.clock.multiplier ≠ 1 then " * " ++ toString n.clock.multiplier
    else if n.clock.divider ≠ 1 then " / " ++ toString n.clock.divider
    else ""
  "node " ++ n.name ++ " = " ++ n.source ++ bracketed n.arraySize ++ args ++ rate ++ ";"

def endpointRefText (m : Module) (r : EndpointRef) : String :=
  let node := match r.node with
    | none => ""
    | some id => ((m.nodes.get? id).map (·.name)).getD "?" ++ "."
  node ++ r.endpoint ++ bracketed r.index

def connectionText (m : Module) (c : Connection) : String :=
  let interpolation := if c.interpolation = .none then "" else c.interpolation.name ++ " "
  let delay := match c.delay with
    | some d => "[" ++ toString d ++ "] -> "
    | none => ""
  "connection " ++ interpolation ++ endpointRefText m c.source ++ " -> " ++ delay ++
    endpointRefText m c.dest ++ ";"

def moduleText (p : Program) (m : Module) : String :=
  line 0 (m.kind.keyword ++ " " ++ m.name ++ annotationsText p m.annotations) ++ line 0 "\x7b" ++
    String.join (m.structs.map fun s => structText p (p.structAt s)) ++
    String.join (m.endpoints.toList.map fun e => line 1 (endpointText p e)) ++
    String.join (m.parameters.map fun v => line 1 ("param " ++ declarationText p v ++ ";")) ++
    String.join (m.state.map fun v => line 1 (stateText p (p.variableAt v))) ++
    String.join (m.nodes.toList.map fun n => line 1 (nodeText p n)) ++
    String.join (m.connections.toList.map fun c => line 1 (connectionText m c)) ++
    String.join (m.functions.map fun f => functionText p (p.functionAt f)) ++
    line 0 "\x7d"

/-! ## Programs -/

/-- The text of a program. -/
def print (p : Program) : String :=
  line 0 ("#HEART " ++ version) ++
    String.join (p.modules.toList.map fun m => "\n" ++ moduleText p m)

end SignalGraph.Heart

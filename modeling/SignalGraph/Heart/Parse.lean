import SignalGraph.Heart.Lexer
import SignalGraph.Heart.Parser.Body
import SignalGraph.Heart.Parser.Item

/-!
# SignalGraph.Heart.Parse

Reading a program from its text, in three passes over the tokens: modules and the names of their
structs, then the items of every module, then function bodies.  So everything can be used before
it is declared.
-/

namespace SignalGraph.Heart

namespace Parser

/-! ## Header -/

/-- The format's name and version.  The fault quotes the text from its start to the first token
that does not fit. -/
def header (text : String) : Parser Unit := do
  let first ← current
  let valid ← do
    if (← eat .hash) then
      if (← eatKeyword "HEART") then
        let t ← current
        pure (t.kind = .integer && t.text = version)
      else pure false
    else pure false
  if valid then advance
  else
    let span := (← spanFrom first).cover (← current).span
    let found := (Text.byteSlice? text.toList span.start span.stop).getD []
    fail (.unsupportedVersion (String.ofList found)) span

/-! ## Modules -/

/-- A module whose items are still to be read. -/
structure Outline where
  id : ModuleId
  /-- The place after the name. -/
  annotations : Cursor
  /-- The place after the opening brace. -/
  body : Cursor

/-- Adds the structs that a module body names, and passes its closing brace. -/
def structNames (m : ModuleId) : Nat → Nat → Parser Unit
  | 0, _ => expected "'\x7d'"
  | n + 1, depth => do
    let t ← current
    match t.kind with
    | .eof => expected "'\x7d'"
    | .leftBrace => do advance; structNames m n (depth + 1)
    | .rightBrace => do
      advance
      if depth = 0 then return else structNames m n (depth - 1)
    | _ => do
      advance
      if t.kind = .identifier && t.text = "struct" && depth = 0 then
        let name ← identifier
        let span ← spanFrom t
        let _ ← add (·.addStruct m name span)
      structNames m n depth

/-- One module without its items. -/
def outline : Parser Outline := do
  let first ← current
  match if first.kind = .identifier then ModuleKind.ofKeyword? first.text else none with
  | none => expected "'processor', 'graph' or 'namespace'"
  | some kind =>
    advance
    let name ← qualifiedName
    let span ← spanFrom first
    let id ← add (·.addModule kind name)
    modifyProgram (·.modifyModule id fun m => { m with span })
    let annotations ← cursor
    if ← at_ .leftBracket then skipBalanced .leftBracket .rightBracket
    let _ ← expect .leftBrace
    let body ← cursor
    structNames id (← bound) 0
    return ⟨id, annotations, body⟩

def outlines : Nat → Parser (List Outline)
  | 0 => return []
  | n + 1 => do
    if ← at_ .eof then return []
    let o ← outline
    return o :: (← outlines n)

/-- The annotations and the items of a module. -/
def contents (o : Outline) : Parser (List PendingBody) := do
  moveTo o.annotations
  let annotations ← annotations
  modifyProgram (·.modifyModule o.id fun m => { m with annotations })
  moveTo o.body
  items o.id (← bound)

def body (b : PendingBody) : Parser Unit := do
  moveTo b.start
  functionBody b.function

/-! ## Programs -/

/-- Everything that a text holds. -/
def wholeProgram (text : String) : Parser Unit := do
  header text
  let modules ← outlines (← bound)
  let bodies ← modules.mapM contents
  bodies.flatten.forM body

end Parser

/-- Reads a program from a registered text. -/
def parseFile (file : FileId) (text : String) : Except Diagnostic Program := do
  let tokens ← lex file text
  let (_, s) ← (Parser.wholeProgram text).run ⟨.start file tokens, {}⟩
  return s.program

/-- Reads a program from a text that stands alone. -/
def parse (text : String) : Except Diagnostic Program := parseFile ⟨0⟩ text

end SignalGraph.Heart

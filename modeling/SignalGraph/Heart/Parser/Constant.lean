import SignalGraph.Float.Decimal
import SignalGraph.Heart.Parser.Cursor
import SignalGraph.Heart.Quoted

/-!
# SignalGraph.Heart.Parser.Constant

Types, constants and annotations.
-/

namespace SignalGraph.Heart.Parser

/-! ## Types -/

/-- Whether a length in brackets, or empty brackets, come next. -/
def atArraySuffix : Parser Bool := do
  return (← kindAt 0) = .leftBracket && ((← kindAt 1) = .rightBracket ||
    ((← kindAt 1) = .integer && (← kindAt 2) = .rightBracket))

/-- The lengths after an element type, innermost first. -/
def arraySuffixes : Nat → Ty → Parser Ty
  | 0, t => return t
  | n + 1, t => do
    if ← atArraySuffix then
      advance
      if ← eat .rightBracket then arraySuffixes n (.array t none)
      else
        let length ← natural
        let _ ← expect .rightBracket
        arraySuffixes n (.array t (some length))
    else return t

/-- A type without qualifiers and array lengths. -/
def plainType : Parser Ty := do
  let t ← current
  if t.kind ≠ .identifier then expected "a type"
  else
    match Prim.ofName? t.text with
    | some p =>
      advance
      if ← eat .less then
        let lanes ← natural
        let _ ← expect .greater
        return .vector p lanes
      else return .prim p
    | none =>
      if t.text = "string" then
        advance
        return .string
      else
        let path ← qualifiedName
        match (← program).structByPath? path with
        | some id => return .struct id
        | none => fail (.unknownName "type" path) t.span

def type : Parser Ty := do
  let isConst ← eatKeyword "const"
  let t ← arraySuffixes (← bound) (← plainType)
  let t := if isConst then t.asConst else t
  if ← eat .ampersand then return t.asReference else return t

/-! ## Constants -/

/-- The value of an integer literal: of 64 bits if it ends in `L`, else of 32. -/
def integerValue? (text : String) : Option Value :=
  match text.toList.getLast? with
  | some 'L' =>
    (readIntIn? Int64.minValue.toInt Int64.maxValue.toInt text.toList.dropLast).map
      fun n => .int64 (.ofInt n)
  | _ =>
    (readIntIn? Int32.minValue.toInt Int32.maxValue.toInt text.toList).map
      fun n => .int32 (.ofInt n)

/-- The value of a float literal: single precision if it ends in `f`. -/
def floatValue (text : String) : Value :=
  if text.endsWith "f" then .float32 (Float.ofText Float.binary32 text).toUInt32
  else .float64 (Float.ofText Float.binary64 text).toUInt64

/-- The constants that have a name of their own. -/
def namedValue? : String → Option Value
  | "true" => some (.bool true)
  | "false" => some (.bool false)
  | "_nan32" => some (.float32 Float.binary32.nanBits.toUInt32)
  | "_inf32" => some (.float32 Float.binary32.infinityBits.toUInt32)
  | "_ninf32" => some (.float32 (Float.binary32.withSign true Float.binary32.infinityBits).toUInt32)
  | "_nan64" => some (.float64 Float.binary64.nanBits.toUInt64)
  | "_inf64" => some (.float64 Float.binary64.infinityBits.toUInt64)
  | "_ninf64" => some (.float64 (Float.binary64.withSign true Float.binary64.infinityBits).toUInt64)
  | _ => none

/-- A constant whose elements are read by `element`. -/
def constantWith (element : Parser Value) : Parser Value := do
  let t ← current
  match t.kind with
  | .integer =>
    match integerValue? t.text with
    | some v => do advance; return v
    | none => fail (.invalidLiteral t.text) t.span
  | .float => do advance; return floatValue t.text
  | .stringLiteral => do
    let id ← add (·.internText (unescape t.text))
    advance
    return .string id
  | .identifier => do
    let named := namedValue? t.text <|>
      if t.text = "void" && !(← nextIs .leftParen) then some .void else none
    match named with
    | some v => do advance; return v
    | none =>
      let ty ← type
      let _ ← expect .leftParen
      return .ofElements ty (← commaList .rightParen element)
  | _ => expected "a constant"

/-- A constant whose nesting is at most the given depth. -/
def constantTo : Nat → Parser Value
  | 0 => expected "a constant"
  | n + 1 => constantWith (constantTo n)

def constant : Parser Value := do constantTo (← bound)

/-- A constant, added to the program. -/
def internedConstant : Parser ConstantId := do
  let v ← constant
  add (·.intern v)

/-! ## Annotations -/

/-- One property: a name or a string, a colon, and a constant. -/
def property : Parser (String × ConstantId) := do
  let t ← current
  let key := if t.kind = .stringLiteral then unescape t.text else t.text
  unless ← eat .stringLiteral do
    let _ ← expect .identifier
  let _ ← expect .colon
  return (key, ← internedConstant)

/-- Properties in double brackets, or nothing. -/
def annotations : Parser Annotations := do
  if (← kindAt 0) = .leftBracket && (← kindAt 1) = .leftBracket then
    advance
    advance
    let properties ← commaList .rightBracket property
    let _ ← expect .rightBracket
    return properties.foldl (fun a (key, value) => a.set key value) {}
  else return {}

end SignalGraph.Heart.Parser

import SignalGraph.Heart.Parser.Expr
import SignalGraph.Heart.Print
import SignalGraph.Proofs.Heart.Phrases

/-!
# SignalGraph.Proofs.Heart.Readable

Types, constants and expressions that can be written so that they are read again.  A *readable* one
is made the way the parser makes it, and the paths of its structs, functions and variables lead back
to them; a path that starts an expression must not be read as something else.

Each written form is a sequence of lexemes (`typeLexemes`, `valueLexemes`, `exprLexemes`), and the
text of what is readable is cut into these (`spelled_type`, `spelled_value`, `spelled_expr`).  What
is used of finite floats is that they are `Exact`.
-/

namespace SignalGraph

/-! ## Floats -/

/-- The bits stand for a number, neither for an infinity nor for not-a-number. -/
def Float.isFinite (f : Float.Format) (bits : Nat) : Bool :=
  match Float.decode f bits with
  | .finite _ _ _ => true
  | _ => false

namespace Value

/-- A float that is a number. -/
def isFinite : Value → Bool
  | float32 b => Float.isFinite Float.binary32 b.toNat
  | float64 b => Float.isFinite Float.binary64 b.toNat
  | _ => false

mutual

/-- The finite floats inside a value. -/
def finiteFloats : Value → List Value
  | aggregate _ vs => finiteFloatsList vs
  | v => if v.isFinite then [v] else []

def finiteFloatsList : List Value → List Value
  | [] => []
  | v :: vs => v.finiteFloats ++ finiteFloatsList vs

end

/-- The finite floats of an element are among those of the list. -/
theorem mem_finiteFloatsList {v w : Value} {vs : List Value} (hv : v ∈ vs)
    (hw : w ∈ v.finiteFloats) : w ∈ finiteFloatsList vs := by
  induction vs with
  | nil => cases hv
  | cons u vs ih =>
      rw [finiteFloatsList, List.mem_append]
      rcases List.mem_cons.mp hv with rfl | hv
      · exact .inl hw
      · exact .inr (ih hv)

end Value

namespace Heart

/-- The shortest decimal form of a float is one token, which stands for the same float. -/
def Exact (v : Value) : Prop :=
  isNumber .float (valueText {} v) ∧ Parser.floatValue (valueText {} v) = v

instance (v : Value) : Decidable (Exact v) := inferInstanceAs (Decidable (_ ∧ _))

/-! ## Readable types -/

/-- The word with which a path starts. -/
def firstWord (owner : String) : String := (nameParts owner).headD ""

/-- The name of the module that declares a struct. -/
def structOwner (p : Program) (id : StructId) : String := (p.moduleAt (p.structAt id).owner).name

/-- Whether a struct is found by its path, and the path is not read as something else. -/
def isReadableStruct (p : Program) (id : StructId) : Bool :=
  p.structByPath? (p.structName id) == some id && isName (structOwner p id) &&
    isIdentifier (p.structAt id).name && (Prim.ofName? (firstWord (structOwner p id))).isNone &&
    firstWord (structOwner p id) != "string"

/-- Whether a length fits into 32 bits. -/
def isLength (n : Nat) : Bool := n < UInt32.size

/-- Whether a type is readable and has no qualifiers. -/
def isPlain (p : Program) : Ty → Bool
  | .prim _ | .string => true
  | .vector _ n => isLength n
  | .array e n => isPlain p e && n.all isLength
  | .struct id => isReadableStruct p id
  | .const _ | .ref _ => false

/-- The lexemes of a length in brackets, or of empty brackets. -/
def lengthLexemes (n : Option Nat) : List Lexeme :=
  (.leftBracket, "[") :: ((n.map fun n => (.integer, toString n)).toList ++ [(.rightBracket, "]")])

/-- The lexemes of a type. -/
def typeLexemes (p : Program) : Ty → List Lexeme
  | .prim k => [(.identifier, k.name)]
  | .vector k n =>
    [(.identifier, k.name), (.less, "<"), (.integer, toString n), (.greater, ">")]
  | .array e n => typeLexemes p e ++ lengthLexemes n
  | .struct id => pathLexemes (structOwner p id) (p.structAt id).name
  | .string => [(.identifier, "string")]
  | .const t => (.identifier, "const") :: typeLexemes p t
  | .ref t => typeLexemes p t ++ [(.ampersand, "&")]

/-- Whether a type is read back as it is written. -/
def isReadableType (p : Program) (t : Ty) : Bool :=
  match t.unreferenced with
  | .const u => isPlain p u
  | u => isPlain p u && (typeLexemes p u).head? != some (.identifier, "const")

section

variable {p : Program}

/-- Names of primitive types are identifiers. -/
theorem isIdentifier_primName (k : Prim) : isIdentifier k.name := by cases k <;> decide

/-- Angles, ampersands and brackets stand apart from what is around them. -/
theorem mark_angle : Mark "<" [(.less, "<")] := mark_literal (by decide)

theorem mark_closeAngle : Mark ">" [(.greater, ">")] := mark_literal (by decide)

theorem mark_ampersand : Mark "&" [(.ampersand, "&")] := mark_literal (by decide)

theorem mark_emptyBrackets : Mark "[]" [(.leftBracket, "["), (.rightBracket, "]")] :=
  mark_literal (by decide)

/-- A natural number is written as one token. -/
theorem spelled_nat (n : Nat) : Spelled (toString n) [(.integer, toString n)] :=
  spelled_number (isNumber_nat n)

/-- A number in brackets stands apart from what is around it. -/
theorem mark_bracketed (n : Nat) :
    Mark ("[" ++ toString n ++ "]") (lengthLexemes (some n)) := by
  refine ⟨(mark_openBracket.opens.append _).append _, ?_⟩
  exact (mark_openBracket.isSealed.append_spelled (spelled_nat n)).mark mark_closeBracket

/-- A readable struct is written as the path of its owner and its name. -/
theorem spelled_struct {id : StructId} (h : isReadableStruct p id) :
    Spelled (p.structName id) (pathLexemes (structOwner p id) (p.structAt id).name) := by
  simp only [isReadableStruct, Bool.and_eq_true] at h
  exact spelled_path h.1.1.1.2 h.1.1.2

/-- A plain type is written with the lexemes that are read as it, by recursion on the type. -/
theorem spelled_plain {t : Ty} (h : isPlain p t) : Spelled (p.describe t) (typeLexemes p t) := by
  induction t with
  | prim k => exact spelled_word (isIdentifier_primName k)
  | vector k n =>
      have hword := (spelled_word (isIdentifier_primName k)).mark mark_angle
      exact ((hword.append_spelled (spelled_nat n)).mark mark_closeAngle).spelled
  | array e n ih =>
      simp only [isPlain, Bool.and_eq_true] at h
      cases n with
      | none => exact ((ih h.1).mark mark_emptyBrackets).spelled
      | some n =>
          have hlength := ((ih h.1).mark (mark_bracketed n)).spelled
          simpa only [Program.describe, Ty.describe, typeLexemes, String.append_assoc] using hlength
  | struct id => exact spelled_struct h
  | string => exact spelled_word (s := "string") (by decide)
  | const t => simp [isPlain] at h
  | ref t => simp [isPlain] at h

/-- A readable type is written with the lexemes that are read as it. -/
theorem spelled_type {t : Ty} (h : isReadableType p t) :
    Spelled (p.describe t) (typeLexemes p t) := by
  have hconst : ∀ u, isPlain p u → Spelled (p.describe (.const u)) (typeLexemes p (.const u)) := by
    intro u hu
    have hword : Sealed "const " [(.identifier, "const")] := sealed_literal (by decide)
    exact hword.append_spelled (spelled_plain hu)
  have hqualified : Spelled (p.describe t.unreferenced) (typeLexemes p t.unreferenced) := by
    unfold isReadableType at h
    split at h
    · next u hu => rw [hu]; exact hconst u h
    · exact spelled_plain (Bool.and_eq_true_iff.mp h).1
  cases t with
  | ref t => exact (hqualified.mark mark_ampersand).spelled
  | _ => exact hqualified

end

/-! ## Readable constants -/

/-- Whether a type can start a constant: its first word is not a constant itself. -/
def startsConstant (p : Program) (t : Ty) : Bool :=
  match typeLexemes p t with
  | [] => false
  | [(_, w)] => (Parser.namedValue? w).isNone
  | (_, w) :: _ => (Parser.namedValue? w).isNone && w != "void"

/-- Whether a float has a name of its own, unless it is finite. -/
def isReadableFloat (p : Program) (v : Value) : Bool :=
  v.isFinite || Parser.namedValue? (valueText p v) == some v

mutual

/-- Whether a constant is read back as it is written. -/
def isReadableValue (p : Program) : Value → Bool
  | .void | .bool _ | .int32 _ | .int64 _ => true
  | .float32 b => isReadableFloat p (.float32 b)
  | .float64 b => isReadableFloat p (.float64 b)
  | .string id => p.texts.find? (p.textAt id) == some id
  | .aggregate t vs =>
    isReadableType p t && startsConstant p t && !vs.isEmpty && areReadableValues p vs
  | .zero t => isReadableType p t && startsConstant p t

def areReadableValues (p : Program) : List Value → Bool
  | [] => true
  | v :: vs => isReadableValue p v && areReadableValues p vs

end

/-- Items with commas between them, in parentheses. -/
def listLexemes (items : List (List Lexeme)) : List Lexeme :=
  (.leftParen, "(") :: ([(.comma, ",")].intercalate items ++ [(.rightParen, ")")])

/-- The token of a float. -/
def floatLexeme (v : Value) : Lexeme :=
  (if v.isFinite then .float else .identifier, valueText {} v)

mutual

/-- The lexemes of a constant. -/
def valueLexemes (p : Program) : Value → List Lexeme
  | .void => [(.identifier, "void")]
  | .bool b => [(.identifier, if b then "true" else "false")]
  | .int32 n => [(.integer, toString n.toInt)]
  | .int64 n => [(.integer, toString n.toInt ++ "L")]
  | .float32 b => [floatLexeme (.float32 b)]
  | .float64 b => [floatLexeme (.float64 b)]
  | .string id => [(.stringLiteral, escape (p.textAt id))]
  | .aggregate t vs => typeLexemes p t ++ listLexemes (valuesLexemes p vs)
  | .zero t => typeLexemes p t ++ listLexemes []

def valuesLexemes (p : Program) : List Value → List (List Lexeme)
  | [] => []
  | v :: vs => valueLexemes p v :: valuesLexemes p vs

end

section

variable {p : Program}

/-- Lists of values have the lexemes of their elements. -/
theorem valuesLexemes_eq (p : Program) (vs : List Value) :
    valuesLexemes p vs = vs.map (valueLexemes p) := by
  induction vs with
  | nil => rfl
  | cons v vs ih => rw [valuesLexemes, ih, List.map_cons]

theorem valueTexts_eq (p : Program) (vs : List Value) : valueTexts p vs = vs.map (valueText p) := by
  induction vs with
  | nil => rfl
  | cons v vs ih => rw [valueTexts, ih, List.map_cons]

/-- A list of values is readable if each of them is. -/
theorem areReadableValues_iff {vs : List Value} :
    areReadableValues p vs ↔ ∀ v ∈ vs, isReadableValue p v := by
  induction vs with
  | nil => simp [areReadableValues]
  | cons v vs ih => simp [areReadableValues, ih]

/-- A float that is not finite is written by a name. -/
theorem isIdentifier_floatText {v : Value} (hv : v.isFinite = false)
    (hfloat : (∃ b, v = .float32 b) ∨ ∃ b, v = .float64 b) : isIdentifier (valueText p v) := by
  rcases hfloat with ⟨b, rfl⟩ | ⟨b, rfl⟩ <;>
  · simp only [Value.isFinite, Float.isFinite] at hv
    simp only [valueText, floatText]
    split
    · decide
    · next neg _ => cases neg <;> decide
    · next h => simp [h] at hv

/-- A float that is written exactly is one token. -/
theorem spelled_float {v : Value} (h : ∀ w ∈ v.finiteFloats, Exact w)
    (hfloat : (∃ b, v = .float32 b) ∨ ∃ b, v = .float64 b) :
    Spelled (valueText p v) [floatLexeme v] := by
  have htext : valueText p v = valueText {} v := by
    rcases hfloat with ⟨b, rfl⟩ | ⟨b, rfl⟩ <;> simp only [valueText]
  rw [htext, floatLexeme]
  split
  · next hv =>
    have hmem : v ∈ v.finiteFloats := by
      rcases hfloat with ⟨b, rfl⟩ | ⟨b, rfl⟩ <;> simp [Value.finiteFloats, hv]
    exact spelled_number (h v hmem).1
  · next hv => exact spelled_word (isIdentifier_floatText (by simpa using hv) hfloat)

/-- Empty parentheses stand apart from what is around them. -/
theorem mark_emptyList : Mark " ()" (listLexemes []) := mark_literal (by decide)

/-- A list in parentheses, after something. -/
theorem Spelled.list {α : Type} {s : String} {ls : List Lexeme} {f : α → String}
    {g : α → List Lexeme} {xs : List α} (h : Spelled s ls) (hxs : ∀ x ∈ xs, Spelled (f x) (g x)) :
    Sealed (s ++ " (" ++ commaSeparated (xs.map f) ++ ")") (ls ++ listLexemes (xs.map g)) := by
  have hall := ((h.mark mark_openParen).append_spelled (spelled_commaSeparated hxs)).mark
    mark_closeParen
  simpa [listLexemes] using hall

/-- A readable value is written with the lexemes that are read as it, by recursion on the value. -/
theorem spelled_value : ∀ {v : Value}, isReadableValue p v → (∀ w ∈ v.finiteFloats, Exact w) →
    Spelled (valueText p v) (valueLexemes p v)
  | .void, _, _ => spelled_word (s := "void") (by decide)
  | .bool true, _, _ => spelled_word (s := "true") (by decide)
  | .bool false, _, _ => spelled_word (s := "false") (by decide)
  | .int32 n, _, _ => spelled_number (isNumber_toString _)
  | .int64 n, _, _ => spelled_number (isNumber_long _)
  | .float32 b, _, hfloats => spelled_float hfloats (.inl ⟨b, rfl⟩)
  | .float64 b, _, hfloats => spelled_float hfloats (.inr ⟨b, rfl⟩)
  | .string id, _, _ => (sealed_escape _).spelled
  | .aggregate t vs, h, hfloats => by
      simp only [isReadableValue, Bool.and_eq_true, areReadableValues_iff] at h
      have hlist := (spelled_type h.1.1.1).list fun v hv => spelled_value (h.2 v hv)
        fun w hw => hfloats w (Value.mem_finiteFloatsList hv hw)
      simpa only [valueText, valueLexemes, valuesLexemes_eq, valueTexts_eq] using hlist.spelled
  | .zero t, h, _ => by
      simp only [isReadableValue, Bool.and_eq_true] at h
      exact ((spelled_type h.1).mark mark_emptyList).spelled

end

/-! ## Readable expressions -/

/-- The struct whose path starts the text of a type. -/
def leadingStruct : Ty → Option StructId
  | .struct id => some id
  | .array e _ => leadingStruct e
  | .ref t => leadingStruct t
  | _ => none

/-- Whether a constant that starts an expression is not read as something else: the path of its
type must not be the path of a variable or start with the word of another expression. -/
def startsExpr (p : Program) : Value → Bool
  | .aggregate t _ | .zero t =>
    (leadingStruct t).all fun id => (p.variableByPath? (p.structName id)).isNone &&
      firstWord (structOwner p id) != "cast" && firstWord (structOwner p id) != "pure_call"
  | _ => true

/-- Whether the path of something starts an expression. -/
def startsPath (owner name : String) : Bool :=
  isName owner && isIdentifier name && firstWord owner != "cast" && firstWord owner != "pure_call"

/-- Whether a variable is read back: a local one must be in scope. -/
def isReadableVariable (p : Program) (scope : Parser.Scope) (v : VariableId) : Bool :=
  match ownerOf? p v with
  | some m =>
    startsPath m.name (p.variableAt v).name && p.variableByPath? (variableText p v) == some v
  | none =>
    isLocalName (p.variableAt v).name && scope.vars.lookup (p.variableAt v).name == some v

/-- The name of the module that declares a function. -/
def functionOwner (p : Program) (f : FunctionId) : String :=
  (p.moduleAt (p.functionAt f).owner).name

/-- Whether a function is found by its path. -/
def isReadableFunction (p : Program) (f : FunctionId) : Bool :=
  isName (functionOwner p f) && isIdentifier (p.functionAt f).name &&
    p.functionByPath? (p.functionName f) == some f

/-- The lexemes of a variable. -/
def variableLexemes (p : Program) (v : VariableId) : List Lexeme :=
  match ownerOf? p v with
  | some m => pathLexemes m.name (p.variableAt v).name
  | none => [(.localName, (p.variableAt v).name)]

mutual

/-- The lexemes of an expression. -/
def exprLexemes (p : Program) : Expr → List Lexeme
  | .var v => variableLexemes p v
  | .const c => valueLexemes p (p.constantAt c)
  | .element e i => exprLexemes p e ++ lengthLexemes (some i)
  | .elementAt e i =>
    exprLexemes p e ++ (.leftBracket, "[") :: (exprLexemes p i ++ [(.rightBracket, "]")])
  | .member e name => exprLexemes p e ++ [(.dot, "."), (.identifier, name)]
  | .slice e start stop =>
    exprLexemes p e ++ [(.leftBracket, "["), (.integer, toString start), (.colon, ":"),
      (.integer, toString stop), (.rightBracket, "]")]
  | .cast t e => (.identifier, "cast") :: (typeLexemes p t ++ listLexemes [exprLexemes p e])
  | .unary op e => (.identifier, op.name) :: listLexemes [exprLexemes p e]
  | .binary op l r => (.identifier, op.name) :: listLexemes [exprLexemes p l, exprLexemes p r]
  | .pureCall f args =>
    (.identifier, "pure_call") :: (pathLexemes (functionOwner p f) (p.functionAt f).name ++
      listLexemes (exprsLexemes p args))
  | .property q => [(.identifier, "processor"), (.dot, "."), (.identifier, q.name)]

def exprsLexemes (p : Program) : List Expr → List (List Lexeme)
  | [] => []
  | e :: es => exprLexemes p e :: exprsLexemes p es

end

/-- Whether an index in brackets is not read as a fixed position. -/
def isIndex (p : Program) : Expr → Bool
  | .const c =>
    match p.constantAt c with
    | .int32 _ | .int64 _ => false
    | _ => true
  | _ => true

mutual

/-- Whether an expression is read back in a scope. -/
def isReadableExpr (p : Program) (scope : Parser.Scope) : Expr → Bool
  | .var v => isReadableVariable p scope v
  | .const c =>
    isReadableValue p (p.constantAt c) && startsExpr p (p.constantAt c) &&
      p.constants.find? (p.constantAt c) == some c
  | .element e i => isReadableExpr p scope e && isLength i
  | .elementAt e i => isReadableExpr p scope e && isReadableExpr p scope i && isIndex p i
  | .member e name => isReadableExpr p scope e && isIdentifier name
  | .slice e start stop => isReadableExpr p scope e && isLength start && isLength stop
  | .cast t e => isReadableType p t && isReadableExpr p scope e
  | .unary _ e => isReadableExpr p scope e
  | .binary _ l r => isReadableExpr p scope l && isReadableExpr p scope r
  | .pureCall f args => isReadableFunction p f && areReadableExprs p scope args
  | .property _ => true

def areReadableExprs (p : Program) (scope : Parser.Scope) : List Expr → Bool
  | [] => true
  | e :: es => isReadableExpr p scope e && areReadableExprs p scope es

end

/-- The finite floats of an expression are exact. -/
def ExactFloats (p : Program) (e : Expr) : Prop :=
  ∀ c, .const c ∈ e.parts → ∀ v ∈ (p.constantAt c).finiteFloats, Exact v

section

variable {p : Program} {scope : Parser.Scope}

/-- Lists of expressions have the lexemes of their elements. -/
theorem exprsLexemes_eq (p : Program) (es : List Expr) :
    exprsLexemes p es = es.map (exprLexemes p) := by
  induction es with
  | nil => rfl
  | cons e es ih => rw [exprsLexemes, ih, List.map_cons]

theorem exprTexts_eq (p : Program) (es : List Expr) : exprTexts p es = es.map (exprText p) := by
  induction es with
  | nil => rfl
  | cons e es ih => rw [exprTexts, ih, List.map_cons]

/-- A list of expressions is readable if each of them is. -/
theorem areReadableExprs_iff {es : List Expr} :
    areReadableExprs p scope es ↔ ∀ e ∈ es, isReadableExpr p scope e := by
  induction es with
  | nil => simp [areReadableExprs]
  | cons e es ih => simp [areReadableExprs, ih]

/-- A part of an element is a part of the list. -/
theorem mem_partsList {e e' : Expr} {es : List Expr} (he : e ∈ es) (he' : e' ∈ e.parts) :
    e' ∈ Expr.partsList es := by
  induction es with
  | nil => cases he
  | cons d es ih =>
      rw [Expr.partsList, List.mem_append]
      rcases List.mem_cons.mp he with rfl | he
      · exact .inl he'
      · exact .inr (ih he)

/-- Floats are exact in every part of an expression in which they are. -/
theorem ExactFloats.of_subset {e e' : Expr} (h : ExactFloats p e') (hsub : e.parts ⊆ e'.parts) :
    ExactFloats p e := fun c hc => h c (hsub hc)

/-- Names of unary operations are identifiers. -/
theorem isIdentifier_unaryName (op : UnaryOp) : isIdentifier op.name := by
  cases op <;> decide

/-- Names of binary operations are identifiers. -/
theorem isIdentifier_binaryName (op : BinaryOp) : isIdentifier op.name := by
  cases op <;> decide

/-- Names of properties are identifiers. -/
theorem isIdentifier_propertyName (q : Property) : isIdentifier q.name := by
  cases q <;> decide

theorem sealed_dot : Sealed "." [(.dot, ".")] := sealed_literal (by decide)

/-- A point and a name end a number before them. -/
theorem opens_dot {name : String} (h : isIdentifier name) : Opens ("." ++ name) := by
  intro rest
  have hdot : ".".toList = ['.'] := by decide
  rw [String.toList_append, hdot]
  refine ⟨by decide, fun _ => ?_⟩
  unfold isIdentifier at h
  cases hname : name.toList with
  | nil => simp [hname] at h
  | cons c cs =>
      simp only [hname, Bool.and_eq_true] at h
      simp [isDigit_of_isIdentStart h.1]

/-- A variable of a module is written with the path of the module. -/
theorem variableText_of_owner {v : VariableId} {m : Module} (h : ownerOf? p v = some m) :
    variableText p v = m.name ++ "::" ++ (p.variableAt v).name := by
  simp [variableText, h]

/-- A variable of a function is written by its name alone. -/
theorem variableText_of_local {v : VariableId} (h : ownerOf? p v = none) :
    variableText p v = (p.variableAt v).name := by
  simp [variableText, h]

/-- A readable variable is written with the lexemes that are read as it. -/
theorem spelled_variable {v : VariableId} (h : isReadableVariable p scope v) :
    Spelled (variableText p v) (variableLexemes p v) := by
  unfold isReadableVariable at h
  unfold variableLexemes
  cases howner : ownerOf? p v with
  | some m =>
      simp only [howner, startsPath, Bool.and_eq_true] at h
      rw [variableText_of_owner howner]
      exact spelled_path h.1.1.1.1 h.1.1.1.2
  | none =>
      simp only [howner, Bool.and_eq_true] at h
      rw [variableText_of_local howner]
      exact spelled_localName h.1

/-- A readable function is written as the path of its owner and its name. -/
theorem spelled_function {f : FunctionId} (h : isReadableFunction p f) :
    Spelled (p.functionName f) (pathLexemes (functionOwner p f) (p.functionAt f).name) := by
  simp only [isReadableFunction, Bool.and_eq_true] at h
  exact spelled_path h.1.1 h.1.2

/-- Something in brackets after an expression. -/
theorem Spelled.bracketed {a b : String} {la lb : List Lexeme} (ha : Spelled a la)
    (hb : Spelled b lb) :
    Sealed (a ++ "[" ++ b ++ "]")
      (la ++ (.leftBracket, "[") :: (lb ++ [(.rightBracket, "]")])) := by
  have hall := ((ha.mark mark_openBracket).append_spelled hb).mark mark_closeBracket
  simpa using hall

/-- A colon and a number; the number keeps the colon from being half of `::`. -/
theorem spelled_colon (n : Nat) :
    Spelled (":" ++ toString n) [(.colon, ":"), (.integer, toString n)] := by
  intro rest us hclosed hrest
  obtain ⟨d, ds, hdigits, hd, _⟩ := toDigits_eq_cons n
  have hnumber := spelled_nat n rest us hclosed hrest
  have hcolon : ":".toList = [':'] := by decide
  have hne : (d == ':') = false := by
    cases hc : d == ':' with
    | false => rfl
    | true => rw [eq_of_beq hc] at hd; contradiction
  rw [String.toList_append, hcolon, List.append_assoc]
  refine LexesTo.token [] rfl rfl ?_ hnumber
  refine scan_symbol rfl ?_
  rw [Nat.toString_eq_ofList_toDigits, hdigits]
  simpa using hne

/-- A colon ends a number or a word. -/
theorem opens_colon (s : String) : Opens (":" ++ s) :=
  (opens_of_head (s := ":") (by decide)).append s

/-- The bounds of a slice are written as two numbers with a colon between them. -/
theorem spelled_slice (start stop : Nat) :
    Spelled (toString start ++ ":" ++ toString stop)
      [(.integer, toString start), (.colon, ":"), (.integer, toString stop)] := by
  rw [String.append_assoc]
  exact (spelled_nat start).append (opens_colon _) (spelled_colon stop)

/-- A readable expression is written with the lexemes that are read as it, by recursion on the
expression. -/
theorem spelled_expr : ∀ {e : Expr}, isReadableExpr p scope e → ExactFloats p e →
    Spelled (exprText p e) (exprLexemes p e)
  | .var v, h, _ => by
      rw [isReadableExpr] at h
      simpa only [exprText, exprLexemes] using spelled_variable h
  | .const c, h, hfloats => by
      simp only [isReadableExpr, Bool.and_eq_true] at h
      have hvalue := spelled_value h.1.1 (hfloats c (by simp [Expr.parts]))
      simpa only [exprText, exprLexemes, constantText] using hvalue
  | .element e i, h, hfloats => by
      simp only [isReadableExpr, Bool.and_eq_true] at h
      have he := spelled_expr h.1 (hfloats.of_subset (by simp [Expr.parts]))
      rw [exprText, exprLexemes]
      exact (he.bracketed (spelled_nat i)).spelled
  | .elementAt e i, h, hfloats => by
      simp only [isReadableExpr, Bool.and_eq_true] at h
      have he := spelled_expr h.1.1 (hfloats.of_subset (by simp [Expr.parts]))
      have hi := spelled_expr h.1.2 (hfloats.of_subset (by simp [Expr.parts]))
      rw [exprText, exprLexemes]
      exact (he.bracketed hi).spelled
  | .member e name, h, hfloats => by
      simp only [isReadableExpr, Bool.and_eq_true] at h
      have he := spelled_expr h.1 (hfloats.of_subset (by simp [Expr.parts]))
      rw [exprText, exprLexemes, String.append_assoc]
      exact he.append (opens_dot h.2) (sealed_dot.append_spelled (spelled_word h.2))
  | .slice e start stop, h, hfloats => by
      simp only [isReadableExpr, Bool.and_eq_true] at h
      have he := spelled_expr h.1.1 (hfloats.of_subset (by simp [Expr.parts]))
      have hall := (he.bracketed (spelled_slice start stop)).spelled
      rw [exprText, exprLexemes]
      simpa [String.append_assoc] using hall
  | .cast t e, h, hfloats => by
      simp only [isReadableExpr, Bool.and_eq_true] at h
      have he := spelled_expr h.2 (hfloats.of_subset (by simp [Expr.parts]))
      have hword : Sealed "cast " [(.identifier, "cast")] := sealed_literal (by decide)
      have hes : ∀ x ∈ [e], Spelled (exprText p x) (exprLexemes p x) := by simpa using he
      have hall := (hword.append_spelled (spelled_type h.1)).list hes
      simpa [exprText, exprLexemes, commaSeparated] using hall.spelled
  | .unary op e, h, hfloats => by
      rw [isReadableExpr] at h
      have he := spelled_expr h (hfloats.of_subset (by simp [Expr.parts]))
      have hes : ∀ x ∈ [e], Spelled (exprText p x) (exprLexemes p x) := by simpa using he
      have hall := (spelled_word (isIdentifier_unaryName op)).list hes
      simpa [exprText, exprLexemes, commaSeparated] using hall.spelled
  | .binary op l r, h, hfloats => by
      simp only [isReadableExpr, Bool.and_eq_true] at h
      have hl := spelled_expr h.1 (hfloats.of_subset (by simp [Expr.parts]))
      have hr := spelled_expr h.2 (hfloats.of_subset (by simp [Expr.parts]))
      have hes : ∀ x ∈ [l, r], Spelled (exprText p x) (exprLexemes p x) := by simpa using ⟨hl, hr⟩
      have hall := (spelled_word (isIdentifier_binaryName op)).list hes
      simpa [exprText, exprLexemes, commaSeparated, String.append_assoc] using hall.spelled
  | .pureCall f args, h, hfloats => by
      simp only [isReadableExpr, Bool.and_eq_true, areReadableExprs_iff] at h
      have hargs : ∀ e ∈ args, Spelled (exprText p e) (exprLexemes p e) := fun e he =>
        spelled_expr (h.2 e he) (hfloats.of_subset fun e' he' => by
          rw [Expr.parts]
          exact List.mem_cons_of_mem _ (mem_partsList he he'))
      have hword : Sealed "pure_call " [(.identifier, "pure_call")] :=
        sealed_literal (by decide)
      have hall := (hword.append_spelled (spelled_function h.1)).list hargs
      simpa [exprText, exprLexemes, exprsLexemes_eq, exprTexts_eq] using hall.spelled
  | .property q, _, _ => by
      have hword : Sealed "processor." [(.identifier, "processor"), (.dot, ".")] :=
        sealed_literal (by decide)
      rw [exprText, exprLexemes]
      exact hword.append_spelled (spelled_word (isIdentifier_propertyName q))

end

end Heart

end SignalGraph

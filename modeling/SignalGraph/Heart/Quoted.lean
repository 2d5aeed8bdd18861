/-!
# SignalGraph.Heart.Quoted

String literals: `escape` writes a text between quotes, `unescape` reads a literal back.
-/

namespace SignalGraph.Heart

/-- The characters that stand for a character inside a literal. -/
def escapeChar : Char → List Char
  | '"' => ['\\', '"']
  | '\\' => ['\\', '\\']
  | '\n' => ['\\', 'n']
  | '\t' => ['\\', 't']
  | '\r' => ['\\', 'r']
  | '\x00' => ['\\', '0']
  | c => [c]

/-- The character that a backslash and the given character stand for. -/
def unescapeChar : Char → Char
  | 'n' => '\n'
  | 't' => '\t'
  | 'r' => '\r'
  | '0' => '\x00'
  | c => c

/-- Resolves the escapes of a literal's content; a backslash at the end stands for itself. -/
def unescapeChars : List Char → List Char
  | [] => []
  | ['\\'] => ['\\']
  | '\\' :: c :: cs => unescapeChar c :: unescapeChars cs
  | c :: cs => c :: unescapeChars cs

/-- The text between the quotes of a literal; a text that is not quoted on both sides stays. -/
def unquote : List Char → List Char
  | '"' :: cs => if cs.getLast? = some '"' then cs.dropLast else '"' :: cs
  | cs => cs

/-- The literal for a text. -/
def escape (s : String) : String := String.ofList ('"' :: (s.toList.flatMap escapeChar ++ ['"']))

/-- The text of a literal. -/
def unescape (s : String) : String := String.ofList (unescapeChars (unquote s.toList))

/-- An escaped character reads back as itself. -/
theorem unescapeChars_escapeChar_append (c : Char) (cs : List Char) :
    unescapeChars (escapeChar c ++ cs) = c :: unescapeChars cs := by
  unfold escapeChar
  split <;> simp_all [unescapeChars, unescapeChar]

/-- What is escaped reads back. -/
theorem unescapeChars_flatMap_escapeChar (cs : List Char) :
    unescapeChars (cs.flatMap escapeChar) = cs := by
  induction cs with
  | nil => rfl
  | cons c cs ih => rw [List.flatMap_cons, unescapeChars_escapeChar_append, ih]

end SignalGraph.Heart

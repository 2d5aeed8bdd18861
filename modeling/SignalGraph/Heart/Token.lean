import SignalGraph.Source.Span

/-!
# SignalGraph.Heart.Token

The tokens of the HEART text format.
-/

namespace SignalGraph.Heart

inductive TokenKind where
  | identifier
  /-- A name that starts with `$`. -/
  | localName
  /-- A name that starts with `@`. -/
  | blockLabel
  | integer | float | stringLiteral
  | hash | leftBrace | rightBrace | leftParen | rightParen | leftBracket | rightBracket
  | less | greater | comma | semicolon | colon | doubleColon | dot | equals | arrow | question
  | ampersand | star | slash
  /-- The end of the text. -/
  | eof
deriving DecidableEq, Repr, Inhabited

namespace TokenKind

/-- How messages call a kind of token. -/
def describe : TokenKind → String
  | identifier => "identifier"
  | localName => "local variable name"
  | blockLabel => "block label"
  | integer => "integer literal"
  | float => "float literal"
  | stringLiteral => "string literal"
  | hash => "'#'"
  | leftBrace => "'\x7b'"
  | rightBrace => "'\x7d'"
  | leftParen => "'('"
  | rightParen => "')'"
  | leftBracket => "'['"
  | rightBracket => "']'"
  | less => "'<'"
  | greater => "'>'"
  | comma => "','"
  | semicolon => "';'"
  | colon => "':'"
  | doubleColon => "'::'"
  | dot => "'.'"
  | equals => "'='"
  | arrow => "'->'"
  | question => "'?'"
  | ampersand => "'&'"
  | star => "'*'"
  | slash => "'/'"
  | eof => "end of file"

end TokenKind

/-- A token with its text and its place. -/
structure Token where
  kind : TokenKind
  text : String
  span : Span
deriving DecidableEq, Repr

namespace Token

/-- The token at the end of a text. -/
def eof (file : FileId) (offset : Nat) : Token := ⟨.eof, "", ⟨file, offset, offset⟩⟩

end Token

end SignalGraph.Heart

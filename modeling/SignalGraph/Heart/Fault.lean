import SignalGraph.Diagnostic.Basic

/-!
# SignalGraph.Heart.Fault

What can be wrong with a HEART text.
-/

namespace SignalGraph.Heart

/-- The version of the format, as the first line of a text states it. -/
def version : String := "1"

inductive Fault where
  | unexpectedCharacter (c : Char)
  | unterminatedString
  | expected (what found : String)
  | unknownName (kind name : String)
  | invalidLiteral (text : String)
  | unsupportedVersion (found : String)
deriving DecidableEq, Repr

namespace Fault

def number : Fault → Nat
  | unexpectedCharacter _ => 1
  | unterminatedString => 2
  | expected _ _ => 3
  | unknownName _ _ => 4
  | invalidLiteral _ => 5
  | unsupportedVersion _ => 6

def message : Fault → String
  | unexpectedCharacter c => s!"Unexpected character '{c}'"
  | unterminatedString => "Unterminated string literal"
  | expected what found => s!"Expected {what}, found {found}"
  | unknownName kind name => s!"Cannot find {kind} '{name}'"
  | invalidLiteral text => s!"Invalid literal '{text}'"
  | unsupportedVersion found => s!"Expected '#HEART {version}' header, found '{found}'"

/-- The diagnostic that reports the fault at a place. -/
def diagnose (f : Fault) (span : Span) : Diagnostic := .error ⟨.grammar, f.number⟩ f.message span

end Fault

end SignalGraph.Heart

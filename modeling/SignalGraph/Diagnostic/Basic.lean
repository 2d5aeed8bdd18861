import SignalGraph.Source.Span

/-!
# SignalGraph.Diagnostic.Basic

Diagnostics: what went wrong, where, and what the reader may do about it.  A code is a category
letter and a number, such as `P003`; the stages that report problems define their own causes and
turn them into diagnostics here.
-/

namespace SignalGraph

/-- How serious a diagnostic is; a note is least, an error most. -/
inductive Severity where
  | note | warning | error
deriving DecidableEq, Repr

namespace Severity

def text : Severity → String
  | note => "note"
  | warning => "warning"
  | error => "error"

/-- Position in the order of severities. -/
def rank : Severity → Nat
  | note => 0
  | warning => 1
  | error => 2

end Severity

/-- The families of diagnostic codes. -/
inductive Category where
  | grammar | resolution | typing | structural | graph | invariant | limit | unsupported
deriving DecidableEq, Repr

namespace Category

/-- The letter that starts the codes of a family. -/
def letter : Category → Char
  | grammar => 'P'
  | resolution => 'R'
  | typing => 'T'
  | structural => 'S'
  | graph => 'G'
  | invariant => 'I'
  | limit => 'L'
  | unsupported => 'U'

/-- The family whose codes start with a letter. -/
def ofLetter? (c : Char) : Option Category :=
  [grammar, resolution, typing, structural, graph, invariant, limit, unsupported].find?
    (·.letter == c)

end Category

/-- A diagnostic code. -/
structure Code where
  category : Category
  number : Nat
deriving DecidableEq, Repr

namespace Code

/-- The category letter and the number, padded with zeros to three digits. -/
def text (c : Code) : String :=
  let digits := toString c.number
  String.ofList (c.category.letter :: (List.replicate (3 - digits.length) '0' ++ digits.toList))

end Code

/-- Whether a label marks the main place of a diagnostic or a related one. -/
inductive LabelStyle where
  | main | related
deriving DecidableEq, Repr

/-- A remark about a place in the source. -/
structure Label where
  span : Span
  message : String
  style : LabelStyle
deriving DecidableEq, Repr

/-- A structured message about a program. -/
structure Diagnostic where
  severity : Severity := .error
  code : Code
  message : String
  span : Span := .dummy
  labels : List Label := []
  notes : List String := []
  help : List String := []
deriving DecidableEq, Repr

namespace Diagnostic

/-- An error with a code, a message and a place. -/
def error (code : Code) (message : String) (span : Span) : Diagnostic := { code, message, span }

def withLabel (d : Diagnostic) (l : Label) : Diagnostic := { d with labels := d.labels ++ [l] }

def withNote (d : Diagnostic) (note : String) : Diagnostic := { d with notes := d.notes ++ [note] }

def withHelp (d : Diagnostic) (help : String) : Diagnostic := { d with help := d.help ++ [help] }

/-- Places a diagnostic that has no place yet. -/
def orSpan (d : Diagnostic) (span : Span) : Diagnostic :=
  if d.span.isDummy then { d with span } else d

end Diagnostic

/-- A broken expectation of the toolchain itself, as opposed to a fault of the program. -/
structure InternalError where
  detail : String
deriving DecidableEq, Repr

namespace InternalError

def message (e : InternalError) : String := "internal compiler error: " ++ e.detail

/-- The diagnostic that reports an internal error to the user. -/
def toDiagnostic (e : InternalError) : Diagnostic :=
  (Diagnostic.error ⟨.invariant, 999⟩ e.message .dummy).withNote
    "this is a bug in the compiler, not in the program being compiled"

end InternalError

/-! ## Lists of diagnostics -/

namespace Diagnostic

/-- Whether a diagnostic is an error, and not a warning or a note. -/
def isError (d : Diagnostic) : Bool := d.severity == .error

/-- The number of errors in a list. -/
def errorCount (ds : List Diagnostic) : Nat := (ds.filter isError).length

/-- The first error of a list. -/
def firstError? (ds : List Diagnostic) : Option Diagnostic := ds.find? isError

/-- The greatest severity in a list. -/
def maxSeverity? (ds : List Diagnostic) : Option Severity :=
  ds.foldl (fun acc d => match acc with
    | none => some d.severity
    | some s => some (if s.rank ≤ d.severity.rank then d.severity else s)) none

end Diagnostic

end SignalGraph

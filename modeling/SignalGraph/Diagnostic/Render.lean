import SignalGraph.Diagnostic.Basic
import SignalGraph.Source.File

/-!
# SignalGraph.Diagnostic.Render

Two written forms of diagnostics: text for a terminal, with the offending line underlined, and
one JSON object a line for other programs.
-/

namespace SignalGraph

/-! ## JSON text -/

namespace Json

/-- A digit of a hexadecimal numeral, in lower case. -/
def hexDigit (n : Nat) : Char :=
  if n < 10 then Char.ofNat (48 + n) else Char.ofNat (87 + n)

/-- The written form of one character of a JSON string: quote, backslash and control characters
are escaped, everything else stands for itself. -/
def escapeChar (c : Char) : List Char :=
  if c = '"' then ['\\', '"']
  else if c = '\\' then ['\\', '\\']
  else if c = '\n' then ['\\', 'n']
  else if c = '\r' then ['\\', 'r']
  else if c = '\t' then ['\\', 't']
  else if c.toNat = 8 then ['\\', 'b']
  else if c.toNat = 12 then ['\\', 'f']
  else if c.toNat < 32 then
    ['\\', 'u', '0', '0', hexDigit (c.toNat / 16), hexDigit (c.toNat % 16)]
  else [c]

/-- A JSON string. -/
def quote (s : String) : String :=
  String.ofList ('"' :: (s.toList.flatMap escapeChar ++ ['"']))

/-- A JSON array of strings. -/
def strings (l : List String) : String := "[" ++ ",".intercalate (l.map quote) ++ "]"

/-- A JSON object whose fields are already written. -/
def object (fields : List (String × String)) : String :=
  "\x7b" ++ ",".intercalate (fields.map fun (k, v) => quote k ++ ":" ++ v) ++ "\x7d"

end Json

namespace Diagnostic

/-- A run of one character. -/
private def runOf (c : Char) (n : Nat) : String := String.ofList (List.replicate n c)

/-- The severity, in bold red for errors and bold yellow for the rest if colour is wanted. -/
def severityText (colour : Bool) (d : Diagnostic) : String :=
  if colour then
    "\x1b[1;" ++ (if d.isError then "31" else "33") ++ "m" ++ d.severity.text ++ "\x1b[0m"
  else d.severity.text

/-- A source line with the marked range underlined. -/
def underlined (d : Diagnostic) (loc : Location) (line : String) : String :=
  let number := toString loc.line
  let gutter := runOf ' ' number.length
  let remark := match d.labels.find? (·.style == .main) with
    | some l => " " ++ l.message
    | none => ""
  "  --> " ++ loc.render ++ "\n" ++ gutter ++ " |\n" ++
    number ++ " | " ++ line ++ "\n" ++
    gutter ++ " | " ++ runOf ' ' (loc.column - 1) ++ runOf '^' (max d.span.length 1) ++
    remark ++ "\n"

/-- The source line with the marked range underlined, if the place is known. -/
def excerpt (sources : Sources) (d : Diagnostic) : String :=
  match sources.locate? d.span, sources.file? d.span.file with
  | some loc, some file => d.underlined loc (file.lineText d.span.start)
  | _, _ => ""

/-- One related remark, with its place if that is known. -/
def relatedLine (sources : Sources) (l : Label) : String :=
  match sources.locate? l.span with
  | some loc => "   = " ++ l.message ++ ": " ++ loc.render ++ "\n"
  | none => "   = " ++ l.message ++ "\n"

/-- The text for a terminal around an excerpt of the source. -/
def terminalText (colour : Bool) (sources : Sources) (d : Diagnostic) (excerpt : String) : String :=
  d.severityText colour ++ "[" ++ d.code.text ++ "]: " ++ d.message ++ "\n" ++
    excerpt ++
    String.join ((d.labels.filter (·.style == .related)).map (relatedLine sources)) ++
    String.join (d.notes.map fun n => "   = note: " ++ n ++ "\n") ++
    String.join (d.help.map fun h => "   = help: " ++ h ++ "\n")

/-- The text for a terminal. -/
def renderTerminal (colour : Bool) (sources : Sources) (d : Diagnostic) : String :=
  d.terminalText colour sources (d.excerpt sources)

/-- One JSON object on a line of its own, its keys in alphabetical order. -/
def renderJson (sources : Sources) (d : Diagnostic) : String :=
  let location := match sources.locate? d.span with
    | some l => Json.object [("column", toString l.column), ("file", Json.quote l.fileName),
        ("line", toString l.line)]
    | none => "null"
  Json.object [("code", Json.quote d.code.text), ("help", Json.strings d.help),
    ("location", location), ("message", Json.quote d.message), ("notes", Json.strings d.notes),
    ("severity", Json.quote d.severity.text)] ++ "\n"

/-- A list of diagnostics for a terminal, one after the other. -/
def renderAllTerminal (colour : Bool) (sources : Sources) (ds : List Diagnostic) : String :=
  String.join (ds.map (renderTerminal colour sources))

/-- A list of diagnostics as JSON, one object a line. -/
def renderAllJson (sources : Sources) (ds : List Diagnostic) : String :=
  String.join (ds.map (renderJson sources))

end Diagnostic

end SignalGraph

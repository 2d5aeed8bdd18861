import SignalGraph.Source.Span
import SignalGraph.Text.Bytes

/-!
# SignalGraph.Source.File

Registered source texts, and the lines and columns of byte offsets in them.  Lines and columns
are counted from one, and columns count bytes.
-/

namespace SignalGraph

/-- A named source text. -/
structure SourceFile where
  name : String
  content : String
deriving Repr, Inhabited

namespace SourceFile

/-- Offsets at which the lines after the first start, given the offset of the first character. -/
def nextLineStarts : Nat → List Char → List Nat
  | _, [] => []
  | n, c :: cs =>
    if c = '\n' then (n + 1) :: nextLineStarts (n + 1) cs
    else nextLineStarts (n + c.utf8Size) cs

/-- The offset at which each line starts. -/
def lineStarts (f : SourceFile) : List Nat := 0 :: nextLineStarts 0 f.content.toList

/-- Line and column of a byte offset: the line is the last one that starts at or before it. -/
def lineCol (f : SourceFile) (offset : Nat) : Nat × Nat :=
  let starts := f.lineStarts.filter (· ≤ offset)
  (starts.length, offset - starts.getLastD 0 + 1)

/-- The text of the line that holds a byte offset, without its line break. -/
def lineText (f : SourceFile) (offset : Nat) : String :=
  let (before, after) := Text.splitBytes offset f.content.toList
  String.ofList ((before.reverse.takeWhile (· != '\n')).reverse ++ after.takeWhile (· != '\n'))

end SourceFile

/-- A place in a source text as it is shown to people. -/
structure Location where
  fileName : String
  line : Nat
  column : Nat
deriving DecidableEq, Repr

namespace Location

/-- The form `name:line:column`. -/
def render (l : Location) : String := s!"{l.fileName}:{l.line}:{l.column}"

end Location

/-- The registered source texts, in order of registration. -/
structure Sources where
  files : Array SourceFile := #[]
deriving Repr, Inhabited

namespace Sources

/-- Registers a text and answers its number. -/
def add (s : Sources) (name content : String) : FileId × Sources :=
  (⟨s.files.size⟩, ⟨s.files.push ⟨name, content⟩⟩)

/-- The text with the given number. -/
def file? (s : Sources) (id : FileId) : Option SourceFile := s.files[id.raw]?

/-- Where a span starts. -/
def locate? (s : Sources) (span : Span) : Option Location := do
  let f ← s.file? span.file
  let (line, column) := f.lineCol span.start
  return ⟨f.name, line, column⟩

/-- The text a span covers, if its offsets are in range and fall between characters. -/
def snippet? (s : Sources) (span : Span) : Option String := do
  let f ← s.file? span.file
  let cs ← Text.byteSlice? f.content.toList span.start span.stop
  return String.ofList cs

end Sources

end SignalGraph

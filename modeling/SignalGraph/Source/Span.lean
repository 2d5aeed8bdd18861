/-!
# SignalGraph.Source.Span

Byte ranges in registered source texts.  Positions are byte offsets into the UTF-8 form of a
text.  Things that were built rather than read carry the dummy span, which is recognised by its
file number alone.
-/

namespace SignalGraph

/-- The number of a registered source text. -/
structure FileId where
  /-- The number, counted from zero in order of registration. -/
  raw : Nat
deriving DecidableEq, Repr, Inhabited

namespace FileId

/-- The file number that no registered text has. -/
def dummy : FileId := ⟨4294967295⟩

end FileId

/-- A half-open byte range of one source text. -/
structure Span where
  file : FileId
  /-- Offset of the first byte. -/
  start : Nat
  /-- Offset just past the last byte. -/
  stop : Nat
deriving DecidableEq, Repr

namespace Span

/-- The span of things that stand in no source text. -/
def dummy : Span := ⟨.dummy, 0, 0⟩

instance : Inhabited Span := ⟨dummy⟩

/-- Whether the span stands in no source text, whatever its offsets. -/
def isDummy (s : Span) : Bool := s.file == .dummy

/-- The number of bytes covered; a reversed range covers none. -/
def length (s : Span) : Nat := s.stop - s.start

/-- Whether no byte is covered. -/
def isEmpty (s : Span) : Bool := s.stop ≤ s.start

/-- The least span that holds both.  A dummy span gives way to the other one, and of two spans
in different files the first wins. -/
def cover (s t : Span) : Span :=
  if s.isDummy then t
  else if t.isDummy || t.file != s.file then s
  else ⟨s.file, min s.start t.start, max s.stop t.stop⟩

end Span

end SignalGraph

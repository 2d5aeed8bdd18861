import SignalGraph.Diagnostic.Render
import SignalGraph.Proofs.Heart.Partition

/-!
# SignalGraph.Proofs.Source.Excerpts

Spans that cover characters of a text, and the line that is shown with a diagnostic.  A text can
only be cut between characters.  `SourceFile.lineText?` cuts a line out of a text step by step and
gives up where a cut would split a character; at a character boundary it does not, and what it cuts
out is the line that is shown (`SourceFile.lineText?_eq`).  So a diagnostic that stands at a
character boundary can be shown on a terminal (`Diagnostic.renderTerminal?_eq`); no other written
form cuts a text.
-/

namespace SignalGraph

/-! ## Cutting -/

namespace Text

/-- A text is cut at the length of its first part. -/
theorem splitBytes_append_of_byteLength {before after : List Char} :
    splitBytes (byteLength before) (before ++ after) = (before, after) := by
  induction before with
  | nil =>
      cases after with
      | nil => rfl
      | cons c cs =>
          have hpos := c.utf8Size_pos
          rw [List.nil_append, byteLength, splitBytes, if_neg (by omega)]
  | cons c cs ih =>
      have hle : c.utf8Size ≤ byteLength (c :: cs) := Nat.le_add_right _ _
      have hrest : byteLength (c :: cs) - c.utf8Size = byteLength cs := Nat.add_sub_cancel_left _ _
      rw [List.cons_append, splitBytes, if_pos hle, hrest, ih]

/-- What stands between two places of a text can be cut out. -/
theorem Between.byteSlice? {text : String} {start stop : Nat} {inside after : List Char}
    (h : Between text start stop inside after) :
    Text.byteSlice? text.toList start stop = some inside := by
  obtain ⟨before, htext, rfl, rfl⟩ := h
  have hlength : byteLength before + byteLength inside - byteLength before = byteLength inside :=
    Nat.add_sub_cancel_left _ _
  rw [htext, Text.byteSlice?, splitBytes_append_of_byteLength]
  dsimp only
  rw [hlength, splitBytes_append_of_byteLength]
  simp

/-- A boundary between characters cuts a text in two. -/
theorem exists_of_isBoundary {text : String} {offset : Nat} (h : IsBoundary text offset) :
    ∃ before after, text.toList = before ++ after ∧ byteLength before = offset := by
  obtain ⟨before, after, htext, hoffset⟩ := String.Pos.Raw.isValid_iff_exists_append.mp h
  refine ⟨before.toList, after.toList, by rw [htext, String.toList_append], ?_⟩
  rw [byteLength_toList]
  exact (congrArg String.Pos.Raw.byteIdx hoffset).symm

end Text

/-! ## Spans -/

/-- The span covers characters of the text with the given number. -/
structure Span.Within (file : FileId) (text : String) (s : Span) : Prop where
  file_eq : s.file = file
  start_le_stop : s.start ≤ s.stop
  start : Text.IsBoundary text s.start
  stop : Text.IsBoundary text s.stop

namespace Span.Within

variable {file : FileId} {text : String} {s t : Span}

/-- The later of two boundaries is one. -/
theorem isBoundary_max {m n : Nat} (hm : Text.IsBoundary text m) (hn : Text.IsBoundary text n) :
    Text.IsBoundary text (max m n) := by
  rcases Nat.le_total m n with hle | hle
  · rwa [Nat.max_eq_right hle]
  · rwa [Nat.max_eq_left hle]

/-- The earlier of two boundaries is one. -/
theorem isBoundary_min {m n : Nat} (hm : Text.IsBoundary text m) (hn : Text.IsBoundary text n) :
    Text.IsBoundary text (min m n) := by
  rcases Nat.le_total m n with hle | hle
  · rwa [Nat.min_eq_left hle]
  · rwa [Nat.min_eq_right hle]

/-- From the start of a span up to where another one stops, if that is further on. -/
theorem stretch (hs : s.Within file text) (ht : t.Within file text) :
    Within file text ⟨s.file, s.start, max s.stop t.stop⟩ :=
  ⟨hs.file_eq, Nat.le_trans hs.start_le_stop (Nat.le_max_left _ _), hs.start,
    isBoundary_max hs.stop ht.stop⟩

/-- The cover of two places of a text is one. -/
theorem cover (hs : s.Within file text) (ht : t.Within file text) :
    (s.cover t).Within file text := by
  unfold Span.cover
  split
  · exact ht
  · split
    · exact hs
    · have hle : min s.start t.start ≤ max s.stop t.stop :=
        Nat.le_trans (Nat.min_le_left _ _) (Nat.le_trans hs.start_le_stop (Nat.le_max_left _ _))
      exact ⟨hs.file_eq, hle, isBoundary_min hs.start ht.start, isBoundary_max hs.stop ht.stop⟩

/-- A stretch between two points of a text is a place of it. -/
theorem of_between {inside after : List Char} (hfile : s.file = file)
    (h : Text.Between text s.start s.stop inside after) : s.Within file text :=
  ⟨hfile, h.start_le_stop, h.isBoundary_start, h.isBoundary_stop⟩

end Span.Within

/-! ## Lines -/

namespace SourceFile

/-- The line around an offset, cut out of the text: what stands before the offset and what stands
after it are searched for a line break, and the text is cut after the one and before the other.
There is none if one of the cuts would split a character. -/
def lineText? (f : SourceFile) (offset : Nat) : Option String := do
  let text := f.content.toList
  let offset := min offset f.content.utf8ByteSize
  let before ← Text.byteSlice? text 0 offset
  let after ← Text.byteSlice? text offset f.content.utf8ByteSize
  let start := Text.byteLength (before.reverse.dropWhile (· != '\n')).reverse
  let stop := offset + Text.byteLength (after.takeWhile (· != '\n'))
  let line ← Text.byteSlice? text start stop
  return String.ofList line

/-- At a character boundary all cuts can be made, and give the line that is shown. -/
theorem lineText?_eq {f : SourceFile} {offset : Nat} (h : Text.IsBoundary f.content offset) :
    f.lineText? offset = some (f.lineText offset) := by
  have hmin : min offset f.content.utf8ByteSize = offset := Nat.min_eq_left h.le_size
  obtain ⟨before, after, htext, rfl⟩ := Text.exists_of_isBoundary h
  have hsize : f.content.utf8ByteSize = Text.byteLength before + Text.byteLength after := by
    rw [← Text.byteLength_toList, htext, Text.byteLength_append]
  have hbefore : Text.Between f.content 0 (Text.byteLength before) before after :=
    ⟨[], htext, rfl, Nat.zero_add _⟩
  have hafter : Text.Between f.content (Text.byteLength before) f.content.utf8ByteSize after [] :=
    ⟨before, by rw [htext, List.append_nil], rfl, hsize.symm⟩
  -- the line starts after the last line break before the offset, and stops before the next one
  have hhead : before = (before.reverse.dropWhile (· != '\n')).reverse ++
      (before.reverse.takeWhile (· != '\n')).reverse := by
    rw [← List.reverse_append, List.takeWhile_append_dropWhile, List.reverse_reverse]
  have htail : after = after.takeWhile (· != '\n') ++ after.dropWhile (· != '\n') :=
    List.takeWhile_append_dropWhile.symm
  have hline : Text.Between f.content
      (Text.byteLength (before.reverse.dropWhile (· != '\n')).reverse)
      (Text.byteLength before + Text.byteLength (after.takeWhile (· != '\n')))
      ((before.reverse.takeWhile (· != '\n')).reverse ++ after.takeWhile (· != '\n'))
      (after.dropWhile (· != '\n')) := by
    refine ⟨_, ?_, rfl, ?_⟩
    · rw [htext, List.append_assoc, ← htail, ← List.append_assoc, ← hhead]
    · rw [Text.byteLength_append, ← Nat.add_assoc, ← Text.byteLength_append, ← hhead]
  rw [lineText?, hmin, hbefore.byteSlice?, lineText, htext, Text.splitBytes_append_of_byteLength]
  rw [← htext]
  simp only [Option.bind_eq_bind, Option.bind_some, hafter.byteSlice?, hline.byteSlice?]
  rfl

end SourceFile

/-! ## Terminals -/

namespace Diagnostic

variable (sources : Sources) (d : Diagnostic)

/-- The excerpt for a terminal, made step by step.  There is none if that would split a
character. -/
def excerpt? : Option String :=
  match sources.locate? d.span, sources.file? d.span.file with
  | some loc, some file => (file.lineText? d.span.start).map (d.underlined loc)
  | _, _ => some ""

/-- The text for a terminal, made step by step.  There is none if that would split a character. -/
def renderTerminal? (colour : Bool) : Option String :=
  (d.excerpt? sources).map (d.terminalText colour sources)

variable {sources} {d}

/-- A diagnostic can be shown if it stands at a character boundary, or in none of the texts. -/
theorem renderTerminal?_eq
    (h : ∀ f, sources.file? d.span.file = some f → Text.IsBoundary f.content d.span.start)
    (colour : Bool) :
    d.renderTerminal? sources colour = some (d.renderTerminal colour sources) := by
  have hexcerpt : d.excerpt? sources = some (d.excerpt sources) := by
    unfold excerpt? excerpt
    cases sources.locate? d.span with
    | none => rfl
    | some loc =>
        cases hfile : sources.file? d.span.file with
        | none => rfl
        | some f =>
            dsimp only
            rw [SourceFile.lineText?_eq (h f hfile), Option.map_some]
  rw [renderTerminal?, hexcerpt, Option.map_some, renderTerminal]

end Diagnostic

end SignalGraph

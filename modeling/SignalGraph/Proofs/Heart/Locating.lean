import SignalGraph.Proofs.Heart.Parsed
import SignalGraph.Proofs.Program.Places
import SignalGraph.Proofs.Source.Excerpts

/-!
# SignalGraph.Proofs.Heart.Locating

The places that parsers name.  The tokens cover characters of the text, and every place that a
parser names in a fault or writes into the program is the place of a token, reaches from one token
to another or covers two of them.  So all these places cover characters of the text (`Located`);
this is found from the parts of a parser.
-/

namespace SignalGraph

/-- The span stands in no text, or covers characters of the one with the given number. -/
def Span.Fits (file : FileId) (text : String) (s : Span) : Prop := s.isDummy ∨ s.Within file text

namespace Heart

variable (file : FileId) (text : String)

/-- All tokens around the place cover characters of the text. -/
structure Cursor.Within (c : Cursor) : Prop where
  before : c.before.span.Within file text
  rest : ∀ t ∈ c.rest, t.span.Within file text

/-- The tokens cover characters of the text, and what was read so far stands in it. -/
structure ParserState.Within (s : ParserState) : Prop where
  cursor : s.cursor.Within file text
  program : s.program.Placed (Span.Fits file text)

namespace Cursor.Within

variable {file} {text} {c : Cursor} (h : c.Within file text)

include h

/-- The current token stands within the text. -/
theorem current : c.current.span.Within file text := by
  unfold Cursor.current
  cases hrest : c.rest with
  | nil => exact h.before
  | cons t rest => exact h.rest t (hrest ▸ List.mem_cons_self)

/-- After a token the others stand within the text. -/
theorem next : c.next.Within file text := by
  unfold Cursor.next
  split
  · next t rest hrest =>
      split
      · exact h
      · exact ⟨h.rest t (hrest ▸ List.mem_cons_self),
          fun u hu => h.rest u (hrest ▸ List.mem_cons_of_mem t hu)⟩
  · exact h

end Cursor.Within

namespace Parser

variable {α β : Type}

/-- From tokens that cover characters of the text, the parser reports a fault at characters of the
text, or it succeeds, keeps to the text and answers with `post`. -/
def Locates (x : Parser α) (post : α → Prop) : Prop :=
  ∀ s, s.Within file text → match x.run s with
    | .error d => d.span.Within file text
    | .ok (a, s) => s.Within file text ∧ post a

/-- All places that the parser names cover characters of the text.  This is found from the parts of
a parser. -/
class Located (x : Parser α) : Prop where
  locates : Locates file text x fun _ => True

/-- A span that covers characters of the text. -/
abbrev SpanIn := {s : Span // s.Within file text}

/-- A token that covers characters of the text. -/
abbrev TokenIn := {t : Token // t.span.Within file text}

/-- A place between tokens that cover characters of the text. -/
abbrev CursorIn := {c : Cursor // c.Within file text}

/-- The span covers characters of the text. -/
class Marked (s : Span) : Prop where
  within : s.Within file text

instance (s : SpanIn file text) : Marked file text s.1 := ⟨s.2⟩

instance (t : TokenIn file text) : Marked file text t.1.span := ⟨t.2⟩

instance (s t : Span) [hs : Marked file text s] [ht : Marked file text t] :
    Marked file text (s.cover t) := ⟨hs.within.cover ht.within⟩

variable {file} {text}

/-! ## Putting parsers together -/

section

variable {x y : Parser α} {f : α → Parser β} {mid : α → Prop} {post : β → Prop}

/-- Parsers that locate do so one after the other. -/
theorem Locates.bind (hx : Locates file text x mid)
    (hf : ∀ a, mid a → Locates file text (f a) post) : Locates file text (x >>= f) post := by
  intro s hs
  rw [StateT.run_bind]
  have hfirst := hx s hs
  cases hrun : x.run s with
  | error d =>
      rw [hrun] at hfirst
      exact hfirst
  | ok r =>
      rw [hrun] at hfirst
      exact hf r.1 hfirst.2 r.2 hfirst.1

/-- What is known of the results may be weakened. -/
theorem Locates.mono {mid' : α → Prop} (h : Locates file text x mid) (himp : ∀ a, mid a → mid' a) :
    Locates file text x mid' := by
  intro s hs
  have hx := h s hs
  cases hrun : x.run s with
  | error d =>
      rw [hrun] at hx
      exact hx
  | ok r =>
      rw [hrun] at hx
      exact ⟨hx.1, himp r.1 hx.2⟩

/-- A parser whose results are known is one that locates. -/
theorem Locates.located (h : Locates file text x mid) : Located file text x :=
  ⟨h.mono fun _ _ => trivial⟩

theorem locates_pure {a : α} (h : mid a) : Locates file text (pure a) mid := fun _ hs => ⟨hs, h⟩

/-- Both branches locate. -/
theorem locates_ite {b : Prop} [Decidable b] (hx : Locates file text x mid)
    (hy : Locates file text y mid) : Locates file text (if b then x else y) mid := by
  split
  · exact hx
  · exact hy

/-- A parser of whose results nothing is known may come first. -/
theorem locates_then (hx : Located file text x) (hf : ∀ a, Locates file text (f a) post) :
    Locates file text (x >>= f) post := hx.locates.bind fun a _ => hf a

/-- Parsers that locate do so one after the other, if nothing need be known of the results. -/
theorem located_bind (hx : Located file text x) (hf : ∀ a, Located file text (f a)) :
    Located file text (x >>= f) := ⟨locates_then hx fun a => (hf a).locates⟩

instance [hx : Located file text x] [hf : ∀ a, Located file text (f a)] :
    Located file text (x >>= f) := located_bind hx hf

instance (a : α) : Located file text (pure a) := ⟨locates_pure trivial⟩

instance {b : Prop} [Decidable b] [hx : Located file text x] [hy : Located file text y] :
    Located file text (if b then x else y) := ⟨locates_ite hx.locates hy.locates⟩

/-! ## Looking -/

/-- A failure is reported at its span. -/
theorem locates_fail (fault : Fault) {span : Span} (hspan : span.Within file text) :
    Locates file text (fail fault span) mid := fun _ _ => hspan

instance (fault : Fault) (span : Span) [hspan : Marked file text span] :
    Located file text (fail fault span : Parser α) := ⟨locates_fail fault hspan.within⟩

theorem locates_expected (what : String) : Locates file text (expected what) mid :=
  fun _ hs => hs.cursor.current

instance (what : String) : Located file text (expected what : Parser α) := ⟨locates_expected what⟩

theorem locates_cursor : Locates file text cursor (·.Within file text) :=
  fun _ hs => ⟨hs, hs.cursor⟩

/-- What is done with a cursor may use that it stands within the text. -/
theorem located_cursor {f : Cursor → Parser β}
    (hf : ∀ c : CursorIn file text, Located file text (f c.1)) : Located file text (cursor >>= f) :=
  ⟨locates_cursor.bind fun c hc => (hf ⟨c, hc⟩).locates⟩

instance {f : Cursor → Parser β} [hf : ∀ c : CursorIn file text, Located file text (f c.1)] :
    Located file text (cursor >>= f) := located_cursor hf

theorem locates_current : Locates file text current (·.span.Within file text) :=
  locates_cursor.bind fun _ hc => locates_pure hc.current

/-- What is done with the current token may use that it stands within the text. -/
theorem located_current {f : Token → Parser β}
    (hf : ∀ t : TokenIn file text, Located file text (f t.1)) : Located file text (current >>= f) :=
  ⟨locates_current.bind fun t ht => (hf ⟨t, ht⟩).locates⟩

instance {f : Token → Parser β} [hf : ∀ t : TokenIn file text, Located file text (f t.1)] :
    Located file text (current >>= f) := located_current hf

instance (n : Nat) : Located file text (kindAt n) := by unfold kindAt; infer_instance

instance (kind : TokenKind) : Located file text (at_ kind) := by unfold at_; infer_instance

instance (kind : TokenKind) : Located file text (nextIs kind) := by unfold nextIs; infer_instance

instance (word : String) : Located file text (atKeyword word) := by
  unfold atKeyword
  infer_instance

instance : Located file text bound := by unfold bound; infer_instance

/-! ## Moving -/

instance : Located file text advance := ⟨fun _ hs => ⟨⟨hs.cursor.next, hs.program⟩, trivial⟩⟩

theorem located_moveTo {c : Cursor} (hc : c.Within file text) : Located file text (moveTo c) :=
  ⟨fun _ hs => ⟨⟨hc, hs.program⟩, trivial⟩⟩

instance (c : CursorIn file text) : Located file text (moveTo c.1) := located_moveTo c.2

instance (kind : TokenKind) : Located file text (eat kind) := by unfold eat; infer_instance

instance (word : String) : Located file text (eatKeyword word) := by
  unfold eatKeyword
  infer_instance

theorem locates_expect (kind : TokenKind) :
    Locates file text (expect kind) (·.span.Within file text) := by
  refine locates_current.bind fun t ht => locates_then inferInstance fun eaten => ?_
  exact locates_ite (locates_pure ht) (locates_expected _)

/-- What is done with an expected token may use that it stands within the text. -/
theorem located_expect {kind : TokenKind} {f : Token → Parser β}
    (hf : ∀ t : TokenIn file text, Located file text (f t.1)) :
    Located file text (expect kind >>= f) :=
  ⟨(locates_expect kind).bind fun t ht => (hf ⟨t, ht⟩).locates⟩

instance {kind : TokenKind} {f : Token → Parser β}
    [hf : ∀ t : TokenIn file text, Located file text (f t.1)] :
    Located file text (expect kind >>= f) := located_expect hf

instance (word : String) : Located file text (expectKeyword word) := by
  unfold expectKeyword
  infer_instance

instance : Located file text identifier := by unfold identifier; infer_instance

/-- A span from a token of the text up to the last one read stands within the text. -/
theorem locates_spanFrom {first : Token} (hfirst : first.span.Within file text) :
    Locates file text (spanFrom first) (·.Within file text) :=
  locates_cursor.bind fun _ hc => locates_pure (hfirst.stretch hc.before)

/-- What is done with a span may use that it stands within the text. -/
theorem located_spanFrom {first : Token} [hfirst : Marked file text first.span]
    {f : Span → Parser β} (hf : ∀ s : SpanIn file text, Located file text (f s.1)) :
    Located file text (spanFrom first >>= f) :=
  ⟨(locates_spanFrom hfirst.within).bind fun s hs => (hf ⟨s, hs⟩).locates⟩

instance {first : Token} [hfirst : Marked file text first.span] {f : Span → Parser β}
    [hf : ∀ s : SpanIn file text, Located file text (f s.1)] :
    Located file text (spanFrom first >>= f) := located_spanFrom hf

/-! ## Numbers -/

instance : Located file text natural := by
  refine located_expect fun t => ?_
  extract_lets jp
  have hjp : ∀ r, Located file text (jp r) := by
    intro r
    unfold jp
    split <;> infer_instance
  clear_value jp
  infer_instance

instance : Located file text wide := by
  refine located_expect fun t => ?_
  split <;> infer_instance

/-! ## Loops -/

instance (close : TokenKind) {item : Parser Unit} [hitem : Located file text item] :
    Located file text (untilClosed close item) := by
  have hgo : ∀ n, Located file text (untilClosed.go close item n) := by
    intro n
    induction n with
    | zero => unfold untilClosed.go; infer_instance
    | succ n ih => unfold untilClosed.go; infer_instance
  unfold untilClosed
  infer_instance

instance (close : TokenKind) [hx : Located file text x] :
    Located file text (commaList close x) := by
  have hgo : ∀ n, Located file text (commaList.go close x n) := by
    intro n
    induction n with
    | zero => unfold commaList.go; infer_instance
    | succ n ih => unfold commaList.go; infer_instance
  unfold commaList
  infer_instance

instance (opening closing : TokenKind) (depth n : Nat) :
    Located file text (skipBalanced.go opening closing depth n) := by
  induction n generalizing depth with
  | zero => unfold skipBalanced.go; infer_instance
  | succ n ih => unfold skipBalanced.go; infer_instance

instance (opening closing : TokenKind) : Located file text (skipBalanced opening closing) := by
  unfold skipBalanced
  infer_instance

instance (name : String) (n : Nat) : Located file text (qualifiedName.go name n) := by
  induction n generalizing name with
  | zero => unfold qualifiedName.go; infer_instance
  | succ n ih => unfold qualifiedName.go; infer_instance

instance : Located file text qualifiedName := by unfold qualifiedName; infer_instance

/-- A list of what the rounds of a loop answer. -/
theorem locates_mapM {l : List α} {f : α → Parser β}
    (hf : ∀ a ∈ l, Locates file text (f a) post) :
    Locates file text (l.mapM f) fun bs => ∀ b ∈ bs, post b := by
  induction l with
  | nil =>
      rw [List.mapM_nil]
      exact locates_pure (List.forall_mem_nil _)
  | cons a l ih =>
      rw [List.mapM_cons]
      refine (hf a List.mem_cons_self).bind fun b hb => ?_
      refine (ih fun c hc => hf c (List.mem_cons_of_mem a hc)).bind fun bs hbs => ?_
      exact locates_pure (List.forall_mem_cons.mpr ⟨hb, hbs⟩)

instance [hf : ∀ a, Located file text (f a)] (l : List α) : Located file text (l.mapM f) := by
  induction l with
  | nil => rw [List.mapM_nil]; infer_instance
  | cons a l ih => rw [List.mapM_cons]; infer_instance

/-- Parsers for a list locate if each of them does. -/
theorem located_forM {l : List α} {f : α → Parser Unit} (hf : ∀ a ∈ l, Located file text (f a)) :
    Located file text (l.forM f) := by
  induction l with
  | nil => exact ⟨locates_pure trivial⟩
  | cons a l ih =>
      rw [List.forM_eq_forM, List.forM_cons]
      refine located_bind (hf a List.mem_cons_self) fun _ => ?_
      exact ih fun b hb => hf b (List.mem_cons_of_mem a hb)

/-! ## The program -/

instance : Located file text program := ⟨fun _ hs => ⟨hs, trivial⟩⟩

/-- All parts of the program so far stand within the text. -/
theorem locates_program : Locates file text program (·.Placed (Span.Fits file text)) :=
  fun _ hs => ⟨hs, hs.program⟩

/-- A change may use that the parts so far stand within the text, and must keep it so. -/
theorem located_modifyProgram {g : Program → Program}
    (hg : ∀ p : Program, p.Placed (Span.Fits file text) → (g p).Placed (Span.Fits file text)) :
    Located file text (modifyProgram g) :=
  ⟨fun _ hs => ⟨⟨hs.cursor, hg _ hs.program⟩, trivial⟩⟩

/-- An addition may use that the parts so far stand within the text, and must keep it so. -/
theorem located_add {g : Program → α × Program}
    (hg : ∀ p : Program, p.Placed (Span.Fits file text) → (g p).2.Placed (Span.Fits file text)) :
    Located file text (add g) :=
  ⟨fun _ hs => ⟨⟨hs.cursor, hg _ hs.program⟩, trivial⟩⟩

/-- A result that is put into the parser fails within the text. -/
theorem locates_lift {r : Except Diagnostic α} (hr : ∀ d, r = .error d → d.span.Within file text) :
    Locates file text (lift r) (r = .ok ·) := by
  intro s hs
  cases r with
  | error d => exact hr d rfl
  | ok a => exact ⟨hs, rfl⟩

/-- A result that is put into the parser, and what follows it. -/
theorem located_lift {r : Except Diagnostic α} (hr : ∀ d, r = .error d → d.span.Within file text)
    (hf : ∀ a, r = .ok a → Located file text (f a)) : Located file text (lift r >>= f) :=
  ⟨(locates_lift hr).bind fun a ha => (hf a ha).locates⟩

instance (v : Value) : Located file text (add (·.intern v)) :=
  located_add fun _ hp => hp.of_eq rfl rfl

instance (s : String) : Located file text (add (·.internText s)) :=
  located_add fun _ hp => hp.of_eq rfl rfl

instance (v : Variable) : Located file text (add (·.addVariable v)) :=
  located_add fun _ hp => hp.addVariable v

end

end Parser

end Heart

end SignalGraph

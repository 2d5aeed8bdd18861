import SignalGraph.Heart.Parser.Body
import SignalGraph.Heart.Parser.Item
import SignalGraph.Proofs.Heart.Passing

/-!
# SignalGraph.Proofs.Heart.Inline

What parsers of names, types, constants and expressions pass: tokens that stand inside an item or a
statement, but no brace, no semicolon, no block label and not the end of the text (`Inline`).  So
braces and semicolons can be counted without knowing what stands between them.  This is found from
the parts of a parser.
-/

namespace SignalGraph.Heart

/-- Kinds of tokens that stand inside an item or a statement and mark no boundary. -/
def TokenKind.isInline : TokenKind → Bool
  | leftBrace | rightBrace | semicolon | blockLabel | eof => false
  | _ => true

namespace Parser

variable {α β : Type}

/-! ## One run -/

/-- From the given state the parser passes only tokens that mark no boundary. -/
def InlineAt (x : Parser α) (s : ParserState) : Prop :=
  ∀ a s', x.run s = .ok (a, s') →
    ∃ ts, s.cursor.Passed ts s'.cursor ∧ ∀ t ∈ ts, t.kind.isInline

/-- The parser passes only tokens that mark no boundary.  This is found from its parts. -/
class Inline (x : Parser α) : Prop where
  inlineAt : ∀ s, InlineAt x s

section

variable {x y : Parser α} {f : α → Parser β} {s : ParserState} {kind : TokenKind}

/-- A parser that stays where it is passes nothing. -/
theorem inlineAt_of_still (h : ∀ a s', x.run s = .ok (a, s') → s'.cursor = s.cursor) :
    InlineAt x s := by
  intro a s' hrun
  exact ⟨[], h a s' hrun ▸ .refl _, by simp⟩

/-- What passes no boundary may be followed by what passes none. -/
theorem InlineAt.bind (hx : InlineAt x s)
    (hf : ∀ a s', x.run s = .ok (a, s') → InlineAt (f a) s') : InlineAt (x >>= f) s := by
  intro b s'' hrun
  obtain ⟨a, s', hrun, hrun'⟩ := run_bind_eq_ok.mp hrun
  obtain ⟨ts, hts, hinline⟩ := hx a s' hrun
  obtain ⟨us, hus, hinline'⟩ := hf a s' hrun b s'' hrun'
  refine ⟨ts ++ us, hts.trans hus, fun t ht => ?_⟩
  exact (List.mem_append.mp ht).elim (hinline t) (hinline' t)

/-- What passes no boundary anywhere passes none here. -/
theorem inlineAt_of_inline [hx : Inline x] : InlineAt x s := hx.inlineAt s

/-- A step that only looks. -/
theorem inlineAt_of_run_eq (h : x.run s = y.run s) (hy : InlineAt y s) : InlineAt x s :=
  fun a s' hrun => hy a s' (h ▸ hrun)

/-- A first step from a known state. -/
theorem InlineAt.then_inline [hf : ∀ a, Inline (f a)] (hx : InlineAt x s) : InlineAt (x >>= f) s :=
  hx.bind fun a s' _ => (hf a).inlineAt s'

theorem inlineAt_fail {fault : Fault} {span : Span} : InlineAt (fail fault span : Parser α) s :=
  fun _ _ hrun => absurd hrun (run_fail_ne_ok.mp · |>.elim)

/-- Advancing past a token that marks no boundary. -/
theorem inlineAt_advance (h : s.cursor.current.kind.isInline) : InlineAt advance s := by
  intro a s' hrun
  cases hrun
  obtain ⟨c, p⟩ := s
  cases hrest : c.rest with
  | nil =>
      have hnext : c.next = c := by simp only [Cursor.next, hrest]
      refine ⟨[], ?_, by simp⟩
      show c.Passed [] c.next
      rw [hnext]
      exact .refl c
  | cons t rest =>
      have ht : t.kind.isInline := by simpa [Cursor.current, hrest] using h
      have hne : t.kind ≠ .eof := by
        rintro heof
        rw [heof] at ht
        cases ht
      have hnext : c.next = ⟨t, rest⟩ := by simp only [Cursor.next, hrest, if_neg hne]
      refine ⟨[t], ?_, by simpa using ht⟩
      show c.Passed [t] c.next
      rw [hnext]
      exact ⟨hrest, rfl⟩

/-- A step over a token that marks no boundary comes before what follows. -/
theorem inlineAt_advance_bind {f : Unit → Parser β} (h : s.cursor.current.kind.isInline)
    (hf : InlineAt (f ()) { s with cursor := s.cursor.next }) : InlineAt (advance >>= f) s := by
  refine (inlineAt_advance h).bind fun _ s' hrun => ?_
  cases hrun
  exact hf

/-! ## Parts -/

instance (a : α) : Inline (pure a) :=
  ⟨fun _ => inlineAt_of_still fun _ _ hrun => by cases hrun; rfl⟩

/-- Parsers that pass no boundary pass none one after the other. -/
theorem inline_bind (hx : Inline x) (hf : ∀ a, Inline (f a)) : Inline (x >>= f) :=
  ⟨fun s => (hx.inlineAt s).bind fun a s' _ => (hf a).inlineAt s'⟩

instance [hx : Inline x] [hf : ∀ a, Inline (f a)] : Inline (x >>= f) := inline_bind hx hf

instance {b : Prop} [Decidable b] [hx : Inline x] [hy : Inline y] :
    Inline (if b then x else y) := by
  split
  · exact hx
  · exact hy

instance (fault : Fault) (span : Span) : Inline (fail fault span : Parser α) :=
  ⟨fun _ => inlineAt_fail⟩

instance : Inline cursor := ⟨fun _ => inlineAt_of_still fun _ _ hrun => by cases hrun; rfl⟩

instance : Inline program := ⟨fun _ => inlineAt_of_still fun _ _ hrun => by cases hrun; rfl⟩

instance (change : Program → Program) : Inline (modifyProgram change) :=
  ⟨fun _ => inlineAt_of_still fun _ _ hrun => by cases hrun; rfl⟩

instance (change : Program → α × Program) : Inline (add change) :=
  ⟨fun _ => inlineAt_of_still fun _ _ hrun => by cases hrun; rfl⟩

instance (r : Except Diagnostic α) : Inline (lift r) := by
  refine ⟨fun s => inlineAt_of_still fun a s' hrun => ?_⟩
  cases r with
  | error d => cases hrun
  | ok b =>
      cases hrun
      rfl

instance : Inline current := by unfold current; infer_instance

instance (n : Nat) : Inline (kindAt n) := by unfold kindAt; infer_instance

instance : Inline (at_ kind) := by unfold at_; infer_instance

instance : Inline (nextIs kind) := by unfold nextIs; infer_instance

instance (word : String) : Inline (atKeyword word) := by unfold atKeyword; infer_instance

instance : Inline bound := by unfold bound; infer_instance

instance (first : Token) : Inline (spanFrom first) := by unfold spanFrom; infer_instance

instance (what : String) : Inline (expected what : Parser α) := by unfold expected; infer_instance

theorem inline_eat (h : kind.isInline) : Inline (eat kind) := by
  refine ⟨fun s => ?_⟩
  unfold eat
  refine inlineAt_of_run_eq run_at_bind ?_
  split
  · next hkind =>
    have hkind : s.cursor.current.kind = kind := by simpa using hkind
    exact (inlineAt_advance (hkind.symm ▸ h)).then_inline
  · exact inlineAt_of_inline

theorem inline_expect (h : kind.isInline) : Inline (expect kind) := by
  have heat := inline_eat h
  unfold expect
  infer_instance

instance : Inline (eat .leftParen) := inline_eat rfl
instance : Inline (eat .rightParen) := inline_eat rfl
instance : Inline (eat .leftBracket) := inline_eat rfl
instance : Inline (eat .rightBracket) := inline_eat rfl
instance : Inline (eat .less) := inline_eat rfl
instance : Inline (eat .dot) := inline_eat rfl
instance : Inline (eat .equals) := inline_eat rfl
instance : Inline (eat .ampersand) := inline_eat rfl
instance : Inline (eat .star) := inline_eat rfl
instance : Inline (eat .slash) := inline_eat rfl
instance : Inline (eat .stringLiteral) := inline_eat rfl
instance : Inline (expect .identifier) := inline_expect rfl
instance : Inline (expect .localName) := inline_expect rfl
instance : Inline (expect .integer) := inline_expect rfl
instance : Inline (expect .leftParen) := inline_expect rfl
instance : Inline (expect .rightParen) := inline_expect rfl
instance : Inline (expect .rightBracket) := inline_expect rfl
instance : Inline (expect .greater) := inline_expect rfl
instance : Inline (expect .comma) := inline_expect rfl
instance : Inline (expect .colon) := inline_expect rfl
instance : Inline (expect .question) := inline_expect rfl
instance : Inline (expect .equals) := inline_expect rfl
instance : Inline (expect .arrow) := inline_expect rfl

instance (word : String) : Inline (eatKeyword word) := by
  refine ⟨fun s => ?_⟩
  unfold eatKeyword
  refine inlineAt_of_run_eq run_atKeyword_bind ?_
  split
  · next hkind =>
    simp only [Bool.and_eq_true, decide_eq_true_eq] at hkind
    exact (inlineAt_advance (by rw [hkind.1]; rfl)).then_inline
  · exact inlineAt_of_inline

instance (word : String) : Inline (expectKeyword word) := by unfold expectKeyword; infer_instance

instance : Inline identifier := by unfold identifier; infer_instance

/-! ## Numbers, lists and names -/

instance : Inline natural := by
  refine inline_bind inferInstance fun t => ?_
  extract_lets jp
  have hjp : ∀ r, Inline (jp r) := by
    intro r
    unfold jp
    split <;> infer_instance
  clear_value jp
  infer_instance

instance : Inline wide := by
  refine inline_bind inferInstance fun t => ?_
  split <;> infer_instance

instance (close : TokenKind) [hx : Inline x] [hclose : Inline (eat close)] :
    Inline (commaList close x) := by
  have hgo : ∀ n, Inline (commaList.go close x n) := by
    intro n
    induction n with
    | zero => unfold commaList.go; infer_instance
    | succ n ih => unfold commaList.go; infer_instance
  unfold commaList
  infer_instance

/-- The second token ahead is the first one after an advance. -/
theorem kind_current_next {c : Cursor} (h : c.kindAt 1 = kind) (hkind : kind ≠ .eof)
    (hc : c.current.kind ≠ .eof) : c.next.current.kind = kind := by
  cases hrest : c.rest with
  | nil => simp [Cursor.kindAt, hrest, hkind.symm] at h
  | cons t rest =>
      have ht : t.kind ≠ .eof := by simpa [Cursor.current, hrest] using hc
      cases rest with
      | nil => simp [Cursor.kindAt, hrest, hkind.symm] at h
      | cons u rest => simpa [Cursor.kindAt, Cursor.next, Cursor.current, hrest, ht] using h

instance (name : String) (n : Nat) : Inline (qualifiedName.go name n) := by
  induction n generalizing name with
  | zero => unfold qualifiedName.go; infer_instance
  | succ n ih =>
      refine ⟨fun s => ?_⟩
      unfold qualifiedName.go
      refine inlineAt_of_run_eq run_at_bind (inlineAt_of_run_eq run_nextIs_bind ?_)
      split
      · next hkind =>
        simp only [Bool.and_eq_true, decide_eq_true_eq] at hkind
        exact (inlineAt_advance (by rw [hkind.1]; rfl)).then_inline
      · exact inlineAt_of_inline

instance : Inline qualifiedName := by unfold qualifiedName; infer_instance

end

/-! ## Types, constants and annotations -/

instance : Inline atArraySuffix := by unfold atArraySuffix; infer_instance

theorem run_atArraySuffix_bind {f : Bool → Parser β} {s : ParserState} :
    (atArraySuffix >>= f).run s =
      (f (s.cursor.kindAt 0 = .leftBracket && (s.cursor.kindAt 1 = .rightBracket ||
        (s.cursor.kindAt 1 = .integer && s.cursor.kindAt 2 = .rightBracket)))).run s := rfl

/-- The first kind ahead is that of the current token. -/
theorem kind_current_of_kindAt {c : Cursor} {kind : TokenKind} (h : c.kindAt 0 = kind)
    (hkind : kind ≠ .eof) : c.current.kind = kind := by
  cases hrest : c.rest with
  | nil => simp [Cursor.kindAt, hrest, hkind.symm] at h
  | cons t rest => simpa [Cursor.kindAt, Cursor.current, hrest] using h

instance (n : Nat) (t : Ty) : Inline (arraySuffixes n t) := by
  induction n generalizing t with
  | zero => unfold arraySuffixes; infer_instance
  | succ n ih =>
      refine ⟨fun s => ?_⟩
      unfold arraySuffixes
      refine inlineAt_of_run_eq run_atArraySuffix_bind ?_
      split
      · next hkind =>
        simp only [Bool.and_eq_true, decide_eq_true_eq] at hkind
        have hcurrent := kind_current_of_kindAt hkind.1 (by decide)
        exact (inlineAt_advance (by rw [hcurrent]; rfl)).then_inline
      · exact inlineAt_of_inline

instance : Inline plainType := by
  refine ⟨fun s => ?_⟩
  unfold plainType
  refine inlineAt_of_run_eq run_current_bind ?_
  generalize ht : s.cursor.current = t
  split
  · exact inlineAt_of_inline
  · next hkind =>
    have hadvance : InlineAt advance s :=
      inlineAt_advance (by rw [ht, Decidable.not_not.mp hkind]; rfl)
    split
    · exact hadvance.then_inline
    · split
      · exact hadvance.then_inline
      · refine (inline_bind inferInstance fun path =>
          inline_bind inferInstance fun p => ?_).inlineAt s
        split <;> infer_instance

instance : Inline type := by unfold type; infer_instance

instance {element : Parser Value} [Inline element] : Inline (constantWith element) := by
  refine ⟨fun s => ?_⟩
  unfold constantWith
  refine inlineAt_of_run_eq run_current_bind ?_
  generalize ht : s.cursor.current = t
  have hadvance : ∀ kind, t.kind = kind → kind.isInline →
    ∀ p, InlineAt advance { s with program := p } :=
    fun kind hkind hinline p => inlineAt_advance (by rw [ht, hkind]; exact hinline)
  split
  · next hkind =>
    split
    · exact (hadvance _ hkind rfl s.program).then_inline
    · exact inlineAt_of_inline
  · next hkind => exact (hadvance _ hkind rfl s.program).then_inline
  · next hkind =>
    refine inlineAt_of_inline.bind fun id s' hrun => ?_
    cases hrun
    exact (hadvance _ hkind rfl _).then_inline
  · next hkind =>
    refine inlineAt_of_run_eq run_nextIs_bind ?_
    extract_lets named
    clear_value named
    split
    · exact (hadvance _ hkind rfl s.program).then_inline
    · exact inlineAt_of_inline
  · exact inlineAt_of_inline

instance (n : Nat) : Inline (constantTo n) := by
  induction n with
  | zero => unfold constantTo; infer_instance
  | succ n ih => unfold constantTo; infer_instance

instance : Inline constant := by unfold constant; infer_instance

instance : Inline internedConstant := by unfold internedConstant; infer_instance

instance : Inline property := by
  unfold property
  refine inline_bind inferInstance fun t => ?_
  extract_lets key jp
  have hjp : ∀ r, Inline (jp r) := by
    intro r
    unfold jp
    infer_instance
  clear_value jp
  infer_instance

/-- Two tokens that mark no boundary. -/
theorem inlineAt_advance_advance {α : Type} {x : Parser α} [hx : Inline x] {s : ParserState}
    {kind : TokenKind} (h : s.cursor.current.kind.isInline) (hnext : s.cursor.kindAt 1 = kind)
    (hkind : kind.isInline) : InlineAt (advance >>= fun _ => advance >>= fun _ => x) s := by
  have hcurrent : s.cursor.current.kind ≠ .eof := by
    rintro heof
    rw [heof] at h
    cases h
  have hne : kind ≠ .eof := by
    rintro rfl
    cases hkind
  refine inlineAt_advance_bind h ?_
  exact (inlineAt_advance (by rw [kind_current_next hnext hne hcurrent]; exact hkind)).then_inline

instance : Inline annotations := by
  refine ⟨fun s => ?_⟩
  unfold annotations
  refine inlineAt_of_run_eq (run_kindAt_bind 0) (inlineAt_of_run_eq (run_kindAt_bind 1) ?_)
  split
  · next hkind =>
    simp only [Bool.and_eq_true, decide_eq_true_eq] at hkind
    have hcurrent := kind_current_of_kindAt hkind.1 (by decide)
    exact inlineAt_advance_advance (by rw [hcurrent]; rfl) hkind.2 rfl
  · exact inlineAt_of_inline

/-! ## Expressions -/

section

variable {expr : Parser Expr} [hexpr : Inline expr] (scope : Scope)

instance : Inline functionRef := by
  unfold functionRef
  refine inline_bind inferInstance fun t => inline_bind inferInstance fun path => ?_
  refine inline_bind inferInstance fun p => ?_
  split <;> infer_instance

instance : Inline (arguments expr) := by unfold arguments; infer_instance

/-- A path is looked up from where it starts, and a constant is read from there again. -/
instance : Inline pathOrConstant := by
  refine ⟨fun s => ?_⟩
  have hconstant : Inline (do return Expr.const (← internedConstant)) := inferInstance
  unfold pathOrConstant
  refine inlineAt_of_run_eq run_cursor_bind (inlineAt_of_run_eq run_nextIs_bind ?_)
  extract_lets jp
  have hjp : ∀ found s₁, (∃ ts, s.cursor.Passed ts s₁.cursor ∧ ∀ t ∈ ts, t.kind.isInline) →
      ∀ a s', (jp found).run s₁ = .ok (a, s') →
        ∃ ts, s.cursor.Passed ts s'.cursor ∧ ∀ t ∈ ts, t.kind.isInline := by
    intro found s₁ hpassed a s' hrun
    unfold jp at hrun
    split at hrun
    · cases hrun
      exact hpassed
    · exact hconstant.inlineAt { s₁ with cursor := s.cursor } a s' hrun
  clear_value jp
  intro a s' hrun
  split at hrun
  · obtain ⟨path, s₁, hpath, hrun⟩ := run_bind_eq_ok.mp hrun
    exact hjp _ s₁ (Inline.inlineAt s path s₁ hpath) a s' hrun
  · exact hjp none s ⟨[], .refl _, by simp⟩ a s' hrun

/-- What starts with a word. -/
theorem inlineAt_wordExpr {s : ParserState} (h : s.cursor.current.kind = .identifier) :
    InlineAt (wordExpr expr) s := by
  have hinline : s.cursor.current.kind.isInline := by rw [h]; rfl
  have hadvance : InlineAt advance s := inlineAt_advance hinline
  unfold wordExpr
  refine inlineAt_of_run_eq run_current_bind (inlineAt_of_run_eq run_nextIs_bind ?_)
  generalize hcalled : decide (s.cursor.kindAt 1 = .leftParen) = called
  split
  · exact hadvance.then_inline
  · split
    · exact hadvance.then_inline
    · refine inlineAt_of_run_eq run_nextIs_bind ?_
      split
      · next hdot =>
        simp only [Bool.and_eq_true, decide_eq_true_eq] at hdot
        unfold processorProperty
        refine @inlineAt_advance_advance _ _ ?_ _ _ hinline hdot.2 rfl
        refine inline_bind inferInstance fun t => inline_bind inferInstance fun name => ?_
        split <;> infer_instance
      · split
        · next hop =>
          cases called with
          | true => exact inlineAt_advance_advance hinline (of_decide_eq_true hcalled) rfl
          | false => cases hop
        · next hop =>
          cases called with
          | true => exact inlineAt_advance_advance hinline (of_decide_eq_true hcalled) rfl
          | false => cases hop
        · exact inlineAt_of_inline

instance : Inline (primaryExpr scope expr) := by
  refine ⟨fun s => ?_⟩
  unfold primaryExpr
  refine inlineAt_of_run_eq run_current_bind ?_
  split
  · next hkind =>
    unfold localVariable
    refine inlineAt_of_run_eq run_current_bind ?_
    split
    · exact (inlineAt_advance (by rw [hkind]; rfl)).then_inline
    · exact inlineAt_of_inline
  · next hkind => exact inlineAt_wordExpr hkind
  iterate 4 exact inlineAt_of_inline

/-- What stands in brackets. -/
theorem inlineAt_indexed {s : ParserState} (h : s.cursor.current.kind = .leftBracket)
    (parent : Expr) : InlineAt (indexed expr parent) s := by
  unfold indexed
  refine inlineAt_advance_bind (by rw [h]; rfl) ?_
  extract_lets jp
  have hjp : ∀ e, Inline (jp e) := by
    intro e
    unfold jp
    infer_instance
  clear_value jp
  refine (inline_bind inferInstance fun _ => inline_bind inferInstance fun _ =>
    inline_bind inferInstance fun _ => inline_bind inferInstance fun _ => ?_ : Inline _).inlineAt _
  split
  · infer_instance
  · split <;> infer_instance

instance (n : Nat) (e : Expr) : Inline (selections expr n e) := by
  induction n generalizing e with
  | zero => unfold selections; infer_instance
  | succ n ih =>
      refine ⟨fun s => ?_⟩
      unfold selections
      refine inlineAt_of_run_eq run_at_bind ?_
      split
      · next hkind => exact (inlineAt_indexed (by simpa using hkind) e).then_inline
      · refine inlineAt_of_run_eq run_at_bind (inlineAt_of_run_eq run_nextIs_bind ?_)
        split
        · next hkind =>
          simp only [Bool.and_eq_true, decide_eq_true_eq] at hkind
          exact (inlineAt_advance (by rw [hkind.1]; rfl)).then_inline
        · exact inlineAt_of_inline

instance (n : Nat) : Inline (exprTo scope n) := by
  induction n with
  | zero => unfold exprTo; infer_instance
  | succ n ih => unfold exprTo; infer_instance

instance : Inline (Parser.expr scope) := by unfold Parser.expr; infer_instance

end

/-! ## Statements and declarations -/

section

variable (scope : Scope)

instance : Inline (call scope) := by unfold call; infer_instance

instance : Inline (write scope) := by
  unfold write
  refine inline_bind inferInstance fun endpoint => ?_
  extract_lets jp
  have hjp : ∀ element, Inline (jp element) := by
    intro element
    unfold jp
    infer_instance
  clear_value jp
  infer_instance

instance : Inline (store scope) := by
  unfold store
  refine inline_bind inferInstance fun _ => inline_bind inferInstance fun target => ?_
  refine inline_bind inferInstance fun _ => inline_bind inferInstance fun read => ?_
  split
  · infer_instance
  · refine inline_bind inferInstance fun called => ?_
    split
    · exact inline_bind inferInstance fun _ => inferInstance
    · infer_instance

instance : Inline (bareStatement scope) := by unfold bareStatement; infer_instance

instance (role : VariableRole) : Inline (declaredVariable role) := by
  unfold declaredVariable
  infer_instance

instance : Inline localRole := by unfold localRole; infer_instance

instance : Inline functionParameter := by unfold functionParameter; infer_instance

instance : Inline optionalIndex := by unfold optionalIndex; infer_instance

instance (n : Nat) : Inline (endpointPath.go n) := by
  induction n with
  | zero => unfold endpointPath.go; infer_instance
  | succ n ih => unfold endpointPath.go; infer_instance

instance : Inline endpointPath := by unfold endpointPath; infer_instance

instance : Inline endpointDetails := by
  unfold endpointDetails
  refine inline_bind inferInstance fun size => ⟨fun s => inlineAt_of_run_eq run_current_bind ?_⟩
  split
  · exact inlineAt_of_inline
  · next hkind =>
    have hidentifier := (Option.ite_none_right_eq_some.mp hkind).1
    exact (inlineAt_advance (by rw [hidentifier]; rfl)).then_inline

instance : Inline clockRatio := by unfold clockRatio; infer_instance

instance (m : ModuleId) : Inline (endpointRef m) := by
  unfold endpointRef
  refine inline_bind inferInstance fun t => inline_bind inferInstance fun first => ?_
  refine inline_bind inferInstance fun dotted => ?_
  split
  · refine inline_bind inferInstance fun p => ?_
    split <;> infer_instance
  · infer_instance

instance : Inline interpolation := by
  refine ⟨fun s => ?_⟩
  unfold interpolation
  refine inlineAt_of_run_eq run_current_bind (inlineAt_of_run_eq run_nextIs_bind ?_)
  split
  · next hkind =>
    simp only [Bool.and_eq_true, decide_eq_true_eq] at hkind
    split
    · exact (inlineAt_advance (by rw [hkind.1]; rfl)).then_inline
    · exact inlineAt_of_inline
  · exact inlineAt_of_inline

end

end Parser

end SignalGraph.Heart

import SignalGraph.Proofs.Heart.Inline

/-!
# SignalGraph.Proofs.Heart.Progress

Parsers move on through the text and never past its end.  `Takes n x` says that `x`, started where
the end of the text is still to come, either fails or takes at least `n` tokens, after which the end
is still to come.  With `n = 0` this holds of all parsers but those that jump; with `n = 1` it says
that a parser cannot succeed without taking a token.  Both are found from the parts of a parser.
-/

namespace SignalGraph.Heart

namespace Cursor

variable {c c' : Cursor} {ts : List Token}

/-- What is taken before the end of the text does not reach beyond it. -/
theorem Ended.of_passed (h : c.Ended) (hpassed : c.Passed ts c') (hts : ∀ t ∈ ts, t.kind ≠ .eof) :
    c'.Ended := by
  obtain ⟨t, ht, heof⟩ := h
  rw [hpassed.rest, List.mem_append] at ht
  exact ht.elim (fun ht => absurd heof (hts t ht)) fun ht => ⟨t, ht, heof⟩

/-- The tokens passed and those to come make up those there were. -/
theorem Passed.length (h : c.Passed ts c') : c.rest.length = ts.length + c'.rest.length := by
  rw [h.rest, List.length_append]

/-- The end of the text stays. -/
theorem next_eq_self (h : c.current.kind = .eof) : c.next = c := by
  unfold next
  split
  · next t rest hrest =>
    have ht : t.kind = .eof := by simpa [current, hrest] using h
    rw [if_pos ht]
  · rfl

end Cursor

namespace Parser

variable {α β : Type}

/-! ## One run -/

/-- From the given state the parser fails or takes at least `n` tokens, and the end of the text is
still to come. -/
def TakesAt (n : Nat) (x : Parser α) (s : ParserState) : Prop :=
  ∀ a s', x.run s = .ok (a, s') →
    ∃ ts, n ≤ ts.length ∧ s.cursor.Passed ts s'.cursor ∧ s'.cursor.Ended

/-- Wherever the end of the text is still to come, the parser fails or takes at least `n` tokens,
and the end is still to come.  This is found from the parts of the parser. -/
class Takes (n : Nat) (x : Parser α) : Prop where
  takesAt : ∀ s, s.cursor.Ended → TakesAt n x s

section

variable {x y : Parser α} {f : α → Parser β} {s s' : ParserState} {m n : Nat} {kind : TokenKind}

/-- Who takes some tokens takes fewer. -/
theorem TakesAt.mono (h : TakesAt n x s) (hmn : m ≤ n) : TakesAt m x s := by
  intro a s' hrun
  obtain ⟨ts, hn, hpassed, hended⟩ := h a s' hrun
  exact ⟨ts, Nat.le_trans hmn hn, hpassed, hended⟩

/-- Two parsers in turn take what they take together. -/
theorem TakesAt.bind (hx : TakesAt m x s)
    (hf : ∀ a s', x.run s = .ok (a, s') → s'.cursor.Ended → TakesAt n (f a) s') :
    TakesAt (m + n) (x >>= f) s := by
  intro b s'' hrun
  obtain ⟨a, s', hrun, hrun'⟩ := run_bind_eq_ok.mp hrun
  obtain ⟨ts, hts, hpassed, hended⟩ := hx a s' hrun
  obtain ⟨us, hus, hpassed', hended'⟩ := hf a s' hrun hended b s'' hrun'
  exact ⟨ts ++ us, by rw [List.length_append]; exact Nat.add_le_add hts hus, hpassed.trans hpassed',
    hended'⟩

/-- A first step that need not take anything. -/
theorem TakesAt.before (hx : TakesAt 0 x s)
    (hf : ∀ a s', x.run s = .ok (a, s') → s'.cursor.Ended → TakesAt n (f a) s') :
    TakesAt n (x >>= f) s := by
  have hbind := hx.bind hf
  rwa [Nat.zero_add] at hbind

/-- A step that only looks. -/
theorem takesAt_of_run_eq (h : x.run s = y.run s) (hy : TakesAt n y s) : TakesAt n x s :=
  fun a s' hrun => hy a s' (h ▸ hrun)

/-- A first step from a known state. -/
theorem TakesAt.then_takes [hf : ∀ a, Takes 0 (f a)] (hx : TakesAt n x s) : TakesAt n (x >>= f) s :=
  hx.bind fun a s' _ hs' => (hf a).takesAt s' hs'

theorem takesAt_fail {fault : Fault} {span : Span} : TakesAt n (fail fault span : Parser α) s :=
  fun _ _ hrun => absurd hrun (run_fail_ne_ok.mp · |>.elim)

/-- A parser that passes no boundary cannot pass the end of the text. -/
theorem InlineAt.takesAt (h : InlineAt x s) (hs : s.cursor.Ended) : TakesAt 0 x s := by
  intro a s' hrun
  obtain ⟨ts, hpassed, hinline⟩ := h a s' hrun
  refine ⟨ts, Nat.zero_le _, hpassed, hs.of_passed hpassed fun t ht heof => ?_⟩
  have ht := hinline t ht
  rw [heof] at ht
  cases ht

/-- A step takes a token, unless the text is at its end. -/
theorem takesAt_advance (h : s.cursor.current.kind ≠ .eof) (hs : s.cursor.Ended) :
    TakesAt 1 advance s := by
  intro a s' hrun
  cases hrun
  obtain ⟨hpassed, hended⟩ := hs.passed_next h
  exact ⟨[s.cursor.current], Nat.le_refl 1, hpassed, hended⟩

/-! ## Parts -/

instance (priority := low) [hx : Inline x] : Takes 0 x := ⟨fun s hs => (hx.inlineAt s).takesAt hs⟩

instance (priority := low) [hx : Takes 1 x] : Takes 0 x :=
  ⟨fun s hs => (hx.takesAt s hs).mono (Nat.zero_le 1)⟩

/-- Two parsers in turn take what they take together, wherever they start. -/
theorem takes_bind (hx : Takes m x) (hf : ∀ a, Takes n (f a)) : Takes (m + n) (x >>= f) :=
  ⟨fun s hs => (hx.takesAt s hs).bind fun a s' _ hs' => (hf a).takesAt s' hs'⟩

theorem takes_zero (hx : Takes 0 x) (hf : ∀ a, Takes 0 (f a)) : Takes 0 (x >>= f) :=
  takes_bind hx hf

/-- The first part takes a token. -/
theorem takes_first (hx : Takes 1 x) (hf : ∀ a, Takes 0 (f a)) : Takes 1 (x >>= f) :=
  takes_bind hx hf

/-- What comes after the first part takes a token. -/
theorem takes_then (hx : Takes 0 x) (hf : ∀ a, Takes 1 (f a)) : Takes 1 (x >>= f) :=
  takes_bind hx hf

instance [hx : Takes 0 x] [hf : ∀ a, Takes 0 (f a)] : Takes 0 (x >>= f) := takes_zero hx hf

instance [hx : Takes 1 x] [hf : ∀ a, Takes 0 (f a)] : Takes 1 (x >>= f) := takes_first hx hf

instance [hx : Takes 0 x] [hf : ∀ a, Takes 1 (f a)] : Takes 1 (x >>= f) := takes_then hx hf

instance {b : Prop} [Decidable b] [hx : Takes n x] [hy : Takes n y] :
    Takes n (if b then x else y) := by
  split
  · exact hx
  · exact hy

instance (fault : Fault) (span : Span) : Takes n (fail fault span : Parser α) :=
  ⟨fun _ _ => takesAt_fail⟩

instance (what : String) : Takes n (expected what : Parser α) := ⟨fun _ _ => takesAt_fail⟩

/-- At the end of the text an advance does nothing. -/
instance : Takes 0 advance := by
  refine ⟨fun s hs => ?_⟩
  by_cases h : s.cursor.current.kind = .eof
  · intro a s' hrun
    cases hrun
    have hnext : ({ s with cursor := s.cursor.next } : ParserState).cursor = s.cursor :=
      Cursor.next_eq_self h
    rw [hnext]
    exact ⟨[], Nat.le_refl 0, .refl _, hs⟩
  · exact (takesAt_advance h hs).mono (Nat.zero_le 1)

instance : Takes 0 (eat kind) := by unfold eat; infer_instance

instance : Takes 0 (expect kind) := by unfold expect; infer_instance

/-- A token is eaten, or what comes instead takes one. -/
theorem takes_eat_or (h : kind ≠ .eof) [hx : Takes 0 x] [hy : Takes 1 y] :
    Takes 1 (eat kind >>= fun eaten => if eaten then x else y) := by
  refine ⟨fun s hs a s' hrun => ?_⟩
  rw [run_eat_bind] at hrun
  split at hrun
  · next hkind =>
    have hadvance : TakesAt 1 advance s := takesAt_advance (by rwa [hkind]) hs
    exact (hadvance.bind fun _ s₁ _ hs₁ => hx.takesAt s₁ hs₁) a s' hrun
  · exact hy.takesAt s hs a s' hrun

/-- Expecting any token but the end takes it. -/
theorem takes_expect (h : kind ≠ .eof) : Takes 1 (expect kind) := by
  refine ⟨fun s hs t s' hrun => ?_⟩
  obtain ⟨rfl, -, rfl⟩ := run_expect_eq_ok hrun
  exact takesAt_advance h hs () _ rfl

instance : Takes 1 (expect .semicolon) := takes_expect (by decide)
instance : Takes 1 (expect .leftBrace) := takes_expect (by decide)
instance : Takes 1 (expect .blockLabel) := takes_expect (by decide)
instance : Takes 1 (expect .identifier) := takes_expect (by decide)
instance : Takes 1 (expect .localName) := takes_expect (by decide)
instance : Takes 1 (expect .integer) := takes_expect (by decide)
instance : Takes 1 (expect .leftParen) := takes_expect (by decide)
instance : Takes 1 (expect .rightParen) := takes_expect (by decide)
instance : Takes 1 (expect .rightBracket) := takes_expect (by decide)
instance : Takes 1 (expect .comma) := takes_expect (by decide)
instance : Takes 1 (expect .colon) := takes_expect (by decide)

instance (word : String) : Takes 1 (expectKeyword word) := by
  refine ⟨fun s hs => ?_⟩
  unfold expectKeyword
  intro a s' hrun
  rw [run_eatKeyword_bind] at hrun
  split at hrun
  · next hword =>
    cases hrun
    exact takesAt_advance (by rw [hword.1]; decide) hs () _ rfl
  · exact takesAt_fail a s' hrun

instance : Takes 1 identifier := by unfold identifier; infer_instance

/-! ## Names, types and constants -/

instance [hx : Takes 0 x] (n : Nat) : Takes 0 (commaList.go kind x n) := by
  induction n with
  | zero => unfold commaList.go; infer_instance
  | succ n ih => unfold commaList.go; infer_instance

instance [hx : Takes 0 x] : Takes 0 (commaList kind x) := by unfold commaList; infer_instance

instance : Takes 1 natural := by
  refine takes_first inferInstance fun t => ?_
  extract_lets jp
  have hjp : ∀ r, Takes 0 (jp r) := by
    intro r
    unfold jp
    split <;> infer_instance
  clear_value jp
  infer_instance

instance : Takes 1 wide := by
  refine takes_first inferInstance fun t => ?_
  split <;> infer_instance

instance : Takes 1 qualifiedName := by unfold qualifiedName; infer_instance

/-- What is taken everywhere is taken here. -/
theorem takesAt_of_takes [hx : Takes n x] (hs : s.cursor.Ended) : TakesAt n x s := hx.takesAt s hs

instance : Takes 1 plainType := by
  refine ⟨fun s hs => ?_⟩
  unfold plainType
  refine takesAt_of_run_eq run_current_bind ?_
  generalize ht : s.cursor.current = t
  split
  · exact takesAt_of_takes hs
  · next hkind =>
    have hadvance : TakesAt 1 advance s :=
      takesAt_advance (by rw [ht, Decidable.not_not.mp hkind]; decide) hs
    split
    · exact hadvance.then_takes
    · split
      · exact hadvance.then_takes
      · have hpath : Takes 1 (qualifiedName >>= fun path => do
            match (← program).structByPath? path with
            | some id => return Ty.struct id
            | none => fail (.unknownName "type" path) t.span) := by
          refine takes_first inferInstance fun path => takes_zero inferInstance fun p => ?_
          split <;> infer_instance
        exact hpath.takesAt s hs

instance : Takes 1 type := by unfold type; infer_instance

instance {element : Parser Value} [Takes 0 element] : Takes 1 (constantWith element) := by
  refine ⟨fun s hs => ?_⟩
  unfold constantWith
  refine takesAt_of_run_eq run_current_bind ?_
  generalize ht : s.cursor.current = t
  have hadvance : ∀ kind, t.kind = kind → kind ≠ .eof →
    ∀ p, TakesAt 1 advance { s with program := p } :=
    fun kind hkind hne p => takesAt_advance (by rw [ht, hkind]; exact hne) hs
  split
  · next hkind =>
    split
    · exact (hadvance _ hkind (by decide) s.program).then_takes
    · exact takesAt_fail
  · next hkind => exact (hadvance _ hkind (by decide) s.program).then_takes
  · next hkind =>
    refine TakesAt.before (takesAt_of_takes hs) fun id s' hrun _ => ?_
    cases hrun
    exact (hadvance _ hkind (by decide) _).then_takes
  · next hkind =>
    refine takesAt_of_run_eq run_nextIs_bind ?_
    extract_lets named
    clear_value named
    split
    · exact (hadvance _ hkind (by decide) s.program).then_takes
    · exact takesAt_of_takes hs
  · exact takesAt_of_takes hs

instance (n : Nat) : Takes 1 (constantTo n) := by
  cases n with
  | zero => unfold constantTo; infer_instance
  | succ n => unfold constantTo; infer_instance

instance : Takes 1 constant := by unfold constant; infer_instance

instance : Takes 1 internedConstant := by unfold internedConstant; infer_instance

instance : Takes 1 property := by
  unfold property
  refine takes_then inferInstance fun t => ?_
  extract_lets key jp
  have hjp : ∀ r, Takes 1 (jp r) := by
    intro r
    unfold jp
    infer_instance
  clear_value jp
  infer_instance

end

/-! ## Expressions -/

section

variable {expr : Parser Expr} [hexpr : Takes 0 expr] (scope : Scope)

instance : Takes 1 functionRef := by
  unfold functionRef
  refine takes_then inferInstance fun t => takes_first inferInstance fun path => ?_
  refine takes_zero inferInstance fun p => ?_
  split <;> infer_instance

instance : Takes 1 (arguments expr) := by unfold arguments; infer_instance

instance : Takes 0 (localVariable scope) := by
  unfold localVariable
  refine takes_zero inferInstance fun t => ?_
  split <;> infer_instance

instance : Takes 1 (castExpr expr) := by unfold castExpr; infer_instance

instance : Takes 1 (pureCall expr) := by unfold pureCall; infer_instance

instance : Takes 1 processorProperty := by
  unfold processorProperty
  refine takes_then inferInstance fun _ => takes_then inferInstance fun _ => ?_
  refine takes_then inferInstance fun t => takes_first inferInstance fun name => ?_
  split <;> infer_instance

instance (op : UnaryOp) : Takes 1 (unaryExpr expr op) := by unfold unaryExpr; infer_instance

instance (op : BinaryOp) : Takes 1 (binaryExpr expr op) := by unfold binaryExpr; infer_instance

/-- A path is looked up from where it starts, and if it leads nowhere a constant is read from
there. -/
instance : Takes 1 pathOrConstant := by
  refine ⟨fun s hs => ?_⟩
  have hconstant : Takes 1 (do return Expr.const (← internedConstant)) := inferInstance
  unfold pathOrConstant
  refine takesAt_of_run_eq run_cursor_bind (takesAt_of_run_eq run_nextIs_bind ?_)
  extract_lets jp
  have hjp : ∀ found s₁, (found ≠ none → ∃ ts, 1 ≤ ts.length ∧ s.cursor.Passed ts s₁.cursor ∧
      s₁.cursor.Ended) → ∀ a s', (jp found).run s₁ = .ok (a, s') →
        ∃ ts, 1 ≤ ts.length ∧ s.cursor.Passed ts s'.cursor ∧ s'.cursor.Ended := by
    intro found s₁ htaken a s' hrun
    unfold jp at hrun
    split at hrun
    · cases hrun
      exact htaken nofun
    · exact hconstant.takesAt { s₁ with cursor := s.cursor } hs a s' hrun
  clear_value jp
  intro a s' hrun
  split at hrun
  · obtain ⟨path, s₁, hpath, hrun⟩ := run_bind_eq_ok.mp hrun
    exact hjp _ s₁ (fun _ => Takes.takesAt s hs path s₁ hpath) a s' hrun
  · exact hjp none s (absurd rfl) a s' hrun

instance : Takes 1 (wordExpr expr) := by
  unfold wordExpr
  refine takes_then inferInstance fun t => takes_then inferInstance fun called => ?_
  split
  · infer_instance
  · split
    · infer_instance
    · refine takes_then inferInstance fun dotted => ?_
      split
      · infer_instance
      · split <;> infer_instance

instance : Takes 1 (primaryExpr scope expr) := by
  refine ⟨fun s hs => ?_⟩
  unfold primaryExpr
  refine takesAt_of_run_eq run_current_bind ?_
  split
  · next hkind =>
    unfold localVariable
    refine takesAt_of_run_eq run_current_bind ?_
    split
    · exact (takesAt_advance (by rw [hkind]; decide) hs).then_takes
    · exact takesAt_fail
  iterate 5 exact takesAt_of_takes hs

instance (parent : Expr) : Takes 1 (indexed expr parent) := by
  unfold indexed
  refine takes_then inferInstance fun _ => ?_
  extract_lets jp
  have hjp : ∀ e, Takes 1 (jp e) := by
    intro e
    unfold jp
    infer_instance
  clear_value jp
  refine takes_then inferInstance fun _ => takes_then inferInstance fun _ => ?_
  refine takes_then inferInstance fun _ => takes_then inferInstance fun _ => ?_
  split
  · infer_instance
  · split <;> infer_instance

instance (n : Nat) (e : Expr) : Takes 0 (selections expr n e) := by
  induction n generalizing e with
  | zero => unfold selections; infer_instance
  | succ n ih =>
      unfold selections
      infer_instance

instance (n : Nat) : Takes 1 (exprTo scope n) := by
  cases n with
  | zero => unfold exprTo; infer_instance
  | succ n => unfold exprTo; infer_instance

instance : Takes 1 (Parser.expr scope) := by unfold Parser.expr; infer_instance

end

/-! ## Bodies -/

section

variable (f : FunctionId) (scope : Scope)

instance : Takes 1 (call scope) := by unfold call; infer_instance

instance : Takes 1 (write scope) := by unfold write; infer_instance

instance : Takes 1 (store scope) := by
  unfold store
  refine takes_then inferInstance fun _ => takes_first inferInstance fun target => ?_
  refine takes_zero inferInstance fun _ => takes_zero inferInstance fun reads => ?_
  split
  · infer_instance
  · refine takes_zero inferInstance fun calls => ?_
    split
    · exact takes_zero inferInstance fun _ => inferInstance
    · infer_instance

instance : Takes 1 (statement scope) := by unfold statement; infer_instance

instance : Takes 1 (blockRef scope) := by
  unfold blockRef
  refine takes_first inferInstance fun t => ?_
  split <;> infer_instance

instance : Takes 1 (branchTarget scope) := by
  unfold branchTarget
  refine takes_first inferInstance fun b => ?_
  extract_lets jp
  have hjp : ∀ args, Takes 0 (jp args) := by
    intro args
    unfold jp
    infer_instance
  clear_value jp
  infer_instance

instance : Takes 0 (terminator scope) := by
  unfold terminator
  refine takes_zero inferInstance fun branch => ?_
  split
  · exact takes_zero inferInstance fun _ => inferInstance
  · refine takes_zero inferInstance fun branchIf => ?_
    split
    · refine takes_zero inferInstance fun c => takes_zero inferInstance fun _ => ?_
      refine takes_zero inferInstance fun x => takes_zero inferInstance fun _ => ?_
      exact takes_zero inferInstance fun _ => inferInstance
    · infer_instance

instance (role : VariableRole) : Takes 1 (declaredVariable role) := by
  unfold declaredVariable
  infer_instance

instance (b : BlockId) (change : Block → Block) : Inline (modifyBlock f b change) := by
  unfold modifyBlock
  infer_instance

instance (b : BlockId) (n : Nat) : Takes 0 (blockBody.go scope f b n) := by
  induction n with
  | zero => unfold blockBody.go; infer_instance
  | succ n ih =>
      unfold blockBody.go
      refine takes_zero inferInstance fun t => ?_
      split <;> infer_instance

instance (b : BlockId) : Takes 0 (blockBody scope f b) := by unfold blockBody; infer_instance

instance : Takes 1 (block f scope) := by
  unfold block
  refine takes_then inferInstance fun first => takes_first inferInstance fun b => ?_
  extract_lets jp
  have hjp : ∀ params, Takes 0 (jp params) := by
    intro params
    unfold jp
    infer_instance
  clear_value jp
  infer_instance

instance (n : Nat) : Takes 0 (blocks f n scope) := by
  induction n generalizing scope with
  | zero => unfold blocks; infer_instance
  | succ n ih =>
      unfold blocks
      infer_instance

instance (labels : List String) : Inline (addBlocks f labels scope) := by
  induction labels generalizing scope with
  | nil => unfold addBlocks; infer_instance
  | cons label labels ih => unfold addBlocks; infer_instance

instance : Inline (declareBlocks f scope) := by unfold declareBlocks; infer_instance

instance (n : Nat) : Takes 0 (locals f n scope) := by
  induction n generalizing scope with
  | zero => unfold locals; infer_instance
  | succ n ih =>
      unfold locals
      refine takes_zero inferInstance fun first => takes_zero inferInstance fun role => ?_
      split
      · infer_instance
      · exact takes_zero inferInstance fun _ => inferInstance

instance : Takes 1 (functionBody f) := by unfold functionBody; infer_instance

end

/-! ## Items -/

section

variable (m : ModuleId)

instance {x : Parser Unit} [hx : Takes 0 x] (close : TokenKind) (n : Nat) :
    Takes 0 (untilClosed.go close x n) := by
  induction n with
  | zero => unfold untilClosed.go; infer_instance
  | succ n ih => unfold untilClosed.go; infer_instance

instance {x : Parser Unit} [hx : Takes 0 x] (close : TokenKind) :
    Takes 0 (untilClosed close x) := by
  unfold untilClosed
  infer_instance

instance : Takes 1 (structItem m) := by
  unfold structItem
  refine takes_first inferInstance fun _ => takes_zero inferInstance fun t => ?_
  refine takes_zero inferInstance fun name => takes_zero inferInstance fun p => ?_
  split
  · infer_instance
  · rename_i id _
    refine takes_zero inferInstance fun _ => ?_
    have hmember : ∀ first : Token, Takes 0 (do
        let ty ← type
        let name ← identifier
        let _ ← expect .semicolon
        let p ← lift ((← program).addMember id name ty (← spanFrom first))
        modifyProgram fun _ => p) := fun first => inferInstance
    infer_instance

instance : Takes 1 (endpointItem m) := by
  unfold endpointItem
  refine takes_then inferInstance fun first => ?_
  extract_lets jp
  have hjp : ∀ direction, Takes 1 (jp direction) := by
    intro direction
    unfold jp
    refine takes_first inferInstance fun name => ?_
    extract_lets jp'
    have hjp' : ∀ x, Takes 0 (jp' x) := by
      intro x
      unfold jp'
      infer_instance
    clear_value jp'
    infer_instance
  clear_value jp
  infer_instance

instance : Takes 1 (parameterItem m) := by unfold parameterItem; infer_instance

instance : Takes 1 (stateItem m) := by
  unfold stateItem
  refine takes_then inferInstance fun first => ?_
  extract_lets jp
  have hjp : ∀ role, Takes 1 (jp role) := by
    intro role
    unfold jp
    refine takes_then inferInstance fun t => takes_first inferInstance fun name => ?_
    extract_lets jp'
    have hjp' : ∀ initial, Takes 0 (jp' initial) := by
      intro initial
      unfold jp'
      infer_instance
    clear_value jp'
    infer_instance
  clear_value jp
  infer_instance

instance (values : List Value) : Inline (values.mapM fun v => add (·.intern v)) := by
  induction values with
  | nil => rw [List.mapM_nil]; infer_instance
  | cons v values ih => rw [List.mapM_cons]; infer_instance

instance : Takes 1 (nodeItem m) := by
  unfold nodeItem
  refine takes_then inferInstance fun first => takes_first inferInstance fun _ => ?_
  refine takes_zero inferInstance fun name => takes_zero inferInstance fun _ => ?_
  refine takes_zero inferInstance fun source => takes_zero inferInstance fun size => ?_
  extract_lets jp
  have hjp : ∀ values, Takes 0 (jp values) := by
    intro values
    unfold jp
    infer_instance
  clear_value jp
  infer_instance

instance : Takes 1 (endpointRef m) := by
  unfold endpointRef
  refine takes_then inferInstance fun t => takes_first inferInstance fun first => ?_
  extract_lets jp
  have hjp : ∀ r, Takes 0 (jp r) := by
    intro r
    unfold jp
    infer_instance
  clear_value jp
  refine takes_zero inferInstance fun dotted => ?_
  split
  · refine takes_zero inferInstance fun p => ?_
    split <;> infer_instance
  · infer_instance

instance : Takes 1 (connectionItem m) := by
  unfold connectionItem
  refine takes_then inferInstance fun first => takes_first inferInstance fun _ => ?_
  refine takes_zero inferInstance fun interpolation => takes_zero inferInstance fun source => ?_
  refine takes_zero inferInstance fun _ => ?_
  extract_lets jp
  have hjp : ∀ delay, Takes 0 (jp delay) := by
    intro delay
    unfold jp
    infer_instance
  clear_value jp
  infer_instance

instance (opening closing : TokenKind) (depth n : Nat) :
    Takes 0 (skipBalanced.go opening closing depth n) := by
  induction n generalizing depth with
  | zero => unfold skipBalanced.go; infer_instance
  | succ n ih => unfold skipBalanced.go; infer_instance

instance (opening closing : TokenKind) : Takes 0 (skipBalanced opening closing) := by
  unfold skipBalanced
  infer_instance

instance : Takes 1 functionParameter := by unfold functionParameter; infer_instance

instance : Takes 1 (functionItem m) := by
  unfold functionItem
  refine takes_then inferInstance fun first => takes_first inferInstance fun keyword => ?_
  refine takes_zero inferInstance fun name => takes_zero inferInstance fun _ => ?_
  refine takes_zero inferInstance fun parameters => takes_zero inferInstance fun _ => ?_
  refine takes_zero inferInstance fun returns => takes_zero inferInstance fun p => ?_
  extract_lets inProcessor kind
  infer_instance

instance : Takes 1 (item m) := by
  unfold item
  refine takes_then inferInstance fun t => ?_
  split <;> infer_instance

instance (n : Nat) : Takes 0 (items m n) := by
  induction n with
  | zero => unfold items; infer_instance
  | succ n ih =>
      unfold items
      infer_instance

instance (n depth : Nat) : Takes 0 (structNames m n depth) := by
  induction n generalizing depth with
  | zero => unfold structNames; infer_instance
  | succ n ih =>
      unfold structNames
      refine takes_zero inferInstance fun t => ?_
      split <;> infer_instance

end

/-! ## Modules -/

instance : Takes 1 outline := by
  unfold outline
  refine takes_then inferInstance fun first => ?_
  split
  · infer_instance
  · refine takes_then inferInstance fun _ => takes_first inferInstance fun name => ?_
    refine takes_zero inferInstance fun span => takes_zero inferInstance fun id => ?_
    refine takes_zero inferInstance fun _ => takes_zero inferInstance fun annotations => ?_
    extract_lets jp
    have hjp : ∀ r, Takes 0 (jp r) := by
      intro r
      unfold jp
      infer_instance
    clear_value jp
    infer_instance

instance (n : Nat) : Takes 0 (outlines n) := by
  induction n with
  | zero => unfold outlines; infer_instance
  | succ n ih =>
      unfold outlines
      infer_instance

instance (text : String) : Takes 0 (header text) := by
  unfold header
  refine takes_zero inferInstance fun first => takes_zero inferInstance fun hash => ?_
  extract_lets jp
  have hjp : ∀ valid, Takes 0 (jp valid) := by
    intro valid
    unfold jp
    split
    · infer_instance
    · exact takes_zero inferInstance fun _ => takes_zero inferInstance fun _ => inferInstance
  clear_value jp
  infer_instance

end Parser

end SignalGraph.Heart

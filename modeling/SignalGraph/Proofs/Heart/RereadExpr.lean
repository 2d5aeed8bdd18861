import SignalGraph.Proofs.Heart.Rereading

/-!
# SignalGraph.Proofs.Heart.RereadExpr

Readable expressions are read back from their lexemes (`yields_expr`), and reading them adds nothing
to the program.

An expression is written as a chain: something that starts it, then selections.  It is read from
left to right, so reading follows the chain and not the tree: `Chains` says that once everything up
to a part of the chain has been read, the selections after it are what is left to do.
-/

namespace SignalGraph.Heart.Parser

variable {p : Program} {scope : Scope} {x : Parser Expr} {l : Lexeme} {ls : List Lexeme}

/-- What can follow the start of an expression. -/
def StartStops (l : Lexeme) : Prop := l.1 ≠ .leftParen ∧ l.1 ≠ .doubleColon

/-- What can follow an expression. -/
def ExprStops (l : Lexeme) : Prop := StartStops l ∧ l.1 ≠ .leftBracket ∧ l.1 ≠ .dot

theorem exprStops_rightParen : ExprStops (.rightParen, ")") := by simp [ExprStops, StartStops]

theorem exprStops_comma : ExprStops (.comma, ",") := by simp [ExprStops, StartStops]

/-- The parser reads an expression back. -/
def Rereads (p : Program) (x : Parser Expr) (e : Expr) : Prop :=
  ∀ l ls, ExprStops l → Yields x (exprLexemes p e ++ l :: ls) p e (l :: ls)

/-! ## Variables and constants -/

/-- A variable of the function is read again by its name. -/
theorem yields_localVariable {v : VariableId} (hv : ownerOf? p v = none)
    (hname : scope.vars.lookup (p.variableAt v).name = some v) :
    Yields (primaryExpr scope x) (exprLexemes p (.var v) ++ ls) p (.var v) ls := by
  simp only [exprLexemes, variableLexemes, hv]
  refine .current fun t ht => ?_
  have hkind : t.kind = .localName := congrArg Prod.fst ht
  simp only [hkind]
  refine .current fun t ht => ?_
  have htext : t.text = (p.variableAt v).name := congrArg Prod.snd ht
  rw [htext, hname]
  exact .advance (by simp) .pure

/-- A word that starts no other expression is a path or a constant. -/
theorem yields_pathWord {w : String} {e : Expr} {us : List Lexeme} (hcast : w ≠ "cast")
    (hcall : w ≠ "pure_call") (hprocessor : w = "processor" → kindOf ls ≠ .dot)
    (hop : kindOf ls = .leftParen → UnaryOp.ofName? w = none ∧ BinaryOp.ofName? w = none)
    (h : Yields pathOrConstant ((.identifier, w) :: ls) p e us) :
    Yields (primaryExpr scope x) ((.identifier, w) :: ls) p e us := by
  refine .current fun t ht => ?_
  have hkind : t.kind = .identifier := congrArg Prod.fst ht
  simp only [hkind]
  refine .current fun t ht => .nextIs ?_
  have htext : t.text = w := congrArg Prod.snd ht
  simp only [htext, hcast, hcall, if_false, List.drop_succ_cons, List.drop_zero]
  refine .nextIs ?_
  have hdot : (decide (w = "processor") && decide (kindOf (((.identifier, w) :: ls).drop 1) = .dot))
      = false := by
    by_cases hw : w = "processor"
    · simp [hw, hprocessor hw]
    · simp [hw]
  simp only [hdot, Bool.false_eq_true, if_false]
  by_cases hparen : kindOf ls = .leftParen
  · simpa [hparen, hop hparen] using h
  · simpa [hparen] using h

/-- A variable of a module is read again by its path, if the path starts no other expression. -/
theorem yields_moduleVariable {v : VariableId} {m : Module} (hv : ownerOf? p v = some m)
    (hpath : startsPath m.name (p.variableAt v).name)
    (hfound : p.variableByPath? (variableText p v) = some v) (hl : StartStops l) :
    Yields (primaryExpr scope x) (exprLexemes p (.var v) ++ l :: ls) p (.var v) (l :: ls) := by
  simp only [startsPath, Bool.and_eq_true, bne_iff_ne] at hpath
  obtain ⟨us, hus⟩ := pathLexemes_eq m.name (p.variableAt v).name
  have hname : Yields qualifiedName _ p _ (l :: ls) :=
    yields_path m.name (p.variableAt v).name hl.2
  rw [variableText_of_owner hv] at hfound
  simp only [exprLexemes, variableLexemes, hv]
  rw [hus, List.cons_append, List.cons_append] at hname ⊢
  refine yields_pathWord hpath.1.2 hpath.2 (by simp) (by simp) ?_
  refine .look (P := fun _ => True) (fun c _ => ⟨c, trivial, rfl⟩) fun c _ => .nextIs ?_
  simp only [List.drop_succ_cons, List.drop_zero, kindOf_cons, decide_true, if_true, pure_bind]
  refine hname.bind (.program ?_)
  rw [hfound]
  exact .pure

/-- What is no path to a variable is read again as a constant. -/
theorem yields_pathOrConstant {us ws : List Lexeme} {id : ConstantId}
    (hconst : Yields internedConstant us p id ws)
    (hpath : kindOf (us.drop 1) = .doubleColon →
      ∃ path vs, Yields qualifiedName us p path vs ∧ p.variableByPath? path = none) :
    Yields pathOrConstant us p (.const id) ws := by
  intro c hc
  obtain ⟨c', hc', hrun⟩ := hconst c hc
  refine ⟨c', hc', ?_⟩
  have hagain : ∀ d, (moveTo c >>= fun _ => internedConstant >>= fun id => pure (Expr.const id)).run
      ⟨d, p⟩ = .ok (.const id, ⟨c', p⟩) := by
    intro d
    rw [run_moveTo_bind, run_bind_of_eq_ok hrun]
    rfl
  have hnext : (nextIs .doubleColon).run ⟨c, p⟩ =
      .ok (decide (kindOf (us.drop 1) = .doubleColon), ⟨c, p⟩) := by
    rw [← hc, ← c.kindAt_eq]
    rfl
  rw [pathOrConstant, run_cursor_bind, run_bind_of_eq_ok hnext]
  by_cases hcolon : kindOf (us.drop 1) = .doubleColon
  · obtain ⟨path, vs, hname, hnone⟩ := hpath hcolon
    obtain ⟨d, -, hread⟩ := hname c hc
    simp only [hcolon, decide_true, if_true, pure_bind]
    rw [run_bind_of_eq_ok hread, run_program_bind]
    simp only [hnone]
    exact hagain d
  · simp only [hcolon, decide_false, Bool.false_eq_true, if_false, pure_bind]
    exact hagain c

/-- A type that is written with a struct first starts with the path of the struct. -/
theorem typeLexemes_of_leadingStruct {t : Ty} {id : StructId} (ht : leadingStruct t = some id) :
    ∃ us, typeLexemes p t = pathLexemes (structOwner p id) (p.structAt id).name ++ us ∧
      (us = [] ∨ kindOf us = .leftBracket ∨ kindOf us = .ampersand) := by
  induction t with
  | struct id' => cases ht; exact ⟨[], by simp [typeLexemes], .inl rfl⟩
  | array e n ih =>
      obtain ⟨us, hus, hkind⟩ := ih ht
      refine ⟨us ++ lengthLexemes n, by simp [typeLexemes, hus], .inr ?_⟩
      rcases hkind with rfl | hkind
      · exact .inl rfl
      · cases us with
        | nil => simp [kindOf] at hkind
        | cons u us => exact hkind
  | ref t ih =>
      obtain ⟨us, hus, hkind⟩ := ih ht
      refine ⟨us ++ [(.ampersand, "&")], by simp [typeLexemes, hus], .inr ?_⟩
      rcases hkind with rfl | hkind
      · exact .inr rfl
      · cases us with
        | nil => simp [kindOf] at hkind
        | cons u us => exact hkind
  | _ => cases ht

/-- A type that no path starts begins with a keyword, and not with a path. -/
theorem typeLexemes_of_no_leadingStruct {t : Ty} (ht : leadingStruct t = none) :
    ∃ w us, typeLexemes p t = (.identifier, w) :: us ∧ kindOf us ≠ .doubleColon ∧
      (w = "const" ∨ w = "string" ∨ ∃ k : Prim, w = k.name) := by
  induction t with
  | prim k => exact ⟨_, _, rfl, by simp [kindOf], .inr (.inr ⟨k, rfl⟩)⟩
  | vector k n => exact ⟨_, _, rfl, by simp, .inr (.inr ⟨k, rfl⟩)⟩
  | string => exact ⟨_, _, rfl, by simp [kindOf], .inr (.inl rfl)⟩
  | const t =>
      obtain ⟨w, us, hus⟩ := typeLexemes_eq_cons p t
      exact ⟨_, _, by rw [typeLexemes], by simp [hus], .inl rfl⟩
  | struct id => cases ht
  | array e n ih =>
      obtain ⟨w, us, hus, hkind, hw⟩ := ih ht
      refine ⟨w, us ++ lengthLexemes n, by simp [typeLexemes, hus], ?_, hw⟩
      cases us with
      | nil => simp [lengthLexemes]
      | cons u us => exact hkind
  | ref t ih =>
      obtain ⟨w, us, hus, hkind, hw⟩ := ih ht
      refine ⟨w, us ++ [(.ampersand, "&")], by simp [typeLexemes, hus], ?_, hw⟩
      cases us with
      | nil => simp
      | cons u us => exact hkind

/-- Names of types are no operations and start no other expression. -/
theorem ofName?_eq_none_of_keyword {w : String}
    (hw : w = "const" ∨ w = "string" ∨ ∃ k : Prim, w = k.name) :
    (UnaryOp.ofName? w = none ∧ BinaryOp.ofName? w = none) ∧ w ≠ "cast" ∧ w ≠ "pure_call" ∧
      w ≠ "processor" := by
  rcases hw with rfl | rfl | ⟨k, rfl⟩
  · decide
  · decide
  · cases k <;> decide

/-- A constant that starts with a type. -/
theorem yields_typedConstant {t : Ty} {us vs ws : List Lexeme} {id : ConstantId}
    (hstart : (leadingStruct t).all fun id => (p.variableByPath? (p.structName id)).isNone &&
      firstWord (structOwner p id) != "cast" && firstWord (structOwner p id) != "pure_call")
    (hus : us = typeLexemes p t ++ (.leftParen, "(") :: vs)
    (hconst : Yields internedConstant us p id ws) :
    Yields (primaryExpr scope x) us p (.const id) ws := by
  cases hlead : leadingStruct t with
  | some s =>
      obtain ⟨ts, hts, hkind⟩ := typeLexemes_of_leadingStruct (p := p) hlead
      obtain ⟨ns, hns⟩ := pathLexemes_eq (structOwner p s) (p.structAt s).name
      simp only [hlead, Option.all_some, Bool.and_eq_true, Option.isNone_iff_eq_none,
        bne_iff_ne] at hstart
      -- the path is read as a name first
      have hname : ∃ us', Yields qualifiedName us p (p.structName s) us' := by
        rw [hus, hts, List.append_assoc]
        rcases hkind with rfl | hkind
        · exact ⟨_, yields_path _ _ (by simp)⟩
        · cases ts with
          | nil => simp [kindOf] at hkind
          | cons w ts =>
              refine ⟨_, yields_path _ _ ?_⟩
              simp only [kindOf_cons] at hkind
              rcases hkind with h | h <;> simp [h]
      obtain ⟨us', hname⟩ := hname
      have hcons : us = (.identifier, firstWord (structOwner p s)) :: (.doubleColon, "::") ::
          (ns ++ ts ++ (.leftParen, "(") :: vs) := by
        rw [hus, hts, hns]
        simp
      rw [hcons] at hconst hname ⊢
      refine yields_pathWord hstart.1.2 hstart.2 (by simp) (by simp)
        (yields_pathOrConstant hconst ?_)
      exact fun _ => ⟨_, us', hname, hstart.1.1⟩
  | none =>
      obtain ⟨w, ts, hts, hkind, hw⟩ := typeLexemes_of_no_leadingStruct (p := p) hlead
      obtain ⟨hop, hcast, hcall, hprocessor⟩ := ofName?_eq_none_of_keyword hw
      have hcons : us = (.identifier, w) :: (ts ++ (.leftParen, "(") :: vs) := by
        rw [hus, hts, List.cons_append]
      rw [hcons] at hconst ⊢
      refine yields_pathWord hcast hcall (fun h => absurd h hprocessor) (fun _ => hop)
        (yields_pathOrConstant hconst fun hcolon => ?_)
      cases ts with
      | nil => simp at hcolon
      | cons u ts => exact absurd hcolon hkind

/-- A constant that is a single word. -/
theorem yields_wordConstant {w : String} {id : ConstantId} (hcast : w ≠ "cast")
    (hcall : w ≠ "pure_call") (hprocessor : w ≠ "processor") (hl : StartStops l)
    (hconst : Yields internedConstant ((.identifier, w) :: l :: ls) p id (l :: ls)) :
    Yields (primaryExpr scope x) ((.identifier, w) :: l :: ls) p (.const id) (l :: ls) :=
  yields_pathWord hcast hcall (fun h => absurd h hprocessor) (fun h => absurd h hl.1)
    (yields_pathOrConstant hconst fun h => absurd h hl.2)

/-- A constant that is a number or a text. -/
theorem yields_literalConstant {k : TokenKind} {w : String} {id : ConstantId}
    (hk : k = .integer ∨ k = .float ∨ k = .stringLiteral)
    (hconst : Yields internedConstant ((k, w) :: ls) p id ls) :
    Yields (primaryExpr scope x) ((k, w) :: ls) p (.const id) ls := by
  refine .current fun t ht => ?_
  have hkind : t.kind = k := congrArg Prod.fst ht
  have hread : Yields (internedConstant >>= fun id => pure (Expr.const id)) ((k, w) :: ls) p
      (.const id) ls := hconst.bind .pure
  rcases hk with rfl | rfl | rfl
  · simpa only [hkind] using hread
  · simpa only [hkind] using hread
  · simpa only [hkind] using hread

/-- A float constant is read again as an expression. -/
theorem yields_floatConstant {v : Value} {id : ConstantId}
    (hfloat : (∃ b, v = .float32 b) ∨ ∃ b, v = .float64 b) (hl : StartStops l)
    (hconst : Yields internedConstant (floatLexeme v :: l :: ls) p id (l :: ls)) :
    Yields (primaryExpr scope x) (floatLexeme v :: l :: ls) p (.const id) (l :: ls) := by
  unfold floatLexeme at hconst ⊢
  cases hfinite : v.isFinite with
  | true =>
      rw [hfinite] at hconst
      exact yields_literalConstant (.inr (.inl rfl)) hconst
  | false =>
      rw [hfinite] at hconst
      -- the names of floats start with an underscore
      have hw : valueText {} v ≠ "cast" ∧ valueText {} v ≠ "pure_call" ∧
          valueText {} v ≠ "processor" := by
        rcases hfloat with ⟨b, rfl⟩ | ⟨b, rfl⟩ <;>
        · simp only [Value.isFinite, Float.isFinite] at hfinite
          simp only [valueText, floatText]
          split
          · decide
          · next neg _ => cases neg <;> decide
          · next h => simp [h] at hfinite
      exact yields_wordConstant hw.1 hw.2.1 hw.2.2 hl hconst

/-- A constant in code is read again, if its text starts no other expression. -/
theorem yields_constantExpr {c : ConstantId} (hv : isReadableValue p (p.constantAt c))
    (hstart : startsExpr p (p.constantAt c)) (hfound : p.constants.find? (p.constantAt c) = some c)
    (hfloats : ∀ w ∈ (p.constantAt c).finiteFloats, Exact w) (hl : StartStops l) :
    Yields (primaryExpr scope x) (exprLexemes p (.const c) ++ l :: ls) p (.const c) (l :: ls) := by
  have hconst : Yields internedConstant _ p _ (l :: ls) :=
    yields_internedConstant hv hfound hfloats hl.1
  simp only [exprLexemes]
  cases hvalue : p.constantAt c with
  | void =>
      rw [hvalue] at hconst
      exact yields_wordConstant (by decide) (by decide) (by decide) hl hconst
  | bool b =>
      rw [hvalue] at hconst
      cases b <;> exact yields_wordConstant (by decide) (by decide) (by decide) hl hconst
  | int32 n => rw [hvalue] at hconst; exact yields_literalConstant (.inl rfl) hconst
  | int64 n => rw [hvalue] at hconst; exact yields_literalConstant (.inl rfl) hconst
  | float32 b => rw [hvalue] at hconst; exact yields_floatConstant (.inl ⟨b, rfl⟩) hl hconst
  | float64 b => rw [hvalue] at hconst; exact yields_floatConstant (.inr ⟨b, rfl⟩) hl hconst
  | string id => rw [hvalue] at hconst; exact yields_literalConstant (.inr (.inr rfl)) hconst
  | aggregate t vs =>
      rw [hvalue] at hconst hstart
      exact yields_typedConstant hstart
        (by simp only [valueLexemes, listLexemes, List.append_assoc, List.cons_append]; rfl) hconst
  | zero t =>
      rw [hvalue] at hconst hstart
      exact yields_typedConstant hstart
        (by simp only [valueLexemes, listLexemes, List.append_assoc, List.cons_append]; rfl) hconst

/-! ## Expressions that start with a keyword -/

/-- What a keyword starts. -/
theorem yields_keyword {w : String} {us : List Lexeme} {e : Expr}
    (h : ∀ t : Token, t.text = w → Yields (wordExpr x) ((.identifier, w) :: ls) p e us) :
    Yields (primaryExpr scope x) ((.identifier, w) :: ls) p e us := by
  refine .current fun t ht => ?_
  have hkind : t.kind = .identifier := congrArg Prod.fst ht
  simp only [hkind]
  exact h t (congrArg Prod.snd ht)

/-- A cast is read again if its operand is. -/
theorem yields_cast {t : Ty} {e : Expr} (ht : isReadableType p t) (he : Rereads p x e) :
    Yields (primaryExpr scope x) (exprLexemes p (.cast t e) ++ ls) p (.cast t e) ls := by
  simp only [exprLexemes, listLexemes, List.intercalate_singleton, List.cons_append,
    List.append_assoc, List.nil_append]
  refine yields_keyword fun _ _ => .current fun tok htok => .nextIs ?_
  have htext : tok.text = "cast" := congrArg Prod.snd htok
  simp only [htext, if_true]
  refine .advance (by simp) ((yields_type ht).bind (.expect (by decide) fun _ _ => ?_))
  exact (he _ _ exprStops_rightParen).bind (.expect (by decide) fun _ _ => .pure)

/-- The name of a unary operation leads to it and starts no other expression. -/
theorem ofName?_unaryName (op : UnaryOp) :
    UnaryOp.ofName? op.name = some op ∧ op.name ≠ "cast" ∧ op.name ≠ "pure_call" ∧
      op.name ≠ "processor" := by
  cases op <;> decide

/-- The name of a binary operation leads to it and starts no other expression. -/
theorem ofName?_binaryName (op : BinaryOp) :
    UnaryOp.ofName? op.name = none ∧ BinaryOp.ofName? op.name = some op ∧ op.name ≠ "cast" ∧
      op.name ≠ "pure_call" ∧ op.name ≠ "processor" := by
  cases op <;> decide

/-- A unary operation is read again if its operand is. -/
theorem yields_unary {op : UnaryOp} {e : Expr} (he : Rereads p x e) :
    Yields (primaryExpr scope x) (exprLexemes p (.unary op e) ++ ls) p (.unary op e) ls := by
  obtain ⟨hop, hcast, hcall, hprocessor⟩ := ofName?_unaryName op
  simp only [exprLexemes, listLexemes, List.intercalate_singleton, List.cons_append,
    List.append_assoc, List.nil_append]
  refine yields_keyword fun _ _ => .current fun tok htok => .nextIs ?_
  have htext : tok.text = op.name := congrArg Prod.snd htok
  simp only [htext, hcast, hcall, if_false, List.drop_succ_cons, List.drop_zero, kindOf_cons,
    decide_true, if_true, hop]
  refine .nextIs ?_
  simp only [hprocessor, decide_false, Bool.false_and, Bool.false_eq_true, if_false]
  refine .advance (by simp) (.advance (by simp) ?_)
  exact (he _ _ exprStops_rightParen).bind (.expect (by decide) fun _ _ => .pure)

/-- A binary operation is read again if its operands are. -/
theorem yields_binary {op : BinaryOp} {e e' : Expr} (he : Rereads p x e) (he' : Rereads p x e') :
    Yields (primaryExpr scope x) (exprLexemes p (.binary op e e') ++ ls) p
      (.binary op e e') ls := by
  obtain ⟨hunary, hop, hcast, hcall, hprocessor⟩ := ofName?_binaryName op
  simp only [exprLexemes, listLexemes, List.intercalate_cons_cons, List.intercalate_singleton,
    List.cons_append, List.append_assoc, List.nil_append]
  refine yields_keyword fun _ _ => .current fun tok htok => .nextIs ?_
  have htext : tok.text = op.name := congrArg Prod.snd htok
  simp only [htext, hcast, hcall, if_false, List.drop_succ_cons, List.drop_zero, kindOf_cons,
    decide_true, if_true, hunary, hop]
  refine .nextIs ?_
  simp only [hprocessor, decide_false, Bool.false_and, Bool.false_eq_true, if_false]
  refine .advance (by simp) (.advance (by simp) ?_)
  refine (he _ _ exprStops_comma).bind (.expect (by decide) fun _ _ => ?_)
  exact (he' _ _ exprStops_rightParen).bind (.expect (by decide) fun _ _ => .pure)

/-- An expression starts with a name, a number or a text. -/
theorem exprLexemes_eq_cons (p : Program) : ∀ e : Expr, ∃ l us, exprLexemes p e = l :: us ∧
    (l.1 = .identifier ∨ l.1 = .localName ∨ l.1 = .integer ∨ l.1 = .float ∨ l.1 = .stringLiteral)
  | .var v => by
      cases howner : ownerOf? p v with
      | some m =>
          obtain ⟨us, hus⟩ := pathLexemes_eq m.name (p.variableAt v).name
          exact ⟨_, _, by simp only [exprLexemes, variableLexemes, howner]; exact hus, .inl rfl⟩
      | none =>
          exact ⟨(.localName, (p.variableAt v).name), [],
            by simp only [exprLexemes, variableLexemes, howner], .inr (.inl rfl)⟩
  | .const c => by
      obtain ⟨l, us, hus, hkind⟩ := valueLexemes_eq_cons p (p.constantAt c)
      exact ⟨l, us, by rw [exprLexemes, hus], hkind.imp_right .inr⟩
  | .element e i => by
      obtain ⟨l, us, hus, hkind⟩ := exprLexemes_eq_cons p e
      exact ⟨l, us ++ lengthLexemes (some i), by rw [exprLexemes, hus]; rfl, hkind⟩
  | .elementAt e i | .member e i | .slice e i _ => by
      obtain ⟨l, us, hus, hkind⟩ := exprLexemes_eq_cons p e
      exact ⟨l, _, by rw [exprLexemes, hus]; rfl, hkind⟩
  | .cast _ _ | .unary _ _ | .binary _ _ _ | .pureCall _ _ | .property _ =>
      ⟨_, _, by rw [exprLexemes], .inl rfl⟩

/-- The arguments of a call. -/
theorem yields_arguments {es : List Expr} (hes : ∀ e ∈ es, Rereads p x e) :
    Yields (arguments x) (listLexemes (es.map (exprLexemes p)) ++ ls) p es ls := by
  rw [listLexemes, List.cons_append, List.append_assoc]
  refine .expect (by decide) fun _ _ => ?_
  refine yields_commaList (by decide) fun e he => ⟨?_, fun l follow hl => ?_⟩
  · obtain ⟨l, us, hus, hkind⟩ := exprLexemes_eq_cons p e
    refine ⟨l, us, hus, ?_⟩
    rintro h
    simp [h] at hkind
  · have hstops : ExprStops l := by rcases hl with h | h <;> simp [ExprStops, StartStops, h]
    exact hes e he l follow hstops

/-- A function is read again by its path. -/
theorem yields_functionRef {f : FunctionId} (hf : p.functionByPath? (p.functionName f) = some f)
    (hl : l.1 ≠ .doubleColon) :
    Yields functionRef (pathLexemes (functionOwner p f) (p.functionAt f).name ++ l :: ls) p f
      (l :: ls) := by
  obtain ⟨us, hus⟩ := pathLexemes_eq (functionOwner p f) (p.functionAt f).name
  have hname : Yields qualifiedName _ p _ (l :: ls) :=
    yields_path (functionOwner p f) (p.functionAt f).name hl
  rw [hus] at hname ⊢
  refine .current fun _ _ => hname.bind (.program ?_)
  have hfound : p.functionByPath? (functionOwner p f ++ "::" ++ (p.functionAt f).name) = some f :=
    hf
  rw [hfound]
  exact .pure

/-- A call within an expression is read again if its arguments are. -/
theorem yields_pureCall {f : FunctionId} {es : List Expr} (hf : isReadableFunction p f)
    (hes : ∀ e ∈ es, Rereads p x e) :
    Yields (primaryExpr scope x) (exprLexemes p (.pureCall f es) ++ ls) p (.pureCall f es) ls := by
  simp only [isReadableFunction, Bool.and_eq_true, beq_iff_eq] at hf
  simp only [exprLexemes, exprsLexemes_eq, List.cons_append, List.append_assoc]
  refine yields_keyword fun _ _ => .current fun tok htok => .nextIs ?_
  have htext : tok.text = "pure_call" := congrArg Prod.snd htok
  simp only [htext, if_true]
  exact .advance (by simp)
    ((yields_functionRef hf.2 (by simp)).bind ((yields_arguments hes).bind .pure))

theorem yields_processorProperty {k : Property} :
    Yields (primaryExpr scope x) (exprLexemes p (.property k) ++ ls) p (.property k) ls := by
  have hname : Property.ofName? k.name = some k := by cases k <;> decide
  simp only [exprLexemes, List.cons_append, List.nil_append]
  refine yields_keyword fun _ _ => .current fun tok htok => .nextIs ?_
  have htext : tok.text = "processor" := congrArg Prod.snd htok
  simp only [htext, show ("processor" = "cast") = False by decide,
    show ("processor" = "pure_call") = False by decide, if_false]
  refine .nextIs ?_
  simp only [List.drop_succ_cons, List.drop_zero, kindOf_cons, decide_true, Bool.and_self, if_true]
  refine .advance (by simp) (.advance (by simp) (.current fun _ _ => .identifier ?_))
  rw [hname]
  exact .pure

/-! ## Selections -/

/-- No selection is read where none is written. -/
theorem yields_selections {e : Expr} {n : Nat} (hl : ExprStops l) :
    Yields (selections x n e) (l :: ls) p e (l :: ls) := by
  cases n with
  | zero => exact .pure
  | succ n =>
      refine .at_ ?_
      simp only [hl.2.1, decide_false, Bool.false_eq_true, if_false]
      refine .at_ (.nextIs ?_)
      simp only [hl.2.2, decide_false, Bool.false_and, Bool.false_eq_true, if_false]
      exact .pure

/-- What is selected in brackets is selected from what stands before them. -/
theorem Yields.indexed {e e' e'' : Expr} {m : Nat} {us ws : List Lexeme}
    (hindexed : Yields (indexed x e) ((.leftBracket, "[") :: us) p e' ls)
    (h : Yields (selections x m e') ls p e'' ws) :
    Yields (selections x (m + 1) e) ((.leftBracket, "[") :: us) p e'' ws := by
  refine .at_ ?_
  simp only [decide_true, if_true]
  exact hindexed.bind h

/-- A constant index is read again. -/
theorem yields_element {e : Expr} {i : Nat} (hi : isLength i) :
    Yields (indexed x e) (lengthLexemes (some i) ++ ls) p (.element e i) ls := by
  simp only [lengthLexemes, Option.map_some, Option.toList_some, List.cons_append, List.nil_append]
  refine .advance (by simp) (.at_ (.nextIs (.at_ (.nextIs ?_))))
  simp only [decide_true, List.drop_succ_cons, List.drop_zero, kindOf_cons, Bool.and_self, if_true,
    pure_bind]
  refine .natural (by simpa [isLength] using hi) ?_
  exact .expect (by decide) fun _ _ => .pure

/-- A slice is read again. -/
theorem yields_slice {e : Expr} {start stop : Nat} (hstart : isLength start)
    (hstop : isLength stop) :
      Yields (indexed x e)
        ((.leftBracket, "[") :: (.integer, toString start) :: (.colon, ":") ::
          (.integer, toString stop) :: (.rightBracket, "]") :: ls) p (.slice e start stop) ls := by
  refine .advance (by simp) (.at_ (.nextIs (.at_ (.nextIs ?_))))
  simp only [decide_true, List.drop_succ_cons, List.drop_zero, kindOf_cons, reduceCtorEq,
    decide_false, Bool.true_and, Bool.false_eq_true, if_false, if_true, pure_bind]
  refine .natural (by simpa [isLength] using hstart) (.expect (by decide) fun _ _ => ?_)
  refine .natural (by simpa [isLength] using hstop) (.expect (by decide) fun _ _ => ?_)
  exact .pure

/-- What starts with a number and is no integer constant goes on with a selection. -/
def NumberGoesOn (ls : List Lexeme) : Prop :=
  ∀ s us, ls = (.integer, s) :: us → kindOf us = .leftBracket ∨ kindOf us = .dot

/-- What does not start with an integer cannot be taken for a constant index or a slice. -/
theorem numberGoesOn_of_head {us : List Lexeme} (hl : l.1 ≠ .integer) : NumberGoesOn (l :: us) := by
  intro s vs hvs
  rw [(List.cons.inj hvs).1] at hl
  exact absurd rfl hl

/-- Values other than integers cannot be taken for a constant index. -/
theorem numberGoesOn_value {v : Value} (hv : ∀ n m, v ≠ .int32 n ∧ v ≠ .int64 m) :
    NumberGoesOn (valueLexemes p v) := by
  have hfloat : ∀ v, (floatLexeme v).1 ≠ .integer := by
    intro v
    unfold floatLexeme
    split <;> simp
  cases v with
  | int32 n => exact absurd rfl (hv n 0).1
  | int64 n => exact absurd rfl (hv 0 n).2
  | float32 b => exact numberGoesOn_of_head (hfloat _)
  | float64 b => exact numberGoesOn_of_head (hfloat _)
  | aggregate t vs =>
      obtain ⟨w, us, hus⟩ := typeLexemes_eq_cons p t
      rw [valueLexemes, hus]
      exact numberGoesOn_of_head (by simp)
  | zero t =>
      obtain ⟨w, us, hus⟩ := typeLexemes_eq_cons p t
      rw [valueLexemes, hus]
      exact numberGoesOn_of_head (by simp)
  | _ => exact numberGoesOn_of_head (by simp)

/-- A selection after something. -/
theorem numberGoesOn_select (e : Expr) {us : List Lexeme}
    (h : isIndex p e → NumberGoesOn (exprLexemes p e))
    (hus : kindOf us = .leftBracket ∨ kindOf us = .dot) :
    NumberGoesOn (exprLexemes p e ++ us) := by
  intro s vs hvs
  obtain ⟨u, ws, hws, -⟩ := exprLexemes_eq_cons p e
  rw [hws] at hvs
  obtain ⟨rfl, rfl⟩ := List.cons.inj hvs
  cases ws with
  | nil => exact hus
  | cons w ws =>
      cases hindex : isIndex p e with
      | true =>
          have hkind := h hindex s (w :: ws) hws
          exact hkind
      | false =>
          -- an integer constant is a single lexeme
          unfold isIndex at hindex
          split at hindex
          · next c =>
            rw [exprLexemes] at hws
            split at hindex
            · next heq => simp [heq, valueLexemes] at hws
            · next heq => simp [heq, valueLexemes] at hws
            · cases hindex
          · cases hindex

/-- An index expression cannot be taken for a constant one. -/
theorem numberGoesOn_expr : ∀ e : Expr, isIndex p e → NumberGoesOn (exprLexemes p e)
  | .var v, _ => by
      rw [exprLexemes, variableLexemes]
      split
      · next m _ =>
        obtain ⟨us, hus⟩ := pathLexemes_eq m.name (p.variableAt v).name
        rw [hus]
        exact numberGoesOn_of_head (by simp)
      · exact numberGoesOn_of_head (by simp)
  | .const c, h => by
      rw [exprLexemes]
      refine numberGoesOn_value fun n m => ⟨fun hn => ?_, fun hm => ?_⟩
      · simp [isIndex, hn] at h
      · simp [isIndex, hm] at h
  | .element e i, _ => by
      rw [exprLexemes]
      exact numberGoesOn_select e (numberGoesOn_expr e) (.inl rfl)
  | .elementAt e i, _ => by
      rw [exprLexemes]
      exact numberGoesOn_select e (numberGoesOn_expr e) (.inl rfl)
  | .member e name, _ => by
      rw [exprLexemes]
      exact numberGoesOn_select e (numberGoesOn_expr e) (.inr rfl)
  | .slice e start stop, _ => by
      rw [exprLexemes]
      exact numberGoesOn_select e (numberGoesOn_expr e) (.inl rfl)
  | .cast t e, _ => by rw [exprLexemes]; exact numberGoesOn_of_head (by simp)
  | .unary op e, _ => by rw [exprLexemes]; exact numberGoesOn_of_head (by simp)
  | .binary op l r, _ => by rw [exprLexemes]; exact numberGoesOn_of_head (by simp)
  | .pureCall f args, _ => by rw [exprLexemes]; exact numberGoesOn_of_head (by simp)
  | .property k, _ => by rw [exprLexemes]; exact numberGoesOn_of_head (by simp)

/-- A computed index is read again if it cannot be taken for a constant one. -/
theorem yields_elementAt {e i : Expr} (hi : Rereads p x i) (hindex : isIndex p i) :
    Yields (indexed x e) ((.leftBracket, "[") :: (exprLexemes p i ++ (.rightBracket, "]") :: ls)) p
      (.elementAt e i) ls := by
  have hread : Yields (x >>= fun i' => pure (Expr.elementAt e i') >>= fun selected =>
      expect .rightBracket >>= fun _ => pure selected)
      (exprLexemes p i ++ (.rightBracket, "]") :: ls) p (.elementAt e i) ls :=
    (hi _ _ (by simp [ExprStops, StartStops])).bind (.expect (by decide) fun _ _ => .pure)
  obtain ⟨l, us, hus, -⟩ := exprLexemes_eq_cons p i
  -- after an integer neither a bracket nor a colon follows, so this is no constant index and no
  -- slice
  have hnot : ∀ k, k = .rightBracket ∨ k = .colon → (decide (l.1 = .integer) &&
      decide (kindOf ((l :: (us ++ (.rightBracket, "]") :: ls)).drop 1) = k)) = false := by
    intro k hk
    by_cases hl : l.1 = .integer
    · obtain ⟨_, s⟩ := l
      cases hl
      have hkind := numberGoesOn_expr i hindex _ _ hus
      cases us with
      | nil => simp [kindOf] at hkind
      | cons u us =>
          simp only [kindOf_cons] at hkind
          simp only [List.drop_succ_cons, List.drop_zero, List.cons_append, kindOf_cons]
          rcases hkind with h | h <;> rcases hk with rfl | rfl <;> simp [h]
    · simp [hl]
  rw [hus, List.cons_append] at hread ⊢
  refine .advance (by simp) (.at_ (.nextIs (.at_ (.nextIs ?_))))
  simp only [hnot _ (.inl rfl), hnot _ (.inr rfl), Bool.false_eq_true, if_false]
  exact hread

/-- A member is read again, and the selections after it. -/
theorem Yields.member {e e' : Expr} {name : String} {m : Nat} {us : List Lexeme}
    (h : Yields (selections x m (.member e name)) ls p e' us) :
    Yields (selections x (m + 1) e) ((.dot, ".") :: (.identifier, name) :: ls) p e' us := by
  refine .at_ ?_
  simp only [reduceCtorEq, decide_false, Bool.false_eq_true, if_false]
  refine .at_ (.nextIs ?_)
  simp only [decide_true, List.drop_succ_cons, List.drop_zero, kindOf_cons, Bool.and_self, if_true]
  exact .advance (by simp) (.identifier h)

/-! ## Whole expressions -/

/-- After what starts an expression, the selections that are left are read. -/
def chain (scope : Scope) (n : Nat) : Parser Expr :=
  primaryExpr scope (exprTo scope n) >>= fun e => bound >>= fun m => selections (exprTo scope n) m e

/-- The expression is read up to its end, and then the selections that follow it. -/
def Chains (p : Program) (scope : Scope) (e : Expr) : Prop :=
  ∀ n l ls e' us, (exprLexemes p e).length ≤ n + 1 → StartStops l →
    (∀ m, (l :: ls).length ≤ m → Yields (selections (exprTo scope n) m e) (l :: ls) p e' us) →
    Yields (chain scope n) (exprLexemes p e ++ l :: ls) p e' us

/-- Something that starts an expression. -/
theorem chains_start {e : Expr}
    (h : ∀ n l ls, (exprLexemes p e).length ≤ n + 1 → StartStops l →
      Yields (primaryExpr scope (exprTo scope n)) (exprLexemes p e ++ l :: ls) p e (l :: ls)) :
    Chains p scope e :=
  fun n l ls _ _ hn hl hrest => (h n l ls hn hl).bind (.bound (hrest _ (Nat.le_succ _)))

/-- An expression whose selections are read again is read again, with fuel for its lexemes. -/
theorem Chains.rereads {e : Expr} {n : Nat} (h : Chains p scope e)
    (hn : (exprLexemes p e).length ≤ n) : Rereads p (exprTo scope n) e := by
  obtain ⟨_, us, hus, -⟩ := exprLexemes_eq_cons p e
  cases n with
  | zero => simp [hus] at hn
  | succ n => exact fun l ls hl => h n l ls e (l :: ls) hn hl.1 fun _ _ => yields_selections hl

/-- One selection after an expression. -/
theorem Chains.select {e e₁ : Expr} {us : List Lexeme} (h : Chains p scope e)
    (hus : exprLexemes p e₁ = exprLexemes p e ++ us) (hstart : ∃ u vs, us = u :: vs ∧ StartStops u)
    (hselect : ∀ n ls e' ws m, us.length ≤ n →
      Yields (selections (exprTo scope n) m e₁) ls p e' ws →
      Yields (selections (exprTo scope n) (m + 1) e) (us ++ ls) p e' ws) :
    Chains p scope e₁ := by
  obtain ⟨u, vs, rfl, hu⟩ := hstart
  intro n l ls e' ws hn _ hrest
  rw [hus, List.length_append] at hn
  rw [hus, List.append_assoc]
  obtain ⟨_, ts, hts, -⟩ := exprLexemes_eq_cons p e
  simp only [hts, List.length_cons] at hn
  refine h n u (vs ++ l :: ls) e' ws (by simp only [hts, List.length_cons]; omega) hu fun m hm => ?_
  simp only [List.length_cons, List.length_append] at hm
  obtain ⟨m, rfl⟩ : ∃ m', m = m' + 1 := ⟨m - 1, by omega⟩
  refine hselect n (l :: ls) e' ws m (by simp only [List.length_cons]; omega) (hrest m ?_)
  simp only [List.length_cons]
  omega

/-- Every readable expression is read again, by recursion on it: selections are taken off its
end. -/
theorem chains_expr : ∀ {e : Expr}, isReadableExpr p scope e → ExactFloats p e → Chains p scope e
  | .var v, he, _ => by
      rw [isReadableExpr, isReadableVariable] at he
      refine chains_start fun n l ls _ hl => ?_
      cases howner : ownerOf? p v with
      | some m =>
          simp only [howner, Bool.and_eq_true, beq_iff_eq] at he
          exact yields_moduleVariable howner he.1 he.2 hl
      | none =>
          simp only [howner, Bool.and_eq_true, beq_iff_eq] at he
          exact yields_localVariable howner he.2
  | .const c, he, hfloats => by
      simp only [isReadableExpr, Bool.and_eq_true, beq_iff_eq] at he
      exact chains_start fun n l ls _ hl =>
        yields_constantExpr he.1.1 he.1.2 he.2 (hfloats c (by simp [Expr.parts])) hl
  | .property k, _, _ => chains_start fun n l ls _ _ => yields_processorProperty
  -- selections: what they select from is read as a start with its own selections, then one more
  | .element e i, he, hfloats => by
      simp only [isReadableExpr, Bool.and_eq_true] at he
      have hchain := chains_expr he.1 (hfloats.of_subset (by simp [Expr.parts]))
      have hlexemes : exprLexemes p (.element e i) = exprLexemes p e ++ lengthLexemes (some i) := by
        rw [exprLexemes]
      refine hchain.select hlexemes ⟨_, _, rfl, by simp [StartStops]⟩ fun n ls e' ws m _ h => ?_
      exact .indexed (yields_element he.2) h
  | .slice e start stop, he, hfloats => by
      simp only [isReadableExpr, Bool.and_eq_true] at he
      have hchain := chains_expr he.1.1 (hfloats.of_subset (by simp [Expr.parts]))
      refine hchain.select (by rw [exprLexemes]) ⟨_, _, rfl, by simp [StartStops]⟩
        fun n ls e' ws m _ h => ?_
      exact .indexed (yields_slice he.1.2 he.2) h
  | .member e name, he, hfloats => by
      simp only [isReadableExpr, Bool.and_eq_true] at he
      have hchain := chains_expr he.1 (hfloats.of_subset (by simp [Expr.parts]))
      refine hchain.select (by rw [exprLexemes]) ⟨_, _, rfl, by simp [StartStops]⟩
        fun n ls e' ws m _ h => ?_
      exact .member h
  | .elementAt e i, he, hfloats => by
      simp only [isReadableExpr, Bool.and_eq_true] at he
      have hchain := chains_expr he.1.1 (hfloats.of_subset (by simp [Expr.parts]))
      have hindex := chains_expr he.1.2 (hfloats.of_subset (by simp [Expr.parts]))
      refine hchain.select (by rw [exprLexemes]) ⟨_, _, rfl, by simp [StartStops]⟩
        fun n ls e' ws m hn h => ?_
      simp only [List.length_cons, List.length_append] at hn
      rw [List.cons_append, List.append_assoc]
      exact .indexed (yields_elementAt (hindex.rereads (n := n) (by omega)) he.2) h
  -- the rest are words with a list of operands, which are read again with the fuel for shorter
  -- texts
  | .cast t e, he, hfloats => by
      simp only [isReadableExpr, Bool.and_eq_true] at he
      have hchain := chains_expr he.2 (hfloats.of_subset (by simp [Expr.parts]))
      refine chains_start fun n l ls hn _ => yields_cast he.1 (hchain.rereads ?_)
      have hlength := length_le_listLexemes (List.mem_singleton_self (exprLexemes p e))
      simp only [exprLexemes, List.length_cons, List.length_append] at hn
      omega
  | .unary op e, he, hfloats => by
      rw [isReadableExpr] at he
      have hchain := chains_expr he (hfloats.of_subset (by simp [Expr.parts]))
      refine chains_start fun n l ls hn _ => yields_unary (hchain.rereads ?_)
      have hlength := length_le_listLexemes (List.mem_singleton_self (exprLexemes p e))
      simp only [exprLexemes, List.length_cons] at hn
      omega
  | .binary op a b, he, hfloats => by
      simp only [isReadableExpr, Bool.and_eq_true] at he
      have ha := chains_expr he.1 (hfloats.of_subset (by simp [Expr.parts]))
      have hb := chains_expr he.2 (hfloats.of_subset (by simp [Expr.parts]))
      refine chains_start fun n l ls hn _ => ?_
      have hlength : ∀ us ∈ [exprLexemes p a, exprLexemes p b], us.length ≤ n := by
        intro us hus
        have := length_le_listLexemes hus
        simp only [exprLexemes, List.length_cons] at hn
        omega
      exact yields_binary (ha.rereads (hlength _ (by simp))) (hb.rereads (hlength _ (by simp)))
  | .pureCall f es, he, hfloats => by
      simp only [isReadableExpr, Bool.and_eq_true, areReadableExprs_iff] at he
      refine chains_start fun n l ls hn _ => yields_pureCall he.1 fun e hmem => ?_
      have hchain := chains_expr (he.2 e hmem) (hfloats.of_subset fun e' he' => by
        rw [Expr.parts]
        exact List.mem_cons_of_mem _ (mem_partsList hmem he'))
      refine hchain.rereads ?_
      have := length_le_listLexemes (List.mem_map_of_mem (f := exprLexemes p) hmem)
      simp only [exprLexemes, exprsLexemes_eq, List.length_cons, List.length_append] at hn
      omega

/-- A readable expression is read back. -/
theorem yields_expr {e : Expr} (he : isReadableExpr p scope e) (hfloats : ExactFloats p e) :
    Rereads p (expr scope) e :=
  fun l ls hl =>
    .bound ((chains_expr he hfloats).rereads (by rw [List.length_append]; omega) l ls hl)

end SignalGraph.Heart.Parser

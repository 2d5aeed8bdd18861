import SignalGraph.Proofs.Heart.FirstReading
import SignalGraph.Proofs.Heart.RereadExpr

/-!
# SignalGraph.Proofs.Heart.FirstReadExpr

The expressions that the parser answers are readable (`isReadableExpr_of_run`), if the names in
scope are those of local variables (`Scope.Names`).  That an index in brackets is not a fixed
position is known from the tokens: a number that stands alone is read as one (`isIndex_of_run`).
-/

namespace SignalGraph

namespace Program.Interns

open Heart

variable {p q : Program} (h : p.Interns q)

include h

/-- A constant that is found is the same constant later, and is found there. -/
theorem find?_constantAt {c : ConstantId} (hc : p.constants.find? (p.constantAt c) = some c) :
    q.constantAt c = p.constantAt c ∧ q.constants.find? (q.constantAt c) = some c := by
  have hget := Interner.get?_of_isPrefix h.tables.constants (Interner.get?_of_find? hc)
  have hvalue : q.constantAt c = p.constantAt c := Arena.get_eq_of_get? hget
  rw [hvalue]
  exact ⟨rfl, Interner.find?_of_find? h.tables.constants hc⟩

/-- A variable stays readable while values are interned. -/
theorem isReadableVariable (scope : Parser.Scope) (v : VariableId) :
    Heart.isReadableVariable q scope v = Heart.isReadableVariable p scope v := by
  rw [h.rest]
  rfl

/-- A function stays readable while values are interned. -/
theorem isReadableFunction (f : FunctionId) :
    Heart.isReadableFunction q f = Heart.isReadableFunction p f := by
  rw [h.rest]
  rfl

/-- What starts an expression does not depend on what is interned. -/
theorem startsExpr (v : Value) : Heart.startsExpr q v = Heart.startsExpr p v := by
  rw [h.rest]
  cases v <;> rfl

/-- An index expression stays one while values are interned. -/
theorem isIndex {scope : Parser.Scope} {e : Expr} (hreadable : Heart.isReadableExpr p scope e)
    (he : Heart.isIndex p e) : Heart.isIndex q e := by
  cases e with
  | const c =>
      simp only [Heart.isReadableExpr, Bool.and_eq_true, beq_iff_eq] at hreadable
      rw [Heart.isIndex, (h.find?_constantAt hreadable.2).1]
      exact he
  | _ => rfl

/-- A readable expression stays readable while values are interned, by recursion on it. -/
theorem isReadableExpr {scope : Parser.Scope} : ∀ {e : Expr}, Heart.isReadableExpr p scope e →
    Heart.isReadableExpr q scope e
  | .var v, he => by rwa [Heart.isReadableExpr, h.isReadableVariable]
  | .const c, he => by
      simp only [Heart.isReadableExpr, Bool.and_eq_true, beq_iff_eq] at he ⊢
      obtain ⟨hvalue, hfound⟩ := h.find?_constantAt he.2
      refine ⟨?_, hfound⟩
      rw [hvalue, h.startsExpr]
      exact ⟨h.isReadableValue he.1.1, he.1.2⟩
  | .element e i, he => by
      simp only [Heart.isReadableExpr, Bool.and_eq_true] at he ⊢
      exact ⟨isReadableExpr he.1, he.2⟩
  | .elementAt e i, he => by
      simp only [Heart.isReadableExpr, Bool.and_eq_true] at he ⊢
      exact ⟨⟨isReadableExpr he.1.1, isReadableExpr he.1.2⟩, h.isIndex he.1.2 he.2⟩
  | .member e name, he => by
      simp only [Heart.isReadableExpr, Bool.and_eq_true] at he ⊢
      exact ⟨isReadableExpr he.1, he.2⟩
  | .slice e start stop, he => by
      simp only [Heart.isReadableExpr, Bool.and_eq_true] at he ⊢
      exact ⟨⟨isReadableExpr he.1.1, he.1.2⟩, he.2⟩
  | .cast t e, he => by
      simp only [Heart.isReadableExpr, Bool.and_eq_true] at he ⊢
      rw [h.isReadableType]
      exact ⟨he.1, isReadableExpr he.2⟩
  | .unary op e, he => by
      rw [Heart.isReadableExpr] at he ⊢
      exact isReadableExpr he
  | .binary op l r, he => by
      simp only [Heart.isReadableExpr, Bool.and_eq_true] at he ⊢
      exact ⟨isReadableExpr he.1, isReadableExpr he.2⟩
  | .pureCall f args, he => by
      simp only [Heart.isReadableExpr, Bool.and_eq_true, areReadableExprs_iff] at he ⊢
      rw [h.isReadableFunction]
      exact ⟨he.1, fun e hmem => isReadableExpr (he.2 e hmem)⟩
  | .property _, _ => rfl

end Program.Interns

namespace Heart.Parser

variable {x : Parser Expr} {s s' : ParserState} {scope : Scope}

/-! ## Variables, functions and constants -/

/-- What is read as a variable of the function can be written as one. -/
theorem isReadableExpr_of_run_localVariable {e : Expr} (hs : Ready scope s)
    (hkind : s.cursor.current.kind = .localName)
    (h : (localVariable scope).run s = .ok (e, s')) : isReadableExpr s'.program scope e := by
  rw [localVariable, run_current_bind] at h
  split at h
  · next v hv =>
    rw [run_advance_bind] at h
    obtain ⟨rfl, rfl⟩ := run_pure_eq_ok.mp h
    obtain ⟨hname, hlocal⟩ := hs.names _ (mem_of_lookup hv)
    simp only [isReadableExpr, isReadableVariable, Program.ownerOf?_eq_none hlocal, hname, hv,
      beq_self_eq_true, Bool.and_true]
    exact hs.clean.current.localName hkind
  · exact (run_fail_ne_ok.mp h).elim

/-- What is read as a function can be written as one. -/
theorem isReadableFunction_of_run {f : FunctionId} (hs : Ready scope s)
    (h : functionRef.run s = .ok (f, s')) : isReadableFunction s.program f := by
  rw [functionRef, run_current_bind] at h
  obtain ⟨path, s₁, hpath, h⟩ := run_bind_eq_ok.mp h
  rw [run_program_bind, program_of_run hpath] at h
  split at h
  · next g hg =>
    obtain ⟨rfl, rfl⟩ := run_pure_eq_ok.mp h
    have hsplit := hs.listed.splitPath?_of_functionByPath? hg
    obtain ⟨howner, hname, -, -⟩ := named_of_run hs.clean hpath hsplit
    have hfound : s.program.functionByPath? (s.program.functionName g) = some g := by
      rw [Program.functionName, ← eq_of_splitPath? hsplit, hg]
    simp [isReadableFunction, functionOwner, howner, hname, hfound]
  · exact (run_fail_ne_ok.mp h).elim

/-- What a constant is read from: a number, or a type if it is made of elements. -/
theorem of_run_constantTo {n : Nat} {v : Value} (h : (constantTo n).run s = .ok (v, s')) :
    (∀ t, v = .zero t ∨ (∃ vs, v = .aggregate t vs) → ∃ s₁, type.run s = .ok (t, s₁)) ∧
    ((∃ k, v = .int32 k) ∨ (∃ k, v = .int64 k) →
      s.cursor.current.kind = .integer ∧ s'.cursor = s.cursor.next) := by
  cases n with
  | zero => simp only [constantTo, expected, run_current_bind, run_fail_ne_ok] at h
  | succ n =>
      unfold constantTo constantWith at h
      rw [run_current_bind] at h
      -- the cases of the reader; only numbers and typed values have something to show
      split at h
      · next hkind =>
        split at h
        · next w hw =>
          rw [run_advance_bind] at h
          obtain ⟨rfl, rfl⟩ := run_pure_eq_ok.mp h
          refine ⟨fun t ht => ?_, fun _ => ⟨hkind, rfl⟩⟩
          unfold integerValue? at hw
          split at hw <;> (obtain ⟨k, -, rfl⟩ := Option.map_eq_some_iff.mp hw; simp at ht)
        · exact (run_fail_ne_ok.mp h).elim
      · rw [run_advance_bind] at h
        obtain ⟨rfl, rfl⟩ := run_pure_eq_ok.mp h
        unfold floatValue
        split <;> simp
      · rw [run_add_bind, run_advance_bind] at h
        obtain ⟨rfl, rfl⟩ := run_pure_eq_ok.mp h
        simp
      · rw [run_nextIs_bind] at h
        generalize hnamed : (namedValue? s.cursor.current.text <|> _) = named at h
        simp only [Option.orElse_eq_orElse, Option.orElse_eq_or] at hnamed
        cases named with
        | some w =>
            rw [run_advance_bind] at h
            obtain ⟨rfl, rfl⟩ := run_pure_eq_ok.mp h
            rcases Option.or_eq_some_iff.mp hnamed with hw | ⟨-, hw⟩
            · unfold namedValue? at hw
              split at hw <;> cases hw <;> simp
            · obtain ⟨-, hvoid⟩ := Option.ite_none_right_eq_some.mp hw
              cases hvoid
              simp
        | none =>
            obtain ⟨t, s₁, ht, h⟩ := run_bind_eq_ok.mp h
            obtain ⟨_, s₂, -, h⟩ := run_bind_eq_ok.mp h
            obtain ⟨vs, s₃, -, h⟩ := run_bind_eq_ok.mp h
            obtain ⟨rfl, rfl⟩ := run_pure_eq_ok.mp h
            unfold Value.ofElements
            split
            · exact ⟨fun t' ht' => by simp at ht'; exact ⟨s₁, ht' ▸ ht⟩, by simp⟩
            · exact ⟨fun t' ht' => by simp at ht'; exact ⟨s₁, ht' ▸ ht⟩, by simp⟩
      · simp only [expected, run_current_bind, run_fail_ne_ok] at h

/-- The word at a place is not the first one of an expression that is no constant. -/
structure ConstantWord (s : ParserState) : Prop where
  cast : s.cursor.current.text ≠ "cast"
  call : s.cursor.current.text ≠ "pure_call"
  path : s.cursor.kindAt 1 = .doubleColon → ∀ path s₁, qualifiedName.run s = .ok (path, s₁) →
    s.program.variableByPath? path = none

/-- The types with which constants start expressions. -/
theorem startsExpr_of_run {v : Value} {n : Nat} (hs : Ready scope s)
    (hword : s.cursor.current.kind = .identifier → ConstantWord s)
    (h : (constantTo n).run s = .ok (v, s')) : startsExpr s.program v := by
  have htyped : ∀ t, v = .zero t ∨ (∃ vs, v = .aggregate t vs) → (leadingStruct t).all fun id =>
      (s.program.variableByPath? (s.program.structName id)).isNone &&
        firstWord (structOwner s.program id) != "cast" &&
        firstWord (structOwner s.program id) != "pure_call" := by
    intro t ht
    obtain ⟨s₁, hrun⟩ := (of_run_constantTo h).1 t ht
    have htype := typeAt_of_run hs hrun
    cases hlead : leadingStruct t with
    | none => rfl
    | some id =>
        obtain ⟨hcolon, path, s₂, hname, rfl⟩ := htype.leading id hlead
        obtain ⟨us, hus, -⟩ := typeLexemes_of_leadingStruct (p := s.program) hlead
        obtain ⟨ws, hws⟩ := pathLexemes_eq (structOwner s.program id) (s.program.structAt id).name
        have hhead := htype.head
        rw [hus, hws, List.cons_append, List.head?_cons, Option.some.injEq, Prod.mk.injEq] at hhead
        have hword := hword htype.kind
        simp [hword.path hcolon _ _ hname, hhead.2, hword.cast, hword.call]
  cases v with
  | zero t => exact htyped t (.inl rfl)
  | aggregate t vs => exact htyped t (.inr ⟨vs, rfl⟩)
  | _ => rfl

/-- What is read as a constant can be written as one, if it started like one. -/
theorem isReadableExpr_of_run_constant {c : ConstantId} (hs : Ready scope s)
    (hword : s.cursor.current.kind = .identifier → ConstantWord s)
    (h : internedConstant.run s = .ok (c, s')) : isReadableExpr s'.program scope (.const c) := by
  obtain ⟨hvalue, hfound, n, s₁, hconstant, -⟩ := of_run_internedConstant hs h
  have hstarts := startsExpr_of_run hs hword hconstant
  rw [← (interns_of_run h).startsExpr] at hstarts
  simp [isReadableExpr, hvalue, hstarts, hfound]

/-- What is read as a path or a constant can be written as one. -/
theorem isReadableExpr_of_run_pathOrConstant {e : Expr} (hs : Ready scope s)
    (hcast : s.cursor.current.text ≠ "cast")
    (hcall : s.cursor.current.text ≠ "pure_call") (h : pathOrConstant.run s = .ok (e, s')) :
    isReadableExpr s'.program scope e := by
  unfold pathOrConstant at h
  rw [run_cursor_bind, run_nextIs_bind] at h
  extract_lets jp at h
  -- what is left where no variable was found: the reader goes back and takes a constant
  have hconstant : (s.cursor.kindAt 1 = .doubleColon → ∀ path s₁,
      qualifiedName.run s = .ok (path, s₁) → s.program.variableByPath? path = none) →
      ∀ s₁, s₁.program = s.program → (jp none).run s₁ = .ok (e, s') →
        isReadableExpr s'.program scope e := by
    intro hpath s₁ hprogram h
    unfold jp at h
    rw [run_moveTo_bind, hprogram] at h
    obtain ⟨c, s₂, hc, h⟩ := run_bind_eq_ok.mp h
    obtain ⟨rfl, rfl⟩ := run_pure_eq_ok.mp h
    exact isReadableExpr_of_run_constant hs (fun _ => ⟨hcast, hcall, hpath⟩) hc
  split at h
  · next hcolon =>
    obtain ⟨path, s₁, hpath, h⟩ := run_bind_eq_ok.mp h
    have hprogram := program_of_run hpath
    rw [run_program_bind, pure_bind, hprogram] at h
    cases hfound : s.program.variableByPath? path with
    | none =>
        rw [hfound] at h
        refine hconstant (fun _ path' s₂ hpath' => ?_) s₁ hprogram h
        cases hpath.symm.trans hpath'
        exact hfound
    | some v =>
        rw [hfound] at h
        obtain ⟨rfl, rfl⟩ := run_pure_eq_ok.mp h
        obtain ⟨m, howner, hsplit⟩ := hs.listed.splitPath?_of_variableByPath? hfound
        obtain ⟨hname, hidentifier, hfirst, -⟩ := named_of_run hs.clean hpath hsplit
        have htext : s.program.variableByPath? (variableText s.program v) = some v := by
          rw [variableText_of_owner howner, ← eq_of_splitPath? hsplit, hfound]
        rw [hprogram]
        simp [isReadableExpr, isReadableVariable, howner, startsPath, hname, hidentifier, hfirst,
          hcast, hcall, htext]
  · next hcolon =>
    rw [pure_bind] at h
    exact hconstant (fun h => absurd (decide_eq_true h) hcolon) s rfl h

/-! ## Expressions that start with a keyword -/

section

variable (hx : ∀ {s e s'}, Ready scope s → x.run s = .ok (e, s') →
  isReadableExpr s'.program scope e)

include hx

/-- A unary operation that is read can be written if its operand can. -/
theorem isReadableExpr_of_run_unaryExpr {op : UnaryOp} {e : Expr} (hs : Ready scope s)
    (h : (unaryExpr x op).run s = .ok (e, s')) : isReadableExpr s'.program scope e := by
  rw [unaryExpr, run_advance_bind, run_advance_bind] at h
  obtain ⟨source, s₁, hsource, h⟩ := run_bind_eq_ok.mp h
  obtain ⟨_, s₂, hclose, h⟩ := run_bind_eq_ok.mp h
  obtain ⟨rfl, rfl⟩ := run_pure_eq_ok.mp h
  rw [program_of_run hclose, isReadableExpr]
  exact hx hs.next.next hsource

variable [Follows Program.Interns x]

/-- A cast that is read can be written if its operand can. -/
theorem isReadableExpr_of_run_castExpr {e : Expr} (hs : Ready scope s)
    (h : (castExpr x).run s = .ok (e, s')) : isReadableExpr s'.program scope e := by
  rw [castExpr, run_advance_bind] at h
  obtain ⟨t, s₁, ht, h⟩ := run_bind_eq_ok.mp h
  obtain ⟨_, s₂, hopen, h⟩ := run_bind_eq_ok.mp h
  obtain ⟨source, s₃, hsource, h⟩ := run_bind_eq_ok.mp h
  obtain ⟨_, s₄, hclose, h⟩ := run_bind_eq_ok.mp h
  obtain ⟨rfl, rfl⟩ := run_pure_eq_ok.mp h
  have hs₁ := hs.next.after ht
  have hs₂ := hs₁.after hopen
  have htype := (typeAt_of_run hs.next ht).readable
  rw [← (interns_of_run ht).isReadableType, ← (interns_of_run hopen).isReadableType,
    ← (interns_of_run hsource).isReadableType] at htype
  rw [program_of_run hclose, isReadableExpr, htype, hx hs₂ hsource]
  rfl

variable [Inline x]

/-- Arguments that are read can be written if single expressions can. -/
theorem areReadable_of_run_arguments {es : List Expr} (hs : Ready scope s)
    (h : (arguments x).run s = .ok (es, s')) : ∀ e ∈ es, isReadableExpr s'.program scope e := by
  obtain ⟨_, s₁, hopen, h⟩ := run_bind_eq_ok.mp h
  have hs₁ := hs.after hopen
  exact forall_of_run_commaList (P := fun q e => isReadableExpr q scope e)
    (fun q r e hqr he => hqr.isReadableExpr he) hx hs₁ h

/-- A call that is read can be written if its arguments can. -/
theorem isReadableExpr_of_run_pureCall {e : Expr} (hs : Ready scope s)
    (h : (pureCall x).run s = .ok (e, s')) : isReadableExpr s'.program scope e := by
  rw [pureCall, run_advance_bind] at h
  obtain ⟨f, s₁, hf, h⟩ := run_bind_eq_ok.mp h
  obtain ⟨es, s₂, hes, h⟩ := run_bind_eq_ok.mp h
  obtain ⟨rfl, rfl⟩ := run_pure_eq_ok.mp h
  have hfunction := isReadableFunction_of_run hs.next hf
  rw [← (interns_of_run hf).isReadableFunction, ← (interns_of_run hes).isReadableFunction]
    at hfunction
  have hall := areReadable_of_run_arguments hx (hs.next.after hf) hes
  simp only [isReadableExpr, hfunction, Bool.true_and]
  exact areReadableExprs_iff.mpr hall

/-- A binary operation that is read can be written if its operands can. -/
theorem isReadableExpr_of_run_binaryExpr {op : BinaryOp} {e : Expr} (hs : Ready scope s)
    (h : (binaryExpr x op).run s = .ok (e, s')) : isReadableExpr s'.program scope e := by
  rw [binaryExpr, run_advance_bind, run_advance_bind] at h
  obtain ⟨lhs, s₁, hlhs, h⟩ := run_bind_eq_ok.mp h
  obtain ⟨_, s₂, hcomma, h⟩ := run_bind_eq_ok.mp h
  obtain ⟨rhs, s₃, hrhs, h⟩ := run_bind_eq_ok.mp h
  obtain ⟨_, s₄, hclose, h⟩ := run_bind_eq_ok.mp h
  obtain ⟨rfl, rfl⟩ := run_pure_eq_ok.mp h
  have hs₂ := (hs.next.next.after hlhs).after hcomma
  have hleft := hx hs.next.next hlhs
  rw [← program_of_run hcomma] at hleft
  rw [program_of_run hclose, isReadableExpr, (interns_of_run hrhs).isReadableExpr hleft,
    hx hs₂ hrhs]
  rfl

omit [Inline x] [Follows Program.Interns x] hx in
/-- A property that is read can be written. -/
theorem isReadableExpr_of_run_processorProperty {e : Expr}
    (h : processorProperty.run s = .ok (e, s')) : isReadableExpr s'.program scope e := by
  rw [processorProperty, run_advance_bind, run_advance_bind, run_current_bind] at h
  obtain ⟨name, s₁, -, h⟩ := run_bind_eq_ok.mp h
  split at h
  · obtain ⟨rfl, rfl⟩ := run_pure_eq_ok.mp h
    rfl
  · exact (run_fail_ne_ok.mp h).elim

/-- What starts with a word can be written if its parts can. -/
theorem isReadableExpr_of_run_wordExpr {e : Expr} (hs : Ready scope s)
    (h : (wordExpr x).run s = .ok (e, s')) : isReadableExpr s'.program scope e := by
  unfold wordExpr at h
  rw [run_current_bind, run_nextIs_bind] at h
  split at h
  · exact isReadableExpr_of_run_castExpr hx hs h
  · next hcast =>
    split at h
    · exact isReadableExpr_of_run_pureCall hx hs h
    · next hcall =>
      rw [run_nextIs_bind] at h
      split at h
      · exact isReadableExpr_of_run_processorProperty h
      · split at h
        · exact isReadableExpr_of_run_unaryExpr hx hs h
        · exact isReadableExpr_of_run_binaryExpr hx hs h
        · exact isReadableExpr_of_run_pathOrConstant hs hcast hcall h

/-- An expression without selections can be written if its parts can. -/
theorem isReadableExpr_of_run_primaryExpr {e : Expr} (hs : Ready scope s)
    (h : (primaryExpr scope x).run s = .ok (e, s')) : isReadableExpr s'.program scope e := by
  rw [primaryExpr, run_current_bind] at h
  have hliteral : s.cursor.current.kind ≠ .identifier →
      (do return .const (← internedConstant) : Parser Expr).run s = .ok (e, s') →
      isReadableExpr s'.program scope e := by
    intro hkind h
    obtain ⟨c, s₁, hc, h⟩ := run_bind_eq_ok.mp h
    obtain ⟨rfl, rfl⟩ := run_pure_eq_ok.mp h
    exact isReadableExpr_of_run_constant hs (fun h => absurd h hkind) hc
  split at h
  · next hkind => exact isReadableExpr_of_run_localVariable hs hkind h
  · exact isReadableExpr_of_run_wordExpr hx hs h
  · next hkind => exact hliteral (by rw [hkind]; decide) h
  · next hkind => exact hliteral (by rw [hkind]; decide) h
  · next hkind => exact hliteral (by rw [hkind]; decide) h
  · simp only [expected, run_current_bind, run_fail_ne_ok] at h

end

/-! ## Selections -/

/-- A selection is no constant. -/
theorem ne_const_of_run_indexed {parent e : Expr} (h : (indexed x parent).run s = .ok (e, s')) :
    ∀ c, e ≠ .const c := by
  rw [indexed, run_advance_bind] at h
  extract_lets jp at h
  have hjp : ∀ selected s₁, (∀ c, selected ≠ .const c) → (jp selected).run s₁ = .ok (e, s') →
      ∀ c, e ≠ .const c := by
    intro selected s₁ hne h
    unfold jp at h
    obtain ⟨_, s₂, -, h⟩ := run_bind_eq_ok.mp h
    obtain ⟨rfl, rfl⟩ := run_pure_eq_ok.mp h
    exact hne
  clear_value jp
  rw [run_at_bind, run_nextIs_bind, run_at_bind, run_nextIs_bind] at h
  split at h
  · obtain ⟨i, s₁, -, h⟩ := run_bind_eq_ok.mp h
    exact hjp _ _ (by simp) h
  · split at h
    · obtain ⟨start, s₁, -, h⟩ := run_bind_eq_ok.mp h
      obtain ⟨_, s₂, -, h⟩ := run_bind_eq_ok.mp h
      obtain ⟨stop, s₃, -, h⟩ := run_bind_eq_ok.mp h
      exact hjp _ _ (by simp) h
    · obtain ⟨i, s₁, -, h⟩ := run_bind_eq_ok.mp h
      exact hjp _ _ (by simp) h

/-- A constant has no selections. -/
theorem const_of_run_selections {n : Nat} {e : Expr} {c : ConstantId}
    (h : (selections x n e).run s = .ok (.const c, s')) : e = .const c ∧ s' = s := by
  induction n generalizing e s with
  | zero =>
      obtain ⟨rfl, rfl⟩ := run_pure_eq_ok.mp h
      exact ⟨rfl, rfl⟩
  | succ n ih =>
      rw [selections, run_at_bind] at h
      split at h
      · obtain ⟨e', s₁, he', h⟩ := run_bind_eq_ok.mp h
        exact absurd (ih h).1 (ne_const_of_run_indexed he' c)
      · rw [run_at_bind, run_nextIs_bind] at h
        split at h
        · rw [run_advance_bind] at h
          obtain ⟨name, s₁, -, h⟩ := run_bind_eq_ok.mp h
          cases (ih h).1
        · obtain ⟨rfl, rfl⟩ := run_pure_eq_ok.mp h
          exact ⟨rfl, rfl⟩

/-- A constant among paths and constants was read as a constant. -/
theorem run_const_of_run_pathOrConstant {c : ConstantId}
    (h : pathOrConstant.run s = .ok (.const c, s')) : internedConstant.run s = .ok (c, s') := by
  unfold pathOrConstant at h
  rw [run_cursor_bind, run_nextIs_bind] at h
  extract_lets jp at h
  have hjp : ∀ found s₁, s₁.program = s.program → (jp found).run s₁ = .ok (.const c, s') →
      internedConstant.run s = .ok (c, s') := by
    intro found s₁ hprogram h
    unfold jp at h
    split at h
    · cases (run_pure_eq_ok.mp h).1
    · rw [run_moveTo_bind, hprogram] at h
      obtain ⟨c', s₂, hc, h⟩ := run_bind_eq_ok.mp h
      obtain ⟨hconst, rfl⟩ := run_pure_eq_ok.mp h
      cases hconst
      exact hc
  clear_value jp
  split at h
  · obtain ⟨path, s₁, hpath, h⟩ := run_bind_eq_ok.mp h
    rw [run_program_bind, pure_bind] at h
    exact hjp _ s₁ (program_of_run hpath) h
  · rw [pure_bind] at h
    exact hjp none s rfl h

/-- A constant that starts with a word was read as a constant. -/
theorem run_const_of_run_wordExpr {c : ConstantId} (h : (wordExpr x).run s = .ok (.const c, s')) :
    internedConstant.run s = .ok (c, s') := by
  unfold wordExpr at h
  rw [run_current_bind, run_nextIs_bind] at h
  -- none of the other kinds of expression is a constant
  split at h
  · rw [castExpr, run_advance_bind] at h
    obtain ⟨_, _, -, h⟩ := run_bind_eq_ok.mp h
    obtain ⟨_, _, -, h⟩ := run_bind_eq_ok.mp h
    obtain ⟨_, _, -, h⟩ := run_bind_eq_ok.mp h
    obtain ⟨_, _, -, h⟩ := run_bind_eq_ok.mp h
    cases (run_pure_eq_ok.mp h).1
  · split at h
    · rw [pureCall, run_advance_bind] at h
      obtain ⟨_, _, -, h⟩ := run_bind_eq_ok.mp h
      obtain ⟨_, _, -, h⟩ := run_bind_eq_ok.mp h
      cases (run_pure_eq_ok.mp h).1
    · rw [run_nextIs_bind] at h
      split at h
      · rw [processorProperty, run_advance_bind, run_advance_bind, run_current_bind] at h
        obtain ⟨_, _, -, h⟩ := run_bind_eq_ok.mp h
        split at h
        · cases (run_pure_eq_ok.mp h).1
        · exact (run_fail_ne_ok.mp h).elim
      · split at h
        · rw [unaryExpr, run_advance_bind, run_advance_bind] at h
          obtain ⟨_, _, -, h⟩ := run_bind_eq_ok.mp h
          obtain ⟨_, _, -, h⟩ := run_bind_eq_ok.mp h
          cases (run_pure_eq_ok.mp h).1
        · rw [binaryExpr, run_advance_bind, run_advance_bind] at h
          obtain ⟨_, _, -, h⟩ := run_bind_eq_ok.mp h
          obtain ⟨_, _, -, h⟩ := run_bind_eq_ok.mp h
          obtain ⟨_, _, -, h⟩ := run_bind_eq_ok.mp h
          obtain ⟨_, _, -, h⟩ := run_bind_eq_ok.mp h
          cases (run_pure_eq_ok.mp h).1
        · exact run_const_of_run_pathOrConstant h

/-- A constant is read where the expression starts. -/
theorem run_const_of_run_primaryExpr {c : ConstantId}
    (h : (primaryExpr scope x).run s = .ok (.const c, s')) :
    internedConstant.run s = .ok (c, s') := by
  rw [primaryExpr, run_current_bind] at h
  have hliteral : (do return .const (← internedConstant) : Parser Expr).run s =
      .ok (.const c, s') → internedConstant.run s = .ok (c, s') := by
    intro h
    obtain ⟨c', s₁, hc, h⟩ := run_bind_eq_ok.mp h
    obtain ⟨hconst, rfl⟩ := run_pure_eq_ok.mp h
    cases hconst
    exact hc
  split at h
  · rw [localVariable, run_current_bind] at h
    split at h
    · rw [run_advance_bind] at h
      cases (run_pure_eq_ok.mp h).1
    · exact (run_fail_ne_ok.mp h).elim
  · exact run_const_of_run_wordExpr h
  · exact hliteral h
  · exact hliteral h
  · exact hliteral h
  · simp only [expected, run_current_bind, run_fail_ne_ok] at h

/-- A number that stands alone between brackets is not read as an expression. -/
theorem isIndex_of_run {n : Nat} {e : Expr} (hs : Ready scope s)
    (hindex : s.cursor.current.kind = .integer → s.cursor.kindAt 1 ≠ .rightBracket)
    (hnext : s'.cursor.current.kind = .rightBracket) (h : (exprTo scope n).run s = .ok (e, s')) :
    isIndex s'.program e := by
  cases e with
  | const c =>
      cases n with
      | zero => simp only [exprTo, expected, run_current_bind, run_fail_ne_ok] at h
      | succ n =>
          obtain ⟨e, s₁, he, h⟩ := run_bind_eq_ok.mp h
          rw [run_bound_bind] at h
          obtain ⟨rfl, rfl⟩ := const_of_run_selections h
          have hc := run_const_of_run_primaryExpr he
          obtain ⟨-, -, m, s₂, hconstant, hcursor⟩ := of_run_internedConstant hs hc
          have hnumber := (of_run_constantTo hconstant).2
          rw [isIndex]
          by_contra hne
          have hinteger := hnumber (by
            cases hvalue : s'.program.constantAt c with
            | int32 k => exact .inl ⟨k, rfl⟩
            | int64 k => exact .inr ⟨k, rfl⟩
            | _ => simp [hvalue] at hne)
          rw [hcursor, hinteger.2] at hnext
          exact hindex hinteger.1 (Cursor.kindAt_one_of_next hnext (by rw [hinteger.1]; decide))
  | _ => rfl

section

variable {n : Nat}
  (hx : ∀ {s e s'}, Ready scope s → (exprTo scope n).run s = .ok (e, s') →
    isReadableExpr s'.program scope e)

include hx

/-- An index or a slice can be written after an expression that can. -/
theorem isReadableExpr_of_run_indexed {parent e : Expr} (hs : Ready scope s)
    (hparent : isReadableExpr s.program scope parent)
    (h : (indexed (exprTo scope n) parent).run s = .ok (e, s')) :
    isReadableExpr s'.program scope e := by
  rw [indexed, run_advance_bind] at h
  extract_lets jp at h
  -- what is left once the position is read
  have hjp : ∀ selected s₁, isReadableExpr s₁.program scope selected →
      (jp selected).run s₁ = .ok (e, s') → isReadableExpr s'.program scope e := by
    intro selected s₁ hselected h
    unfold jp at h
    obtain ⟨_, s₂, hclose, h⟩ := run_bind_eq_ok.mp h
    obtain ⟨rfl, rfl⟩ := run_pure_eq_ok.mp h
    rwa [program_of_run hclose]
  rw [run_at_bind, run_nextIs_bind, run_at_bind, run_nextIs_bind] at h
  split at h
  · obtain ⟨i, s₁, hi, h⟩ := run_bind_eq_ok.mp h
    refine hjp _ _ ?_ h
    rw [program_of_run hi, isReadableExpr, hparent, isLength_of_run hi]
    rfl
  · next hposition =>
    split at h
    · obtain ⟨start, s₁, hstart, h⟩ := run_bind_eq_ok.mp h
      obtain ⟨_, s₂, hcolon, h⟩ := run_bind_eq_ok.mp h
      obtain ⟨stop, s₃, hstop, h⟩ := run_bind_eq_ok.mp h
      refine hjp _ _ ?_ h
      rw [program_of_run hstop, program_of_run hcolon, program_of_run hstart, isReadableExpr,
        hparent, isLength_of_run hstart, isLength_of_run hstop]
      rfl
    · obtain ⟨i, s₁, hi, h⟩ := run_bind_eq_ok.mp h
      refine hjp _ _ ?_ h
      rw [pure_bind] at h
      obtain ⟨_, s₂, hclose, -⟩ := run_bind_eq_ok.mp h
      have hindex :=
        isIndex_of_run hs.next (fun hkind hbracket => hposition (by simp [hkind, hbracket]))
          (run_expect_eq_ok hclose).1 hi
      rw [isReadableExpr, hx hs.next hi, hindex, (interns_of_run hi).isReadableExpr hparent]
      rfl

/-- Selections can be written after an expression that can, by induction on their number. -/
theorem isReadableExpr_of_run_selections {m : Nat} {parent e : Expr} (hs : Ready scope s)
    (hparent : isReadableExpr s.program scope parent)
    (h : (selections (exprTo scope n) m parent).run s = .ok (e, s')) :
    isReadableExpr s'.program scope e := by
  induction m generalizing parent s with
  | zero =>
      obtain ⟨rfl, rfl⟩ := run_pure_eq_ok.mp h
      exact hparent
  | succ m ih =>
      rw [selections, run_at_bind] at h
      split at h
      · next hbracket =>
        obtain ⟨e', s₁, he', h⟩ := run_bind_eq_ok.mp h
        have hgrown := interns_of_run he'
        have hclean := (inlineAt_indexed (of_decide_eq_true hbracket) parent).clean he' hs.clean
        exact ih ⟨hgrown.listed hs.listed, hgrown.names hs.names, hclean⟩
          (isReadableExpr_of_run_indexed hx hs hparent he') h
      · rw [run_at_bind, run_nextIs_bind] at h
        split at h
        · rw [run_advance_bind] at h
          obtain ⟨name, s₁, hname, h⟩ := run_bind_eq_ok.mp h
          refine ih (hs.next.after hname) ?_ h
          rw [program_of_run hname, isReadableExpr, hparent,
            isIdentifier_of_run hs.next.clean hname]
          rfl
        · obtain ⟨rfl, rfl⟩ := run_pure_eq_ok.mp h
          exact hparent

end

/-- Whatever is read as an expression can be written, by induction on the depth of nesting. -/
theorem isReadableExpr_of_run_exprTo {n : Nat} {e : Expr} (hs : Ready scope s)
    (h : (exprTo scope n).run s = .ok (e, s')) : isReadableExpr s'.program scope e := by
  induction n generalizing s e s' with
  | zero => simp only [exprTo, expected, run_current_bind, run_fail_ne_ok] at h
  | succ n ih =>
      obtain ⟨start, s₁, hstart, h⟩ := run_bind_eq_ok.mp h
      rw [run_bound_bind] at h
      exact isReadableExpr_of_run_selections ih (hs.after hstart)
        (isReadableExpr_of_run_primaryExpr ih hs hstart) h

/-- Every expression that is read is readable. -/
theorem isReadableExpr_of_run {e : Expr} (hs : Ready scope s)
    (h : (expr scope).run s = .ok (e, s')) : isReadableExpr s'.program scope e := by
  unfold expr at h
  rw [run_bound_bind] at h
  exact isReadableExpr_of_run_exprTo hs h

end Heart.Parser

end SignalGraph

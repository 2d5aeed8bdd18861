import SignalGraph.Proofs.Heart.Rounds

/-!
# SignalGraph.Proofs.Heart.Nesting

Constants stand inside constants and expressions inside expressions.  What stands inside comes after
a token of what it stands in, so the depth is bounded by the number of tokens left: the parsers of
constants and expressions do what they would do if they called themselves without a bound
(`constantTo_bounded`, `exprTo_bounded`).
-/

namespace SignalGraph.Heart.Parser

variable {α β : Type}

section

variable {x y : Parser α} {f g : α → Parser β} {n : Nat} {s : ParserState}

/-! ## From a known state -/

/-- What comes after a parser that stays within the text. -/
theorem AgreeUpTo.run_bind [hz : Takes 0 x] (hf : ∀ a, AgreeUpTo n (f a) (g a))
    (hx : x.run s = y.run s) (hs : s.cursor.Ended) (hn : s.cursor.rest.length ≤ n) :
    (x >>= f).run s = (y >>= g).run s := by
  refine run_bind_congr hx fun a s' hrun => ?_
  obtain ⟨ts, -, hpassed, hended⟩ := hz.takesAt s hs a s' hrun
  refine hf a s' hended ?_
  rw [hpassed.length] at hn
  exact Nat.le_of_add_left_le hn

/-- Advancing past a token other than the end of the text. -/
theorem AgreeUpTo.run_advance {f g : Unit → Parser β} (h : AgreeUpTo n (f ()) (g ()))
    (hkind : s.cursor.current.kind ≠ .eof) (hs : s.cursor.Ended)
    (hn : s.cursor.rest.length ≤ n + 1) : (advance >>= f).run s = (advance >>= g).run s := by
  obtain ⟨hpassed, hended⟩ := hs.passed_next hkind
  rw [run_advance_bind, run_advance_bind]
  refine h _ hended ?_
  rw [hpassed.length, List.length_singleton] at hn
  exact Nat.le_of_add_le_add_left (Nat.add_comm n 1 ▸ hn)

/-! ## Lists -/

/-- Lists agree if their parts do: the rounds take tokens. -/
theorem agree_commaList [Takes 0 x] (close : TokenKind) (h : AgreeUpTo n x y) :
    AgreeUpTo n (commaList close x) (commaList close y) := by
  have hgo : ∀ k, AgreeUpTo n (commaList.go close x k) (commaList.go close y k) := by
    intro k
    induction k with
    | zero => exact .refl _ _
    | succ k ih =>
        rw [commaList.go, commaList.go]
        refine h.bind fun a => .after fun closed => .ite (.refl _ _) ?_
        exact .after fun _ => ih.bind fun _ => .refl _ _
  unfold commaList
  exact .after fun closed => .ite (.refl _ _) (.after fun k => hgo k)

end

/-! ## Constants -/

/-- A constant, if `constant` reads the ones inside it. -/
def constantStep (constant : Unit → Parser Value) : Unit → Parser Value :=
  fun _ => constantWith (constant ())

/-- Constants agree on inputs that are longer by one if constants within them agree. -/
theorem agree_constantWith {x y : Parser Value} {n : Nat} [Takes 0 x] (h : AgreeUpTo n x y) :
    AgreeUpTo (n + 1) (constantWith x) (constantWith y) := by
  unfold constantWith
  refine .after fun t => ?_
  split
  · exact .refl _ _
  · exact .refl _ _
  · exact .refl _ _
  · refine .after fun called => ?_
    extract_lets named
    clear_value named
    split
    · exact .refl _ _
    · exact .after_token fun ty => .after fun _ => (agree_commaList _ h).bind fun _ => .refl _ _
  · exact .refl _ _

/-- A constant takes a token before it goes on to one within it. -/
theorem guarded_constantStep : Guarded constantStep := by
  intro n x y hx h _
  have hx := hx ()
  exact agree_constantWith (h ())

/-- The fuel for constants never cuts a run. -/
theorem constantTo_bounded : Bounded constantStep (fun n _ => constantTo n) :=
  guarded_constantStep.bounded (fun _ _ => rfl) inferInstance

/-! ## Expressions -/

section

variable (scope : Scope) {x y : Parser Expr} {n : Nat} {s : ParserState} [hx : Takes 0 x]

/-- An expression, if `expr` reads the ones inside it. -/
def exprStep (expr : Unit → Parser Expr) : Unit → Parser Expr := fun _ => do
  let e ← primaryExpr scope (expr ())
  selections (expr ()) (← bound) e

/-- Arguments agree if expressions do. -/
theorem agree_arguments (h : AgreeUpTo n x y) : AgreeUpTo n (arguments x) (arguments y) :=
  .after fun _ => agree_commaList _ h

/-- A cast takes a token before its operand. -/
theorem agree_castExpr (h : AgreeUpTo n x y) : AgreeUpTo (n + 1) (castExpr x) (castExpr y) :=
  .after fun _ => .after_token fun _ => .after fun _ => h.bind fun _ => .refl _ _

/-- A call takes a token before its arguments. -/
theorem agree_pureCall (h : AgreeUpTo n x y) : AgreeUpTo (n + 1) (pureCall x) (pureCall y) :=
  .after fun _ => .after_token fun _ => (agree_arguments h).bind fun _ => .refl _ _

/-- A unary operation takes a token before its operand. -/
theorem run_unaryExpr_congr (h : AgreeUpTo n x y) (op : UnaryOp)
    (hkind : s.cursor.current.kind ≠ .eof) (hs : s.cursor.Ended)
    (hn : s.cursor.rest.length ≤ n + 1) : (unaryExpr x op).run s = (unaryExpr y op).run s :=
  AgreeUpTo.run_advance (.after fun _ => h.bind fun _ => .refl _ _) hkind hs hn

/-- A binary operation takes a token before its operands. -/
theorem run_binaryExpr_congr (h : AgreeUpTo n x y) (op : BinaryOp)
    (hkind : s.cursor.current.kind ≠ .eof) (hs : s.cursor.Ended)
    (hn : s.cursor.rest.length ≤ n + 1) : (binaryExpr x op).run s = (binaryExpr y op).run s :=
  AgreeUpTo.run_advance (.after fun _ => h.bind fun _ => .after fun _ => h.bind fun _ => .refl _ _)
    hkind hs hn

/-- What starts with a word takes the word before its parts. -/
theorem run_wordExpr_congr (h : AgreeUpTo n x y) (hkind : s.cursor.current.kind ≠ .eof)
    (hs : s.cursor.Ended) (hn : s.cursor.rest.length ≤ n + 1) :
    (wordExpr x).run s = (wordExpr y).run s := by
  unfold wordExpr
  rw [run_current_bind, run_current_bind, run_nextIs_bind, run_nextIs_bind]
  split
  · exact agree_castExpr h s hs hn
  · split
    · exact agree_pureCall h s hs hn
    · rw [run_nextIs_bind, run_nextIs_bind]
      split
      · rfl
      · split
        · exact run_unaryExpr_congr h _ hkind hs hn
        · exact run_binaryExpr_congr h _ hkind hs hn
        · rfl

/-- An expression without selections takes a token before its parts. -/
theorem agree_primaryExpr (h : AgreeUpTo n x y) :
    AgreeUpTo (n + 1) (primaryExpr scope x) (primaryExpr scope y) := by
  intro s hs hn
  unfold primaryExpr
  rw [run_current_bind, run_current_bind]
  split
  · rfl
  · next hkind => exact run_wordExpr_congr h (by rw [hkind]; decide) hs hn
  all_goals rfl

/-- An index takes its bracket first. -/
theorem run_indexed_congr (h : AgreeUpTo n x y) (e : Expr) (hkind : s.cursor.current.kind ≠ .eof)
    (hs : s.cursor.Ended) (hn : s.cursor.rest.length ≤ n + 1) :
    (indexed x e).run s = (indexed y e).run s := by
  refine AgreeUpTo.run_advance ?_ hkind hs hn
  extract_lets jp
  clear_value jp
  refine .after fun _ => .after fun _ => .after fun _ => .after fun _ => .ite (.refl _ _) ?_
  exact .ite (.refl _ _) (h.bind fun _ => .refl _ _)

/-- Selections agree on inputs that are longer by one, by induction on their number. -/
theorem agree_selections (h : AgreeUpTo n x y) (k : Nat) (e : Expr) :
    AgreeUpTo (n + 1) (selections x k e) (selections y k e) := by
  induction k generalizing e with
  | zero => exact .refl _ _
  | succ k ih =>
      intro s hs hn
      rw [selections, selections, run_at_bind, run_at_bind]
      split
      · next hkind =>
        have hkind : s.cursor.current.kind = .leftBracket := by simpa using hkind
        exact AgreeUpTo.run_bind ih (run_indexed_congr h e (by rw [hkind]; decide) hs hn) hs hn
      · refine AgreeUpTo.after (fun dot => .after fun word => .ite ?_ (.refl _ _)) s hs hn
        exact .after fun _ => .after fun name => ih _

/-- An expression takes a token before it goes on to one within it. -/
theorem guarded_exprStep : Guarded (exprStep scope) := by
  intro n x y hx h _
  have hx := hx ()
  exact (agree_primaryExpr scope (h ())).bind fun e => .after fun k => agree_selections (h ()) k e

/-- The fuel for expressions never cuts a run. -/
theorem exprTo_bounded : Bounded (exprStep scope) (fun n _ => exprTo scope n) :=
  (guarded_exprStep scope).bounded (fun _ _ => rfl) inferInstance

end

end SignalGraph.Heart.Parser

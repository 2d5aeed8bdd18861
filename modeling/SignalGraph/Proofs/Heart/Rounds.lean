import SignalGraph.Proofs.Heart.Progress

/-!
# SignalGraph.Proofs.Heart.Rounds

Loops come to an end because the text does.  Every loop of the parser is rounds of one kind, and a
round after which the loop goes on has taken a token (`Advances`).  So with as many rounds as there
are tokens left, the number of rounds does not matter any more, and what is read is what the rounds
say without a bound (`Bounded`): the bounds that the loops are given never cut one short.
-/

namespace SignalGraph.Heart.Parser

variable {α β σ : Type}

/-! ## Parsers that agree near the end of the text -/

/-- The parsers do the same wherever the end of the text is still to come and at most `n` tokens are
left. -/
def AgreeUpTo (n : Nat) (x y : Parser α) : Prop :=
  ∀ s, s.cursor.Ended → s.cursor.rest.length ≤ n → x.run s = y.run s

section

variable {x y : Parser α} {f g : α → Parser β} {m n : Nat} {s : ParserState}

theorem AgreeUpTo.refl (n : Nat) (x : Parser α) : AgreeUpTo n x x := fun _ _ _ => rfl

/-- The end of the text is a token itself. -/
theorem agreeUpTo_zero : AgreeUpTo 0 x y := by
  intro s hs hn
  rw [hs.rest] at hn
  exact absurd hn (Nat.not_succ_le_zero _)

/-- Parsers that agree on longer inputs agree on shorter ones. -/
theorem AgreeUpTo.mono (h : AgreeUpTo n x y) (hm : m ≤ n) : AgreeUpTo m x y :=
  fun s hs hn => h s hs (Nat.le_trans hn hm)

/-- Parsers that agree where they are run agree one after the other. -/
theorem run_bind_congr (hx : x.run s = y.run s)
    (hf : ∀ a s', x.run s = .ok (a, s') → (f a).run s' = (g a).run s') :
    (x >>= f).run s = (y >>= g).run s := by
  rw [StateT.run_bind, StateT.run_bind, ← hx]
  cases hrun : x.run s with
  | error d => rfl
  | ok r => exact hf r.1 r.2 hrun

/-- What comes after a parser that takes at least `m` tokens. -/
theorem AgreeUpTo.bind_takes [htakes : Takes m x] (hx : AgreeUpTo (n + m) x y)
    (hf : ∀ a, AgreeUpTo n (f a) (g a)) : AgreeUpTo (n + m) (x >>= f) (y >>= g) := by
  intro s hs hn
  refine run_bind_congr (hx s hs hn) fun a s' hrun => ?_
  obtain ⟨ts, hts, hpassed, hended⟩ := htakes.takesAt s hs a s' hrun
  refine hf a s' hended ?_
  rw [hpassed.length] at hn
  omega

/-- Parsers that agree up to a length agree one after the other: the first leaves no more than it
got. -/
theorem AgreeUpTo.bind [Takes 0 x] (hx : AgreeUpTo n x y) (hf : ∀ a, AgreeUpTo n (f a) (g a)) :
    AgreeUpTo n (x >>= f) (y >>= g) := bind_takes (m := 0) hx hf

/-- The same first part. -/
theorem AgreeUpTo.after [Takes 0 x] (hf : ∀ a, AgreeUpTo n (f a) (g a)) :
    AgreeUpTo n (x >>= f) (x >>= g) := (refl n x).bind hf

/-- The same first part, which takes a token. -/
theorem AgreeUpTo.after_token [Takes 1 x] (hf : ∀ a, AgreeUpTo n (f a) (g a)) :
    AgreeUpTo (n + 1) (x >>= f) (x >>= g) := bind_takes (refl (n + 1) x) hf

/-- Parsers agree if both branches do. -/
theorem AgreeUpTo.ite {b : Prop} [Decidable b] {x' y' : Parser α} (hx : AgreeUpTo n x y)
    (hx' : AgreeUpTo n x' y') : AgreeUpTo n (if b then x else x') (if b then y else y') := by
  split
  · exact hx
  · exact hx'

end

/-! ## Bounds -/

/-- The recursion goes on at later places only: if what it goes on with agrees wherever at most `n`
tokens are left, then it agrees where one more token is left. -/
def Guarded (step : (σ → Parser α) → σ → Parser α) : Prop :=
  ∀ n x y, (∀ a, Takes 0 (x a)) → (∀ a, AgreeUpTo n (x a) (y a)) →
    ∀ a, AgreeUpTo (n + 1) (step x a) (step y a)

/-- The recursion with the number of tokens left as the bound on its depth. -/
def toEnd (x : Nat → σ → Parser α) (a : σ) : Parser α := do x (← bound) a

/-- The parsers do the same wherever the end of the text is still to come. -/
def Agree (x y : Parser α) : Prop := ∀ s, s.cursor.Ended → x.run s = y.run s

/-- The recursion with a bound on its depth does what it does without one. -/
structure Bounded (step : (σ → Parser α) → σ → Parser α) (x : Nat → σ → Parser α) : Prop where
  /-- Where at most `n` tokens are left, any bounds from `n` on give the same. -/
  stable : ∀ n i j, n ≤ i → n ≤ j → ∀ a, AgreeUpTo n (x i a) (x j a)
  /-- It is its step followed by itself. -/
  unrolls : ∀ a, Agree (toEnd x a) (step (toEnd x) a)
  /-- Nothing else that stays within the text is. -/
  unique : ∀ y : σ → Parser α, (∀ a, Takes 0 (y a)) → (∀ a, Agree (y a) (step y a)) →
    ∀ a, Agree (y a) (toEnd x a)

instance {x : Nat → σ → Parser α} [∀ n a, Takes 0 (x n a)] (a : σ) : Takes 0 (toEnd x a) := by
  unfold toEnd
  infer_instance

section

variable {step : (σ → Parser α) → σ → Parser α} {x : Nat → σ → Parser α} {n i j : Nat}

/-- With more fuel than tokens the amount does not matter, by induction on the fuel: every step
takes a token before it goes on. -/
theorem Guarded.stable (h : Guarded step) (hx : ∀ n a, x (n + 1) a = step (x n) a)
    (htakes : ∀ n a, Takes 0 (x n a)) (hi : n ≤ i) (hj : n ≤ j) (a : σ) :
    AgreeUpTo n (x i a) (x j a) := by
  induction n generalizing i j a with
  | zero => exact agreeUpTo_zero
  | succ n ih =>
      obtain ⟨i, rfl⟩ := Nat.exists_eq_add_of_le' (Nat.lt_of_lt_of_le (Nat.succ_pos n) hi)
      obtain ⟨j, rfl⟩ := Nat.exists_eq_add_of_le' (Nat.lt_of_lt_of_le (Nat.succ_pos n) hj)
      rw [hx, hx]
      exact h n _ _ (htakes i) (ih (Nat.le_of_succ_le_succ hi) (Nat.le_of_succ_le_succ hj)) a

/-- The number of tokens left bounds a recursion that takes tokens. -/
theorem Guarded.bounded (h : Guarded step) (hx : ∀ n a, x (n + 1) a = step (x n) a)
    (htakes : ∀ n a, Takes 0 (x n a)) : Bounded step x := by
  refine ⟨fun n i j => h.stable hx htakes, fun a s hs => ?_, fun y hy hstep a s hs => ?_⟩
  · have hbound : ∀ a, AgreeUpTo s.cursor.rest.length (toEnd x a) (x s.cursor.rest.length a) :=
      fun a s' hs' hn => h.stable hx htakes (Nat.le_succ _) hn a s' hs' (Nat.le_refl _)
    calc (toEnd x a).run s = (step (x s.cursor.rest.length) a).run s := by rw [← hx]; rfl
      _ = (step (toEnd x) a).run s :=
        (h _ _ _ inferInstance hbound a s hs (Nat.le_succ _)).symm
  · have hbound : ∀ n a, AgreeUpTo n (y a) (x n a) := by
      intro n
      induction n with
      | zero => exact fun _ => agreeUpTo_zero
      | succ n ih =>
          intro a s hs hn
          rw [hstep a s hs, hx]
          exact h n _ _ hy ih a s hs hn
    exact hbound _ a s hs (Nat.le_succ _)

end

/-! ## Rounds -/

/-- How a round of a loop ends. -/
inductive Round (σ α : Type) where
  /-- The loop is over. -/
  | done (result : α)
  /-- The loop goes on, and something is added to its result. -/
  | again (next : σ) (finish : α → α)

/-- What a loop does after a round. -/
def Round.andThen (loop : σ → Parser α) : Round σ α → Parser α
  | .done result => return result
  | .again next finish => return finish (← loop next)

/-- A loop of rounds. -/
def roundThen (round : σ → Parser (Round σ α)) (loop : σ → Parser α) (a : σ) : Parser α :=
  round a >>= Round.andThen loop

/-- The least number of tokens that a round may take. -/
def Round.least : Round σ α → Nat
  | .done _ => 0
  | .again _ _ => 1

/-- From the given state the round fails, or the loop is over, or a token has been taken. -/
def AdvancesAt (x : Parser (Round σ α)) (s : ParserState) : Prop :=
  ∀ r s', x.run s = .ok (r, s') →
    ∃ ts, r.least ≤ ts.length ∧ s.cursor.Passed ts s'.cursor ∧ s'.cursor.Ended

/-- Wherever the end of the text is still to come, the round fails, or the loop is over, or a token
has been taken.  This is found from the parts of the round. -/
class Advances (x : Parser (Round σ α)) : Prop where
  advancesAt : ∀ s, s.cursor.Ended → AdvancesAt x s

section

variable {x y : Parser (Round σ α)} {z : Parser β} {f : β → Parser (Round σ α)} {s : ParserState}

/-- A round takes one token at most before it goes on. -/
theorem Round.least_le_one : (r : Round σ α) → r.least ≤ 1
  | .done _ => Nat.zero_le 1
  | .again _ _ => Nat.le_refl 1

/-- A parser that always takes a token advances. -/
theorem TakesAt.advancesAt (h : TakesAt 1 x s) : AdvancesAt x s := by
  intro r s' hrun
  obtain ⟨ts, hts, hpassed, hended⟩ := h r s' hrun
  exact ⟨ts, Nat.le_trans r.least_le_one hts, hpassed, hended⟩

/-- A parser that takes tokens may come before one that advances. -/
theorem AdvancesAt.before (hz : TakesAt 0 z s)
    (hf : ∀ a s', z.run s = .ok (a, s') → s'.cursor.Ended → AdvancesAt (f a) s') :
    AdvancesAt (z >>= f) s := by
  intro r s'' hrun
  obtain ⟨a, s', hrun, hrun'⟩ := run_bind_eq_ok.mp hrun
  obtain ⟨ts, -, hpassed, hended⟩ := hz a s' hrun
  obtain ⟨us, hus, hpassed', hended'⟩ := hf a s' hrun hended r s'' hrun'
  refine ⟨ts ++ us, ?_, hpassed.trans hpassed', hended'⟩
  rw [List.length_append]
  exact Nat.le_trans hus (Nat.le_add_left _ _)

/-- Whether a parser advances depends on its run only. -/
theorem advancesAt_of_run_eq (h : x.run s = y.run s) (hy : AdvancesAt y s) : AdvancesAt x s :=
  fun r s' hrun => hy r s' (h ▸ hrun)

theorem advancesAt_of_advances [hx : Advances x] (hs : s.cursor.Ended) : AdvancesAt x s :=
  hx.advancesAt s hs

/-- A parser that takes a token wherever it starts advances. -/
theorem advances_of_takes (hx : Takes 1 x) : Advances x :=
  ⟨fun s hs => (hx.takesAt s hs).advancesAt⟩

/-- A parser that takes tokens may come before one that advances everywhere. -/
theorem advances_then (hz : Takes 0 z) (hf : ∀ a, Advances (f a)) : Advances (z >>= f) :=
  ⟨fun s hs => .before (hz.takesAt s hs) fun a s' _ hs' => (hf a).advancesAt s' hs'⟩

instance (priority := low) [hx : Takes 1 x] : Advances x := advances_of_takes hx

instance [hz : Takes 0 z] [hf : ∀ a, Advances (f a)] : Advances (z >>= f) := advances_then hz hf

instance {b : Prop} [Decidable b] [hx : Advances x] [hy : Advances y] :
    Advances (if b then x else y) := by
  split
  · exact hx
  · exact hy

instance (result : α) : Advances (pure (.done result) : Parser (Round σ α)) := by
  refine ⟨fun s hs r s' hrun => ?_⟩
  obtain ⟨rfl, rfl⟩ := run_pure_eq_ok.mp hrun
  exact ⟨[], Nat.le_refl 0, .refl _, hs⟩

end

/-- Rounds that take tokens make a loop that goes on at later places only. -/
theorem guarded_of_advances {round : σ → Parser (Round σ α)} (h : ∀ a, Advances (round a)) :
    Guarded (roundThen round) := by
  intro n x y _ hxy a s hs hn
  refine run_bind_congr rfl fun r s' hrun => ?_
  obtain ⟨ts, hts, hpassed, hended⟩ := (h a).advancesAt s hs r s' hrun
  cases r with
  | done result => rfl
  | again next finish =>
      refine run_bind_congr (hxy next s' hended ?_) fun _ _ _ => rfl
      rw [hpassed.length] at hn
      have hts : 1 ≤ ts.length := hts
      omega

/-- The loop is made of rounds, each of which takes a token if the loop goes on after it, and the
bound on their number never ends the loop. -/
structure Finishes (round : σ → Parser (Round σ α)) (loop : Nat → σ → Parser α) : Prop where
  advances : ∀ a, Advances (round a)
  bounded : Bounded (roundThen round) loop

/-- A loop whose rounds advance finishes. -/
theorem finishes_of_advances {round : σ → Parser (Round σ α)} {loop : Nat → σ → Parser α}
    (h : ∀ a, Advances (round a)) (hloop : ∀ n a, loop (n + 1) a = roundThen round (loop n) a)
    (htakes : ∀ n a, Takes 0 (loop n a)) : Finishes round loop :=
  ⟨h, (guarded_of_advances h).bounded hloop htakes⟩

/-- What advances never goes back. -/
theorem Advances.takes {x : Parser (Round σ α)} (hx : Advances x) : Takes 0 x := by
  refine ⟨fun s hs r s' hrun => ?_⟩
  obtain ⟨ts, -, hpassed, hended⟩ := hx.advancesAt s hs r s' hrun
  exact ⟨ts, Nat.zero_le _, hpassed, hended⟩

/-- The rounds of a loop that finishes never go back. -/
theorem Finishes.takes {round : σ → Parser (Round σ α)} {loop : Nat → σ → Parser α}
    (h : Finishes round loop) (a : σ) : Takes 0 (round a) := (h.advances a).takes

/-- Nothing comes after a fault. -/
theorem expected_bind {what : String} {f : α → Parser β} :
    (expected what : Parser α) >>= f = expected what := rfl

/-! ## Lists, brackets and names -/

section

variable (opening closing : TokenKind)

/-- One item, or the closing token. -/
def untilClosedRound (x : Parser Unit) : Parser (Round Unit Unit) := do
  if ← eat closing then return .done ()
  x
  return .again () id

/-- An item up to a closing token takes a token. -/
theorem takes_untilClosedRound (h : closing ≠ .eof) {x : Parser Unit} [Takes 1 x] :
    Takes 1 (untilClosedRound closing x) := takes_eat_or h

/-- Reading items up to a closing token finishes. -/
theorem untilClosed_finishes {x : Parser Unit} [Takes 1 x] :
    Finishes (fun _ => untilClosedRound closing x) (fun n _ => untilClosed.go closing x n) := by
  refine finishes_of_advances (fun _ => ?_) (fun n _ => ?_) inferInstance
  · unfold untilClosedRound
    infer_instance
  · rw [untilClosed.go, roundThen, untilClosedRound, bind_assoc]
    refine bind_congr fun closed => ?_
    cases closed <;> simp [Round.andThen]

/-- One item of a list, and what comes after it. -/
def commaRound (x : Parser α) : Parser (Round Unit (List α)) := do
  let a ← x
  if ← eat closing then return .done [a]
  let _ ← expect .comma
  return .again () (a :: ·)

/-- A part between commas takes a token. -/
theorem takes_commaRound (h : closing ≠ .eof) {x : Parser α} [Takes 0 x] :
    Takes 1 (commaRound closing x) :=
  takes_then inferInstance fun _ => takes_eat_or h

/-- Reading parts between commas finishes. -/
theorem commaList_finishes {x : Parser α} [Takes 0 x] :
    Finishes (fun _ => commaRound closing x) (fun n _ => commaList.go closing x n) := by
  refine finishes_of_advances (fun _ => ?_) (fun n _ => ?_) inferInstance
  · unfold commaRound
    infer_instance
  · rw [commaList.go, roundThen, commaRound]
    simp only [bind_assoc]
    refine bind_congr fun a => bind_congr fun closed => ?_
    cases closed <;> simp [Round.andThen]

/-- One token between brackets.  The number is that of the brackets still open. -/
def skipRound (depth : Nat) : Parser (Round Nat Unit) := do
  let kind := (← current).kind
  if kind = .eof then expected closing.describe
  advance
  if kind = opening then return .again (depth + 1) id
  else if kind = closing then
    if depth = 0 then return .done () else return .again (depth - 1) id
  else return .again depth id

instance (depth : Nat) : Takes 1 (skipRound opening closing depth) := by
  refine ⟨fun s hs => ?_⟩
  unfold skipRound
  refine takesAt_of_run_eq run_current_bind ?_
  extract_lets kind jp
  have hjp : ∀ r, Takes 0 (jp r) := by
    intro r
    unfold jp
    infer_instance
  split
  · exact takesAt_of_takes hs
  · next hkind => exact (takesAt_advance hkind hs).then_takes

/-- Skipping a group in brackets finishes. -/
theorem skipBalanced_finishes : Finishes (skipRound opening closing)
    (fun n depth => skipBalanced.go opening closing depth n) := by
  refine finishes_of_advances inferInstance (fun n depth => ?_) inferInstance
  · rw [skipBalanced.go, roundThen, skipRound, bind_assoc]
    refine bind_congr fun t => ?_
    by_cases heof : t.kind = .eof
    · simp only [heof, if_true, expected_bind]
    · simp only [heof, if_false, bind_assoc]
      refine bind_congr fun _ => ?_
      split
      · simp [Round.andThen]
      · split
        · split <;> simp [Round.andThen]
        · simp [Round.andThen]

/-- One more part of a name. -/
def nameRound (name : String) : Parser (Round String String) := do
  if (← at_ .doubleColon) && (← nextIs .identifier) then
    advance
    let part ← identifier
    return .again (name ++ "::" ++ part) id
  else return .done name

/-- Reading a path finishes. -/
theorem qualifiedName_finishes : Finishes nameRound (fun n name => qualifiedName.go name n) := by
  refine finishes_of_advances (fun name => ?_) (fun n name => ?_) inferInstance
  · unfold nameRound
    infer_instance
  · rw [qualifiedName.go, roundThen, nameRound]
    simp only [bind_assoc]
    refine bind_congr fun colons => bind_congr fun word => ?_
    split <;> simp [Round.andThen]

/-- One length of an array type. -/
def suffixRound (t : Ty) : Parser (Round Ty Ty) := do
  if ← atArraySuffix then
    advance
    if ← eat .rightBracket then return .again (.array t none) id
    let length ← natural
    let _ ← expect .rightBracket
    return .again (.array t (some length)) id
  else return .done t

/-- Reading array suffixes finishes. -/
theorem arraySuffixes_finishes : Finishes suffixRound arraySuffixes := by
  refine finishes_of_advances (fun t => ⟨fun s hs => ?_⟩) (fun n t => ?_) inferInstance
  · unfold suffixRound
    refine advancesAt_of_run_eq run_atArraySuffix_bind ?_
    split
    · next hkind =>
      simp only [Bool.and_eq_true, decide_eq_true_eq] at hkind
      have hcurrent := kind_current_of_kindAt hkind.1 (by decide)
      exact (takesAt_advance (by rw [hcurrent]; decide) hs).then_takes.advancesAt
    · exact advancesAt_of_advances hs
  · rw [arraySuffixes, roundThen, suffixRound]
    simp only [bind_assoc]
    refine bind_congr fun suffix => ?_
    cases suffix
    · simp [Round.andThen]
    · simp only [if_true, bind_assoc]
      refine bind_congr fun _ => bind_congr fun closed => ?_
      cases closed <;> simp [Round.andThen]

end

/-! ## Selections and paths -/

section

variable (expr : Parser Expr)

/-- One selection after an expression. -/
def selectionRound (e : Expr) : Parser (Round Expr Expr) := do
  if ← at_ .leftBracket then return .again (← indexed expr e) id
  else if (← at_ .dot) && (← nextIs .identifier) then
    advance
    return .again (.member e (← identifier)) id
  else return .done e

/-- Reading selections after an expression finishes. -/
theorem selections_finishes [Takes 0 expr] : Finishes (selectionRound expr) (selections expr) := by
  refine finishes_of_advances (fun e => ?_) (fun n e => ?_) inferInstance
  · unfold selectionRound
    infer_instance
  · rw [selections, roundThen, selectionRound, bind_assoc]
    refine bind_congr fun bracket => ?_
    cases bracket
    · simp only [Bool.false_eq_true, if_false, bind_assoc]
      refine bind_congr fun dot => bind_congr fun word => ?_
      split <;> simp [Round.andThen]
    · simp [Round.andThen]

/-- One name of the path to an endpoint. -/
def pathRound : Parser (Round Unit (List PathSegment)) := do
  let name ← identifier
  let index ← optionalIndex
  if ← eat .dot then return .again () (⟨name, index⟩ :: ·)
  else return .done [⟨name, index⟩]

instance : Takes 1 pathRound := by unfold pathRound; infer_instance

/-- Reading the path of an endpoint finishes. -/
theorem endpointPath_finishes : Finishes (fun _ => pathRound) (fun n _ => endpointPath.go n) := by
  refine finishes_of_advances inferInstance (fun n _ => ?_) inferInstance
  · rw [endpointPath.go, roundThen, pathRound]
    simp only [bind_assoc]
    refine bind_congr fun name => bind_congr fun index => bind_congr fun dot => ?_
    cases dot <;> simp [Round.andThen]

end

/-! ## Bodies -/

section

variable (f : FunctionId) (scope : Scope)

/-- The declaration of one local variable. -/
def localRound (scope : Scope) : Parser (Round Scope Scope) := do
  let first ← current
  match ← localRole with
  | none => return .done scope
  | some role =>
    let (name, declared) ← declaredVariable role
    let _ ← expect .semicolon
    let span ← spanFrom first
    modifyProgram fun p => (p.modifyVariable declared fun v => { v with span }).modifyFunction f
      fun fn => { fn with locals := fn.locals ++ [declared] }
    return .again { scope with vars := (name, declared) :: scope.vars } id

/-- Reading local variables finishes. -/
theorem locals_finishes : Finishes (localRound f) (locals f) := by
  refine finishes_of_advances (fun scope => ?_) (fun n scope => ?_) inferInstance
  · unfold localRound
    refine advances_then inferInstance fun first => advances_then inferInstance fun role => ?_
    split <;> infer_instance
  · rw [locals, roundThen, localRound]
    simp only [bind_assoc]
    refine bind_congr fun first => bind_congr fun role => ?_
    cases role <;> simp [Round.andThen]

/-- One statement, or the end of the block. -/
def statementRound (b : BlockId) : Parser (Round Unit Unit) := do
  match ← terminator scope with
  | some terminator =>
    let _ ← expect .semicolon
    modifyBlock f b fun k => { k with terminator }
    return .done ()
  | none =>
    let s ← statement scope
    modifyBlock f b fun k => { k with statements := k.statements ++ [s] }
    return .again () id

instance (b : BlockId) : Takes 1 (statementRound f scope b) := by
  unfold statementRound
  refine takes_then inferInstance fun found => ?_
  split <;> infer_instance

/-- Reading the statements of a block finishes. -/
theorem blockBody_finishes (b : BlockId) :
    Finishes (fun _ => statementRound f scope b) (fun n _ => blockBody.go scope f b n) := by
  refine finishes_of_advances inferInstance (fun n _ => ?_) inferInstance
  · rw [blockBody.go, roundThen, statementRound, bind_assoc]
    refine bind_congr fun found => ?_
    cases found <;> simp [Round.andThen]

/-- One block, or the end of the body. -/
def blockRound (scope : Scope) : Parser (Round Scope Unit) := do
  if ← eat .rightBrace then return .done ()
  else return .again (← block f scope) id

instance : Takes 1 (blockRound f scope) := takes_eat_or (by decide)

/-- Reading the blocks of a function finishes. -/
theorem blocks_finishes : Finishes (blockRound f) (blocks f) := by
  refine finishes_of_advances inferInstance (fun n scope => ?_) inferInstance
  · rw [blocks, roundThen, blockRound, bind_assoc]
    refine bind_congr fun closed => ?_
    cases closed <;> simp [Round.andThen]

end

/-! ## Modules -/

section

variable (m : ModuleId)

/-- One item, or the end of the module. -/
def itemRound : Parser (Round Unit (List PendingBody)) := do
  if ← eat .rightBrace then return .done []
  let pending ← item m
  return .again () (pending.toList ++ ·)

instance : Takes 1 (itemRound m) := takes_eat_or (by decide)

/-- Reading the items of a module finishes. -/
theorem items_finishes : Finishes (fun _ => itemRound m) (fun n _ => items m n) := by
  refine finishes_of_advances inferInstance (fun n _ => ?_) inferInstance
  · rw [items, roundThen, itemRound, bind_assoc]
    refine bind_congr fun closed => ?_
    cases closed <;> simp [Round.andThen]

/-- One token of a module body, or the name of a struct.  The number is that of the braces still
open. -/
def structNameRound (depth : Nat) : Parser (Round Nat Unit) := do
  let t ← current
  match t.kind with
  | .eof => expected "'\x7d'"
  | .leftBrace => do advance; return .again (depth + 1) id
  | .rightBrace => do
    advance
    if depth = 0 then return .done () else return .again (depth - 1) id
  | _ => do
    advance
    if t.kind = .identifier && t.text = "struct" && depth = 0 then
      let name ← identifier
      let span ← spanFrom t
      let _ ← add (·.addStruct m name span)
    return .again depth id

instance (depth : Nat) : Takes 1 (structNameRound m depth) := by
  refine ⟨fun s hs => ?_⟩
  unfold structNameRound
  refine takesAt_of_run_eq run_current_bind ?_
  generalize ht : s.cursor.current = t
  have hadvance : t.kind ≠ .eof → TakesAt 1 advance s :=
    fun hkind => takesAt_advance (by rwa [ht]) hs
  split
  · exact takesAt_of_takes hs
  · next hkind => exact (hadvance (by rw [hkind]; decide)).then_takes
  · next hkind => exact (hadvance (by rw [hkind]; decide)).then_takes
  · next hkind _ _ => exact (hadvance hkind).then_takes

/-- Looking for the names of structs finishes. -/
theorem structNames_finishes : Finishes (structNameRound m) (structNames m) := by
  refine finishes_of_advances inferInstance (fun n depth => ?_) inferInstance
  · rw [structNames, roundThen, structNameRound, bind_assoc]
    refine bind_congr fun t => ?_
    cases hkind : t.kind
    case eof => rfl
    case leftBrace => simp [Round.andThen]
    case rightBrace =>
      simp only [bind_assoc]
      refine bind_congr fun _ => ?_
      split <;> simp [Round.andThen]
    all_goals
      simp only [bind_assoc]
      refine bind_congr fun _ => ?_
      split <;> simp [Round.andThen]

/-- One module, or the end of the text. -/
def outlineRound : Parser (Round Unit (List Outline)) := do
  if ← at_ .eof then return .done []
  let o ← outline
  return .again () (o :: ·)

/-- Reading the outlines of modules finishes. -/
theorem outlines_finishes : Finishes (fun _ => outlineRound) (fun n _ => outlines n) := by
  refine finishes_of_advances (fun _ => ?_) (fun n _ => ?_) inferInstance
  · unfold outlineRound
    infer_instance
  · rw [outlines, roundThen, outlineRound, bind_assoc]
    refine bind_congr fun ended => ?_
    cases ended <;> simp [Round.andThen]

end

end SignalGraph.Heart.Parser

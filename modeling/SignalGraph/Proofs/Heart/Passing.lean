import SignalGraph.Heart.Parse

/-!
# SignalGraph.Proofs.Heart.Passing

Runs of parsers, from their parts.  What looks at the text and never fails is run away by rewriting
(`run_current_bind` and its like); what can fail has succeeded exactly under a condition
(`run_expect_eq_ok` and its like).  `Passed` says which tokens lie between two places.
-/

namespace SignalGraph.Heart

/-! ## Places -/

namespace Cursor

variable {c c' c'' : Cursor} {ts us : List Token} {t : Token}

/-- The tokens between two places. -/
structure Passed (c : Cursor) (ts : List Token) (c' : Cursor) : Prop where
  rest : c.rest = ts ++ c'.rest
  before : c'.before = ts.getLastD c.before

theorem Passed.refl (c : Cursor) : c.Passed [] c := ⟨rfl, rfl⟩

/-- What is passed in two steps is passed together. -/
theorem Passed.trans (h : c.Passed ts c') (h' : c'.Passed us c'') : c.Passed (ts ++ us) c'' where
  rest := by rw [h.rest, h'.rest, List.append_assoc]
  before := by
    rw [h'.before, h.before]
    cases us with
    | nil => rw [List.append_nil, List.getLastD_nil]
    | cons u us => simp [List.getLastD_eq_getLast?, List.getLast?_append]

/-- The end of the text is still to come. -/
def Ended (c : Cursor) : Prop := ∃ t ∈ c.rest, t.kind = .eof

/-- There is a current token, and all the tokens that are left start with it. -/
theorem Ended.rest (h : c.Ended) : c.rest = c.current :: c.rest.tail := by
  obtain ⟨t, ht, -⟩ := h
  rw [current]
  cases hrest : c.rest with
  | nil =>
      rw [hrest] at ht
      cases ht
  | cons u us => rfl

/-- Passing a token other than the end of the text. -/
theorem Ended.passed_next (h : c.Ended) (hkind : c.current.kind ≠ .eof) :
    c.Passed [c.current] c.next ∧ c.next.Ended := by
  have hrest := h.rest
  have hnext : c.next = ⟨c.current, c.rest.tail⟩ := by
    unfold next
    split
    · next t rest heq =>
      have ht : c.current = t := by simp [current, heq]
      rw [if_neg (by rwa [← ht]), ht, heq]
      rfl
    · next heq =>
      rw [heq] at hrest
      cases hrest
  rw [hnext]
  refine ⟨⟨hrest, rfl⟩, ?_⟩
  obtain ⟨t, ht, heof⟩ := h
  rw [hrest] at ht
  rcases List.mem_cons.mp ht with rfl | ht
  · exact absurd heof hkind
  · exact ⟨t, ht, heof⟩

/-- The first token after an advance was the second one ahead, if it is of another kind. -/
theorem kindAt_one_of_next {kind : TokenKind} (h : c.next.current.kind = kind)
    (hne : c.current.kind ≠ kind) : c.kindAt 1 = kind := by
  unfold next at h
  split at h
  · next t rest hrest =>
    split at h
    · exact absurd h hne
    · cases rest with
      | nil => exact absurd h (by simpa [current, hrest] using hne)
      | cons u rest => simpa [kindAt, current, hrest] using h
  · exact absurd h hne

end Cursor

namespace Parser

variable {α β : Type} {x y : Parser α} {f : α → Parser β} {s s' : ParserState} {kind : TokenKind}

/-! ## Parts -/

/-- Two parsers one after the other succeed if the first does and the second does where it ends. -/
theorem run_bind_eq_ok {r : β × ParserState} :
    (x >>= f).run s = .ok r ↔ ∃ a s', x.run s = .ok (a, s') ∧ (f a).run s' = .ok r := by
  rw [StateT.run_bind]
  cases hx : x.run s with
  | error d => simp [bind, Except.bind]
  | ok y =>
      obtain ⟨a, s'⟩ := y
      simp only [bind, Except.bind, Except.ok.injEq, Prod.mk.injEq]
      refine ⟨fun h => ⟨a, s', ⟨rfl, rfl⟩, h⟩, ?_⟩
      rintro ⟨_, _, ⟨rfl, rfl⟩, h⟩
      exact h

/-- After a parser that succeeds the next one goes on from where it ends. -/
theorem run_bind_of_eq_ok {a : α} (h : x.run s = .ok (a, s')) : (x >>= f).run s = (f a).run s' := by
  rw [StateT.run_bind, h]
  rfl

theorem run_pure_eq_ok {a b : α} : (pure a : Parser α).run s = .ok (b, s') ↔ a = b ∧ s = s' := by
  rw [StateT.run_pure]
  simp [pure, Except.pure]

/-- A failure does not succeed. -/
theorem run_fail_ne_ok {fault : Fault} {span : Span} {r : α × ParserState} :
    (fail fault span).run s = .ok r ↔ False := by
  simp [fail, throw, throwThe, MonadExceptOf.throw, StateT.run, StateT.lift, bind, Except.bind]

/-! ## Looking -/

section

variable {g : Cursor → Parser β} {g' : Token → Parser β} {k : TokenKind → Parser β}
  {b : Bool → Parser β} {n : Nat → Parser β} {u : Unit → Parser β} {q : Program → Parser β}

/-- What the basic parsers do is seen by rewriting: each of them looks at the state or changes it in
one place. -/
@[simp] theorem run_cursor_bind : (cursor >>= g).run s = (g s.cursor).run s := rfl

@[simp] theorem run_current_bind : (current >>= g').run s = (g' s.cursor.current).run s := rfl

@[simp] theorem run_kindAt_bind (i : Nat) :
    (kindAt i >>= k).run s = (k (s.cursor.kindAt i)).run s := rfl

@[simp] theorem run_at_bind : (at_ kind >>= b).run s = (b (s.cursor.current.kind = kind)).run s :=
  rfl

@[simp] theorem run_nextIs_bind :
    (nextIs kind >>= b).run s = (b (s.cursor.kindAt 1 = kind)).run s := rfl

@[simp] theorem run_atKeyword_bind {word : String} : (atKeyword word >>= b).run s =
    (b (s.cursor.current.kind = .identifier && s.cursor.current.text = word)).run s := rfl

@[simp] theorem run_bound_bind : (bound >>= n).run s = (n (s.cursor.rest.length + 1)).run s := rfl

@[simp] theorem run_program_bind : (program >>= q).run s = (q s.program).run s := rfl

@[simp] theorem run_moveTo_bind {c : Cursor} :
    (moveTo c >>= u).run s = (u ()).run { s with cursor := c } := rfl

@[simp] theorem run_advance_bind :
    (advance >>= u).run s = (u ()).run { s with cursor := s.cursor.next } := rfl

@[simp] theorem run_modifyProgram_bind {change : Program → Program} :
    (modifyProgram change >>= u).run s = (u ()).run { s with program := change s.program } := rfl

@[simp] theorem run_add_bind {change : Program → α × Program} : (add change >>= f).run s =
    (f (change s.program).1).run { s with program := (change s.program).2 } := rfl

/-- A token of the kind is passed, and no other. -/
theorem run_eat : (eat kind).run s =
    if s.cursor.current.kind = kind then .ok (true, { s with cursor := s.cursor.next })
    else .ok (false, s) := by
  unfold eat
  rw [run_at_bind]
  split <;> simp_all <;> rfl

/-- What follows is told whether the token was passed. -/
theorem run_eat_bind : (eat kind >>= b).run s =
    if s.cursor.current.kind = kind then (b true).run { s with cursor := s.cursor.next }
    else (b false).run s := by
  split
  · next h => exact run_bind_of_eq_ok (by rw [run_eat, if_pos h])
  · next h => exact run_bind_of_eq_ok (by rw [run_eat, if_neg h])

/-- What follows is told whether the keyword was passed. -/
theorem run_eatKeyword_bind {word : String} :
    (eatKeyword word >>= b).run s =
      if s.cursor.current.kind = .identifier ∧ s.cursor.current.text = word then
        (b true).run { s with cursor := s.cursor.next }
      else (b false).run s := by
  unfold eatKeyword
  rw [bind_assoc, run_atKeyword_bind]
  rw [← Bool.decide_and]
  by_cases hword : s.cursor.current.kind = .identifier ∧ s.cursor.current.text = word
  · simp only [hword, decide_true, if_true, bind_assoc, pure_bind, run_advance_bind, and_self]
  · simp only [hword, decide_false, Bool.false_eq_true, if_false, pure_bind]

end

/-- What is expected is the current token, and it is passed. -/
theorem run_expect_eq_ok {kind : TokenKind} {t : Token} (h : (expect kind).run s = .ok (t, s')) :
    s.cursor.current.kind = kind ∧ t = s.cursor.current ∧
      s' = { s with cursor := s.cursor.next } := by
  rw [expect, run_current_bind, run_eat_bind] at h
  split at h
  · next hkind =>
    obtain ⟨rfl, rfl⟩ := run_pure_eq_ok.mp h
    exact ⟨hkind, rfl, rfl⟩
  · simp only [expected, Bool.false_eq_true, if_false, run_current_bind, run_fail_ne_ok] at h

/-- An identifier is the text of the current token, which is passed. -/
theorem run_identifier_eq_ok {w : String} (h : identifier.run s = .ok (w, s')) :
    s.cursor.current.kind = .identifier ∧ w = s.cursor.current.text ∧
      s' = { s with cursor := s.cursor.next } := by
  obtain ⟨t, s₁, ht, h⟩ := run_bind_eq_ok.mp h
  obtain ⟨hkind, rfl, rfl⟩ := run_expect_eq_ok ht
  obtain ⟨rfl, rfl⟩ := run_pure_eq_ok.mp h
  exact ⟨hkind, rfl, rfl⟩

end Parser

end SignalGraph.Heart

import SignalGraph.Proofs.Heart.Inline
import SignalGraph.Proofs.Heart.Spelling

/-!
# SignalGraph.Proofs.Heart.Lexed

What the lexer promises about its tokens: words are identifiers, and marked names carry their mark
(`proper_of_mem_lex`).  A place is *clean* if all its tokens are proper; parsers go from clean
places to clean places.
-/

namespace SignalGraph.Heart

/-! ## Tokens -/

/-- The text of a token has the form that its kind says. -/
structure Token.Proper (t : Token) : Prop where
  word : t.kind = .identifier → isIdentifier t.text
  localName : t.kind = .localName → isLocalName t.text
  label : t.kind = .blockLabel → t.text.toList.head? = some '@'

theorem Token.proper_eof (file : FileId) (offset : Nat) : (Token.eof file offset).Proper :=
  ⟨nofun, nofun, nofun⟩

/-- A number is an integer or a float. -/
theorem scanNumber_kind (cs : List Char) :
    (scanNumber cs).1 = .integer ∨ (scanNumber cs).1 = .float := by
  unfold scanNumber
  simp only
  split <;> simp

/-- Symbols are no words, names or labels. -/
theorem symbol?_kind {c : Char} {kind : TokenKind} (h : symbol? c = some kind) :
    kind ≠ .identifier ∧ kind ≠ .localName ∧ kind ≠ .blockLabel := by
  unfold symbol? at h
  split at h <;> cases h <;> simp

/-- Words and marked names go on as long as there are characters of names. -/
theorem scan_name {c : Char} {cs : List Char} {kind : TokenKind} {n : Nat}
    (h : scan c cs = (.ok kind, n)) :
    (kind = .identifier → isIdentStart c ∧ n = (cs.takeWhile isIdentChar).length) ∧
    (kind = .localName → c = '$' ∧ n ≠ 0 ∧ n = (cs.takeWhile isIdentChar).length) ∧
    (kind = .blockLabel → c = '@') := by
  -- all tokens of other kinds make the three statements empty
  have other : ∀ {k : TokenKind}, k = kind → k ≠ .identifier ∧ k ≠ .localName ∧ k ≠ .blockLabel →
      (kind = .identifier → isIdentStart c ∧ n = (cs.takeWhile isIdentChar).length) ∧
      (kind = .localName → c = '$' ∧ n ≠ 0 ∧ n = (cs.takeWhile isIdentChar).length) ∧
      (kind = .blockLabel → c = '@') := by
    rintro k rfl ⟨hword, hlocal, hlabel⟩
    exact ⟨fun hk => absurd hk hword, fun hk => absurd hk hlocal, fun hk => absurd hk hlabel⟩
  have hnumber : ∀ ds : List Char, (scanNumber ds).1 ≠ .identifier ∧
      (scanNumber ds).1 ≠ .localName ∧ (scanNumber ds).1 ≠ .blockLabel := by
    intro ds
    rcases scanNumber_kind ds with hkind | hkind <;> simp [hkind]
  unfold scan at h
  simp only at h
  split at h
  · next hmark =>
    split at h
    · simp at h
    · next hnames =>
      simp only [Prod.mk.injEq, Except.ok.injEq] at h
      obtain ⟨rfl, rfl⟩ := h
      simp only [Bool.or_eq_true, beq_iff_eq] at hmark
      rcases hmark with rfl | rfl <;> simp [hnames]
  · split at h
    · simp only [Prod.mk.injEq] at h
      split at h
      · exact other (Except.ok.inj h.1) ⟨nofun, nofun, nofun⟩
      · simp at h
    · split at h
      · simp only [Prod.mk.injEq, Except.ok.injEq] at h
        exact other h.1 (hnumber _)
      · split at h
        · simp only [Prod.mk.injEq, Except.ok.injEq] at h
          exact other h.1 ⟨nofun, nofun, nofun⟩
        · split at h
          · simp only [Prod.mk.injEq, Except.ok.injEq] at h
            exact other h.1 ⟨nofun, nofun, nofun⟩
          · split at h
            · simp only [Prod.mk.injEq, Except.ok.injEq] at h
              exact other h.1 (hnumber _)
            · split at h
              · next hstart =>
                simp only [Prod.mk.injEq, Except.ok.injEq] at h
                obtain ⟨rfl, rfl⟩ := h
                simp [hstart]
              · split at h
                · next k hk =>
                  simp only [Prod.mk.injEq, Except.ok.injEq] at h
                  exact other h.1 (symbol?_kind hk)
                · simp at h

/-- The longest first part that passes a test is found by its length. -/
theorem take_takeWhile {α : Type} (p : α → Bool) (l : List α) :
    l.take (l.takeWhile p).length = l.takeWhile p := by
  induction l with
  | nil => rfl
  | cons a l ih => cases h : p a <;> simp [h, ih]

/-- A token that is scanned has the text that its kind demands. -/
theorem proper_of_scan {c : Char} {cs : List Char} {kind : TokenKind} {n : Nat}
    {span : Span} (h : scan c cs = (.ok kind, n)) :
    (⟨kind, String.ofList (c :: cs.take n), span⟩ : Token).Proper := by
  obtain ⟨hword, hlocal, hlabel⟩ := scan_name h
  refine ⟨fun hkind => ?_, fun hkind => ?_, fun hkind => ?_⟩
  · obtain ⟨hstart, rfl⟩ := hword hkind
    simp only [isIdentifier, String.toList_ofList, hstart, take_takeWhile, Bool.true_and]
    exact List.all_takeWhile
  · obtain ⟨rfl, hn, rfl⟩ := hlocal hkind
    have hne : (cs.takeWhile isIdentChar).isEmpty = false := by
      cases hcs : cs.takeWhile isIdentChar with
      | nil => simp [hcs] at hn
      | cons d ds => rfl
    simp only [isLocalName, String.toList_ofList, take_takeWhile, hne, beq_self_eq_true,
      Bool.not_false, Bool.true_and]
    exact List.all_takeWhile
  · simp [hlabel hkind]

/-- All tokens of a text have the texts that their kinds demand. -/
theorem proper_of_mem_lexFrom {file : FileId} {offset : Nat} {cs : List Char} {tokens : List Token}
    (h : lexFrom file offset cs = .ok tokens) : ∀ t ∈ tokens, t.Proper := by
  induction hn : cs.length using Nat.strongRecOn generalizing offset cs tokens with
  | ind n ih =>
      rw [lexFrom_eq] at h
      have hlength := length_splitTrivia_snd_le false cs
      cases hrest : (splitTrivia false cs).2 with
      | nil =>
          rw [hrest, lexRest] at h
          cases h
          simpa using Token.proper_eof _ _
      | cons c rest =>
          rw [hrest, lexRest] at h
          rw [hrest, List.length_cons] at hlength
          split at h
          · cases h
          · next kind hkind =>
            generalize hstop : offset + _ + _ = stop at h
            cases htokens : lexFrom file stop (rest.drop (scan c rest).2) with
            | error e => simp [htokens, bind, Except.bind] at h
            | ok tokens' =>
                simp only [htokens, bind, Except.bind, pure, Except.pure, Except.ok.injEq] at h
                subst h
                have htail := ih (rest.drop (scan c rest).2).length
                  (by rw [List.length_drop]; omega) htokens rfl
                refine List.forall_mem_cons.mpr ⟨proper_of_scan ?_, htail⟩
                exact Prod.ext hkind rfl

/-- Every token of a text has the form that its kind says. -/
theorem proper_of_mem_lex {file : FileId} {text : String} {tokens : List Token}
    (h : lex file text = .ok tokens) : ∀ t ∈ tokens, t.Proper := proper_of_mem_lexFrom h

/-! ## Places -/

namespace Cursor

variable {c c' : Cursor}

/-- Everything that can be the current token from here on is proper. -/
structure Clean (c : Cursor) : Prop where
  before : c.before.Proper
  rest : ∀ t ∈ c.rest, t.Proper

/-- The current token has the text that its kind demands. -/
theorem Clean.current (h : c.Clean) : c.current.Proper := by
  rw [Cursor.current]
  cases hrest : c.rest with
  | nil => exact h.before
  | cons t rest => exact h.rest t (by simp [hrest])

/-- After some tokens the others are as they were. -/
theorem Clean.passed {ts : List Token} (h : c.Clean) (hpassed : c.Passed ts c') : c'.Clean where
  before := by
    rw [hpassed.before, List.getLastD_eq_getLast?]
    cases hts : ts.getLast? with
    | none => exact h.before
    | some t =>
        refine h.rest t ?_
        rw [hpassed.rest]
        exact List.mem_append_left _ (List.mem_of_getLast? hts)
  rest t ht := h.rest t (by rw [hpassed.rest]; exact List.mem_append_right _ ht)

/-- After one token the others are as they were. -/
theorem Clean.next (h : c.Clean) : c.next.Clean := by
  unfold Cursor.next
  split
  · next t rest hrest =>
    split
    · exact h
    · exact ⟨h.rest t (by simp [hrest]), fun u hu => h.rest u (by simp [hrest, hu])⟩
  · exact h

/-- The parser starts with the tokens of the lexer. -/
theorem clean_start {file : FileId} {text : String} {tokens : List Token}
    (h : lex file text = .ok tokens) : (start file tokens).Clean :=
  ⟨Token.proper_eof file 0, proper_of_mem_lex h⟩

end Cursor

namespace Parser

variable {α : Type} {x : Parser α} {s s' : ParserState} {a : α}

/-- A parser that passes tokens leaves the others as they were. -/
theorem InlineAt.clean (hx : InlineAt x s) (hrun : x.run s = .ok (a, s')) (h : s.cursor.Clean) :
    s'.cursor.Clean := by
  obtain ⟨ts, hpassed, -⟩ := hx a s' hrun
  exact h.passed hpassed

theorem Inline.clean [hx : Inline x] (hrun : x.run s = .ok (a, s')) (h : s.cursor.Clean) :
    s'.cursor.Clean := (hx.inlineAt s).clean hrun h

end Parser

end SignalGraph.Heart

import SignalGraph.Heart.Print

/-!
# SignalGraph.Proofs.Heart.Spelling

Texts as sequences of lexemes.  A *lexeme* is a token without its place.

* `Sealed s ls`: the text `s` is cut into the lexemes `ls`, whatever follows it;
* `Spelled s ls`: the same, as long as what follows cannot go on with the last lexeme (`Closed`).

Both are closed under appending, so the lexemes of a written construct follow from those of its
parts.  The rest of the module is about the parts: blanks and symbols, words, numbers, and quoted
texts.
-/

namespace SignalGraph.Heart

/-- The kind and the text of a token. -/
abbrev Lexeme := TokenKind × String

/-- A token without its place. -/
def Token.lexeme (t : Token) : Lexeme := (t.kind, t.text)

/-- The text is cut into the given lexemes, from any offset on. -/
def LexesTo (cs : List Char) (ls : List Lexeme) : Prop :=
  ∀ file offset, ∃ tokens stop, lexFrom file offset cs = .ok (tokens ++ [.eof file stop]) ∧
    tokens.map Token.lexeme = ls

/-- What follows cannot go on with a word or a number: it does not start with a letter, a digit or
an underscore, nor with a point and a digit. -/
def Closed : List Char → Prop
  | [] => True
  | c :: cs => isIdentChar c = false ∧ (c = '.' → cs.head?.any Char.isDigit = false)

/-- The text is cut into the lexemes, whatever follows. -/
def Sealed (s : String) (ls : List Lexeme) : Prop :=
  ∀ rest us, LexesTo rest us → LexesTo (s.toList ++ rest) (ls ++ us)

/-- The text is cut into the lexemes if what follows does not go on with the last of them. -/
def Spelled (s : String) (ls : List Lexeme) : Prop :=
  ∀ rest us, Closed rest → LexesTo rest us → LexesTo (s.toList ++ rest) (ls ++ us)

/-- The text starts with something that ends a word or a number. -/
def Opens (s : String) : Prop := ∀ rest, Closed (s.toList ++ rest)

/-! ## Appending -/

/-- What is written with a seal is written. -/
theorem Sealed.spelled {s : String} {ls : List Lexeme} (h : Sealed s ls) : Spelled s ls :=
  fun rest us _ hrest => h rest us hrest

theorem sealed_nil : Sealed "" [] := fun _ _ h => h

section Append

variable {a b : String} {la lb : List Lexeme}

/-- Two texts with a seal are put together. -/
theorem Sealed.append (ha : Sealed a la) (hb : Sealed b lb) : Sealed (a ++ b) (la ++ lb) := by
  intro rest us hrest
  rw [String.toList_append, List.append_assoc, List.append_assoc]
  exact ha _ _ (hb rest us hrest)

/-- After a seal any text may follow. -/
theorem Sealed.append_spelled (ha : Sealed a la) (hb : Spelled b lb) :
    Spelled (a ++ b) (la ++ lb) := by
  intro rest us hclosed hrest
  rw [String.toList_append, List.append_assoc, List.append_assoc]
  exact ha _ _ (hb rest us hclosed hrest)

/-- After a text without a seal one must follow that no word goes on with. -/
theorem Spelled.append_sealed (ha : Spelled a la) (hopens : Opens b) (hb : Sealed b lb) :
    Sealed (a ++ b) (la ++ lb) := by
  intro rest us hrest
  rw [String.toList_append, List.append_assoc, List.append_assoc]
  exact ha _ _ (hopens rest) (hb rest us hrest)

/-- Two texts are put together if the second does not go on with a word of the first. -/
theorem Spelled.append (ha : Spelled a la) (hopens : Opens b) (hb : Spelled b lb) :
    Spelled (a ++ b) (la ++ lb) := by
  intro rest us hclosed hrest
  rw [String.toList_append, List.append_assoc, List.append_assoc]
  exact ha _ _ (hopens rest) (hb rest us hclosed hrest)

/-- Only the first character counts. -/
theorem Opens.append (h : Opens a) (b : String) : Opens (a ++ b) := by
  intro rest
  rw [String.toList_append, List.append_assoc]
  exact h _

end Append

/-- A text whose first character is no letter, digit, underscore or point opens. -/
theorem opens_of_head {s : String} (h : s.toList.head?.any (fun c => !isIdentChar c && c != '.')) :
    Opens s := by
  intro rest
  cases hs : s.toList with
  | nil => simp [hs] at h
  | cons c cs =>
      simp only [hs, List.head?_cons, Option.any_some, Bool.and_eq_true, Bool.not_eq_true',
        bne_iff_ne] at h
      exact ⟨h.1, fun hdot => absurd hdot h.2⟩

/-! ## The end and single tokens -/

/-- The tokens of a text without leading blanks and comments. -/
def lexRest (file : FileId) (start : Nat) : List Char → Except Diagnostic (List Token)
  | [] => .ok [.eof file start]
  | c :: rest =>
    let lexeme := c :: rest.take (scan c rest).2
    let stop := start + Text.byteLength lexeme
    match (scan c rest).1 with
    | .error fault => .error (fault.diagnose ⟨file, start, stop⟩)
    | .ok kind => do
      let tokens ← lexFrom file stop (rest.drop (scan c rest).2)
      return ⟨kind, String.ofList lexeme, ⟨file, start, stop⟩⟩ :: tokens

/-- The lexer passes over blanks and comments, and then cuts off a token. -/
theorem lexFrom_eq (file : FileId) (offset : Nat) (cs : List Char) :
    lexFrom file offset cs = lexRest file (offset + Text.byteLength (splitTrivia false cs).1)
      (splitTrivia false cs).2 := by
  rw [lexFrom]
  split
  · next h => rw [h, lexRest]
  · next h => rw [h]; rfl

theorem lexesTo_nil : LexesTo [] [] := by
  intro file offset
  exact ⟨[], offset, lexFrom_eq file offset [], rfl⟩

/-- Blanks are passed over. -/
theorem LexesTo.blank {c : Char} {cs : List Char} {ls : List Lexeme} (hc : isBlank c)
    (h : LexesTo cs ls) : LexesTo (c :: cs) ls := by
  intro file offset
  obtain ⟨tokens, stop, hlex, hls⟩ := h file (offset + c.utf8Size)
  have hcomment : (c == '/' && cs.head? == some '/') = false := by
    cases hslash : c == '/' with
    | false => rfl
    | true => rw [eq_of_beq hslash] at hc; contradiction
  have htrivia : splitTrivia false (c :: cs) =
      (c :: (splitTrivia false cs).1, (splitTrivia false cs).2) := by
    simp [splitTrivia, hc, hcomment]
  refine ⟨tokens, stop, ?_, hls⟩
  rw [← hlex, lexFrom_eq, lexFrom_eq file (offset + c.utf8Size), htrivia]
  simp [Text.byteLength, Nat.add_assoc]

/-- A token is what the scanner makes of it. -/
theorem LexesTo.token {c : Char} (cs : List Char) {rest : List Char} {kind : TokenKind}
    {ls : List Lexeme} (hblank : isBlank c = false)
    (hcomment : (c == '/' && (cs ++ rest).head? == some '/') = false)
    (hscan : scan c (cs ++ rest) = (.ok kind, cs.length)) (h : LexesTo rest ls) :
    LexesTo (c :: cs ++ rest) ((kind, String.ofList (c :: cs)) :: ls) := by
  intro file offset
  have htrivia : splitTrivia false (c :: (cs ++ rest)) = ([], c :: (cs ++ rest)) := by
    simp only [splitTrivia, hblank, hcomment, Bool.or_self, Bool.false_eq_true, if_false]
  obtain ⟨tokens, stop, hlex, rfl⟩ := h file (offset + Text.byteLength (c :: cs))
  refine ⟨⟨kind, String.ofList (c :: cs), ⟨file, offset, offset + Text.byteLength (c :: cs)⟩⟩ ::
    tokens, stop, ?_, rfl⟩
  rw [List.cons_append, lexFrom_eq, htrivia]
  simp only [lexRest, hscan, List.take_left, List.drop_left, Text.byteLength, Nat.add_zero]
  rw [Text.byteLength] at hlex
  rw [hlex]
  rfl

/-! ## Words -/

/-- Whether a text is the name of a local variable: a dollar sign and then a name. -/
def isLocalName (s : String) : Bool :=
  match s.toList with
  | c :: cs => c == '$' && !cs.isEmpty && cs.all isIdentChar
  | [] => false

/-- What may start a word may stand in it. -/
theorem isIdentChar_of_isIdentStart {c : Char} (h : isIdentStart c) : isIdentChar c := by
  simp only [isIdentStart, isIdentChar, Bool.or_eq_true, Char.isAlphanum] at h ⊢
  exact h.imp_left .inl

/-- A name is read up to where what follows starts. -/
theorem takeWhile_isIdentChar_append {cs rest : List Char} (hcs : cs.all isIdentChar)
    (hrest : Closed rest) : (cs ++ rest).takeWhile isIdentChar = cs := by
  rw [List.takeWhile_append_of_pos (by simpa using hcs)]
  cases rest with
  | nil => simp
  | cons c rest => simp [hrest.1]

/-- No word starts with a digit. -/
theorem isDigit_of_isIdentStart {c : Char} (h : isIdentStart c) : c.isDigit = false := by
  cases hc : c.isDigit with
  | false => rfl
  | true =>
      simp only [Char.isDigit, Bool.and_eq_true, decide_eq_true_eq] at hc
      simp only [isIdentStart, Bool.or_eq_true, beq_iff_eq] at h
      rcases h with halpha | rfl
      · have hletter : c.isUpper ∨ c.isLower := (Bool.or_eq_true _ _).mp halpha
        rcases hletter with hupper | hlower
        · exact absurd (Nat.le_trans (of_decide_eq_true hupper).1 hc.2) (by decide)
        · have hbounds := (Bool.and_eq_true _ _).mp hlower
          exact absurd (Nat.le_trans (of_decide_eq_true hbounds.1) hc.2) (by decide)
      · exact absurd hc.2 (by decide)

/-- What is neither a mark of its own nor a digit can only be a word or a symbol. -/
theorem scan_of_isIdentStart {c : Char} {cs : List Char} (h : isIdentStart c) :
    scan c cs = (.ok .identifier, (cs.takeWhile isIdentChar).length) := by
  have hne : ∀ d : Char, isIdentStart d = false → (c == d) = false := by
    intro d hd
    cases hcd : c == d with
    | false => rfl
    | true => rw [eq_of_beq hcd, hd] at h; contradiction
  have hdigit := isDigit_of_isIdentStart h
  simp [scan, hne '$' rfl, hne '@' rfl, hne '"' rfl, hne '-' rfl, hne ':' rfl, hdigit, h]

/-- No character of a word is blank. -/
theorem isBlank_of_isIdentChar {c : Char} (h : isIdentChar c) : isBlank c = false := by
  cases hc : isBlank c with
  | false => rfl
  | true =>
      simp only [isBlank, Bool.or_eq_true, beq_iff_eq] at hc
      rcases hc with (((rfl | rfl) | rfl) | rfl) | rfl <;> contradiction

/-- An identifier is one token, up to the first character that is not part of a word. -/
theorem spelled_word {s : String} (h : isIdentifier s) : Spelled s [(.identifier, s)] := by
  intro rest us hclosed hrest
  rw [isIdentifier] at h
  cases hs : s.toList with
  | nil => simp [hs] at h
  | cons c cs =>
      simp only [hs, Bool.and_eq_true] at h
      have hslash : (c == '/') = false := by
        cases hc : c == '/' with
        | false => rfl
        | true => rw [eq_of_beq hc] at h; exact absurd h.1 (by decide)
      have hscan : scan c (cs ++ rest) = (.ok .identifier, cs.length) := by
        rw [scan_of_isIdentStart h.1, takeWhile_isIdentChar_append h.2 hclosed]
      have htoken := LexesTo.token _ (isBlank_of_isIdentChar (isIdentChar_of_isIdentStart h.1))
        (by simp [hslash]) hscan hrest
      rw [← hs, String.ofList_toList] at htoken
      rw [← hs]
      exact htoken

/-- The name of a local variable is one token. -/
theorem spelled_localName {s : String} (h : isLocalName s) : Spelled s [(.localName, s)] := by
  intro rest us hclosed hrest
  rw [isLocalName] at h
  cases hs : s.toList with
  | nil => simp [hs] at h
  | cons c cs =>
      simp only [hs, Bool.and_eq_true, beq_iff_eq, Bool.not_eq_true'] at h
      obtain ⟨⟨rfl, hne⟩, hall⟩ := h
      have hlen : cs.length ≠ 0 := by simpa using hne
      have hscan : scan '$' (cs ++ rest) = (.ok .localName, cs.length) := by
        rw [scan, takeWhile_isIdentChar_append hall hclosed]
        simp [hlen]
      have htoken := LexesTo.token _ rfl rfl hscan hrest
      rw [← hs, String.ofList_toList] at htoken
      rw [← hs]
      exact htoken

/-! ## Numbers -/

/-- Digits may stand in a word. -/
theorem isIdentChar_of_isDigit {c : Char} (h : c.isDigit) : isIdentChar c := by
  simp [isIdentChar, Char.isAlphanum, h]

/-- What follows a word does not start with a character of words. -/
theorem Closed.head?_ne {c : Char} {rest : List Char} (h : Closed rest) (hc : isIdentChar c) :
    rest.head? ≠ some c := by
  cases rest with
  | nil => simp
  | cons d rest =>
      rintro heq
      simp only [List.head?_cons, Option.some.injEq] at heq
      rw [heq] at h
      simp [h.1] at hc

/-- A number ends before what follows a word. -/
theorem digitCount_append (cs : List Char) {rest : List Char} (h : Closed rest) :
    digitCount (cs ++ rest) = digitCount cs := by
  have hrest : rest.takeWhile Char.isDigit = [] := by
    cases rest with
    | nil => rfl
    | cons c rest =>
        cases hc : c.isDigit with
        | false => simp [hc]
        | true => exact absurd (h.1.symm.trans (isIdentChar_of_isDigit hc)) (by decide)
  induction cs with
  | nil => simp [digitCount, hrest]
  | cons c cs ih =>
      simp only [digitCount, List.cons_append, List.takeWhile_cons] at ih ⊢
      split <;> simp [ih]

/-- There are no more digits than characters. -/
theorem digitCount_le (cs : List Char) : digitCount cs ≤ cs.length :=
  (List.takeWhile_sublist _).length_le

/-- A fraction ends before what follows a word. -/
theorem fractionLength_append {cs rest : List Char} (h : Closed rest) :
    fractionLength (cs ++ rest) = fractionLength cs := by
  cases cs with
  | nil =>
      cases rest with
      | nil => rfl
      | cons c rest =>
          by_cases hc : c = '.'
          · subst hc
            have hzero : digitCount rest = 0 := by
              have hdigit := h.2 rfl
              cases rest with
              | nil => rfl
              | cons d rest =>
                  simp only [List.head?_cons, Option.any_some] at hdigit
                  simp [digitCount, hdigit]
            simp [fractionLength, hzero]
          · simp [fractionLength, hc]
  | cons c cs =>
      by_cases hc : c = '.'
      · subst hc
        simp [fractionLength, digitCount_append _ h]
      · simp [fractionLength, hc]

/-- An exponent is read up to where what follows starts, unless its letter ends the text. -/
theorem exponentLength_append {cs rest : List Char} (h : Closed rest)
    (hcs : cs = [] ∨ exponentLength cs ≠ 0 ∨
      ∃ c ds, cs = c :: ds ∧ (c == 'e' || c == 'E') = false) :
    exponentLength (cs ++ rest) = exponentLength cs := by
  rcases hcs with rfl | hne | ⟨c, ds, rfl, hc⟩
  · cases rest with
    | nil => rfl
    | cons c rest =>
        have hc : (c == 'e' || c == 'E') = false := by
          simp only [Bool.or_eq_false_iff, beq_eq_false_iff_ne]
          constructor <;> rintro rfl <;> exact absurd h.1 (by decide)
        simp [exponentLength, hc]
  · cases cs with
    | nil => simp [exponentLength] at hne
    | cons c cs =>
        cases cs with
        | nil => simp [exponentLength, digitCount] at hne
        | cons d ds =>
            by_cases hsign : d = '+' ∨ d = '-'
            · simp [exponentLength, hsign, digitCount_append _ h]
            · have hcount := digitCount_append (d :: ds) h
              rw [List.cons_append] at hcount
              simp [exponentLength, hsign, hcount]
  · simp [exponentLength, hc]

/-- A fraction is no longer than the text. -/
theorem fractionLength_le (cs : List Char) : fractionLength cs ≤ cs.length := by
  fun_cases fractionLength cs with
  | case1 cs h => simp
  | case2 cs h =>
      have := digitCount_le cs
      simp only [List.length_cons]
      omega
  | case3 => simp

/-- An exponent is no longer than the text. -/
theorem exponentLength_le (cs : List Char) : exponentLength cs ≤ cs.length := by
  cases cs with
  | nil => simp [exponentLength]
  | cons c cs =>
      simp only [exponentLength, List.length_cons]
      generalize (if (cs.head? == some '+' || cs.head? == some '-') = true then 1 else 0) = sign
      have hcount := digitCount_le (cs.drop sign)
      simp only [List.length_drop] at hcount
      split
      · split <;> omega
      · omega

/-- A number that takes a whole text takes as much of it when something else follows. -/
theorem scanNumber_append (cs : List Char) {rest : List Char} {kind : TokenKind} (h : Closed rest)
    (hcs : scanNumber cs = (kind, cs.length)) : scanNumber (cs ++ rest) = (kind, cs.length) := by
  have hdrop : ∀ n, n ≤ cs.length → (cs ++ rest).drop n = cs.drop n ++ rest :=
    fun n hn => List.drop_append_of_le_length hn
  have hwhole := digitCount_le cs
  have hfraction := fractionLength_le (cs.drop (digitCount cs))
  simp only [scanNumber] at hcs ⊢
  rw [digitCount_append cs h, hdrop _ hwhole, fractionLength_append h]
  generalize hf : fractionLength (cs.drop (digitCount cs)) = f at *
  generalize digitCount cs = w at *
  have hexponent := exponentLength_le (cs.drop (w + f))
  simp only [List.length_drop] at hfraction hexponent
  -- the letter of an exponent without digits would be left over
  have hexp : exponentLength (cs.drop (w + f) ++ rest) = exponentLength (cs.drop (w + f)) := by
    refine exponentLength_append h ?_
    cases hds : cs.drop (w + f) with
    | nil => exact .inl rfl
    | cons c es =>
        by_cases hzero : exponentLength (c :: es) = 0
        · refine .inr (.inr ⟨c, es, rfl, ?_⟩)
          cases he : c == 'e' || c == 'E' with
          | false => rfl
          | true =>
              have hlength := congrArg List.length hds
              simp only [List.length_drop, List.length_cons] at hlength
              have hc : c ≠ 'L' ∧ c ≠ 'f' := by
                simp only [Bool.or_eq_true, beq_iff_eq] at he
                rcases he with rfl | rfl <;> decide
              simp only [hds, hzero, Nat.add_zero, List.head?_cons, Option.some.injEq, hc.1, hc.2,
                if_false] at hcs
              split at hcs
              · have := congrArg Prod.snd hcs
                simp only at this
                omega
              · have := congrArg Prod.snd hcs
                simp only at this
                omega
        · exact .inr (.inl hzero)
  rw [hdrop _ (by omega), hexp]
  generalize exponentLength (cs.drop (w + f)) = e at *
  rw [hdrop _ (by omega)]
  -- what follows starts with no letter that a number could end in
  cases hds : cs.drop (w + f + e) with
  | nil =>
      simp only [List.nil_append, h.head?_ne (c := 'L') rfl, h.head?_ne (c := 'f') rfl, if_false]
      simpa [hds] using hcs
  | cons c ds => simpa [hds] using hcs

/-- Whether a text is one number of the given kind. -/
def isNumber (kind : TokenKind) (s : String) : Bool :=
  match s.toList with
  | '-' :: cs => cs.head?.any Char.isDigit && scanNumber cs == (kind, cs.length)
  | c :: cs => c.isDigit && scanNumber (c :: cs) == (kind, cs.length + 1)
  | [] => false

/-- A number is one token, up to the first character that is not part of a word. -/
theorem spelled_number {kind : TokenKind} {s : String} (h : isNumber kind s) :
    Spelled s [(kind, s)] := by
  intro rest us hclosed hrest
  -- it is enough to know what the lexer scans at the first character
  have hlex : ∀ c cs, s.toList = c :: cs → isBlank c = false → (c == '/') = false →
      scan c (cs ++ rest) = (.ok kind, cs.length) →
      LexesTo (s.toList ++ rest) ((kind, s) :: us) := by
    intro c cs hs hblank hslash hscan
    have htoken := LexesTo.token _ hblank (by simp [hslash]) hscan hrest
    rwa [← hs, String.ofList_toList] at htoken
  have hhead : ∀ {cs : List Char} {p : Char → Bool}, cs.head?.any p → (cs ++ rest).head?.any p := by
    intro cs p hcs
    cases cs with
    | nil => simp at hcs
    | cons c cs => simpa using hcs
  unfold isNumber at h
  split at h
  · next cs hs =>
    simp only [Bool.and_eq_true, beq_iff_eq] at h
    refine hlex _ cs hs rfl rfl ?_
    simp only [scan, hhead h.1, scanNumber_append _ hclosed h.2]
    rfl
  · next c cs hne hs =>
    simp only [Bool.and_eq_true, beq_iff_eq] at h
    have hdigit : ∀ d : Char, d.isDigit = false → (c == d) = false := by
      intro d hd
      cases hcd : c == d with
      | false => rfl
      | true => rw [eq_of_beq hcd, hd] at h; exact absurd h.1 (by decide)
    refine hlex c cs hs (isBlank_of_isIdentChar (isIdentChar_of_isDigit h.1)) (hdigit '/' rfl) ?_
    have hnumber := scanNumber_append (c :: cs) hclosed (by simpa using h.2)
    simp only [List.cons_append, List.length_cons] at hnumber
    simp [scan, hdigit '$' rfl, hdigit '@' rfl, hdigit '"' rfl, hdigit '-' rfl, hdigit ':' rfl, h.1,
      hnumber]
  · simp at h

/-! ## Integers -/

/-- The digits of an integer, with its sign if it is negative. -/
theorem toList_toString_int (n : Int) :
    (toString n).toList =
      if n < 0 then '-' :: Nat.toDigits 10 n.natAbs else Nat.toDigits 10 n.natAbs := by
  rw [Int.toString_eq_repr, Int.repr_eq_if]
  split
  · next h =>
    rw [if_neg (by omega)]
    simp [show n.toNat = n.natAbs by omega]
  · next h =>
    rw [if_pos (by omega)]
    simp [show (-n).toNat = n.natAbs by omega]

/-- A natural number is written with at least one digit, and with digits only. -/
theorem toDigits_eq_cons (n : Nat) :
    ∃ d ds, Nat.toDigits 10 n = d :: ds ∧ d.isDigit ∧ ds.all Char.isDigit := by
  cases h : Nat.toDigits 10 n with
  | nil => exact absurd h Nat.toDigits_ne_nil
  | cons d ds =>
      have hall : ∀ c ∈ d :: ds, c.isDigit := by
        intro c hc
        rw [← h] at hc
        exact Nat.isDigit_of_mem_toDigits (by decide) (by decide) hc
      simp only [List.mem_cons, forall_eq_or_imp] at hall
      exact ⟨d, ds, rfl, hall.1, List.all_eq_true.mpr hall.2⟩

/-- Digits are scanned as one integer. -/
theorem scanNumber_digits (cs : List Char) (h : cs.all Char.isDigit) :
    scanNumber cs = (.integer, cs.length) := by
  have hcount : digitCount cs = cs.length := by
    have htake : cs.takeWhile Char.isDigit = cs := by
      rw [← List.append_nil cs, List.takeWhile_append_of_pos (by simpa using h), List.takeWhile_nil]
    rw [digitCount, htake]
  simp [scanNumber, hcount, fractionLength, exponentLength]

/-- Digits with a suffix are scanned as one integer. -/
theorem scanNumber_long (cs : List Char) (h : cs.all Char.isDigit) :
    scanNumber (cs ++ ['L']) = (.integer, cs.length + 1) := by
  have hcount : digitCount (cs ++ ['L']) = cs.length := by
    rw [digitCount, List.takeWhile_append_of_pos (by simpa using h)]
    simp
  simp [scanNumber, hcount, fractionLength, exponentLength]

theorem ne_minus_of_isDigit {d : Char} (h : d.isDigit) : d ≠ '-' := by
  rintro rfl
  contradiction

/-- Digits that are scanned as a number make one with a sign as well. -/
theorem isNumber_of_digits {kind : TokenKind} {s : String} {d : Char} (ds : List Char)
    (hs : s.toList = d :: ds ∨ s.toList = '-' :: d :: ds) (hd : d.isDigit)
    (hscan : scanNumber (d :: ds) = (kind, ds.length + 1)) : isNumber kind s := by
  rcases hs with hs | hs
  · simp [isNumber, hs, hd, hscan, ne_minus_of_isDigit hd]
  · simp [isNumber, hs, hd, hscan]

/-- An integer is written as a number. -/
theorem isNumber_toString (n : Int) : isNumber .integer (toString n) := by
  obtain ⟨d, ds, hdigits, hd, hds⟩ := toDigits_eq_cons n.natAbs
  have hs := toList_toString_int n
  rw [hdigits] at hs
  refine isNumber_of_digits ds ?_ hd (scanNumber_digits (d :: ds) (by simp [hd, hds]))
  split at hs
  · exact .inr hs
  · exact .inl hs

/-- An integer with the suffix of long ones is written as a number. -/
theorem isNumber_long (n : Int) : isNumber .integer (toString n ++ "L") := by
  obtain ⟨d, ds, hdigits, hd, hds⟩ := toDigits_eq_cons n.natAbs
  have hs := toList_toString_int n
  rw [hdigits] at hs
  have hlong := scanNumber_long (d :: ds) (by simp [hd, hds])
  refine isNumber_of_digits (ds ++ ['L']) ?_ hd (by simpa using hlong)
  rw [String.toList_append, hs]
  split
  · exact .inr rfl
  · exact .inl rfl

/-- A natural number is written as a number. -/
theorem isNumber_nat (n : Nat) : isNumber .integer (toString n) := isNumber_toString n

/-! ## Quoted texts -/

/-- A character that is escaped stays within the string. -/
theorem scanString_escapeChar (c : Char) (cs : List Char) :
    scanString (escapeChar c ++ cs) =
      ((scanString cs).1 + (escapeChar c).length, (scanString cs).2) := by
  unfold escapeChar
  split <;> simp_all [scanString]

/-- An escaped text is scanned up to the quote that follows it. -/
theorem scanString_escaped (cs rest : List Char) :
    scanString (cs.flatMap escapeChar ++ '"' :: rest) =
      ((cs.flatMap escapeChar).length + 1, true) := by
  induction cs with
  | nil => rfl
  | cons c cs ih =>
      rw [List.flatMap_cons, List.append_assoc, scanString_escapeChar, ih]
      simp [Nat.add_comm, Nat.add_left_comm]

/-- A quoted text ends with its quote, whatever follows. -/
theorem sealed_escape (s : String) : Sealed (escape s) [(.stringLiteral, escape s)] := by
  intro rest us hrest
  have hscan : scan '"' (s.toList.flatMap escapeChar ++ ['"'] ++ rest) =
      (.ok .stringLiteral, (s.toList.flatMap escapeChar ++ ['"']).length) := by
    simp [scan, scanString_escaped]
  have htoken := LexesTo.token _ rfl rfl hscan hrest
  rw [escape, String.toList_ofList]
  exact htoken

/-- Escaping loses nothing. -/
theorem unescape_escape (s : String) : unescape (escape s) = s := by
  simp [unescape, escape, unquote, unescapeChars_flatMap_escapeChar]

end SignalGraph.Heart

import SignalGraph.Proofs.Heart.Spelling

/-!
# SignalGraph.Proofs.Heart.Phrases

The fixed parts of written constructs, and how parts are put together: keywords and symbols
(`literal`), lists with a separator, and names that are paths.
-/

namespace SignalGraph.Heart

/-! ## Keywords and symbols -/

/-- The lexemes of a text of words, symbols and blanks.  There are none if its last token depends
on what follows.  The number bounds the tokens and blanks. -/
def literal : Nat → List Char → Option (List Lexeme)
  | _, [] => some []
  | 0, _ :: _ => none
  | n + 1, c :: cs =>
    if isBlank c then literal n cs
    else if isIdentStart c then
      if (cs.dropWhile isIdentChar).isEmpty then none
      else (literal n (cs.dropWhile isIdentChar)).map
        ((.identifier, String.ofList (c :: cs.takeWhile isIdentChar)) :: ·)
    else if c == ':' && cs.head? == some ':' then
      (literal n cs.tail).map ((.doubleColon, "::") :: ·)
    else if c == '-' && cs.head? == some '>' then (literal n cs.tail).map ((.arrow, "->") :: ·)
    else if (c == ':' || c == '/') && (cs.isEmpty || cs.head? == some '/') then none
    else
      match symbol? c with
      | some kind => (literal n cs).map ((kind, String.ofList [c]) :: ·)
      | none => none

/-- A symbol is one character, unless two colons make one. -/
theorem scan_symbol {c : Char} {cs : List Char} {kind : TokenKind} (h : symbol? c = some kind)
    (hcolon : (c == ':' && cs.head? == some ':') = false) : scan c cs = (.ok kind, 0) := by
  have hclass : (c == '$' || c == '@') = false ∧ (c == '"') = false ∧ (c == '-') = false ∧
      c.isDigit = false ∧ isIdentStart c = false := by
    unfold symbol? at h
    split at h <;> first | decide | cases h
  obtain ⟨hmark, hquote, hminus, hdigit, hstart⟩ := hclass
  simp only [scan, hmark, hquote, hminus, hcolon, hdigit, hstart, h, Bool.false_and]
  rfl

/-- No symbol is blank. -/
theorem isBlank_of_symbol? {c : Char} {kind : TokenKind} (h : symbol? c = some kind) :
    isBlank c = false := by
  unfold symbol? at h
  split at h <;> first | decide | cases h

/-- What the reader of fixed phrases finds is what the lexer finds, whatever follows. -/
theorem literal_lexes {n : Nat} {cs : List Char} {ls : List Lexeme} (h : literal n cs = some ls)
    {rest : List Char} {us : List Lexeme} (hrest : LexesTo rest us) :
    LexesTo (cs ++ rest) (ls ++ us) := by
  fun_induction literal n cs generalizing ls with
  | case1 =>
      simp only [Option.some.injEq] at h
      subst h
      exact hrest
  | case2 => cases h
  | case3 n c cs hblank ih => exact .blank hblank (ih h)
  | case4 => cases h
  | case5 n c cs hblank hstart hne ih =>
      obtain ⟨ls, hls, rfl⟩ := Option.map_eq_some_iff.mp h
      -- the word ends where the phrase says so, and no letter of the rest can join it
      have hword : (cs.dropWhile isIdentChar ++ rest).takeWhile isIdentChar = [] := by
        cases hd : cs.dropWhile isIdentChar with
        | nil => simp [hd] at hne
        | cons d ds =>
            -- a colon or a slash is never the last character, so the next one is known
            have hhead := List.head?_dropWhile_not isIdentChar cs
            rw [hd] at hhead
            simp at hhead
            simp [hhead]
      have hsplit : cs ++ rest =
          cs.takeWhile isIdentChar ++ (cs.dropWhile isIdentChar ++ rest) := by
        rw [← List.append_assoc, List.takeWhile_append_dropWhile]
      have hscan : scan c (cs.takeWhile isIdentChar ++ (cs.dropWhile isIdentChar ++ rest)) =
          (.ok .identifier, (cs.takeWhile isIdentChar).length) := by
        rw [scan_of_isIdentStart hstart, List.takeWhile_append_of_pos
          (List.all_eq_true.mp List.all_takeWhile), hword]
        simp
      have hslash : (c == '/') = false := by
        cases hc : c == '/' with
        | false => rfl
        | true => rw [eq_of_beq hc] at hstart; exact absurd hstart (by decide)
      have htoken := LexesTo.token _ (by simpa using hblank) (by simp [hslash]) hscan (ih hls)
      rw [List.cons_append, hsplit]
      exact htoken
  | case6 n c cs hblank hstart hcolon ih =>
      obtain ⟨ls, hls, rfl⟩ := Option.map_eq_some_iff.mp h
      simp only [Bool.and_eq_true, beq_iff_eq, List.head?_eq_some_iff] at hcolon
      obtain ⟨rfl, cs, rfl⟩ := hcolon
      exact LexesTo.token [':'] rfl rfl rfl (ih hls)
  | case7 n c cs hblank hstart hcolon harrow ih =>
      obtain ⟨ls, hls, rfl⟩ := Option.map_eq_some_iff.mp h
      simp only [Bool.and_eq_true, beq_iff_eq, List.head?_eq_some_iff] at harrow
      obtain ⟨rfl, cs, rfl⟩ := harrow
      exact LexesTo.token ['>'] rfl rfl rfl (ih hls)
  | case8 => cases h
  | case9 n c cs hblank hstart hcolon harrow hlast kind hkind ih =>
      obtain ⟨ls, hls, rfl⟩ := Option.map_eq_some_iff.mp h
      have hhead : c = ':' ∨ c = '/' → (cs ++ rest).head? = cs.head? := by
        intro hc
        cases cs with
        | nil => simp [hc] at hlast
        | cons d ds => rfl
      have hslash : (c == '/' && (cs ++ rest).head? == some '/') = false := by
        cases hc : c == '/' with
        | false => rfl
        | true =>
            rw [hhead (.inr (eq_of_beq hc))]
            simp only [hc, Bool.or_true, Bool.true_and, Bool.or_eq_true, not_or] at hlast
            simpa using hlast.2
      have hdouble : (c == ':' && (cs ++ rest).head? == some ':') = false := by
        cases hc : c == ':' with
        | false => rfl
        | true =>
            rw [hhead (.inl (eq_of_beq hc))]
            simpa [hc] using hcolon
      exact LexesTo.token [] (isBlank_of_symbol? hkind) hslash
        (scan_symbol hkind hdouble) (ih hls)
  | case10 => cases h

/-- A fixed phrase stands for its lexemes, whatever follows. -/
theorem sealed_literal {s : String} {ls : List Lexeme} (h : literal s.length s.toList = some ls) :
    Sealed s ls :=
  fun _ _ hrest => literal_lexes h hrest

/-- A text of words and symbols that ends whatever stands before it. -/
structure Mark (s : String) (ls : List Lexeme) : Prop where
  opens : Opens s
  isSealed : Sealed s ls

/-- A fixed phrase that starts with no character of words stands apart. -/
theorem mark_literal {s : String} {ls : List Lexeme}
    (h : literal s.length s.toList = some ls ∧
      s.toList.head?.any (fun c => !isIdentChar c && c != '.')) : Mark s ls :=
  ⟨opens_of_head h.2, sealed_literal h.1⟩

section Marks

variable {a m : String} {la lm : List Lexeme}

/-- After a text a mark may follow. -/
theorem Spelled.mark (ha : Spelled a la) (hm : Mark m lm) : Sealed (a ++ m) (la ++ lm) :=
  ha.append_sealed hm.opens hm.isSealed

end Marks

/-- The phrases that the printer puts between parts. -/
theorem mark_openParen : Mark " (" [(.leftParen, "(")] := mark_literal (by decide)

theorem mark_closeParen : Mark ")" [(.rightParen, ")")] := mark_literal (by decide)

theorem mark_comma : Mark ", " [(.comma, ",")] := mark_literal (by decide)

theorem mark_openBracket : Mark "[" [(.leftBracket, "[")] := mark_literal (by decide)

theorem mark_closeBracket : Mark "]" [(.rightBracket, "]")] := mark_literal (by decide)

/-! ## Lists -/

section Lists

variable {α : Type} {f : α → String} {g : α → List Lexeme}

/-- Texts with a separator between them. -/
theorem spelled_intercalate {sep : String} {l : Lexeme} (hsep : Sealed sep [l]) :
    ∀ {xs : List α}, (∀ x ∈ xs, Spelled (f x) (g x)) → (∀ x ∈ xs, Opens (sep ++ f x)) →
      Spelled (sep.intercalate (xs.map f)) ([l].intercalate (xs.map g))
  | [], _, _ => sealed_nil.spelled
  | [x], hf, _ => by simpa using hf x (by simp)
  | x :: y :: xs, hf, hopens => by
      have hfs : ∀ z ∈ y :: xs, Spelled (f z) (g z) := fun z hz => hf z (by simp [hz])
      have ih := spelled_intercalate hsep hfs fun z hz => hopens z (by simp [hz])
      have hrest : Opens (sep ++ sep.intercalate ((y :: xs).map f)) := by
        have hy := hopens y (by simp)
        cases xs with
        | nil => simpa using hy
        | cons z xs =>
            simp only [List.map_cons, String.intercalate_cons_cons, ← String.append_assoc]
            exact (hy.append sep).append _
      have happend := (hf x (by simp)).append hrest (hsep.append_spelled ih)
      simpa only [List.map_cons, String.intercalate_cons_cons, List.intercalate_cons_cons,
        String.append_assoc, List.append_assoc] using happend

/-- Parts with commas between them have the lexemes of the parts with commas between them. -/
theorem spelled_commaSeparated {xs : List α} (h : ∀ x ∈ xs, Spelled (f x) (g x)) :
    Spelled (commaSeparated (xs.map f)) ([(.comma, ",")].intercalate (xs.map g)) :=
  spelled_intercalate mark_comma.isSealed h fun _ _ => mark_comma.opens.append _

end Lists

/-! ## Names -/

/-- The parts of a path; the first argument is the part read so far, last character first. -/
def splitParts (word : List Char) : List Char → List String
  | ':' :: ':' :: cs => String.ofList word.reverse :: splitParts [] cs
  | c :: cs => splitParts (c :: word) cs
  | [] => [String.ofList word.reverse]

/-- The parts of a name, which stand between `::`. -/
def nameParts (s : String) : List String := splitParts [] s.toList

/-- Whether a text is a name: identifiers joined by `::`. -/
def isName (s : String) : Bool := (nameParts s).all isIdentifier

/-- The lexemes of identifiers joined by `::`. -/
def joinedLexemes (parts : List String) : List Lexeme :=
  [(.doubleColon, "::")].intercalate (parts.map fun w => [(.identifier, w)])

/-- The lexemes of the path to something in a module. -/
def pathLexemes (owner name : String) : List Lexeme := joinedLexemes (nameParts owner ++ [name])

/-- A path has at least one part. -/
theorem splitParts_ne_nil (word cs : List Char) : splitParts word cs ≠ [] := by
  fun_induction splitParts word cs with
  | case1 => simp
  | case2 _ _ _ _ ih => exact ih
  | case3 => simp

/-- Splitting a path loses nothing. -/
theorem intercalate_splitParts (word cs : List Char) :
    "::".intercalate (splitParts word cs) = String.ofList (word.reverse ++ cs) := by
  fun_induction splitParts word cs with
  | case1 word cs ih =>
      rw [String.intercalate_cons_of_ne_nil (splitParts_ne_nil _ _), ih]
      apply String.toList_injective
      simp
  | case2 word c cs _ ih => rw [ih]; simp
  | case3 word => simp

/-- A name is its parts joined. -/
theorem intercalate_nameParts (s : String) : "::".intercalate (nameParts s) = s := by
  rw [nameParts, intercalate_splitParts]
  simp

/-- A name has at least one part. -/
theorem nameParts_ne_nil (s : String) : nameParts s ≠ [] := splitParts_ne_nil _ _

/-- A path is the parts of its owner and the name joined. -/
theorem intercalate_path (owner name : String) :
    "::".intercalate (nameParts owner ++ [name]) = owner ++ "::" ++ name := by
  rw [String.intercalate_append_of_ne_nil (nameParts_ne_nil owner) (by simp),
    intercalate_nameParts, String.intercalate_singleton]

theorem mark_doubleColon : Mark "::" [(.doubleColon, "::")] := mark_literal (by decide)

/-- Identifiers joined to a path have the lexemes of the path. -/
theorem spelled_joined {parts : List String} (h : parts.all isIdentifier) :
    Spelled ("::".intercalate parts) (joinedLexemes parts) := by
  have hparts := spelled_intercalate (f := id) (g := fun w => [(.identifier, w)])
    mark_doubleColon.isSealed (fun w hw => spelled_word (List.all_eq_true.mp h w hw))
    (fun w _ => mark_doubleColon.opens.append w)
  rw [List.map_id] at hparts
  exact hparts

/-- A path of an owner and a name has the lexemes of the path. -/
theorem spelled_path {owner name : String} (howner : isName owner) (hname : isIdentifier name) :
    Spelled (owner ++ "::" ++ name) (pathLexemes owner name) := by
  have hparts : (nameParts owner ++ [name]).all isIdentifier := by
    simpa [isName, hname] using howner
  have hjoined := spelled_joined hparts
  rwa [intercalate_path] at hjoined

end SignalGraph.Heart

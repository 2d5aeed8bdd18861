import SignalGraph.Heart.Parser.Expr
import SignalGraph.Proofs.Heart.Passing
import SignalGraph.Proofs.Heart.Phrases

/-!
# SignalGraph.Proofs.Heart.Running

Running parsers on known lexemes.  `Yields x ls q a us` says that the parser `x`, started before the
lexemes `ls` with the program `q`, succeeds with the answer `a` before the lexemes `us`, and leaves
the program as it is.  It is built along a parser's steps: one rule for a sequence, one for each
primitive.  Where the lexemes stand in the text plays no part.
-/

namespace SignalGraph.Heart

namespace Cursor

variable {c : Cursor} {l : Lexeme} {ls : List Lexeme}

/-- The lexemes after the place. -/
def lexemes (c : Cursor) : List Lexeme := c.rest.map Token.lexeme

/-- A place before a known lexeme. -/
theorem eq_of_lexemes (h : c.lexemes = l :: ls) :
    ∃ t rest, c.rest = t :: rest ∧ t.lexeme = l ∧ rest.map Token.lexeme = ls := by
  cases hc : c.rest with
  | nil => simp [lexemes, hc] at h
  | cons t rest =>
      simp only [lexemes, hc, List.map_cons, List.cons.injEq] at h
      exact ⟨t, rest, rfl, h.1, h.2⟩

/-- The current token is the first lexeme that is left. -/
theorem current_of_lexemes (h : c.lexemes = l :: ls) : c.current.lexeme = l := by
  obtain ⟨t, rest, hrest, ht, -⟩ := eq_of_lexemes h
  rw [current, hrest, List.headD_cons, ht]

/-- After a token the other lexemes are left. -/
theorem lexemes_next (h : c.lexemes = l :: ls) (hl : l.1 ≠ .eof) : c.next.lexemes = ls := by
  obtain ⟨t, rest, hrest, rfl, rfl⟩ := eq_of_lexemes h
  simp only [next, hrest]
  rw [if_neg (show t.kind ≠ .eof from hl)]
  rfl

/-- The kind of the first lexeme; the end of the text if there is none. -/
def kindOf (ls : List Lexeme) : TokenKind := (ls.head?.map (·.1)).getD .eof

@[simp] theorem kindOf_cons (l : Lexeme) (ls : List Lexeme) : kindOf (l :: ls) = l.1 := rfl

/-- Looking ahead sees the lexemes that are left. -/
theorem kindAt_eq (c : Cursor) (n : Nat) : c.kindAt n = kindOf (c.lexemes.drop n) := by
  simp [kindAt, kindOf, lexemes, Token.lexeme, Function.comp_def]

end Cursor

namespace Parser

export Cursor (kindOf kindOf_cons)

variable {α β : Type} {x : Parser α} {a : α} {b : β} {ls us : List Lexeme} {q : Program}

/-- The parser reads the lexemes up to `us` as `a`, and leaves the program as it is. -/
def Yields (x : Parser α) (ls : List Lexeme) (q : Program) (a : α) (us : List Lexeme) : Prop :=
  ∀ c : Cursor, c.lexemes = ls → ∃ c' : Cursor, c'.lexemes = us ∧ x.run ⟨c, q⟩ = .ok (a, ⟨c', q⟩)

/-! ## Sequences -/

/-- Answering takes nothing. -/
theorem Yields.pure : Yields (pure a) ls q a ls := fun c hc => ⟨c, hc, rfl⟩

/-- Parsers one after the other: the second reads what the first leaves. -/
theorem Yields.bind {f : α → Parser β} {ws : List Lexeme} (hx : Yields x ls q a us)
    (hf : Yields (f a) us q b ws) : Yields (x >>= f) ls q b ws := by
  intro c hc
  obtain ⟨c', hc', hrun⟩ := hx c hc
  obtain ⟨c'', hc'', hrun'⟩ := hf c' hc'
  exact ⟨c'', hc'', (run_bind_of_eq_ok hrun).trans hrun'⟩

/-- A step that reads nothing, with an answer that is known up to a property. -/
theorem Yields.look {f : α → Parser β} {P : α → Prop}
    (hx : ∀ c : Cursor, c.lexemes = ls → ∃ a, P a ∧ x.run ⟨c, q⟩ = .ok (a, ⟨c, q⟩))
    (hf : ∀ a, P a → Yields (f a) ls q b us) : Yields (x >>= f) ls q b us := by
  intro c hc
  obtain ⟨a, ha, hrun⟩ := hx c hc
  obtain ⟨c', hc', hrun'⟩ := hf a ha c hc
  exact ⟨c', hc', (run_bind_of_eq_ok hrun).trans hrun'⟩

/-! ## Looking -/

section Looking

variable {l : Lexeme} {k : TokenKind} {w : String}

/-- Looking at the current token takes nothing. -/
theorem Yields.current {f : Token → Parser β}
    (h : ∀ t : Token, t.lexeme = l → Yields (f t) (l :: ls) q b us) :
    Yields (current >>= f) (l :: ls) q b us :=
  .look (fun c hc => ⟨c.current, c.current_of_lexemes hc, rfl⟩) h

/-- The bound on what is left is one more than the number of lexemes. -/
theorem Yields.bound {f : Nat → Parser β} (h : Yields (f (ls.length + 1)) ls q b us) :
    Yields (bound >>= f) ls q b us :=
  .look (P := (· = ls.length + 1))
    (fun c hc => ⟨_, by rw [← hc, Cursor.lexemes, List.length_map], rfl⟩) fun _ hn => hn ▸ h

/-- Looking at the program takes nothing. -/
theorem Yields.program {f : Program → Parser β} (h : Yields (f q) ls q b us) :
    Yields (program >>= f) ls q b us :=
  .look (P := (· = q)) (fun _ _ => ⟨_, rfl, rfl⟩) fun _ hq => hq ▸ h

/-- Looking ahead takes nothing. -/
theorem Yields.kindAt {n : Nat} {f : TokenKind → Parser β}
    (h : Yields (f (kindOf (ls.drop n))) ls q b us) : Yields (kindAt n >>= f) ls q b us :=
  .look (P := (· = kindOf (ls.drop n))) (fun c hc => ⟨_, by rw [c.kindAt_eq, hc], rfl⟩)
    fun _ hk => hk ▸ h

/-- Looking at the token after the current one takes nothing. -/
theorem Yields.nextIs {f : Bool → Parser β}
    (h : Yields (f (decide (kindOf (ls.drop 1) = k))) ls q b us) :
    Yields (nextIs k >>= f) ls q b us :=
  .look (P := (· = decide (kindOf (ls.drop 1) = k)))
    (fun c hc => ⟨_, by rw [← hc, ← c.kindAt_eq], rfl⟩) fun _ hk => hk ▸ h

/-- Looking at the kind of the current token takes nothing. -/
theorem Yields.at_ {f : Bool → Parser β} (h : Yields (f (decide (l.1 = k))) (l :: ls) q b us) :
    Yields (at_ k >>= f) (l :: ls) q b us := by
  refine .look (P := (· = decide (l.1 = k))) (fun c hc => ⟨_, ?_, rfl⟩) fun _ hk => hk ▸ h
  rw [← c.current_of_lexemes hc]
  rfl

/-- A keyword is seen exactly if the current lexeme is that word. -/
theorem Yields.atKeyword {f : Bool → Parser β}
    (h : Yields (f (decide (l = (.identifier, w)))) (l :: ls) q b us) :
    Yields (atKeyword w >>= f) (l :: ls) q b us := by
  refine .look (P := (· = decide (l = (.identifier, w)))) (fun c hc => ⟨_, ?_, rfl⟩)
    fun _ hk => hk ▸ h
  rw [← c.current_of_lexemes hc, Token.lexeme]
  simp [Prod.ext_iff]

end Looking

/-! ## Moving -/

section Moving

variable {l : Lexeme} {k : TokenKind} {w : String}

/-- One lexeme is taken, unless it is the end. -/
theorem Yields.advance {f : Unit → Parser β} (hl : l.1 ≠ .eof) (h : Yields (f ()) ls q b us) :
    Yields (advance >>= f) (l :: ls) q b us :=
  .bind (a := ()) (fun c hc => ⟨c.next, c.lexemes_next hc hl, rfl⟩) h

/-- A lexeme of the kind is taken. -/
theorem Yields.eat {f : Bool → Parser β} {s : String} (hk : k ≠ .eof)
    (h : Yields (f true) ls q b us) : Yields (eat k >>= f) ((k, s) :: ls) q b us := by
  refine .bind (a := true) ?_ h
  unfold Parser.eat
  refine .at_ ?_
  simp only [decide_true, if_true]
  exact .advance hk .pure

/-- A lexeme of another kind is left. -/
theorem Yields.eat_not {f : Bool → Parser β} (hl : l.1 ≠ k)
    (h : Yields (f false) (l :: ls) q b us) : Yields (Parser.eat k >>= f) (l :: ls) q b us := by
  refine .bind (a := false) ?_ h
  unfold Parser.eat
  exact .at_ (by simpa [hl] using .pure)

/-- The keyword is taken. -/
theorem Yields.eatKeyword {f : Bool → Parser β} (h : Yields (f true) ls q b us) :
    Yields (eatKeyword w >>= f) ((.identifier, w) :: ls) q b us := by
  refine .bind (a := true) ?_ h
  unfold Parser.eatKeyword
  refine .atKeyword ?_
  simp only [decide_true, if_true]
  exact .advance (by simp) .pure

/-- Another lexeme is left. -/
theorem Yields.eatKeyword_not {f : Bool → Parser β} (hl : l ≠ (.identifier, w))
    (h : Yields (f false) (l :: ls) q b us) :
    Yields (Parser.eatKeyword w >>= f) (l :: ls) q b us := by
  refine .bind (a := false) ?_ h
  unfold Parser.eatKeyword
  exact .atKeyword (by simpa [hl] using .pure)

/-- A lexeme of the expected kind is taken. -/
theorem Yields.expect {f : Token → Parser β} {s : String} (hk : k ≠ .eof)
    (h : ∀ t : Token, t.lexeme = (k, s) → Yields (f t) ls q b us) :
    Yields (expect k >>= f) ((k, s) :: ls) q b us := by
  rw [Parser.expect, bind_assoc]
  refine .current fun t ht => ?_
  rw [bind_assoc]
  refine .eat hk ?_
  rw [if_pos rfl, pure_bind]
  exact h t ht

/-- A word is read as an identifier. -/
theorem yields_identifier : Yields identifier ((.identifier, w) :: ls) q w ls :=
  .expect (by decide) fun _ ht => by
    rw [show w = _ from (congrArg Prod.snd ht).symm]
    exact .pure

/-- A word is read as an identifier, and what follows. -/
theorem Yields.identifier {f : String → Parser β} (h : Yields (f w) ls q b us) :
    Yields (identifier >>= f) ((.identifier, w) :: ls) q b us := yields_identifier.bind h

/-- What is added is there already. -/
theorem Yields.add {f : α → Parser β} {g : Program → α × Program} (hg : (g q).2 = q)
    (h : Yields (f (g q).1) ls q b us) : Yields (add g >>= f) ls q b us := by
  refine .bind (fun c hc => ⟨c, hc, ?_⟩) h
  have hrun : (Parser.add g).run ⟨c, q⟩ = .ok ((g q).1, ⟨c, (g q).2⟩) := rfl
  rw [hrun, hg]

end Moving

/-! ## Numbers -/

/-- An integer that is written in decimal is read again. -/
theorem readInt?_toString (n : Int) : readInt? (toString n).toList = some n := by
  obtain ⟨d, ds, hdigits, hd, hds⟩ := toDigits_eq_cons n.natAbs
  have hvalue := Nat.ofDigitChars_ten_toDigits (n := n.natAbs)
  rw [Nat.ofDigitChars_eq_foldl, hdigits] at hvalue
  have hany : ((d :: ds).isEmpty || (d :: ds).any (!·.isDigit)) = false := by
    simpa [hd] using hds
  rw [toList_toString_int, hdigits]
  split
  · next hn =>
    simp only [readInt?, hany, Bool.false_eq_true, if_false, if_true]
    rw [hvalue]
    simp only [Option.some.injEq]
    omega
  · next hn =>
    unfold readInt?
    split
    next neg digits heq =>
    split at heq
    · next heq' => exact absurd (List.cons.inj heq').1 (ne_minus_of_isDigit hd)
    · simp only [Prod.mk.injEq] at heq
      rw [← heq.1, ← heq.2, hany, hvalue]
      simp only [Bool.false_eq_true, if_false, Option.some.injEq]
      omega

/-- An integer within bounds that is written in decimal is read again. -/
theorem readIntIn?_toString {lo hi n : Int} (hlo : lo ≤ n) (hhi : n ≤ hi) :
    readIntIn? lo hi (toString n).toList = some n := by
  rw [readIntIn?, readInt?_toString]
  simp [hlo, hhi]

/-- A natural number of 32 bits that is written in decimal is read again. -/
theorem yields_natural {n : Nat} (h : n < UInt32.size) :
    Yields natural ((.integer, toString n) :: ls) q n ls := by
  refine .expect (by decide) fun t ht => ?_
  have htext : t.text = toString (n : Int) := congrArg Prod.snd ht
  have hminus : t.text.startsWith "-" = false := by
    obtain ⟨d, ds, hdigits, hd, _⟩ := toDigits_eq_cons n
    rw [String.startsWith_string_eq_false_iff, htext, toList_toString_int, if_neg (by omega)]
    simp only [Int.natAbs_natCast, hdigits]
    rintro ⟨rest, hrest⟩
    exact ne_minus_of_isDigit hd (List.cons.inj hrest).1.symm
  have hread : readIntIn? 0 (UInt32.size - 1) t.text.toList = some (n : Int) := by
    rw [htext]
    exact readIntIn?_toString (by omega) (by omega)
  simp only [hminus, Bool.false_eq_true, if_false, hread]
  exact .pure

/-- A natural number is read, and what follows. -/
theorem Yields.natural {n : Nat} {f : Nat → Parser β} (hn : n < UInt32.size)
    (h : Yields (f n) ls q b us) :
    Yields (natural >>= f) ((.integer, toString n) :: ls) q b us := (yields_natural hn).bind h

/-! ## Lists -/

section Lists

variable {item : Parser α} {close : TokenKind} {s : String} {g : α → List Lexeme}
  {follow : List Lexeme}

/-- The item reads what is written for an element, as long as a comma or the closing token
follows. -/
structure YieldsItem (item : Parser α) (close : TokenKind) (g : α → List Lexeme) (q : Program)
    (a : α) : Prop where
  starts : ∃ l ls, g a = l :: ls ∧ l.1 ≠ close
  reads : ∀ l follow, l.1 = .comma ∨ l.1 = close →
    Yields item (g a ++ l :: follow) q a (l :: follow)

/-- Items between commas are read one by one, by induction on their number. -/
theorem yields_commaList_go (hclose : close ≠ .eof ∧ close ≠ .comma) {n : Nat} {a : α}
    {as : List α} (hn : as.length < n) (hitems : ∀ a' ∈ a :: as, YieldsItem item close g q a') :
    Yields (commaList.go close item n)
      ([(.comma, ",")].intercalate ((a :: as).map g) ++ (close, s) :: follow) q (a :: as)
      follow := by
  induction as generalizing a n with
  | nil =>
      obtain ⟨n, rfl⟩ : ∃ m, n = m + 1 := ⟨n - 1, by simp only [List.length_nil] at hn; omega⟩
      simp only [List.map_cons, List.map_nil, List.intercalate_singleton]
      exact ((hitems a (by simp)).reads (close, s) follow (.inr rfl)).bind (.eat hclose.1 .pure)
  | cons a' as ih =>
      obtain ⟨n, rfl⟩ : ∃ m, n = m + 1 := ⟨n - 1, by omega⟩
      rw [List.map_cons, List.map_cons, List.intercalate_cons_cons, List.append_assoc,
        List.append_assoc]
      refine ((hitems a (by simp)).reads (.comma, ",") _ (.inl rfl)).bind ?_
      refine .eat_not (Ne.symm hclose.2) (.expect (by decide) fun _ _ => ?_)
      have hrest := ih (n := n) (Nat.lt_of_succ_lt_succ hn)
        fun a'' ha'' => hitems a'' (List.mem_cons_of_mem _ ha'')
      exact hrest.bind .pure

/-- There are no more items than lexemes, so the bound suffices. -/
theorem length_le_intercalate {as : List α} (h : ∀ a ∈ as, g a ≠ []) :
    as.length ≤ ([(.comma, ",")].intercalate (as.map g)).length := by
  induction as with
  | nil => simp
  | cons a as ih =>
      have ha := List.length_pos_iff.mpr (h a (by simp))
      have hrest := ih fun a' ha' => h a' (by simp [ha'])
      cases as with
      | nil => simpa [Nat.succ_le_iff] using ha
      | cons a' as =>
          rw [List.map_cons, List.map_cons, List.intercalate_cons_cons, ← List.map_cons]
          simp only [List.length_append, List.length_cons, List.length_nil] at hrest ⊢
          omega

/-- Items between commas, up to the closing token, are read again. -/
theorem yields_commaList {as : List α} (hclose : close ≠ .eof ∧ close ≠ .comma)
    (hitems : ∀ a ∈ as, YieldsItem item close g q a) :
    Yields (commaList close item)
      ([(.comma, ",")].intercalate (as.map g) ++ (close, s) :: follow) q as follow := by
  cases as with
  | nil => exact .eat hclose.1 .pure
  | cons a as =>
      have hnonempty : ∀ a' ∈ a :: as, g a' ≠ [] := by
        intro a' ha'
        obtain ⟨l, ls, hl, -⟩ := (hitems a' ha').starts
        simp [hl]
      have hlength := length_le_intercalate hnonempty
      obtain ⟨l, ls, hl, hlclose⟩ := (hitems a (by simp)).starts
      obtain ⟨ls', hls'⟩ : ∃ ls',
          [(.comma, ",")].intercalate ((a :: as).map g) ++ (close, s) :: follow = l :: ls' := by
        rw [List.map_cons, hl, List.intercalate_cons_cons_left]
        exact ⟨_, rfl⟩
      have htotal := congrArg List.length hls'
      have hn : as.length < (l :: ls').length + 1 := by
        simp only [List.length_append, List.length_cons] at htotal hlength ⊢
        omega
      have hgo : Yields (commaList.go close item ((l :: ls').length + 1))
          ([(.comma, ",")].intercalate ((a :: as).map g) ++ (close, s) :: follow) q
            (a :: as) follow :=
        yields_commaList_go hclose hn hitems
      rw [hls'] at hgo ⊢
      exact .eat_not hlclose (.bound hgo)

end Lists

/-! ## Names -/

section Names

variable {l : Lexeme} {follow : List Lexeme}

/-- The lexemes of the parts of a name after the first one. -/
def partLexemes (parts : List String) : List Lexeme :=
  parts.flatMap fun w => [(.doubleColon, "::"), (.identifier, w)]

/-- The first part of a path is a word. -/
theorem joinedLexemes_cons (w : String) (parts : List String) :
    joinedLexemes (w :: parts) = (.identifier, w) :: partLexemes parts := by
  induction parts generalizing w with
  | nil => rfl
  | cons v parts ih =>
      have hcons : joinedLexemes (w :: v :: parts) =
          (.identifier, w) :: (.doubleColon, "::") :: joinedLexemes (v :: parts) := rfl
      rw [hcons, ih]
      rfl

/-- The parts of a path are joined from the left. -/
theorem intercalate_eq_foldl (w : String) (parts : List String) :
    "::".intercalate (w :: parts) = parts.foldl (fun name part => name ++ "::" ++ part) w := by
  induction parts generalizing w with
  | nil => simp
  | cons v parts ih => rw [String.intercalate_cons_cons, List.foldl_cons, ← ih,
      ← String.intercalate_cons_append]

/-- There are no more parts than lexemes, so the bound suffices. -/
theorem length_le_partLexemes (parts : List String) :
    parts.length ≤ (partLexemes parts).length := by
  induction parts with
  | nil => simp
  | cons w parts ih =>
      simp only [partLexemes, List.flatMap_cons, List.length_append, List.length_cons] at ih ⊢
      omega

/-- The parts after the first word of a path are read again, by induction on their number. -/
theorem yields_qualifiedName_go (hl : l.1 ≠ .doubleColon) {parts : List String} {name : String}
    {n : Nat} (hn : parts.length ≤ n) :
    Yields (qualifiedName.go name n) (partLexemes parts ++ l :: follow) q
      (parts.foldl (fun name part => name ++ "::" ++ part) name) (l :: follow) := by
  induction parts generalizing name n with
  | nil =>
      cases n with
      | zero => exact .pure
      | succ n =>
          refine .at_ (.nextIs ?_)
          simp only [hl, decide_false, Bool.false_and, Bool.false_eq_true, if_false]
          exact .pure
  | cons w parts ih =>
      obtain ⟨n, rfl⟩ : ∃ m, n = m + 1 := ⟨n - 1, by simp only [List.length_cons] at hn; omega⟩
      refine .at_ (.nextIs ?_)
      simp only [decide_true, Bool.true_and, List.drop_succ_cons, List.drop_zero]
      exact .advance (by simp) (.identifier (ih (Nat.le_of_succ_le_succ hn)))

/-- A name is read back if nothing follows that could belong to it. -/
theorem yields_qualifiedName {parts : List String} (hne : parts ≠ []) (hl : l.1 ≠ .doubleColon) :
    Yields qualifiedName (joinedLexemes parts ++ l :: follow) q ("::".intercalate parts)
      (l :: follow) := by
  cases parts with
  | nil => exact absurd rfl hne
  | cons w parts =>
      rw [joinedLexemes_cons, intercalate_eq_foldl, List.cons_append]
      refine .identifier (.bound (yields_qualifiedName_go hl ?_))
      have := length_le_partLexemes parts
      simp only [List.length_append]
      omega

end Names

end Parser

end SignalGraph.Heart

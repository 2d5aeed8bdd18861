import SignalGraph.Proofs.Heart.FirstReading

/-!
# SignalGraph.Proofs.Heart.RereadAnnotations

Annotations are read back from their text (`annotations_annotationsText`).  A key is written as a
word if it is one and quoted otherwise, and either way one token comes of it that says what the key
is; values are written and read as constants are.  Keys are distinct, so setting one after the other
makes the same list again.
-/

namespace SignalGraph

/-! ## Setting properties -/

namespace Annotations

/-- Setting a new property adds it at the end. -/
theorem set_go_of_fresh {key : String} (value : ConstantId) {l : List (String × ConstantId)}
    (h : key ∉ l.map (·.1)) : set.go key value l = l ++ [(key, value)] := by
  induction l with
  | nil => rfl
  | cons x l ih =>
      rw [List.map_cons, List.mem_cons, not_or] at h
      rw [set.go, if_neg (Ne.symm h.1), ih h.2]
      rfl

/-- Distinct keys that are set one after the other end up in this order. -/
theorem foldl_set (a : Annotations) {l : List (String × ConstantId)}
    (h : ((a.properties ++ l).map (·.1)).Nodup) :
    l.foldl (fun a x => a.set x.1 x.2) a = ⟨a.properties ++ l⟩ := by
  induction l generalizing a with
  | nil => simp
  | cons x l ih =>
      have hfresh : x.1 ∉ a.properties.map (·.1) := by
        rw [List.map_append, List.map_cons, List.nodup_append] at h
        exact fun hmem => h.2.2 x.1 hmem x.1 List.mem_cons_self rfl
      have hset : (a.set x.1 x.2).properties = a.properties ++ [x] := set_go_of_fresh x.2 hfresh
      rw [List.foldl_cons, ih, hset, List.append_assoc, List.singleton_append]
      rwa [hset, List.append_assoc, List.singleton_append]

end Annotations

/-- The first constant of the same value; only a table that holds a value twice has another one. -/
def Program.firstAlike (p : Program) (id : ConstantId) : ConstantId :=
  (p.constants.find? (p.constantAt id)).getD id

namespace Heart

/-! ## Lexemes -/

/-- The token of a key. -/
def keyLexeme (key : String) : Lexeme :=
  if isIdentifier key then (.identifier, key) else (.stringLiteral, escape key)

/-- The lexemes of a property. -/
def propertyLexemes (p : Program) (x : String × ConstantId) : List Lexeme :=
  keyLexeme x.1 :: (.colon, ":") :: valueLexemes p (p.constantAt x.2)

/-- The lexemes of annotations. -/
def annotationsLexemes (p : Program) (a : Annotations) : List Lexeme :=
  [(.leftBracket, "["), (.leftBracket, "[")] ++
    [(.comma, ",")].intercalate (a.properties.map (propertyLexemes p)) ++
    [(.rightBracket, "]"), (.rightBracket, "]")]

section

variable {p : Program}

/-- A key is written as one token, quoted unless it is an identifier. -/
theorem spelled_key (key : String) :
    Spelled (if isIdentifier key then key else escape key) [keyLexeme key] := by
  unfold keyLexeme
  split
  · next h => exact spelled_word h
  · exact (sealed_escape key).spelled

/-- The phrases between keys, values and brackets stand apart. -/
theorem mark_colon : Mark ": " [(.colon, ":")] := mark_literal (by decide)

theorem mark_openBrackets : Mark " [[" [(.leftBracket, "["), (.leftBracket, "[")] :=
  mark_literal (by decide)

theorem mark_closeBrackets : Mark "]]" [(.rightBracket, "]"), (.rightBracket, "]")] :=
  mark_literal (by decide)

/-- A property is written with the lexemes that are read as it. -/
theorem spelled_property {x : String × ConstantId} (hv : isReadableValue p (p.constantAt x.2))
    (hfloats : ∀ w ∈ (p.constantAt x.2).finiteFloats, Exact w) :
    Spelled ((if isIdentifier x.1 then x.1 else escape x.1) ++ ": " ++ constantText p x.2)
      (propertyLexemes p x) :=
  ((spelled_key x.1).mark mark_colon).append_spelled (spelled_value hv hfloats)

/-- Annotations are written with the lexemes that are read as them. -/
theorem sealed_annotations {a : Annotations} (hne : a.properties ≠ [])
    (h : ∀ x ∈ a.properties, isReadableValue p (p.constantAt x.2) ∧
      ∀ w ∈ (p.constantAt x.2).finiteFloats, Exact w) :
    Sealed (annotationsText p a) (annotationsLexemes p a) := by
  have hempty : a.isEmpty = false := by simpa [Annotations.isEmpty] using hne
  have hitems := spelled_commaSeparated fun x hx => spelled_property (h x hx).1 (h x hx).2
  rw [annotationsText, hempty]
  exact (mark_openBrackets.isSealed.append_spelled hitems).mark mark_closeBrackets

end

/-! ## Reading -/

namespace Parser

variable {p : Program} {l : Lexeme} {ls : List Lexeme}

/-- A property is read again. -/
theorem yields_property {x : String × ConstantId} (hv : isReadableValue p (p.constantAt x.2))
    (hfound : p.constants.find? (p.constantAt x.2) = some x.2)
    (hfloats : ∀ w ∈ (p.constantAt x.2).finiteFloats, Exact w) (hl : l.1 ≠ .leftParen) :
    Yields property (propertyLexemes p x ++ l :: ls) p x (l :: ls) := by
  have hvalue : Yields internedConstant _ p x.2 (l :: ls) :=
    yields_internedConstant hv hfound hfloats hl
  rw [propertyLexemes, List.cons_append, List.cons_append]
  refine .current fun t ht => ?_
  unfold keyLexeme at ht ⊢
  split at ht
  · next hkey =>
    have hkind : t.kind = .identifier := congrArg Prod.fst ht
    have htext : t.text = x.1 := congrArg Prod.snd ht
    simp only [hkey, if_true, hkind, htext]
    refine .eat_not (by simp) (.expect (by simp) fun _ _ => .expect (by simp) fun _ _ => ?_)
    exact hvalue.bind .pure
  · next hkey =>
    have hkind : t.kind = .stringLiteral := congrArg Prod.fst ht
    have htext : t.text = escape x.1 := congrArg Prod.snd ht
    simp only [hkey, hkind, htext, unescape_escape]
    refine .eat (by simp) (.expect (by simp) fun _ _ => ?_)
    exact hvalue.bind .pure

/-- A property is read again within a list. -/
theorem yieldsItem_property {x : String × ConstantId} (hv : isReadableValue p (p.constantAt x.2))
    (hfound : p.constants.find? (p.constantAt x.2) = some x.2)
    (hfloats : ∀ w ∈ (p.constantAt x.2).finiteFloats, Exact w) :
    YieldsItem property .rightBracket (propertyLexemes p) p x where
  starts := by
    refine ⟨_, _, rfl, ?_⟩
    unfold keyLexeme
    split <;> simp
  reads l follow hl := by
    refine yields_property hv hfound hfloats ?_
    rcases hl with hl | hl <;> simp [hl]

/-- Annotations are read again in their order, since keys are distinct. -/
theorem yields_annotations {a : Annotations} (hkeys : (a.properties.map (·.1)).Nodup)
    (h : ∀ x ∈ a.properties, YieldsItem property .rightBracket (propertyLexemes p) p x) :
    Yields annotations (annotationsLexemes p a ++ ls) p a ls := by
  have hset : a.properties.foldl (fun a x => a.set x.1 x.2) {} = a := Annotations.foldl_set {} hkeys
  unfold annotations annotationsLexemes
  rw [List.append_assoc, List.append_assoc]
  refine .kindAt (.kindAt ?_)
  refine .advance (by simp) (.advance (by simp) ?_)
  refine (yields_commaList ⟨by simp, by simp⟩ h).bind ?_
  refine .expect (by simp) fun _ _ => ?_
  exact (congrArg (fun b => Yields (pure b) ls p a ls) hset).mpr .pure

end Parser

/-! ## Constants that are read -/

/-- The parser can answer the value as a constant: it did so at some place of some text, with a
program to which only constants and texts have been added since. -/
def Producible (p : Program) (v : Value) : Prop :=
  ∃ file text tokens ts s s', lex file text = .ok tokens ∧
    (Cursor.start file tokens).Passed ts s.cursor ∧ Parser.constant.run s = .ok (v, s') ∧
    s'.program.Interns p

section

variable {p : Program} {v : Value}

/-- What the parser or the builder makes is readable if what modules list belongs to them. -/
theorem Producible.isReadableValue (h : Producible p v) (hp : p.ListedByOwner) :
    isReadableValue p v := by
  obtain ⟨file, text, tokens, ts, s, s', htokens, hpassed, hrun, hinterns⟩ := h
  have hbefore : s.program.Interns p :=
    IsTrans.trans _ _ _ (Parser.interns_of_run hrun) hinterns
  have hlisted : s.program.ListedByOwner := by
    rw [hbefore.rest] at hp
    exact ⟨hp.structs, hp.functions, hp.vars⟩
  have hready : Parser.Ready {} s := ⟨hlisted, nofun, (Cursor.clean_start htokens).passed hpassed⟩
  unfold Parser.constant at hrun
  rw [Parser.run_bound_bind] at hrun
  exact hinterns.isReadableValue (Parser.isReadableValue_of_run_constantTo hready hrun)

/-- What is written so that it is read again can be read. -/
theorem producible_of_isReadableValue (h : isReadableValue p v)
    (hfloats : ∀ w ∈ v.finiteFloats, Exact w) :
    Producible p v := by
  have hspelled := spelled_value h hfloats [] [] trivial lexesTo_nil
  rw [List.append_nil, List.append_nil] at hspelled
  obtain ⟨tokens, stop, htokens, hlexemes⟩ := hspelled ⟨0⟩ 0
  have hstart : (Cursor.start ⟨0⟩ (tokens ++ [.eof ⟨0⟩ stop])).lexemes =
      valueLexemes p v ++ [(.eof, "")] := by
    rw [Cursor.lexemes, Cursor.start, List.map_append, hlexemes]
    rfl
  obtain ⟨c, -, hrun⟩ := Parser.yields_constant h hfloats (by simp) _ hstart
  exact ⟨⟨0⟩, _, _, [], ⟨_, p⟩, _, htokens, .refl _, hrun, refl p⟩

end

/-! ## The whole way -/

/-- A value is found under the first handle that leads to it. -/
theorem find?_firstAlike {p : Program} {id : ConstantId} {v : Value}
    (h : p.constants.get? id = some v) : p.constants.find? v = some (p.firstAlike id) := by
  have hat : p.constantAt id = v := Arena.get_eq_of_get? h
  rw [Program.firstAlike, hat]
  cases hfind : p.constants.find? v with
  | some id' => rfl
  | none => exact absurd (beq_self_eq_true v) (Arena.find?_eq_none_iff.mp hfind id v h)

/-- The first handle that leads to a value leads to it. -/
theorem get?_firstAlike {p : Program} {id : ConstantId} {v : Value}
    (h : p.constants.get? id = some v) : p.constants.get? (p.firstAlike id) = some v :=
  Interner.get?_of_find? (find?_firstAlike h)

/-- In a table of distinct values there is no other one. -/
theorem firstAlike_eq_self {p : Program} {id : ConstantId} {v : Value}
    (hdistinct : p.constants.toList.Nodup) (h : p.constants.get? id = some v) :
    p.firstAlike id = id :=
  Option.some.inj ((find?_firstAlike h).symm.trans
    (Interner.find?_of_isPrefix (List.prefix_refl _) hdistinct h))

/-- Annotations with distinct keys, whatever the keys are, are read back from their text: the keys
and their values come back in order, all of the text is read, and nothing is added to the
program. -/
theorem annotations_annotationsText {p : Program} {a : Annotations} (hp : p.ListedByOwner)
    (hne : a.properties ≠ []) (hkeys : (a.properties.map (·.1)).Nodup)
    (hvalues : ∀ x ∈ a.properties, ∃ v, p.constants.get? x.2 = some v ∧ Producible p v ∧
      ∀ w ∈ v.finiteFloats, Exact w) (file : FileId) :
    ∃ tokens c a', lex file (annotationsText p a) = .ok tokens ∧
      Parser.annotations.run ⟨.start file tokens, p⟩ = .ok (a', ⟨c, p⟩) ∧
      c.rest.map Token.lexeme = [(.eof, "")] ∧
      a'.properties.map (fun x => (x.1, p.constants.get? x.2)) =
        a.properties.map (fun x => (x.1, p.constants.get? x.2)) ∧
      (p.constants.toList.Nodup → a' = a) := by
  -- Reading answers the first constant of each value.
  let first : String × ConstantId → String × ConstantId := fun x => (x.1, p.firstAlike x.2)
  have hread : ∀ x ∈ a.properties, ∃ v, p.constantAt x.2 = v ∧ p.constantAt (first x).2 = v ∧
      p.constants.find? v = some (first x).2 ∧ isReadableValue p v ∧
      ∀ w ∈ v.finiteFloats, Exact w := by
    intro x hx
    obtain ⟨v, hv, hproducible, hfloats⟩ := hvalues x hx
    exact ⟨v, Arena.get_eq_of_get? hv, Arena.get_eq_of_get? (get?_firstAlike hv),
      find?_firstAlike hv, hproducible.isReadableValue hp, hfloats⟩
  have hspelled : Sealed (annotationsText p a) (annotationsLexemes p a) := by
    refine sealed_annotations hne fun x hx => ?_
    obtain ⟨v, rfl, -, -, hreadable, hfloats⟩ := hread x hx
    exact ⟨hreadable, hfloats⟩
  -- the text is the same with those constants, since only the values of constants are written
  have hlexemes : annotationsLexemes p ⟨a.properties.map first⟩ = annotationsLexemes p a := by
    have hmap : (a.properties.map first).map (propertyLexemes p) =
        a.properties.map (propertyLexemes p) := by
      rw [List.map_map]
      refine List.map_congr_left fun x hx => ?_
      obtain ⟨v, hv, hfirst, -⟩ := hread x hx
      rw [Function.comp_apply, propertyLexemes, propertyLexemes, hv, hfirst]
    rw [annotationsLexemes, annotationsLexemes, hmap]
  have hyields : Parser.Yields Parser.annotations (annotationsLexemes p a ++ [(.eof, "")]) p
      ⟨a.properties.map first⟩ [(.eof, "")] := by
    rw [← hlexemes]
    refine Parser.yields_annotations ?_ fun y hy => ?_
    · rw [List.map_map]
      exact hkeys
    · obtain ⟨x, hx, rfl⟩ := List.mem_map.mp hy
      obtain ⟨v, -, hfirst, hfound, hreadable, hfloats⟩ := hread x hx
      rw [← hfirst] at hfound hreadable hfloats
      exact Parser.yieldsItem_property hreadable hfound hfloats
  -- nothing follows the text, so the lexer finds its lexemes and then the end
  obtain ⟨tokens, stop, htokens, hmap⟩ := hspelled [] [] lexesTo_nil file 0
  rw [List.append_nil] at htokens hmap
  have hstart : (Cursor.start file (tokens ++ [.eof file stop])).lexemes =
      annotationsLexemes p a ++ [(.eof, "")] := by
    rw [Cursor.lexemes, Cursor.start, List.map_append, hmap]
    rfl
  obtain ⟨c, hc, hrun⟩ := hyields _ hstart
  refine ⟨_, c, _, htokens, hrun, hc, ?_, fun hdistinct => ?_⟩
  · rw [List.map_map]
    refine List.map_congr_left fun x hx => ?_
    obtain ⟨v, hv, -⟩ := hvalues x hx
    rw [Function.comp_apply, hv, get?_firstAlike hv]
  · have hfirst : a.properties.map first = a.properties := by
      refine (List.map_congr_left fun x hx => ?_).trans (List.map_id _)
      obtain ⟨v, hv, -⟩ := hvalues x hx
      exact Prod.ext rfl (firstAlike_eq_self hdistinct hv)
    rw [hfirst]

/-- A text that looks like the end of annotations, an array and a float. -/
def sampleValues : Program where
  constants := ⟨⟨#[.string ⟨0⟩, .aggregate (.array (.prim .int32) (some 2)) [.int32 1, .int32 2],
    .float32 0x3fc00000]⟩⟩
  texts := ⟨⟨#["]], [[\"x\": // é\n"]⟩⟩

/-- Keys that are no words, and a word of the language. -/
def sampleAnnotations : Annotations := ⟨[("", ⟨0⟩), ("struct", ⟨1⟩), ("clé \"]]\": \\\n", ⟨2⟩)]⟩

/-- The annotations of a sample are read again. -/
theorem annotations_annotationsText_sample :
    sampleValues.ListedByOwner ∧ (sampleAnnotations.properties.map (·.1)).Nodup ∧
    (∀ x ∈ sampleAnnotations.properties, ∃ v, sampleValues.constants.get? x.2 = some v ∧
      Producible sampleValues v ∧ ∀ w ∈ v.finiteFloats, Exact w) ∧
    ∃ tokens c, lex ⟨0⟩ (annotationsText sampleValues sampleAnnotations) = .ok tokens ∧
      Parser.annotations.run ⟨.start ⟨0⟩ tokens, sampleValues⟩ =
        .ok (sampleAnnotations, ⟨c, sampleValues⟩) ∧
      c.rest.map Token.lexeme = [(.eof, "")] := by
  have hlisted : sampleValues.ListedByOwner := ⟨nofun, nofun, List.nodup_nil⟩
  have hkeys : (sampleAnnotations.properties.map (·.1)).Nodup := by decide
  have hreadable : ∀ v ∈ sampleValues.constants.toList,
      isReadableValue sampleValues v ∧ ∀ w ∈ v.finiteFloats, Exact w := by decide +kernel
  have hvalues : ∀ x ∈ sampleAnnotations.properties, ∃ v,
      sampleValues.constants.get? x.2 = some v ∧ Producible sampleValues v ∧
        ∀ w ∈ v.finiteFloats, Exact w := by
    intro x hx
    have hrange : x.2.idx < 3 := by
      revert x
      decide
    obtain ⟨v, hv⟩ : ∃ v, sampleValues.constants.get? x.2 = some v :=
      ⟨_, Arena.get?_eq_some_get hrange⟩
    obtain ⟨hv', hfloats⟩ := hreadable v (Arena.mem_toList_iff.mpr ⟨_, hv⟩)
    exact ⟨v, hv, producible_of_isReadableValue hv' hfloats, hfloats⟩
  have hdistinct : sampleValues.constants.toList.Nodup := by decide +kernel
  obtain ⟨tokens, c, a', htokens, hrun, hc, -, hsame⟩ :=
    annotations_annotationsText hlisted (List.cons_ne_nil _ _) hkeys hvalues ⟨0⟩
  rw [hsame hdistinct] at hrun
  exact ⟨hlisted, hkeys, hvalues, tokens, c, htokens, hrun, hc⟩

end Heart

end SignalGraph

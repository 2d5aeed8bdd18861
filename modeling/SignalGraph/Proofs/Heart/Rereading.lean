import SignalGraph.Proofs.Heart.Readable
import SignalGraph.Proofs.Heart.Running

/-!
# SignalGraph.Proofs.Heart.Rereading

Readable types and constants are read back from their lexemes (`yields_type`, `yields_constant`),
and reading them adds nothing to the program.  What may follow matters: a bracket or an ampersand
after a type would belong to it, and `void` before a parenthesis starts an aggregate.
-/

namespace SignalGraph.Heart.Parser

variable {p : Program} {l : Lexeme} {ls : List Lexeme}

/-! ## Types -/

/-- The number of lengths of a type without qualifiers. -/
def arrayDepth : Ty → Nat
  | .array e _ => arrayDepth e + 1
  | _ => 0

/-- The name of a primitive type leads to it. -/
theorem primOfName?_name (k : Prim) : Prim.ofName? k.name = some k := by cases k <;> rfl

/-- A path is at least two words with colons between them. -/
theorem pathLexemes_eq (owner name : String) :
    ∃ ls, pathLexemes owner name =
      (.identifier, firstWord owner) :: (.doubleColon, "::") :: ls := by
  cases hparts : nameParts owner with
  | nil => exact absurd hparts (nameParts_ne_nil owner)
  | cons w parts =>
      have hcons := joinedLexemes_cons w (parts ++ [name])
      rw [pathLexemes, hparts, firstWord, hparts]
      cases parts with
      | nil => exact ⟨_, hcons⟩
      | cons v parts => exact ⟨_, hcons⟩

/-- A path is read again. -/
theorem yields_path (owner name : String) (hl : l.1 ≠ .doubleColon) :
    Yields qualifiedName (pathLexemes owner name ++ l :: ls) p (owner ++ "::" ++ name)
      (l :: ls) := by
  rw [← intercalate_path]
  exact yields_qualifiedName (by simp) hl

/-- A primitive type is read again. -/
theorem yields_prim {k : Prim} (hl : l.1 ≠ .less) :
    Yields plainType ((.identifier, k.name) :: l :: ls) p (.prim k) (l :: ls) := by
  refine .current fun t ht => ?_
  have hkind : t.kind = .identifier := congrArg Prod.fst ht
  have htext : t.text = k.name := congrArg Prod.snd ht
  simp only [hkind, ne_eq, not_true_eq_false, if_false, htext, primOfName?_name]
  exact .advance (by simp) (.eat_not hl .pure)

/-- A vector type is read again. -/
theorem yields_vector {k : Prim} {n : Nat} (hn : isLength n) :
    Yields plainType (typeLexemes p (.vector k n) ++ ls) p (.vector k n) ls := by
  refine .current fun t ht => ?_
  have hkind : t.kind = .identifier := congrArg Prod.fst ht
  have htext : t.text = k.name := congrArg Prod.snd ht
  simp only [hkind, ne_eq, not_true_eq_false, if_false, htext, primOfName?_name]
  refine .advance (by simp) (.eat (by decide) (.natural (by simpa [isLength] using hn) ?_))
  exact .expect (by decide) fun _ _ => .pure

/-- The type of texts is read again. -/
theorem yields_string : Yields plainType ((.identifier, "string") :: ls) p .string ls := by
  refine .current fun t ht => ?_
  have hkind : t.kind = .identifier := congrArg Prod.fst ht
  have htext : t.text = "string" := congrArg Prod.snd ht
  have hprim : Prim.ofName? "string" = none := by decide
  simp only [hkind, ne_eq, not_true_eq_false, if_false, htext, hprim, if_true]
  exact .advance (by simp) .pure

/-- A readable struct is read again. -/
theorem yields_struct {id : StructId} (hid : isReadableStruct p id) (hl : l.1 ≠ .doubleColon) :
    Yields plainType (typeLexemes p (.struct id) ++ l :: ls) p (.struct id) (l :: ls) := by
  obtain ⟨us, hus⟩ := pathLexemes_eq (structOwner p id) (p.structAt id).name
  simp only [isReadableStruct, Bool.and_eq_true, Option.isNone_iff_eq_none, bne_iff_ne,
    beq_iff_eq] at hid
  have hname : Yields qualifiedName _ p _ (l :: ls) :=
    yields_path (structOwner p id) (p.structAt id).name hl
  rw [hus] at hname
  rw [typeLexemes, hus]
  refine .current fun t ht => ?_
  have hkind : t.kind = .identifier := congrArg Prod.fst ht
  have htext : t.text = firstWord (structOwner p id) := congrArg Prod.snd ht
  simp only [hkind, ne_eq, not_true_eq_false, if_false, htext, hid.1.2, hid.2]
  refine hname.bind (.program ?_)
  have hfound : p.structByPath? (structOwner p id ++ "::" ++ (p.structAt id).name) = some id :=
    hid.1.1.1.1
  rw [hfound]
  exact .pure

/-- An array suffix is seen by its first three tokens at most. -/
theorem yields_atArraySuffix {b : Bool}
    (h : (kindOf ls = .leftBracket ∧ (kindOf (ls.drop 1) = .rightBracket ∨
      kindOf (ls.drop 1) = .integer ∧ kindOf (ls.drop 2) = .rightBracket)) ↔ b) :
    Yields atArraySuffix ls p b ls := by
  refine .kindAt (.kindAt (.kindAt (.kindAt ?_)))
  have hb : b = (decide (kindOf (ls.drop 0) = .leftBracket) &&
      (decide (kindOf (ls.drop 1) = .rightBracket) ||
        (decide (kindOf (ls.drop 1) = .integer) &&
          decide (kindOf (ls.drop 2) = .rightBracket)))) := by
    rw [Bool.eq_iff_iff, ← h]
    simp
  rw [hb]
  exact .pure

/-- A length in brackets is added to the type before it. -/
theorem Yields.arraySuffixes {t t' : Ty} {m : Nat} {n : Option Nat} {us : List Lexeme}
    (hn : n.all isLength) (h : Yields (arraySuffixes m (.array t n)) ls p t' us) :
    Yields (Parser.arraySuffixes (m + 1) t) (lengthLexemes n ++ ls) p t' us := by
  cases n with
  | none =>
      refine (yields_atArraySuffix (b := true) (by simp [lengthLexemes])).bind ?_
      exact .advance (by simp) (.eat (by decide) h)
  | some n =>
      refine (yields_atArraySuffix (b := true) (by simp [lengthLexemes])).bind ?_
      refine .advance (by simp) (.eat_not (by simp) ?_)
      exact .natural (by simpa [isLength] using hn) (.expect (by decide) fun _ _ => h)

/-- A type without qualifiers is read up to its last length. -/
theorem yields_plain {t t' : Ty} (ht : isPlain p t) {n : Nat} {us : List Lexeme}
    (hn : arrayDepth t ≤ n) (hl : l.1 ≠ .less ∧ l.1 ≠ .doubleColon)
    (h : Yields (arraySuffixes (n - arrayDepth t) t) (l :: ls) p t' us) :
    Yields (plainType >>= arraySuffixes n) (typeLexemes p t ++ l :: ls) p t' us := by
  induction t generalizing n l ls with
  | prim k => exact (yields_prim hl.1).bind h
  | vector k m => exact (yields_vector ht).bind h
  | string => exact yields_string.bind h
  | struct id => exact (yields_struct ht hl.2).bind h
  | array e m ih =>
      simp only [isPlain, Bool.and_eq_true] at ht
      simp only [arrayDepth] at hn h
      rw [typeLexemes, List.append_assoc]
      refine ih ht.1 (by omega) (by simp) ?_
      obtain ⟨k, hk⟩ : ∃ k, n - arrayDepth e = k + 1 := ⟨n - arrayDepth e - 1, by omega⟩
      rw [show n - (arrayDepth e + 1) = k by omega] at h
      rw [hk]
      exact h.arraySuffixes ht.2
  | const t => simp [isPlain] at ht
  | ref t => simp [isPlain] at ht

/-- There are no more array suffixes than lexemes, so the bound suffices. -/
theorem arrayDepth_le {t : Ty} (ht : isPlain p t) : arrayDepth t ≤ (typeLexemes p t).length := by
  induction t with
  | array e n ih =>
      simp only [isPlain, Bool.and_eq_true] at ht
      have := ih ht.1
      simp only [arrayDepth, typeLexemes, lengthLexemes, List.length_append, List.length_cons]
      omega
  | _ => simp [arrayDepth]

/-- No array suffix is read where none is written. -/
theorem yields_arraySuffixes {t : Ty} {n : Nat} (hl : l.1 ≠ .leftBracket) :
    Yields (arraySuffixes n t) (l :: ls) p t (l :: ls) := by
  cases n with
  | zero => exact .pure
  | succ n => exact (yields_atArraySuffix (b := false) (by simp [hl])).bind .pure

/-- Every type starts with a word. -/
theorem typeLexemes_eq_cons (p : Program) (t : Ty) :
    ∃ w ls, typeLexemes p t = (.identifier, w) :: ls := by
  induction t with
  | prim k => exact ⟨_, _, rfl⟩
  | vector k n => exact ⟨_, _, rfl⟩
  | string => exact ⟨_, _, rfl⟩
  | struct id =>
      obtain ⟨ls, hls⟩ := pathLexemes_eq (structOwner p id) (p.structAt id).name
      exact ⟨_, _, hls⟩
  | array e n ih =>
      obtain ⟨w, ls, hls⟩ := ih
      exact ⟨w, ls ++ lengthLexemes n, by simp [typeLexemes, hls]⟩
  | const t => exact ⟨_, _, rfl⟩
  | ref t ih =>
      obtain ⟨w, ls, hls⟩ := ih
      exact ⟨w, ls ++ [(.ampersand, "&")], by simp [typeLexemes, hls]⟩

/-- The qualifiers around a type. -/
def qualify (isConst isReference : Bool) (t : Ty) : Ty :=
  let t := if isConst then .const t else t
  if isReference then .ref t else t

/-- Qualifiers go around a type without any. -/
theorem qualify_of_plain {t : Ty} (ht : isPlain p t) (isConst isReference : Bool) :
    (if isReference then (if isConst then t.asConst else t).asReference
      else if isConst then t.asConst else t) = qualify isConst isReference t := by
  cases isConst <;> cases isReference <;> cases t <;> simp [isPlain] at ht <;> rfl

/-- A readable type is a type without qualifiers in at most one `const` and one reference. -/
theorem exists_qualify {t : Ty} (ht : isReadableType p t) :
    ∃ u c r, t = qualify c r u ∧ isPlain p u ∧
      (c = false → (typeLexemes p u).head? ≠ some (.identifier, "const")) := by
  have hqualified : ∃ u c, t.unreferenced = qualify c false u ∧ isPlain p u ∧
      (c = false → (typeLexemes p u).head? ≠ some (.identifier, "const")) := by
    unfold isReadableType at ht
    split at ht
    · next u hu => exact ⟨u, true, hu, ht, by simp⟩
    · simp only [Bool.and_eq_true, bne_iff_ne] at ht
      exact ⟨t.unreferenced, false, rfl, ht.1, fun _ => ht.2⟩
  obtain ⟨u, c, hu, hplain, hc⟩ := hqualified
  cases t with
  | ref t => exact ⟨u, c, true, congrArg Ty.ref hu, hplain, hc⟩
  | _ => exact ⟨u, c, false, hu, hplain, hc⟩

/-- A readable type before a list of values is read again. -/
theorem yields_type {t : Ty} (ht : isReadableType p t) :
    Yields type (typeLexemes p t ++ (.leftParen, "(") :: ls) p t ((.leftParen, "(") :: ls) := by
  obtain ⟨u, c, r, rfl, hplain, hc⟩ := exists_qualify ht
  have hdepth := arrayDepth_le hplain
  -- what comes after the qualifier `const`
  have hrest : Yields (bound >>= fun n => plainType >>= fun t => arraySuffixes n t >>= fun t =>
      let t := if c then t.asConst else t
      eat .ampersand >>= fun b => if b then pure t.asReference else pure t)
      (typeLexemes p u ++ (if r then [(.ampersand, "&")] else []) ++ (.leftParen, "(") :: ls) p
      (qualify c r u) ((.leftParen, "(") :: ls) := by
    rw [← qualify_of_plain hplain, List.append_assoc]
    refine .bound ?_
    rw [← bind_assoc]
    cases r with
    | true =>
        refine (yields_plain hplain ?_ (by simp) (yields_arraySuffixes (by simp))).bind
          (.eat (by decide) .pure)
        simp only [List.length_append]
        omega
    | false =>
        refine (yields_plain hplain ?_ (by simp) (yields_arraySuffixes (by simp))).bind
          (.eat_not (by decide) .pure)
        simp only [List.length_append]
        omega
  have hlexemes : typeLexemes p (qualify c r u) ++ (.leftParen, "(") :: ls =
      (if c then [(.identifier, "const")] else []) ++
        (typeLexemes p u ++ (if r then [(.ampersand, "&")] else []) ++ (.leftParen, "(") ::
          ls) := by
    cases c <;> cases r <;> simp [qualify, typeLexemes]
  rw [hlexemes]
  cases c with
  | true => exact .eatKeyword hrest
  | false =>
      obtain ⟨w, us, hus⟩ := typeLexemes_eq_cons p u
      have hw := hc rfl
      rw [hus] at hrest hw ⊢
      exact .eatKeyword_not (by simpa using hw) hrest

/-! ## Constants -/

/-- No integer is written with the suffix of long ones by itself. -/
theorem getLast?_toString (n : Int) : ∃ c, (toString n).toList.getLast? = some c ∧ c ≠ 'L' := by
  obtain ⟨d, ds, hdigits, hd, hds⟩ := toDigits_eq_cons n.natAbs
  have hlast : ∃ c, (d :: ds).getLast? = some c ∧ c.isDigit := by
    refine ⟨_, List.getLast?_eq_some_getLast (by simp), ?_⟩
    have hmem := List.getLast_mem (l := d :: ds) (by simp)
    rcases List.mem_cons.mp hmem with heq | hmem
    · rw [heq]; exact hd
    · exact List.all_eq_true.mp hds _ hmem
  obtain ⟨c, hc, hdigit⟩ := hlast
  refine ⟨c, ?_, by rintro rfl; contradiction⟩
  rw [toList_toString_int, hdigits]
  split
  · rw [List.getLast?_cons_cons, hc]
  · exact hc

/-- An integer of 32 bits is read again. -/
theorem integerValue?_int32 (n : Int32) : integerValue? (toString n.toInt) = some (.int32 n) := by
  obtain ⟨c, hc, hne⟩ := getLast?_toString n.toInt
  have hread := readIntIn?_toString (n := n.toInt) (Int32.minValue_le_toInt n) (Int32.toInt_le n)
  simp only [integerValue?, hc]
  split
  · next heq => cases heq; exact absurd rfl hne
  · rw [hread]; simp

/-- An integer of 64 bits is read again, by its suffix. -/
theorem integerValue?_int64 (n : Int64) :
    integerValue? (toString n.toInt ++ "L") = some (.int64 n) := by
  have hread := readIntIn?_toString (n := n.toInt) (Int64.minValue_le_toInt n) (Int64.toInt_le n)
  have hL : "L".toList = ['L'] := by decide
  simp only [integerValue?, String.toList_append, hL, List.getLast?_concat, List.dropLast_concat]
  rw [hread]
  simp

/-- Every value starts with a word, a number or a text. -/
theorem valueLexemes_eq_cons (p : Program) (v : Value) :
    ∃ l ls, valueLexemes p v = l :: ls ∧
      (l.1 = .identifier ∨ l.1 = .integer ∨ l.1 = .float ∨ l.1 = .stringLiteral) := by
  have hfloat : ∀ v, (floatLexeme v).1 = .identifier ∨ (floatLexeme v).1 = .float := by
    intro v
    unfold floatLexeme
    split <;> simp
  cases v with
  | float32 b => exact ⟨_, _, rfl, (hfloat _).imp_right fun h => .inr (.inl h)⟩
  | float64 b => exact ⟨_, _, rfl, (hfloat _).imp_right fun h => .inr (.inl h)⟩
  | aggregate t vs =>
      obtain ⟨w, ls, hls⟩ := typeLexemes_eq_cons p t
      exact ⟨(.identifier, w), ls ++ listLexemes (valuesLexemes p vs), by simp [valueLexemes, hls],
        .inl rfl⟩
  | zero t =>
      obtain ⟨w, ls, hls⟩ := typeLexemes_eq_cons p t
      exact ⟨(.identifier, w), ls ++ listLexemes [], by simp [valueLexemes, hls], .inl rfl⟩
  | _ => exact ⟨_, _, rfl, by simp⟩

section

variable {element : Parser Value} {w : String}

/-- A constant with a name of its own. -/
theorem yields_named {v : Value} (hv : namedValue? w = some v) :
    Yields (constantWith element) ((.identifier, w) :: ls) p v ls := by
  refine .current fun t ht => ?_
  have hkind : t.kind = .identifier := congrArg Prod.fst ht
  have htext : t.text = w := congrArg Prod.snd ht
  simp only [hkind, htext, hv]
  exact .nextIs (.advance (by simp) .pure)

/-- The void value is read again. -/
theorem yields_void (hl : l.1 ≠ .leftParen) :
    Yields (constantWith element) ((.identifier, "void") :: l :: ls) p .void (l :: ls) := by
  refine .current fun t ht => ?_
  have hkind : t.kind = .identifier := congrArg Prod.fst ht
  have htext : t.text = "void" := congrArg Prod.snd ht
  have hnamed : namedValue? "void" = none := rfl
  simp only [hkind, htext, hnamed]
  refine .nextIs ?_
  simp only [List.drop_succ_cons, List.drop_zero, kindOf_cons, hl]
  exact .advance (by simp) .pure

/-- An integer is read again. -/
theorem yields_integer {v : Value} (hv : integerValue? w = some v) :
    Yields (constantWith element) ((.integer, w) :: ls) p v ls := by
  refine .current fun t ht => ?_
  have hkind : t.kind = .integer := congrArg Prod.fst ht
  have htext : t.text = w := congrArg Prod.snd ht
  simp only [hkind, htext, hv]
  exact .advance (by simp) .pure

theorem yields_number : Yields (constantWith element) ((.float, w) :: ls) p (floatValue w) ls := by
  refine .current fun t ht => ?_
  have hkind : t.kind = .float := congrArg Prod.fst ht
  have htext : t.text = w := congrArg Prod.snd ht
  simp only [hkind, htext]
  exact .advance (by simp) .pure

/-- A float that is written exactly is read again, bit by bit. -/
theorem yields_float {v : Value} (hv : isReadableFloat p v) (h : ∀ w ∈ v.finiteFloats, Exact w)
    (hfloat : (∃ b, v = .float32 b) ∨ ∃ b, v = .float64 b) :
    Yields (constantWith element) (floatLexeme v :: ls) p v ls := by
  have htext : valueText p v = valueText {} v := by
    rcases hfloat with ⟨b, rfl⟩ | ⟨b, rfl⟩ <;> simp only [valueText]
  rw [isReadableFloat, htext] at hv
  unfold floatLexeme
  split
  · next hfinite =>
    have hmem : v ∈ v.finiteFloats := by
      rcases hfloat with ⟨b, rfl⟩ | ⟨b, rfl⟩ <;> simp [Value.finiteFloats, hfinite]
    have hnumber : Yields (constantWith element) _ p _ ls := yields_number (w := valueText {} v)
    rwa [(h v hmem).2] at hnumber
  · next hfinite => exact yields_named (by simpa [hfinite] using hv)

/-- A text that is there already. -/
theorem internText_of_find? {s : String} {id : TextId} (h : p.texts.find? s = some id) :
    p.internText s = (id, p) := by
  simp only [Program.internText, Interner.intern, h]

/-- A text is read again and found where it is interned. -/
theorem yields_quoted {id : TextId} (h : p.texts.find? (p.textAt id) = some id) :
    Yields (constantWith element) ((.stringLiteral, escape (p.textAt id)) :: ls) p (.string id)
      ls := by
  refine .current fun t ht => ?_
  have hkind : t.kind = .stringLiteral := congrArg Prod.fst ht
  have htext : t.text = escape (p.textAt id) := congrArg Prod.snd ht
  simp only [hkind, htext, unescape_escape]
  refine .add (congrArg Prod.snd (internText_of_find? h)) ?_
  rw [internText_of_find? h]
  exact .advance (by simp) .pure

/-- An aggregate, with elements that are read by `element`. -/
theorem yields_ofElements {t : Ty} {vs : List Value} (ht : isReadableType p t)
    (hstart : startsConstant p t)
    (hvs : ∀ v ∈ vs, YieldsItem element .rightParen (valueLexemes p) p v) :
    Yields (constantWith element) (typeLexemes p t ++ listLexemes (vs.map (valueLexemes p)) ++ ls) p
      (.ofElements t vs) ls := by
  obtain ⟨w, us, hus⟩ := typeLexemes_eq_cons p t
  have hw : namedValue? w = none ∧ (us = [] ∨ w ≠ "void") := by
    unfold startsConstant at hstart
    rw [hus] at hstart
    cases us with
    | nil => exact ⟨by simpa using hstart, .inl rfl⟩
    | cons u us =>
        simp only [Bool.and_eq_true, Option.isNone_iff_eq_none, bne_iff_ne] at hstart
        exact ⟨hstart.1, .inr hstart.2⟩
  have htype : Yields (Parser.type >>= fun ty => expect .leftParen >>= fun _ =>
      commaList .rightParen element >>= fun vs => pure (Value.ofElements ty vs))
      (typeLexemes p t ++ listLexemes (vs.map (valueLexemes p)) ++ ls) p (.ofElements t vs) ls := by
    rw [List.append_assoc, listLexemes, List.cons_append, List.append_assoc]
    refine (yields_type ht).bind (.expect (by decide) fun _ _ => ?_)
    exact (yields_commaList (by decide) hvs).bind .pure
  rw [hus] at htype ⊢
  refine .current fun t ht => ?_
  have hkind : t.kind = .identifier := congrArg Prod.fst ht
  have htext : t.text = w := congrArg Prod.snd ht
  simp only [hkind, htext, hw.1]
  refine .nextIs ?_
  rcases hw.2 with rfl | hne
  · simpa [listLexemes] using htype
  · simpa [hne] using htype

end

/-- A list is longer than each of its items, so fuel for the list is enough for them. -/
theorem length_le_listLexemes {items : List (List Lexeme)} {item : List Lexeme}
    (h : item ∈ items) : item.length + 2 ≤ (listLexemes items).length := by
  have hle : item.length ≤ ([(.comma, ",")].intercalate items : List Lexeme).length := by
    induction items with
    | nil => cases h
    | cons i items ih =>
        cases items with
        | nil => simp_all
        | cons j items =>
            rw [List.intercalate_cons_cons, List.length_append, List.length_append]
            rcases List.mem_cons.mp h with rfl | h
            · omega
            · have := ih h
              omega
  simp only [listLexemes, List.length_cons, List.length_append, List.length_nil]
  omega

/-- A readable value is read again with fuel for its lexemes, by induction on the fuel. -/
theorem yields_constantTo {l : Lexeme} {ls : List Lexeme} {v : Value} (hv : isReadableValue p v)
    (hfloats : ∀ w ∈ v.finiteFloats, Exact w) (hl : l.1 ≠ .leftParen) {n : Nat}
    (hn : (valueLexemes p v).length ≤ n) :
    Yields (constantTo n) (valueLexemes p v ++ l :: ls) p v (l :: ls) := by
  match n, v with
  | 0, v =>
      obtain ⟨_, _, hcons, -⟩ := valueLexemes_eq_cons p v
      simp [hcons] at hn
  | n + 1, .void => exact yields_void hl
  | n + 1, .bool true => exact yields_named rfl
  | n + 1, .bool false => exact yields_named rfl
  | n + 1, .int32 k => exact yields_integer (integerValue?_int32 k)
  | n + 1, .int64 k => exact yields_integer (integerValue?_int64 k)
  | n + 1, .float32 b => exact yields_float hv hfloats (.inl ⟨b, rfl⟩)
  | n + 1, .float64 b => exact yields_float hv hfloats (.inr ⟨b, rfl⟩)
  | n + 1, .string id => exact yields_quoted (by simpa [isReadableValue] using hv)
  -- the elements are shorter than the whole value, so the fuel suffices for each of them
  | n + 1, .aggregate t vs =>
      simp only [isReadableValue, Bool.and_eq_true, areReadableValues_iff] at hv
      rw [valueLexemes, valuesLexemes_eq] at hn ⊢
      have hne : Value.aggregate t vs = .ofElements t vs := by simpa [Value.ofElements] using hv.1.2
      rw [hne]
      refine yields_ofElements hv.1.1.1 hv.1.1.2 fun v hmem => ⟨?_, fun l follow hl => ?_⟩
      · obtain ⟨l, ls, hcons, hkind⟩ := valueLexemes_eq_cons p v
        exact ⟨l, ls, hcons, by rintro h; simp [h] at hkind⟩
      · refine yields_constantTo (hv.2 v hmem)
          (fun w hw => hfloats w (Value.mem_finiteFloatsList hmem hw)) ?_ ?_
        · rintro h
          simp [h] at hl
        · have hlength := length_le_listLexemes (List.mem_map_of_mem (f := valueLexemes p) hmem)
          rw [List.length_append] at hn
          omega
  | n + 1, .zero t =>
      simp only [isReadableValue, Bool.and_eq_true] at hv
      have hnone : ∀ v ∈ ([] : List Value),
          YieldsItem (constantTo n) .rightParen (valueLexemes p) p v := by simp
      exact yields_ofElements hv.1 hv.2 hnone

/-- A readable value is read again. -/
theorem yields_constant {v : Value} (hv : isReadableValue p v)
    (hfloats : ∀ w ∈ v.finiteFloats, Exact w) (hl : l.1 ≠ .leftParen) :
    Yields constant (valueLexemes p v ++ l :: ls) p v (l :: ls) :=
  .bound (yields_constantTo hv hfloats hl (by rw [List.length_append]; omega))

/-- A constant is read again and found where it is interned. -/
theorem yields_internedConstant {id : ConstantId} (hv : isReadableValue p (p.constantAt id))
    (hfound : p.constants.find? (p.constantAt id) = some id)
    (hfloats : ∀ w ∈ (p.constantAt id).finiteFloats, Exact w) (hl : l.1 ≠ .leftParen) :
    Yields internedConstant (valueLexemes p (p.constantAt id) ++ l :: ls) p id (l :: ls) := by
  refine (yields_constant hv hfloats hl).bind fun c hc => ⟨c, hc, ?_⟩
  have hintern : p.intern (p.constantAt id) = (id, p) := by
    simp only [Program.intern, Interner.intern, hfound]
  have hrun : (add (·.intern (p.constantAt id))).run ⟨c, p⟩ =
      .ok ((p.intern (p.constantAt id)).1, ⟨c, (p.intern (p.constantAt id)).2⟩) := rfl
  rw [hrun, hintern]

end SignalGraph.Heart.Parser

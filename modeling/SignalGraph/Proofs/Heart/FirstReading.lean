import SignalGraph.Proofs.Heart.Following
import SignalGraph.Proofs.Heart.Lexed
import SignalGraph.Proofs.Heart.Rereading
import SignalGraph.Proofs.Program.Paths

/-!
# SignalGraph.Proofs.Heart.FirstReading

What is read from a text is readable: the types and the constants that the parser answers can be
written so that they are read again (`isReadableType_of_run`, `isReadableValue_of_run`).  The places
where it starts are clean, and what the program lists belongs to the modules that list it.
-/

namespace SignalGraph

/-! ## Growing tables -/

theorem Interner.get?_of_isPrefix {e : Entity} {α : Type} {t u : Interner e α}
    (htu : t.toList <+: u.toList) {h : Handle e} {x : α} (hx : t.get? h = some x) :
    u.get? h = some x := Arena.get?_of_isPrefix htu hx

/-- What is found in a table is found in the grown one. -/
theorem Interner.find?_of_find? {e : Entity} {α : Type} [BEq α] {t u : Interner e α}
    (htu : t.toList <+: u.toList) {h : Handle e} {x : α} (hx : t.find? x = some h) :
    u.find? x = some h := Arena.find?_of_isPrefix htu hx

/-- The names in scope are the names of their variables, and none belongs to a module. -/
def Heart.Parser.Scope.Names (scope : Heart.Parser.Scope) (p : Program) : Prop :=
  ∀ x ∈ scope.vars, (p.variableAt x.2).name = x.1 ∧ x.2 ∉ p.allModuleVars

instance (scope : Heart.Parser.Scope) (p : Program) : Decidable (scope.Names p) :=
  inferInstanceAs (Decidable (∀ x ∈ scope.vars, _ ∧ _))

namespace Program.Interns

open Heart

variable {p q : Program} (h : p.Interns q)

include h

/-- Interning leaves what modules list to their owners. -/
theorem listed (hp : p.ListedByOwner) : q.ListedByOwner := by
  rw [h.rest]
  exact ⟨hp.structs, hp.functions, hp.vars⟩

/-- The names of a scope stay good while values are interned. -/
theorem names {scope : Parser.Scope} (hscope : scope.Names p) : scope.Names q := by
  rw [h.rest]
  exact hscope

/-- Interning changes no structs, so it changes nothing about types and their texts. -/
theorem isPlain (t : Ty) : Heart.isPlain q t = Heart.isPlain p t := by
  induction t with
  | struct id => rw [h.rest]; rfl
  | array e n ih => rw [Heart.isPlain, Heart.isPlain, ih]
  | _ => rfl

/-- A type is written alike while values are interned. -/
theorem typeLexemes (t : Ty) : Heart.typeLexemes q t = Heart.typeLexemes p t := by
  induction t with
  | struct id => rw [h.rest]; rfl
  | array e n ih => rw [Heart.typeLexemes, Heart.typeLexemes, ih]
  | const t ih => rw [Heart.typeLexemes, Heart.typeLexemes, ih]
  | ref t ih => rw [Heart.typeLexemes, Heart.typeLexemes, ih]
  | _ => rfl

/-- A type stays readable while values are interned. -/
theorem isReadableType (t : Ty) : Heart.isReadableType q t = Heart.isReadableType p t := by
  simp only [Heart.isReadableType, h.isPlain, h.typeLexemes]

/-- What starts a constant does not depend on what is interned. -/
theorem startsConstant (t : Ty) : Heart.startsConstant q t = Heart.startsConstant p t := by
  simp only [Heart.startsConstant, h.typeLexemes]

/-- A text that is found is the same text later, and is found there. -/
theorem find?_textAt {id : TextId} (hid : p.texts.find? (p.textAt id) = some id) :
    q.textAt id = p.textAt id ∧ q.texts.find? (q.textAt id) = some id := by
  have hget := Interner.get?_of_isPrefix h.tables.texts (Interner.get?_of_find? hid)
  have htext : q.textAt id = p.textAt id := by rw [textAt, hget, Option.getD_some]
  rw [htext]
  exact ⟨rfl, Interner.find?_of_find? h.tables.texts hid⟩

/-- A readable value stays readable while values are interned: its texts stay where they are. -/
theorem isReadableValue {v : Value} (hv : Heart.isReadableValue p v) :
    Heart.isReadableValue q v := by
  match v with
  | .void | .bool _ | .int32 _ | .int64 _ => rfl
  | .float32 b => simpa only [Heart.isReadableValue, isReadableFloat, valueText] using hv
  | .float64 b => simpa only [Heart.isReadableValue, isReadableFloat, valueText] using hv
  | .string id =>
      simp only [Heart.isReadableValue, beq_iff_eq] at hv ⊢
      exact (h.find?_textAt hv).2
  | .aggregate t vs =>
      simp only [Heart.isReadableValue, Bool.and_eq_true, areReadableValues_iff] at hv ⊢
      rw [h.isReadableType, h.startsConstant]
      exact ⟨hv.1, fun v hmem => isReadableValue (hv.2 v hmem)⟩
  | .zero t =>
      simp only [Heart.isReadableValue] at hv ⊢
      rwa [h.isReadableType, h.startsConstant]

end Program.Interns

end SignalGraph

namespace SignalGraph.Heart

/-! ## Names -/

/-- No character of a word is a colon. -/
theorem not_mem_of_all_isIdentChar {cs : List Char} (h : cs.all isIdentChar) : ':' ∉ cs := by
  intro hmem
  have hcolon := List.all_eq_true.mp h ':' hmem
  contradiction

/-- Identifiers are made of the characters of words. -/
theorem all_isIdentChar_of_isIdentifier {w : String} (h : isIdentifier w) :
    w.toList.all isIdentChar := by
  unfold isIdentifier at h
  split at h
  · next c cs heq =>
    rw [heq, List.all_cons]
    rw [Bool.and_eq_true] at h ⊢
    exact ⟨isIdentChar_of_isIdentStart h.1, h.2⟩
  · cases h

/-- No identifier has a colon in it. -/
theorem not_mem_of_isIdentifier {w : String} (h : isIdentifier w) : ':' ∉ w.toList :=
  not_mem_of_all_isIdentChar (all_isIdentChar_of_isIdentifier h)

/-- Characters that are no colons belong to the part of the path that is being read. -/
theorem splitParts_append {cs : List Char} (word rest : List Char) (h : ':' ∉ cs) :
    splitParts word (cs ++ rest) = splitParts (cs.reverse ++ word) rest := by
  induction cs generalizing word with
  | nil => rfl
  | cons c cs ih =>
      rw [List.mem_cons, not_or] at h
      have hcons : splitParts word (c :: (cs ++ rest)) = splitParts (c :: word) (cs ++ rest) := by
        rw [splitParts]
        intro _ hc
        exact absurd hc.symm h.1
      rw [List.cons_append, hcons, ih _ h.2]
      simp

/-- The parts of identifiers joined by `::` are the identifiers. -/
theorem nameParts_intercalate {w : String} {parts : List String}
    (h : ∀ v ∈ w :: parts, isIdentifier v) : nameParts ("::".intercalate (w :: parts)) =
      w :: parts := by
  induction parts generalizing w with
  | nil =>
      have hw := not_mem_of_isIdentifier (h w (by simp))
      have hgo := splitParts_append [] [] hw
      rw [List.append_nil] at hgo
      rw [String.intercalate_singleton, nameParts, hgo]
      simp [splitParts]
  | cons v parts ih =>
      have hw := not_mem_of_isIdentifier (h w (by simp))
      have hrest := ih fun u hu => h u (List.mem_cons_of_mem _ hu)
      have hcolons : "::".toList = [':', ':'] := by decide
      rw [String.intercalate_cons_cons, nameParts, String.toList_append, String.toList_append,
        hcolons, List.append_assoc, splitParts_append _ _ hw]
      simp only [List.append_nil, List.cons_append, List.nil_append, splitParts,
        List.reverse_reverse, String.ofList_toList]
      rw [← nameParts, hrest]

/-- The owner and the name into which identifiers joined by `::` are cut. -/
theorem of_splitPath?_intercalate {w : String} {parts : List String} {owner name : String}
    (h : ∀ v ∈ w :: parts, isIdentifier v)
    (hsplit : splitPath? ("::".intercalate (w :: parts)) = some (owner, name)) :
    isName owner ∧ isIdentifier name ∧ firstWord owner = w := by
  rcases List.eq_nil_or_concat parts with rfl | ⟨init, last, rfl⟩
  · rw [String.intercalate_singleton,
      splitPath?_eq_none (not_mem_of_isIdentifier (h w (by simp)))] at hsplit
    cases hsplit
  · have hinit : ∀ v ∈ w :: init, isIdentifier v := by
      intro v hv
      refine h v ?_
      simp only [List.mem_cons, List.concat_eq_append, List.mem_append] at hv ⊢
      tauto
    have hlast := h last (by simp)
    have hparts := nameParts_intercalate hinit
    have happend : "::".intercalate (w :: init.concat last) =
        "::".intercalate (w :: init) ++ "::" ++ last := by
      rw [List.concat_eq_append, ← List.cons_append, String.intercalate_append_of_ne_nil (by simp)
        (by simp), String.intercalate_singleton]
    rw [happend, splitPath?_path (not_mem_of_isIdentifier hlast)] at hsplit
    cases hsplit
    refine ⟨?_, hlast, ?_⟩
    · rw [isName, hparts]
      exact List.all_eq_true.mpr hinit
    · rw [firstWord, hparts]
      rfl

/-! ## Floats -/

/-- No ratio is rounded past infinity. -/
theorem roundRatio_le (f : Float.Format) (num den : Nat) :
    Float.roundRatio f num den ≤ f.infinityBits := by
  unfold Float.roundRatio
  split
  · exact Nat.zero_le _
  · exact Nat.min_le_right _ _

/-- A magnitude below infinity makes a finite float of either sign. -/
theorem isFinite_withSign {f : Float.Format} (neg : Bool) {m : Nat} (hm : m < f.infinityBits) :
    Float.isFinite f (f.withSign neg m) := by
  have hpos : 0 < 2 ^ f.fracBits := Nat.two_pow_pos _
  have hexp : m / 2 ^ f.fracBits < 2 ^ f.expBits - 1 := by
    rw [Float.Format.infinityBits, Nat.shiftLeft_eq, Nat.shiftLeft_eq, Nat.one_mul] at hm
    exact Nat.div_lt_of_lt_mul (by rwa [Nat.mul_comm])
  have hlt : m / 2 ^ f.fracBits < 2 ^ f.expBits := Nat.lt_of_lt_of_le hexp (Nat.sub_le _ _)
  have hbits : f.withSign neg m / 2 ^ f.fracBits % 2 ^ f.expBits = m / 2 ^ f.fracBits := by
    cases neg with
    | false => exact Nat.mod_eq_of_lt hlt
    | true =>
        rw [Float.Format.withSign, if_pos rfl, Float.Format.signBit, Nat.shiftLeft_eq, Nat.one_mul,
          Nat.pow_add, Nat.mul_add_div hpos, Nat.add_mod_left, Nat.mod_eq_of_lt hlt]
  unfold Float.isFinite Float.decode
  simp only [Nat.shiftRight_eq_div_pow, Nat.shiftLeft_eq, Nat.one_mul, hbits]
  rw [if_neg (Nat.ne_of_lt hexp)]
  by_cases hzero : m / 2 ^ f.fracBits = 0
  · rw [if_pos hzero]
  · rw [if_neg hzero]

/-- Every decimal is rounded to a magnitude up to infinity, with its sign. -/
theorem exists_ofDecimal_eq (f : Float.Format) (neg : Bool) (d : Float.Decimal) :
    ∃ magnitude, magnitude ≤ f.infinityBits ∧
      Float.ofDecimal f neg d = f.withSign neg magnitude := by
  refine ⟨_, ?_, rfl⟩
  split
  · exact Nat.zero_le _
  · split
    · exact Nat.le_refl _
    · split
      · exact Nat.zero_le _
      · exact roundRatio_le _ _ _

/-- A float that is read has the bits of a magnitude up to infinity, and a sign. -/
theorem exists_ofText_eq (f : Float.Format) (text : String) :
    ∃ neg magnitude, magnitude ≤ f.infinityBits ∧ Float.ofText f text = f.withSign neg magnitude :=
  ⟨_, exists_ofDecimal_eq f _ (Float.readDecimal text.toList).2⟩

namespace Parser

variable {α : Type} {x : Parser α} {s s' : ParserState} {a : α} {scope : Scope}

/-- A parser that adds nothing leaves the program as it is. -/
theorem program_of_run [hx : Still x] (h : x.run s = .ok (a, s')) : s'.program = s.program :=
  hx.still s.program s.cursor a s' h

/-- A parser that only interns leaves a program with more values. -/
theorem interns_of_run [hx : Follows Program.Interns x] (h : x.run s = .ok (a, s')) :
    s.program.Interns s'.program := (hx.along s.program s.cursor a s' h).1

/-- A state from which can be read: the place is clean, what the program lists belongs to the
modules that list it, and the names in scope are those of local variables. -/
structure Ready (scope : Scope) (s : ParserState) : Prop where
  listed : s.program.ListedByOwner
  names : scope.Names s.program
  clean : s.cursor.Clean

/-- After parts of an expression the parser is ready for the next part. -/
theorem Ready.after {β : Type} {y : Parser β} [Inline y] [Follows Program.Interns y] {b : β}
    (hs : Ready scope s) (h : y.run s = .ok (b, s')) : Ready scope s' where
  listed := (interns_of_run h).listed hs.listed
  names := (interns_of_run h).names hs.names
  clean := Inline.clean h hs.clean

/-- After a token the parser is ready for what follows. -/
theorem Ready.next (hs : Ready scope s) : Ready scope { s with cursor := s.cursor.next } :=
  ⟨hs.listed, hs.names, hs.clean.next⟩

/-- What is read as an identifier is one. -/
theorem isIdentifier_of_run {w : String} (hs : s.cursor.Clean)
    (h : identifier.run s = .ok (w, s')) :
    isIdentifier w := by
  obtain ⟨hkind, rfl, -⟩ := run_identifier_eq_ok h
  exact hs.current.word hkind

/-- The parts that are read after the first word of a path are identifiers, by induction on their
number. -/
theorem parts_of_run_go {name path : String} {n : Nat} (hs : s.cursor.Clean)
    (h : (qualifiedName.go name n).run s = .ok (path, s')) :
    ∃ parts, path = parts.foldl (fun name part => name ++ "::" ++ part) name ∧
      (∀ v ∈ parts, isIdentifier v) ∧ (s.cursor.current.kind ≠ .doubleColon → parts = []) := by
  induction n generalizing name s with
  | zero =>
      obtain ⟨rfl, rfl⟩ := run_pure_eq_ok.mp h
      exact ⟨[], rfl, by simp, fun _ => rfl⟩
  | succ n ih =>
      rw [qualifiedName.go, run_at_bind, run_nextIs_bind] at h
      split at h
      · next hcolon =>
        simp only [Bool.and_eq_true, decide_eq_true_eq] at hcolon
        rw [run_advance_bind] at h
        obtain ⟨part, s₁, hpart, h⟩ := run_bind_eq_ok.mp h
        have hclean : s.cursor.next.Clean := hs.next
        have hidentifier :=
          isIdentifier_of_run (s := { s with cursor := s.cursor.next }) hclean hpart
        obtain ⟨parts, rfl, hparts, -⟩ := ih (Inline.clean hpart hclean) h
        refine ⟨part :: parts, rfl, ?_, fun hne => absurd hcolon.1 hne⟩
        exact List.forall_mem_cons.mpr ⟨hidentifier, hparts⟩
      · obtain ⟨rfl, rfl⟩ := run_pure_eq_ok.mp h
        exact ⟨[], rfl, by simp, fun _ => rfl⟩

/-- A name that is read consists of identifiers, the first of which is the current token. -/
theorem parts_of_run {path : String} (hs : s.cursor.Clean)
    (h : qualifiedName.run s = .ok (path, s')) :
      ∃ parts, path = "::".intercalate (s.cursor.current.text :: parts) ∧
        (∀ v ∈ s.cursor.current.text :: parts, isIdentifier v) ∧
      (s.cursor.kindAt 1 ≠ .doubleColon → parts = []) := by
  obtain ⟨w, s₁, hw, h⟩ := run_bind_eq_ok.mp h
  rw [run_bound_bind] at h
  obtain ⟨parts, rfl, hparts, hone⟩ := parts_of_run_go (Inline.clean hw hs) h
  have hidentifier := isIdentifier_of_run hs hw
  obtain ⟨hkind, rfl, rfl⟩ := run_identifier_eq_ok hw
  refine ⟨parts, (intercalate_eq_foldl _ _).symm, List.forall_mem_cons.mpr ⟨hidentifier, hparts⟩,
    fun hne => hone fun hcolon => hne ?_⟩
  exact Cursor.kindAt_one_of_next hcolon (by rw [hkind]; decide)

/-- What is found by a name that was read. -/
theorem named_of_run {path owner name : String} (hs : s.cursor.Clean)
    (h : qualifiedName.run s = .ok (path, s')) (hsplit : splitPath? path = some (owner, name)) :
    isName owner ∧ isIdentifier name ∧ firstWord owner = s.cursor.current.text ∧
      s.cursor.kindAt 1 = .doubleColon := by
  obtain ⟨parts, rfl, hparts, hone⟩ := parts_of_run hs h
  obtain ⟨howner, hname, hfirst⟩ := of_splitPath?_intercalate hparts hsplit
  refine ⟨howner, hname, hfirst, Decidable.by_contra fun hne => ?_⟩
  rw [hone hne, String.intercalate_singleton,
    splitPath?_eq_none (not_mem_of_isIdentifier (hparts _ (by simp)))] at hsplit
  cases hsplit

/-- What is read as a natural number can be a length. -/
theorem isLength_of_run {n : Nat} (h : natural.run s = .ok (n, s')) : isLength n := by
  obtain ⟨t, s₁, -, h⟩ := run_bind_eq_ok.mp h
  extract_lets jp at h
  have hjp : ∀ r s₁, (jp r).run s₁ = .ok (n, s') → isLength n := by
    intro r s₁ h
    unfold jp at h
    split at h
    · next i hi =>
      obtain ⟨rfl, rfl⟩ := run_pure_eq_ok.mp h
      obtain ⟨-, hrange⟩ := Option.filter_eq_some_iff.mp hi
      simp only [Bool.and_eq_true, decide_eq_true_eq] at hrange
      have hsize : UInt32.size = 4294967296 := rfl
      simp only [isLength, decide_eq_true_eq]
      omega
    · exact (run_fail_ne_ok.mp h).elim
  clear_value jp
  split at h
  · obtain ⟨_, _, hfail, -⟩ := run_bind_eq_ok.mp h
    exact (run_fail_ne_ok.mp hfail).elim
  · exact hjp _ _ h

/-! ## Types -/

/-- A type without qualifiers that is readable where the parser read it: its first word stands
there, and if it starts with the path of a struct then that path stands there. -/
structure PlainAt (s : ParserState) (t : Ty) : Prop where
  kind : s.cursor.current.kind = .identifier
  plain : isPlain s.program t
  head : (typeLexemes s.program t).head? = some (.identifier, s.cursor.current.text)
  leading : ∀ id, leadingStruct t = some id → s.cursor.kindAt 1 = .doubleColon ∧
    ∃ path s', qualifiedName.run s = .ok (path, s') ∧ s.program.structName id = path

/-- A type starts with its own first lexeme, whatever follows it. -/
theorem head?_typeLexemes_append (p : Program) (t : Ty) (ls : List Lexeme) :
    (typeLexemes p t ++ ls).head? = (typeLexemes p t).head? := by
  obtain ⟨w, us, hus⟩ := typeLexemes_eq_cons p t
  rw [hus, List.cons_append, List.head?_cons, List.head?_cons]

/-- An array of a type that was read here is one that is read here. -/
theorem PlainAt.array {t : Ty} (h : PlainAt s t) {n : Option Nat} (hn : n.all isLength) :
    PlainAt s (.array t n) where
  kind := h.kind
  plain := by simp [isPlain, h.plain, hn]
  head := by rw [typeLexemes, head?_typeLexemes_append, h.head]
  leading := h.leading

/-- A path that leads to a struct is read as that struct if it is no other type first. -/
theorem plainAt_struct {id : StructId} {path : String} (hs : Ready scope s)
    (hkind : s.cursor.current.kind = .identifier)
    (hprim : Prim.ofName? s.cursor.current.text = none) (hstring : s.cursor.current.text ≠ "string")
    (hpath : qualifiedName.run s = .ok (path, s')) (hid : s.program.structByPath? path = some id) :
    PlainAt s (.struct id) := by
  have hsplit := hs.listed.splitPath?_of_structByPath? hid
  have hname := eq_of_splitPath? hsplit
  obtain ⟨howner, hidentifier, hfirst, hcolon⟩ := named_of_run hs.clean hpath hsplit
  refine ⟨hkind, ?_, ?_, fun id' hid' => ⟨hcolon, path, s', hpath, ?_⟩⟩
  · have hfound : s.program.structByPath? (s.program.structName id) = some id := by
      rw [Program.structName, ← hname, hid]
    simp [isPlain, isReadableStruct, structOwner, hfound, howner, hidentifier, hfirst, hprim,
      hstring]
  · obtain ⟨ls, hls⟩ := pathLexemes_eq (structOwner s.program id) (s.program.structAt id).name
    rw [typeLexemes, hls, List.head?_cons, structOwner, hfirst]
  · cases hid'
    rw [Program.structName, ← hname]

/-- What is read as a plain type can be written and is read again. -/
theorem plainAt_of_run {t : Ty} (hs : Ready scope s)
    (h : plainType.run s = .ok (t, s')) : PlainAt s t := by
  unfold plainType at h
  rw [run_current_bind] at h
  split at h
  · simp only [expected, run_current_bind, run_fail_ne_ok] at h
  · next hkind =>
    have hkind := Decidable.not_not.mp hkind
    split at h
    -- the word is the name of a primitive type, then perhaps a vector size, or it begins a path
    · next k hk =>
      have hname : k.name = s.cursor.current.text := by
        simpa using List.find?_some hk
      rw [run_advance_bind, run_eat_bind] at h
      split at h
      · simp only [if_true] at h
        obtain ⟨n, s₁, hn, h⟩ := run_bind_eq_ok.mp h
        obtain ⟨_, s₂, -, h⟩ := run_bind_eq_ok.mp h
        obtain ⟨rfl, rfl⟩ := run_pure_eq_ok.mp h
        exact ⟨hkind, isLength_of_run hn, by rw [typeLexemes, List.head?_cons, hname],
          fun _ hid => by cases hid⟩
      · simp only [Bool.false_eq_true, if_false] at h
        obtain ⟨rfl, rfl⟩ := run_pure_eq_ok.mp h
        exact ⟨hkind, rfl, by rw [typeLexemes, List.head?_cons, hname], fun _ hid => by cases hid⟩
    · next hprim =>
      split at h
      · next hstring =>
        rw [run_advance_bind] at h
        obtain ⟨rfl, rfl⟩ := run_pure_eq_ok.mp h
        exact ⟨hkind, rfl, by rw [typeLexemes, List.head?_cons, hstring], fun _ hid => by cases hid⟩
      · next hstring =>
        obtain ⟨path, s₁, hpath, h⟩ := run_bind_eq_ok.mp h
        rw [run_program_bind, program_of_run hpath] at h
        split at h
        · next id hid =>
          obtain ⟨rfl, rfl⟩ := run_pure_eq_ok.mp h
          exact plainAt_struct hs hkind hprim hstring hpath hid
        · exact (run_fail_ne_ok.mp h).elim

/-- Suffixes after a plain type make a plain type again, by induction on their number. -/
theorem plainAt_of_run_arraySuffixes {s₀ : ParserState} {t t' : Ty} {n : Nat} (ht : PlainAt s₀ t)
    (h : (arraySuffixes n t).run s = .ok (t', s')) : PlainAt s₀ t' := by
  induction n generalizing t s with
  | zero =>
      obtain ⟨rfl, rfl⟩ := run_pure_eq_ok.mp h
      exact ht
  | succ n ih =>
      rw [arraySuffixes, run_atArraySuffix_bind] at h
      split at h
      · rw [run_advance_bind, run_eat_bind] at h
        split at h
        · exact ih (ht.array rfl) h
        · simp only [Bool.false_eq_true, if_false] at h
          obtain ⟨length, s₁, hlength, h⟩ := run_bind_eq_ok.mp h
          obtain ⟨_, s₂, -, h⟩ := run_bind_eq_ok.mp h
          exact ih (ht.array (by simpa using isLength_of_run hlength)) h
      · obtain ⟨rfl, rfl⟩ := run_pure_eq_ok.mp h
        exact ht

/-- A type that is readable where the parser read it. -/
structure TypeAt (s : ParserState) (t : Ty) : Prop where
  kind : s.cursor.current.kind = .identifier
  readable : isReadableType s.program t
  head : (typeLexemes s.program t).head? = some (.identifier, s.cursor.current.text)
  leading : ∀ id, leadingStruct t = some id → s.cursor.kindAt 1 = .doubleColon ∧
    ∃ path s', qualifiedName.run s = .ok (path, s') ∧ s.program.structName id = path

/-- A plain type that does not start with the word `const` is a type. -/
theorem PlainAt.type {t : Ty} (h : PlainAt s t) (hconst : s.cursor.current.text ≠ "const") :
    TypeAt s t := by
  refine ⟨h.kind, ?_, h.head, h.leading⟩
  have hplain := h.plain
  have hhead := h.head
  unfold isReadableType
  cases t <;> simp_all [Ty.unreferenced, isPlain]

/-- A type that was read here makes a reference that is read here. -/
theorem TypeAt.asReference {t : Ty} (h : TypeAt s t) : TypeAt s t.asReference := by
  cases t with
  | ref t => exact h
  | _ =>
      exact ⟨h.kind, h.readable, (head?_typeLexemes_append _ _ _).trans h.head, h.leading⟩

/-- A type after the word `const`. -/
theorem PlainAt.asConst {s₀ : ParserState} {t : Ty} (h : PlainAt s t)
    (hprogram : s.program = s₀.program) (hkind : s₀.cursor.current.kind = .identifier)
    (hconst : s₀.cursor.current.text = "const") : TypeAt s₀ t.asConst := by
  have hplain := h.plain
  rw [hprogram] at hplain
  have hasConst : t.asConst = .const t := by cases t <;> simp_all [isPlain, Ty.asConst]
  rw [hasConst]
  exact ⟨hkind, hplain, by rw [typeLexemes, List.head?_cons, hconst], fun _ hid => by cases hid⟩

/-- What is read as a type can be written and is read again. -/
theorem typeAt_of_run {t : Ty} (hs : Ready scope s)
    (h : type.run s = .ok (t, s')) : TypeAt s t := by
  unfold type eatKeyword at h
  rw [bind_assoc, run_atKeyword_bind] at h
  -- what follows is read alike with and without the word for constants in front
  have hrest : ∀ (isConst : Bool) (s₁ : ParserState),
      (∀ u, PlainAt s₁ u → TypeAt s (if isConst then u.asConst else u)) →
      Ready scope s₁ →
      (do
        let t ← arraySuffixes (← bound) (← plainType)
        let t := if isConst then t.asConst else t
        if ← eat .ampersand then return t.asReference else return t).run s₁ = .ok (t, s') →
      TypeAt s t := by
    intro isConst s₁ hu hs₁ h
    rw [run_bound_bind] at h
    obtain ⟨u, s₂, hplain, h⟩ := run_bind_eq_ok.mp h
    obtain ⟨u', s₃, hsuffixes, h⟩ := run_bind_eq_ok.mp h
    have hplain := plainAt_of_run hs₁ hplain
    have htype := hu u' (plainAt_of_run_arraySuffixes hplain hsuffixes)
    simp only [run_eat_bind] at h
    split at h
    · obtain ⟨rfl, rfl⟩ := run_pure_eq_ok.mp h
      exact htype.asReference
    · obtain ⟨rfl, rfl⟩ := run_pure_eq_ok.mp h
      exact htype
  split at h
  · next hconst =>
    simp only [Bool.and_eq_true, decide_eq_true_eq] at hconst
    exact hrest true { s with cursor := s.cursor.next }
      (fun u hu => hu.asConst rfl hconst.1 hconst.2) hs.next h
  · next hconst =>
    refine hrest false s (fun u hu => hu.type fun htext => hconst ?_) hs h
    simp [hu.kind, htext]

/-! ## Constants -/

section

variable {close : TokenKind} {P : Program → α → Prop} [Inline x] [Follows Program.Interns x]
  (hmono : ∀ q r a, q.Interns r → P q a → P r a)
  (hx : ∀ {s a s'}, Ready scope s → x.run s = .ok (a, s') → P s'.program a)

include hmono hx

/-- What is read between commas has the property that its elements have when they are read, by
induction on their number. -/
theorem forall_of_run_commaList_go {as : List α} {n : Nat} (hs : Ready scope s)
    (h : (commaList.go close x n).run s = .ok (as, s')) :
    s.program.Interns s'.program ∧ ∀ a ∈ as, P s'.program a := by
  induction n generalizing s as with
  | zero => simp only [commaList.go, expected, run_current_bind, run_fail_ne_ok] at h
  | succ n ih =>
      obtain ⟨a, s₁, ha, h⟩ := run_bind_eq_ok.mp h
      have hgrown := interns_of_run ha
      have hitem := hx hs ha
      rw [run_eat_bind] at h
      split at h
      · obtain ⟨rfl, rfl⟩ := run_pure_eq_ok.mp h
        exact ⟨hgrown, by simpa using hitem⟩
      · simp only [Bool.false_eq_true, if_false] at h
        obtain ⟨t, s₂, ht, h⟩ := run_bind_eq_ok.mp h
        obtain ⟨as', s₃, has, h⟩ := run_bind_eq_ok.mp h
        obtain ⟨rfl, rfl⟩ := run_pure_eq_ok.mp h
        obtain ⟨hrest, hall⟩ := ih ((hs.after ha).after ht) has
        rw [program_of_run ht] at hrest
        exact ⟨IsTrans.trans _ _ _ hgrown hrest,
          List.forall_mem_cons.mpr ⟨hmono _ _ a hrest hitem, hall⟩⟩

/-- What holds of the items of a list where they are read. -/
theorem forall_of_run_commaList {as : List α} (hs : Ready scope s)
    (h : (commaList close x).run s = .ok (as, s')) : ∀ a ∈ as, P s'.program a := by
  unfold commaList at h
  rw [run_eat_bind] at h
  split at h
  · obtain ⟨rfl, rfl⟩ := run_pure_eq_ok.mp h
    simp
  · simp only [Bool.false_eq_true, if_false] at h
    rw [run_bound_bind] at h
    exact (forall_of_run_commaList_go hmono hx hs h).2

end

/-- What a literal of single precision stands for is a number or an infinity. -/
theorem isReadableValue_float32 (p : Program) (text : String) :
    isReadableValue p (.float32 (Float.ofText Float.binary32 text).toUInt32) := by
  obtain ⟨neg, m, hm, hbits⟩ := exists_ofText_eq Float.binary32 text
  rw [hbits]
  rcases Nat.lt_or_eq_of_le hm with hlt | rfl
  · have hsize : Float.binary32.withSign neg m < UInt32.size := by
      have hinf : Float.binary32.infinityBits = 2139095040 := by decide
      have hsign : Float.binary32.signBit = 2147483648 := by decide
      simp only [Float.Format.withSign, hsign, UInt32.size]
      split <;> omega
    have hbits : (Float.binary32.withSign neg m).toUInt32.toNat = Float.binary32.withSign neg m :=
      UInt32.toNat_ofNat_of_lt' hsize
    simp [isReadableValue, isReadableFloat, Value.isFinite, hbits, isFinite_withSign neg hlt]
  · cases neg <;> rfl

theorem isReadableValue_float64 (p : Program) (text : String) :
    isReadableValue p (.float64 (Float.ofText Float.binary64 text).toUInt64) := by
  obtain ⟨neg, m, hm, hbits⟩ := exists_ofText_eq Float.binary64 text
  rw [hbits]
  rcases Nat.lt_or_eq_of_le hm with hlt | rfl
  · have hsize : Float.binary64.withSign neg m < UInt64.size := by
      have hinf : Float.binary64.infinityBits = 9218868437227405312 := by decide
      have hsign : Float.binary64.signBit = 9223372036854775808 := by decide
      simp only [Float.Format.withSign, hsign, UInt64.size]
      split <;> omega
    have hbits : (Float.binary64.withSign neg m).toUInt64.toNat = Float.binary64.withSign neg m :=
      UInt64.toNat_ofNat_of_lt' hsize
    simp [isReadableValue, isReadableFloat, Value.isFinite, hbits, isFinite_withSign neg hlt]
  · cases neg <;> rfl

/-- What is read as a float can be written as one. -/
theorem isReadableValue_floatValue (p : Program) (text : String) :
    isReadableValue p (floatValue text) := by
  unfold floatValue
  split
  · exact isReadableValue_float32 p text
  · exact isReadableValue_float64 p text

/-- Named values can be written. -/
theorem isReadableValue_of_namedValue? {p : Program} {w : String} {v : Value}
    (h : namedValue? w = some v) : isReadableValue p v := by
  unfold namedValue? at h
  split at h <;> cases h <;> rfl

/-- What is read as an integer can be written as one. -/
theorem isReadableValue_of_integerValue? {p : Program} {text : String} {v : Value}
    (h : integerValue? text = some v) : isReadableValue p v := by
  unfold integerValue? at h
  split at h <;> (obtain ⟨n, -, rfl⟩ := Option.map_eq_some_iff.mp h; rfl)

/-- A text that was just interned can be written. -/
theorem isReadableValue_internText {p : Program} {text : String} :
    isReadableValue (p.internText text).2 (.string (p.internText text).1) := by
  have htext : (p.internText text).2.textAt (p.internText text).1 = text := by
    rw [Program.textAt, show (p.internText text).2.texts.get? (p.internText text).1 = some text from
      Interner.get?_intern p.texts text, Option.getD_some]
  simp only [isReadableValue, htext, beq_iff_eq]
  exact Interner.find?_intern p.texts text

/-- The word of a type without parts, before a parenthesis. -/
theorem yields_type_prim {p : Program} {k : Prim} {l : Lexeme} {ls : List Lexeme}
    (hl : l.1 = .leftParen) :
    Yields type ((.identifier, k.name) :: l :: ls) p (.prim k) (l :: ls) := by
  refine .eatKeyword_not (by cases k <;> decide) (.bound ?_)
  refine (yields_prim (by simp [hl])).bind ((yields_arraySuffixes (by simp [hl])).bind ?_)
  exact .eat_not (by simp [hl]) .pure

/-- If the next token but one is not the end, the lexemes start with two. -/
theorem lexemes_of_kindAt_one {c : Cursor} {kind : TokenKind} (hkind : kind ≠ .eof)
    (h : c.kindAt 1 = kind) :
    ∃ l ls, l.1 = kind ∧ c.lexemes = c.current.lexeme :: l :: ls := by
  match hrest : c.rest with
  | [] | [_] => simp [Cursor.kindAt, hrest, hkind.symm] at h
  | t :: u :: rest =>
      refine ⟨u.lexeme, rest.map Token.lexeme, ?_, by simp [Cursor.lexemes, Cursor.current, hrest]⟩
      simpa [Cursor.kindAt, hrest, Token.lexeme] using h

/-- A type that the parser reads after it has found no named constant starts a constant. -/
theorem startsConstant_of_run {t : Ty} (ht : TypeAt s t) (h : type.run s = .ok (t, s'))
    (hkind : s.cursor.current.kind = .identifier)
    (hnamed : namedValue? s.cursor.current.text = none)
    (hvoid : s.cursor.current.text = "void" → s.cursor.kindAt 1 = .leftParen) :
    startsConstant s.program t := by
  have hhead := ht.head
  unfold startsConstant
  split
  · next heq => simp [heq] at hhead
  · next w heq =>
    rw [heq, List.head?_cons] at hhead
    cases hhead
    simpa using hnamed
  · next w ls hne heq =>
    rw [heq, List.head?_cons] at hhead
    cases hhead
    simp only [hnamed, Option.isNone_none, Bool.true_and, bne_iff_ne]
    intro htext
    obtain ⟨l', ls', hl', hlexemes⟩ := lexemes_of_kindAt_one (by decide) (hvoid htext)
    rw [Token.lexeme, hkind, htext] at hlexemes
    obtain ⟨c, -, hrun⟩ := yields_type_prim (k := .void) hl' s.cursor hlexemes
    rw [show (⟨s.cursor, s.program⟩ : ParserState) = s from rfl, h] at hrun
    cases hrun
    simp only [typeLexemes, List.cons.injEq] at heq
    exact hne heq.2.symm

/-- Constants that are read can be written if the constants within them can. -/
theorem isReadableValue_of_run_constantWith {element : Parser Value} [Inline element]
    [Follows Program.Interns element]
    (helement : ∀ {s v s'}, Ready scope s → element.run s = .ok (v, s') →
      isReadableValue s'.program v)
    {v : Value} (hs : Ready scope s)
    (h : (constantWith element).run s = .ok (v, s')) : isReadableValue s'.program v := by
  unfold constantWith at h
  rw [run_current_bind] at h
  split at h
  -- the cases are those of the reader: integers, floats, texts, names, and at last typed values
  · split at h
    · next v hv =>
      rw [run_advance_bind] at h
      obtain ⟨rfl, rfl⟩ := run_pure_eq_ok.mp h
      exact isReadableValue_of_integerValue? hv
    · exact (run_fail_ne_ok.mp h).elim
  · rw [run_advance_bind] at h
    obtain ⟨rfl, rfl⟩ := run_pure_eq_ok.mp h
    exact isReadableValue_floatValue _ _
  · rw [run_add_bind, run_advance_bind] at h
    obtain ⟨rfl, rfl⟩ := run_pure_eq_ok.mp h
    exact isReadableValue_internText
  · next hkind =>
    rw [run_nextIs_bind] at h
    generalize hnamed : (namedValue? s.cursor.current.text <|> _) = named at h
    simp only [Option.orElse_eq_orElse, Option.orElse_eq_or] at hnamed
    cases named with
    | some v =>
      rw [run_advance_bind] at h
      obtain ⟨rfl, rfl⟩ := run_pure_eq_ok.mp h
      rcases Option.or_eq_some_iff.mp hnamed with hv | ⟨-, hv⟩
      · exact isReadableValue_of_namedValue? hv
      · obtain ⟨-, hvoid⟩ := Option.ite_none_right_eq_some.mp hv
        cases hvoid
        rfl
    | none =>
      obtain ⟨t, s₁, ht, h⟩ := run_bind_eq_ok.mp h
      obtain ⟨_, s₂, hparen, h⟩ := run_bind_eq_ok.mp h
      obtain ⟨vs, s₃, hvs, h⟩ := run_bind_eq_ok.mp h
      obtain ⟨rfl, rfl⟩ := run_pure_eq_ok.mp h
      obtain ⟨hnone, hvoid⟩ := Option.or_eq_none_iff.mp hnamed
      -- a typed value: its type can be read again, and does not begin like any of the other
      -- constants
      have htype := typeAt_of_run hs ht
      have hstarts := startsConstant_of_run htype ht hkind hnone fun htext => by
        simpa [htext] using hvoid
      have hprogram : s₂.program = s.program := (program_of_run hparen).trans (program_of_run ht)
      have hgrown := interns_of_run hvs
      have hall := forall_of_run_commaList (P := fun q v => isReadableValue q v)
        (fun q r v hqr hv => hqr.isReadableValue hv) helement ((hs.after ht).after hparen) hvs
      rw [hprogram] at hgrown
      have hreadable := htype.readable
      rw [← hgrown.isReadableType] at hreadable
      rw [← hgrown.startsConstant] at hstarts
      unfold Value.ofElements
      split
      · simp [isReadableValue, hreadable, hstarts]
      · next hne =>
        simp only [isReadableValue, hreadable, hstarts, Bool.and_eq_true, areReadableValues_iff,
          Bool.not_eq_true', true_and]
        exact ⟨by simpa using hne, hall⟩
  · simp only [expected, run_current_bind, run_fail_ne_ok] at h

/-- Constants that are read can be written, by induction on the depth of nesting. -/
theorem isReadableValue_of_run_constantTo {n : Nat} {v : Value} (hs : Ready scope s)
    (h : (constantTo n).run s = .ok (v, s')) :
    isReadableValue s'.program v := by
  induction n generalizing s v s' with
  | zero => simp only [constantTo, expected, run_current_bind, run_fail_ne_ok] at h
  | succ n ih => exact isReadableValue_of_run_constantWith ih hs h

/-- A constant that is added to the program is found there. -/
theorem of_run_internedConstant {id : ConstantId} (hs : Ready scope s)
    (h : internedConstant.run s = .ok (id, s')) :
    isReadableValue s'.program (s'.program.constantAt id) ∧
      s'.program.constants.find? (s'.program.constantAt id) = some id ∧
      ∃ n s₁, (constantTo n).run s = .ok (s'.program.constantAt id, s₁) ∧
        s'.cursor = s₁.cursor := by
  obtain ⟨v, s₁, hv, h⟩ := run_bind_eq_ok.mp h
  unfold constant at hv
  rw [run_bound_bind] at hv
  have hrun : (add (·.intern v)).run s₁ =
      .ok ((s₁.program.intern v).1, { s₁ with program := (s₁.program.intern v).2 }) := rfl
  simp only [hrun, Except.ok.injEq, Prod.mk.injEq] at h
  obtain ⟨rfl, rfl⟩ := h
  have hvalue : (s₁.program.intern v).2.constantAt (s₁.program.intern v).1 = v :=
    Arena.get_eq_of_get? (Interner.get?_intern s₁.program.constants v)
  have hgrown := Program.AllowsTables.intern (R := Program.Interns) s₁.program v
  rw [hvalue]
  exact ⟨hgrown.isReadableValue (isReadableValue_of_run_constantTo hs hv),
    Interner.find?_intern s₁.program.constants v, _, s₁, hv, rfl⟩

end Parser

end SignalGraph.Heart

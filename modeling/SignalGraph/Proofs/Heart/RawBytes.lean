import SignalGraph.Proofs.Heart.Spelling

/-!
# SignalGraph.Proofs.Heart.RawBytes

Lexing byte by byte.  All characters that the lexer asks for are ASCII, so its rules can be put to
the bytes of a text one by one, without decoding them: the bytes of other characters are none of
those.  Only to report a fault a character is decoded.  The walk over the bytes (`lexBytes`) finds
the same tokens and faults at the same places (`lexBytes_utf8`), although it does not know where
characters start.
-/

namespace SignalGraph

namespace Text

/-! ## Bytes of characters -/

/-- The UTF-8 form. -/
def utf8 (cs : List Char) : List UInt8 := cs.flatMap String.utf8EncodeChar

/-- Bytes as characters: every byte stands for the character with its code. -/
def latin (bs : List UInt8) : List Char := bs.map Char.ofUInt8

/-- The bytes of characters, as characters themselves. -/
def raw (cs : List Char) : List Char := latin (utf8 cs)

def IsAscii (c : Char) : Prop := c.toNat < 128

instance (c : Char) : Decidable (IsAscii c) := inferInstanceAs (Decidable (c.toNat < 128))

section

variable {c d : Char} {cs ds : List Char}

theorem utf8_cons : utf8 (c :: cs) = String.utf8EncodeChar c ++ utf8 cs := List.flatMap_cons

theorem utf8_append : utf8 (cs ++ ds) = utf8 cs ++ utf8 ds := List.flatMap_append

/-- A text has as many bytes as its characters take together. -/
theorem length_utf8 (cs : List Char) : (utf8 cs).length = byteLength cs := by
  induction cs with
  | nil => rfl
  | cons c cs ih => rw [utf8_cons, List.length_append, String.length_utf8EncodeChar, ih, byteLength]

/-- Leaving out the bytes of the first characters leaves the bytes of the others. -/
theorem drop_utf8 {es : List Char} (h : es = cs ++ ds) :
    (utf8 es).drop (byteLength cs) = utf8 ds := by
  rw [h, utf8_append]
  exact List.drop_left' (length_utf8 cs)

/-- There is one raw character for each byte. -/
theorem length_raw (cs : List Char) : (raw cs).length = byteLength cs := by
  rw [raw, latin, List.length_map, length_utf8]

/-- An ASCII character takes one byte. -/
theorem IsAscii.utf8Size (h : IsAscii c) : c.utf8Size = 1 := by
  rw [Char.utf8Size_eq_one_iff, UInt32.le_iff_toNat_le]
  exact Nat.le_of_lt_succ h

theorem toNat_ofUInt8 (b : UInt8) : (Char.ofUInt8 b).toNat = b.toNat := UInt8.toNat_toUInt32 b

/-- An ASCII character is its own raw character. -/
theorem raw_cons_ascii (h : IsAscii c) : raw (c :: cs) = c :: raw cs := by
  have hc : Char.ofUInt8 c.val.toUInt8 = c := by
    refine Char.toNat_inj.mp ?_
    rw [toNat_ofUInt8, UInt32.toNat_toUInt8]
    exact Nat.mod_eq_of_lt (Nat.lt_trans h (by decide))
  rw [raw, utf8_cons, String.utf8EncodeChar_eq_singleton h.utf8Size, List.singleton_append, latin,
    List.map_cons, hc]
  rfl

/-- No byte of a character that is not ASCII is one that stands for an ASCII character. -/
theorem not_isAscii_of_mem_utf8EncodeChar (h : ¬IsAscii c) :
    ∀ d ∈ latin (String.utf8EncodeChar c), ¬IsAscii d := by
  have hc : ¬c.val.toNat ≤ 0x7f := fun hle => h (Nat.lt_succ_of_le hle)
  have hbyte : ∀ n, 128 ≤ n → n < 256 → ¬IsAscii (Char.ofUInt8 (UInt8.ofNat n)) := by
    intro n hle hlt hascii
    rw [IsAscii, toNat_ofUInt8, UInt8.toNat_ofNat', Nat.mod_eq_of_lt hlt] at hascii
    omega
  unfold String.utf8EncodeChar latin
  rw [if_neg hc]
  split
  · simp only [List.map_cons, List.map_nil, List.forall_mem_cons]
    exact ⟨hbyte _ (by omega) (by omega), hbyte _ (by omega) (by omega), List.forall_mem_nil _⟩
  · split
    · simp only [List.map_cons, List.map_nil, List.forall_mem_cons]
      exact ⟨hbyte _ (by omega) (by omega), hbyte _ (by omega) (by omega),
        hbyte _ (by omega) (by omega), List.forall_mem_nil _⟩
    · simp only [List.map_cons, List.map_nil, List.forall_mem_cons]
      exact ⟨hbyte _ (by omega) (by omega), hbyte _ (by omega) (by omega),
        hbyte _ (by omega) (by omega), hbyte _ (by omega) (by omega), List.forall_mem_nil _⟩

/-- The bytes of a character that is not ASCII come before those of the others. -/
theorem exists_raw_cons (h : ¬IsAscii c) : ∃ d ds, (∀ cs, raw (c :: cs) = d :: ds ++ raw cs) ∧
    (d :: ds).length = c.utf8Size ∧ ∀ e ∈ d :: ds, ¬IsAscii e := by
  have hcons : ∀ cs, raw (c :: cs) = latin (String.utf8EncodeChar c) ++ raw cs := by
    intro cs
    rw [raw, utf8_cons, latin, List.map_append]
    rfl
  have hlength : (latin (String.utf8EncodeChar c)).length = c.utf8Size := by
    rw [latin, List.length_map, String.length_utf8EncodeChar]
  have hhigh := not_isAscii_of_mem_utf8EncodeChar h
  cases hbytes : latin (String.utf8EncodeChar c) with
  | nil =>
      rw [hbytes] at hlength
      exact absurd hlength (Nat.ne_of_lt c.utf8Size_pos)
  | cons d ds =>
      rw [hbytes] at hcons hlength hhigh
      exact ⟨d, ds, hcons, hlength, hhigh⟩

/-! ## What only ASCII characters decide -/

/-- An ASCII character differs from every other character. -/
theorem ne_of_not_isAscii (h : ¬IsAscii c) (hd : IsAscii d) : c ≠ d := fun heq => h (heq ▸ hd)

/-- A text starts with an ASCII character exactly if its bytes do: no byte of a longer character is
ASCII. -/
theorem head?_raw (h : IsAscii d) : (raw cs).head? = some d ↔ cs.head? = some d := by
  cases cs with
  | nil => rfl
  | cons c cs =>
      by_cases hc : IsAscii c
      · rw [raw_cons_ascii hc]
        rfl
      · obtain ⟨e, es, heq, -, hhigh⟩ := exists_raw_cons hc
        rw [heq, List.cons_append, List.head?_cons, List.head?_cons, Option.some_inj,
          Option.some_inj]
        exact iff_of_false (ne_of_not_isAscii (hhigh e List.mem_cons_self) h)
          (ne_of_not_isAscii hc h)

/-- The test for a first ASCII character gives the same on the bytes. -/
theorem head?_raw_beq (h : IsAscii d) : ((raw cs).head? == some d) = (cs.head? == some d) := by
  rw [Bool.eq_iff_iff, beq_iff_eq, beq_iff_eq, head?_raw h]

/-- Every test that only ASCII characters pass gives the same on the first byte. -/
theorem any_head?_raw {p : Char → Bool} (hp : ∀ c, p c → IsAscii c) :
    (raw cs).head?.any p = cs.head?.any p := by
  cases cs with
  | nil => rfl
  | cons c cs =>
      by_cases hc : IsAscii c
      · rw [raw_cons_ascii hc]
        rfl
      · obtain ⟨e, es, heq, -, hhigh⟩ := exists_raw_cons hc
        have he : p e = false := Bool.not_eq_true _ ▸ fun h => hhigh e List.mem_cons_self (hp e h)
        have hc : p c = false := Bool.not_eq_true _ ▸ fun h => hc (hp c h)
        rw [heq, List.cons_append, List.head?_cons, List.head?_cons, Option.any_some,
          Option.any_some, he, hc]

/-- A run of characters that are all ASCII is the same run of bytes. -/
theorem takeWhile_raw {p : Char → Bool} (hp : ∀ c, p c → IsAscii c) (cs : List Char) :
    (raw cs).takeWhile p = cs.takeWhile p := by
  induction cs with
  | nil => rfl
  | cons c cs ih =>
      by_cases hc : IsAscii c
      · rw [raw_cons_ascii hc, List.takeWhile_cons, List.takeWhile_cons, ih]
      · obtain ⟨e, es, heq, -, hhigh⟩ := exists_raw_cons hc
        have he : ¬p e := fun h => hhigh e List.mem_cons_self (hp e h)
        rw [heq, List.cons_append, List.takeWhile_cons_of_neg he,
          List.takeWhile_cons_of_neg fun h => hc (hp c h)]

/-- There are `k` characters at the start, and they are ASCII. -/
structure AsciiFor (k : Nat) (cs : List Char) : Prop where
  le_length : k ≤ cs.length
  isAscii : ∀ c ∈ cs.take k, IsAscii c

theorem asciiFor_zero (cs : List Char) : AsciiFor 0 cs := ⟨Nat.zero_le _, List.forall_mem_nil _⟩

/-- One more ASCII character in front. -/
theorem asciiFor_succ {k : Nat} (hc : IsAscii c) (h : AsciiFor k cs) : AsciiFor (k + 1) (c :: cs) :=
  ⟨Nat.succ_le_succ h.le_length, List.forall_mem_cons.mpr ⟨hc, h.isAscii⟩⟩

/-- One ASCII character less in front. -/
theorem AsciiFor.pred {k : Nat} (h : AsciiFor k (c :: cs)) : AsciiFor (k - 1) cs := by
  cases k with
  | zero => exact asciiFor_zero cs
  | succ k => exact ⟨Nat.le_of_succ_le_succ h.le_length, (List.forall_mem_cons.mp h.isAscii).2⟩

/-- A run of ASCII characters and another one after it. -/
theorem AsciiFor.add {j k : Nat} (h : AsciiFor j cs) (h' : AsciiFor k (cs.drop j)) :
    AsciiFor (j + k) cs := by
  refine ⟨?_, fun c hc => ?_⟩
  · have hle := h'.le_length
    rw [List.length_drop] at hle
    have hle' := h.le_length
    omega
  · rw [List.take_add, List.mem_append] at hc
    exact hc.elim (h.isAscii c) (h'.isAscii c)

/-- Characters that pass a test which only ASCII characters pass are ASCII. -/
theorem asciiFor_takeWhile {p : Char → Bool} (hp : ∀ c, p c → IsAscii c) (cs : List Char) :
    AsciiFor (cs.takeWhile p).length cs := by
  induction cs with
  | nil => exact asciiFor_zero []
  | cons c cs ih =>
      by_cases hc : p c
      · rw [List.takeWhile_cons_of_pos hc]
        exact asciiFor_succ (hp c hc) ih
      · rw [List.takeWhile_cons_of_neg hc]
        exact asciiFor_zero _

/-- A run of ASCII characters has as many bytes as characters. -/
theorem AsciiFor.byteLength {k : Nat} (h : AsciiFor k cs) : byteLength (cs.take k) = k := by
  induction k generalizing cs with
  | zero => rfl
  | succ k ih =>
      obtain ⟨hle, hascii⟩ := h
      cases cs with
      | nil => cases hle
      | cons c cs =>
          obtain ⟨hc, hascii⟩ := List.forall_mem_cons.mp hascii
          rw [List.take_succ_cons, Text.byteLength, hc.utf8Size,
            ih ⟨Nat.le_of_succ_le_succ hle, hascii⟩, Nat.add_comm]

/-- Leaving out a run of ASCII characters leaves the bytes of what follows. -/
theorem AsciiFor.drop_raw {k : Nat} (h : AsciiFor k cs) : (raw cs).drop k = raw (cs.drop k) := by
  induction k generalizing cs with
  | zero => rfl
  | succ k ih =>
      obtain ⟨hle, hascii⟩ := h
      cases cs with
      | nil => cases hle
      | cons c cs =>
          obtain ⟨hc, hascii⟩ := List.forall_mem_cons.mp hascii
          rw [raw_cons_ascii hc, List.drop_succ_cons, List.drop_succ_cons]
          exact ih ⟨Nat.le_of_succ_le_succ hle, hascii⟩

end

end Text

namespace Heart

open Text

section

variable {c : Char} {cs : List Char}

/-- Digits are ASCII, and so is all that words, blanks and symbols are made of. -/
theorem isAscii_of_isDigit (h : c.isDigit) : IsAscii c := by
  have hle : c.val ≤ '9'.val := of_decide_eq_true (Bool.and_eq_true_iff.mp h).2
  exact Nat.lt_of_le_of_lt (UInt32.le_iff_toNat_le.mp hle) (by decide)

theorem isAscii_of_isAlpha (h : c.isAlpha) : IsAscii c := by
  rcases Bool.or_eq_true_iff.mp h with h | h
  · have hle : c.val ≤ 'Z'.val := (of_decide_eq_true h : c.val ≥ 'A'.val ∧ c.val ≤ 'Z'.val).2
    exact Nat.lt_of_le_of_lt (UInt32.le_iff_toNat_le.mp hle) (by decide)
  · have hle : c.val ≤ 'z'.val := of_decide_eq_true (Bool.and_eq_true_iff.mp h).2
    exact Nat.lt_of_le_of_lt (UInt32.le_iff_toNat_le.mp hle) (by decide)

theorem isAscii_of_isIdentStart (h : isIdentStart c) : IsAscii c := by
  rcases Bool.or_eq_true_iff.mp h with h | h
  · exact isAscii_of_isAlpha h
  · rw [eq_of_beq h]
    decide

theorem isAscii_of_isIdentChar (h : isIdentChar c) : IsAscii c := by
  rcases Bool.or_eq_true_iff.mp h with h | h
  · rcases Bool.or_eq_true_iff.mp h with h | h
    · exact isAscii_of_isAlpha h
    · exact isAscii_of_isDigit h
  · rw [eq_of_beq h]
    decide

theorem isAscii_of_isBlank (h : isBlank c) : IsAscii c := by
  simp only [isBlank, Bool.or_eq_true, beq_iff_eq] at h
  rcases h with (((rfl | rfl) | rfl) | rfl) | rfl <;> decide

/-- Symbols of the language are ASCII. -/
theorem isAscii_of_symbol? {kind : TokenKind} (h : symbol? c = some kind) : IsAscii c := by
  unfold symbol? at h
  split at h <;> first | decide | cases h

/-! ## Numbers -/

theorem asciiFor_digitCount (cs : List Char) : AsciiFor (digitCount cs) cs :=
  asciiFor_takeWhile (fun _ => isAscii_of_isDigit) cs

/-- As many digits stand at the start of a text as at the start of its bytes. -/
theorem digitCount_raw (cs : List Char) : digitCount (raw cs) = digitCount cs := by
  rw [digitCount, takeWhile_raw fun _ => isAscii_of_isDigit, digitCount]

theorem asciiFor_fractionLength (cs : List Char) : AsciiFor (fractionLength cs) cs := by
  unfold fractionLength
  split
  · split
    · exact asciiFor_zero _
    · rw [Nat.add_comm]
      exact asciiFor_succ (by decide) (asciiFor_digitCount _)
  · exact asciiFor_zero _

/-- A fraction is a dot with a digit after it, and all the digits that follow. -/
theorem fractionLength_cons (c : Char) (cs : List Char) : fractionLength (c :: cs) =
    if c = '.' then if digitCount cs = 0 then 0 else 1 + digitCount cs else 0 := by
  by_cases hc : c = '.'
  · subst hc
    rfl
  · rw [if_neg hc]
    unfold fractionLength
    split
    · next heq => exact absurd (List.cons.inj heq).1 hc
    · rfl

/-- The fraction at the start of a text is that of its bytes. -/
theorem fractionLength_raw (cs : List Char) : fractionLength (raw cs) = fractionLength cs := by
  cases cs with
  | nil => rfl
  | cons c cs =>
      by_cases hc : IsAscii c
      · rw [raw_cons_ascii hc, fractionLength_cons, fractionLength_cons, digitCount_raw]
      · obtain ⟨d, ds, heq, -, hhigh⟩ := exists_raw_cons hc
        rw [heq, List.cons_append, fractionLength_cons, fractionLength_cons,
          if_neg (ne_of_not_isAscii (hhigh d List.mem_cons_self) (by decide)),
          if_neg (ne_of_not_isAscii hc (by decide))]

/-- The number of characters of a sign. -/
def signLength (cs : List Char) : Nat :=
  if cs.head? == some '+' || cs.head? == some '-' then 1 else 0

/-- A first ASCII character is a run of one. -/
theorem asciiFor_one {d : Char} (h : cs.head? = some d) (hd : IsAscii d) : AsciiFor 1 cs := by
  cases cs with
  | nil => cases h
  | cons c cs =>
      obtain rfl := Option.some.inj h
      exact asciiFor_succ hd (asciiFor_zero cs)

theorem asciiFor_signLength (cs : List Char) : AsciiFor (signLength cs) cs := by
  unfold signLength
  split
  · next h =>
    rcases Bool.or_eq_true_iff.mp h with h | h
    · exact asciiFor_one (eq_of_beq h) (by decide)
    · exact asciiFor_one (eq_of_beq h) (by decide)
  · exact asciiFor_zero cs

/-- The sign at the start of a text is that of its bytes. -/
theorem signLength_raw (cs : List Char) : signLength (raw cs) = signLength cs := by
  rw [signLength, head?_raw_beq (by decide), head?_raw_beq (by decide), signLength]

/-- An exponent is a letter, perhaps a sign, and at least one digit. -/
theorem exponentLength_cons (c : Char) (cs : List Char) : exponentLength (c :: cs) =
    if c == 'e' || c == 'E' then
      if digitCount (cs.drop (signLength cs)) = 0 then 0
      else 1 + signLength cs + digitCount (cs.drop (signLength cs))
    else 0 := rfl

theorem asciiFor_exponentLength (cs : List Char) : AsciiFor (exponentLength cs) cs := by
  cases cs with
  | nil => exact asciiFor_zero []
  | cons c cs =>
      rw [exponentLength_cons]
      split
      · next hc =>
        have hc : IsAscii c := by
          rcases Bool.or_eq_true_iff.mp hc with h | h <;> rw [eq_of_beq h] <;> decide
        split
        · exact asciiFor_zero _
        · rw [Nat.add_assoc, Nat.add_comm]
          exact asciiFor_succ hc ((asciiFor_signLength cs).add (asciiFor_digitCount _))
      · exact asciiFor_zero _

/-- The exponent at the start of a text is that of its bytes. -/
theorem exponentLength_raw (cs : List Char) : exponentLength (raw cs) = exponentLength cs := by
  cases cs with
  | nil => rfl
  | cons c cs =>
      by_cases hc : IsAscii c
      · rw [raw_cons_ascii hc, exponentLength_cons, exponentLength_cons, signLength_raw,
          (asciiFor_signLength cs).drop_raw, digitCount_raw]
      · obtain ⟨d, ds, heq, -, hhigh⟩ := exists_raw_cons hc
        have hletter : ∀ {e : Char}, ¬IsAscii e → ¬(e == 'e' || e == 'E') := by
          intro e he h
          rcases Bool.or_eq_true_iff.mp h with h | h
          · exact ne_of_not_isAscii he (by decide) (eq_of_beq h)
          · exact ne_of_not_isAscii he (by decide) (eq_of_beq h)
        rw [heq, List.cons_append, exponentLength_cons, exponentLength_cons,
          if_neg (hletter (hhigh d List.mem_cons_self)), if_neg (hletter hc)]

/-- The number of characters of a number without the letter at its end. -/
def numberLength (cs : List Char) : Nat :=
  digitCount cs + fractionLength (cs.drop (digitCount cs)) +
    exponentLength (cs.drop (digitCount cs + fractionLength (cs.drop (digitCount cs))))

/-- What makes up a number is ASCII. -/
theorem asciiFor_numberLength (cs : List Char) : AsciiFor (numberLength cs) cs :=
  ((asciiFor_digitCount cs).add (asciiFor_fractionLength _)).add (asciiFor_exponentLength _)

/-- The lexeme of a number is ASCII, its suffix included. -/
theorem asciiFor_scanNumber (cs : List Char) : AsciiFor (scanNumber cs).2 cs := by
  have hletter : ∀ d, IsAscii d → AsciiFor
      (if (cs.drop (numberLength cs)).head? = some d then numberLength cs + 1 else numberLength cs)
        cs := by
    intro d hd
    split
    · next h => exact (asciiFor_numberLength cs).add (asciiFor_one h hd)
    · exact asciiFor_numberLength cs
  unfold scanNumber
  simp only
  split
  · exact hletter 'L' (by decide)
  · exact hletter 'f' (by decide)

/-- A number is scanned on the bytes as on the characters. -/
theorem scanNumber_raw (cs : List Char) : scanNumber (raw cs) = scanNumber cs := by
  have hfraction := (asciiFor_digitCount cs).add (asciiFor_fractionLength _)
  have hnumber := asciiFor_numberLength cs
  unfold numberLength at hnumber
  unfold scanNumber
  simp only [digitCount_raw, (asciiFor_digitCount cs).drop_raw, fractionLength_raw,
    hfraction.drop_raw, exponentLength_raw, hnumber.drop_raw, head?_raw (d := 'L') (by decide),
    head?_raw (d := 'f') (by decide)]

/-! ## String literals -/

/-- A character that is not special belongs to the string. -/
theorem scanString_cons {c : Char} (hline : c ≠ '\n') (hquote : c ≠ '"') (hslash : c ≠ '\\')
    (cs : List Char) : scanString (c :: cs) = ((scanString cs).1 + 1, (scanString cs).2) := by
  rw [scanString]
  · exact hline
  · exact hquote
  · exact fun h _ => hslash h
  · exact fun _ _ h _ => hslash h

/-- Bytes that are not ASCII belong to the string. -/
theorem scanString_append {ds : List Char} (hds : ∀ d ∈ ds, ¬IsAscii d) (cs : List Char) :
    scanString (ds ++ cs) = ((scanString cs).1 + ds.length, (scanString cs).2) := by
  induction ds with
  | nil => rfl
  | cons d ds ih =>
      obtain ⟨hd, hds⟩ := List.forall_mem_cons.mp hds
      rw [List.cons_append, scanString_cons (ne_of_not_isAscii hd (by decide))
        (ne_of_not_isAscii hd (by decide)) (ne_of_not_isAscii hd (by decide)), ih hds]
      rfl

/-- Of a character after a backslash only the first byte is passed over with it.  Its other bytes
are neither quotes nor backslashes nor line breaks. -/
theorem scanString_raw (cs : List Char) :
    scanString (raw cs) = (byteLength (cs.take (scanString cs).1), (scanString cs).2) := by
  induction cs using scanString.induct with
  | case1 => rfl
  | case2 cs =>
      rw [raw_cons_ascii (by decide)]
      rfl
  | case3 cs =>
      rw [raw_cons_ascii (by decide)]
      rfl
  | case4 => rfl
  | case5 d cs ih =>
      rw [raw_cons_ascii (by decide)]
      have hlength : byteLength (('\\' :: d :: cs).take (scanString ('\\' :: d :: cs)).1) =
          1 + (d.utf8Size + byteLength (cs.take (scanString cs).1)) := rfl
      rw [hlength]
      by_cases hd : IsAscii d
      · rw [raw_cons_ascii hd, scanString, scanString, ih, hd.utf8Size, ← Nat.add_assoc,
          Nat.add_comm]
      -- its first byte is passed over with the backslash, and the others end no literal
      · obtain ⟨e, es, heq, hes, hhigh⟩ := exists_raw_cons hd
        rw [heq, List.cons_append, scanString, scanString, scanString_append
          (fun x hx => hhigh x (List.mem_cons_of_mem _ hx)), ih, ← hes, List.length_cons]
        refine Prod.ext ?_ rfl
        show byteLength _ + es.length + 2 = _
        omega
  | case6 c cs hline hquote hlast hescape ih =>
      have hslash : c ≠ '\\' := by
        rintro rfl
        cases cs with
        | nil => exact hlast rfl rfl
        | cons d cs => exact hescape d cs rfl rfl
      have hcons := scanString_cons hline hquote hslash
      rw [hcons, List.take_succ_cons, byteLength]
      by_cases hc : IsAscii c
      · rw [raw_cons_ascii hc, hcons, ih, hc.utf8Size, Nat.add_comm]
      · obtain ⟨e, es, heq, hes, hhigh⟩ := exists_raw_cons hc
        rw [heq, scanString_append hhigh, ih, hes, Nat.add_comm]

/-! ## Single tokens -/

/-- No token starts with a character that is not ASCII. -/
theorem scan_of_not_isAscii (h : ¬IsAscii c) (cs : List Char) :
    scan c cs = (.error (.unexpectedCharacter c), 0) := by
  have hne : ∀ d, IsAscii d → (c == d) = false :=
    fun d hd => beq_eq_false_iff_ne.mpr (ne_of_not_isAscii h hd)
  have hdigit : c.isDigit = false := Bool.not_eq_true _ ▸ fun hc => h (isAscii_of_isDigit hc)
  have hstart : isIdentStart c = false :=
    Bool.not_eq_true _ ▸ fun hc => h (isAscii_of_isIdentStart hc)
  have hsymbol : symbol? c = none := by
    cases hc : symbol? c with
    | none => rfl
    | some kind => exact absurd (isAscii_of_symbol? hc) h
  simp only [scan, hne '$' (by decide), hne '@' (by decide), hne '"' (by decide),
    hne '-' (by decide), hne ':' (by decide), hdigit, hstart, hsymbol, Bool.or_self, Bool.false_and,
    Bool.false_eq_true, if_false]

/-- After an ASCII character the bytes are scanned to the same kind of token, over the bytes of the
same characters. -/
theorem scan_raw (h : IsAscii c) (cs : List Char) :
    scan c (raw cs) = ((scan c cs).1, byteLength (cs.take (scan c cs).2)) := by
  have hnames := (asciiFor_takeWhile (fun _ => isAscii_of_isIdentChar) cs).byteLength
  unfold scan
  simp only [takeWhile_raw fun _ => isAscii_of_isIdentChar,
    any_head?_raw fun _ => isAscii_of_isDigit, head?_raw_beq (d := '>') (by decide),
    head?_raw_beq (d := ':') (by decide), scanNumber_raw, scanString_raw, ← raw_cons_ascii h]
  split
  · split
    · rfl
    · rw [hnames]
  · split
    · rfl
    · split
      · rw [(asciiFor_scanNumber cs).byteLength]
      · split
        · next harrow =>
          have hhead : cs.head? = some '>' := eq_of_beq (Bool.and_eq_true_iff.mp harrow).2
          rw [(asciiFor_one hhead (by decide)).byteLength]
        · split
          · next hcolons =>
            have hhead : cs.head? = some ':' := eq_of_beq (Bool.and_eq_true_iff.mp hcolons).2
            rw [(asciiFor_one hhead (by decide)).byteLength]
          · split
            · rw [(asciiFor_scanNumber (c :: cs)).pred.byteLength]
            · split
              · rw [hnames]
              · split <;> rfl

/-- What is not ASCII ends blanks and comments, unless a comment is open. -/
theorem splitTrivia_of_not_isAscii (h : ¬IsAscii c) (cs : List Char) :
    splitTrivia false (c :: cs) = ([], c :: cs) := by
  have hblank : isBlank c = false := Bool.not_eq_true _ ▸ fun hc => h (isAscii_of_isBlank hc)
  have hslash : (c == '/') = false := beq_eq_false_iff_ne.mpr (ne_of_not_isAscii h (by decide))
  rw [splitTrivia, hblank, hslash]
  rfl

/-- An open comment takes the bytes of longer characters. -/
theorem splitTrivia_append_of_not_isAscii {ds : List Char} (hds : ∀ d ∈ ds, ¬IsAscii d)
    (cs : List Char) :
    splitTrivia true (ds ++ cs) = (ds ++ (splitTrivia true cs).1, (splitTrivia true cs).2) := by
  induction ds with
  | nil => rfl
  | cons d ds ih =>
      obtain ⟨hd, hds⟩ := List.forall_mem_cons.mp hds
      have hline : (d != '\n') = true := bne_iff_ne.mpr (ne_of_not_isAscii hd (by decide))
      rw [List.cons_append, splitTrivia, hline, ih hds]
      rfl

/-- Blanks and comments end at the same place in the bytes as in the characters. -/
theorem splitTrivia_raw (comment : Bool) (cs : List Char) : splitTrivia comment (raw cs) =
    (raw (splitTrivia comment cs).1, raw (splitTrivia comment cs).2) := by
  induction cs generalizing comment with
  | nil => cases comment <;> rfl
  | cons c cs ih =>
      by_cases hc : IsAscii c
      · rw [raw_cons_ascii hc]
        cases comment with
        | true => rw [splitTrivia, splitTrivia, ih, raw_cons_ascii hc]
        | false =>
            rw [splitTrivia, splitTrivia, head?_raw_beq (by decide)]
            split
            · rw [ih, raw_cons_ascii hc]
            · rw [raw_cons_ascii hc]
              rfl
      · obtain ⟨d, ds, heq, -, hhigh⟩ := exists_raw_cons hc
        cases comment with
        | true =>
            have hline : (c != '\n') = true := bne_iff_ne.mpr (ne_of_not_isAscii hc (by decide))
            rw [heq, splitTrivia_append_of_not_isAscii hhigh, splitTrivia, hline, ih, heq]
        | false =>
            rw [splitTrivia_of_not_isAscii hc, heq, List.cons_append,
              splitTrivia_of_not_isAscii (hhigh d List.mem_cons_self)]
            rfl

end

/-! ## Whole texts -/

/-- The first character of bytes in UTF-8, or a question mark. -/
def firstChar (bs : List UInt8) : Char := (bs.toByteArray.utf8Decode?.bind (·[0]?)).getD '?'

/-- The kind of the token that starts with the byte `b`, or the fault, and the number of bytes that
belong to it.  A character that starts no token is decoded. -/
def scanBytes (b : UInt8) (bs : List UInt8) : Except Fault TokenKind × Nat :=
  match scan (Char.ofUInt8 b) (latin bs) with
  | (.error (.unexpectedCharacter _), _) =>
    (.error (.unexpectedCharacter (firstChar (b :: bs))), (firstChar (b :: bs)).utf8Size)
  | (result, length) => (result, length + 1)

/-- Every scan of bytes takes at least one, so lexing them ends. -/
theorem scanBytes_pos (b : UInt8) (bs : List UInt8) : 0 < (scanBytes b bs).2 := by
  unfold scanBytes
  split
  · exact Char.utf8Size_pos _
  · exact Nat.succ_pos _

/-- The kinds and the places of the tokens, found by a walk over the bytes from an offset on. -/
def lexBytesFrom (file : FileId) (offset : Nat) (bs : List UInt8) :
    Except Diagnostic (List (TokenKind × Span)) :=
  let start := offset + (splitTrivia false (latin bs)).1.length
  match _h : bs.drop (splitTrivia false (latin bs)).1.length with
  | [] => .ok [(.eof, ⟨file, start, start⟩)]
  | b :: rest =>
    let stop := start + (scanBytes b rest).2
    match (scanBytes b rest).1 with
    | .error fault => .error (fault.diagnose ⟨file, start, stop⟩)
    | .ok kind => do
      let tokens ← lexBytesFrom file stop ((b :: rest).drop (scanBytes b rest).2)
      return (kind, ⟨file, start, stop⟩) :: tokens
termination_by bs.length
decreasing_by
  have hrest := congrArg List.length _h
  have hpos := scanBytes_pos b rest
  simp only [List.length_drop, List.length_cons] at hrest ⊢
  omega

/-- The kinds and the places of the tokens of a text, found by a walk over its bytes. -/
def lexBytes (file : FileId) (bs : List UInt8) : Except Diagnostic (List (TokenKind × Span)) :=
  lexBytesFrom file 0 bs

section

variable {file : FileId} {c : Char} {cs : List Char} {b : UInt8} {bs : List UInt8}

/-- Decoding the bytes of a text gives its first character. -/
theorem firstChar_utf8 (c : Char) (cs : List Char) : firstChar (utf8 (c :: cs)) = c := by
  have hencode : (utf8 (c :: cs)).toByteArray = (c :: cs).utf8Encode := rfl
  rw [firstChar, hencode, List.utf8Decode?_utf8Encode]
  rfl

/-- An unexpected character is the first one, and nothing after it belongs to it. -/
theorem scan_unexpected {e : Char} {k : Nat}
    (h : scan c cs = (.error (.unexpectedCharacter e), k)) : e = c ∧ k = 0 := by
  unfold scan at h
  simp only at h
  split at h
  · split at h
    · simpa [eq_comm] using h
    · simp at h
  · split at h
    · split at h <;> simp at h
    · split at h
      · simp at h
      · split at h
        · simp at h
        · split at h
          · simp at h
          · split at h
            · simp at h
            · split at h
              · simp at h
              · split at h
                · simp at h
                · simpa [eq_comm] using h

/-- Scanning the bytes of a text gives the kind of token that scanning its characters gives, and the
number of their bytes. -/
theorem scanBytes_utf8 (h : utf8 (c :: cs) = b :: bs) :
    scanBytes b bs = ((scan c cs).1, byteLength (c :: cs.take (scan c cs).2)) := by
  have hraw : Char.ofUInt8 b :: latin bs = raw (c :: cs) := congrArg latin h.symm
  have hfirst : firstChar (b :: bs) = c := h ▸ firstChar_utf8 c cs
  unfold scanBytes
  rw [hfirst]
  by_cases hc : IsAscii c
  · rw [raw_cons_ascii hc] at hraw
    obtain ⟨hb, hbs⟩ := List.cons.inj hraw
    rw [hb, hbs, scan_raw hc, byteLength, hc.utf8Size]
    split
    · next e k heq =>
      obtain ⟨hresult, -⟩ := Prod.mk.inj heq
      obtain ⟨rfl, hlength⟩ :=
        scan_unexpected (Prod.ext hresult rfl : scan c cs = (_, (scan c cs).2))
      rw [hresult, hlength]
      rfl
    · next result k _ heq =>
      obtain ⟨rfl, rfl⟩ := Prod.mk.inj heq
      rw [Nat.add_comm]
  · obtain ⟨d, ds, hcons, -, hhigh⟩ := exists_raw_cons hc
    rw [hcons] at hraw
    obtain ⟨hb, -⟩ := List.cons.inj hraw
    rw [hb, scan_of_not_isAscii (hhigh d List.mem_cons_self), scan_of_not_isAscii hc]
    rfl

/-- The tokens of bytes without leading blanks and comments. -/
def lexBytesRest (file : FileId) (start : Nat) : List UInt8 →
    Except Diagnostic (List (TokenKind × Span))
  | [] => .ok [(.eof, ⟨file, start, start⟩)]
  | b :: rest =>
    let stop := start + (scanBytes b rest).2
    match (scanBytes b rest).1 with
    | .error fault => .error (fault.diagnose ⟨file, start, stop⟩)
    | .ok kind => do
      let tokens ← lexBytesFrom file stop ((b :: rest).drop (scanBytes b rest).2)
      return (kind, ⟨file, start, stop⟩) :: tokens

/-- Lexing bytes: the blanks and comments first, then one token and the rest. -/
theorem lexBytesFrom_eq (file : FileId) (offset : Nat) (bs : List UInt8) :
    lexBytesFrom file offset bs =
      lexBytesRest file (offset + (splitTrivia false (latin bs)).1.length)
        (bs.drop (splitTrivia false (latin bs)).1.length) := by
  rw [lexBytesFrom]
  split
  · next h => rw [h, lexBytesRest]
  · next h => rw [h]; rfl

/-- The walk over the bytes finds what the lexer finds, and nowhere else. -/
theorem lexBytesFrom_utf8 (file : FileId) (offset : Nat) (cs : List Char) :
    lexBytesFrom file offset (utf8 cs) =
      (lexFrom file offset cs).map (List.map fun t => (t.kind, t.span)) := by
  induction hlength : cs.length using Nat.strongRecOn generalizing offset cs with
  | ind length ih =>
      have hcs := splitTrivia_append false cs
      have hdrop : (utf8 cs).drop (byteLength (splitTrivia false cs).1) =
        utf8 (splitTrivia false cs).2 :=
        drop_utf8 hcs.symm
      have hgap : (splitTrivia false (latin (utf8 cs))).1.length =
        byteLength (splitTrivia false cs).1 := by
        show (splitTrivia false (raw cs)).1.length = _
        rw [splitTrivia_raw, length_raw]
      have hle := length_splitTrivia_snd_le false cs
      -- both skip the same gap and then scan one token; the induction is on what is left of the
      -- text
      rw [lexBytesFrom_eq, hgap, hdrop, lexFrom_eq]
      generalize offset + byteLength (splitTrivia false cs).1 = start
      cases hrest : (splitTrivia false cs).2 with
      | nil => rfl
      | cons c rest =>
          rw [hrest] at hle
          cases hbytes : utf8 (c :: rest) with
          | nil =>
              have hlength := length_utf8 (c :: rest)
              rw [hbytes, byteLength] at hlength
              exact absurd hlength
                (Nat.ne_of_lt (Nat.lt_of_lt_of_le c.utf8Size_pos (Nat.le_add_right _ _)))
          | cons b bs =>
              rw [lexBytesRest, lexRest, scanBytes_utf8 hbytes, ← hbytes]
              have hdrop : (utf8 (c :: rest)).drop (byteLength (c :: rest.take (scan c rest).2)) =
                  utf8 (rest.drop (scan c rest).2) :=
                drop_utf8 (by rw [List.cons_append, List.take_append_drop])
              have hlt : (rest.drop (scan c rest).2).length < length := by
                rw [← hlength, List.length_drop]
                rw [List.length_cons] at hle
                omega
              cases hkind : (scan c rest).1 with
              | error fault => rfl
              | ok kind =>
                  simp only [hdrop, ih _ hlt _ _ rfl]
                  cases lexFrom file (start + byteLength (c :: rest.take (scan c rest).2))
                    (rest.drop (scan c rest).2) with
                  | error d => rfl
                  | ok tokens => rfl

theorem lexBytes_utf8 (file : FileId) (text : String) : lexBytes file text.toUTF8.data.toList =
    (lex file text).map (List.map fun t => (t.kind, t.span)) := by
  have hbytes : text.toUTF8.data.toList = utf8 text.toList := by
    rw [String.toUTF8_eq_toByteArray, ← String.utf8Encode_toList, List.utf8Encode,
      List.data_toByteArray]
    rfl
  rw [hbytes]
  exact lexBytesFrom_utf8 file 0 text.toList

end

end Heart

end SignalGraph

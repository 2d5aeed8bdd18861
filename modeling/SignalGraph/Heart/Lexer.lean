import SignalGraph.Heart.Fault
import SignalGraph.Heart.Token
import SignalGraph.Text.Bytes

/-!
# SignalGraph.Heart.Lexer

Cutting a text into tokens.

1. blanks and `//` comments separate tokens (`splitTrivia`);
2. `scan` looks at the first character of a token and says what kind it is and how many
   characters follow;
3. `lex` repeats both and puts the end of the text last.

Main facts: trivia and the rest make up the text (`splitTrivia_append`), so lexing terminates and
no character is lost.
-/

namespace SignalGraph.Heart

/-! ## Characters -/

def isBlank (c : Char) : Bool := c == ' ' || c == '\t' || c == '\n' || c == '\x0c' || c == '\r'

def isIdentStart (c : Char) : Bool := c.isAlpha || c == '_'

def isIdentChar (c : Char) : Bool := c.isAlphanum || c == '_'

/-! ## Trivia -/

/-- Splits off leading blanks and comments.  The flag says whether the text starts inside a
comment, which ends before the next line break. -/
def splitTrivia : Bool → List Char → List Char × List Char
  | _, [] => ([], [])
  | true, c :: cs =>
    let (trivia, rest) := splitTrivia (c != '\n') cs
    (c :: trivia, rest)
  | false, c :: cs =>
    let comment := c == '/' && cs.head? == some '/'
    if isBlank c || comment then
      let (trivia, rest) := splitTrivia comment cs
      (c :: trivia, rest)
    else ([], c :: cs)

/-- Splitting off blanks and comments loses no character. -/
theorem splitTrivia_append (comment : Bool) (cs : List Char) :
    (splitTrivia comment cs).1 ++ (splitTrivia comment cs).2 = cs := by
  induction cs generalizing comment with
  | nil => cases comment <;> rfl
  | cons c cs ih =>
    cases comment with
    | true => simp [splitTrivia, ih]
    | false =>
      simp only [splitTrivia]
      split
      · simp [ih]
      · rfl

/-- What is left after blanks and comments is no longer than before, so lexing it ends. -/
theorem length_splitTrivia_snd_le (comment : Bool) (cs : List Char) :
    (splitTrivia comment cs).2.length ≤ cs.length := by
  have h := congrArg List.length (splitTrivia_append comment cs)
  simp only [List.length_append] at h
  omega

/-! ## Single tokens -/

/-- The number of leading digits. -/
def digitCount (cs : List Char) : Nat := (cs.takeWhile Char.isDigit).length

/-- The number of characters of a fraction: a point and at least one digit. -/
def fractionLength : List Char → Nat
  | '.' :: cs => if digitCount cs = 0 then 0 else 1 + digitCount cs
  | _ => 0

/-- The number of characters of an exponent: its letter, an optional sign, at least one digit. -/
def exponentLength : List Char → Nat
  | c :: cs =>
    if c == 'e' || c == 'E' then
      let sign := if cs.head? == some '+' || cs.head? == some '-' then 1 else 0
      let digits := digitCount (cs.drop sign)
      if digits = 0 then 0 else 1 + sign + digits
    else 0
  | [] => 0

/-- Kind and number of characters of an unsigned number.  A float may end in `f`, an integer
in `L`. -/
def scanNumber (cs : List Char) : TokenKind × Nat :=
  let whole := digitCount cs
  let fraction := fractionLength (cs.drop whole)
  let exponent := exponentLength (cs.drop (whole + fraction))
  let length := whole + fraction + exponent
  if fraction + exponent = 0 then
    (.integer, if (cs.drop length).head? = some 'L' then length + 1 else length)
  else
    (.float, if (cs.drop length).head? = some 'f' then length + 1 else length)

/-- How many characters after an opening quote belong to the literal, and whether it is closed.
A backslash takes the next character with it. -/
def scanString : List Char → Nat × Bool
  | [] => (0, false)
  | '\n' :: _ => (0, false)
  | '"' :: _ => (1, true)
  | ['\\'] => (1, false)
  | '\\' :: _ :: cs => ((scanString cs).1 + 2, (scanString cs).2)
  | _ :: cs => ((scanString cs).1 + 1, (scanString cs).2)

/-- The kind of a token that is a single character. -/
def symbol? : Char → Option TokenKind
  | '#' => some .hash
  | '\x7b' => some .leftBrace
  | '\x7d' => some .rightBrace
  | '(' => some .leftParen
  | ')' => some .rightParen
  | '[' => some .leftBracket
  | ']' => some .rightBracket
  | '<' => some .less
  | '>' => some .greater
  | ',' => some .comma
  | ';' => some .semicolon
  | ':' => some .colon
  | '.' => some .dot
  | '=' => some .equals
  | '?' => some .question
  | '&' => some .ampersand
  | '*' => some .star
  | '/' => some .slash
  | _ => none

/-- The kind of the token that starts with `c`, or the fault, and the number of characters after
`c` that belong to it. -/
def scan (c : Char) (cs : List Char) : Except Fault TokenKind × Nat :=
  let names := (cs.takeWhile isIdentChar).length
  if c == '$' || c == '@' then
    if names = 0 then (.error (.unexpectedCharacter c), 0)
    else (.ok (if c == '$' then .localName else .blockLabel), names)
  else if c == '"' then
    let (length, closed) := scanString cs
    (if closed then .ok .stringLiteral else .error .unterminatedString, length)
  else if c == '-' && cs.head?.any Char.isDigit then
    let (kind, length) := scanNumber cs
    (.ok kind, length)
  else if c == '-' && cs.head? == some '>' then (.ok .arrow, 1)
  else if c == ':' && cs.head? == some ':' then (.ok .doubleColon, 1)
  else if c.isDigit then
    let (kind, length) := scanNumber (c :: cs)
    (.ok kind, length - 1)
  else if isIdentStart c then (.ok .identifier, names)
  else
    match symbol? c with
    | some kind => (.ok kind, 0)
    | none => (.error (.unexpectedCharacter c), 0)

/-! ## Whole texts -/

/-- The tokens of a text that starts at a byte offset. -/
def lexFrom (file : FileId) (offset : Nat) (cs : List Char) : Except Diagnostic (List Token) :=
  let start := offset + Text.byteLength (splitTrivia false cs).1
  match _h : (splitTrivia false cs).2 with
  | [] => .ok [.eof file start]
  | c :: rest =>
    let lexeme := c :: rest.take (scan c rest).2
    let stop := start + Text.byteLength lexeme
    match (scan c rest).1 with
    | .error fault => .error (fault.diagnose ⟨file, start, stop⟩)
    | .ok kind => do
      let tokens ← lexFrom file stop (rest.drop (scan c rest).2)
      return ⟨kind, String.ofList lexeme, ⟨file, start, stop⟩⟩ :: tokens
termination_by cs.length
decreasing_by
  have := length_splitTrivia_snd_le false cs
  simp only [_h, List.length_cons] at this
  simp only [List.length_drop]
  omega

/-- The tokens of a text, the end of the text last. -/
def lex (file : FileId) (text : String) : Except Diagnostic (List Token) :=
  lexFrom file 0 text.toList

end SignalGraph.Heart

import SignalGraph.Heart.Fault
import SignalGraph.Heart.Token
import SignalGraph.Program.Basic

/-!
# SignalGraph.Heart.Parser.Cursor

Moving through a list of tokens.  A parser reads tokens and adds to a program; its first fault
ends it.  The end of the text is never passed, so there is always a current token.

Loops take a number that bounds their rounds.  The wrappers compute it from the tokens left;
every round consumes a token, so the bound is never reached.
-/

namespace SignalGraph.Heart

/-- A place between tokens. -/
structure Cursor where
  /-- The token before the place. -/
  before : Token
  /-- The tokens after the place. -/
  rest : List Token

namespace Cursor

/-- The place before the first token. -/
def start (file : FileId) (tokens : List Token) : Cursor := ⟨.eof file 0, tokens⟩

/-- The token after the place. -/
def current (c : Cursor) : Token := c.rest.headD c.before

/-- The kind of the token `n` positions further on. -/
def kindAt (c : Cursor) (n : Nat) : TokenKind := ((c.rest[n]?).map (·.kind)).getD .eof

/-- The place after the current token; the end of the text stays. -/
def next (c : Cursor) : Cursor :=
  match c.rest with
  | t :: rest => if t.kind = .eof then c else ⟨t, rest⟩
  | [] => c

end Cursor

structure ParserState where
  cursor : Cursor
  program : Program

abbrev Parser := StateT ParserState (Except Diagnostic)

namespace Parser

variable {α : Type}

/-! ## Looking -/

def cursor : Parser Cursor := return (← get).cursor

def current : Parser Token := return (← cursor).current

def kindAt (n : Nat) : Parser TokenKind := return (← cursor).kindAt n

def at_ (kind : TokenKind) : Parser Bool := return (← current).kind = kind

def nextIs (kind : TokenKind) : Parser Bool := return (← kindAt 1) = kind

def atKeyword (word : String) : Parser Bool := do
  let t ← current
  return t.kind = .identifier && t.text = word

/-- A bound on the number of tokens left. -/
def bound : Parser Nat := return (← cursor).rest.length + 1

/-! ## Faults -/

def fail (f : Fault) (span : Span) : Parser α := throw (f.diagnose span)

/-- Reports that something else was expected in place of the current token. -/
def expected (what : String) : Parser α := do
  let t ← current
  let found := if t.kind = .eof then "end of file" else s!"'{t.text}'"
  fail (.expected what found) t.span

/-- The value of a computation that may have failed. -/
def lift (r : Except Diagnostic α) : Parser α := fun s => r.map (·, s)

/-! ## Moving -/

def moveTo (c : Cursor) : Parser Unit := modify fun s => { s with cursor := c }

def advance : Parser Unit := modify fun s => { s with cursor := s.cursor.next }

/-- Passes the current token if it is of a kind, and says whether it was. -/
def eat (kind : TokenKind) : Parser Bool := do
  if ← at_ kind then
    advance
    return true
  else return false

def eatKeyword (word : String) : Parser Bool := do
  if ← atKeyword word then
    advance
    return true
  else return false

/-- Passes a token of a kind and answers it. -/
def expect (kind : TokenKind) : Parser Token := do
  let t ← current
  if ← eat kind then return t else expected kind.describe

def expectKeyword (word : String) : Parser Unit := do
  unless ← eatKeyword word do expected s!"'{word}'"

def identifier : Parser String := return (← expect .identifier).text

/-- The span from a token up to the last one passed. -/
def spanFrom (first : Token) : Parser Span := do
  let c ← cursor
  return ⟨first.span.file, first.span.start, max first.span.stop c.before.span.stop⟩

/-! ## Numbers -/

/-- An integer in decimal digits with an optional sign. -/
def readInt? (cs : List Char) : Option Int :=
  let (neg, digits) := match cs with
    | '-' :: r => (true, r)
    | r => (false, r)
  if digits.isEmpty || digits.any (!·.isDigit) then none
  else
    let n := digits.foldl (fun n c => 10 * n + (c.toNat - '0'.toNat)) 0
    some (if neg then -(n : Int) else n)

/-- An integer that lies between two bounds. -/
def readIntIn? (lo hi : Int) (cs : List Char) : Option Int :=
  (readInt? cs).filter fun n => lo ≤ n && n ≤ hi

/-- A text without the letters `L` at its end. -/
def trimSuffix (s : String) : List Char := (s.toList.reverse.dropWhile (· == 'L')).reverse

/-- An unsigned number of 32 bits, without sign or suffix. -/
def natural : Parser Nat := do
  let t ← expect .integer
  if t.text.startsWith "-" then fail (.invalidLiteral t.text) t.span
  match readIntIn? 0 (UInt32.size - 1) t.text.toList with
  | some n => return n.toNat
  | none => fail (.invalidLiteral t.text) t.span

/-- A signed number of 64 bits. -/
def wide : Parser Int := do
  let t ← expect .integer
  match readIntIn? Int64.minValue.toInt Int64.maxValue.toInt (trimSuffix t.text) with
  | some n => return n
  | none => fail (.invalidLiteral t.text) t.span

/-! ## Loops -/

/-- Runs `item` until a closing token is passed. -/
def untilClosed (close : TokenKind) (item : Parser Unit) : Parser Unit := do
  let rec go : Nat → Parser Unit
    | 0 => expected close.describe
    | n + 1 => do
      if ← eat close then return
      item
      go n
  go (← bound)

/-- Items with commas between them, up to and with a closing token. -/
def commaList (close : TokenKind) (item : Parser α) : Parser (List α) := do
  let rec go : Nat → Parser (List α)
    | 0 => expected close.describe
    | n + 1 => do
      let a ← item
      if ← eat close then return [a]
      let _ ← expect .comma
      return a :: (← go n)
  if ← eat close then return []
  go (← bound)

/-- Skips from an opening token to the one that closes it. -/
def skipBalanced (opening closing : TokenKind) : Parser Unit := do
  let rec go (depth : Nat) : Nat → Parser Unit
    | 0 => expected closing.describe
    | n + 1 => do
      let kind := (← current).kind
      if kind = .eof then expected closing.describe
      advance
      if kind = opening then go (depth + 1) n
      else if kind = closing then
        if depth = 0 then return else go (depth - 1) n
      else go depth n
  let _ ← expect opening
  go 0 (← bound)

/-- Identifiers joined by `::`. -/
def qualifiedName : Parser String := do
  let rec go (name : String) : Nat → Parser String
    | 0 => return name
    | n + 1 => do
      if (← at_ .doubleColon) && (← nextIs .identifier) then
        advance
        let part ← identifier
        go (name ++ "::" ++ part) n
      else return name
  go (← identifier) (← bound)

/-! ## The program -/

def program : Parser Program := return (← get).program

def modifyProgram (f : Program → Program) : Parser Unit :=
  modify fun s => { s with program := f s.program }

/-- Adds something to the program and answers its handle. -/
def add (f : Program → α × Program) : Parser α :=
  modifyGet fun s => let (a, program) := f s.program; (a, { s with program })

end Parser

end SignalGraph.Heart

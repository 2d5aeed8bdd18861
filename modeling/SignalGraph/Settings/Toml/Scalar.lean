import SignalGraph.Float.Decimal
import SignalGraph.Settings.Toml.Basic

/-!
# SignalGraph.Settings.Toml.Scalar

The parts of a TOML text below values: blanks, comments, strings, numbers, dates and keys.  A
reader takes what it recognises off the front of the characters, or fails.
-/

namespace SignalGraph.Toml

abbrev Reader := StateT (List Char) Option

namespace Reader

variable {α : Type}

/-! ## Characters -/

def peek : Reader (Option Char) := return (← get).head?

def atEnd : Reader Bool := return (← get).isEmpty

def fail : Reader α := failure

/-- Takes one character of a class. -/
def one (p : Char → Bool) : Reader Char := fun cs =>
  match cs with
  | c :: rest => if p c then some (c, rest) else none
  | [] => none

def char (c : Char) : Reader Unit := do let _ ← one (· == c)

/-- Takes a character if it is there, and says whether it was. -/
def eat (c : Char) : Reader Bool := fun cs =>
  match cs with
  | d :: rest => if d = c then some (true, rest) else some (false, cs)
  | [] => some (false, [])

/-- Takes all leading characters of a class. -/
def while_ (p : Char → Bool) : Reader (List Char) := fun cs =>
  some (cs.takeWhile p, cs.dropWhile p)

/-- Takes a word if it is there, and says whether it was. -/
def word (w : String) : Reader Bool := fun cs =>
  if w.toList.isPrefixOf cs then some (true, cs.drop w.length) else some (false, cs)

/-- Takes exactly `n` characters of a class. -/
def times (p : Char → Bool) : Nat → Reader (List Char)
  | 0 => return []
  | n + 1 => return (← one p) :: (← times p n)

/-- Runs a reader, or takes nothing if it fails. -/
def optional (r : Reader α) : Reader (Option α) := fun cs =>
  match r cs with
  | some (a, rest) => some (some a, rest)
  | none => some (none, cs)

/-- A bound on the characters left. -/
def bound : Reader Nat := return (← get).length + 1

/-! ## Blanks -/

def isBlank (c : Char) : Bool := c == ' ' || c == '\t'

/-- Characters that may stand in comments. -/
def isPrintable (c : Char) : Bool := c == '\t' || (0x20 ≤ c.toNat && c.toNat ≠ 0x7f)

def blanks : Reader Unit := do let _ ← while_ isBlank

/-- A line break. -/
def newline : Reader Unit := do
  if ← eat '\r' then char '\n' else char '\n'

def comment : Reader Unit := do
  char '#'
  let _ ← while_ isPrintable

/-- The rest of a line: blanks and a comment at most. -/
def lineEnd : Reader Unit := do
  blanks
  if (← peek) = some '#' then comment
  unless ← atEnd do newline

/-- Blanks, comments and line breaks. -/
def gap : Reader Unit := do
  let rec go : Nat → Reader Unit
    | 0 => return
    | n + 1 => do
      blanks
      match ← peek with
      | some '#' => do
        comment
        newline
        go n
      | some '\n' | some '\r' => do
        newline
        go n
      | _ => return
  go (← bound)

/-! ## Strings -/

def isHexDigit (c : Char) : Bool :=
  c.isDigit || ('a' ≤ c && c ≤ 'f') || ('A' ≤ c && c ≤ 'F')

def digitValue (c : Char) : Nat :=
  if c.isDigit then c.toNat - '0'.toNat
  else if 'a' ≤ c then c.toNat - 'a'.toNat + 10
  else c.toNat - 'A'.toNat + 10

/-- The number that digits stand for in a base. -/
def digitsIn (base : Nat) (ds : List Char) : Nat := ds.foldl (fun n c => base * n + digitValue c) 0

/-- A character by its number in `n` hexadecimal digits. -/
def scalar (n : Nat) : Reader Char := do
  let v := digitsIn 16 (← times isHexDigit n)
  if v < 0xd800 || (0xdfff < v && v < 0x110000) then return Char.ofNat v else fail

/-- What follows a backslash. -/
def escaped : Reader Char := do
  match ← one fun _ => true with
  | 'b' => return '\x08'
  | 'f' => return '\x0c'
  | 'n' => return '\n'
  | 'r' => return '\r'
  | 't' => return '\t'
  | '"' => return '"'
  | '\\' => return '\\'
  | 'u' => scalar 4
  | 'U' => scalar 8
  | _ => fail

/-- The content of a string up to its closing quote; only basic strings have escapes. -/
def singleLine (quote : Char) : Nat → Reader (List Char)
  | 0 => fail
  | n + 1 => do
    let c ← one isPrintable
    if c = quote then return []
    else if c = '\\' && quote = '"' then
      let e ← escaped
      return e :: (← singleLine quote n)
    else return c :: (← singleLine quote n)

/-- Blanks and at least one line break, then more of both. -/
def brokenLine : Reader Unit := do
  blanks
  newline
  let rec go : Nat → Reader Unit
    | 0 => return
    | n + 1 => do
      blanks
      match ← peek with
      | some '\n' | some '\r' => do
        newline
        go n
      | _ => return
  go (← bound)

/-- The content of a string of several lines.  Up to two quotes may stand right before the
closing ones; a backslash at the end of a line joins it to the next text. -/
def multiLine (quote : Char) : Nat → Reader (List Char)
  | 0 => fail
  | n + 1 => do
    match ← peek with
    | none => fail
    | some '\n' | some '\r' => do
      newline
      return '\n' :: (← multiLine quote n)
    | some c =>
      if c = quote then
        let run ← while_ (· == quote)
        if run.length < 3 then return run ++ (← multiLine quote n)
        else if run.length ≤ 5 then return run.drop 3
        else fail
      else
        let c ← one isPrintable
        if c = '\\' && quote = '"' then
          match ← optional brokenLine with
          | some _ => multiLine quote n
          | none =>
            let e ← escaped
            return e :: (← multiLine quote n)
        else return c :: (← multiLine quote n)

/-- A string on one line, after its opening quote. -/
def simpleString (quote : Char) : Reader String := do
  char quote
  return String.ofList (← singleLine quote (← bound))

/-- A string; three quotes open one of several lines, whose first line break is dropped. -/
def string (quote : Char) : Reader String := do
  if ← word (String.ofList [quote, quote, quote]) then
    let _ ← optional newline
    return String.ofList (← multiLine quote (← bound))
  else simpleString quote

/-! ## Numbers -/

/-- Digits of a class, with single underscores between them. -/
def digitGroups (p : Char → Bool) : Reader (List Char) := do
  let rec go : Nat → Reader (List Char)
    | 0 => return []
    | n + 1 => do
      let group ← while_ p
      if group.isEmpty then fail
      if ← eat '_' then return group ++ (← go n) else return group
  go (← bound)

/-- An integer with a sign; only zero starts with the digit zero. -/
def decimal : Reader (Bool × List Char) := do
  let neg ← eat '-'
  unless neg do let _ ← eat '+'
  match ← peek with
  | some '0' => do
    char '0'
    return (neg, ['0'])
  | _ => return (neg, ← digitGroups Char.isDigit)

def exponent : Reader (Bool × List Char) := do
  let _ ← one fun c => c == 'e' || c == 'E'
  let neg ← eat '-'
  unless neg do let _ ← eat '+'
  return (neg, ← digitGroups Char.isDigit)

def fraction : Reader (List Char) := do
  char '.'
  digitGroups Char.isDigit

/-- An integer that fits 64 bits. -/
def fitting (n : Int) : Reader Item :=
  if Int64.minValue.toInt ≤ n && n ≤ Int64.maxValue.toInt then return .integer n else fail

/-- A decimal integer or float.  A positive float must be finite. -/
def number : Reader Item := do
  let (neg, whole) ← decimal
  let frac ← if (← peek) = some '.' then some <$> fraction else pure none
  let exp ← match ← peek with
    | some 'e' | some 'E' => some <$> exponent
    | _ => pure none
  match frac, exp with
  | none, none =>
    let n : Int := digitsIn 10 whole
    fitting (if neg then -n else n)
  | _, _ =>
    let places := frac.getD []
    let scale : Int := match exp with
      | some (true, ds) => -(digitsIn 10 ds : Int)
      | some (false, ds) => digitsIn 10 ds
      | none => 0
    let bits := Float.ofDecimal Float.binary64 neg
      ⟨digitsIn 10 (whole ++ places), scale - places.length⟩
    if bits = Float.binary64.infinityBits then fail else return .real

/-- An integer in another base, after its two-character mark. -/
def based (base : Nat) (p : Char → Bool) : Reader Item := do
  fitting (digitsIn base (← digitGroups p))

/-- The floats that are written as words, with a sign or without. -/
def namedFloat : Reader Item := do
  unless ← eat '+' do let _ ← eat '-'
  if ← word "inf" then return .real
  else if ← word "nan" then return .real
  else fail

/-! ## Dates and times -/

/-- A number of `n` digits between bounds. -/
def numeral (n lo hi : Nat) : Reader Nat := do
  let v := digitsIn 10 (← times Char.isDigit n)
  if lo ≤ v && v ≤ hi then return v else fail

def daysIn (year month : Nat) : Nat :=
  if month = 2 then
    if year % 4 = 0 && (year % 100 ≠ 0 || year % 400 = 0) then 29 else 28
  else if [4, 6, 9, 11].contains month then 30
  else 31

def date : Reader Unit := do
  let year ← numeral 4 0 9999
  char '-'
  let month ← numeral 2 1 12
  char '-'
  let _ ← numeral 2 1 (daysIn year month)

def time : Reader Unit := do
  let _ ← numeral 2 0 23
  char ':'
  let _ ← numeral 2 0 59
  char ':'
  let _ ← numeral 2 0 60
  if ← eat '.' then
    let digits ← while_ Char.isDigit
    if digits.isEmpty then fail

/-- The distance from universal time. -/
def offset : Reader Unit := do
  let c ← one fun c => c == 'Z' || c == 'z' || c == '+' || c == '-'
  if c == '+' || c == '-' then
    let _ ← numeral 2 0 23
    char ':'
    let _ ← numeral 2 0 59

/-- A time after a date, with an optional offset. -/
def timeOfDay : Reader Unit := do
  let _ ← one fun c => c == 'T' || c == 't' || c == ' '
  time
  let _ ← optional offset

/-- A date, a time, or both. -/
def moment : Reader Item := do
  match ← optional date with
  | some _ => do
    let _ ← optional timeOfDay
    return .moment
  | none => do
    time
    return .moment

/-- Whatever starts with a digit or a sign. -/
def numeric : Reader Item := do
  match ← optional moment with
  | some m => return m
  | none =>
    if ← word "0x" then based 16 isHexDigit
    else if ← word "0o" then based 8 fun c => '0' ≤ c && c ≤ '7'
    else if ← word "0b" then based 2 fun c => c == '0' || c == '1'
    else
      match ← optional namedFloat with
      | some f => return f
      | none => number

/-! ## Keys -/

def isBareKeyChar (c : Char) : Bool := c.isAlphanum || c == '-' || c == '_'

def simpleKey : Reader String := do
  match ← peek with
  | some '"' => simpleString '"'
  | some '\'' => simpleString '\''
  | _ => do
    let cs ← while_ isBareKeyChar
    if cs.isEmpty then fail else return String.ofList cs

/-- How deep keys and values may nest. -/
def depthLimit : Nat := 80

/-- The parts of a key, which points separate. -/
def key : Reader (List String) := do
  let rec go : Nat → Reader (List String)
    | 0 => fail
    | n + 1 => do
      blanks
      let part ← simpleKey
      blanks
      if ← eat '.' then return part :: (← go n) else return [part]
  let parts ← go (← bound)
  if depthLimit ≤ parts.length then fail else return parts

end Reader

end SignalGraph.Toml

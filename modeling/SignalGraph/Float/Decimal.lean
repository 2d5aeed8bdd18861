import SignalGraph.Float.Format

/-!
# SignalGraph.Float.Decimal

Decimal text of floats.  Writing picks the fewest digits that read back to the same bits
(`shortest`): for one digit, two digits and so on the two neighbours of the value on that decimal
grid are tested against the interval of reals that round to the value, in exact arithmetic; of
two hits the nearer wins, and an exact tie goes up.  Reading rounds the exact decimal once.
-/

namespace SignalGraph.Float

/-- The number `digits * 10 ^ exp`. -/
structure Decimal where
  digits : Nat
  exp : Int
deriving DecidableEq, Repr

/-! ## Choosing the digits -/

/-- Compares `a * 10 ^ i` with `n * 2 ^ j`, exactly. -/
def cmpScaled (a : Nat) (i : Int) (n : Nat) (j : Int) : Ordering :=
  compare (a * power 10 i * power 2 (-j)) (n * power 2 j * power 10 (-i))

/-- Whether `d` lies among the reals that round to `m * 2 ^ q`: between the midpoints to the two
neighbours, which belong to the interval exactly if `m` is even.  Below a power of two the
neighbour is half as far away. -/
def readsBack (f : Format) (m : Nat) (q : Int) (d : Decimal) : Bool :=
  let narrow := m == 1 <<< f.fracBits && f.minExp < q
  let lower := cmpScaled d.digits d.exp (4 * m - if narrow then 1 else 2) (q - 2)
  let upper := cmpScaled d.digits d.exp (4 * m + 2) (q - 2)
  let ends := m % 2 == 0
  (lower == .gt || ends && lower == .eq) && (upper == .lt || ends && upper == .eq)

/-- The least `k` with `m * 2 ^ q < 10 ^ k`, for positive `m`: the binary logarithm gives a lower
estimate, which is off by at most three. -/
def decimalScale (m : Nat) (q : Int) : Int :=
  let guess := ((m.log2 : Int) + q) * 1233 / 4096 - 1
  ([0, 1, 2, 3].map (guess + ·)).find? (fun k => cmpScaled 1 k m q == .gt) |>.getD (guess + 4)

/-- The point of the decimal grid `10 ^ exp` that stands for `m * 2 ^ q`, if one reads back. -/
def onGrid? (f : Format) (m : Nat) (q exp : Int) : Option Decimal :=
  let num := m * power 2 q * power 10 (-exp)
  let den := power 2 (-q) * power 10 exp
  let low : Decimal := ⟨num / den, exp⟩
  let high : Decimal := ⟨num / den + 1, exp⟩
  match readsBack f m q low, readsBack f m q high with
  | true, true => if 2 * num < (2 * low.digits + 1) * den then some low else some high
  | true, false => some low
  | false, true => some high
  | false, false => none

/-- Moves trailing zeros of the digits into the exponent. -/
def stripZeros (d : Decimal) : Decimal :=
  if h : 0 < d.digits ∧ d.digits % 10 = 0 then stripZeros ⟨d.digits / 10, d.exp + 1⟩ else d
termination_by d.digits
decreasing_by omega

/-- The fewest digits that read back to `m * 2 ^ q`.  Seventeen always suffice; the exact value
stands in for a search that fails. -/
def shortest (f : Format) (m : Nat) (q : Int) : Decimal :=
  if m = 0 then ⟨0, 0⟩
  else
    let k := decimalScale m q
    let found := (List.range 17).findSome? fun i => onGrid? f m q (k - (i + 1 : Nat))
    stripZeros (found.getD ⟨m * power 2 q * power 5 (-q), min q 0⟩)

/-! ## Laying them out -/

/-- The written form: positional when the leading digit stands between `10 ^ -4` and `10 ^ 15`,
always with a digit on both sides of the point; otherwise with an exponent. -/
def Decimal.layout (d : Decimal) : List Char :=
  let ds := Nat.toDigits 10 d.digits
  let point : Int := ds.length + d.exp
  if d.digits = 0 then ['0', '.', '0']
  else if -4 < point && point ≤ 16 then
    if 0 ≤ d.exp then ds ++ List.replicate d.exp.toNat '0' ++ ['.', '0']
    else if 0 < point then ds.take point.toNat ++ '.' :: ds.drop point.toNat
    else '0' :: '.' :: (List.replicate (-point).toNat '0' ++ ds)
  else
    let e := (toString (point - 1)).toList
    match ds with
    | [d] => d :: 'e' :: e
    | d :: rest => d :: '.' :: (rest ++ 'e' :: e)
    | [] => []

/-- The shortest text of a finite value; the sign of zero is written. -/
def finiteText (f : Format) (neg : Bool) (m : Nat) (q : Int) : String :=
  let body := (shortest f m q).layout
  String.ofList (if neg then '-' :: body else body)

/-! ## Reading -/

/-- The value of a list of decimal digits. -/
def digitsValue (ds : List Char) : Nat := ds.foldl (fun n c => 10 * n + (c.toNat - '0'.toNat)) 0

/-- The bits nearest to a decimal.  Magnitudes that are far out of range are settled without
computing the power of ten. -/
def ofDecimal (f : Format) (neg : Bool) (d : Decimal) : Nat :=
  let magnitude : Int := (Nat.toDigits 10 d.digits).length + d.exp
  f.withSign neg <|
    if d.digits = 0 then 0
    else if 400 < magnitude then f.infinityBits
    else if magnitude < -400 then 0
    else roundRatio f (d.digits * power 10 d.exp) (power 10 (-d.exp))

/-- Reads an optional minus sign, digits, an optional fraction and an optional exponent. -/
def readDecimal (cs : List Char) : Bool × Decimal :=
  let (neg, cs) := match cs with
    | '-' :: r => (true, r)
    | r => (false, r)
  let whole := cs.takeWhile Char.isDigit
  let cs := cs.dropWhile Char.isDigit
  let (frac, cs) := match cs with
    | '.' :: r => (r.takeWhile Char.isDigit, r.dropWhile Char.isDigit)
    | r => ([], r)
  let exp : Int := match cs with
    | _ :: '-' :: r => -(digitsValue (r.takeWhile Char.isDigit) : Int)
    | _ :: '+' :: r => digitsValue (r.takeWhile Char.isDigit)
    | _ :: r => digitsValue (r.takeWhile Char.isDigit)
    | [] => 0
  (neg, ⟨digitsValue (whole ++ frac), exp - frac.length⟩)

/-- The bits nearest to a decimal literal. -/
def ofText (f : Format) (s : String) : Nat :=
  let (neg, d) := readDecimal s.toList
  ofDecimal f neg d

end SignalGraph.Float

/-!
# SignalGraph.Float.Format

Binary floating point on bit patterns.  A value is its bits; everything the toolchain does with
floats (reading and writing decimals, converting between widths and to integers) goes through
exact integers, so no rounding happens except where a rule below says so.

1. a finite value is `m * 2 ^ q` with a sign (`Datum`);
2. `roundRatio` gives the bits of the value nearest to a quotient, ties going to the even
   neighbour and values beyond the greatest finite one to infinity;
3. conversion to a narrower width rounds once by that rule, conversion to an integer drops the
   fraction and saturates.
-/

namespace SignalGraph.Float

/-- The power `b ^ e`, or one if `e` is negative: `b ^ e` is `power b e / power b (-e)`. -/
def power (b : Nat) (e : Int) : Nat := Nat.pow b e.toNat

/-- The widths of fraction and exponent of a binary interchange format. -/
structure Format where
  fracBits : Nat
  expBits : Nat
deriving DecidableEq, Repr

/-- Single precision: 32 bits. -/
def binary32 : Format := ⟨23, 8⟩

/-- Double precision: 64 bits. -/
def binary64 : Format := ⟨52, 11⟩

namespace Format

/-- The exponent `q` of the least positive value. -/
def minExp (f : Format) : Int := 2 - ((1 <<< (f.expBits - 1) : Nat) : Int) - f.fracBits

/-- The bits of positive infinity. -/
def infinityBits (f : Format) : Nat := (1 <<< f.expBits - 1) <<< f.fracBits

/-- The bits of the quiet not-a-number that operations produce. -/
def nanBits (f : Format) : Nat := f.infinityBits + 1 <<< (f.fracBits - 1)

/-- The value of the sign bit. -/
def signBit (f : Format) : Nat := 1 <<< (f.fracBits + f.expBits)

/-- The bits with the given sign and magnitude. -/
def withSign (f : Format) (neg : Bool) (magnitude : Nat) : Nat :=
  if neg then f.signBit + magnitude else magnitude

end Format

/-- What a bit pattern stands for. -/
inductive Datum where
  /-- Not a number, with the bits of its fraction. -/
  | nan (neg : Bool) (payload : Nat)
  | infinite (neg : Bool)
  /-- The number `m * 2 ^ q`, negated if `neg`. -/
  | finite (neg : Bool) (m : Nat) (q : Int)
deriving DecidableEq, Repr

/-- Reads a bit pattern. -/
def decode (f : Format) (bits : Nat) : Datum :=
  let neg := f.signBit ≤ bits % (2 * f.signBit)
  let frac := bits % 1 <<< f.fracBits
  let e := bits >>> f.fracBits % 1 <<< f.expBits
  if e = 1 <<< f.expBits - 1 then
    if frac = 0 then .infinite neg else .nan neg frac
  else if e = 0 then .finite neg frac f.minExp
  else .finite neg (1 <<< f.fracBits + frac) (f.minExp + (e - 1 : Nat))

/-- The quotient rounded to the nearest integer, ties to even. -/
def roundDiv (num den : Nat) : Nat :=
  let q := num / den
  let r := num % den
  if 2 * r < den then q
  else if den < 2 * r then q + 1
  else if q % 2 = 0 then q else q + 1

/-- The greatest `e` with `2 ^ e ≤ num / den`, for positive arguments. -/
def ratioLog2 (num den : Nat) : Int :=
  let e : Int := (num.log2 : Int) - den.log2
  if num * power 2 (-e) < den * power 2 e then e - 1 else e

/-- The bits of the value nearest to `num / den`, without a sign. -/
def roundRatio (f : Format) (num den : Nat) : Nat :=
  if num = 0 || den = 0 then 0
  else
    let q : Int := max (ratioLog2 num den - f.fracBits) f.minExp
    let m := roundDiv (num * power 2 (-q)) (den * power 2 q)
    -- a significand that rounds up to the next power of two carries into the exponent
    min ((q - f.minExp).toNat <<< f.fracBits + m) f.infinityBits

/-- The bits of an integer. -/
def ofInt (f : Format) (n : Int) : Nat := f.withSign (n < 0) (roundRatio f n.natAbs 1)

/-- Converts between formats.  Of a not-a-number the sign and the leading bits of the fraction
are kept, and the result is quiet. -/
def convert (src dst : Format) (bits : Nat) : Nat :=
  match decode src bits with
  | .infinite neg => dst.withSign neg dst.infinityBits
  | .finite neg m q => dst.withSign neg (roundRatio dst (m * power 2 q) (power 2 (-q)))
  | .nan neg payload =>
    let quiet := 1 <<< (dst.fracBits - 1)
    let kept := payload <<< (dst.fracBits - src.fracBits) >>> (src.fracBits - dst.fracBits)
    dst.withSign neg (dst.infinityBits + quiet + kept % quiet)

/-- Drops the fraction; values out of range go to the nearest bound, and not-a-number to zero. -/
def toIntSaturating (f : Format) (lo hi : Int) (bits : Nat) : Int :=
  match decode f bits with
  | .nan _ _ => 0
  | .infinite neg => if neg then lo else hi
  | .finite neg m q =>
    let n : Int := (m * power 2 q / power 2 (-q) : Nat)
    max lo (min hi (if neg then -n else n))

/-- Whether the value differs from zero; not-a-number does. -/
def isNonzero (f : Format) (bits : Nat) : Bool :=
  match decode f bits with
  | .finite _ m _ => m != 0
  | _ => true

end SignalGraph.Float

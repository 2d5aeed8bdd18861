import SignalGraph.Ty.Basic

/-!
# SignalGraph.Ty.Cast

How a value of one type may become a value of another.  The order of the rules matters: identity
after dropping qualifiers comes first, then void, then scalars, then arrays and vectors.
-/

namespace SignalGraph

/-- The ways of converting a value. -/
inductive CastKind where
  | identity
  | lossless
  /-- Possible, but may lose information, so it must be asked for. -/
  | reduction
  /-- A value fills every element of an array or vector. -/
  | valueToArray
  | fixedToUnsizedArray
  /-- Between a scalar and a vector of one lane. -/
  | singleElementToScalar
  | notPossible
deriving DecidableEq, Repr

namespace CastKind

/-- Whether the conversion happens without being asked for. -/
def isSilent : CastKind → Bool
  | identity | lossless | valueToArray | fixedToUnsizedArray | singleElementToScalar => true
  | reduction | notPossible => false

end CastKind

namespace Prim

/-- Conversion between primitives. -/
def castKind (dest source : Prim) : CastKind :=
  if dest = source then .identity
  else
    match dest, source with
    | void, _ | _, void => .notPossible
    | int64, int32 | float64, int32 | float64, int64 | float64, float32 => .lossless
    | _, _ => .reduction

end Prim

namespace Ty

/-- Conversion to a type that is neither a reference nor an array; both sides are unqualified. -/
def castFlat (dest source : Ty) : CastKind :=
  if dest = source then .identity
  else if dest.isVoid || source.isVoid then .notPossible
  else
    match dest.scalarPrimitive?, source.scalarPrimitive? with
    | some d, some s =>
      match d.castKind s with
      | .identity => .singleElementToScalar
      | k => k
    | _, fromScalar =>
      match dest, source with
      | vector d n, vector s m => if m = n then d.castKind s else .notPossible
      | vector d _, _ =>
        match fromScalar.map d.castKind with
        | some k => if k.isSilent then .valueToArray else k
        | none => .notPossible
      | _, _ => .notPossible

/-- Conversion to an array of `element`; the source is unqualified and `elementCast` says how its
parts become elements. -/
def castArray (elementCast : Ty → CastKind) (element : Ty) (length : Option Nat) (source : Ty) :
    CastKind :=
  if array element length = source then .identity
  else if source.isVoid then .notPossible
  else
    let fill :=
      if length.isSome && (elementCast source).isSilent then .valueToArray else .notPossible
    match source with
    | array e n =>
      if length.isNone && n.isSome && e = element then .fixedToUnsizedArray
      else if n = length then
        match elementCast e with
        | .notPossible => .notPossible
        | k => if k.isSilent then .lossless else .reduction
      else fill
    | _ => fill

/-- How a value of type `source` becomes one of type `dest`.  A reference binds only to the same
type, and a reference that can write only to something that is not `const`. -/
def castKind : Ty → Ty → CastKind
  | ref target, source =>
    if target.unconst = source.unqualified && (target.isConst || !source.isConst) then .identity
    else .notPossible
  | const (array e n), source => castArray (castKind e) e n source.unqualified
  | array e n, source => castArray (castKind e) e n source.unqualified
  | dest, source => castFlat dest.unconst source.unqualified

def canSilentlyCast (dest source : Ty) : Bool := (castKind dest source).isSilent

def canCast (dest source : Ty) : Bool := castKind dest source != .notPossible

/-- The type with qualifiers dropped at every array level and one-lane vectors read as scalars. -/
def frame : Ty → Ty
  | ref (const (array e n)) => array e.frame n
  | ref (array e n) => array e.frame n
  | const (array e n) => array e.frame n
  | array e n => array e.frame n
  | t =>
    match t.unqualified with
    | vector p 1 => prim p
    | u => u

/-- Whether two types describe the same frames of a stream. -/
def sameFrame (a b : Ty) : Bool := a.frame == b.frame

end Ty

end SignalGraph

import SignalGraph.Float.Format
import SignalGraph.Ty.Basic

/-!
# SignalGraph.Value

Constant values.  Floats are kept as bits, so two values are equal exactly if they are written
alike, negative zero and not-a-number included.
-/

namespace SignalGraph

/-- A constant value. -/
inductive Value where
  | void
  | bool (b : Bool)
  | int32 (n : Int32)
  | int64 (n : Int64)
  /-- A single-precision float by its bits. -/
  | float32 (bits : UInt32)
  /-- A double-precision float by its bits. -/
  | float64 (bits : UInt64)
  | string (id : TextId)
  | aggregate (ty : Ty) (elements : List Value)
  /-- The value of a type whose every part is zero. -/
  | zero (ty : Ty)
deriving Repr, Inhabited

namespace Value

/-! ## Equality -/

mutual

/-- Structural equality. -/
def same : Value → Value → Bool
  | void, void => true
  | bool a, bool b => a == b
  | int32 a, int32 b => a == b
  | int64 a, int64 b => a == b
  | float32 a, float32 b => a == b
  | float64 a, float64 b => a == b
  | string a, string b => a == b
  | aggregate s xs, aggregate t ys => s == t && sameList xs ys
  | zero s, zero t => s == t
  | _, _ => false

def sameList : List Value → List Value → Bool
  | [], [] => true
  | x :: xs, y :: ys => same x y && sameList xs ys
  | _, _ => false

end

mutual

/-- The comparison that constants are interned by is equality of values, floats by their bits. -/
theorem same_iff : ∀ v w : Value, same v w = true ↔ v = w := by
  intro v w
  cases v with
  | aggregate s xs =>
    cases w <;> simp [same]
    rename_i t ys
    exact fun _ => sameList_iff xs ys
  | _ => cases w <;> simp [same]

/-- Element by element, lists of values are compared as equality compares them. -/
theorem sameList_iff : ∀ xs ys : List Value, sameList xs ys = true ↔ xs = ys := by
  intro xs ys
  cases xs with
  | nil => cases ys <;> simp [sameList]
  | cons x xs =>
    cases ys with
    | nil => simp [sameList]
    | cons y ys => simp [sameList, same_iff x y, sameList_iff xs ys]

end

instance : DecidableEq Value := fun v w => decidable_of_iff _ (same_iff v w)

/-! ## Building and typing -/

/-- An aggregate of the given elements; without elements it is the zero of its type. -/
def ofElements (ty : Ty) (elements : List Value) : Value :=
  if elements.isEmpty then zero ty else aggregate ty elements

def ty : Value → Ty
  | void => .void
  | bool _ => .bool
  | int32 _ => .int32
  | int64 _ => .int64
  | float32 _ => .float32
  | float64 _ => .float64
  | string _ => .string
  | aggregate t _ => t
  | zero t => t

/-! ## Reading as a number -/

def asInt64? : Value → Option Int64
  | int32 n => some n.toInt64
  | int64 n => some n
  | zero t => if t.isInteger then some 0 else none
  | _ => none

def asBool? : Value → Option Bool
  | bool b => some b
  | zero t => if t.isBool then some false else none
  | _ => none

/-- The bits of the double nearest to a number; a zero of a type is not a number. -/
def asFloat64? : Value → Option UInt64
  | int32 n => some (Float.ofInt Float.binary64 n.toInt).toUInt64
  | int64 n => some (Float.ofInt Float.binary64 n.toInt).toUInt64
  | float32 b => some (Float.convert Float.binary32 Float.binary64 b.toNat).toUInt64
  | float64 b => some b
  | _ => none

/-- A number without its fraction, at the nearest bound if it does not fit. -/
def truncated (bits : UInt64) : Int64 :=
  Int64.ofInt <|
    Float.toIntSaturating Float.binary64 Int64.minValue.toInt Int64.maxValue.toInt bits.toNat

/-- The value converted to a type.  A value that has the type already stays; otherwise numbers
become the scalar that the type asks for. -/
def castTo? (v : Value) (t : Ty) : Option Value :=
  if v.ty = t.unqualified then some v
  else
    let integer := v.asInt64? <|> v.asFloat64?.map truncated
    match t.unqualified.scalarPrimitive? with
    | some .bool => v.asFloat64?.map fun b => bool (Float.isNonzero Float.binary64 b.toNat)
    | some .int32 => integer.map fun n => int32 n.toInt32
    | some .int64 => integer.map int64
    | some .float32 =>
      v.asFloat64?.map fun b =>
        float32 (Float.convert Float.binary64 Float.binary32 b.toNat).toUInt32
    | some .float64 => v.asFloat64?.map float64
    | _ => none

/-! ## Replacing parts -/

mutual

/-- Replaces the types and texts inside a value, from left to right. -/
def mapParts {m : Type → Type} [Monad m] (onTy : Ty → m Ty) (onText : TextId → m TextId) :
    Value → m Value
  | string id => return string (← onText id)
  | zero t => return zero (← onTy t)
  | aggregate t vs => return aggregate (← onTy t) (← mapPartsList onTy onText vs)
  | v => pure v

def mapPartsList {m : Type → Type} [Monad m] (onTy : Ty → m Ty) (onText : TextId → m TextId) :
    List Value → m (List Value)
  | [] => pure []
  | v :: vs => return (← mapParts onTy onText v) :: (← mapPartsList onTy onText vs)

end

end Value

end SignalGraph

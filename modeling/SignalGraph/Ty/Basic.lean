import SignalGraph.Handle

/-!
# SignalGraph.Ty.Basic

The types of values: primitives, vectors of primitives, arrays, structs, string literals, and the
two qualifiers `const` and reference.  Qualifiers nest freely; the questions below look through
one reference and then one `const` (`unqualified`), which is all that a well-built type has.
-/

namespace SignalGraph

/-- The primitive types. -/
inductive Prim where
  | void | bool | int32 | int64 | float32 | float64 | fixed
deriving DecidableEq, Repr, Inhabited

namespace Prim

def all : List Prim := [void, bool, int32, int64, float32, float64, fixed]

def name : Prim → String
  | void => "void"
  | bool => "bool"
  | int32 => "int32"
  | int64 => "int64"
  | float32 => "float32"
  | float64 => "float64"
  | fixed => "fixed"

def ofName? (s : String) : Option Prim := all.find? (·.name == s)

/-- Bytes that one value takes. -/
def size : Prim → Nat
  | void => 0
  | bool => 1
  | int32 | float32 | fixed => 4
  | int64 | float64 => 8

def isInteger : Prim → Bool
  | int32 | int64 => true
  | _ => false

def isFloat : Prim → Bool
  | float32 | float64 => true
  | _ => false

end Prim

/-- The types of values. -/
inductive Ty where
  | prim (p : Prim)
  | vector (element : Prim) (lanes : Nat)
  /-- An array; without a length it is a view of an array of any length. -/
  | array (element : Ty) (length : Option Nat)
  | struct (id : StructId)
  | string
  | const (inner : Ty)
  | ref (inner : Ty)
deriving DecidableEq, Repr

namespace Ty

instance : Inhabited Ty := ⟨prim .void⟩

abbrev void : Ty := prim .void
abbrev bool : Ty := prim .bool
abbrev int32 : Ty := prim .int32
abbrev int64 : Ty := prim .int64
abbrev float32 : Ty := prim .float32
abbrev float64 : Ty := prim .float64

/-! ## Qualifiers -/

/-- The type as seen through one reference. -/
def unreferenced : Ty → Ty
  | ref t => t
  | t => t

/-- The type without one leading `const`. -/
def unconst : Ty → Ty
  | const t => t
  | t => t

/-- The type without one reference and then one `const`. -/
def unqualified (t : Ty) : Ty := t.unreferenced.unconst

/-- Adds `const`, inside a reference if there is one, unless it is already there. -/
def asConst : Ty → Ty
  | const t => const t
  | ref t => ref t.asConst
  | t => const t

/-- Adds a reference unless there is one. -/
def asReference : Ty → Ty
  | ref t => ref t
  | t => ref t

/-! ## Classification -/

def isReference : Ty → Bool
  | ref _ => true
  | _ => false

def isConst (t : Ty) : Bool :=
  match t.unreferenced with
  | const _ => true
  | _ => false

def isVoid (t : Ty) : Bool := t.unqualified == void

def isBool (t : Ty) : Bool := t.unqualified == bool

def isInteger (t : Ty) : Bool :=
  match t.unqualified with
  | prim p => p.isInteger
  | _ => false

def isArray (t : Ty) : Bool :=
  match t.unqualified with
  | array _ _ => true
  | _ => false

def isFixedSizeArray (t : Ty) : Bool :=
  match t.unqualified with
  | array _ (some _) => true
  | _ => false

def isUnsizedArray (t : Ty) : Bool :=
  match t.unqualified with
  | array _ none => true
  | _ => false

def isVector (t : Ty) : Bool :=
  match t.unqualified with
  | vector _ _ => true
  | _ => false

def isStruct (t : Ty) : Bool :=
  match t.unqualified with
  | struct _ => true
  | _ => false

/-- The primitive of a scalar or of the lanes of a vector. -/
def primitive? (t : Ty) : Option Prim :=
  match t.unqualified with
  | prim p => some p
  | vector p _ => some p
  | _ => none

/-- The primitive of a scalar; a vector of one lane counts as one. -/
def scalarPrimitive? (t : Ty) : Option Prim :=
  match t.unqualified with
  | prim p => some p
  | vector p 1 => some p
  | _ => none

def elementType? (t : Ty) : Option Ty :=
  match t.unqualified with
  | array e _ => some e
  | vector p _ => some (prim p)
  | _ => none

def elementCount? (t : Ty) : Option Nat :=
  match t.unqualified with
  | array _ n => n
  | vector _ n => some n
  | _ => none

/-! ## Structs inside a type -/

/-- The structs that a value of the type holds inside itself, not behind a reference. -/
def contained : Ty → List StructId
  | struct id => [id]
  | array e _ => e.contained
  | const t => t.contained
  | _ => []

/-- Replaces every struct, or fails with the first failure of `f`. -/
def mapStructs {m : Type → Type} [Monad m] (f : StructId → m StructId) : Ty → m Ty
  | struct id => return struct (← f id)
  | array e n => return array (← e.mapStructs f) n
  | const t => return const (← t.mapStructs f)
  | ref t => return ref (← t.mapStructs f)
  | t => pure t

/-- The written form, with structs named by `name`. -/
def describe (name : StructId → String) : Ty → String
  | prim p => p.name
  | vector p n => p.name ++ "<" ++ toString n ++ ">"
  | array e (some n) => e.describe name ++ "[" ++ toString n ++ "]"
  | array e none => e.describe name ++ "[]"
  | struct id => name id
  | string => "string"
  | const t => "const " ++ t.describe name
  | ref t => t.describe name ++ "&"

end Ty

end SignalGraph

import SignalGraph.Value

/-!
# SignalGraph.Program.Annotations

Annotations are named constants attached to modules, endpoints, functions and variables.  Keys are
distinct and keep the order in which they were first set.
-/

namespace SignalGraph

/-- The table of distinct constants of a program. -/
abbrev Constants := Interner .const Value

/-- Named constants in order of first setting. -/
structure Annotations where
  properties : List (String × ConstantId) := []
deriving DecidableEq, Repr, Inhabited

namespace Annotations

def isEmpty (a : Annotations) : Bool := a.properties.isEmpty

/-- Sets a property: a new key goes to the end, an old one keeps its place. -/
def set (a : Annotations) (key : String) (value : ConstantId) : Annotations :=
  let rec go : List (String × ConstantId) → List (String × ConstantId)
    | [] => [(key, value)]
    | (k, v) :: rest => if k = key then (k, value) :: rest else (k, v) :: go rest
  ⟨go a.properties⟩

def get? (a : Annotations) (key : String) : Option ConstantId :=
  (a.properties.find? (·.1 == key)).map (·.2)

def has (a : Annotations) (key : String) : Bool := (a.get? key).isSome

def value? (a : Annotations) (constants : Constants) (key : String) : Option Value :=
  a.get? key >>= constants.get?

/-- A property read as a flag; anything but a true boolean is false. -/
def flag (a : Annotations) (constants : Constants) (key : String) : Bool :=
  (a.value? constants key >>= Value.asBool?).getD false

/-- Replaces every constant, from left to right. -/
def mapConstants {m : Type → Type} [Monad m] (f : ConstantId → m ConstantId) (a : Annotations) :
    m Annotations :=
  return ⟨← a.properties.mapM fun (k, c) => return (k, ← f c)⟩

end Annotations

end SignalGraph

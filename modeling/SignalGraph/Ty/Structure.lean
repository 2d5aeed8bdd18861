import SignalGraph.Saturating
import SignalGraph.Source.Span
import SignalGraph.Ty.Basic

/-!
# SignalGraph.Ty.Structure

Structs, the size of their values, and containment.  A struct contains another if a value of it
holds a value of the other inside itself, through arrays and `const` but not through references.
As long as containment has no cycle, a chain of nested structs is no longer than the number of
structs, and that number bounds both recursions below.
-/

namespace SignalGraph

structure Member where
  name : String
  ty : Ty
deriving DecidableEq, Repr

structure Structure where
  name : String
  /-- The module that declares the struct. -/
  owner : ModuleId := default
  members : List Member := []
  span : Span := .dummy
deriving DecidableEq, Repr, Inhabited

abbrev StructArena := Arena .record Structure

namespace Structure

/-- Position of the first member with a name. -/
def memberIndex? (s : Structure) (name : String) : Option Nat :=
  s.members.findIdx? (·.name == name)

def member? (s : Structure) (name : String) : Option Member :=
  s.members.find? (·.name == name)

/-- The structs that a value of this one holds inside itself, in order. -/
def contained (s : Structure) : List StructId := s.members.flatMap (·.ty.contained)

end Structure

/-! ## Sizes -/

/-- The packed size of a type in bytes, given the sizes of structs. -/
def Ty.sizeWith (structSize : StructId → Nat) : Ty → Nat
  | prim p => p.size
  | vector p n => Saturating.mul p.size n
  | array e (some n) => Saturating.mul (e.sizeWith structSize) n
  | array _ none => 8
  | struct id => structSize id
  | string => 8
  | const t => t.sizeWith structSize
  | ref _ => 8

/-- The packed size of a struct whose containment chains are no longer than the first argument;
an unknown struct takes no space. -/
def structSize (structs : StructArena) : Nat → StructId → Nat
  | 0, _ => 0
  | n + 1, id =>
    match structs.get? id with
    | none => 0
    | some s =>
      s.members.foldl (fun total m => Saturating.add total (m.ty.sizeWith (structSize structs n))) 0

/-- The packed size of a type in bytes. -/
def Ty.packedSize (structs : StructArena) (t : Ty) : Nat :=
  t.sizeWith (structSize structs structs.size)

/-! ## Containment cycles -/

/-- What a search for a way back to a struct has found. -/
inductive ContainmentSearch where
  /-- The structs from the start of the search to the one that contains the target. -/
  | found (path : List StructId)
  /-- No way, and these structs have been seen. -/
  | exhausted (visited : List StructId)
deriving Repr

/-- Searches for `target` among the given structs and, by `search`, what they contain. -/
def searchChildren (search : StructId → List StructId → ContainmentSearch) (target : StructId) :
    List StructId → List StructId → ContainmentSearch
  | [], visited => .exhausted visited
  | child :: rest, visited =>
    if child = target then .found []
    else if visited.contains child then searchChildren search target rest visited
    else
      match search child (child :: visited) with
      | .found path => .found (child :: path)
      | .exhausted visited => searchChildren search target rest visited

/-- Searches for `target` among what the struct `current` contains, depth first and skipping
structs that have been seen.  The first number bounds the depth. -/
def searchStruct (structs : StructArena) (target : StructId) :
    Nat → StructId → List StructId → ContainmentSearch
  | 0, _, visited => .exhausted visited
  | n + 1, current, visited =>
    match structs.get? current with
    | none => .exhausted visited
    | some s => searchChildren (searchStruct structs target n) target s.contained visited

/-- A way from a struct through contained structs back to itself, starting with the struct. -/
def structCycle? (structs : StructArena) (start : StructId) : Option (List StructId) :=
  match searchStruct structs start (structs.size + 1) start [start] with
  | .found path => some (start :: path)
  | .exhausted _ => none

end SignalGraph

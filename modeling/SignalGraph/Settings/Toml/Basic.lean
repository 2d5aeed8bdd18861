/-!
# SignalGraph.Settings.Toml.Basic

TOML documents.  How a table came to be decides what may still be added to it:

1. a table with a header, or one that a value spells out, is complete in that place;
2. a table that a longer header merely implies may get its own header later;
3. a table that a dotted key makes may be extended by further dotted keys of the same section.
-/

namespace SignalGraph.Toml

/-- How a table came to be. -/
inductive Origin where
  /-- It has a header, or is the document itself. -/
  | header
  /-- A longer header passes through it. -/
  | implied
  /-- A dotted key passes through it. -/
  | dotted
  /-- It is a value in braces. -/
  | inline
deriving DecidableEq, Repr

inductive Item where
  | text (s : String)
  | integer (n : Int)
  | real
  | boolean (b : Bool)
  | moment
  | array (items : List Item)
  | table (origin : Origin) (entries : List (String × Item))
  /-- Tables under headers in double brackets. -/
  | tables (elements : List (List (String × Item)))
deriving Repr, Inhabited

abbrev Entries := List (String × Item)

namespace Entries

def get? (t : Entries) (key : String) : Option Item := (t.find? (·.1 == key)).map (·.2)

def erase (t : Entries) (key : String) : Entries := t.filter (·.1 != key)

/-- Sets a key, in place if it is there. -/
def set (t : Entries) (key : String) (item : Item) : Entries :=
  if (t.get? key).isSome then t.map fun (k, v) => (k, if k = key then item else v)
  else t ++ [(key, item)]

/-- Adds a key that is not there. -/
def insertNew? (t : Entries) (key : String) (item : Item) : Option Entries :=
  if (t.get? key).isSome then none else some (t ++ [(key, item)])

end Entries

/-- Changes the table at the end of a path; `change` also gets its origin and may answer something
about it.  Tables that are missing on the way are made.  A header passes through all tables and to
the latest of several, while a dotted key passes only through tables without a header. -/
def Entries.changeAt {α : Type} (dotted : Bool) (change : Origin → Entries → Option (α × Entries)) :
    List String → Origin → Entries → Option (α × Entries)
  | [], origin, t => change origin t
  | key :: path, _, t =>
    match t.get? key with
    | none => do
      let origin := if dotted then .dotted else .implied
      let (a, child) ← changeAt dotted change path origin []
      return (a, t.set key (.table origin child))
    | some (.table origin child) =>
      if origin = .inline || (dotted && origin = .header) then none
      else do
        let (a, child) ← changeAt dotted change path origin child
        return (a, t.set key (.table origin child))
    | some (.tables elements) =>
      match elements.reverse with
      | [] => none
      | last :: before => do
        let (a, last) ← changeAt dotted change path .header last
        return (a, t.set key (.tables (last :: before).reverse))
    | some _ => none

/-- Adds a value under a dotted key.  The table that takes it must have been made by dotted keys,
or be the one that the key starts from. -/
def Entries.addValue? (t : Entries) (path : List String) (key : String) (item : Item) :
    Option Entries := do
  let add (origin : Origin) (u : Entries) : Option (Unit × Entries) :=
    if origin = .dotted || path.isEmpty then (u.insertNew? key item).map ((), ·) else none
  let (_, t) ← t.changeAt true add path .header
  return t

end SignalGraph.Toml

import SignalGraph.Settings.Toml.Scalar

/-!
# SignalGraph.Settings.Toml.Document

Values and documents.
-/

namespace SignalGraph.Toml

namespace Reader

/-! ## Values -/

/-- The elements of an array up to its closing bracket; a comma may follow the last one. -/
def elements (value : Reader Item) : Nat → Reader (List Item)
  | 0 => fail
  | n + 1 => do
    gap
    if ← eat ']' then return []
    let v ← value
    gap
    if ← eat ',' then return v :: (← elements value n)
    char ']'
    return [v]

/-- A key and its value. -/
def keyValue (value : Reader Item) : Reader (List String × Item) := do
  let k ← key
  char '='
  blanks
  return (k, ← value)

/-- Adds a value under a key with several parts. -/
def addPair (t : Entries) (path : List String) (v : Item) : Reader Entries :=
  match t.addValue? path.dropLast (path.getLastD "") v with
  | some t => return t
  | none => fail

/-- The pairs of a table in braces, which stands on one line; no comma follows the last one. -/
def pairs (value : Reader Item) : Nat → Entries → Reader Entries
  | 0, _ => fail
  | n + 1, t => do
    let (path, v) ← keyValue value
    let t ← addPair t path v
    blanks
    if ← eat ',' then pairs value n t
    else do
      char '\x7d'
      return t

/-- A table in braces, after the opening one. -/
def braces (value : Reader Item) : Reader Item := do
  blanks
  if ← eat '\x7d' then return .table .inline []
  else return .table .inline (← pairs value (← bound) [])

/-- A value that is neither an array nor a table. -/
def plainValue : Reader Item := do
  match ← peek with
  | some '"' => return .text (← string '"')
  | some '\'' => return .text (← string '\'')
  | some 't' => if ← word "true" then return .boolean true else fail
  | some 'f' => if ← word "false" then return .boolean false else fail
  | some 'i' | some 'n' => namedFloat
  | some c => if c.isDigit || c == '+' || c == '-' then numeric else fail
  | none => fail

/-- A value in which arrays and tables nest no deeper than the given number. -/
def valueTo : Nat → Reader Item
  | 0 => plainValue
  | n + 1 => do
    if ← eat '[' then return .array (← elements (valueTo n) (← bound))
    else if ← eat '\x7b' then braces (valueTo n)
    else plainValue

def value : Reader Item := valueTo (depthLimit - 1)

end Reader

/-! ## Sections -/

/-- A document under construction: what is complete, and the section being read. -/
structure Draft where
  root : Entries := []
  /-- The values of the section. -/
  current : Entries := []
  /-- The section's header. -/
  path : List String := []
  /-- Whether the header has double brackets. -/
  repeated : Bool := false

namespace Draft

/-- Adds another table at the end of those with one name. -/
def appendTable (t : Entries) (key : String) (element : Entries) : Option Entries :=
  match t.get? key with
  | none => some (t ++ [(key, .tables [element])])
  | some (.tables elements) => some (t.set key (.tables (elements ++ [element])))
  | some _ => none

/-- Puts the section that was read into the document. -/
def close (d : Draft) : Option Entries :=
  match d.path.reverse with
  | [] => some d.current
  | key :: parents => do
    let put (_ : Origin) (t : Entries) : Option (Unit × Entries) :=
      (if d.repeated then appendTable t key d.current
        else t.insertNew? key (.table .header d.current)).map ((), ·)
    let (_, root) ← d.root.changeAt false put parents.reverse .header
    return root

/-- Starts a section.  A table that was only implied so far keeps what it has. -/
def openTable (root : Entries) (path : List String) : Option Draft := do
  let key := path.getLastD ""
  let take (_ : Origin) (t : Entries) : Option (Entries × Entries) :=
    match t.get? key with
    | none => some ([], t)
    | some (.table .implied child) => some (child, t.erase key)
    | some _ => none
  let (current, root) ← root.changeAt false take path.dropLast .header
  return { root, current, path }

/-- Starts another table of those with one name. -/
def openElement (root : Entries) (path : List String) : Option Draft := do
  let key := path.getLastD ""
  let look (_ : Origin) (t : Entries) : Option (Unit × Entries) :=
    match t.get? key with
    | none | some (.tables _) => some ((), t)
    | some _ => none
  let (_, root) ← root.changeAt false look path.dropLast .header
  return { root, path, repeated := true }

end Draft

namespace Reader

/-- A header in single or double brackets. -/
def sectionHeader (d : Draft) : Reader Draft := do
  char '['
  let double ← eat '['
  let path ← key
  char ']'
  if double then char ']'
  lineEnd
  let next := do
    let root ← d.close
    if double then Draft.openElement root path else Draft.openTable root path
  match next with
  | some d => return d
  | none => fail

/-- The lines of a document. -/
def lines : Nat → Draft → Reader Draft
  | 0, _ => fail
  | n + 1, d => do
    blanks
    match ← peek with
    | none => return d
    | some '#' => do
      comment
      unless ← atEnd do newline
      lines n d
    | some '\n' | some '\r' => do
      newline
      lines n d
    | some '[' => do lines n (← sectionHeader d)
    | some _ => do
      let (path, v) ← keyValue value
      lineEnd
      let current ← addPair d.current path v
      lines n { d with current }

end Reader

/-- Reads a document; a byte order mark at its start is skipped. -/
def parse? (text : String) : Option Entries := do
  let cs := match text.toList with
    | '\ufeff' :: cs => cs
    | cs => cs
  let (d, _) ← (Reader.lines (cs.length + 1) {}).run cs
  d.close

end SignalGraph.Toml

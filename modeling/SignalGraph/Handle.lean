/-!
# SignalGraph.Handle

Handles and arenas.  A program owns its modules, structs, functions, variables, constants and
texts in tables that only grow; everything else refers to them by position.  A `Handle` carries
the kind of table it points into, so a struct handle can never be used to look up a function.

Main facts: what has been added is found again (`Arena.get?_push_next`), and adding disturbs
nothing that was there before (`Arena.get?_push_of_lt`).
-/

namespace SignalGraph

/-- The kinds of thing a handle can name. -/
inductive Entity where
  | mod | record | func | var | block | endpoint | node | wire | const | text
deriving DecidableEq, Repr

/-- A position in the table of one kind of entity. -/
structure Handle (e : Entity) where
  /-- The position, counted from zero. -/
  idx : Nat
deriving DecidableEq, Repr, Hashable, Inhabited

abbrev ModuleId := Handle .mod
abbrev StructId := Handle .record
abbrev FunctionId := Handle .func
abbrev VariableId := Handle .var
abbrev BlockId := Handle .block
abbrev EndpointId := Handle .endpoint
abbrev NodeId := Handle .node
abbrev ConnectionId := Handle .wire
abbrev ConstantId := Handle .const
abbrev TextId := Handle .text

/-- A growing table whose entries are addressed by handles of kind `e`. -/
structure Arena (e : Entity) (α : Type) where
  /-- The entries, oldest first. -/
  items : Array α := #[]
deriving Repr, Inhabited

namespace Arena

variable {e : Entity} {α β : Type}

/-- The table without entries. -/
def empty : Arena e α := ⟨#[]⟩

instance : EmptyCollection (Arena e α) := ⟨empty⟩

/-- The number of entries. -/
def size (a : Arena e α) : Nat := a.items.size

/-- Whether there are no entries. -/
def isEmpty (a : Arena e α) : Bool := a.items.isEmpty

/-- The handle that the next added entry will get. -/
def next (a : Arena e α) : Handle e := ⟨a.items.size⟩

/-- Adds an entry at the end; `next` is its handle. -/
def push (a : Arena e α) (x : α) : Arena e α := ⟨a.items.push x⟩

/-- The entry at a handle, or `none` if the handle is out of range. -/
def get? (a : Arena e α) (h : Handle e) : Option α := a.items[h.idx]?

/-- The entry at a handle; a handle that is out of range reads as the default entry. -/
def get [Inhabited α] (a : Arena e α) (h : Handle e) : α := (a.get? h).getD default

/-- Changes the entry at a handle; a handle that is out of range changes nothing. -/
def modify (a : Arena e α) (h : Handle e) (f : α → α) : Arena e α := ⟨a.items.modify h.idx f⟩

/-- The entries, oldest first. -/
def toList (a : Arena e α) : List α := a.items.toList

/-- All handles in range, in order. -/
def handles (a : Arena e α) : List (Handle e) := (List.range a.items.size).map (⟨·⟩)

/-- The entries with their handles, oldest first. -/
def entries (a : Arena e α) : List (Handle e × α) :=
  a.items.toList.zipIdx.map fun (x, i) => (⟨i⟩, x)

/-- The handle of the first entry that satisfies `p`. -/
def find? (a : Arena e α) (p : α → Bool) : Option (Handle e) := (a.items.findIdx? p).map (⟨·⟩)

@[simp] theorem size_push (a : Arena e α) (x : α) : (a.push x).size = a.size + 1 := by
  simp [size, push]

/-- A new entry is found under the handle that was announced for it. -/
@[simp] theorem get?_push_next (a : Arena e α) (x : α) : (a.push x).get? a.next = some x := by
  simp [get?, push, next]

/-- Entries that are there stay where they are when one is added. -/
theorem get?_push_of_lt (a : Arena e α) (x : α) (h : Handle e) (hh : h.idx < a.size) :
    (a.push x).get? h = a.get? h := by
  simp only [size] at hh
  simp [get?, push, Array.getElem?_push, Nat.ne_of_lt hh]

@[simp] theorem size_modify (a : Arena e α) (h : Handle e) (f : α → α) :
    (a.modify h f).size = a.size := by
  simp [size, modify]

/-- A changed entry is the old one with the change made to it. -/
theorem get?_modify_self (a : Arena e α) (h : Handle e) (f : α → α) :
    (a.modify h f).get? h = (a.get? h).map f := by
  simp [get?, modify, Array.getElem?_modify]

/-- Changing one entry leaves every other one as it is. -/
theorem get?_modify_of_ne (a : Arena e α) (h k : Handle e) (f : α → α) (hk : h.idx ≠ k.idx) :
    (a.modify h f).get? k = a.get? k := by
  simp [get?, modify, Array.getElem?_modify, hk]

/-- New entries are listed last. -/
@[simp] theorem toList_push (a : Arena e α) (x : α) : (a.push x).toList = a.toList ++ [x] := by
  simp [toList, push]

end Arena

/-- A table of distinct entries: adding one that is already there answers its old handle. -/
structure Interner (e : Entity) (α : Type) where
  /-- The distinct entries, oldest first. -/
  entries : Arena e α := ∅
deriving Repr, Inhabited

namespace Interner

variable {e : Entity} {α : Type} [BEq α]

instance : EmptyCollection (Interner e α) := ⟨⟨∅⟩⟩

/-- The handle of an entry that is already in the table. -/
def find? (t : Interner e α) (x : α) : Option (Handle e) := t.entries.find? (· == x)

/-- The handle of an entry, which is added at the end if it is new. -/
def intern (t : Interner e α) (x : α) : Handle e × Interner e α :=
  match t.find? x with
  | some h => (h, t)
  | none => (t.entries.next, ⟨t.entries.push x⟩)

/-- The entry at a handle. -/
def get? (t : Interner e α) (h : Handle e) : Option α := t.entries.get? h

/-- The number of entries. -/
def size (t : Interner e α) : Nat := t.entries.size

/-- The entries, oldest first. -/
def toList (t : Interner e α) : List α := t.entries.toList

/-- The table that results from adding the entries of a list one by one. -/
def ofList (l : List α) : Interner e α := l.foldl (fun t x => (t.intern x).2) ∅

end Interner

end SignalGraph

import SignalGraph.Settings.Basic
import SignalGraph.Settings.Toml.Document

/-!
# SignalGraph.Settings.Load

Reading settings from the section `build` of a TOML document.  Settings that are missing take
their defaults, and keys that are not known are skipped.
-/

namespace SignalGraph

/-- What can be wrong with a settings text. -/
inductive SettingsError where
  /-- The text is no TOML document, or a setting has a value of the wrong kind. -/
  | unreadable
  | zeroDelay
  | zeroArraySize
  | emptyMainProcessor
deriving DecidableEq, Repr

namespace SettingsError

/-- What is wrong with a value of the right kind. -/
def message : SettingsError → String
  | unreadable => "failed to parse configuration"
  | zeroDelay => "validation error: max_delay_line_length must be at least 1"
  | zeroArraySize => "validation error: max_processor_array_size must be at least 1"
  | emptyMainProcessor => "validation error: main_processor must not be empty"

end SettingsError

namespace Settings

open Toml

/-! ## Single settings -/

def readText? : Item → Option String
  | .text s => some s
  | _ => none

/-- A number that is not negative and has at most the given number of bits. -/
def readWord? (bits : Nat) : Item → Option Nat
  | .integer n => if 0 ≤ n && n.toNat < 1 <<< bits then some n.toNat else none
  | _ => none

/-- The settings that a text can change, in order, with the way each is read. -/
def fields : List (String × (Item → Settings → Option Settings)) :=
  [("main_processor", fun i s => return { s with mainProcessor := some (← readText? i) }),
    ("max_stack_size", fun i s => return { s with maxStackSize := ← readWord? 64 i }),
    ("max_delay_line_length", fun i s => return { s with maxDelayLength := ← readWord? 64 i }),
    ("max_processor_array_size", fun i s => return { s with maxArraySize := ← readWord? 32 i }),
    ("max_specialisation_instances",
      fun i s => return { s with maxSpecialisations := ← readWord? 32 i })]

/-! ## The section -/

/-- Reads settings by name. -/
def ofEntries? (t : Entries) : Option Settings :=
  fields.foldlM (fun s (name, read) =>
    match t.get? name with
    | some i => read i s
    | none => some s) {}

/-- Reads settings by position; items past the last setting are skipped. -/
def ofItems? (items : List Item) : Option Settings :=
  (fields.zip items).foldlM (fun s ((_, read), i) => read i s) {}

/-- Reads the section: a table by name, an array by position.  A date has no settings in it. -/
def ofItem? : Item → Option Settings
  | .table _ t => ofEntries? t
  | .array items => ofItems? items
  | .moment => some {}
  | _ => none

/-- The section of a document, or the defaults if there is none. -/
def ofDocument? (t : Entries) : Option Settings :=
  match t.get? "build" with
  | some i => ofItem? i
  | none => some {}

/-! ## Validation -/

/-- Whether a character is white space. -/
def isWhite (c : Char) : Bool :=
  (9 ≤ c.toNat && c.toNat ≤ 13) || (0x2000 ≤ c.toNat && c.toNat ≤ 0x200a) ||
    [0x20, 0x85, 0xa0, 0x1680, 0x2028, 0x2029, 0x202f, 0x205f, 0x3000].contains c.toNat

def validate (s : Settings) : Except SettingsError Settings :=
  if s.maxDelayLength = 0 then .error .zeroDelay
  else if s.maxArraySize = 0 then .error .zeroArraySize
  else if s.mainProcessor.any (·.toList.all isWhite) then .error .emptyMainProcessor
  else .ok s

/-- Reads settings from a text. -/
def load (text : String) : Except SettingsError Settings :=
  match Toml.parse? text >>= ofDocument? with
  | some s => s.validate
  | none => .error .unreadable

end Settings

end SignalGraph

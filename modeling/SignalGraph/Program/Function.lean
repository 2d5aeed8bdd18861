import SignalGraph.Program.Annotations
import SignalGraph.Program.Statement
import SignalGraph.Source.Span

/-!
# SignalGraph.Program.Function

Functions as graphs of basic blocks.  The first block is the entry; a function without blocks is
a declaration only.
-/

namespace SignalGraph

/-- What a function is for; all but the first and the last are called by the runtime. -/
inductive FunctionKind where
  | normal | event | run | systemInit | userInit | intrinsic
deriving DecidableEq, Repr, Inhabited

namespace FunctionKind

/-- The kind that the name of a processor's function gives it. -/
def ofProcessorFunction (name : String) : FunctionKind :=
  if name = "run" then run
  else if name = "_init" then systemInit
  else if name = "init" then userInit
  else normal

/-- Whether the runtime calls functions of this kind. -/
def isEntryPoint : FunctionKind → Bool
  | run | userInit | systemInit | event => true
  | normal | intrinsic => false

end FunctionKind

/-- A label with its leading `@`, which is added if it is missing. -/
def blockLabel (name : String) : String := if name.startsWith "@" then name else "@" ++ name

/-- A local name with its leading `$`, which is added if it is missing. -/
def localName (name : String) : String := if name.startsWith "$" then name else "$" ++ name

structure Block where
  /-- The label, with its leading `@`. -/
  name : String
  parameters : List VariableId := []
  statements : List Statement := []
  terminator : Terminator := .returnVoid
  span : Span := .dummy
deriving Repr, Inhabited

namespace Block

def ofName (name : String) : Block := { name := blockLabel name }

def advances (b : Block) : Bool := b.statements.any Statement.isAdvance

/-- The functions called from statements and terminator. -/
def callees (b : Block) : List FunctionId :=
  b.statements.flatMap Statement.callees ++ b.terminator.callees

end Block

structure Function where
  name : String
  /-- The module that declares the function. -/
  owner : ModuleId := default
  kind : FunctionKind := .normal
  returns : Ty := .void
  parameters : List VariableId := []
  locals : List VariableId := []
  blocks : Arena .block Block := ∅
  annotations : Annotations := {}
  span : Span := .dummy
deriving Repr, Inhabited

namespace Function

def hasBody (f : Function) : Bool := !f.blocks.isEmpty

def entry? (f : Function) : Option BlockId := if f.hasBody then some ⟨0⟩ else none

def advances (f : Function) : Bool := f.blocks.toList.any Block.advances

def statements (f : Function) : List Statement := f.blocks.toList.flatMap (·.statements)

/-- The functions called anywhere in the body, in order and with repeats. -/
def callees (f : Function) : List FunctionId := f.blocks.toList.flatMap Block.callees

end Function

end SignalGraph

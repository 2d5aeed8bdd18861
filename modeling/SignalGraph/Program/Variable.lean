import SignalGraph.Program.Annotations
import SignalGraph.Source.Span

/-!
# SignalGraph.Program.Variable

Variables of modules, functions and blocks.
-/

namespace SignalGraph

/-- What a variable is for. -/
inductive VariableRole where
  | state | mutableLocal | constant | parameter
  /-- Supplied from outside the program. -/
  | external
deriving DecidableEq, Repr, Inhabited

structure Variable where
  name : String
  ty : Ty
  role : VariableRole
  initial : Option ConstantId := none
  annotations : Annotations := {}
  span : Span := .dummy
deriving DecidableEq, Repr, Inhabited

namespace Variable

/-- Whether the role alone places the variable in a module. -/
def isModuleLevel (v : Variable) : Bool := v.role == .state || v.role == .external

end Variable

end SignalGraph

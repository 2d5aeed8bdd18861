import SignalGraph.Program.Basic

/-!
# SignalGraph.Program.Builder

Building functions step by step.  Variables enter the program as they are added; the function
itself enters when it is finished.  The first statement or terminator without a block opens one.
-/

namespace SignalGraph

/-- A function under construction. -/
structure FunctionBuilder where
  program : Program
  function : Function
  /-- The block that takes statements. -/
  current : Option BlockId := none

namespace FunctionBuilder

/-- Starts a function; in a processor its name decides its kind. -/
def start (p : Program) (owner : ModuleId) (name : String) (returns : Ty) : FunctionBuilder :=
  let kind := if (p.moduleAt owner).isProcessor then .ofProcessorFunction name else .normal
  { program := p, function := { name, owner, kind, returns } }

def withKind (b : FunctionBuilder) (kind : FunctionKind) : FunctionBuilder :=
  { b with function := { b.function with kind } }

/-- Adds a variable to the program under a local name. -/
def addVariable (b : FunctionBuilder) (name : String) (ty : Ty) (role : VariableRole) :
    VariableId × FunctionBuilder :=
  let (id, program) := b.program.addVariable { name := localName name, ty, role }
  (id, { b with program })

def addParameter (b : FunctionBuilder) (name : String) (ty : Ty) : VariableId × FunctionBuilder :=
  let (id, b) := b.addVariable name ty .parameter
  (id, { b with function := { b.function with parameters := b.function.parameters ++ [id] } })

/-- Adds a local variable; a constant one is assigned once. -/
def addLocal (b : FunctionBuilder) (name : String) (ty : Ty) (constant : Bool) :
    VariableId × FunctionBuilder :=
  let (id, b) := b.addVariable name ty (if constant then .constant else .mutableLocal)
  (id, { b with function := { b.function with locals := b.function.locals ++ [id] } })

def modifyBlock (b : FunctionBuilder) (id : BlockId) (f : Block → Block) : FunctionBuilder :=
  { b with function := { b.function with blocks := b.function.blocks.modify id f } }

def addBlock (b : FunctionBuilder) (name : String) : BlockId × FunctionBuilder :=
  (b.function.blocks.next,
    { b with function := { b.function with blocks := b.function.blocks.push (.ofName name) } })

def addBlockParameter (b : FunctionBuilder) (block : BlockId) (name : String) (ty : Ty) :
    VariableId × FunctionBuilder :=
  let (id, b) := b.addVariable name ty .parameter
  (id, b.modifyBlock block fun k => { k with parameters := k.parameters ++ [id] })

def beginBlock (b : FunctionBuilder) (id : BlockId) : FunctionBuilder :=
  { b with current := some id }

/-- Adds a block and continues in it. -/
def createBlock (b : FunctionBuilder) (name : String) : BlockId × FunctionBuilder :=
  let (id, b) := b.addBlock name
  (id, b.beginBlock id)

/-- Changes the current block, which is opened if there is none. -/
def modifyCurrent (b : FunctionBuilder) (f : Block → Block) : FunctionBuilder :=
  match b.current with
  | some id => b.modifyBlock id f
  | none =>
    let (id, b) := b.createBlock "@block_0"
    b.modifyBlock id f

def addStatement (b : FunctionBuilder) (s : Statement) : FunctionBuilder :=
  b.modifyCurrent fun k => { k with statements := k.statements ++ [s] }

def terminate (b : FunctionBuilder) (terminator : Terminator) : FunctionBuilder :=
  b.modifyCurrent fun k => { k with terminator }

/-- Adds the function to the program. -/
def finish (b : FunctionBuilder) : FunctionId × Program := b.program.addFunction b.function

end FunctionBuilder

end SignalGraph

import SignalGraph.Program.Function
import SignalGraph.Program.Module
import SignalGraph.Program.Variable
import SignalGraph.Ty.Structure

/-!
# SignalGraph.Program.Basic

Programs: the tables of modules, structs, functions, variables, constants and texts, and the
look-ups between them.  Names need not be distinct; a look-up answers the first match.
-/

namespace SignalGraph

/-- The distinct texts of a program's string literals. -/
abbrev Texts := Interner .text String

structure Program where
  modules : Arena .mod Module := ∅
  structs : StructArena := ∅
  functions : Arena .func Function := ∅
  vars : Arena .var Variable := ∅
  constants : Constants := ∅
  texts : Texts := ∅
deriving Repr, Inhabited

namespace Program

/-! ## Reading the tables -/

def moduleAt (p : Program) (id : ModuleId) : Module := p.modules.get id

def structAt (p : Program) (id : StructId) : Structure := p.structs.get id

def functionAt (p : Program) (id : FunctionId) : Function := p.functions.get id

def variableAt (p : Program) (id : VariableId) : Variable := p.vars.get id

def constantAt (p : Program) (id : ConstantId) : Value := p.constants.entries.get id

def textAt (p : Program) (id : TextId) : String := (p.texts.get? id).getD ""

/-! ## Modules -/

def addModule (p : Program) (kind : ModuleKind) (name : String) : ModuleId × Program :=
  (p.modules.next, { p with modules := p.modules.push { kind, name } })

def modifyModule (p : Program) (id : ModuleId) (f : Module → Module) : Program :=
  { p with modules := p.modules.modify id f }

def findModule? (p : Program) (name : String) : Option ModuleId := p.modules.find? (·.name == name)

def parentModule? (p : Program) (id : ModuleId) : Option ModuleId :=
  (p.moduleAt id).parentName? >>= p.findModule?

/-- The modules whose parent path is the name of the given one. -/
def subModules (p : Program) (id : ModuleId) : List ModuleId :=
  (p.modules.entries.filter (·.2.parentName? == some (p.moduleAt id).name)).map (·.1)

/-- The modules that can run: processors and graphs. -/
def runnable (p : Program) : List (ModuleId × Module) :=
  p.modules.entries.filter fun (_, m) => !m.isNamespace

/-- The key of the annotation that marks the main module. -/
def mainKey : String := "main"

/-- The module to run: the one with the configured name, else the first that is marked as main,
else the first that is not marked at all. -/
def mainModule? (p : Program) (configured : Option String) : Option ModuleId :=
  match configured with
  | some name => (p.runnable.find? (·.2.name == name)).map (·.1)
  | none =>
    (p.runnable.find? (·.2.annotations.flag p.constants mainKey) <|>
      p.runnable.find? fun (_, m) => !m.annotations.has mainKey).map (·.1)

/-- The module that a node of a graph is an instance of. -/
def nodeSource? (p : Program) (graph : ModuleId) (node : NodeId) : Option ModuleId :=
  p.findModule? ((p.moduleAt graph).nodes.get node).source

/-- The graphs of the program, in order. -/
def graphs (p : Program) : List ModuleId :=
  (p.modules.entries.filter (·.2.isGraph)).map (·.1)

/-! ## Structs -/

def addStruct (p : Program) (owner : ModuleId) (name : String) (span : Span) : StructId × Program :=
  let id := p.structs.next
  (id, { p with structs := p.structs.push { name, owner, span } }.modifyModule owner
    fun m => { m with structs := m.structs ++ [id] })

def structName (p : Program) (id : StructId) : String :=
  let s := p.structAt id
  (p.moduleAt s.owner).name ++ "::" ++ s.name

def describe (p : Program) (t : Ty) : String := t.describe p.structName

def findStruct? (p : Program) (owner : ModuleId) (name : String) : Option StructId :=
  (p.moduleAt owner).structs.find? fun id => (p.structAt id).name == name

/-- Looks up a name by its path, in the module that the path names. -/
def byPath? {α : Type} (p : Program) (find : ModuleId → String → Option α) (path : String) :
    Option α := do
  let (owner, name) ← splitPath? path
  find (← p.findModule? owner) name

def structByPath? (p : Program) (path : String) : Option StructId := p.byPath? p.findStruct? path

/-- The fault of a struct that would contain itself along the given cycle. -/
def containmentFault (p : Program) (span : Span) : List StructId → Diagnostic
  | [s] => .error ⟨.structural, 101⟩ s!"The type '{p.structName s}' cannot contain itself" span
  | [s, t] =>
    .error ⟨.structural, 102⟩
      s!"The types '{p.structName s}' and '{p.structName t}' refer to each other recursively" span
  | cycle =>
    let name := p.structName (cycle.headD default)
    .error ⟨.structural, 103⟩
      s!"The type '{name}' is recursive through a chain of members" span

/-- Adds a member at the end of a struct, unless the struct would then contain itself. -/
def addMember (p : Program) (id : StructId) (name : String) (ty : Ty) (span : Span) :
    Except Diagnostic Program :=
  let structs := p.structs.modify id fun s => { s with members := s.members ++ [⟨name, ty⟩] }
  match structCycle? structs id with
  | some cycle => .error (p.containmentFault span cycle)
  | none => .ok { p with structs }

/-- Adds a member in place: it is taken away again if the struct then contains itself. -/
def addMemberInPlace (p : Program) (id : StructId) (name : String) (ty : Ty) (span : Span) :
    Except Diagnostic Unit × Program :=
  let added := p.structs.modify id fun s => { s with members := s.members ++ [⟨name, ty⟩] }
  match structCycle? added id with
  | some cycle =>
    let structs := added.modify id fun s => { s with members := s.members.dropLast }
    (.error ({ p with structs }.containmentFault span cycle), { p with structs })
  | none => (.ok (), { p with structs := added })

/-! ## Variables -/

def addVariable (p : Program) (v : Variable) : VariableId × Program :=
  (p.vars.next, { p with vars := p.vars.push v })

def modifyVariable (p : Program) (id : VariableId) (f : Variable → Variable) : Program :=
  { p with vars := p.vars.modify id f }

/-- Adds a variable to the state of a module. -/
def addState (p : Program) (owner : ModuleId) (v : Variable) : VariableId × Program :=
  let (id, p) := p.addVariable v
  (id, p.modifyModule owner fun m => { m with state := m.state ++ [id] })

/-- Adds a parameter of a module: a constant whose value its nodes have to supply. -/
def addParameter (p : Program) (owner : ModuleId) (name : String) (ty : Ty) (span : Span) :
    VariableId × Program :=
  let (id, p) := p.addVariable { name, ty, role := .constant, span }
  (id, p.modifyModule owner fun m => { m with parameters := m.parameters ++ [id] })

/-- A variable of a module: state first, then parameters. -/
def findVariable? (p : Program) (owner : ModuleId) (name : String) : Option VariableId :=
  let m := p.moduleAt owner
  (m.state ++ m.parameters).find? fun id => (p.variableAt id).name == name

def variableByPath? (p : Program) (path : String) : Option VariableId :=
  p.byPath? p.findVariable? path

/-! ## Functions -/

/-- Adds a function to the module that owns it. -/
def addFunction (p : Program) (f : Function) : FunctionId × Program :=
  let id := p.functions.next
  (id, { p with functions := p.functions.push f }.modifyModule f.owner
    fun m => { m with functions := m.functions ++ [id] })

def modifyFunction (p : Program) (id : FunctionId) (f : Function → Function) : Program :=
  { p with functions := p.functions.modify id f }

def findFunction? (p : Program) (owner : ModuleId) (name : String) : Option FunctionId :=
  (p.moduleAt owner).functions.find? fun id => (p.functionAt id).name == name

def functionByPath? (p : Program) (path : String) : Option FunctionId :=
  p.byPath? p.findFunction? path

def functionName (p : Program) (id : FunctionId) : String :=
  let f := p.functionAt id
  (p.moduleAt f.owner).name ++ "::" ++ f.name

/-! ## Constants and texts -/

def intern (p : Program) (v : Value) : ConstantId × Program :=
  let (id, constants) := p.constants.intern v
  (id, { p with constants })

def internText (p : Program) (s : String) : TextId × Program :=
  let (id, texts) := p.texts.intern s
  (id, { p with texts })

end Program

end SignalGraph

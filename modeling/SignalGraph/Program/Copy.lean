import SignalGraph.Program.Basic
import SignalGraph.Program.Rename

/-!
# SignalGraph.Program.Copy

Copying modules, into another program or within one.

1. modules and structs get their new handles first, then struct members, module variables and
   function signatures, and last the contents, so references within the copied set always find
   their copy;
2. a reference out of the set is an error, or is kept where the copy stays in the same program;
3. whatever was added before an error stays.
-/

namespace SignalGraph

/-- Which copy stands for each thing copied so far; of several, the latest. -/
structure Copies where
  modules : List (ModuleId × ModuleId) := []
  structs : List (StructId × StructId) := []
  functions : List (FunctionId × FunctionId) := []
  vars : List (VariableId × VariableId) := []
  /-- The blocks of the function being copied. -/
  blocks : List (BlockId × BlockId) := []
  /-- The nodes of the module being copied. -/
  nodes : List (NodeId × NodeId) := []
deriving Repr, Inhabited

structure CopyState where
  dest : Program
  copies : Copies := {}
deriving Inhabited

/-- Where modules are copied from, and whether references out of the copied set are kept. -/
structure CopySource where
  program : Program
  keepOutside : Bool

/-- A step of copying; a failing step keeps what was added before it. -/
abbrev Copy := ExceptT InternalError (StateM CopyState)

namespace Copy

def fail {α : Type} (detail : String) : Copy α := throw ⟨detail⟩

def modifyDest (f : Program → Program) : Copy Unit := modify fun s => { s with dest := f s.dest }

def modifyCopies (f : Copies → Copies) : Copy Unit :=
  modify fun s => { s with copies := f s.copies }

/-- Adds something to the destination and answers its handle. -/
def add {α : Type} (f : Program → α × Program) : Copy α :=
  modifyGet fun s => let (a, dest) := f s.dest; (a, { s with dest })

end Copy

namespace CopySource

open Copy

/-! ## References -/

/-- The copy of a thing, or the thing itself if it lies outside and may be kept. -/
def copyOf {e : Entity} (c : CopySource) (what : String) (name : Handle e → String)
    (copies : Copies → List (Handle e × Handle e)) (id : Handle e) : Copy (Handle e) := do
  match (copies (← get).copies).lookup id with
  | some new => return new
  | none =>
    if c.keepOutside then return id
    else fail s!"{what} '{name id}' is outside the cloned modules"

def moduleOf (c : CopySource) : ModuleId → Copy ModuleId :=
  c.copyOf "module" (fun id => (c.program.moduleAt id).name) (·.modules)

def structOf (c : CopySource) : StructId → Copy StructId :=
  c.copyOf "struct" c.program.structName (·.structs)

def functionOf (c : CopySource) : FunctionId → Copy FunctionId :=
  c.copyOf "function" c.program.functionName (·.functions)

def variableOf (c : CopySource) : VariableId → Copy VariableId :=
  c.copyOf "variable" (fun id => (c.program.variableAt id).name) (·.vars)

def blockOf (id : BlockId) : Copy BlockId := do
  match (← get).copies.blocks.lookup id with
  | some new => return new
  | none => fail s!"branch to unknown block {id.idx}"

def tyOf (c : CopySource) (t : Ty) : Copy Ty := t.mapStructs c.structOf

def textOf (c : CopySource) (id : TextId) : Copy TextId := do
  match c.program.texts.get? id with
  | some text => add (·.internText text)
  | none => fail s!"unknown string handle {id.idx}"

def constantOf (c : CopySource) (id : ConstantId) : Copy ConstantId := do
  let value ← (c.program.constantAt id).mapParts c.tyOf c.textOf
  add (·.intern value)

def annotationsOf (c : CopySource) (a : Annotations) : Copy Annotations :=
  a.mapConstants c.constantOf

def renamer (c : CopySource) : Renamer Copy where
  onVariable := c.variableOf
  onConstant := c.constantOf
  onFunction := c.functionOf
  onTy := c.tyOf
  onBlock := blockOf

def endpointRefOf (r : EndpointRef) : Copy EndpointRef := do
  match r.node with
  | none => return r
  | some id =>
    match (← get).copies.nodes.lookup id with
    | some new => return { r with node := some new }
    | none => fail s!"connection refers to unknown instance {id.idx}"

/-! ## Parts of modules -/

def copyVariable (c : CopySource) (id : VariableId) : Copy VariableId := do
  let v := c.program.variableAt id
  let ty ← c.tyOf v.ty
  let initial ← v.initial.mapM c.constantOf
  let annotations ← c.annotationsOf v.annotations
  let new ← add (·.addVariable { v with ty, initial, annotations })
  modifyCopies fun r => { r with vars := (id, new) :: r.vars }
  return new

def copyMembers (c : CopySource) (id : StructId) : Copy Unit := do
  let members ← (c.program.structAt id).members.mapM fun m => return { m with ty := ← c.tyOf m.ty }
  let new ← c.structOf id
  modifyDest fun p => { p with structs := p.structs.modify new fun s => { s with members } }

def copyModuleVariables (c : CopySource) (id : ModuleId) : Copy Unit := do
  let m := c.program.moduleAt id
  let target ← c.moduleOf id
  m.parameters.forM fun v => do
    let new ← c.copyVariable v
    modifyDest (·.modifyModule target fun m => { m with parameters := m.parameters ++ [new] })
  m.state.forM fun v => do
    let new ← c.copyVariable v
    modifyDest (·.modifyModule target fun m => { m with state := m.state ++ [new] })

/-- Copies the signature of a function; its body follows once all signatures are there. -/
def copySignature (c : CopySource) (id : FunctionId) : Copy Unit := do
  let f := c.program.functionAt id
  let owner ← c.moduleOf f.owner
  let returns ← c.tyOf f.returns
  let annotations ← c.annotationsOf f.annotations
  let parameters ← f.parameters.mapM c.copyVariable
  let locals ← f.locals.mapM c.copyVariable
  let new ← add (·.addFunction
    { name := f.name, owner, kind := f.kind, returns, annotations, span := f.span, parameters,
      locals })
  modifyCopies fun r => { r with functions := (id, new) :: r.functions }

def copyBlock (c : CopySource) (target : FunctionId) (id : BlockId) (b : Block) : Copy Unit := do
  let parameters ← b.parameters.mapM c.copyVariable
  let new := ((← get).dest.functionAt target).blocks.next
  modifyDest (·.modifyFunction target fun f =>
    { f with blocks := f.blocks.push { name := blockLabel b.name, parameters, span := b.span } })
  modifyCopies fun r => { r with blocks := (id, new) :: r.blocks }

def copyBlockBody (c : CopySource) (target : FunctionId) (id : BlockId) (b : Block) :
    Copy Unit := do
  let statements ← b.statements.mapM (·.rename c.renamer)
  let terminator ← b.terminator.rename c.renamer
  let new ← blockOf id
  modifyDest (·.modifyFunction target fun f =>
    { f with blocks := f.blocks.modify new fun b => { b with statements, terminator } })

def copyBody (c : CopySource) (id : FunctionId) : Copy Unit := do
  let blocks := (c.program.functionAt id).blocks.entries
  let target ← c.functionOf id
  modifyCopies fun r => { r with blocks := [] }
  blocks.forM fun (k, b) => c.copyBlock target k b
  blocks.forM fun (k, b) => c.copyBlockBody target k b

def copyEndpoint (c : CopySource) (target : ModuleId) (e : Endpoint) : Copy Unit := do
  let details ← e.details.mapM fun d => return { d with types := ← d.types.mapM c.tyOf }
  let annotations ← c.annotationsOf e.annotations
  modifyDest (·.modifyModule target (·.addEndpoint { e with details, annotations }))

def copyNode (c : CopySource) (target : ModuleId) (id : NodeId) (n : Node) : Copy Unit := do
  let args ← n.args.mapM c.constantOf
  let new := ((← get).dest.moduleAt target).nodes.next
  modifyDest (·.modifyModule target (·.addNode { n with args }))
  modifyCopies fun r => { r with nodes := (id, new) :: r.nodes }

def copyConnection (target : ModuleId) (w : Connection) : Copy Unit := do
  let source ← endpointRefOf w.source
  let dest ← endpointRefOf w.dest
  modifyDest (·.modifyModule target (·.addConnection { w with source, dest }))

def copyContents (c : CopySource) (id : ModuleId) : Copy Unit := do
  let m := c.program.moduleAt id
  let target ← c.moduleOf id
  let annotations ← c.annotationsOf m.annotations
  modifyDest (·.modifyModule target fun m => { m with annotations })
  m.endpoints.toList.forM (c.copyEndpoint target)
  modifyCopies fun r => { r with nodes := [] }
  m.nodes.entries.forM fun (k, n) => c.copyNode target k n
  m.connections.toList.forM (copyConnection target)
  m.functions.forM c.copyBody

/-! ## Whole modules -/

/-- Adds an empty module for a copy, under a new name if one is given. -/
def declareModule (c : CopySource) (newName : Option String) (id : ModuleId) : Copy Unit := do
  let m := c.program.moduleAt id
  let new ← add (·.addModule m.kind (newName.getD m.name))
  modifyDest (·.modifyModule new fun n => { n with span := m.span })
  modifyCopies fun r => { r with modules := (id, new) :: r.modules }

def declareStructs (c : CopySource) (id : ModuleId) : Copy Unit := do
  let target ← c.moduleOf id
  (c.program.moduleAt id).structs.forM fun s => do
    let old := c.program.structAt s
    let new ← add (·.addStruct target old.name old.span)
    modifyCopies fun r => { r with structs := (s, new) :: r.structs }

/-- Copies modules and answers their new handles. -/
def copyModules (c : CopySource) (newName : Option String) (ids : List ModuleId) :
    Copy (List ModuleId) := do
  ids.forM (c.declareModule newName)
  ids.forM c.declareStructs
  ids.forM fun id => (c.program.moduleAt id).structs.forM c.copyMembers
  ids.forM c.copyModuleVariables
  ids.forM fun id => (c.program.moduleAt id).functions.forM c.copySignature
  ids.forM c.copyContents
  ids.mapM c.moduleOf

end CopySource

namespace Program

/-- Copies modules of `source` into `dest`, which is answered together with the new handles or
the error. -/
def copyModulesInto (source : Program) (ids : List ModuleId) (dest : Program) :
    Except InternalError (List ModuleId) × Program :=
  let (result, s) := (CopySource.copyModules ⟨source, false⟩ none ids).run.run { dest }
  (result, s.dest)

/-- A copy of the whole program. -/
def duplicate (p : Program) : Except InternalError Program :=
  let (result, copy) := p.copyModulesInto p.modules.handles {}
  result.map fun _ => copy

/-- Copies a module within its program under a new name; references out of it are kept. -/
def specialiseModule (p : Program) (id : ModuleId) (newName : String) :
    Except InternalError ModuleId × Program :=
  let (result, s) := (CopySource.copyModules ⟨p, true⟩ (some newName) [id]).run.run { dest := p }
  match result with
  | .ok (new :: _) => (.ok new, s.dest)
  | .ok [] => (.error ⟨"module clone produced no module"⟩, s.dest)
  | .error e => (.error e, s.dest)

end Program

end SignalGraph

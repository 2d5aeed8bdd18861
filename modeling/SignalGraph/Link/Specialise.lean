import SignalGraph.Link.Fault
import SignalGraph.Program.Copy
import SignalGraph.Program.Edit
import SignalGraph.Settings.Basic

/-!
# SignalGraph.Link.Specialise

Specialisation: every node that supplies arguments gets a copy of its module in which the
parameters are constants with those values.

1. nodes with the same module and the same values share a copy;
2. copies are visited in turn, so nodes inside a copied graph are specialised as well;
3. there are no more copies than the settings allow, so this ends.
-/

namespace SignalGraph.Link

/-- What decides which copy a node gets: the module and the bound values. -/
structure SpecialisationKey where
  source : ModuleId
  values : List Value
deriving DecidableEq, Repr

/-- The copies made so far. -/
abbrev Specialisations := List (SpecialisationKey × ModuleId)

/-- The value that a parameter gets from an argument, converted to its type. -/
def boundValue (p : Program) (span : Span) (param : VariableId) (arg : ConstantId) :
    Except Diagnostic Value :=
  let v := p.variableAt param
  let value := p.constantAt arg
  if v.ty.canSilentlyCast value.ty then .ok ((value.castTo? v.ty).getD value)
  else
    .error ((Fault.argumentType v.name (p.describe v.ty) (p.describe value.ty)).diagnose span)

/-- The module that a node with arguments specialises, and the values of its parameters. -/
def specialisationKey (p : Program) (n : Node) : Except Diagnostic SpecialisationKey := do
  match p.findModule? n.source with
  | none => throw ((Fault.noProcessor n.source).diagnose n.span)
  | some source =>
    let params := (p.moduleAt source).parameters
    if params.length ≠ n.args.length then
      let fault : Fault := .argumentCount (p.moduleAt source).name params.length n.args.length
      throw (fault.diagnose n.span)
    let values ← (params.zip n.args).mapM fun (param, arg) => boundValue p n.span param arg
    return ⟨source, values⟩

/-- The first name for a copy that no module has. -/
def specialisedName (p : Program) (base : String) : String :=
  let candidate (n : Nat) : String := base ++ "_specialised_" ++ toString n
  ((List.range (p.modules.size + 1)).map fun n => candidate (n + 1)).find?
    (fun name => (p.findModule? name).isNone) |>.getD (base ++ "_specialised_")

/-- Turns the parameters of a module into constant state in front of its other state. -/
def bindParameters (id : ModuleId) (values : List Value) : Edit Unit := do
  let params := ((← Edit.program).moduleAt id).parameters
  (params.zip values).forM fun (param, value) => do
    let constant ← modifyGet (·.intern value)
    modify (·.modifyVariable param fun v => { v with role := .constant, initial := some constant })
  Edit.modifyModule id fun m => { m with parameters := [], state := params ++ m.state }

/-- Makes the copy for a key. -/
def specialisedCopy (key : SpecialisationKey) : Edit ModuleId := do
  let p ← Edit.program
  let name := specialisedName p (p.moduleAt key.source).name
  let copy ← Edit.internal (·.specialiseModule key.source name)
  bindParameters copy key.values
  return copy

/-- The copy that a node gets: an old one with the same key, else a new one. -/
def copyFor (settings : Settings) (n : Node) (made : Specialisations) :
    Edit (ModuleId × Specialisations) := do
  match specialisationKey (← Edit.program) n with
  | .error d => throw d
  | .ok key =>
    match made.lookup key with
    | some copy => return (copy, made)
    | none =>
      if settings.maxSpecialisations ≤ made.length then
        throw ((Fault.tooManySpecialisations settings.maxSpecialisations).diagnose n.span)
      let copy ← specialisedCopy key
      return (copy, (key, copy) :: made)

/-- Points the given nodes of a graph to their copies. -/
def specialiseNodes (settings : Settings) (graph : ModuleId) :
    List NodeId → Specialisations → Edit Specialisations
  | [], made => return made
  | id :: ids, made => do
    let n := ((← Edit.program).moduleAt graph).nodes.get id
    let (copy, made) ← copyFor settings n made
    let source := ((← Edit.program).moduleAt copy).name
    Edit.modifyModule graph fun m =>
      { m with nodes := m.nodes.modify id fun n => { n with source, args := [] } }
    specialiseNodes settings graph ids made

/-- Specialises the modules from a position on, copies included.  The first number bounds the
modules visited. -/
def specialiseFrom (settings : Settings) : Nat → ModuleId → Specialisations → Edit Unit
  | 0, _, _ => return
  | n + 1, id, made => do
    match (← Edit.program).modules.get? id with
    | none => return
    | some m =>
      let pending :=
        if m.isGraph then (m.nodes.entries.filter (!·.2.args.isEmpty)).map (·.1) else []
      let made ← specialiseNodes settings id pending made
      specialiseFrom settings n ⟨id.idx + 1⟩ made

/-- Specialises every node that supplies arguments. -/
def specialiseInstances (settings : Settings) : Edit Unit := do
  specialiseFrom settings ((← Edit.program).modules.size + settings.maxSpecialisations) ⟨0⟩ []

end SignalGraph.Link

import SignalGraph.Program.Basic

/-!
# SignalGraph.Program.Edit

Edits of a program that may fail.  A failing edit keeps the changes made before the failure.
-/

namespace SignalGraph

abbrev Edit := ExceptT Diagnostic (StateM Program)

namespace Edit

variable {α : Type}

def program : Edit Program := get

def modifyModule (id : ModuleId) (f : Module → Module) : Edit Unit :=
  modify fun p => p.modifyModule id f

/-- The value that is there, or the failure. -/
def require (d : Diagnostic) : Option α → Edit α
  | some a => return a
  | none => throw d

/-- Runs an operation of programs that may meet an internal error. -/
def internal (f : Program → Except InternalError α × Program) : Edit α := do
  match ← modifyGet f with
  | .ok a => return a
  | .error e => throw e.toDiagnostic

/-- The outcome of an edit and the program it leaves. -/
def apply (e : Edit α) (p : Program) : Except Diagnostic α × Program := e.run.run p

end Edit

end SignalGraph

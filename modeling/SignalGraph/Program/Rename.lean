import SignalGraph.Program.Statement

/-!
# SignalGraph.Program.Rename

Replacing every handle and type in a function body.  A `Renamer` says what happens to each kind
of reference; references are visited in the order in which they are written down, so a renamer
with effects sees them in that order.
-/

namespace SignalGraph

/-- What happens to each kind of reference. -/
structure Renamer (m : Type → Type) where
  onVariable : VariableId → m VariableId
  onConstant : ConstantId → m ConstantId
  onFunction : FunctionId → m FunctionId
  onTy : Ty → m Ty
  onBlock : BlockId → m BlockId

variable {m : Type → Type} [Monad m]

mutual

def Expr.rename (r : Renamer m) : Expr → m Expr
  | .var v => return .var (← r.onVariable v)
  | .const c => return .const (← r.onConstant c)
  | .element e i => return .element (← e.rename r) i
  | .elementAt e i => return .elementAt (← e.rename r) (← i.rename r)
  | .member e name => return .member (← e.rename r) name
  | .slice e start stop => return .slice (← e.rename r) start stop
  | .cast t e => return .cast (← r.onTy t) (← e.rename r)
  | .unary op e => return .unary op (← e.rename r)
  | .binary op l rhs => return .binary op (← l.rename r) (← rhs.rename r)
  | .pureCall f args => return .pureCall (← r.onFunction f) (← renameList r args)
  | .property p => return .property p

def Expr.renameList (r : Renamer m) : List Expr → m (List Expr)
  | [] => pure []
  | e :: es => return (← e.rename r) :: (← renameList r es)

end

def Expr.renameOption (r : Renamer m) : Option Expr → m (Option Expr)
  | none => pure none
  | some e => return some (← e.rename r)

def Statement.rename (r : Renamer m) : Statement → m Statement
  | .assign t v => return .assign (← t.rename r) (← v.rename r)
  | .call t f args =>
    return .call (← Expr.renameOption r t) (← r.onFunction f) (← Expr.renameList r args)
  | .read t endpoint => return .read (← t.rename r) endpoint
  | .write endpoint e v => return .write endpoint (← Expr.renameOption r e) (← v.rename r)
  | .advance => return .advance

def Terminator.rename (r : Renamer m) : Terminator → m Terminator
  | .branch b args => return .branch (← r.onBlock b) (← Expr.renameList r args)
  | .branchIf c t ts f fs => do
    let c ← c.rename r
    let t ← r.onBlock t
    let f ← r.onBlock f
    return .branchIf c t (← Expr.renameList r ts) f (← Expr.renameList r fs)
  | .returnVoid => return .returnVoid
  | .returnValue v => return .returnValue (← v.rename r)

end SignalGraph

import SignalGraph.Program.Expr

/-!
# SignalGraph.Program.Statement

Statements, and the terminators that end a block.
-/

namespace SignalGraph

inductive Statement where
  | assign (target value : Expr)
  | call (target : Option Expr) (function : FunctionId) (args : List Expr)
  /-- Reads the current value of an input of the processor. -/
  | read (target : Expr) (endpoint : String)
  /-- Writes to an output of the processor, or to one element of an output array. -/
  | write (endpoint : String) (element : Option Expr) (value : Expr)
  /-- Moves the processor's clock on by one frame. -/
  | advance
deriving Repr, Inhabited

namespace Statement

/-- The outermost expressions, in the order in which they are written down. -/
def exprs : Statement → List Expr
  | assign t v => [t, v]
  | call t _ args => t.toList ++ args
  | read t _ => [t]
  | write _ e v => e.toList ++ [v]
  | advance => []

/-- The expressions and all their parts, parents first. -/
def allExprs (s : Statement) : List Expr := Expr.partsList s.exprs

/-- The functions called by the statement itself and by its expressions. -/
def callees (s : Statement) : List FunctionId :=
  let direct := match s with
    | call _ f _ => [f]
    | _ => []
  direct ++ s.allExprs.filterMap Expr.callee?

/-- What the statement stores into. -/
def target? : Statement → Option Expr
  | assign t _ | read t _ => some t
  | call t _ _ => t
  | _ => none

def isAdvance : Statement → Bool
  | advance => true
  | _ => false

end Statement

/-- How control leaves a block. -/
inductive Terminator where
  | branch (target : BlockId) (args : List Expr)
  | branchIf (condition : Expr) (ifTrue : BlockId) (trueArgs : List Expr)
      (ifFalse : BlockId) (falseArgs : List Expr)
  | returnVoid
  | returnValue (value : Expr)
deriving Repr

namespace Terminator

instance : Inhabited Terminator := ⟨returnVoid⟩

/-- The blocks to which control may go. -/
def successors : Terminator → List BlockId
  | branch t _ => [t]
  | branchIf _ t _ f _ => [t, f]
  | _ => []

def isReturn : Terminator → Bool
  | returnVoid | returnValue _ => true
  | _ => false

def exprs : Terminator → List Expr
  | branch _ args => args
  | branchIf c _ ts _ fs => c :: (ts ++ fs)
  | returnVoid => []
  | returnValue v => [v]

/-- The expressions and all their parts, parents first. -/
def allExprs (t : Terminator) : List Expr := Expr.partsList t.exprs

def callees (t : Terminator) : List FunctionId := t.allExprs.filterMap Expr.callee?

end Terminator

end SignalGraph

import SignalGraph.Program.Basic

/-!
# SignalGraph.Program.Typing

The types of expressions.  Typing never fails: a selection that makes no sense has type `void`.
-/

namespace SignalGraph.Program

/-- The type of an element of a value. -/
def elementType (t : Ty) : Ty := t.unqualified.elementType?.getD .void

/-- The type of a member of a struct value. -/
def memberType (p : Program) (t : Ty) (name : String) : Ty :=
  match t.unqualified with
  | .struct id => (((p.structAt id).member? name).map (·.ty)).getD .void
  | _ => .void

/-- The type of the elements from `start` to `stop` of a vector or array. -/
def sliceType (t : Ty) (start stop : Nat) : Ty :=
  match t.unqualified with
  | .vector e _ => .vector e (stop - start)
  | .array e _ => .array e (some (stop - start))
  | _ => .void

def exprType (p : Program) : Expr → Ty
  | .var v => (p.variableAt v).ty
  | .const c => (p.constantAt c).ty
  | .element e _ => elementType (p.exprType e)
  | .elementAt e _ => elementType (p.exprType e)
  | .member e name => p.memberType (p.exprType e) name
  | .slice e start stop => sliceType (p.exprType e) start stop
  | .cast t _ => t
  | .unary .logicalNot _ => .bool
  | .unary _ e => (p.exprType e).unqualified
  | .binary op l _ => if op.yieldsBool then .bool else (p.exprType l).unqualified
  | .pureCall f _ => (p.functionAt f).returns
  | .property .id => .int32
  | .property _ => .float64

end SignalGraph.Program

import SignalGraph.Ty.Basic

/-!
# SignalGraph.Program.Expr

Expressions.  They have no effects; calls with effects are statements.
-/

namespace SignalGraph

inductive UnaryOp where
  | negate | bitwiseNot | logicalNot
deriving DecidableEq, Repr

namespace UnaryOp

def all : List UnaryOp := [negate, bitwiseNot, logicalNot]

def name : UnaryOp → String
  | negate => "negate"
  | bitwiseNot => "bitwise_not"
  | logicalNot => "logical_not"

def ofName? (s : String) : Option UnaryOp := all.find? (·.name == s)

end UnaryOp

inductive BinaryOp where
  | add | subtract | multiply | divide | modulo
  | bitwiseOr | bitwiseAnd | bitwiseXor | leftShift | rightShift | rightShiftUnsigned
  | logicalOr | logicalAnd
  | equals | notEquals | lessThan | lessThanOrEqual | greaterThan | greaterThanOrEqual
deriving DecidableEq, Repr

namespace BinaryOp

def all : List BinaryOp :=
  [add, subtract, multiply, divide, modulo, bitwiseOr, bitwiseAnd, bitwiseXor, leftShift,
    rightShift, rightShiftUnsigned, logicalOr, logicalAnd, equals, notEquals, lessThan,
    lessThanOrEqual, greaterThan, greaterThanOrEqual]

def name : BinaryOp → String
  | add => "add"
  | subtract => "subtract"
  | multiply => "multiply"
  | divide => "divide"
  | modulo => "modulo"
  | bitwiseOr => "bitwise_or"
  | bitwiseAnd => "bitwise_and"
  | bitwiseXor => "bitwise_xor"
  | leftShift => "left_shift"
  | rightShift => "right_shift"
  | rightShiftUnsigned => "right_shift_unsigned"
  | logicalOr => "logical_or"
  | logicalAnd => "logical_and"
  | equals => "equals"
  | notEquals => "not_equals"
  | lessThan => "less_than"
  | lessThanOrEqual => "less_than_or_equal"
  | greaterThan => "greater_than"
  | greaterThanOrEqual => "greater_than_or_equal"

def ofName? (s : String) : Option BinaryOp := all.find? (·.name == s)

/-- Whether the result is a truth value whatever the operands are. -/
def yieldsBool : BinaryOp → Bool
  | logicalOr | logicalAnd | equals | notEquals | lessThan | lessThanOrEqual | greaterThan
  | greaterThanOrEqual => true
  | _ => false

end BinaryOp

/-- What a processor can ask about itself. -/
inductive Property where
  | period | frequency | id
deriving DecidableEq, Repr

namespace Property

def all : List Property := [period, frequency, id]

def name : Property → String
  | period => "period"
  | frequency => "frequency"
  | id => "id"

def ofName? (s : String) : Option Property := all.find? (·.name == s)

end Property

inductive Expr where
  | var (id : VariableId)
  | const (id : ConstantId)
  /-- The element at a fixed position. -/
  | element (parent : Expr) (index : Nat)
  /-- The element at a computed position. -/
  | elementAt (parent index : Expr)
  | member (parent : Expr) (name : String)
  /-- The elements from `start` up to but not including `stop`. -/
  | slice (parent : Expr) (start stop : Nat)
  | cast (ty : Ty) (source : Expr)
  | unary (op : UnaryOp) (source : Expr)
  | binary (op : BinaryOp) (lhs rhs : Expr)
  | pureCall (function : FunctionId) (args : List Expr)
  | property (p : Property)
deriving Repr, Inhabited

namespace Expr

mutual

/-- The expression and all its parts, parents before their parts, parts from left to right. -/
def parts : Expr → List Expr
  | e@(var _) | e@(const _) | e@(property _) => [e]
  | e@(element p _) | e@(member p _) | e@(slice p _ _) => e :: p.parts
  | e@(elementAt p i) => e :: (p.parts ++ i.parts)
  | e@(cast _ s) | e@(unary _ s) => e :: s.parts
  | e@(binary _ l r) => e :: (l.parts ++ r.parts)
  | e@(pureCall _ args) => e :: partsList args

def partsList : List Expr → List Expr
  | [] => []
  | e :: es => e.parts ++ partsList es

end

/-- The function that an expression calls itself, not through its parts. -/
def callee? : Expr → Option FunctionId
  | pureCall f _ => some f
  | _ => none

/-- The variable that an expression selects from, if it is a chain of selections. -/
def rootVariable? : Expr → Option VariableId
  | var v => some v
  | element p _ | elementAt p _ | member p _ | slice p _ _ => p.rootVariable?
  | _ => none

end Expr

end SignalGraph

import SignalGraph.Link.CallGraph
import SignalGraph.Proofs.Handle

/-!
# SignalGraph.Proofs.Link.Calls

What it means that a function calls another: a call statement names it, or a pure call does, at any
depth of any expression of a statement or a terminator.  The collected calls are exactly these
(`Program.mem_callees_iff`).
-/

namespace SignalGraph

/-! ## The relation -/

/-- The expression calls `g`, itself or in one of its parts. -/
inductive Expr.Calls (g : FunctionId) : Expr → Prop
  | self (args : List Expr) : Calls g (.pureCall g args)
  | inArgument {f : FunctionId} {args : List Expr} {e : Expr} (he : e ∈ args) (h : Calls g e) :
    Calls g (.pureCall f args)
  | inElement {e : Expr} {i : Nat} (h : Calls g e) : Calls g (.element e i)
  | inElementAt {e i : Expr} (h : Calls g e) : Calls g (.elementAt e i)
  | inIndex {e i : Expr} (h : Calls g i) : Calls g (.elementAt e i)
  | inMember {e : Expr} {name : String} (h : Calls g e) : Calls g (.member e name)
  | inSlice {e : Expr} {start stop : Nat} (h : Calls g e) : Calls g (.slice e start stop)
  | inCast {ty : Ty} {e : Expr} (h : Calls g e) : Calls g (.cast ty e)
  | inOperand {op : UnaryOp} {e : Expr} (h : Calls g e) : Calls g (.unary op e)
  | inLeft {op : BinaryOp} {l r : Expr} (h : Calls g l) : Calls g (.binary op l r)
  | inRight {op : BinaryOp} {l r : Expr} (h : Calls g r) : Calls g (.binary op l r)

/-- The statement calls `g`, itself or in one of its expressions. -/
inductive Statement.Calls (g : FunctionId) : Statement → Prop
  | self (target : Option Expr) (args : List Expr) : Calls g (.call target g args)
  | inResult {t : Expr} {f : FunctionId} {args : List Expr} (h : t.Calls g) :
    Calls g (.call (some t) f args)
  | inArgument {t : Option Expr} {f : FunctionId} {args : List Expr} {e : Expr} (he : e ∈ args)
    (h : e.Calls g) : Calls g (.call t f args)
  | inTarget {t v : Expr} (h : t.Calls g) : Calls g (.assign t v)
  | inValue {t v : Expr} (h : v.Calls g) : Calls g (.assign t v)
  | inReader {t : Expr} {name : String} (h : t.Calls g) : Calls g (.read t name)
  | inElement {name : String} {e v : Expr} (h : e.Calls g) : Calls g (.write name (some e) v)
  | inWritten {name : String} {e : Option Expr} {v : Expr} (h : v.Calls g) :
      Calls g (.write name e v)

/-- The terminator calls `g` in one of its expressions. -/
inductive Terminator.Calls (g : FunctionId) : Terminator → Prop
  | inArgument {b : BlockId} {args : List Expr} {e : Expr} (he : e ∈ args) (h : e.Calls g) :
    Calls g (.branch b args)
  | inCondition {c : Expr} {b b' : BlockId} {args args' : List Expr} (h : c.Calls g) :
    Calls g (.branchIf c b args b' args')
  | inTrueArgument {c : Expr} {b b' : BlockId} {args args' : List Expr} {e : Expr} (he : e ∈ args)
    (h : e.Calls g) : Calls g (.branchIf c b args b' args')
  | inFalseArgument {c : Expr} {b b' : BlockId} {args args' : List Expr} {e : Expr} (he : e ∈ args')
    (h : e.Calls g) : Calls g (.branchIf c b args b' args')
  | inResult {v : Expr} (h : v.Calls g) : Calls g (.returnValue v)

/-- Some statement or terminator of the body calls `g`. -/
def Function.Calls (f : Function) (g : FunctionId) : Prop :=
  ∃ b ∈ f.blocks.toList, (∃ s ∈ b.statements, s.Calls g) ∨ b.terminator.Calls g

/-- The first function calls the second. -/
def Program.Calls (p : Program) (f g : FunctionId) : Prop :=
  ∃ fn, p.functions.get? f = some fn ∧ fn.Calls g

/-! ## The collected calls -/

section

variable {g : FunctionId}

namespace Expr

/-- A part of some expressions is a part of one of them. -/
theorem mem_partsList_iff {e : Expr} {es : List Expr} :
    e ∈ partsList es ↔ ∃ d ∈ es, e ∈ d.parts := by
  induction es with
  | nil => simp [partsList]
  | cons d es ih => simp [partsList, ih]

/-- A function is called in some expressions if it is called in one of them. -/
theorem mem_filterMap_partsList_iff {es : List Expr} :
    g ∈ (partsList es).filterMap callee? ↔ ∃ e ∈ es, g ∈ e.parts.filterMap callee? := by
  simp only [List.mem_filterMap, mem_partsList_iff]
  constructor
  · rintro ⟨e, ⟨d, hd, he⟩, hg⟩
    exact ⟨d, hd, e, he, hg⟩
  · rintro ⟨d, hd, e, he, hg⟩
    exact ⟨e, ⟨d, hd, he⟩, hg⟩

/-- The calls among the parts of an expression are all of its calls. -/
theorem calls_iff : (e : Expr) → (e.Calls g ↔ g ∈ e.parts.filterMap callee?)
  | .var _ | .const _ | .property _ => ⟨nofun, nofun⟩
  | .element e _ => by
      rw [parts, List.filterMap_cons_none rfl, ← calls_iff e]
      exact ⟨fun | .inElement h => h, .inElement⟩
  | .elementAt e i => by
      rw [parts, List.filterMap_cons_none rfl, List.filterMap_append, List.mem_append,
        ← calls_iff e, ← calls_iff i]
      exact ⟨fun | .inElementAt h => .inl h | .inIndex h => .inr h, Or.rec .inElementAt .inIndex⟩
  | .member e _ => by
      rw [parts, List.filterMap_cons_none rfl, ← calls_iff e]
      exact ⟨fun | .inMember h => h, .inMember⟩
  | .slice e _ _ => by
      rw [parts, List.filterMap_cons_none rfl, ← calls_iff e]
      exact ⟨fun | .inSlice h => h, .inSlice⟩
  | .cast _ e => by
      rw [parts, List.filterMap_cons_none rfl, ← calls_iff e]
      exact ⟨fun | .inCast h => h, .inCast⟩
  | .unary _ e => by
      rw [parts, List.filterMap_cons_none rfl, ← calls_iff e]
      exact ⟨fun | .inOperand h => h, .inOperand⟩
  | .binary _ l r => by
      rw [parts, List.filterMap_cons_none rfl, List.filterMap_append, List.mem_append,
        ← calls_iff l, ← calls_iff r]
      exact ⟨fun | .inLeft h => .inl h | .inRight h => .inr h, Or.rec .inLeft .inRight⟩
  | .pureCall f args => by
      have hargs : (∃ e ∈ args, e.Calls g) ↔ ∃ e ∈ args, g ∈ e.parts.filterMap callee? :=
        exists_congr fun e => and_congr_right fun he => calls_iff e
      have hself : (pureCall f args).callee? = some f := rfl
      rw [parts, List.filterMap_cons_some hself, List.mem_cons, mem_filterMap_partsList_iff,
        ← hargs]
      constructor
      · rintro (_ | ⟨he, h⟩)
        · exact .inl rfl
        · exact .inr ⟨_, he, h⟩
      · rintro (rfl | ⟨e, he, h⟩)
        · exact .self args
        · exact .inArgument he h

/-- The calls that the relation allows are those that are collected, for lists of expressions. -/
theorem exists_calls_iff {es : List Expr} :
    (∃ e ∈ es, e.Calls g) ↔ g ∈ (partsList es).filterMap callee? := by
  simp only [mem_filterMap_partsList_iff, calls_iff]

end Expr

/-- A statement calls functions by itself or in its expressions. -/
theorem Statement.mem_callees_iff {s : Statement} :
    g ∈ s.callees ↔ (∃ target args, s = .call target g args) ∨ ∃ e ∈ s.exprs, e.Calls g := by
  rw [Expr.exists_calls_iff]
  cases s <;> simp [callees, allExprs, eq_comm]

/-- The calls of a statement are those that are collected. -/
theorem Statement.calls_iff {s : Statement} : s.Calls g ↔ g ∈ s.callees := by
  rw [mem_callees_iff]
  cases s with
  | assign t v =>
      constructor
      · rintro (_ | _ | _ | h | h)
        · exact .inr ⟨t, by simp [exprs], h⟩
        · exact .inr ⟨v, by simp [exprs], h⟩
      · rintro (⟨_, _, h⟩ | ⟨e, he, h⟩)
        · cases h
        · rcases List.mem_cons.mp he with rfl | he
          · exact .inTarget h
          · obtain rfl := List.mem_singleton.mp he
            exact .inValue h
  | call t f args =>
      constructor
      · rintro (_ | h | ⟨he, h⟩)
        · exact .inl ⟨t, args, rfl⟩
        · exact .inr ⟨_, by simp [exprs], h⟩
        · exact .inr ⟨_, List.mem_append_right _ he, h⟩
      · rintro (⟨_, _, h⟩ | ⟨e, he, h⟩)
        · cases h
          exact .self t args
        · rcases List.mem_append.mp he with he | he
          · obtain rfl := Option.mem_toList.mp he
            exact .inResult h
          · exact .inArgument he h
  | read t name =>
      constructor
      · rintro (_ | _ | _ | _ | _ | h)
        exact .inr ⟨t, by simp [exprs], h⟩
      · rintro (⟨_, _, h⟩ | ⟨e, he, h⟩)
        · cases h
        · obtain rfl := List.mem_singleton.mp he
          exact .inReader h
  | write name i v =>
      constructor
      · rintro (_ | _ | _ | _ | _ | _ | h | h)
        · exact .inr ⟨_, by simp [exprs], h⟩
        · exact .inr ⟨v, by simp [exprs], h⟩
      · rintro (⟨_, _, h⟩ | ⟨e, he, h⟩)
        · cases h
        · rcases List.mem_append.mp he with he | he
          · obtain rfl := Option.mem_toList.mp he
            exact .inElement h
          · obtain rfl := List.mem_singleton.mp he
            exact .inWritten h
  | advance => exact ⟨nofun, by simp [exprs]⟩

/-- The calls of a terminator are those that are collected. -/
theorem Terminator.calls_iff {t : Terminator} : t.Calls g ↔ g ∈ t.callees := by
  rw [callees, allExprs, ← Expr.exists_calls_iff]
  cases t with
  | branch b args =>
      exact ⟨fun | .inArgument he h => ⟨_, he, h⟩, fun ⟨e, he, h⟩ => .inArgument he h⟩
  | branchIf c b args b' args' =>
      constructor
      · rintro (_ | h | ⟨he, h⟩ | ⟨he, h⟩)
        · exact ⟨c, by simp [exprs], h⟩
        · exact ⟨_, by simp [exprs, he], h⟩
        · exact ⟨_, by simp [exprs, he], h⟩
      · rintro ⟨e, he, h⟩
        rcases List.mem_cons.mp he with rfl | he
        · exact .inCondition h
        · rcases List.mem_append.mp he with he | he
          · exact .inTrueArgument he h
          · exact .inFalseArgument he h
  | returnVoid => exact ⟨nofun, by simp [exprs]⟩
  | returnValue v => exact ⟨fun | .inResult h => ⟨v, by simp [exprs], h⟩, by
      rintro ⟨e, he, h⟩
      obtain rfl := List.mem_singleton.mp he
      exact .inResult h⟩

/-- The calls of a function are those that are collected from its blocks. -/
theorem Function.calls_iff {f : Function} : f.Calls g ↔ g ∈ f.callees := by
  simp only [Calls, callees, Block.callees, List.mem_flatMap, List.mem_append, Statement.calls_iff,
    Terminator.calls_iff]

/-- The collected calls of a function are all functions that it calls. -/
theorem Program.mem_callees_iff {p : Program} {f : FunctionId} : g ∈ p.callees f ↔ p.Calls f g := by
  unfold callees Calls
  cases p.functions.get? f with
  | none => simp
  | some fn => simp [Function.distinctCallees, Function.calls_iff]

end

end SignalGraph

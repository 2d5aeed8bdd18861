import Mathlib.Logic.Relation
import SignalGraph.Proofs.Heart.Declaring

/-!
# SignalGraph.Proofs.Heart.Following

Parsers that change the program in certain ways only (`Follows`).  This is found from the parts of a
parser, for every kind of change that holds the additions which the parser makes: constants and
texts (`AllowsTables`), variables (`AllowsVariables`), the other items of a module (`AllowsItems`)
and what a function body fills in (`AllowsBody`).
-/

namespace SignalGraph

/-! ## Kinds of changes -/

namespace Program

/-- Constants and texts may be added. -/
class AllowsTables (R : Program → Program → Prop) : Prop where
  intern : ∀ p v, R p (p.intern v).2
  internText : ∀ p s, R p (p.internText s).2

/-- Variables may be added, too. -/
class AllowsVariables (R : Program → Program → Prop) : Prop extends AllowsTables R where
  addVariable : ∀ p v, R p (p.addVariable v).2

/-- Modules may be changed in what they list besides structs and functions, but not in their
annotations, and structs may be changed but for their names. -/
class AllowsItems (R : Program → Program → Prop) : Prop extends AllowsVariables R where
  modifyModule : ∀ (p : Program) m {g : Module → Module}, (∀ k, (g k).structs = k.structs) →
    (∀ k, (g k).functions = k.functions) → (∀ k, (g k).annotations = k.annotations) →
    R p (p.modifyModule m g)
  modifyStruct : ∀ (p : Program) id {g : Structure → Structure}, (∀ x, (g x).name = x.name) →
    R p { p with structs := p.structs.modify id g }

/-- A function may get local variables and blocks, and its blocks may be changed but for their
names. -/
class AllowsBody (f : FunctionId) (R : Program → Program → Prop) : Prop
    extends AllowsVariables R where
  modifySpan : ∀ (p : Program) v span, R p (p.modifyVariable v fun x => { x with span })
  addLocal : ∀ (p : Program) v,
    R p (p.modifyFunction f fun fn => { fn with locals := fn.locals ++ [v] })
  addBlock : ∀ (p : Program) label,
    R p (p.modifyFunction f fun fn => { fn with blocks := fn.blocks.push (.ofName label) })
  modifyBlock : ∀ (p : Program) b {g : Block → Block}, (∀ k, (g k).name = k.name) →
    R p (p.modifyFunction f fun fn => { fn with blocks := fn.blocks.modify b g })

/-- Only constants and texts were added. -/
structure Interns (p q : Program) : Prop where
  rest : q = { p with constants := q.constants, texts := q.texts }
  tables : p.TablesGrow q

instance : IsPreorder Program Interns where
  refl p := ⟨rfl, .refl p⟩
  trans _ _ _ h h' := ⟨by rw [h'.rest, h.rest], h.tables.trans h'.tables⟩

instance : AllowsTables Interns where
  intern _ _ := ⟨rfl, Interner.prefix_intern _ _, List.prefix_refl _, id⟩
  internText _ _ :=
    ⟨rfl, List.prefix_refl _, Interner.prefix_intern _ _, fun h => Interner.nodup_intern h _⟩

end Program

namespace Heart.Parser

open Program

variable {α β : Type} {R : Program → Program → Prop}

/-! ## Parsers -/

instance : IsPreorder Program (Relation.ReflTransGen R) where
  refl _ := .refl
  trans _ _ _ h h' := h.trans h'

/-- The parser changes the program in steps along `R`.  This is found from the parts of a parser. -/
class Follows (R : Program → Program → Prop) (x : Parser α) : Prop where
  steps : ∀ p, Along (Relation.ReflTransGen R) x p fun _ _ => True

section

variable {x y : Parser α} {f : α → Parser β} {p : Program}

/-- If `R` is a preorder, its steps come to one. -/
theorem Follows.along [IsPreorder Program R] (hx : Follows R x) (p : Program) :
    Along R x p fun _ _ => True := by
  refine (hx.steps p).mono fun _ q hq => ⟨?_, trivial⟩
  induction hq.1 with
  | refl => exact refl p
  | tail _ hlast ih => exact IsTrans.trans _ _ _ (ih ⟨‹_›, trivial⟩) hlast

/-- A change of the program is followed if it is made of steps along `R`. -/
theorem follows_modifyProgram {g : Program → Program}
    (hg : ∀ q : Program, Relation.ReflTransGen R q (g q)) : Follows R (modifyProgram g) :=
  ⟨fun p => along_modifyProgram (hg p) trivial⟩

/-- What is added is followed if adding it is made of steps along `R`. -/
theorem follows_add {g : Program → α × Program}
    (hg : ∀ q : Program, Relation.ReflTransGen R q (g q).2) : Follows R (add g) :=
  ⟨fun p => along_add (hg p) trivial⟩

instance {b : Prop} [Decidable b] [hx : Follows R x] [hy : Follows R y] :
    Follows R (if b then x else y) := ⟨fun p => along_ite (hx.steps p) (hy.steps p)⟩

instance (priority := low) [hx : Still x] : Follows R x :=
  ⟨fun p => still_gives fun _ => ⟨refl p, trivial⟩⟩

/-- Steps of the first parser come before those of what follows it. -/
theorem follows_bind (hx : Follows R x) (hf : ∀ a, Follows R (f a)) : Follows R (x >>= f) :=
  ⟨fun p => (hx.steps p).bind fun a q _ _ => (hf a).steps q⟩

instance [hx : Follows R x] [hf : ∀ a, Follows R (f a)] : Follows R (x >>= f) := follows_bind hx hf

instance (close : TokenKind) {item : Parser Unit} [hitem : Follows R item] :
    Follows R (untilClosed close item) := ⟨fun _ => along_untilClosed fun q _ => hitem.steps q⟩

instance (close : TokenKind) [hx : Follows R x] : Follows R (commaList close x) :=
  ⟨fun _ => (along_commaList (fun _ _ _ _ h => h) fun q _ => hx.steps q).mono
    fun _ _ hq => ⟨hq.1, trivial⟩⟩

instance [hf : ∀ a, Follows R (f a)] (l : List α) : Follows R (l.mapM f) :=
  ⟨fun _ => (along_mapM (fun _ _ _ _ h => h) fun a _ q _ => (hf a).steps q).mono
    fun _ _ hq => ⟨hq.1, trivial⟩⟩

end

section

variable [AllowsTables R]

instance (v : Value) : Follows R (add (·.intern v)) :=
  follows_add fun p => .single (AllowsTables.intern p v)

instance (s : String) : Follows R (add (·.internText s)) :=
  follows_add fun p => .single (AllowsTables.internText p s)

/-! ## Types, constants and annotations -/

instance : Still plainType := by
  unfold plainType
  refine still_bind inferInstance fun t => ?_
  split
  · infer_instance
  · split
    · infer_instance
    · split
      · infer_instance
      · refine still_bind inferInstance fun path => still_bind inferInstance fun p => ?_
        split <;> infer_instance

instance (n : Nat) (t : Ty) : Still (arraySuffixes n t) := by
  induction n generalizing t with
  | zero => unfold arraySuffixes; infer_instance
  | succ n ih => unfold arraySuffixes; infer_instance

instance : Still type := by unfold type; infer_instance

instance {element : Parser Value} [Follows R element] : Follows R (constantWith element) := by
  unfold constantWith
  refine follows_bind inferInstance fun t => ?_
  split
  · split <;> infer_instance
  · infer_instance
  · infer_instance
  · refine follows_bind inferInstance fun called => ?_
    extract_lets named
    clear_value named
    split <;> infer_instance
  · infer_instance

instance (n : Nat) : Follows R (constantTo n) := by
  induction n with
  | zero => unfold constantTo; infer_instance
  | succ n ih => unfold constantTo; infer_instance

instance : Follows R constant := by unfold constant; infer_instance

instance : Follows R internedConstant := by unfold internedConstant; infer_instance

instance : Follows R property := by
  unfold property
  refine follows_bind inferInstance fun t => ?_
  extract_lets key jp
  have hjp : ∀ r, Follows R (jp r) := by
    intro r
    unfold jp
    infer_instance
  clear_value jp
  infer_instance

instance : Follows R annotations := by
  unfold annotations
  exact follows_bind inferInstance fun _ => follows_bind inferInstance fun _ => inferInstance

/-! ## Expressions -/

section

variable {expr : Parser Expr} [Follows R expr] (scope : Scope)

instance : Still functionRef := by
  unfold functionRef
  refine still_bind inferInstance fun t => still_bind inferInstance fun path => ?_
  refine still_bind inferInstance fun p => ?_
  split <;> infer_instance

instance : Follows R (arguments expr) := by unfold arguments; infer_instance

instance : Still (localVariable scope) := by
  unfold localVariable
  refine still_bind inferInstance fun t => ?_
  split <;> infer_instance

instance : Follows R (castExpr expr) := by unfold castExpr; infer_instance

instance : Follows R (pureCall expr) := by unfold pureCall; infer_instance

instance : Still processorProperty := by
  unfold processorProperty
  refine still_bind inferInstance fun _ => still_bind inferInstance fun _ => ?_
  refine still_bind inferInstance fun t => still_bind inferInstance fun name => ?_
  split <;> infer_instance

instance (op : UnaryOp) : Follows R (unaryExpr expr op) := by unfold unaryExpr; infer_instance

instance (op : BinaryOp) : Follows R (binaryExpr expr op) := by unfold binaryExpr; infer_instance

instance : Follows R pathOrConstant := by
  unfold pathOrConstant
  refine follows_bind inferInstance fun here => follows_bind inferInstance fun qualified => ?_
  extract_lets jp
  have hjp : ∀ found, Follows R (jp found) := by
    intro found
    unfold jp
    split <;> infer_instance
  clear_value jp
  infer_instance

instance : Follows R (wordExpr expr) := by
  unfold wordExpr
  refine follows_bind inferInstance fun t => follows_bind inferInstance fun called => ?_
  split
  · infer_instance
  · split
    · infer_instance
    · refine follows_bind inferInstance fun dotted => ?_
      split
      · infer_instance
      · split <;> infer_instance

instance : Follows R (primaryExpr scope expr) := by
  unfold primaryExpr
  refine follows_bind inferInstance fun t => ?_
  split <;> infer_instance

instance (parent : Expr) : Follows R (indexed expr parent) := by
  unfold indexed
  refine follows_bind inferInstance fun _ => ?_
  extract_lets jp
  have hjp : ∀ e, Follows R (jp e) := by
    intro e
    unfold jp
    infer_instance
  clear_value jp
  refine follows_bind inferInstance fun _ => follows_bind inferInstance fun _ => ?_
  refine follows_bind inferInstance fun _ => follows_bind inferInstance fun _ => ?_
  split
  · infer_instance
  · split <;> infer_instance

instance (n : Nat) (e : Expr) : Follows R (selections expr n e) := by
  induction n generalizing e with
  | zero => unfold selections; infer_instance
  | succ n ih => unfold selections; infer_instance

instance (n : Nat) : Follows R (exprTo scope n) := by
  induction n with
  | zero => unfold exprTo; infer_instance
  | succ n ih => unfold exprTo; infer_instance

instance : Follows R (Parser.expr scope) := by unfold Parser.expr; infer_instance

end

/-! ## Statements -/

section

variable (scope : Scope)

instance : Follows R (call scope) := by unfold call; infer_instance

instance : Follows R (write scope) := by
  unfold write
  refine follows_bind inferInstance fun endpoint => ?_
  extract_lets jp
  have hjp : ∀ element, Follows R (jp element) := by
    intro element
    unfold jp
    infer_instance
  clear_value jp
  infer_instance

instance : Follows R (store scope) := by
  unfold store
  refine follows_bind inferInstance fun _ => follows_bind inferInstance fun target => ?_
  refine follows_bind inferInstance fun _ => follows_bind inferInstance fun read => ?_
  split
  · infer_instance
  · refine follows_bind inferInstance fun called => ?_
    split
    · exact follows_bind inferInstance fun _ => inferInstance
    · infer_instance

instance : Follows R (statement scope) := by unfold statement bareStatement; infer_instance

instance : Still (blockRef scope) := by
  unfold blockRef
  refine still_bind inferInstance fun t => ?_
  split <;> infer_instance

instance : Follows R (branchTarget scope) := by
  unfold branchTarget
  refine follows_bind inferInstance fun b => ?_
  extract_lets jp
  have hjp : ∀ args, Follows R (jp args) := by
    intro args
    unfold jp
    infer_instance
  clear_value jp
  infer_instance

instance : Follows R (terminator scope) := by
  unfold terminator
  refine follows_bind inferInstance fun branch => ?_
  split
  · exact follows_bind inferInstance fun _ => inferInstance
  · refine follows_bind inferInstance fun branchIf => ?_
    split
    · refine follows_bind inferInstance fun c => follows_bind inferInstance fun _ => ?_
      refine follows_bind inferInstance fun x => follows_bind inferInstance fun _ => ?_
      exact follows_bind inferInstance fun _ => inferInstance
    · infer_instance

end

end

/-! ## Bodies -/

instance [AllowsVariables R] (v : Variable) : Follows R (add (·.addVariable v)) :=
  follows_add fun p => .single (AllowsVariables.addVariable p v)

instance [AllowsVariables R] (role : VariableRole) : Follows R (declaredVariable role) := by
  unfold declaredVariable
  infer_instance

section

variable (f : FunctionId) [AllowsBody f R] (scope : Scope)

/-- A block that keeps its name. -/
theorem follows_modifyBlock {b : BlockId} {change : Block → Block}
    (hchange : ∀ k, (change k).name = k.name) : Follows R (modifyBlock f b change) :=
  follows_modifyProgram fun p => .single (AllowsBody.modifyBlock p b hchange)

instance (b : BlockId) (n : Nat) : Follows R (blockBody.go scope f b n) := by
  induction n with
  | zero => unfold blockBody.go; infer_instance
  | succ n ih =>
      unfold blockBody.go
      refine follows_bind inferInstance fun t => ?_
      split
      · exact follows_bind inferInstance fun _ => follows_modifyBlock f fun _ => rfl
      · refine follows_bind inferInstance fun s => ?_
        exact follows_bind (follows_modifyBlock f fun _ => rfl) fun _ => ih

instance : Follows R (block f scope) := by
  unfold block
  refine follows_bind inferInstance fun first => follows_bind inferInstance fun b => ?_
  extract_lets jp
  have hjp : ∀ params, Follows R (jp params) := by
    intro params
    unfold jp
    refine follows_bind (follows_modifyBlock f fun _ => rfl) fun _ => ?_
    refine follows_bind inferInstance fun _ => follows_bind inferInstance fun span => ?_
    refine follows_bind (follows_modifyBlock f fun _ => rfl) fun _ => ?_
    unfold blockBody
    infer_instance
  clear_value jp
  infer_instance

instance (n : Nat) : Follows R (blocks f n scope) := by
  induction n generalizing scope with
  | zero => unfold blocks; infer_instance
  | succ n ih => unfold blocks; infer_instance

instance (labels : List String) : Follows R (addBlocks f labels scope) := by
  induction labels generalizing scope with
  | nil => unfold addBlocks; infer_instance
  | cons label labels ih =>
      unfold addBlocks
      refine follows_bind inferInstance fun p => follows_bind ?_ fun _ => ih _
      exact follows_modifyProgram fun p => .single (AllowsBody.addBlock p label)

instance (n : Nat) : Follows R (locals f n scope) := by
  induction n generalizing scope with
  | zero => unfold locals; infer_instance
  | succ n ih =>
      unfold locals
      refine follows_bind inferInstance fun first => follows_bind inferInstance fun role => ?_
      split
      · infer_instance
      · refine follows_bind inferInstance fun x => follows_bind inferInstance fun _ => ?_
        refine follows_bind inferInstance fun span => follows_bind ?_ fun _ => ih _
        refine follows_modifyProgram fun p => ?_
        exact .tail (.single (AllowsBody.modifySpan f p x.2 span)) (AllowsBody.addLocal _ x.2)

instance : Follows R (functionBody f) := by unfold functionBody declareBlocks; infer_instance

end


/-! ## Items -/

section

variable [AllowsItems R] {m : ModuleId}

theorem follows_modifyModule {g : Module → Module} (hstructs : ∀ k, (g k).structs = k.structs)
    (hfunctions : ∀ k, (g k).functions = k.functions)
    (hannotations : ∀ k, (g k).annotations = k.annotations) :
    Follows R (modifyProgram (·.modifyModule m g)) :=
  follows_modifyProgram fun p =>
    .single (AllowsItems.modifyModule p m hstructs hfunctions hannotations)

instance : Follows R (structItem m) := by
  unfold structItem
  refine follows_bind inferInstance fun _ => follows_bind inferInstance fun t => ?_
  refine follows_bind inferInstance fun name => follows_bind inferInstance fun p => ?_
  split
  · infer_instance
  · rename_i id _
    refine follows_bind inferInstance fun _ => ?_
    suffices Follows R (do
        let first ← current
        let ty ← type
        let name ← identifier
        let _ ← expect .semicolon
        let p ← lift ((← program).addMember id name ty (← spanFrom first))
        modifyProgram fun _ => p) from inferInstance
    refine follows_bind inferInstance fun first => follows_bind inferInstance fun t => ?_
    refine follows_bind inferInstance fun name => follows_bind inferInstance fun _ => ⟨fun p => ?_⟩
    refine along_program (along_then fun span => along_lift fun q hq => ?_)
    refine along_modifyProgram ?_ trivial
    rw [addMember_eq_ok hq]
    exact .single (AllowsItems.modifyStruct p id fun _ => rfl)

instance : Follows R endpointDetails := by
  unfold endpointDetails
  refine follows_bind inferInstance fun size => follows_bind inferInstance fun t => ?_
  split <;> infer_instance

instance : Follows R (endpointItem m) := by
  unfold endpointItem
  refine follows_bind inferInstance fun first => ?_
  extract_lets jp
  have hjp : ∀ direction, Follows R (jp direction) := by
    intro direction
    unfold jp
    refine follows_bind inferInstance fun name => ?_
    extract_lets jp'
    have hjp' : ∀ x, Follows R (jp' x) := by
      intro x
      unfold jp'
      refine follows_bind inferInstance fun exposed => follows_bind inferInstance fun a => ?_
      refine follows_bind inferInstance fun _ => follows_bind inferInstance fun span => ?_
      exact follows_modifyModule (fun _ => rfl) (fun _ => rfl) fun _ => rfl
    clear_value jp'
    infer_instance
  clear_value jp
  infer_instance

instance : Follows R (parameterItem m) := by
  unfold parameterItem
  refine follows_bind inferInstance fun first => follows_bind inferInstance fun _ => ?_
  refine follows_bind inferInstance fun t => follows_bind inferInstance fun name => ?_
  refine follows_bind inferInstance fun _ => follows_bind inferInstance fun span => ?_
  refine follows_bind (follows_add fun p => ?_) inferInstance
  have hadded := AllowsVariables.addVariable (R := R) p { name, ty := t, role := .constant, span }
  exact .tail (.single hadded)
    (AllowsItems.modifyModule _ m (fun _ => rfl) (fun _ => rfl) fun _ => rfl)

instance : Follows R (stateItem m) := by
  unfold stateItem
  refine follows_bind inferInstance fun first => ?_
  extract_lets jp
  have hjp : ∀ role, Follows R (jp role) := by
    intro role
    unfold jp
    refine follows_bind inferInstance fun t => follows_bind inferInstance fun name => ?_
    extract_lets jp'
    have hjp' : ∀ initial, Follows R (jp' initial) := by
      intro initial
      unfold jp'
      refine follows_bind inferInstance fun a => follows_bind inferInstance fun _ => ?_
      refine follows_bind inferInstance fun span => ?_
      refine follows_bind (follows_add fun p => ?_) inferInstance
      have hadded := AllowsVariables.addVariable (R := R) p
        { name, ty := t, role, initial, annotations := a, span }
      exact .tail (.single hadded)
        (AllowsItems.modifyModule _ m (fun _ => rfl) (fun _ => rfl) fun _ => rfl)
    clear_value jp'
    infer_instance
  clear_value jp
  infer_instance

instance : Follows R (nodeItem m) := by
  unfold nodeItem
  refine follows_bind inferInstance fun first => follows_bind inferInstance fun _ => ?_
  refine follows_bind inferInstance fun name => follows_bind inferInstance fun _ => ?_
  refine follows_bind inferInstance fun source => follows_bind inferInstance fun size => ?_
  extract_lets jp
  have hjp : ∀ values, Follows R (jp values) := by
    intro values
    unfold jp
    refine follows_bind inferInstance fun args => follows_bind inferInstance fun clock => ?_
    refine follows_bind inferInstance fun _ => follows_bind inferInstance fun span => ?_
    exact follows_modifyModule (fun _ => rfl) (fun _ => rfl) fun _ => rfl
  clear_value jp
  infer_instance

instance : Still (endpointRef m) := by
  unfold endpointRef
  refine still_bind inferInstance fun t => still_bind inferInstance fun first => ?_
  refine still_bind inferInstance fun dotted => ?_
  split
  · refine still_bind inferInstance fun p => ?_
    split <;> infer_instance
  · infer_instance

instance : Follows R (connectionItem m) := by
  unfold connectionItem
  refine follows_bind inferInstance fun first => follows_bind inferInstance fun _ => ?_
  refine follows_bind inferInstance fun interpolation => follows_bind inferInstance fun source => ?_
  refine follows_bind inferInstance fun _ => ?_
  extract_lets jp
  have hjp : ∀ delay, Follows R (jp delay) := by
    intro delay
    unfold jp
    refine follows_bind inferInstance fun dest => follows_bind inferInstance fun _ => ?_
    refine follows_bind inferInstance fun span => ?_
    exact follows_modifyModule (fun _ => rfl) (fun _ => rfl) fun _ => rfl
  clear_value jp
  infer_instance

instance : Follows R functionParameter := by unfold functionParameter; infer_instance

end

end Heart.Parser

end SignalGraph

import SignalGraph.Proofs.Program.Renaming

/-!
# SignalGraph.Proofs.Program.Mentions

The handles that a piece of syntax mentions, in the order in which renaming visits them.  Renaming
the mentions of `x` and listing the mentions of the renamed `x` is the same (`mentions_tracks`): so
`x` can be renamed exactly if all that it mentions can, and what it then mentions are the new names.
-/

namespace SignalGraph

/-- A handle of any kind. -/
inductive Reference where
  | mod (id : ModuleId)
  | record (id : StructId)
  | func (id : FunctionId)
  | var (id : VariableId)
  | const (id : ConstantId)
  | text (id : TextId)
  | block (id : BlockId)
deriving DecidableEq, Repr

/-- What a renaming does to a handle; texts have names of their own. -/
def Renaming.onReference (r : Renaming) (onText : TextId → Option TextId) :
    Reference → Option Reference
  | .mod id => (r.onModule id).map .mod
  | .record id => (r.onStruct id).map .record
  | .func id => (r.onFunction id).map .func
  | .var id => (r.onVariable id).map .var
  | .const id => (r.onConstant id).map .const
  | .text id => (onText id).map .text
  | .block id => (r.onBlock id).map .block

section

variable {r : Renaming} {onText : TextId → Option TextId} {x : Reference}

/-- Only a struct can be renamed to a struct. -/
theorem Renaming.onReference_eq_record {s' : StructId} :
    r.onReference onText x = some (.record s') ↔ ∃ s, x = .record s ∧ r.onStruct s = some s' := by
  cases x <;> simp [onReference]

/-- Only a function can be renamed to a function. -/
theorem Renaming.onReference_eq_func {f' : FunctionId} :
    r.onReference onText x = some (.func f') ↔ ∃ f, x = .func f ∧ r.onFunction f = some f' := by
  cases x <;> simp [onReference]

/-- Only a variable can be renamed to a variable. -/
theorem Renaming.onReference_eq_var {v' : VariableId} :
    r.onReference onText x = some (.var v') ↔ ∃ v, x = .var v ∧ r.onVariable v = some v' := by
  cases x <;> simp [onReference]

end

/-! ## Listing -/

/-- `f` replaces in `x` what `g` replaces among the mentions of `x`. -/
def Tracks {α : Type} (mentions : α → List Reference) (f : α → Option α)
    (g : Reference → Option Reference) : Prop :=
  ∀ x, (mentions x).mapM g = (f x).map mentions

section

variable {α : Type} {mentions : α → List Reference} {f : α → Option α}
  {g : Reference → Option Reference}

/-- If the mentions of an element are tracked, so are those of a list. -/
theorem Tracks.list (h : Tracks mentions f g) :
    Tracks (List.flatMap mentions) (List.mapM f) g := by
  intro l
  induction l with
  | nil => rfl
  | cons x l ih =>
      simp only [List.flatMap_cons, List.mapM_append, List.mapM_cons, h x, ih]
      cases f x with
      | none => rfl
      | some y => cases l.mapM f <;> rfl

/-- If the mentions of a part are tracked, so are those of an optional part. -/
theorem Tracks.option (h : Tracks mentions f g) :
    Tracks (fun o : Option α => o.toList.flatMap mentions) (Option.mapM f) g := by
  intro o
  cases o with
  | none => rfl
  | some x =>
      have hx := h x
      cases hf : f x <;> simp [hf, hx]

/-- If the mentions of an entry are tracked, so are those of a table. -/
theorem Tracks.arena {e : Entity} (h : Tracks mentions f g) :
    Tracks (fun a : Arena e α => a.toList.flatMap mentions) (Arena.rename f) g := by
  intro a
  rw [h.list a.toList, Arena.rename, Option.map_map]
  rfl

/-- Lists of handles. -/
theorem Tracks.handles {wrap : α → Reference} (h : ∀ x, g (wrap x) = (f x).map wrap) :
    Tracks (List.map wrap) (List.mapM f) g := by
  have hone : Tracks (fun x => [wrap x]) f g := by
    intro x
    cases hf : f x <;> simp [h x, hf]
  have hmap : List.map wrap = List.flatMap fun x => [wrap x] := funext fun l => List.map_eq_flatMap
  rw [hmap]
  exact hone.list

/-- If all mentions have new names, so has the whole. -/
theorem Tracks.defined (h : Tracks mentions f g) {x : α}
    (hx : ∀ r ∈ mentions x, ∃ r', g r = some r') : ∃ y, f x = some y := by
  have hall : ∀ l : List Reference, (∀ r ∈ l, ∃ r', g r = some r') → ∃ l', l.mapM g = some l' := by
    intro l hl
    induction l with
    | nil => exact ⟨[], rfl⟩
    | cons r l ih =>
        obtain ⟨r', hr⟩ := hl r List.mem_cons_self
        obtain ⟨l', hl'⟩ := ih fun r hr => hl r (List.mem_cons_of_mem _ hr)
        exact ⟨r' :: l', by simp [hr, hl']⟩
  obtain ⟨l', hl'⟩ := hall _ hx
  rw [h x] at hl'
  obtain ⟨y, hy, -⟩ := Option.map_eq_some_iff.mp hl'
  exact ⟨y, hy⟩

/-- What the renamed syntax mentions. -/
theorem Tracks.mapM (h : Tracks mentions f g) {x y : α} (hy : f x = some y) :
    (mentions x).mapM g = some (mentions y) := by
  rw [h x, hy]
  rfl

end

/-! ## Mentions -/

def Ty.mentions : Ty → List Reference
  | .struct id => [.record id]
  | .array t _ | .const t | .ref t => t.mentions
  | .prim _ | .vector _ _ | .string => []

mutual

def Value.mentions : Value → List Reference
  | .string id => [.text id]
  | .zero t => t.mentions
  | .aggregate t vs => t.mentions ++ Value.mentionsList vs
  | .void | .bool _ | .int32 _ | .int64 _ | .float32 _ | .float64 _ => []

def Value.mentionsList : List Value → List Reference
  | [] => []
  | v :: vs => v.mentions ++ Value.mentionsList vs

end

def Annotations.mentions (a : Annotations) : List Reference :=
  a.properties.map fun x => .const x.2

mutual

def Expr.mentions : Expr → List Reference
  | .var v => [.var v]
  | .const c => [.const c]
  | .element e _ | .member e _ | .slice e _ _ | .unary _ e => e.mentions
  | .elementAt l r | .binary _ l r => l.mentions ++ r.mentions
  | .cast t e => t.mentions ++ e.mentions
  | .pureCall f args => .func f :: Expr.mentionsList args
  | .property _ => []

def Expr.mentionsList : List Expr → List Reference
  | [] => []
  | e :: es => e.mentions ++ Expr.mentionsList es

end

def Statement.mentions : Statement → List Reference
  | .assign t v => t.mentions ++ v.mentions
  | .call t f args => t.toList.flatMap Expr.mentions ++ .func f :: Expr.mentionsList args
  | .read t _ => t.mentions
  | .write _ e v => e.toList.flatMap Expr.mentions ++ v.mentions
  | .advance => []

def Terminator.mentions : Terminator → List Reference
  | .branch b args => .block b :: Expr.mentionsList args
  | .branchIf c t ts f fs =>
    c.mentions ++ .block t :: .block f :: (Expr.mentionsList ts ++ Expr.mentionsList fs)
  | .returnVoid => []
  | .returnValue v => v.mentions

def Variable.mentions (v : Variable) : List Reference :=
  v.ty.mentions ++ (v.initial.toList.map .const ++ v.annotations.mentions)

def Structure.mentions (s : Structure) : List Reference :=
  .mod s.owner :: s.members.flatMap (·.ty.mentions)

def Endpoint.mentions (e : Endpoint) : List Reference :=
  (e.details.toList.flatMap fun d => d.types.flatMap Ty.mentions) ++ e.annotations.mentions

def Node.mentions (n : Node) : List Reference := n.args.map .const

def Block.mentions (b : Block) : List Reference :=
  b.parameters.map .var ++ (b.statements.flatMap Statement.mentions ++ b.terminator.mentions)

def Function.mentions (f : Function) : List Reference :=
  .mod f.owner :: (f.returns.mentions ++ (f.parameters.map .var ++ (f.locals.map .var ++
    (f.blocks.toList.flatMap Block.mentions ++ f.annotations.mentions))))

def Module.mentions (m : Module) : List Reference :=
  m.annotations.mentions ++ (m.endpoints.toList.flatMap Endpoint.mentions ++
    (m.nodes.toList.flatMap Node.mentions ++ (m.structs.map .record ++
      (m.functions.map .func ++ (m.state.map .var ++ m.parameters.map .var)))))

/-! ## Renaming -/

section

variable (r : Renaming) (onText : TextId → Option TextId)

/-- A type mentions its structs, and the renamed type their new names. -/
theorem Ty.mentions_tracks : Tracks Ty.mentions r.onTy (r.onReference onText) := by
  intro t
  unfold Renaming.onTy
  induction t with
  | struct id => cases h : r.onStruct id <;> simp [mentions, mapStructs, Renaming.onReference, h]
  | array t _ ih | const t ih | ref t ih =>
      rw [mentions, ih, mapStructs]
      cases t.mapStructs r.onStruct <;> rfl
  | prim _ | vector _ _ | string => rfl

mutual

/-- A value mentions structs and texts, and the renamed value their new names. -/
theorem Value.mentions_tracks : ∀ v : Value, v.mentions.mapM (r.onReference onText) =
    (v.mapParts r.onTy onText).map Value.mentions
  | .string id => by cases h : onText id <;> simp [mentions, mapParts, Renaming.onReference, h]
  | .zero t => by
      rw [mentions, Ty.mentions_tracks r onText t, mapParts]
      cases r.onTy t <;> rfl
  | .aggregate t vs => by
      rw [mentions, List.mapM_append, Ty.mentions_tracks r onText t,
        Value.mentionsList_tracks vs, mapParts]
      cases r.onTy t with
      | none => rfl
      | some t' => cases mapPartsList r.onTy onText vs <;> rfl
  | .void | .bool _ | .int32 _ | .int64 _ | .float32 _ | .float64 _ => by
      simp [mentions, mapParts]

/-- What the elements of an aggregate mention is tracked with it. -/
theorem Value.mentionsList_tracks : ∀ vs : List Value,
    (mentionsList vs).mapM (r.onReference onText) =
      (mapPartsList r.onTy onText vs).map mentionsList
  | [] => rfl
  | v :: vs => by
      rw [mentionsList, List.mapM_append, Value.mentions_tracks v, Value.mentionsList_tracks vs,
        mapPartsList]
      cases v.mapParts r.onTy onText with
      | none => rfl
      | some v' => cases mapPartsList r.onTy onText vs <;> rfl

end

/-- Annotations mention constants only. -/
theorem Annotations.mentions_tracks :
    Tracks Annotations.mentions (mapConstants r.onConstant) (r.onReference onText) := by
  intro a
  have hpairs : Tracks (List.map fun x : String × ConstantId => .const x.2)
      (List.mapM (mapProperty r.onConstant)) (r.onReference onText) := by
    refine Tracks.handles fun x => ?_
    cases h : r.onConstant x.2 <;> simp [mapProperty, Renaming.onReference, h]
  rw [mentions, hpairs a.properties]
  cases h : a.mapConstants r.onConstant with
  | none =>
      cases hp : a.properties.mapM (mapProperty r.onConstant) with
      | none => rfl
      | some l =>
          have hsome : a.mapConstants r.onConstant = some ⟨l⟩ := mapConstants_eq_some_iff.mpr hp
          rw [h] at hsome
          cases hsome
  | some a' => rw [mapConstants_eq_some_iff.mp h]; rfl

theorem constants_tracks :
    Tracks (List.map .const) (List.mapM r.onConstant) (r.onReference onText) :=
  .handles fun _ => rfl

theorem variables_tracks :
    Tracks (List.map .var) (List.mapM r.onVariable) (r.onReference onText) :=
  .handles fun _ => rfl

mutual

/-- What an expression mentions is renamed with it, by recursion on the expression. -/
theorem Expr.mentions_tracks : ∀ e : Expr, e.mentions.mapM (r.onReference onText) =
    (e.rename r.renamer).map Expr.mentions
  | .var v => by cases h : r.onVariable v <;> simp [mentions, rename, Renaming.onReference, h]
  | .const c => by cases h : r.onConstant c <;> simp [mentions, rename, Renaming.onReference, h]
  | .element e _ | .member e _ | .slice e _ _ | .unary _ e => by
      rw [mentions, Expr.mentions_tracks e, rename]
      cases e.rename r.renamer <;> rfl
  | .elementAt l r' | .binary _ l r' => by
      rw [mentions, List.mapM_append, Expr.mentions_tracks l, Expr.mentions_tracks r', rename]
      cases l.rename r.renamer with
      | none => rfl
      | some l' => cases r'.rename r.renamer <;> rfl
  | .cast t e => by
      rw [mentions, List.mapM_append, Ty.mentions_tracks r onText t, Expr.mentions_tracks e, rename,
        Renaming.renamer_onTy]
      cases r.onTy t with
      | none => rfl
      | some t' => cases e.rename r.renamer <;> rfl
  | .pureCall f args => by
      rw [mentions, List.mapM_cons, Expr.mentionsList_tracks args, rename, Renaming.onReference,
        Renaming.renamer_onFunction]
      cases r.onFunction f with
      | none => rfl
      | some f' => cases renameList r.renamer args <;> rfl
  | .property _ => rfl

/-- What the arguments of a call mention is tracked with it. -/
theorem Expr.mentionsList_tracks : ∀ es : List Expr,
    (mentionsList es).mapM (r.onReference onText) =
      (renameList r.renamer es).map mentionsList
  | [] => rfl
  | e :: es => by
      rw [mentionsList, List.mapM_append, Expr.mentions_tracks e, Expr.mentionsList_tracks es,
        renameList]
      cases e.rename r.renamer with
      | none => rfl
      | some e' => cases renameList r.renamer es <;> rfl

end

/-- What an optional expression mentions is tracked with it. -/
theorem Expr.mentionsOption_tracks :
    Tracks (fun o : Option Expr => o.toList.flatMap Expr.mentions) (renameOption r.renamer)
      (r.onReference onText) := by
  intro o
  cases o with
  | none => rfl
  | some e =>
      have he := Expr.mentions_tracks r onText e
      simp only [Option.toList_some, List.flatMap_singleton, renameOption, he]
      cases e.rename r.renamer <;> simp

/-- What a statement mentions is renamed with it. -/
theorem Statement.mentions_tracks :
    Tracks Statement.mentions (Statement.rename r.renamer) (r.onReference onText) := by
  intro s
  cases s with
  | assign t v =>
      rw [mentions, List.mapM_append, Expr.mentions_tracks r onText t,
        Expr.mentions_tracks r onText v, rename]
      cases t.rename r.renamer with
      | none => rfl
      | some t' => cases v.rename r.renamer <;> rfl
  | call t f args =>
      rw [mentions, List.mapM_append, List.mapM_cons, Expr.mentionsOption_tracks r onText t,
        Expr.mentionsList_tracks r onText args, rename, Renaming.onReference,
        Renaming.renamer_onFunction]
      cases Expr.renameOption r.renamer t with
      | none => rfl
      | some t' =>
          cases r.onFunction f with
          | none => rfl
          | some f' => cases Expr.renameList r.renamer args <;> rfl
  | read t endpoint =>
      rw [mentions, Expr.mentions_tracks r onText t, rename]
      cases t.rename r.renamer <;> rfl
  | write endpoint e v =>
      rw [mentions, List.mapM_append, Expr.mentionsOption_tracks r onText e,
        Expr.mentions_tracks r onText v, rename]
      cases Expr.renameOption r.renamer e with
      | none => rfl
      | some e' => cases v.rename r.renamer <;> rfl
  | advance => rfl

/-- What a terminator mentions is renamed with it, the blocks that it leads to included. -/
theorem Terminator.mentions_tracks :
    Tracks Terminator.mentions (Terminator.rename r.renamer) (r.onReference onText) := by
  intro t
  cases t with
  | branch b args =>
      rw [mentions, List.mapM_cons, Expr.mentionsList_tracks r onText args, rename,
        Renaming.onReference, Renaming.renamer_onBlock]
      cases r.onBlock b with
      | none => rfl
      | some b' => cases Expr.renameList r.renamer args <;> rfl
  | branchIf c b ts b' fs =>
      rw [mentions, List.mapM_append, List.mapM_cons, List.mapM_cons, List.mapM_append,
        Expr.mentions_tracks r onText c, Expr.mentionsList_tracks r onText ts,
        Expr.mentionsList_tracks r onText fs, rename, Renaming.onReference, Renaming.onReference,
        Renaming.renamer_onBlock]
      cases c.rename r.renamer with
      | none => rfl
      | some c' =>
          cases r.onBlock b with
          | none => rfl
          | some t' =>
              cases r.onBlock b' with
              | none => rfl
              | some f' =>
                  cases Expr.renameList r.renamer ts with
                  | none => rfl
                  | some ts' => cases Expr.renameList r.renamer fs <;> rfl
  | returnVoid => rfl
  | returnValue v =>
      rw [mentions, Expr.mentions_tracks r onText v, rename]
      cases v.rename r.renamer <;> rfl

/-- A variable mentions its type, its initial value and its annotations. -/
theorem Variable.mentions_tracks :
    Tracks Variable.mentions (Variable.rename r) (r.onReference onText) := by
  intro v
  have hone : Tracks (fun c => [Reference.const c]) r.onConstant (r.onReference onText) := by
    intro c
    cases h : r.onConstant c <;> simp [Renaming.onReference, h]
  have hinitial := hone.option v.initial
  simp only [← List.map_eq_flatMap] at hinitial
  rw [mentions, List.mapM_append, List.mapM_append, Ty.mentions_tracks r onText v.ty, hinitial,
    Annotations.mentions_tracks r onText v.annotations, Variable.rename]
  cases r.onTy v.ty with
  | none => rfl
  | some ty =>
      cases v.initial.mapM r.onConstant with
      | none => rfl
      | some initial => cases v.annotations.mapConstants r.onConstant <;> rfl

/-- A struct mentions its owner and the types of its members. -/
theorem Structure.mentions_tracks :
    Tracks Structure.mentions (Structure.rename r) (r.onReference onText) := by
  intro s
  have hmember : Tracks (fun m : Member => m.ty.mentions) (Member.rename r)
      (r.onReference onText) := by
    intro m
    rw [Ty.mentions_tracks r onText m.ty, Member.rename]
    cases r.onTy m.ty <;> rfl
  rw [mentions, List.mapM_cons, hmember.list s.members, Structure.rename, Renaming.onReference]
  cases r.onModule s.owner with
  | none => rfl
  | some owner => cases s.members.mapM (Member.rename r) <;> rfl

/-- An endpoint mentions its types and its annotations. -/
theorem Endpoint.mentions_tracks :
    Tracks Endpoint.mentions (Endpoint.rename r) (r.onReference onText) := by
  intro e
  have hdetails : Tracks (fun d : EndpointDetails => d.types.flatMap Ty.mentions)
      (EndpointDetails.rename r) (r.onReference onText) := by
    intro d
    rw [(Ty.mentions_tracks r onText).list d.types, EndpointDetails.rename]
    cases d.types.mapM r.onTy <;> rfl
  rw [mentions, List.mapM_append, hdetails.option e.details,
    Annotations.mentions_tracks r onText e.annotations, Endpoint.rename]
  cases e.details.mapM (EndpointDetails.rename r) with
  | none => rfl
  | some details => cases e.annotations.mapConstants r.onConstant <;> rfl

/-- A node mentions the arguments that it supplies. -/
theorem Node.mentions_tracks : Tracks Node.mentions (Node.rename r) (r.onReference onText) := by
  intro n
  rw [mentions, constants_tracks r onText n.args, Node.rename]
  cases n.args.mapM r.onConstant <;> rfl

/-- A block mentions its parameters and what its code mentions. -/
theorem Block.mentions_tracks : Tracks Block.mentions (Block.rename r) (r.onReference onText) := by
  intro b
  rw [mentions, List.mapM_append, List.mapM_append, variables_tracks r onText b.parameters,
    (Statement.mentions_tracks r onText).list b.statements,
    Terminator.mentions_tracks r onText b.terminator, Block.rename]
  cases b.parameters.mapM r.onVariable with
  | none => rfl
  | some parameters =>
      cases b.statements.mapM (Statement.rename r.renamer) with
      | none => rfl
      | some statements => cases b.terminator.rename r.renamer <;> rfl

/-- A function mentions its owner, its variables, its types and what its blocks mention. -/
theorem Function.mentions_tracks :
    Tracks Function.mentions (Function.rename r) (r.onReference onText) := by
  intro f
  rw [mentions, List.mapM_cons, List.mapM_append, List.mapM_append, List.mapM_append,
    List.mapM_append, Ty.mentions_tracks r onText f.returns,
    variables_tracks r onText f.parameters, variables_tracks r onText f.locals,
    (Block.mentions_tracks r onText).arena f.blocks,
    Annotations.mentions_tracks r onText f.annotations, Function.rename, Renaming.onReference]
  cases r.onModule f.owner with
  | none => rfl
  | some owner =>
  cases r.onTy f.returns with
  | none => rfl
  | some returns =>
  cases f.parameters.mapM r.onVariable with
  | none => rfl
  | some parameters =>
  cases f.locals.mapM r.onVariable with
  | none => rfl
  | some locals =>
  cases f.blocks.rename (Block.rename r) with
  | none => rfl
  | some blocks => cases f.annotations.mapConstants r.onConstant <;> rfl

/-- A module mentions what it lists and what its endpoints, nodes and annotations mention. -/
theorem Module.mentions_tracks :
    Tracks Module.mentions (Module.rename r) (r.onReference onText) := by
  intro m
  have hstructs : Tracks (List.map .record) (List.mapM r.onStruct) (r.onReference onText) :=
    .handles fun _ => rfl
  have hfunctions : Tracks (List.map .func) (List.mapM r.onFunction) (r.onReference onText) :=
    .handles fun _ => rfl
  rw [mentions, List.mapM_append, List.mapM_append, List.mapM_append, List.mapM_append,
    List.mapM_append, List.mapM_append, Annotations.mentions_tracks r onText m.annotations,
    (Endpoint.mentions_tracks r onText).arena m.endpoints,
    (Node.mentions_tracks r onText).arena m.nodes, hstructs m.structs, hfunctions m.functions,
    variables_tracks r onText m.state, variables_tracks r onText m.parameters, Module.rename]
  cases m.annotations.mapConstants r.onConstant with
  | none => rfl
  | some annotations =>
  cases m.endpoints.rename (Endpoint.rename r) with
  | none => rfl
  | some endpoints =>
  cases m.nodes.rename (Node.rename r) with
  | none => rfl
  | some nodes =>
  cases m.structs.mapM r.onStruct with
  | none => rfl
  | some structs =>
  cases m.functions.mapM r.onFunction with
  | none => rfl
  | some functions =>
  cases m.state.mapM r.onVariable with
  | none => rfl
  | some state => cases m.parameters.mapM r.onVariable <;> rfl

end

end SignalGraph

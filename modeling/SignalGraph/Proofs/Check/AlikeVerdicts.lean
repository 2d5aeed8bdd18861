import SignalGraph.Check.Verify
import SignalGraph.Proofs.Check.Verdicts
import SignalGraph.Proofs.Program.AlikeReading
import SignalGraph.Proofs.Program.CopyTyping

/-!
# SignalGraph.Proofs.Check.AlikeVerdicts

The checks judge alike programs alike (`checkProgram_alike`): they read types, names, places and
shapes, and those of a program do not depend on how its variables, constants and texts are numbered.
-/

namespace SignalGraph

open Program

/-! ## Bodies -/

section

variable {r : Renaming} (hr : r.onFunction = some)

include hr

/-- A renaming that keeps functions keeps what an expression itself calls. -/
theorem Expr.callee?_of_rename {e e' : Expr} (h : e.rename r.renamer = some e') :
    e'.callee? = e.callee? := by
  cases Expr.renames h with
  | pureCall hf _ =>
      rw [hr] at hf
      cases hf
      rfl
  | _ => rfl

/-- Arguments call the same functions after the renaming. -/
theorem Expr.callees_of_renameList {es es' : List Expr}
    (h : Expr.renameList r.renamer es = some es') :
    (Expr.partsList es').filterMap Expr.callee? = (Expr.partsList es).filterMap Expr.callee? :=
  filterMap_eq_of_forall₂ (mapM_eq_some_iff_forall₂.mp (Expr.renameList_parts h))
    fun _ _ he => Expr.callee?_of_rename hr he

/-- A statement calls the same functions after the renaming. -/
theorem Statement.callees_of_rename {s s' : Statement} (h : s.rename r.renamer = some s') :
    s'.callees = s.callees := by
  have hparts := Expr.callees_of_renameList hr (Statement.rename_exprs h)
  cases Statement.renames h with
  | call hf _ | callTo _ hf _ =>
      rw [hr] at hf
      cases hf
      simp only [Statement.callees, Statement.allExprs, hparts]
  | _ => simp only [Statement.callees, Statement.allExprs, hparts]

/-- A function calls the same functions after the renaming, in the same order. -/
theorem Function.Renames.callees {f f' : Function} (h : f.Renames r f') :
    f'.callees = f.callees := by
  refine flatMap_eq_of_forall₂ h.blockList fun b b' hb => ?_
  rw [Block.callees, Block.callees, Terminator.callees, Terminator.callees, Terminator.allExprs,
    Terminator.allExprs, Expr.callees_of_renameList hr (Terminator.rename_exprs hb.terminator),
    flatMap_eq_of_forall₂ (mapM_eq_some_iff_forall₂.mp hb.statements)
      fun _ _ hs => Statement.callees_of_rename hr hs]

end

section

variable {r : Renaming}

/-- An advance stays an advance. -/
theorem Statement.isAdvance_of_rename {s s' : Statement} (h : s.rename r.renamer = some s') :
    s'.isAdvance = s.isAdvance := by
  cases Statement.renames h <;> rfl

/-- A block advances if its renaming does. -/
theorem Block.Renames.advances {b b' : Block} (h : b.Renames r b') : b'.advances = b.advances :=
  any_eq_of_forall₂ (mapM_eq_some_iff_forall₂.mp h.statements)
    fun _ _ hs => Statement.isAdvance_of_rename hs

/-- A function advances if its renaming does. -/
theorem Function.Renames.advances {f f' : Function} (h : f.Renames r f') :
    f'.advances = f.advances :=
  any_eq_of_forall₂ h.blockList fun _ _ hb => hb.advances

end

/-! ## Types -/

/-- With other texts, a value stays what it was outside. -/
theorem Value.mapParts_cases {onText : TextId → Option TextId} {v v' : Value}
    (h : v.mapParts some onText = some v') : v' = v ∨ (∃ t t', v = .string t ∧ v' = .string t') ∨
      ∃ t vs vs', v = .aggregate t vs ∧ v' = .aggregate t vs' := by
  cases v with
  | string t =>
      simp only [mapParts, Option.bind_eq_bind, Option.bind_eq_some_iff] at h
      obtain ⟨t', -, h⟩ := h
      cases h
      exact .inr (.inl ⟨t, t', rfl, rfl⟩)
  | aggregate t vs =>
      simp only [mapParts, Option.bind_eq_bind, Option.bind_some, Option.bind_eq_some_iff] at h
      obtain ⟨vs', -, h⟩ := h
      cases h
      exact .inr (.inr ⟨t, vs, vs', rfl, rfl⟩)
  | _ =>
      cases h
      exact .inl rfl

/-- The type of a value does not depend on how its texts are numbered. -/
theorem Value.ty_of_mapParts {onText : TextId → Option TextId} {v v' : Value}
    (h : v.mapParts some onText = some v') : v'.ty = v.ty := by
  obtain rfl | ⟨t, t', rfl, rfl⟩ | ⟨t, vs, vs', rfl, rfl⟩ := mapParts_cases h <;> rfl

namespace Program.Alike

variable {p q : Program} {V : VariableId → Option VariableId} (h : Alike V p q)

include h

/-- Structs have the same members in alike programs. -/
theorem memberType (t : Ty) (name : String) : q.memberType t name = p.memberType t name := by
  unfold Program.memberType
  simp only [h.structAt]

/-- Expressions that correspond have the same type. -/
theorem exprType : ∀ {e e' : Expr}, e.rename (alikeNames V p q).renamer = some e' →
    q.exprType e' = p.exprType e
  | .const _, _, hrename => by
      cases Expr.renames hrename with
      | const hc => exact Value.ty_of_mapParts (constantAt hc)
  | .var _, _, hrename => by
      cases Expr.renames hrename with
      | var hv => exact h.ty hv
  | .element _ _, _, hrename => by
      cases Expr.renames hrename with
      | element _ he => rw [Program.exprType, Program.exprType, exprType he]
  | .elementAt _ _, _, hrename => by
      cases Expr.renames hrename with
      | elementAt he _ => rw [Program.exprType, Program.exprType, exprType he]
  | .member _ _, _, hrename => by
      cases Expr.renames hrename with
      | member _ he => rw [Program.exprType, Program.exprType, exprType he, h.memberType]
  | .slice _ _ _, _, hrename => by
      cases Expr.renames hrename with
      | slice _ _ he => rw [Program.exprType, Program.exprType, exprType he]
  | .cast _ _, _, hrename => by
      cases Expr.renames hrename with
      | cast ht _ =>
          rw [alikeNames_onTy] at ht
          exact (Option.some.inj ht).symm
  | .unary op _, _, hrename => by
      cases Expr.renames hrename with
      | unary _ he =>
          cases op with
          | logicalNot => rfl
          | _ => exact congrArg Ty.unqualified (exprType he)
  | .binary _ _ _, _, hrename => by
      cases Expr.renames hrename with
      | binary _ hx _ => rw [Program.exprType, Program.exprType, exprType hx]
  | .pureCall _ _, _, hrename => by
      cases Expr.renames hrename with
      | pureCall hf _ =>
          cases hf
          exact h.returns _
  | .property x, _, hrename => by
      cases Expr.renames hrename
      cases x <;> rfl

end Program.Alike

/-! ## Call graphs -/

namespace Program.Alike

variable {p q : Program} {V : VariableId → Option VariableId} (h : Alike V p q)

include h

/-- Functions call the same functions in alike programs. -/
theorem callees (f : FunctionId) : q.callees f = p.callees f := by
  have hget := Arena.get?_of_rename h.functions f
  unfold Program.callees
  cases hf : p.functions.get? f with
  | none =>
      rw [hf] at hget
      rw [← Option.some.inj hget]
  | some fn =>
      rw [hf] at hget
      simp at hget
      obtain ⟨fn', hfn, hget⟩ := hget
      rw [← hget]
      simp [Function.distinctCallees, (Function.rename_eq_some_iff.mp hfn).callees rfl]

/-- Alike programs have the same recursion, or none. -/
theorem recursion? : q.recursion? = p.recursion? := by
  simp only [Program.recursion?, h.callees, h.functionHandles]

/-- A frame has the same size, since parameters and locals have the same types. -/
theorem frameSize {f f' : Function} (hf : f.Renames (alikeNames V p q) f') :
    q.frameSize f' = p.frameSize f := by
  have hreturns := hf.returns
  rw [alikeNames_onTy] at hreturns
  have hvars := mapM_eq_some_iff_forall₂.mp hf.signatureVars
  unfold Program.frameSize
  rw [← Option.some.inj hreturns, h.structs]
  have hsizes := map_eq_of_forall₂ hvars (u := fun v => (p.variableAt v).ty.packedSize p.structs)
    (v := fun v => (q.variableAt v).ty.packedSize p.structs) fun _ _ hv => by rw [h.ty hv]
  have hsum := congrArg (List.foldl Saturating.add (f.returns.packedSize p.structs)) hsizes
  rwa [List.foldl_map, List.foldl_map] at hsum

/-- Calls need the same stack, by induction on the depth of the calls. -/
theorem stackNeeds (n : Nat) : q.stackNeeds n = p.stackNeeds n := by
  induction n with
  | zero =>
      exact map_eq_of_forall₂ (Arena.forall₂_of_rename h.functions) fun _ _ _ => rfl
  | succ n ih =>
      refine map_eq_of_forall₂ h.functionEntries ?_
      rintro ⟨f, fn⟩ ⟨_, fn'⟩ ⟨rfl, hfn⟩
      simp only [h.frameSize hfn, h.callees, ih]

/-- Alike programs need the same stack. -/
theorem maximumStack? : q.maximumStack? = p.maximumStack? := by
  simp only [Program.maximumStack?, h.recursion?, h.stackNeeds, Arena.size_of_rename h.functions]

end Program.Alike

namespace Check

variable {p q : Program} {V : VariableId → Option VariableId}

/-- Checks that agree element by element stop at the same element. -/
theorem each_congr {α β : Type} {φ : α → β → Prop} {l : List α} {l' : List β}
    {check : α → Verdict} {check' : β → Verdict} (h : List.Forall₂ φ l l')
    (hcheck : ∀ x y, φ x y → check' y = check x) : each check' l' = each check l := by
  induction h with
  | nil => rfl
  | cons hxy _ ih => rw [each, each, hcheck _ _ hxy, ih]

/-- Checks of distinct names agree if the names, their places and the checks do. -/
theorem distinctly_congr {α β : Type} {φ : α → β → Prop} {l : List α} {l' : List β}
    {name : α → String} {name' : β → String} {span : α → Span} {span' : β → Span}
    {duplicate : String → Fault} {check : α → Verdict} {check' : β → Verdict}
    (h : List.Forall₂ φ l l') (hname : ∀ x y, φ x y → name' y = name x)
    (hspan : ∀ x y, φ x y → span' y = span x) (hcheck : ∀ x y, φ x y → check' y = check x)
    (seen : List String) : distinctly name' span' duplicate check' seen l' =
      distinctly name span duplicate check seen l := by
  induction h generalizing seen with
  | nil => rfl
  | cons hxy _ ih =>
      rw [distinctly, distinctly, hname _ _ hxy, hspan _ _ hxy, hcheck _ _ hxy, ih]

section

variable (h : Alike V p q)

include h

/-! ## Modules -/

/-- The rule on the parents of modules judges alike programs alike. -/
theorem checkParent_alike (id : ModuleId) {m m' : Module} (hm : m.Renames (alikeNames V p q) m') :
    checkParent q id m' = checkParent p id m := by
  have hparent : q.parentModule? id = p.parentModule? id := by
    simp only [parentModule?, Module.parentName?, (h.moduleAt id).name]
    exact congrArg _ (funext h.findModule?)
  unfold checkParent
  rw [hparent]
  cases p.parentModule? id with
  | none => rfl
  | some parent =>
      simp only [(h.moduleAt parent).isNamespace, (h.moduleAt parent).name, hm.name, hm.span]

omit h in
/-- The checks of one endpoint read what alike programs share of it. -/
theorem checkEndpoint_alike (settings : Settings) {e e' : Endpoint}
    (he : e.Renames (alikeNames V p q) e') :
    checkEndpoint settings e' = checkEndpoint settings e := by
  rw [endpoint_eq he]
  rfl

/-- The checks of one node read what alike programs share of it. -/
theorem checkNode_alike (settings : Settings) {n n' : Node} (hn : n.Renames (alikeNames V p q) n') :
    checkNode q settings n' = checkNode p settings n := by
  simp only [checkNode, hn.name, hn.arraySize, hn.span, hn.source, h.findModule?]
  cases p.findModule? n.source with
  | none => rfl
  | some source => simp only [(h.moduleAt source).isNamespace]

/-- A module that runs is judged alike. -/
theorem checkRunnable_alike (settings : Settings) {m m' : Module}
    (hm : m.Renames (alikeNames V p q) m') :
    checkRunnable q settings m' = checkRunnable p settings m := by
  have hendpoints := (Arena.forall₂_of_rename hm.endpoints).imp fun _ _ he =>
    Endpoint.rename_eq_some_iff.mp he
  have hnodes := (Arena.forall₂_of_rename hm.nodes).imp fun _ _ hn => Node.rename_eq_some_iff.mp hn
  have houtputs : m'.outputs.isEmpty = m.outputs.isEmpty :=
    isEmpty_eq_of_forall₂ (filter_of_forall₂ hendpoints fun _ _ he => by
      rw [Endpoint.isOutput, he.direction, Endpoint.isOutput])
  rw [checkRunnable, checkRunnable, houtputs, hm.name, hm.span,
    distinctly_congr hendpoints (fun _ _ he => he.name) (fun _ _ he => he.span)
      (fun _ _ he => checkEndpoint_alike settings he),
    distinctly_congr hnodes (fun _ _ hn => hn.name) (fun _ _ hn => hn.span)
      (fun _ _ hn => checkNode_alike h settings hn)]

omit h in
/-- The main module is judged alike. -/
theorem checkMain_alike {m m' : Module} (hm : m.Renames (alikeNames V p q) m') :
    checkMain m' = checkMain m := by
  have hendpoints := (Arena.forall₂_of_rename hm.endpoints).imp fun _ _ he =>
    Endpoint.rename_eq_some_iff.mp he
  have hinputs := filter_of_forall₂ hendpoints (u := Endpoint.isInput) (v := Endpoint.isInput)
    fun _ _ he => by rw [Endpoint.isInput, he.direction, Endpoint.isInput]
  have houtputs := filter_of_forall₂ hendpoints (u := Endpoint.isOutput) (v := Endpoint.isOutput)
    fun _ _ he => by rw [Endpoint.isOutput, he.direction, Endpoint.isOutput]
  unfold checkMain
  rw [Module.inputs, each_congr hinputs fun e e' he => ?_, Module.outputs,
    each_congr houtputs fun e e' he => ?_]
  · rfl
  · rw [endpoint_eq he]
    rfl
  · rw [endpoint_eq he]
    rfl

/-- The modules that run are the same ones. -/
theorem runnable_alike : List.Forall₂ (fun x y => x.1 = y.1 ∧ x.2.Renames (alikeNames V p q) y.2)
    p.runnable q.runnable :=
  filter_of_forall₂ h.entries fun _ _ hxy => congrArg (!·) hxy.2.isNamespace

/-- The rules on modules judge alike programs alike. -/
theorem checkModules_alike (settings : Settings) (main : Option ModuleId) :
    checkModules q settings main = checkModules p settings main := by
  unfold checkModules
  rw [distinctly_congr h.entries (fun x y hxy => hxy.2.name) (fun x y hxy => hxy.2.span) ?_,
    each_congr (runnable_alike h) ?_]
  · cases main with
    | none => rfl
    | some id => simp only [checkMain_alike (h.moduleAt id)]
  · exact fun x y hxy => checkRunnable_alike h settings hxy.2
  · rintro ⟨id, m⟩ ⟨_, m'⟩ ⟨rfl, hm⟩
    exact checkParent_alike h id hm

/-! ## Connections and feedback -/

omit h in
/-- Ends of connections are written alike in messages. -/
theorem describeRef_alike {m m' : Module} (hm : m.Renames (alikeNames V p q) m') (r : EndpointRef) :
    Link.describeRef m' r = Link.describeRef m r := by
  unfold Link.describeRef
  cases r.node with
  | none => rfl
  | some k =>
      have hget := Arena.get?_of_rename hm.nodes k
      cases hk : m.nodes.get? k with
      | none =>
          rw [hk] at hget
          simp [hk, ← Option.some.inj hget]
      | some n =>
          rw [hk] at hget
          simp at hget
          obtain ⟨n', hn, hget⟩ := hget
          simp [hk, ← hget, (Node.rename_eq_some_iff.mp hn).name]

/-- Types are written alike in messages. -/
theorem describeTypes_alike (d : EndpointDetails) :
    Link.describeTypes q d = Link.describeTypes p d := by
  rw [Link.describeTypes, show q.describe = p.describe from funext h.describe, Link.describeTypes]

/-- An end belongs to the same endpoint in both programs, and to nodes of the same shape. -/
theorem endOwner_alike (graph : ModuleId) (r : EndpointRef) (span : Span) :
    (∃ d, Link.endOwner p graph r span = .error d ∧ Link.endOwner q graph r span = .error d) ∨
      ∃ owner node node', Link.endOwner p graph r span = .ok (owner, node) ∧
        Link.endOwner q graph r span = .ok (owner, node') ∧ node'.map (·.1) = node.map (·.1) ∧
        Link.selection (node'.map (·.2)) = Link.selection (node.map (·.2)) := by
  have hgraph := h.moduleAt graph
  unfold Link.endOwner
  cases r.node with
  | none => exact .inr ⟨graph, none, none, rfl, rfl, rfl, rfl⟩
  | some k =>
      have hget := Arena.get?_of_rename hgraph.nodes k
      cases hk : (p.moduleAt graph).nodes.get? k with
      | none =>
          rw [hk] at hget
          simp only [← Option.some.inj hget, describeRef_alike hgraph, hk]
          exact .inl ⟨_, rfl, rfl⟩
      | some n =>
          rw [hk] at hget
          simp at hget
          obtain ⟨n', hn, hget⟩ := hget
          have hn := Node.rename_eq_some_iff.mp hn
          have hselection : Link.selection (some n') = Link.selection (some n) := by
            rw [node_eq hn]
            rfl
          simp only [← hget, hk, hn.source, h.findModule?]
          cases p.findModule? n.source with
          | none => exact .inl ⟨_, rfl, rfl⟩
          | some owner => exact .inr ⟨owner, some (k, n), some (k, n'), rfl, rfl, rfl, hselection⟩

/-- An end of a connection is resolved to the same endpoint, or refused with the same message. -/
theorem resolveEnd_alike (graph : ModuleId) (r : EndpointRef) (side : Link.Side) (span : Span) :
    Link.resolveEnd q graph r side span = Link.resolveEnd p graph r side span := by
  have hendpoint : ∀ id k, ((q.moduleAt id).endpoints.get k).direction =
      ((p.moduleAt id).endpoints.get k).direction ∧
        ((q.moduleAt id).endpoints.get k).details = ((p.moduleAt id).endpoints.get k).details := by
    intro id k
    rw [endpoint_eq ((h.moduleAt id).endpoint k)]
    exact ⟨rfl, rfl⟩
  obtain ⟨d, hp, hq⟩ | ⟨owner, node, node', hp, hq, hid, hselection⟩ :=
    endOwner_alike h graph r span
  · rw [Link.resolveEnd, Link.resolveEnd, hp, hq]
    rfl
  · have hsome : node'.isSome = node.isSome := by
      have hmap := congrArg Option.isSome hid
      rwa [Option.isSome_map, Option.isSome_map] at hmap
    rw [Link.resolveEnd, Link.resolveEnd, hp, hq]
    simp only [describeRef_alike (h.moduleAt graph), (h.moduleAt owner).findEndpoint?, hendpoint,
      hsome, hselection, hid, bind, Except.bind]

/-- A connection is accepted in both programs, or refused in both with the same message. -/
theorem resolveConnection_alike (graph : ModuleId) (c : Connection) :
    Link.resolveConnection q graph c = Link.resolveConnection p graph c := by
  have hmismatch : Link.mismatch? q = Link.mismatch? p := by
    funext a b s d x y
    simp only [Link.mismatch?, describeTypes_alike h]
  simp only [Link.resolveConnection, resolveEnd_alike h, describeRef_alike (h.moduleAt graph),
    hmismatch]

/-- The rule on connections judges alike programs alike. -/
theorem checkGraphConnections_alike (settings : Settings) (graph : ModuleId) :
    Rule.checkGraphConnections q settings graph = Rule.checkGraphConnections p settings graph := by
  simp only [Rule.checkGraphConnections, (h.moduleAt graph).connections, Link.checkConnection,
    resolveConnection_alike h]

omit h in
/-- Alike modules have the same feedback, since they have the same connections. -/
theorem checkFeedback_alike {m m' : Module} (hm : m.Renames (alikeNames V p q) m') :
    Link.checkFeedback m' = Link.checkFeedback m := by
  have hsize := Arena.size_of_rename hm.nodes
  have hedges : Link.directEdges m' = Link.directEdges m := by
    funext node
    simp only [Link.directEdges, hm.connections, hsize]
  have hfeedback : Link.feedback? m' = Link.feedback? m := by
    rw [Link.feedback?, hedges, hm.nodeHandles, Link.feedback?]
  have hname : ∀ k, (m'.nodes.get k).name = (m.nodes.get k).name := fun k => (hm.node k).name
  simp only [Link.checkFeedback, hfeedback, hname, hm.connections]

/-! ## Functions -/

omit h in
/-- Lists that are related element by element stay related when they are zipped. -/
theorem forall₂_zip {α β γ δ : Type} {φ : α → γ → Prop} {ψ : β → δ → Prop} {l : List α}
    {l' : List γ} {u : List β} {u' : List δ} (hl : List.Forall₂ φ l l')
    (hu : List.Forall₂ ψ u u') :
    List.Forall₂ (fun x y => φ x.1 y.1 ∧ ψ x.2 y.2) (l.zip u) (l'.zip u') := by
  induction hl generalizing u u' with
  | nil => exact .nil
  | cons hx _ ih =>
      cases hu with
      | nil => exact .nil
      | cons hy hu => exact .cons ⟨hx, hy⟩ (ih hu)

omit h in
/-- A statement uses an endpoint if its renaming does. -/
theorem usesEndpoint_of_rename {r : Renaming} {s s' : Statement}
    (hs : s.rename r.renamer = some s') : usesEndpoint s' = usesEndpoint s := by
  cases Statement.renames hs <;> rfl

section

variable (id : FunctionId) {f f' : Function} (hf : f.Renames (alikeNames V p q) f')

include hf

omit h in
/-- Alike functions have the same owner. -/
theorem owner_alike : f'.owner = f.owner := (Option.some.inj hf.owner).symm

/-- The rule on calls and advances judges alike functions alike. -/
theorem checkCalls_alike : checkCalls q id f' = checkCalls p id f := by
  have hmodule := h.moduleAt f.owner
  have hrun : isProcessorRun q f' = isProcessorRun p f := by
    rw [isProcessorRun, isProcessorRun, owner_alike hf, hmodule.isProcessor, hf.kind]
  have hkind : ∀ g, (q.functionAt g).kind = (p.functionAt g).kind := fun g => (h.functionAt g).kind
  have hcallees : f'.distinctCallees = f.distinctCallees := by
    rw [Function.distinctCallees, hf.callees rfl, Function.distinctCallees]
  have huses : f'.statements.any usesEndpoint = f.statements.any usesEndpoint := by
    rw [Function.statements, Function.statements, List.any_flatMap, List.any_flatMap]
    exact any_eq_of_forall₂ hf.blockList fun _ _ hb =>
      any_eq_of_forall₂ (mapM_eq_some_iff_forall₂.mp hb.statements)
        fun _ _ hs => usesEndpoint_of_rename hs
  simp only [checkCalls, hrun, hf.hasBody, hf.advances, owner_alike hf, hmodule.name, hf.span,
    h.functionName, hf.kind, hcallees, hkind, huses]

/-- A branch passes values of the same types to parameters of the same types. -/
theorem checkBranch_alike (span : Span) (target : BlockId) {args args' : List Expr}
    (hargs : Expr.renameList (alikeNames V p q).renamer args = some args') :
    checkBranch q id f' span target args' = checkBranch p id f span target args := by
  have hget := Arena.get?_of_rename hf.blocks target
  unfold checkBranch
  cases hb : f.blocks.get? target with
  | none =>
      rw [hb] at hget
      simp only [← Option.some.inj hget, h.functionName]
  | some b =>
      rw [hb] at hget
      simp at hget
      obtain ⟨b', hrename, hget⟩ := hget
      have hblock := Block.rename_eq_some_iff.mp hrename
      rw [Expr.renameList_eq_mapM] at hargs
      have hparameters := mapM_eq_some_iff_forall₂.mp hblock.parameters
      have hargs := mapM_eq_some_iff_forall₂.mp hargs
      simp only [← hget, hblock.name, hparameters.length_eq, hargs.length_eq]
      congr 1
      funext _
      refine each_congr (φ := fun x y => V x.1 = some y.1 ∧
        x.2.rename (alikeNames V p q).renamer = some y.2) ?_ ?_
      · exact forall₂_zip hparameters hargs
      · rintro ⟨v, e⟩ ⟨v', e'⟩ ⟨hv, he⟩
        simp only [h.ty hv, h.exprType he, h.describe]

/-- The rule on block parameters judges alike functions alike. -/
theorem checkBlocks_alike : checkBlocks q id f' = checkBlocks p id f := by
  have hparameters : each (checkBlockParameters q) f'.blocks.toList =
      each (checkBlockParameters p) f.blocks.toList := by
    refine each_congr hf.blockList fun b b' hb => ?_
    refine each_congr (mapM_eq_some_iff_forall₂.mp hb.parameters) fun v v' hv => ?_
    simp only [h.ty hv, hb.name, h.describe, hb.span]
  -- a branch passes as many arguments of the same types, and the others pass nothing
  have hterminators : each (checkTerminator q id f') f'.blocks.toList =
      each (checkTerminator p id f) f.blocks.toList := by
    refine each_congr hf.blockList fun b b' hb => ?_
    have hterminator := hb.terminator
    unfold checkTerminator
    cases ht : b.terminator with
    | branch t args =>
        rw [ht] at hterminator
        generalize b'.terminator = t' at hterminator
        cases Terminator.renames hterminator with
        | branch ht' hargs =>
            cases ht'
            simp only [hb.span, checkBranch_alike h id hf _ _ hargs]
    | branchIf c t ts k ks =>
        rw [ht] at hterminator
        generalize b'.terminator = t' at hterminator
        cases Terminator.renames hterminator with
        | branchIf _ ht' hk hts hks =>
            cases ht'
            cases hk
            rw [Expr.renameList_eq_mapM] at hts hks
            have hnone : Expr.renameList (alikeNames V p q).renamer [] = some [] := rfl
            simp only [hb.span, h.functionName, checkBranch_alike h id hf _ _ hnone,
              isEmpty_eq_of_forall₂ (mapM_eq_some_iff_forall₂.mp hts),
              isEmpty_eq_of_forall₂ (mapM_eq_some_iff_forall₂.mp hks)]
    | returnVoid =>
        rw [ht] at hterminator
        generalize b'.terminator = t' at hterminator
        cases Terminator.renames hterminator
        rfl
    | returnValue v =>
        rw [ht] at hterminator
        generalize b'.terminator = t' at hterminator
        cases Terminator.renames hterminator
        rfl
  have hblocks := hf.blockList
  unfold checkBlocks
  rw [hparameters, hterminators]
  generalize f.blocks.toList = l at hblocks
  generalize f'.blocks.toList = l' at hblocks
  cases hblocks with
  | nil => rfl
  | cons hb _ =>
      simp only [isEmpty_eq_of_forall₂ (mapM_eq_some_iff_forall₂.mp hb.parameters), h.functionName,
        hb.span]

omit h in
/-- The rule on return types judges alike functions alike. -/
theorem checkReturnType_alike (h : Alike V p q) :
    checkReturnType q id f' = checkReturnType p id f := by
  have hreturns := hf.returns
  rw [alikeNames_onTy] at hreturns
  rw [checkReturnType, ← Option.some.inj hreturns, h.functionName, hf.span, checkReturnType]

/-! ## Reads and writes -/

omit hf in
/-- Endpoints are of the same kind. -/
theorem kind_alike (m : ModuleId) (e : EndpointId) :
    ((q.moduleAt m).endpoints.get e).kind? = ((p.moduleAt m).endpoints.get e).kind? := by
  rw [endpoint_eq ((h.moduleAt m).endpoint e)]
  rfl

omit hf in
/-- Endpoints have the same details. -/
theorem details_alike (m : ModuleId) (e : EndpointId) :
    ((q.moduleAt m).endpoints.get e).details = ((p.moduleAt m).endpoints.get e).details := by
  rw [endpoint_eq ((h.moduleAt m).endpoint e)]

omit h hf in
/-- An element that is written to is judged by its type and its constant value, and alike programs
share both. -/
theorem checkElement_alike (span : Span) (name : String) (size : Option Nat) {e e' : Expr}
    (he : e.rename (alikeNames V p q).renamer = some e') :
    checkElement q span name size e' = checkElement p span name size e := by
  cases Expr.renames he with
  | @const c c' hc =>
      have hvalue : (q.constantAt c').asInt64? = (p.constantAt c).asInt64? := by
        obtain heq | ⟨t, t', hp, hq⟩ | ⟨t, vs, vs', hp, hq⟩ :=
          Value.mapParts_cases (Alike.constantAt hc)
        · rw [heq]
        · rw [hp, hq]
          rfl
        · rw [hp, hq]
          rfl
      cases size with
      | none => rfl
      | some n => simp only [checkElement, hvalue]
  | _ => cases size <;> rfl

/-- The rule on reads and writes judges alike statements alike. -/
theorem checkStatement_alike (span : Span) {s s' : Statement}
    (hs : s.rename (alikeNames V p q).renamer = some s') :
    checkStatement q id f' span s' = checkStatement p id f span s := by
  have hmodule := h.moduleAt f.owner
  -- writes with and without an index are judged by the same check, on the output of that name
  have hwrite : ∀ name {element element' value value'},
      Expr.renameOption (alikeNames V p q).renamer element = some element' →
      value.rename (alikeNames V p q).renamer = some value' →
      checkWrite q id f' span name element' value' = checkWrite p id f span name element value := by
    intro name element element' value value' helement hvalue
    have helements := Expr.renameOption_toList helement
    rw [Expr.renameList_eq_mapM] at helements
    have hnone : element'.isNone = element.isNone := by
      cases element with
      | none =>
          cases helement
          rfl
      | some e =>
          simp only [Expr.renameOption, Option.bind_eq_bind, Option.bind_eq_some_iff] at helement
          obtain ⟨x, -, hx⟩ := helement
          cases hx
          rfl
    have houtput : ((q.moduleAt f.owner).findOutput? name).bind
        (fun e => ((q.moduleAt f.owner).endpoints.get e).details) =
        ((p.moduleAt f.owner).findOutput? name).bind
          (fun e => ((p.moduleAt f.owner).endpoints.get e).details) := by
      simp only [Module.findOutput?, hmodule.findDirected?, details_alike h]
    simp only [checkWrite, owner_alike hf, houtput]
    generalize ((p.moduleAt f.owner).findOutput? name).bind
      (fun e => ((p.moduleAt f.owner).endpoints.get e).details) = details
    cases details with
    | none => rfl
    | some d =>
        have hwriter :
          checkWriter q id f' span name d.kind = checkWriter p id f span name d.kind := by
          simp only [checkWriter, hf.kind, h.functionName]
        simp only [hwriter, each_congr (mapM_eq_some_iff_forall₂.mp helements)
          fun _ _ he => checkElement_alike span name d.arraySize he, h.exprType hvalue, hnone,
          h.describe]
  cases Statement.renames hs with
  | read name _ =>
      have hinput : ((q.moduleAt f.owner).findInput? name).bind
          (fun e => ((q.moduleAt f.owner).endpoints.get e).kind?) =
          ((p.moduleAt f.owner).findInput? name).bind
            (fun e => ((p.moduleAt f.owner).endpoints.get e).kind?) := by
        simp only [Module.findInput?, hmodule.findDirected?, kind_alike h]
      simp only [checkStatement, checkRead, owner_alike hf, hinput, hf.kind, h.functionName]
  | write name hv => exact hwrite name rfl hv
  | writeElement name hi hv =>
      refine hwrite name ?_ hv
      simp [Expr.renameOption, hi]
  | _ => rfl

/-- The rule on reads and writes judges alike functions alike. -/
theorem checkStreams_alike : checkStreams q id f' = checkStreams p id f := by
  refine each_congr hf.blockList fun b b' hb => ?_
  rw [hb.span]
  exact each_congr (mapM_eq_some_iff_forall₂.mp hb.statements) fun s s' hs =>
    checkStatement_alike h id hf b.span hs

end

/-! ## Loops -/

omit h in
/-- A renaming that keeps blocks keeps the shape of a function, so it keeps its infinite loops. -/
theorem hasInfiniteLoop_of_renames {r : Renaming} (hr : r.onBlock = some) {f f' : Function}
    (hf : f.Renames r f') : f'.hasInfiniteLoop = f.hasInfiniteLoop := by
  have hterminator : ∀ k, (f'.blocks.get k).terminator.isReturn =
      (f.blocks.get k).terminator.isReturn ∧ (f'.blocks.get k).terminator.successors =
        (f.blocks.get k).terminator.successors := by
    intro k
    have hrename := (hf.blockAt k).terminator
    generalize (f'.blocks.get k).terminator = t' at hrename
    generalize (f.blocks.get k).terminator = t at hrename
    cases Terminator.renames hrename with
    | branch hb _ =>
        rw [hr] at hb
        cases hb
        exact ⟨rfl, rfl⟩
    | branchIf _ hb hk _ _ =>
        rw [hr] at hb hk
        cases hb
        cases hk
        exact ⟨rfl, rfl⟩
    | _ => exact ⟨rfl, rfl⟩
  have hsome : ∀ k, (f'.blocks.get? k).isSome = (f.blocks.get? k).isSome := by
    intro k
    have hget := Arena.get?_of_rename hf.blocks k
    cases hk : f.blocks.get? k with
    | none =>
        rw [hk] at hget
        rw [← Option.some.inj hget]
    | some b =>
        rw [hk] at hget
        simp at hget
        obtain ⟨b', -, hget⟩ := hget
        rw [← hget]
        rfl
  -- both parts of the search read only successors, returns and what advances
  have hstuck : f'.isStuckBlock = f.isStuckBlock := by
    funext k
    simp only [Function.isStuckBlock, hterminator, (hf.blockAt k).advances]
  have hreachable : f'.reachableBlocks = f.reachableBlocks := by
    simp only [Function.reachableBlocks, Function.entry?, hf.hasBody, hterminator, hsome,
      Arena.size_of_rename hf.blocks]
  rw [Function.hasInfiniteLoop, hf.hasBody, hstuck, hreachable, Function.hasInfiniteLoop]

/-- The rule on infinite loops judges alike programs alike. -/
theorem checkInfiniteLoops_alike : Link.checkInfiniteLoops q = Link.checkInfiniteLoops p := by
  unfold Link.checkInfiniteLoops
  obtain ⟨hp, hq⟩ | ⟨⟨id, f⟩, ⟨id', f'⟩, ⟨hid, hf⟩, hp, hq⟩ := find?_of_forall₂ h.functionEntries
    (u := (·.2.hasInfiniteLoop)) (v := (·.2.hasInfiniteLoop))
    fun _ _ hxy => hasInfiniteLoop_of_renames rfl hxy.2
  · rw [hp, hq]
  · cases hid
    have hspan : f'.span = f.span := hf.span
    rw [hp, hq]
    simp only [h.functionName, hspan]

/-- The rule on recursion judges alike programs alike. -/
theorem checkRecursion_alike : Link.checkRecursion q = Link.checkRecursion p := by
  simp only [Link.checkRecursion, h.recursion?, show q.functionName = p.functionName from
    funext h.functionName, fun g => (h.functionAt g).span]

/-! ## The main module -/

omit h in
/-- A flag is read off the value of a constant, not its number. -/
theorem flag_alike {a a' : Annotations} (ha : a.mapConstants (p.constantTo some q) = some a')
    (key : String) : a'.flag q.constants key = a.flag p.constants key ∧ a'.has key = a.has key := by
  have hall := mapM_eq_some_iff_forall₂.mp (Annotations.mapConstants_eq_some_iff.mp ha)
  have hkey : ∀ x y, Annotations.mapProperty (p.constantTo some q) x = some y →
      (y.1 == key) = (x.1 == key) := by
    intro x y hxy
    obtain ⟨c, -, rfl⟩ := Option.map_eq_some_iff.mp hxy
    rfl
  simp only [Annotations.flag, Annotations.value?, Annotations.has, Annotations.get?]
  obtain ⟨hp, hq⟩ | ⟨x, y, hxy, hp, hq⟩ := find?_of_forall₂ hall hkey
  · rw [hp, hq]
    exact ⟨rfl, rfl⟩
  · obtain ⟨c, hc, rfl⟩ := Option.map_eq_some_iff.mp hxy
    rw [hp, hq]
    simp only [constantTo, Option.bind_eq_bind, Option.bind_eq_some_iff] at hc
    obtain ⟨v, hv, v', hv', hfind⟩ := hc
    have hbool : v'.asBool? = v.asBool? := by
      obtain heq | ⟨t, t', hp, hq⟩ | ⟨t, vs, vs', hp, hq⟩ := Value.mapParts_cases hv'
      · rw [heq]
      · rw [hp, hq]
        rfl
      · rw [hp, hq]
        rfl
    have hget := Interner.get?_of_find? hfind
    simp [hv, hget, hbool]

/-- Alike programs have the same main module. -/
theorem mainModule?_alike (configured : Option String) :
    q.mainModule? configured = p.mainModule? configured := by
  have hrunnable := runnable_alike h
  have hfound : ∀ (u v : ModuleId × Module → Bool), (∀ x y, x.1 = y.1 ∧
      x.2.Renames (alikeNames V p q) y.2 → v y = u x) →
      (q.runnable.find? v).map (·.1) = (p.runnable.find? u).map (·.1) := by
    intro u v huv
    obtain ⟨hp, hq⟩ | ⟨x, y, hxy, hp, hq⟩ := find?_of_forall₂ hrunnable huv
    · rw [hp, hq]
    · rw [hp, hq]
      exact congrArg some hxy.1.symm
  cases configured with
  | some name => exact hfound _ _ fun x y hxy => by rw [hxy.2.name]
  | none =>
      simp only [mainModule?, Option.map_or, Option.orElse_eq_orElse, Option.orElse_eq_or]
      rw [hfound _ _ fun x y hxy => (flag_alike hxy.2.annotations mainKey).1,
        hfound _ _ fun x y hxy => by rw [(flag_alike hxy.2.annotations mainKey).2]]

/-- The rules run in the same context for alike programs. -/
theorem context_alike (settings : Settings) :
    Context.ofProgram q settings = Context.ofProgram p settings := by
  rw [Context.ofProgram, mainModule?_alike h, Context.ofProgram]

/-! ## All rules -/

/-- Every rule judges alike programs alike. -/
theorem rule_alike (c : Context) (rule : Rule) : rule.check q c = rule.check p c := by
  have hfunctions : ∀ check check' : FunctionId → Function → Verdict,
      (∀ id f f', f.Renames (alikeNames V p q) f' → check' id f' = check id f) →
      eachFunction q check' = eachFunction p check := by
    intro check check' hcheck
    refine each_congr h.functionEntries ?_
    rintro ⟨id, f⟩ ⟨_, f'⟩ ⟨rfl, hf⟩
    exact hcheck id f f' hf
  cases rule with
  | moduleStructure => exact checkModules_alike h c.settings c.main
  | advanceAndStreamCalls => exact hfunctions _ _ fun id _ _ hf => checkCalls_alike h id hf
  | connections =>
      simp only [Rule.check, h.graphs, show Rule.checkGraphConnections q c.settings =
        Rule.checkGraphConnections p c.settings from
          funext (checkGraphConnections_alike h c.settings)]
  | recursionAndStack =>
      simp only [Rule.check, checkRecursion_alike h, Link.checkStackSize, h.maximumStack?]
  | infiniteLoops => exact checkInfiniteLoops_alike h
  | blockParameters => exact hfunctions _ _ fun id _ _ hf => checkBlocks_alike h id hf
  | graphCycles =>
      simp only [Rule.check, h.graphs, fun g => checkFeedback_alike (h.moduleAt g)]
  | streamOperations => exact hfunctions _ _ fun id _ _ hf => checkStreams_alike h id hf
  | functionReturnTypes =>
      exact hfunctions _ _ fun id _ _ hf => checkReturnType_alike id hf h

/-- The verdict on alike programs is the same. -/
theorem checkProgram_alike (settings : Settings) :
    checkProgram q settings = checkProgram p settings := by
  have hrules : ∀ c, Rule.check q c = Rule.check p c := fun c => funext (rule_alike h c)
  simp only [checkProgram, checkRules, context_alike h, hrules]

end

end Check

end SignalGraph

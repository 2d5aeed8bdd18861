import SignalGraph.Heart.Print
import SignalGraph.Proofs.Program.AlikeReading

/-!
# SignalGraph.Proofs.Heart.AlikeTexts

Alike programs have the same text (`print_alike`): whatever a text shows of variables, constants and
texts, it shows by name or by value.
-/

namespace SignalGraph

open Program

variable {p q : Program} {V : VariableId → Option VariableId}

/-- A renaming that is injective keeps what is in a list. -/
theorem contains_of_mapM {α : Type} [BEq α] [LawfulBEq α] {f : α → Option α} {l l' : List α}
    (h : l.mapM f = some l') (hinj : ∀ ⦃a b c⦄, f a = some c → f b = some c → a = b) {a b : α}
    (hab : f a = some b) : l'.contains b = l.contains a := by
  rw [Bool.eq_iff_iff, List.contains_iff_mem, List.contains_iff_mem]
  constructor
  · intro hb
    obtain ⟨a', ha', hb'⟩ := exists_mem_of_mapM h hb
    exact hinj hb' hab ▸ ha'
  · exact fun ha => mem_of_mapM h ha hab

namespace Heart

/-! ## Constants -/

mutual

/-- A value and its counterpart are written alike, by recursion on the value. -/
theorem valueText_alike (h : Alike V p q) : ∀ v v' : Value, v.mapParts some (p.textTo q) = some v' →
    valueText q v' = valueText p v
  | .string id, v', hv => by
      simp only [Value.mapParts, Option.bind_eq_bind, Option.bind_eq_some_iff] at hv
      obtain ⟨t, ht, hv⟩ := hv
      cases hv
      rw [valueText, valueText, Alike.textAt ht]
  | .zero t, v', hv => by
      cases hv
      rw [valueText, valueText, h.describe]
  | .aggregate t vs, v', hv => by
      simp only [Value.mapParts, Option.bind_eq_bind, Option.bind_some, Option.bind_eq_some_iff]
        at hv
      obtain ⟨vs', hvs, hv⟩ := hv
      cases hv
      rw [valueText, valueText, h.describe, valueTexts_alike h vs vs' hvs]
  | .void, v', hv | .bool _, v', hv | .int32 _, v', hv | .int64 _, v', hv
  | .float32 _, v', hv | .float64 _, v', hv => by
      cases hv
      rw [valueText, valueText]

/-- Elements of alike aggregates are written alike. -/
theorem valueTexts_alike (h : Alike V p q) : ∀ vs vs' : List Value,
    Value.mapPartsList some (p.textTo q) vs = some vs' → valueTexts q vs' = valueTexts p vs
  | [], vs', hvs => by
      cases hvs
      rw [valueTexts, valueTexts]
  | v :: vs, vs', hvs => by
      simp only [Value.mapPartsList, Option.bind_eq_bind, Option.bind_eq_some_iff] at hvs
      obtain ⟨v', hv, vs', hvs, hcons⟩ := hvs
      cases hcons
      rw [valueTexts, valueTexts, valueText_alike h v v' hv, valueTexts_alike h vs vs' hvs]

end

section

variable (h : Alike V p q)

include h

/-- A constant and its counterpart are written alike. -/
theorem constantText_alike {c c' : ConstantId} (hc : p.constantTo some q c = some c') :
    constantText q c' = constantText p c := valueText_alike h _ _ (Alike.constantAt hc)

/-- Alike annotations are written alike. -/
theorem annotationsText_alike {a a' : Annotations}
    (ha : a.mapConstants (p.constantTo some q) = some a') :
    annotationsText q a' = annotationsText p a := by
  have hall := mapM_eq_some_iff_forall₂.mp (Annotations.mapConstants_eq_some_iff.mp ha)
  have hempty : a'.isEmpty = a.isEmpty := isEmpty_eq_of_forall₂ hall
  simp only [annotationsText, hempty]
  congr 4
  refine map_eq_of_forall₂ hall fun x y hxy => ?_
  simp only [Annotations.mapProperty, Option.map_eq_some_iff] at hxy
  obtain ⟨c, hc, rfl⟩ := hxy
  rw [constantText_alike h hc]

/-! ## Expressions -/

/-- A variable and its counterpart belong to modules of the same name, or to none. -/
theorem ownerOf?_alike {v v' : VariableId} (hv : V v = some v') :
    (ownerOf? q v').map (·.name) = (ownerOf? p v).map (·.name) := by
  have hall := mapM_eq_some_iff_forall₂.mp (Arena.rename_eq_some_iff.mp h.modules)
  have hgo : ∀ l l' : List Module, List.Forall₂
      (fun m m' => m.rename (alikeNames V p q) = some m') l l' →
      (l'.find? fun m => m.state.contains v' || m.parameters.contains v').map (·.name) =
        (l.find? fun m => m.state.contains v || m.parameters.contains v).map (·.name) := by
    intro l l' hall
    induction hall with
    | nil => rfl
    | cons hm _ ih =>
        have hm := Module.rename_eq_some_iff.mp hm
        rw [List.find?_cons, List.find?_cons, contains_of_mapM hm.state h.injective hv,
          contains_of_mapM hm.parameters h.injective hv]
        split
        · simp [hm.name]
        · exact ih
  exact hgo _ _ (List.rel_reverse hall)

/-- A variable and its counterpart are written alike. -/
theorem variableText_alike {v v' : VariableId} (hv : V v = some v') :
    variableText q v' = variableText p v := by
  have howner := ownerOf?_alike h hv
  have hname := (h.variableAt hv).name
  unfold variableText
  cases ho : ownerOf? p v <;> cases ho' : ownerOf? q v' <;> rw [ho, ho'] at howner <;>
    simp_all

end

mutual

/-- Alike expressions are written alike, by recursion on the expression. -/
theorem exprText_alike (h : Alike V p q) : ∀ e e' : Expr,
    e.rename (alikeNames V p q).renamer = some e' → exprText q e' = exprText p e
  | .var _, _, hrename => by
      cases Expr.renames hrename with
      | var hv => rw [exprText, exprText, variableText_alike h hv]
  | .const _, _, hrename => by
      cases Expr.renames hrename with
      | const hc => rw [exprText, exprText, constantText_alike h hc]
  | .element e _, _, hrename => by
      cases Expr.renames hrename with
      | element _ he => rw [exprText, exprText, exprText_alike h e _ he]
  | .elementAt e i, _, hrename => by
      cases Expr.renames hrename with
      | elementAt he hi => rw [exprText, exprText, exprText_alike h e _ he, exprText_alike h i _ hi]
  | .member e _, _, hrename => by
      cases Expr.renames hrename with
      | member _ he => rw [exprText, exprText, exprText_alike h e _ he]
  | .slice e _ _, _, hrename => by
      cases Expr.renames hrename with
      | slice _ _ he => rw [exprText, exprText, exprText_alike h e _ he]
  | .cast t e, _, hrename => by
      cases Expr.renames hrename with
      | cast ht he =>
          rw [alikeNames_onTy] at ht
          cases ht
          rw [exprText, exprText, h.describe, exprText_alike h e _ he]
  | .unary _ e, _, hrename => by
      cases Expr.renames hrename with
      | unary _ he => rw [exprText, exprText, exprText_alike h e _ he]
  | .binary _ x y, _, hrename => by
      cases Expr.renames hrename with
      | binary _ hx hy => rw [exprText, exprText, exprText_alike h x _ hx, exprText_alike h y _ hy]
  | .pureCall _ args, _, hrename => by
      cases Expr.renames hrename with
      | pureCall hf hargs =>
          cases hf
          rw [exprText, exprText, h.functionName, exprTexts_alike h args _ hargs]
  | .property _, _, hrename => by
      cases Expr.renames hrename
      rw [exprText, exprText]

/-- Alike arguments are written alike. -/
theorem exprTexts_alike (h : Alike V p q) : ∀ es es' : List Expr,
    Expr.renameList (alikeNames V p q).renamer es = some es' → exprTexts q es' = exprTexts p es
  | [], es', hes => by
      cases hes
      rw [exprTexts, exprTexts]
  | e :: es, es', hes => by
      obtain ⟨x, xs, hx, hxs, rfl⟩ := Expr.renameList_cons hes
      rw [exprTexts, exprTexts, exprText_alike h e x hx, exprTexts_alike h es xs hxs]

end

/-! ## Statements -/

section

variable (h : Alike V p q)

include h

/-- Alike calls are written alike. -/
theorem callText_alike (f : FunctionId) {args args' : List Expr}
    (hargs : Expr.renameList (alikeNames V p q).renamer args = some args') :
    callText q f args' = callText p f args := by
  rw [callText, callText, h.functionName, exprTexts_alike h _ _ hargs]

/-- Alike statements are written alike. -/
theorem statementText_alike {s s' : Statement}
    (hs : s.rename (alikeNames V p q).renamer = some s') :
    statementText q s' = statementText p s := by
  cases Statement.renames hs with
  | assign ht hv =>
      simp only [statementText, exprText_alike h _ _ ht, exprText_alike h _ _ hv]
      cases Expr.renames ht with
      | var hv => simp only [(h.variableAt hv).role]
      | _ => rfl
  | call hf hargs =>
      cases hf
      rw [statementText, statementText, callText_alike h _ hargs]
  | callTo ht hf hargs =>
      cases hf
      rw [statementText, statementText, callText_alike h _ hargs, exprText_alike h _ _ ht]
  | read _ ht => rw [statementText, statementText, exprText_alike h _ _ ht]
  | write _ hv => rw [statementText, statementText, exprText_alike h _ _ hv]
  | writeElement _ hi hv =>
      rw [statementText, statementText, exprText_alike h _ _ hi, exprText_alike h _ _ hv]
  | advance => rfl

/-- Blocks have the same labels in alike functions. -/
theorem targetText_alike {f f' : Function} (hf : f.Renames (alikeNames V p q) f') (b : BlockId)
    {args args' : List Expr}
    (hargs : Expr.renameList (alikeNames V p q).renamer args = some args') :
    targetText q f' b args' = targetText p f b args := by
  have hname := (hf.blockAt b).name
  have hempty : args'.isEmpty = args.isEmpty := by
    cases args with
    | nil =>
        cases hargs
        rfl
    | cons e es =>
        obtain ⟨_, _, -, -, rfl⟩ := Expr.renameList_cons hargs
        rfl
  simp only [targetText, hname, hempty, exprTexts_alike h _ _ hargs]

/-- Alike terminators are written alike. -/
theorem terminatorText_alike {f f' : Function} (hf : f.Renames (alikeNames V p q) f')
    {t t' : Terminator} (ht : t.rename (alikeNames V p q).renamer = some t') :
    terminatorText q f' t' = terminatorText p f t := by
  cases Terminator.renames ht with
  | branch hb hargs =>
      cases hb
      rw [terminatorText, terminatorText, targetText_alike h hf _ hargs]
  | branchIf hc hb hk hbs hks =>
      cases hb
      cases hk
      rw [terminatorText, terminatorText, exprText_alike h _ _ hc, targetText_alike h hf _ hbs,
        targetText_alike h hf _ hks]
  | returnVoid => rfl
  | returnValue hv => rw [terminatorText, terminatorText, exprText_alike h _ _ hv]

/-! ## Functions and modules -/

/-- Alike variables are declared alike. -/
theorem declarationText_alike {v v' : VariableId} (hv : V v = some v') :
    declarationText q v' = declarationText p v := by
  rw [declarationText, declarationText, h.describe, h.ty hv, (h.variableAt hv).name]

/-- Lists of alike variables are declared alike. -/
theorem declarationTexts_alike {l l' : List VariableId} (hl : l.mapM V = some l') :
    declarationTexts q l' = declarationTexts p l := by
  rw [declarationTexts, declarationTexts]
  exact congrArg commaSeparated (map_eq_of_forall₂ (mapM_eq_some_iff_forall₂.mp hl)
    fun _ _ hv => declarationText_alike h hv)

/-- Alike blocks are written alike. -/
theorem blockText_alike {f f' : Function} (hf : f.Renames (alikeNames V p q) f') {b b' : Block}
    (hb : b.Renames (alikeNames V p q) b') : blockText q f' b' = blockText p f b := by
  have hparameters := mapM_eq_some_iff_forall₂.mp hb.parameters
  have hstatements := map_eq_of_forall₂ (mapM_eq_some_iff_forall₂.mp hb.statements)
    (u := fun s => line 3 (statementText p s)) (v := fun s => line 3 (statementText q s))
    fun s s' hs => congrArg (line 3) (statementText_alike h hs)
  simp only [blockText, hb.name, isEmpty_eq_of_forall₂ hparameters,
    declarationTexts_alike h hb.parameters, hstatements, terminatorText_alike h hf hb.terminator]

/-- Alike functions are written alike. -/
theorem functionText_alike {f f' : Function} (hf : f.Renames (alikeNames V p q) f') :
    functionText q f' = functionText p f := by
  have hreturns : f'.returns = f.returns := by
    have hreturns := hf.returns
    rw [alikeNames_onTy] at hreturns
    exact (Option.some.inj hreturns).symm
  have hlocals := map_eq_of_forall₂ (mapM_eq_some_iff_forall₂.mp hf.locals)
    (u := fun v => line 2 (localText p v)) (v := fun v => line 2 (localText q v))
    fun v v' hv => by
      rw [localText, localText, (h.variableAt hv).role, declarationText_alike h hv]
  have hblocks := map_eq_of_forall₂ hf.blockList (u := blockText p f) (v := blockText q f')
    fun b b' hb => blockText_alike h hf hb
  simp only [functionText, hf.name, hf.kind, declarationTexts_alike h hf.parameters, h.describe,
    hreturns, annotationsText_alike h hf.annotations, hf.hasBody, hlocals, hblocks]

/-- A struct is written alike in alike programs. -/
theorem structText_alike (s : Structure) : structText q s = structText p s := by
  simp only [structText, h.describe]

/-- Alike endpoints are written alike. -/
theorem endpointText_alike {e e' : Endpoint} (he : e.Renames (alikeNames V p q) e') :
    endpointText q e' = endpointText p e := by
  have hannotations := annotationsText_alike h he.annotations
  have hdescribe : q.describe = p.describe := funext h.describe
  rw [endpoint_eq he]
  simp only [endpointText, detailsText, hannotations, hdescribe]

/-- Alike state variables are written alike. -/
theorem stateText_alike {v v' : VariableId} (hv : V v = some v') :
    stateText q (q.variableAt v') = stateText p (p.variableAt v) := by
  have hvariable := h.variableAt hv
  have hinitial : ((q.variableAt v').initial.map (constantText q)) =
      (p.variableAt v).initial.map (constantText p) := by
    have hinitial := hvariable.initial
    cases hi : (p.variableAt v).initial with
    | none =>
        rw [hi] at hinitial
        rw [← Option.some.inj hinitial]
        rfl
    | some c =>
        rw [hi] at hinitial
        simp at hinitial
        obtain ⟨c', hc, hinitial⟩ := hinitial
        rw [← hinitial]
        simp [constantText_alike h hc]
  simp only [stateText, hvariable.role, h.ty hv, h.describe, hvariable.name,
    annotationsText_alike h hvariable.annotations]
  cases hi : (p.variableAt v).initial <;> cases hi' : (q.variableAt v').initial <;>
    rw [hi, hi'] at hinitial <;> simp_all

/-- Alike nodes are written alike. -/
theorem nodeText_alike {n n' : Node} (hn : n.Renames (alikeNames V p q) n') :
    nodeText q n' = nodeText p n := by
  have hargs := mapM_eq_some_iff_forall₂.mp hn.args
  have htexts := map_eq_of_forall₂ hargs fun c c' hc => constantText_alike h hc
  simp only [nodeText, isEmpty_eq_of_forall₂ hargs, htexts, hn.clock, hn.name, hn.source,
    hn.arraySize]

omit h in
/-- Connections are written by the names of nodes and endpoints, which alike modules share. -/
theorem connectionText_alike {r : Renaming} {m m' : Module} (hm : m.Renames r m') (c : Connection) :
    connectionText m' c = connectionText m c := by
  have href : endpointRefText m' = endpointRefText m := by
    funext x
    have hname : ∀ k, (m'.nodes.get? k).map (·.name) = (m.nodes.get? k).map (·.name) := by
      intro k
      have hget := Arena.get?_of_rename hm.nodes k
      cases hk : m.nodes.get? k with
      | none =>
          rw [hk] at hget
          rw [← Option.some.inj hget]
      | some n =>
          rw [hk] at hget
          simp at hget
          obtain ⟨n', hn, hget⟩ := hget
          rw [← hget]
          simp [(Node.rename_eq_some_iff.mp hn).name]
    simp only [endpointRefText, hname]
  unfold connectionText
  rw [href]

/-- Alike modules are written alike. -/
theorem moduleText_alike {m m' : Module} (hm : m.Renames (alikeNames V p q) m') :
    moduleText q m' = moduleText p m := by
  have hstructs := hm.structs
  have hfunctions := hm.functions
  rw [alikeNames_onStruct, mapM_some] at hstructs
  rw [alikeNames_onFunction, mapM_some] at hfunctions
  have hendpoints := map_eq_of_forall₂ (Arena.forall₂_of_rename hm.endpoints)
    (u := fun e => line 1 (endpointText p e)) (v := fun e => line 1 (endpointText q e))
    fun e e' he => congrArg (line 1) (endpointText_alike h (Endpoint.rename_eq_some_iff.mp he))
  have hparameters := map_eq_of_forall₂ (mapM_eq_some_iff_forall₂.mp hm.parameters)
    (u := fun v => line 1 ("param " ++ declarationText p v ++ ";"))
    (v := fun v => line 1 ("param " ++ declarationText q v ++ ";"))
    fun v v' hv => by rw [declarationText_alike h hv]
  have hstate := map_eq_of_forall₂ (mapM_eq_some_iff_forall₂.mp hm.state)
    (u := fun v => line 1 (stateText p (p.variableAt v)))
    (v := fun v => line 1 (stateText q (q.variableAt v)))
    fun v v' hv => congrArg (line 1) (stateText_alike h hv)
  have hnodes := map_eq_of_forall₂ (Arena.forall₂_of_rename hm.nodes)
    (u := fun n => line 1 (nodeText p n)) (v := fun n => line 1 (nodeText q n))
    fun n n' hn => congrArg (line 1) (nodeText_alike h (Node.rename_eq_some_iff.mp hn))
  have hbodies : ∀ f, functionText q (q.functionAt f) = functionText p (p.functionAt f) :=
    fun f => functionText_alike h (h.functionAt f)
  simp only [moduleText, hm.kind, hm.name, annotationsText_alike h hm.annotations,
    ← Option.some.inj hstructs, h.structAt, structText_alike h, hendpoints, hparameters, hstate,
    hnodes, hm.connections, connectionText_alike hm, ← Option.some.inj hfunctions, hbodies]

/-- Alike programs have the same text. -/
theorem print_alike : print q = print p := by
  have hmodules := map_eq_of_forall₂ (Arena.forall₂_of_rename h.modules)
    (u := fun m => "\n" ++ moduleText p m) (v := fun m => "\n" ++ moduleText q m)
    fun m m' hm => congrArg ("\n" ++ ·) (moduleText_alike h (Module.rename_eq_some_iff.mp hm))
  rw [print, hmodules, print]

end

end Heart

end SignalGraph

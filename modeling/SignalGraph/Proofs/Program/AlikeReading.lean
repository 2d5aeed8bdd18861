import SignalGraph.Link.CallGraph
import SignalGraph.Program.Typing
import SignalGraph.Proofs.Program.Alike

/-!
# SignalGraph.Proofs.Program.AlikeReading

What alike programs have in common.  They have the same modules but for annotations, arguments of
nodes and names of variables, so look-ups by name give the same handles; expressions that correspond
have the same type, and functions that correspond call the same functions and take as much space.
-/

namespace SignalGraph

/-! ## Tables place by place -/

section

variable {e : Entity} {α β : Type} {f : α → Option α} {a b : Arena e α}

/-- A renamed table has entries under the same handles. -/
theorem Arena.entries_of_rename (h : a.rename f = some b) :
    List.Forall₂ (fun x y => x.1 = y.1 ∧ f x.2 = some y.2) a.entries b.entries := by
  have hall := mapM_eq_some_iff_forall₂.mp (Arena.rename_eq_some_iff.mp h)
  have hgo : ∀ (l l' : List α) (n : Nat), List.Forall₂ (fun x y => f x = some y) l l' →
      List.Forall₂ (fun x y => x.1 = y.1 ∧ f x.2 = some y.2)
        ((l.zipIdx n).map fun x => ((⟨x.2⟩, x.1) : Handle e × α))
        ((l'.zipIdx n).map fun x => ((⟨x.2⟩, x.1) : Handle e × α)) := by
    intro l l' n hall
    induction hall generalizing n with
    | nil => exact .nil
    | cons hxy _ ih => exact .cons ⟨rfl, hxy⟩ (ih (n + 1))
  exact hgo _ _ 0 hall

/-- A renamed table has the same handles. -/
theorem Arena.handles_of_rename (h : a.rename f = some b) : b.handles = a.handles := by
  have hsize := Arena.size_of_rename h
  simp only [Arena.size] at hsize
  simp only [Arena.handles, hsize]

/-- Entries that correspond are found together. -/
theorem Arena.find?_of_rename (h : a.rename f = some b) {s : α → Bool}
    (hs : ∀ x y, f x = some y → s y = s x) : b.find? s = a.find? s := by
  refine Arena.find?_congr (Arena.size_of_rename h) fun k y x hy hx => hs x y ?_
  have hget := Arena.get?_of_rename h k
  rw [hx, hy] at hget
  simpa using hget

/-- Functions that agree on related elements give the same list. -/
theorem map_eq_of_forall₂ {γ δ : Type} {φ : γ → δ → Prop} {l : List γ} {l' : List δ} {u : γ → β}
    {v : δ → β} (h : List.Forall₂ φ l l') (huv : ∀ x y, φ x y → v y = u x) :
    l'.map v = l.map u := by
  induction h with
  | nil => rfl
  | cons hxy _ ih => rw [List.map_cons, List.map_cons, huv _ _ hxy, ih]

/-- Related lists are empty together. -/
theorem isEmpty_eq_of_forall₂ {γ δ : Type} {φ : γ → δ → Prop} {l : List γ} {l' : List δ}
    (h : List.Forall₂ φ l l') : l'.isEmpty = l.isEmpty := by
  cases h <;> rfl

/-- Conditions that agree on related elements are met by some of them together. -/
theorem any_eq_of_forall₂ {γ δ : Type} {φ : γ → δ → Prop} {l : List γ} {l' : List δ}
    {u : γ → Bool} {v : δ → Bool} (h : List.Forall₂ φ l l') (huv : ∀ x y, φ x y → v y = u x) :
    l'.any v = l.any u := by
  induction h with
  | nil => rfl
  | cons hxy _ ih => rw [List.any_cons, List.any_cons, huv _ _ hxy, ih]

/-- Conditions that agree on related elements leave related lists. -/
theorem filter_of_forall₂ {γ δ : Type} {φ : γ → δ → Prop} {l : List γ} {l' : List δ}
    {u : γ → Bool} {v : δ → Bool} (h : List.Forall₂ φ l l') (huv : ∀ x y, φ x y → v y = u x) :
    List.Forall₂ φ (l.filter u) (l'.filter v) := by
  induction h with
  | nil => exact .nil
  | @cons x y _ _ hxy _ ih =>
      rw [List.filter_cons, List.filter_cons, huv x y hxy]
      split
      · exact .cons hxy ih
      · exact ih

/-- A renamed table lists the renamed entries. -/
theorem Arena.forall₂_of_rename (h : a.rename f = some b) :
    List.Forall₂ (fun x y => f x = some y) a.toList b.toList :=
  mapM_eq_some_iff_forall₂.mp (Arena.rename_eq_some_iff.mp h)

/-- A renamed table is empty if the table was. -/
theorem Arena.isEmpty_of_rename (h : a.rename f = some b) : b.isEmpty = a.isEmpty := by
  have hempty := isEmpty_eq_of_forall₂ (Arena.forall₂_of_rename h)
  simpa [Arena.isEmpty, Arena.toList] using hempty

end

section

variable {α β γ : Type} {φ : α → β → Prop} {l : List α} {l' : List β}

/-- Partial functions that agree on related elements give the same list. -/
theorem filterMap_eq_of_forall₂ {u : α → Option γ} {v : β → Option γ} (h : List.Forall₂ φ l l')
    (huv : ∀ x y, φ x y → v y = u x) : l'.filterMap v = l.filterMap u := by
  induction h with
  | nil => rfl
  | cons hxy _ ih => rw [List.filterMap_cons, List.filterMap_cons, huv _ _ hxy, ih]

/-- Functions into lists that agree on related elements give the same list. -/
theorem flatMap_eq_of_forall₂ {u : α → List γ} {v : β → List γ} (h : List.Forall₂ φ l l')
    (huv : ∀ x y, φ x y → v y = u x) : l'.flatMap v = l.flatMap u := by
  induction h with
  | nil => rfl
  | cons hxy _ ih => rw [List.flatMap_cons, List.flatMap_cons, huv _ _ hxy, ih]

/-- Conditions that agree on related elements find related ones, or both find none. -/
theorem find?_of_forall₂ {u : α → Bool} {v : β → Bool} (h : List.Forall₂ φ l l')
    (huv : ∀ x y, φ x y → v y = u x) : (l.find? u = none ∧ l'.find? v = none) ∨
      ∃ x y, φ x y ∧ l.find? u = some x ∧ l'.find? v = some y := by
  induction h with
  | nil => exact .inl ⟨rfl, rfl⟩
  | @cons x y _ _ hxy _ ih =>
      rw [List.find?_cons, List.find?_cons, huv x y hxy]
      split
      · exact .inr ⟨x, y, hxy, rfl, rfl⟩
      · exact ih

end

/-! ## Syntax, one level at a time -/

section

variable {r : Renaming}

/-- What the second expression, which is the first one renamed, looks like from outside. -/
inductive Expr.Renames (r : Renaming) : Expr → Expr → Prop
  | var {v v'} (hv : r.onVariable v = some v') : Renames r (.var v) (.var v')
  | const {c c'} (hc : r.onConstant c = some c') : Renames r (.const c) (.const c')
  | element {e e'} (i : Nat) (he : e.rename r.renamer = some e') :
    Renames r (.element e i) (.element e' i)
  | elementAt {e e' i i'} (he : e.rename r.renamer = some e') (hi : i.rename r.renamer = some i') :
    Renames r (.elementAt e i) (.elementAt e' i')
  | member {e e'} (name : String) (he : e.rename r.renamer = some e') :
    Renames r (.member e name) (.member e' name)
  | slice {e e'} (start stop : Nat) (he : e.rename r.renamer = some e') :
    Renames r (.slice e start stop) (.slice e' start stop)
  | cast {t t' e e'} (ht : r.onTy t = some t') (he : e.rename r.renamer = some e') :
    Renames r (.cast t e) (.cast t' e')
  | unary {e e'} (op : UnaryOp) (he : e.rename r.renamer = some e') :
    Renames r (.unary op e) (.unary op e')
  | binary {x x' y y'} (op : BinaryOp) (hx : x.rename r.renamer = some x')
      (hy : y.rename r.renamer = some y') : Renames r (.binary op x y) (.binary op x' y')
  | pureCall {f f' args args'} (hf : r.onFunction f = some f')
      (hargs : Expr.renameList r.renamer args = some args') :
    Renames r (.pureCall f args) (.pureCall f' args')
  | property (x : Property) : Renames r (.property x) (.property x)

/-- A renamed expression has the same head, with renamed parts. -/
theorem Expr.renames {e e' : Expr} (h : e.rename r.renamer = some e') : e.Renames r e' := by
  cases e <;> simp only [Expr.rename, Option.bind_eq_bind, Option.bind_eq_some_iff] at h
  case var v =>
    obtain ⟨v', hv, h⟩ := h
    cases h
    exact .var hv
  case const c =>
    obtain ⟨c', hc, h⟩ := h
    cases h
    exact .const hc
  case element e i =>
    obtain ⟨e', he, h⟩ := h
    cases h
    exact .element i he
  case member e name =>
    obtain ⟨e', he, h⟩ := h
    cases h
    exact .member name he
  case slice e start stop =>
    obtain ⟨e', he, h⟩ := h
    cases h
    exact .slice start stop he
  case unary op e =>
    obtain ⟨e', he, h⟩ := h
    cases h
    exact .unary op he
  case elementAt e i =>
    obtain ⟨e', he, i', hi, h⟩ := h
    cases h
    exact .elementAt he hi
  case binary op x y =>
    obtain ⟨x', hx, y', hy, h⟩ := h
    cases h
    exact .binary op hx hy
  case cast t e =>
    obtain ⟨t', ht, e', he, h⟩ := h
    cases h
    exact .cast ht he
  case pureCall f args =>
    obtain ⟨f', hf, args', hargs, h⟩ := h
    cases h
    exact .pureCall hf hargs
  case property x =>
    cases h
    exact .property x

/-- Renamed arguments, the first one apart. -/
theorem Expr.renameList_cons {e : Expr} {es es' : List Expr}
    (h : Expr.renameList r.renamer (e :: es) = some es') :
    ∃ x xs, e.rename r.renamer = some x ∧ Expr.renameList r.renamer es = some xs ∧
      es' = x :: xs := by
  simp only [Expr.renameList, Option.bind_eq_bind, Option.bind_eq_some_iff] at h
  obtain ⟨x, hx, xs, hxs, h⟩ := h
  cases h
  exact ⟨x, xs, hx, hxs, rfl⟩

/-- What the second statement, which is the first one renamed, looks like from outside. -/
inductive Statement.Renames (r : Renaming) : Statement → Statement → Prop
  | assign {t t' v v'} (ht : t.rename r.renamer = some t') (hv : v.rename r.renamer = some v') :
    Renames r (.assign t v) (.assign t' v')
  | call {f f' args args'} (hf : r.onFunction f = some f')
      (hargs : Expr.renameList r.renamer args = some args') :
    Renames r (.call none f args) (.call none f' args')
  | callTo {t t' f f' args args'} (ht : t.rename r.renamer = some t')
      (hf : r.onFunction f = some f') (hargs : Expr.renameList r.renamer args = some args') :
    Renames r (.call (some t) f args) (.call (some t') f' args')
  | read {t t'} (endpoint : String) (ht : t.rename r.renamer = some t') :
    Renames r (.read t endpoint) (.read t' endpoint)
  | write {v v'} (endpoint : String) (hv : v.rename r.renamer = some v') :
    Renames r (.write endpoint none v) (.write endpoint none v')
  | writeElement {i i' v v'} (endpoint : String) (hi : i.rename r.renamer = some i')
      (hv : v.rename r.renamer = some v') :
    Renames r (.write endpoint (some i) v) (.write endpoint (some i') v')
  | advance : Renames r .advance .advance

/-- A renamed statement has the same head, with renamed parts. -/
theorem Statement.renames {s s' : Statement} (h : s.rename r.renamer = some s') :
    s.Renames r s' := by
  cases s <;> simp only [Statement.rename, Option.bind_eq_bind, Option.bind_eq_some_iff] at h
  case assign t v =>
    obtain ⟨t', ht, v', hv, h⟩ := h
    cases h
    exact .assign ht hv
  case call t f args =>
    obtain ⟨t', ht, f', hf, args', hargs, h⟩ := h
    cases h
    cases t with
    | none =>
        cases ht
        exact .call hf hargs
    | some t =>
        simp only [Expr.renameOption, Option.bind_eq_bind, Option.bind_eq_some_iff] at ht
        obtain ⟨x, hx, ht⟩ := ht
        cases ht
        exact .callTo hx hf hargs
  case read t endpoint =>
    obtain ⟨t', ht, h⟩ := h
    cases h
    exact .read endpoint ht
  case write endpoint i v =>
    obtain ⟨i', hi, v', hv, h⟩ := h
    cases h
    cases i with
    | none =>
        cases hi
        exact .write endpoint hv
    | some i =>
        simp only [Expr.renameOption, Option.bind_eq_bind, Option.bind_eq_some_iff] at hi
        obtain ⟨x, hx, hi⟩ := hi
        cases hi
        exact .writeElement endpoint hx hv
  case advance =>
    cases h
    exact .advance

/-- What the second terminator, which is the first one renamed, looks like from outside. -/
inductive Terminator.Renames (r : Renaming) : Terminator → Terminator → Prop
  | branch {b b' args args'} (hb : r.onBlock b = some b')
      (hargs : Expr.renameList r.renamer args = some args') :
    Renames r (.branch b args) (.branch b' args')
  | branchIf {c c' b b' bs bs' k k' ks ks'} (hc : c.rename r.renamer = some c')
      (hb : r.onBlock b = some b') (hk : r.onBlock k = some k')
      (hbs : Expr.renameList r.renamer bs = some bs')
      (hks : Expr.renameList r.renamer ks = some ks') :
    Renames r (.branchIf c b bs k ks) (.branchIf c' b' bs' k' ks')
  | returnVoid : Renames r .returnVoid .returnVoid
  | returnValue {v v'} (hv : v.rename r.renamer = some v') :
    Renames r (.returnValue v) (.returnValue v')

/-- A renamed terminator has the same head, with renamed parts. -/
theorem Terminator.renames {t t' : Terminator} (h : t.rename r.renamer = some t') :
    t.Renames r t' := by
  cases t <;> simp only [Terminator.rename, Option.bind_eq_bind, Option.bind_eq_some_iff] at h
  case branch b args =>
    obtain ⟨b', hb, args', hargs, h⟩ := h
    cases h
    exact .branch hb hargs
  case branchIf c b bs k ks =>
    obtain ⟨c', hc, b', hb, k', hk, bs', hbs, ks', hks, h⟩ := h
    cases h
    exact .branchIf hc hb hk hbs hks
  case returnVoid =>
    cases h
    exact .returnVoid
  case returnValue v =>
    obtain ⟨v', hv, h⟩ := h
    cases h
    exact .returnValue hv

end

namespace Program

variable {p q : Program} {V : VariableId → Option VariableId}

/-! ## Parts of modules -/

/-- Details of endpoints mention structs only, and those have the same names in alike programs. -/
theorem detailsRename_alikeNames : EndpointDetails.rename (alikeNames V p q) = some := by
  funext d
  simp [EndpointDetails.rename]

/-- Alike endpoints differ in their annotations only. -/
theorem endpoint_eq {e e' : Endpoint} (h : e.Renames (alikeNames V p q) e') :
    e' = { e with annotations := e'.annotations } := by
  obtain ⟨hname, hdirection, hdetails, -, hpath, hexposed, hspan⟩ := h
  rw [detailsRename_alikeNames, optionMapM_some] at hdetails
  cases e'
  simp_all

/-- Alike nodes differ in their arguments only. -/
theorem node_eq {r : Renaming} {n n' : Node} (h : n.Renames r n') :
    n' = { n with args := n'.args } := by
  obtain ⟨hname, hsource, -, hsize, hclock, hspan⟩ := h
  cases n'
  simp_all

end Program

/-! ## Modules -/

namespace Module.Renames

variable {r : Renaming} {m m' : Module} (h : m.Renames r m')

include h

/-- Alike modules are of the same kind. -/
theorem isGraph : m'.isGraph = m.isGraph := by rw [Module.isGraph, h.kind, Module.isGraph]

theorem isNamespace : m'.isNamespace = m.isNamespace := by
  rw [Module.isNamespace, h.kind, Module.isNamespace]

theorem isProcessor : m'.isProcessor = m.isProcessor := by
  rw [Module.isProcessor, h.kind, Module.isProcessor]

/-- A handle leads to alike endpoints of alike modules. -/
theorem endpoint (k : EndpointId) : (m.endpoints.get k).Renames r (m'.endpoints.get k) :=
  Endpoint.rename_eq_some_iff.mp (Arena.get_of_rename (f := Endpoint.rename r) rfl h.endpoints k)

/-- A handle leads to alike nodes of alike modules. -/
theorem node (k : NodeId) : (m.nodes.get k).Renames r (m'.nodes.get k) :=
  Node.rename_eq_some_iff.mp (Arena.get_of_rename (f := Node.rename r) rfl h.nodes k)

/-- Endpoints are found by name and direction, which alike modules share. -/
theorem findDirected? (direction : Direction) (name : String) :
    m'.findDirected? direction name = m.findDirected? direction name := by
  refine Arena.find?_of_rename h.endpoints fun e e' he => ?_
  have he := Endpoint.rename_eq_some_iff.mp he
  rw [he.name, he.direction]

/-- Endpoints are found by name, which alike modules share. -/
theorem findEndpoint? (name : String) : m'.findEndpoint? name = m.findEndpoint? name :=
  Arena.find?_of_rename h.endpoints fun e e' he => by
    rw [(Endpoint.rename_eq_some_iff.mp he).name]

/-- Nodes are found by name, which alike modules share. -/
theorem findNode? (name : String) : m'.findNode? name = m.findNode? name :=
  Arena.find?_of_rename h.nodes fun n n' hn => by rw [(Node.rename_eq_some_iff.mp hn).name]

/-- Alike modules have the same connections. -/
theorem hasConnection (c : Connection) : m'.hasConnection c = m.hasConnection c := by
  rw [Module.hasConnection, h.connections, Module.hasConnection]

theorem nodeHandles : m'.nodes.handles = m.nodes.handles := Arena.handles_of_rename h.nodes

/-- Alike modules instantiate modules of the same names. -/
theorem sources : m'.nodes.toList.map (·.source) = m.nodes.toList.map (·.source) :=
  map_eq_of_forall₂ (Arena.forall₂_of_rename h.nodes) fun _ _ hn =>
    (Node.rename_eq_some_iff.mp hn).source

end Module.Renames

namespace Function.Renames

variable {r : Renaming} {f f' : Function} (h : f.Renames r f')

include h

/-- Alike functions have blocks, or neither has. -/
theorem hasBody : f'.hasBody = f.hasBody := by
  rw [Function.hasBody, Arena.isEmpty_of_rename h.blocks, Function.hasBody]

/-- A handle leads to alike blocks of alike functions. -/
theorem blockAt (k : BlockId) : (f.blocks.get k).Renames r (f'.blocks.get k) :=
  Block.rename_eq_some_iff.mp (Arena.get_of_rename (f := Block.rename r) rfl h.blocks k)

/-- Alike functions have alike blocks, one by one. -/
theorem blockList : List.Forall₂ (Block.Renames r) f.blocks.toList f'.blocks.toList :=
  (Arena.forall₂_of_rename h.blocks).imp fun _ _ hb => Block.rename_eq_some_iff.mp hb

end Function.Renames

namespace Program.Alike

variable {p q : Program} {V : VariableId → Option VariableId} (h : Alike V p q)

include h

/-- Alike programs have modules under the same handles. -/
theorem handles : q.modules.handles = p.modules.handles := Arena.handles_of_rename h.modules

theorem size : q.modules.size = p.modules.size := Arena.size_of_rename h.modules

/-- Modules under the same handle are alike. -/
theorem entries : List.Forall₂ (fun x y => x.1 = y.1 ∧ x.2.Renames (alikeNames V p q) y.2)
    p.modules.entries q.modules.entries :=
  (Arena.entries_of_rename h.modules).imp fun _ _ hx => ⟨hx.1, Module.rename_eq_some_iff.mp hx.2⟩

/-- Modules are found by name, which alike programs share. -/
theorem findModule? (name : String) : q.findModule? name = p.findModule? name :=
  Arena.find?_of_rename h.modules fun _ _ hm => by rw [(Module.rename_eq_some_iff.mp hm).name]

/-- Alike programs have the same graphs. -/
theorem graphs : q.graphs = p.graphs := by
  refine map_eq_of_forall₂ (filter_of_forall₂ h.entries fun _ _ hx => hx.2.isGraph) ?_
  exact fun _ _ hx => hx.1.symm

/-- Modules list the same structs. -/
theorem moduleStructs (id : ModuleId) : (q.moduleAt id).structs = (p.moduleAt id).structs := by
  have hstructs := (h.moduleAt id).structs
  rw [alikeNames_onStruct, mapM_some] at hstructs
  exact (Option.some.inj hstructs).symm

/-- Modules list the same functions. -/
theorem moduleFunctions (id : ModuleId) :
    (q.moduleAt id).functions = (p.moduleAt id).functions := by
  have hfunctions := (h.moduleAt id).functions
  rw [alikeNames_onFunction, mapM_some] at hfunctions
  exact (Option.some.inj hfunctions).symm

/-- Alike programs have functions under the same handles. -/
theorem functionHandles : q.functions.handles = p.functions.handles :=
  Arena.handles_of_rename h.functions

/-- Functions under the same handle are alike. -/
theorem functionEntries : List.Forall₂ (fun x y => x.1 = y.1 ∧ x.2.Renames (alikeNames V p q) y.2)
    p.functions.entries q.functions.entries :=
  (Arena.entries_of_rename h.functions).imp fun _ _ hx =>
    ⟨hx.1, Function.rename_eq_some_iff.mp hx.2⟩

/-- Functions under the same handle have the same owner. -/
theorem owner (f : FunctionId) : (q.functionAt f).owner = (p.functionAt f).owner :=
  (Option.some.inj (h.functionAt f).owner).symm

/-- Functions under the same handle have the same return type. -/
theorem returns (f : FunctionId) : (q.functionAt f).returns = (p.functionAt f).returns := by
  have hreturns := (h.functionAt f).returns
  rw [alikeNames_onTy] at hreturns
  exact (Option.some.inj hreturns).symm

/-- A variable and its counterpart have the same type. -/
theorem ty {v v' : VariableId} (hv : V v = some v') :
    (q.variableAt v').ty = (p.variableAt v).ty := by
  have hty := (h.variableAt hv).ty
  rw [alikeNames_onTy] at hty
  exact (Option.some.inj hty).symm

end Program.Alike

end SignalGraph

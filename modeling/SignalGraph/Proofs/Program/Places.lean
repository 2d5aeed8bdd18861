import SignalGraph.Diagnostic.Basic
import SignalGraph.Program.Basic
import SignalGraph.Proofs.Handle

/-!
# SignalGraph.Proofs.Program.Places

The places in the source text that a program remembers: where its modules stand, their endpoints,
nodes and connections, and its functions and their blocks.  `Program.Placed good` says that all of
these have a property; changes of a program that bring in no other places keep it.
-/

namespace SignalGraph

namespace Arena

variable {e : Entity} {α : Type} {P : α → Prop} {a : Arena e α}

/-- Every entry has the property. -/
def All (P : α → Prop) (a : Arena e α) : Prop := ∀ x ∈ a.toList, P x

theorem all_empty : All P (∅ : Arena e α) := nofun

/-- A new entry keeps the property if it has it. -/
theorem All.push (h : a.All P) {x : α} (hx : P x) : (a.push x).All P := by
  intro y hy
  rw [toList_push, List.mem_append, List.mem_singleton] at hy
  rcases hy with hy | rfl
  · exact h y hy
  · exact hx

/-- What a handle leads to has the property. -/
theorem All.of_get? (h : a.All P) {k : Handle e} {x : α} (hx : a.get? k = some x) : P x :=
  h x (mem_toList_iff.mpr ⟨k, hx⟩)

/-- Every entry has the property. -/
theorem All.of_mem_entries (h : a.All P) {x : Handle e × α} (hx : x ∈ a.entries) : P x.2 :=
  h.of_get? (mem_entries_iff.mp hx)

/-- A change keeps the property if it keeps it of each entry. -/
theorem All.modify (h : a.All P) {k : Handle e} {f : α → α} (hf : ∀ x, P x → P (f x)) :
    (a.modify k f).All P := by
  intro y hy
  obtain ⟨j, hj⟩ := mem_toList_iff.mp hy
  rw [get?_modify] at hj
  split at hj
  · obtain ⟨x, hx, rfl⟩ := Option.map_eq_some_iff.mp hj
    exact hf x (h.of_get? hx)
  · exact h.of_get? hj

/-- An entry that is not there reads as the default one. -/
theorem All.get [Inhabited α] (h : a.All P) (hdefault : P default) (k : Handle e) :
    P (a.get k) := by
  unfold Arena.get
  cases hk : a.get? k with
  | none => exact hdefault
  | some x => exact h.of_get? hk

end Arena

variable (good : Span → Prop)

/-- The module and its endpoints, nodes and connections stand at good places. -/
structure Module.Placed (m : Module) : Prop where
  span : good m.span
  endpoints : m.endpoints.All fun e => good e.span
  nodes : m.nodes.All fun n => good n.span
  connections : m.connections.All fun c => good c.span

/-- The function and its blocks stand at good places. -/
structure Function.Placed (f : Function) : Prop where
  span : good f.span
  blocks : f.blocks.All fun b => good b.span

/-- All modules and functions of the program stand at good places. -/
structure Program.Placed (p : Program) : Prop where
  modules : p.modules.All (Module.Placed good)
  functions : p.functions.All (Function.Placed good)

variable {good}

/-- The empty program stands nowhere. -/
theorem Program.placed_empty : Program.Placed good {} := ⟨Arena.all_empty, Arena.all_empty⟩

/-- Every program stands somewhere. -/
theorem Program.placed_true (p : Program) : p.Placed fun _ => True where
  modules _ _ := ⟨trivial, fun _ _ => trivial, fun _ _ => trivial, fun _ _ => trivial⟩
  functions _ _ := ⟨trivial, fun _ _ => trivial⟩

/-! ## Default entries -/

section

variable (hdummy : good .dummy)

include hdummy

theorem Module.placed_default : Module.Placed good default :=
  ⟨hdummy, Arena.all_empty, Arena.all_empty, Arena.all_empty⟩

theorem Function.placed_default : Function.Placed good default := ⟨hdummy, Arena.all_empty⟩

variable {p : Program} (h : p.Placed good)

include h

/-- Modules stand at good places, and so does the default if nowhere is a good place. -/
theorem Program.Placed.moduleAt (id : ModuleId) : (p.moduleAt id).Placed good :=
  h.modules.get (Module.placed_default hdummy) id

/-- Functions stand at good places, and so does the default if nowhere is a good place. -/
theorem Program.Placed.functionAt (id : FunctionId) : (p.functionAt id).Placed good :=
  h.functions.get (Function.placed_default hdummy) id

end

/-! ## Changes -/

namespace Module.Placed

variable {m : Module} (h : m.Placed good)

include h

/-- A new endpoint at a good place. -/
theorem addEndpoint {e : Endpoint} (he : good e.span) : (m.addEndpoint e).Placed good :=
  { h with endpoints := h.endpoints.push he }

/-- A new node at a good place. -/
theorem addNode {n : Node} (hn : good n.span) : (m.addNode n).Placed good :=
  { h with nodes := h.nodes.push hn }

/-- A new connection at a good place. -/
theorem addConnection {c : Connection} (hc : good c.span) : (m.addConnection c).Placed good :=
  { h with connections := h.connections.push hc }

/-- Endpoints may change where they stay. -/
theorem modifyEndpoint {k : EndpointId} {f : Endpoint → Endpoint} (hf : ∀ e, (f e).span = e.span) :
    Placed good { m with endpoints := m.endpoints.modify k f } :=
  { h with endpoints := h.endpoints.modify fun e he => by rwa [hf] }

/-- Nodes may change where they stay. -/
theorem modifyNode {k : NodeId} {f : Node → Node} (hf : ∀ n, (f n).span = n.span) :
    Placed good { m with nodes := m.nodes.modify k f } :=
  { h with nodes := h.nodes.modify fun n hn => by rwa [hf] }

end Module.Placed

namespace Program.Placed

variable {p : Program} (h : p.Placed good)

include h

/-- The other tables do not matter. -/
theorem of_eq {q : Program} (hmodules : q.modules = p.modules)
    (hfunctions : q.functions = p.functions) : q.Placed good :=
  ⟨hmodules ▸ h.modules, hfunctions ▸ h.functions⟩

/-- A change of a module that keeps it at good places. -/
theorem modifyModule {id : ModuleId} {f : Module → Module}
    (hf : ∀ m, m.Placed good → (f m).Placed good) : (p.modifyModule id f).Placed good :=
  { h with modules := h.modules.modify hf }

/-- A change of a function that keeps it at good places. -/
theorem modifyFunction {id : FunctionId} {f : Function → Function}
    (hf : ∀ g, g.Placed good → (f g).Placed good) : (p.modifyFunction id f).Placed good :=
  { h with functions := h.functions.modify hf }

/-- A module may change in everything that has no place. -/
theorem editModule {id : ModuleId} {f : Module → Module} (hspan : ∀ m, (f m).span = m.span)
    (hendpoints : ∀ m, (f m).endpoints = m.endpoints) (hnodes : ∀ m, (f m).nodes = m.nodes)
    (hconnections : ∀ m, (f m).connections = m.connections) :
    (p.modifyModule id f).Placed good := by
  refine h.modifyModule fun m hm => ⟨?_, ?_, ?_, ?_⟩
  · rw [hspan]
    exact hm.span
  · rw [hendpoints]
    exact hm.endpoints
  · rw [hnodes]
    exact hm.nodes
  · rw [hconnections]
    exact hm.connections

/-- Variables stand where their declarations do, which is not asked about. -/
theorem addVariable (v : Variable) : (p.addVariable v).2.Placed good := h.of_eq rfl rfl

theorem addState (owner : ModuleId) (v : Variable) : (p.addState owner v).2.Placed good :=
  (h.addVariable v).editModule (fun _ => rfl) (fun _ => rfl) (fun _ => rfl) fun _ => rfl

theorem addParameter (owner : ModuleId) (name : String) (t : Ty) (span : Span) :
    (p.addParameter owner name t span).2.Placed good :=
  (h.addVariable _).editModule (fun _ => rfl) (fun _ => rfl) (fun _ => rfl) fun _ => rfl

theorem addStruct (owner : ModuleId) (name : String) (span : Span) :
    (p.addStruct owner name span).2.Placed good := by
  have hadded : Program.Placed good { p with structs := p.structs.push { name, owner, span } } :=
    h.of_eq rfl rfl
  exact hadded.editModule (fun _ => rfl) (fun _ => rfl) (fun _ => rfl) fun _ => rfl

/-- A new function at good places. -/
theorem addFunction {f : Function} (hf : f.Placed good) : (p.addFunction f).2.Placed good := by
  have hadded : Program.Placed good { p with functions := p.functions.push f } :=
    ⟨h.modules, h.functions.push hf⟩
  exact hadded.editModule (fun _ => rfl) (fun _ => rfl) (fun _ => rfl) fun _ => rfl

/-- A new module stands nowhere at first. -/
theorem addModule (kind : ModuleKind) (name : String) (hdummy : good .dummy) :
    (p.addModule kind name).2.Placed good :=
  { h with modules := h.modules.push ⟨hdummy, Arena.all_empty, Arena.all_empty, Arena.all_empty⟩ }

end Program.Placed

/-! ## Outcomes -/

/-- What fails reports it at a good place. -/
def FailsAt {α : Type} (good : Span → Prop) (r : Except Diagnostic α) : Prop :=
  ∀ d, r = .error d → good d.span

section

variable {α β : Type} {r : Except Diagnostic α} {f : α → Except Diagnostic β}

theorem failsAt_ok (a : α) : FailsAt good (.ok a : Except Diagnostic α) := nofun

theorem failsAt_error {d : Diagnostic} (hd : good d.span) :
    FailsAt good (.error d : Except Diagnostic α) := by
  rintro _ ⟨⟩
  exact hd

/-- Steps that fail at good places do so one after the other. -/
theorem FailsAt.bind (hr : FailsAt good r) (hf : ∀ a, r = .ok a → FailsAt good (f a)) :
    FailsAt good (r >>= f) := by
  cases r with
  | error d => exact failsAt_error (hr d rfl)
  | ok a => exact hf a rfl

/-- Both branches fail at good places, if they fail. -/
theorem FailsAt.ite {c : Prop} [Decidable c] {r' : Except Diagnostic α} (hr : c → FailsAt good r)
    (hr' : ¬c → FailsAt good r') : FailsAt good (if c then r else r') := by
  split
  · next h => exact hr h
  · next h => exact hr' h

/-- A list of steps fails at good places if each of them does. -/
theorem failsAt_mapM {l : List α} (hf : ∀ a ∈ l, FailsAt good (f a)) : FailsAt good (l.mapM f) := by
  induction l with
  | nil => exact failsAt_ok []
  | cons a l ih =>
      rw [List.mapM_cons]
      refine (hf a List.mem_cons_self).bind fun b _ => ?_
      refine (ih fun c hc => hf c (List.mem_cons_of_mem a hc)).bind fun bs _ => failsAt_ok _

end

end SignalGraph

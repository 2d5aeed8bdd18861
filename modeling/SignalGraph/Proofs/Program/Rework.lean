import SignalGraph.Proofs.Program.CopyWellFormed

/-!
# SignalGraph.Proofs.Program.Rework

Changes that keep a program well formed: parameters of a module may become state, nodes may lose
their arguments, and variables may change as long as they mention what is there
(`WellFormed.of_reworked`).
-/

namespace SignalGraph

theorem Arena.handles_eq_of_size {e : Entity} {α β : Type} {a : Arena e α} {b : Arena e β}
    (h : a.size = b.size) : a.handles = b.handles := by
  simp only [size] at h
  simp only [handles, h]

/-- The second module declares what the first one does, though parameters may have become state, and
has as many nodes, where only old nodes have arguments. -/
structure Module.Reworked (m m' : Module) : Prop where
  annotations : m'.annotations = m.annotations
  endpoints : m'.endpoints = m.endpoints
  connections : m'.connections = m.connections
  structs : m'.structs = m.structs
  functions : m'.functions = m.functions
  vars : m'.parameters ++ m'.state = m.parameters ++ m.state
  nodeCount : m'.nodes.size = m.nodes.size
  nodes : ∀ n ∈ m'.nodes.toList, n.args = [] ∨ n ∈ m.nodes.toList

/-- Leaving a module as it is is a rework of it. -/
theorem Module.Reworked.refl (m : Module) : m.Reworked m where
  annotations := rfl
  endpoints := rfl
  connections := rfl
  structs := rfl
  functions := rfl
  vars := rfl
  nodeCount := rfl
  nodes _ hn := .inr hn

/-- A list whose members are kept one by one is kept. -/
theorem mapM_self_of_forall {α : Type} {f : α → Option α} {l : List α}
    (h : ∀ a ∈ l, f a = some a) : l.mapM f = some l := by
  induction l with
  | nil => rfl
  | cons a l ih =>
      have hhead := h a List.mem_cons_self
      have htail := ih fun b hb => h b (List.mem_cons_of_mem _ hb)
      simp [hhead, htail]

/-- Nodes without arguments mention nothing. -/
theorem Node.rename_of_args_nil {n : Node} (h : n.args = []) {r : Renaming} :
    n.rename r = some n := by
  refine Node.rename_eq_some_iff.mpr ⟨rfl, rfl, ?_, rfl, rfl, rfl⟩
  rw [h]
  rfl

/-- What a renaming keeps of a module it keeps of the reworked one. -/
theorem Module.Reworked.rename {m m' : Module} (h : m.Reworked m') {r : Renaming}
    (hm : m.rename r = some m) : m'.rename r = some m' := by
  have hm := Module.rename_eq_some_iff.mp hm
  have hvars : ∀ v ∈ m'.parameters ++ m'.state, r.onVariable v = some v := by
    rw [h.vars]
    exact fun v hv => eq_some_of_mapM_self hm.vars hv
  refine Module.rename_eq_some_iff.mpr {
    kind := rfl
    name := rfl
    annotations := h.annotations ▸ hm.annotations
    endpoints := h.endpoints ▸ hm.endpoints
    nodes := ?_
    connections := rfl
    structs := h.structs ▸ hm.structs
    functions := h.functions ▸ hm.functions
    state := mapM_self_of_forall fun v hv => hvars v (List.mem_append_right _ hv)
    parameters := mapM_self_of_forall fun v hv => hvars v (List.mem_append_left _ hv)
    span := rfl }
  rw [Arena.rename_eq_some_iff]
  refine mapM_self_of_forall fun n hn => ?_
  rcases h.nodes n hn with hargs | hn
  · exact Node.rename_of_args_nil hargs
  · exact eq_some_of_mapM_self (Arena.rename_eq_some_iff.mp hm.nodes) hn

namespace Program

/-- The second program is the first one with reworked modules and other variables, which mention
only what is there, and maybe with more constants and texts. -/
structure Reworked (p q : Program) : Prop where
  structs : q.structs = p.structs
  functions : q.functions = p.functions
  tables : p.TablesGrow q
  moduleCount : q.modules.size = p.modules.size
  modules : ∀ id ∈ p.modules.handles, (p.moduleAt id).Reworked (q.moduleAt id)
  variableCount : q.vars.size = p.vars.size
  vars : ∀ v ∈ q.vars.toList, v ∈ p.vars.toList ∨ v.rename q.inRange = some v

namespace Reworked

variable {p q : Program} (h : p.Reworked q)

include h

/-- The same modules are there. -/
theorem handles : q.modules.handles = p.modules.handles :=
  Arena.handles_eq_of_size h.moduleCount

/-- Lists that are gathered over all modules stay if each module contributes what it did. -/
theorem flatMap_modules {β : Type} {f : Module → List β}
    (hf : ∀ m m' : Module, m.Reworked m' → f m' = f m) :
    (q.modules.handles.flatMap fun id => f (q.moduleAt id)) =
      p.modules.handles.flatMap fun id => f (p.moduleAt id) := by
  rw [h.handles]
  exact List.flatMap_congr fun id hid => hf _ _ (h.modules id hid)

theorem allModuleVars : q.allModuleVars = p.allModuleVars :=
  h.flatMap_modules fun _ _ hm => hm.vars

/-- The same variables are declared. -/
theorem declared : q.declared = p.declared := by
  have hat : q.functionAt = p.functionAt := by
    funext f
    simp only [functionAt, h.functions]
  have hsignature : q.signatureVars = p.signatureVars := by
    funext f
    simp only [signatureVars, hat]
  have hblock : q.blockVars = p.blockVars := by
    funext f
    simp only [blockVars, hat]
  simp only [Program.declared, h.allModuleVars, h.functions, hsignature, hblock]

/-- All that there was is still there. -/
theorem includes : p.Includes q where
  modules := Nat.le_of_eq h.moduleCount.symm
  structs := Nat.le_of_eq (by rw [h.structs])
  functions := Nat.le_of_eq (by rw [h.functions])
  declared := by
    rw [h.declared]
    exact fun _ hv => hv
  tables := h.tables

/-- Each module is the rework of one that was there before. -/
theorem mem_modules {m' : Module} (hm : m' ∈ q.modules.toList) :
    ∃ m ∈ p.modules.toList, m.Reworked m' := by
  rw [← Arena.map_get_handles, h.handles] at hm
  obtain ⟨id, hid, rfl⟩ := List.mem_map.mp hm
  exact ⟨p.moduleAt id, Arena.get_mem_toList hid, h.modules id hid⟩

end Reworked

/-- A rework of the modules keeps a program well-formed: all that well-formedness speaks of is
either kept or a part of `Reworked`. -/
theorem WellFormed.of_reworked {p q : Program} (hp : p.WellFormed) (h : p.Reworked q) :
    q.WellFormed := by
  have hle := h.includes.inRange_le
  refine {
    modules := fun m' hm' => ?_
    nodes := fun m' hm' => ?_
    structs := fun r hr => ?_
    functions := fun f hf => ?_
    vars := fun v hv => ?_
    structOwner := fun id hid r hr => ?_
    functionOwner := fun id hid f hf => ?_
    structsListed := ?_
    functionsListed := ?_
    declaredOnce := h.declared ▸ hp.declaredOnce
    declaredInRange := ?_ }
  -- the tables of structs and functions are the same, and modules differ in what no list depends on
  · obtain ⟨m, hm, hrework⟩ := h.mem_modules hm'
    exact hrework.rename (hle.module (hp.modules m hm))
  · obtain ⟨m, hm, hrework⟩ := h.mem_modules hm'
    rw [hrework.connections, hrework.nodeCount]
    exact hp.nodes m hm
  · rw [h.structs] at hr
    exact hle.struct (hp.structs r hr)
  · rw [h.functions] at hf
    have hseen : p.visibleTo f ⊆ q.visibleTo f := by
      simp only [visibleTo, h.allModuleVars]
      exact fun _ hv => hv
    exact (hle.within hseen (Nat.le_refl _)).function (hp.functions f hf)
  · rcases h.vars v hv with hv | hv
    · exact hle.variable (hp.vars v hv)
    · exact hv
  · rw [h.handles] at hid
    rw [(h.modules id hid).structs] at hr
    simp only [structAt, h.structs]
    exact hp.structOwner id hid r hr
  · rw [h.handles] at hid
    rw [(h.modules id hid).functions] at hf
    simp only [Program.functionAt, h.functions]
    exact hp.functionOwner id hid f hf
  · rw [h.flatMap_modules fun _ _ hm => hm.structs, h.structs]
    exact hp.structsListed
  · rw [h.flatMap_modules fun _ _ hm => hm.functions, h.functions]
    exact hp.functionsListed
  · rw [h.declared, h.variableCount]
    exact hp.declaredInRange

end Program

end SignalGraph

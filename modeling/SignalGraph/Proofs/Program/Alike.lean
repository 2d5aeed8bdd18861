import SignalGraph.Proofs.Program.CopyWellFormed

/-!
# SignalGraph.Proofs.Program.Alike

Programs that differ only in the order of their variables, constants and texts.  A copy of a whole
well-formed program is such a program (`WellFormed.duplicate`).
-/

namespace SignalGraph

open Copy CopySource

namespace Program

/-! ## Copies -/

/-- The empty program is well formed. -/
theorem WellFormed.empty : ({} : Program).WellFormed where
  modules _ hm := by cases hm
  nodes _ hm := by cases hm
  structs _ hr := by cases hr
  functions _ hf := by cases hf
  vars _ hv := by cases hv
  structOwner _ hid := by cases hid
  functionOwner _ hid := by cases hid
  structsListed := .refl _
  functionsListed := .refl _
  declaredOnce := List.nodup_nil
  declaredInRange _ hv := by cases hv

variable {p q : Program}

/-- The plan for a copy of a whole program. -/
def duplication (p : Program) : CopyPlan := .ofModules ⟨p, false⟩ {} p.modules.handles

/-- The plan for a copy of a module within its program. -/
def specialisation (p : Program) (id : ModuleId) : CopyPlan := .ofModules ⟨p, true⟩ p [id]

/-- A whole well-formed program can be copied: nothing that it mentions is outside. -/
theorem WellFormed.duplication_ready (h : p.WellFormed) : p.duplication.Ready p.inRange
    fun g => p.visibleTo (p.functionAt g) :=
  h.ready p.modules.nodup_handles (fun _ hid => hid) false {} (.inr fun _ hid => hid)

/-- A module of a well-formed program can be copied within it, since what is outside is kept. -/
theorem WellFormed.specialisation_ready (h : p.WellFormed) {id : ModuleId}
    (hid : id ∈ p.modules.handles) : (p.specialisation id).Ready p.inRange
    fun g => p.visibleTo (p.functionAt g) :=
  h.ready (List.nodup_singleton id) (by simpa using hid) true p (.inl rfl)

/-- A whole program can be copied. -/
theorem WellFormed.duplicate_copied (h : p.WellFormed) :
    ∃ q, p.duplicate = .ok q ∧ p.duplication.Copied none q := by
  obtain ⟨new, s, hrun, hcopied, -⟩ := CopyPlan.gives_copyModules h.duplication_ready none
  refine ⟨s.dest, ?_, hcopied⟩
  have hrun : (copyModules ⟨p, false⟩ none p.modules.handles).run.run { dest := {} } =
      (.ok new, s) := hrun
  simp only [duplicate, copyModulesInto, hrun]
  rfl

/-- A module can be copied within its program. -/
theorem WellFormed.specialiseModule_copied (h : p.WellFormed) {id : ModuleId}
    (hid : id ∈ p.modules.handles) (name : String) :
    ∃ p', p.specialiseModule id name = (.ok ⟨p.modules.size⟩, p') ∧
      (p.specialisation id).Copied (some name) p' := by
  have hready := h.specialisation_ready hid
  obtain ⟨new, s, hrun, hcopied, hnew⟩ := CopyPlan.gives_copyModules hready (some name)
  refine ⟨s.dest, ?_, hcopied⟩
  have hrun : (copyModules ⟨p, true⟩ (some name) [id]).run.run { dest := p } = (.ok new, s) := hrun
  have hnew : new = [⟨p.modules.size⟩] := by
    have hfresh := mapM_known_assigned (p.specialisation id).source
      (n := (p.specialisation id).base.modules.size) hready.distinct.modules
    have hsame := Option.some.inj (hnew.symm.trans hfresh)
    rw [hsame]
    rfl
  simp only [specialiseModule, hrun, hnew]

/-- A copy of a whole well-formed program is well formed. -/
theorem WellFormed.of_duplicate (h : p.WellFormed) (hc : p.duplication.Copied none q) :
    q.WellFormed :=
  WellFormed.copied h .empty h.duplication_ready (fun hkeep => by cases hkeep) hc fun _ hid => hid

/-- A well-formed program stays well formed when one of its modules is copied. -/
theorem WellFormed.of_specialisation (h : p.WellFormed) {id : ModuleId}
    (hid : id ∈ p.modules.handles) {name : String}
    (hc : (p.specialisation id).Copied (some name) q) : q.WellFormed :=
  WellFormed.copied h h (h.specialisation_ready hid) (fun _ => rfl) hc (by
    intro m hm
    cases List.mem_singleton.mp hm
    exact hid)

/-! ## Programs that are alike -/

/-- What the second of two alike programs calls the handles of the first: variables and constants
have other names. -/
def alikeNames (V : VariableId → Option VariableId) (p q : Program) : Renaming :=
  { Renaming.identity with onVariable := V, onConstant := p.constantTo some q }

/-- The second program is the first one with other names for its variables, which `V` gives, and
for its constants and texts. -/
structure Alike (V : VariableId → Option VariableId) (p q : Program) : Prop where
  modules : p.modules.rename (Module.rename (alikeNames V p q)) = some q.modules
  structs : q.structs = p.structs
  functions : p.functions.rename (Function.rename (alikeNames V p q)) = some q.functions
  vars : ∀ ⦃v v'⦄, V v = some v' → ∃ x x', p.vars.get? v = some x ∧ q.vars.get? v' = some x' ∧
    x.rename (alikeNames V p q) = some x'
  injective : ∀ ⦃v w v'⦄, V v = some v' → V w = some v' → v = w
  texts : p.texts.toList.Nodup

/-! ## Reading alike programs -/

section

variable {V : VariableId → Option VariableId}

@[simp] theorem alikeNames_onModule : (alikeNames V p q).onModule = some := rfl
@[simp] theorem alikeNames_onStruct : (alikeNames V p q).onStruct = some := rfl
@[simp] theorem alikeNames_onFunction : (alikeNames V p q).onFunction = some := rfl
@[simp] theorem alikeNames_onVariable : (alikeNames V p q).onVariable = V := rfl
@[simp] theorem alikeNames_onConstant : (alikeNames V p q).onConstant = p.constantTo some q := rfl
@[simp] theorem alikeNames_onBlock : (alikeNames V p q).onBlock = some := rfl
@[simp] theorem alikeNames_onTy : (alikeNames V p q).onTy = some := onTy_identity_eq

namespace Alike

variable (h : Alike V p q)

include h

/-- Modules under the same handle are alike. -/
theorem moduleAt (id : ModuleId) :
    (p.moduleAt id).Renames (alikeNames V p q) (q.moduleAt id) :=
  Module.rename_eq_some_iff.mp
    (Arena.get_of_rename (f := Module.rename (alikeNames V p q)) rfl h.modules id)

/-- Functions under the same handle are alike. -/
theorem functionAt (id : FunctionId) :
    (p.functionAt id).Renames (alikeNames V p q) (q.functionAt id) :=
  Function.rename_eq_some_iff.mp
    (Arena.get_of_rename (f := Function.rename (alikeNames V p q)) rfl h.functions id)

/-- Structs under the same handle are the same. -/
theorem structAt (id : StructId) : q.structAt id = p.structAt id := by
  rw [Program.structAt, h.structs]
  rfl

/-- A variable and its counterpart are alike. -/
theorem variableAt {v v' : VariableId} (hv : V v = some v') :
    (p.variableAt v).Renames (alikeNames V p q) (q.variableAt v') := by
  obtain ⟨x, x', hx, hx', hrename⟩ := h.vars hv
  rw [Program.variableAt, Program.variableAt, Arena.get_eq_of_get? hx, Arena.get_eq_of_get? hx']
  exact Variable.rename_eq_some_iff.mp hrename

theorem structName : q.structName = p.structName := by
  funext id
  simp only [Program.structName, h.structAt, (h.moduleAt (p.structAt id).owner).name]

/-- Types are written alike. -/
theorem describe (t : Ty) : q.describe t = p.describe t := by
  rw [Program.describe, h.structName, Program.describe]

/-- Functions have the same names. -/
theorem functionName (id : FunctionId) : q.functionName id = p.functionName id := by
  have hf := h.functionAt id
  have howner : (q.functionAt id).owner = (p.functionAt id).owner :=
    (Option.some.inj hf.owner).symm
  simp only [Program.functionName, howner, hf.name, (h.moduleAt (p.functionAt id).owner).name]

omit h in
/-- A text and its counterpart are the same. -/
theorem textAt {t t' : TextId} (ht : p.textTo q t = some t') : q.textAt t' = p.textAt t := by
  obtain ⟨text, htext, hfind⟩ := Option.bind_eq_some_iff.mp ht
  simp [Program.textAt, htext, Interner.get?_of_find? hfind]

omit h in
/-- A constant and its counterpart have the same value, with texts numbered in another way. -/
theorem constantAt {c c' : ConstantId} (hc : p.constantTo some q c = some c') :
    (p.constantAt c).mapParts some (p.textTo q) = some (q.constantAt c') := by
  simp only [constantTo, Option.bind_eq_bind, Option.bind_eq_some_iff] at hc
  obtain ⟨v, hv, v', hv', hfind⟩ := hc
  have hp : p.constantAt c = v := Arena.get_eq_of_get? hv
  have hq : q.constantAt c' = v' := Arena.get_eq_of_get? (Interner.get?_of_find? hfind)
  rw [hp, hq, hv']

end Alike

end

/-! ## Copies are alike -/

/-- Without names from outside, what is known was assigned. -/
theorem lookup_of_known {e : Entity} {c : CopySource} (hc : c.keepOutside = false)
    {l : List (Handle e × Handle e)} {h k : Handle e} (hk : c.known l h = some k) :
    l.lookup h = some k := by
  simp only [known, hc] at hk
  split at hk
  · next heq => exact heq.trans hk
  · cases hk

/-- If a whole table is copied to an empty one, all handles stay. -/
theorem known_handles {e : Entity} {α : Type} {c : CopySource} (hc : c.keepOutside = false)
    {a : Arena e α} {h k : Handle e} (hk : c.known (assigned 0 a.handles).reverse h = some k) :
    h = k := by
  obtain ⟨i, hi, rfl⟩ := (lookup_assigned_iff a.nodup_handles).mp (lookup_of_known hc hk)
  obtain ⟨hlt, hget⟩ := List.getElem?_eq_some_iff.mp hi
  simp [Arena.handles] at hget
  simp [← hget]

/-- What was appended to an empty table is the renamed table. -/
theorem rename_of_appended {e : Entity} {α : Type} [Inhabited α] {f : α → Option α}
    {a b : Arena e α} (h : Appended (fun k y => f (a.get k) = some y) ∅ a.handles b) :
    a.rename f = some b := by
  obtain ⟨new, hnew, hall⟩ := h
  have hb : b.toList = new := hnew
  rw [Arena.rename_eq_some_iff, mapM_eq_some_iff_forall₂, hb, ← Arena.map_get_handles,
    List.forall₂_map_left_iff]
  exact hall

section

variable (h : p.WellFormed) (ho : p.Ordered) (hc : p.duplication.Copied none q)

/-- What a copy of the whole program calls the variables. -/
def copiedVars (p : Program) : VariableId → Option VariableId :=
  p.duplication.source.known p.duplication.copies.vars

include ho

/-- A copy of a whole program keeps the handles of structs. -/
theorem duplication_onStruct :
    Extends (p.duplication.source.known p.duplication.copies.structs) some := by
  intro id id' hid
  have hstructs : p.duplication.structs = p.structs.handles := ho.structs
  have hid : p.duplication.source.known (assigned 0 p.duplication.structs).reverse id = some id' :=
    hid
  rw [hstructs] at hid
  exact congrArg some (known_handles rfl hid)

/-- A copy of a whole program keeps the handles of functions. -/
theorem duplication_onFunction :
    Extends (p.duplication.source.known p.duplication.copies.functions) some := by
  intro id id' hid
  have hfunctions : p.duplication.functions = p.functions.handles := ho.functions
  have hid : p.duplication.source.known (assigned 0 p.duplication.functions).reverse id =
    some id' := hid
  rw [hfunctions] at hid
  exact congrArg some (known_handles rfl hid)

/-- The names of a copy of a whole program are those of alike programs. -/
theorem duplication_le : (p.duplication.naming q).Le (alikeNames p.copiedVars p q) where
  onModule _ _ hid := congrArg some (known_handles rfl hid)
  onStruct := duplication_onStruct ho
  onFunction := duplication_onFunction ho
  onVariable _ _ hv := hv
  onConstant := constantTo_extends (Ty.mapStructs_extends_some (duplication_onStruct ho)) p q
  onBlock _ _ hb := hb

include h hc

/-- A copy of a whole program is like the program. -/
theorem WellFormed.duplicate_alike (htexts : p.texts.toList.Nodup)
    (hlabels : ∀ f ∈ p.functions.toList, f.labelled = f) : Alike p.copiedVars p q := by
  have hle := duplication_le (q := q) ho
  have hstructs := hc.structs
  have hfunctions := hc.functions
  have hstructList : p.duplication.structs = p.structs.handles := ho.structs
  have hfunctionList : p.duplication.functions = p.functions.handles := ho.functions
  rw [hstructList] at hstructs
  rw [hfunctionList] at hfunctions
  -- the variable of a copy is known by its place among the copied ones
  have hplace : ∀ {v v'}, p.copiedVars v = some v' →
      ∃ i, p.duplication.vars[i]? = some v ∧ v' = ⟨0 + i⟩ := fun hv =>
    (lookup_assigned_iff h.duplication_ready.distinct.vars).mp (lookup_of_known rfl hv)
  refine {
    modules := rename_of_appended (hc.modules.mono fun id _ m hm => hle.module hm)
    structs := ?_
    functions := rename_of_appended (hfunctions.mono fun id hid m hm =>
      hle.function (hlabels _ (Arena.get_mem_toList hid) ▸ hm))
    vars := fun v v' hv => ?_
    injective := fun v w v' hv hw => ?_
    texts := htexts }
  · have hrename := rename_of_appended (hstructs.mono fun id _ m hm => hle.struct hm)
    exact Option.some.inj (hrename.symm.trans (Structure.rename_keeps.arena p.structs))
  · obtain ⟨i, hi, rfl⟩ := hplace hv
    obtain ⟨x', hx', hrename⟩ := hc.vars.get?_of_getElem? hi
    have hdeclared := (h.vars_subperm p.modules.nodup_handles (fun _ hid => hid) false {}).subset
      (List.mem_of_getElem? hi)
    exact ⟨_, x', Arena.get?_eq_some_get (h.declaredInRange v hdeclared), hx',
      hle.variable hrename⟩
  · obtain ⟨i, hi, rfl⟩ := hplace hv
    obtain ⟨j, hj, hij⟩ := hplace hw
    have hij : i = j := by simpa using hij
    subst hij
    exact Option.some.inj (hi.symm.trans hj)

end

end Program

end SignalGraph

import SignalGraph.Proofs.Program.CopiedModules
import Mathlib.Data.List.Flatten
import Mathlib.Data.List.Perm.Subperm

/-!
# SignalGraph.Proofs.Program.WellFormed

Well-formed programs: every handle is in range, everything is listed once and by its owner, and
function bodies mention only what they can see.  That a part mentions only handles of a certain
kind is said by renaming: the identity on those handles accepts it.

The modules of a well-formed program can be copied (`WellFormed.ready`).
-/

namespace SignalGraph

namespace Handle

variable {e : Entity}

/-- The identity on the handles of a table of the given size. -/
def below (size : Nat) (h : Handle e) : Option (Handle e) := if h.idx < size then some h else none

@[simp] theorem below_eq_some_iff {size : Nat} {h k : Handle e} :
    h.below size = some k ↔ h.idx < size ∧ h = k := by
  simp [below]

/-- The identity on the handles of a list. -/
def among (l : List (Handle e)) (h : Handle e) : Option (Handle e) :=
  if l.contains h then some h else none

@[simp] theorem among_eq_some_iff {l : List (Handle e)} {h k : Handle e} :
    h.among l = some k ↔ h ∈ l ∧ h = k := by
  simp [among]

end Handle

/-- The variables that a function declares. -/
def Function.declared (f : Function) : List VariableId :=
  f.parameters ++ (f.locals ++ f.blocks.toList.flatMap (·.parameters))

namespace Program

/-- The identity on the constants whose value mentions only structs and texts that are there. -/
def sound (p : Program) (id : ConstantId) : Option ConstantId := do
  let value ← p.constants.get? id
  let _ ← value.mapParts (·.mapStructs (·.below p.structs.size)) (CopySource.present p)
  return id

/-- The variables of all modules. -/
def allModuleVars (p : Program) : List VariableId := p.modules.handles.flatMap p.moduleVars

/-- All places where variables are declared. -/
def declared (p : Program) : List VariableId :=
  p.allModuleVars ++ (p.functions.handles.flatMap p.signatureVars ++
    p.functions.handles.flatMap p.blockVars)

/-- The identity on the handles that are in use.  Blocks are known to function bodies only. -/
def inRange (p : Program) : Renaming where
  onModule id := id.below p.modules.size
  onStruct id := id.below p.structs.size
  onFunction id := id.below p.functions.size
  onVariable v := v.among p.declared
  onConstant := p.sound
  onBlock _ := none

/-- The variables that a function body can use. -/
def visibleTo (p : Program) (f : Function) : List VariableId := p.allModuleVars ++ f.declared

/-- The identity on what a function body can mention. -/
def scope (p : Program) (f : Function) : Renaming :=
  p.inRange.within (p.visibleTo f) f.blocks.size

/-- Handles are in range, everything is listed once by its owner, no variable is declared in two
places, and function bodies mention only what they can see. -/
structure WellFormed (p : Program) : Prop where
  modules : ∀ m ∈ p.modules.toList, m.rename p.inRange = some m
  nodes : ∀ m ∈ p.modules.toList, ∀ w ∈ m.connections.toList, ∀ r ∈ [w.source, w.dest], ∀ n,
    r.node = some n → n.idx < m.nodes.size
  structs : ∀ r ∈ p.structs.toList, r.rename p.inRange = some r
  functions : ∀ f ∈ p.functions.toList, f.rename (p.scope f) = some f
  vars : ∀ v ∈ p.vars.toList, v.rename p.inRange = some v
  structOwner : ∀ id ∈ p.modules.handles, ∀ r ∈ (p.moduleAt id).structs, (p.structAt r).owner = id
  functionOwner : ∀ id ∈ p.modules.handles, ∀ f ∈ (p.moduleAt id).functions,
    (p.functionAt f).owner = id
  structsListed :
    (p.modules.handles.flatMap fun id => (p.moduleAt id).structs).Perm p.structs.handles
  functionsListed :
    (p.modules.handles.flatMap fun id => (p.moduleAt id).functions).Perm p.functions.handles
  declaredOnce : p.declared.Nodup
  declaredInRange : ∀ v ∈ p.declared, v.idx < p.vars.size

variable {p q : Program}

/-- A constant is in use if its value mentions structs in range and texts that are there. -/
theorem sound_eq_some_iff {id id' : ConstantId} : p.sound id = some id' ↔ id = id' ∧
    ∃ v v', p.constants.get? id = some v ∧
      v.mapParts (·.mapStructs (·.below p.structs.size)) (CopySource.present p) = some v' := by
  simp only [sound, Option.bind_eq_bind, Option.bind_eq_some_iff, Option.pure_def,
    Option.some.injEq]
  constructor
  · rintro ⟨v, hv, v', hv', rfl⟩
    exact ⟨rfl, v, v', hv, hv'⟩
  · rintro ⟨rfl, v, v', hv, hv'⟩
    exact ⟨v, hv, v', hv', rfl⟩

/-- Being in range changes nothing. -/
theorem inRange_le_identity (p : Program) : p.inRange.Le .identity where
  onModule _ _ h := congrArg some (Handle.below_eq_some_iff.mp h).2
  onStruct _ _ h := congrArg some (Handle.below_eq_some_iff.mp h).2
  onFunction _ _ h := congrArg some (Handle.below_eq_some_iff.mp h).2
  onVariable _ _ h := congrArg some (Handle.among_eq_some_iff.mp h).2
  onConstant _ _ h := congrArg some (sound_eq_some_iff.mp h).1
  onBlock _ _ h := by cases h

/-! ## Copying from well-formed programs -/

section

variable {c : CopySource} {k : Copies}

/-- A constant in use can be copied if all structs in range have names. -/
theorem usable_of_sound (hstructs : ∀ id : StructId, id.idx < c.program.structs.size →
    ∃ id', c.known k.structs id = some id') {id id' : ConstantId}
    (hid : c.program.sound id = some id') : CopySource.Usable c k id := by
  obtain ⟨-, v, v', hv, hv'⟩ := sound_eq_some_iff.mp hid
  obtain ⟨v'', hv''⟩ := Value.mapParts_defined
    (Ty.mapStructs_defined (b := c.known k.structs) fun s s' hs =>
      hstructs s (Handle.below_eq_some_iff.mp hs).1) v v' hv'
  exact ⟨v, v'', hv, hv''⟩

end

/-- What a shorter list of distinct elements gathers is part of what a longer one does. -/
theorem subperm_flatMap {α β : Type} [DecidableEq α] {l l' : List α} (f : α → List β)
    (hl : l.Nodup) (hsub : l ⊆ l') : (l.flatMap f).Subperm (l'.flatMap f) := by
  obtain ⟨l'', hperm, hsublist⟩ := List.subperm_of_subset hl hsub
  exact ⟨l''.flatMap f, hperm.flatMap_right f, hsublist.flatMap f⟩

/-- Part of a list without repetition has none. -/
theorem nodup_of_subperm {α : Type} {l l' : List α} (h : l.Subperm l') (hl : l'.Nodup) :
    l.Nodup := by
  obtain ⟨l'', hperm, hsublist⟩ := h
  exact hperm.nodup_iff.mp (hl.sublist hsublist)

namespace WellFormed

variable (h : p.WellFormed)

include h

/-- A module of a well-formed program mentions what is in range. -/
theorem moduleAt {id : ModuleId} (hid : id ∈ p.modules.handles) :
    (p.moduleAt id).Renames p.inRange (p.moduleAt id) :=
  Module.rename_eq_some_iff.mp (h.modules _ (Arena.get_mem_toList hid))

/-- A function of a well-formed program mentions what it sees. -/
theorem functionAt {id : FunctionId} (hid : id ∈ p.functions.handles) :
    (p.functionAt id).Renames (p.scope (p.functionAt id)) (p.functionAt id) :=
  Function.rename_eq_some_iff.mp (h.functions _ (Arena.get_mem_toList hid))

/-- Modules list structs that are there. -/
theorem struct_inRange {id : ModuleId} (hid : id ∈ p.modules.handles) {r : StructId}
    (hr : r ∈ (p.moduleAt id).structs) : r ∈ p.structs.handles :=
  h.structsListed.mem_iff.mp (List.mem_flatMap.mpr ⟨id, hid, hr⟩)

/-- Modules list functions that are there. -/
theorem function_inRange {id : ModuleId} (hid : id ∈ p.modules.handles) {f : FunctionId}
    (hf : f ∈ (p.moduleAt id).functions) : f ∈ p.functions.handles :=
  h.functionsListed.mem_iff.mp (List.mem_flatMap.mpr ⟨id, hid, hf⟩)

/-- A declared variable of a well-formed program mentions what is in range. -/
theorem variableAt {v : VariableId} (hv : v ∈ p.declared) :
    (p.variableAt v).rename p.inRange = some (p.variableAt v) :=
  h.vars _ (Arena.get_mem_toList (Arena.mem_handles_iff.mpr (h.declaredInRange v hv)))

end WellFormed

end Program

/-- The plan for copying some modules. -/
def CopyPlan.ofModules (c : CopySource) (base : Program) (ids : List ModuleId) : CopyPlan where
  source := c
  base := base
  modules := ids
  structs := ids.flatMap fun id => (c.program.moduleAt id).structs
  functions := ids.flatMap fun id => (c.program.moduleAt id).functions
  vars := ids.flatMap c.program.moduleVars ++
    ((ids.flatMap fun id => (c.program.moduleAt id).functions).flatMap c.program.signatureVars ++
      (ids.flatMap fun id => (c.program.moduleAt id).functions).flatMap c.program.blockVars)

namespace Program

section

variable {p : Program} (h : p.WellFormed) {ids : List ModuleId} (hids : ids.Nodup)
  (hsub : ids ⊆ p.modules.handles) (keep : Bool) (base : Program)

include h hids hsub

/-- No function is listed by two modules, or twice by one. -/
theorem WellFormed.functionsOf_nodup :
    (ids.flatMap fun id => (p.moduleAt id).functions).Nodup :=
  nodup_of_subperm (subperm_flatMap _ hids hsub)
    (h.functionsListed.nodup_iff.mpr p.functions.nodup_handles)

omit hids in
/-- Modules list functions that are there. -/
theorem WellFormed.functionsOf_subset :
    (ids.flatMap fun id => (p.moduleAt id).functions) ⊆ p.functions.handles := by
  intro f hf
  obtain ⟨id, hid, hf⟩ := List.mem_flatMap.mp hf
  exact h.function_inRange (hsub hid) hf

/-- What is planned to be copied is declared once. -/
theorem WellFormed.vars_subperm :
    (CopyPlan.ofModules ⟨p, keep⟩ base ids).vars.Subperm p.declared := by
  have hfunctions := h.functionsOf_nodup hids hsub
  have hrange := h.functionsOf_subset hsub
  exact (subperm_flatMap _ hids hsub).append
    ((subperm_flatMap _ hfunctions hrange).append (subperm_flatMap _ hfunctions hrange))

/-- A plan for modules of a well-formed program copies nothing twice. -/
theorem WellFormed.distinct : (CopyPlan.ofModules ⟨p, keep⟩ base ids).Distinct where
  modules := hids
  structs := nodup_of_subperm (subperm_flatMap _ hids hsub)
    (h.structsListed.nodup_iff.mpr p.structs.nodup_handles)
  functions := h.functionsOf_nodup hids hsub
  vars := nodup_of_subperm (h.vars_subperm hids hsub keep base) h.declaredOnce

/-- Handles in range have copies if all modules are copied, and may be kept otherwise. -/
theorem WellFormed.covers (hkeep : keep = true ∨ p.modules.handles ⊆ ids) :
    CopySource.Covers ⟨p, keep⟩ (CopyPlan.ofModules ⟨p, keep⟩ base ids).copies
      p.inRange := by
  have hdistinct := h.distinct hids hsub keep base
  -- a handle has a copy if it is listed by the plan, and otherwise only if it may be kept
  have hknown : ∀ {e : Entity} {start : Nat} {l : List (Handle e)} {a : Handle e}, l.Nodup →
      (keep = true ∨ a ∈ l) →
      ∃ b, CopySource.known ⟨p, keep⟩ (assigned start l).reverse a = some b := by
    intro e start l a hl ha
    by_cases hmem : a ∈ l
    · obtain ⟨l₁, l₂, hsplit⟩ := List.append_of_mem hmem
      exact ⟨_, CopyPlan.known_assigned _ hl hsplit⟩
    · refine ⟨a, ?_⟩
      simp [CopySource.known, lookup_assigned_eq_none hmem, ha.resolve_right hmem]
  have hstructs : ∀ id : StructId, id.idx < p.structs.size →
      ∃ id', CopySource.known ⟨p, keep⟩ (CopyPlan.ofModules ⟨p, keep⟩ base ids).copies.structs id =
        some id' := by
    intro id hid
    refine hknown hdistinct.structs (hkeep.imp_right fun hall => ?_)
    have hmem := h.structsListed.mem_iff.mpr (Arena.mem_handles_iff.mpr hid)
    obtain ⟨m, hm, hid⟩ := List.mem_flatMap.mp hmem
    exact List.mem_flatMap.mpr ⟨m, hall hm, hid⟩
  have hfunctions : p.modules.handles ⊆ ids →
      p.functions.handles ⊆ (ids.flatMap fun id => (p.moduleAt id).functions) := by
    intro hall g hg
    obtain ⟨m, hm, hg⟩ := List.mem_flatMap.mp (h.functionsListed.mem_iff.mpr hg)
    exact List.mem_flatMap.mpr ⟨m, hall hm, hg⟩
  refine ⟨?_, ?_, ?_, ?_, ?_, ?_⟩
  · intro id new hid
    refine hknown hdistinct.modules (hkeep.imp_right fun hall => hall ?_)
    exact Arena.mem_handles_iff.mpr (Handle.below_eq_some_iff.mp hid).1
  · exact fun id new hid => hstructs id (Handle.below_eq_some_iff.mp hid).1
  · intro id new hid
    refine hknown hdistinct.functions (hkeep.imp_right fun hall => hfunctions hall ?_)
    exact Arena.mem_handles_iff.mpr (Handle.below_eq_some_iff.mp hid).1
  · intro v new hv
    have hv := (Handle.among_eq_some_iff.mp hv).1
    refine hknown hdistinct.vars (hkeep.imp_right fun hall => ?_)
    simp only [declared, allModuleVars, List.mem_append, List.mem_flatMap] at hv
    simp only [CopyPlan.ofModules, List.mem_append, List.mem_flatMap]
    obtain ⟨m, hm, hv⟩ | ⟨g, hg, hv⟩ | ⟨g, hg, hv⟩ := hv
    · exact .inl ⟨m, hall hm, hv⟩
    · exact .inr (.inl ⟨g, List.mem_flatMap.mp (hfunctions hall hg), hv⟩)
    · exact .inr (.inr ⟨g, List.mem_flatMap.mp (hfunctions hall hg), hv⟩)
  · exact fun id new hid => usable_of_sound hstructs hid
  · intro b new hb
    cases hb

/-- What a function can see has been copied with it, or lies outside. -/
theorem WellFormed.visible {g : FunctionId} {v : VariableId}
    (hv : v ∈ p.visibleTo (p.functionAt g)) :
    v ∈ ids.flatMap p.moduleVars ∨ v ∈ p.signatureVars g ∨ v ∈ p.blockVars g ∨
      v ∉ (CopyPlan.ofModules ⟨p, keep⟩ base ids).vars := by
  rcases List.mem_append.mp hv with hv | hv
  · obtain ⟨m, hm, hvm⟩ := List.mem_flatMap.mp hv
    by_cases hmem : m ∈ ids
    · exact .inl (List.mem_flatMap.mpr ⟨m, hmem, hvm⟩)
    · refine .inr (.inr (.inr fun hcopied => ?_))
      -- all variables of `m` and of the copied modules are distinct
      have hnodup := nodup_of_subperm (h.vars_subperm (List.nodup_cons.mpr ⟨hmem, hids⟩)
        (List.cons_subset.mpr ⟨hm, hsub⟩) keep base) h.declaredOnce
      simp only [CopyPlan.ofModules, List.flatMap_cons, List.flatMap_append,
        List.append_assoc] at hnodup
      refine (List.nodup_append.mp hnodup).2.2 v hvm v ?_ rfl
      simp only [CopyPlan.ofModules, List.mem_append] at hcopied ⊢
      obtain hv | hv | hv := hcopied
      · exact .inl hv
      · exact .inr (.inr (.inl hv))
      · exact .inr (.inr (.inr (.inr hv)))
  · simp only [Function.declared, List.mem_append] at hv
    obtain hv | hv | hv := hv
    · exact .inr (.inl (List.mem_append_left _ hv))
    · exact .inr (.inl (List.mem_append_right _ hv))
    · exact .inr (.inr (.inl hv))

/-- A plan for modules of a well-formed program can be carried out if what is outside is kept, or
nothing is outside. -/
theorem WellFormed.ready (hkeep : keep = true ∨ p.modules.handles ⊆ ids) :
    (CopyPlan.ofModules ⟨p, keep⟩ base ids).Ready p.inRange
      (fun g => p.visibleTo (p.functionAt g)) where
  distinct := h.distinct hids hsub keep base
  structList := rfl
  functionList := rfl
  variableList := rfl
  covers := h.covers hids hsub keep base hkeep
  identity := p.inRange_le_identity
  structOwner id hid := h.structOwner id (hsub hid)
  functionOwner id hid := h.functionOwner id (hsub hid)
  modules id hid := ⟨_, h.modules _ (Arena.get_mem_toList (hsub hid))⟩
  nodes id hid := h.nodes _ (Arena.get_mem_toList (hsub hid))
  structs r hr := by
    obtain ⟨id, hid, hr⟩ := List.mem_flatMap.mp hr
    exact ⟨_, h.structs _ (Arena.get_mem_toList (h.struct_inRange (hsub hid) hr))⟩
  vars v hv := ⟨_, h.variableAt ((h.vars_subperm hids hsub keep base).subset hv)⟩
  functions g hg := h.functions _ (Arena.get_mem_toList (h.functionsOf_subset hsub hg))
  visible g hg v hv := h.visible hids hsub keep base hv

end

end Program

end SignalGraph

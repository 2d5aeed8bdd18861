import SignalGraph.Proofs.Program.CopyWellFormed
import SignalGraph.Proofs.Program.Mentions

/-!
# SignalGraph.Proofs.Program.References

What a module owns and what it refers to.  A module owns its structs, functions and variables, and
the variables of its functions; it refers to all that it and what it owns mention, and to what the
constants among these mention.

What the copy of a module refers to are the new names of what the module refers to
(`CopyPlan.Copied.references`).
-/

namespace SignalGraph

open CopySource

namespace Program

/-! ## Ownership -/

/-- The variables of a module and of its functions. -/
def ownVars (p : Program) (id : ModuleId) : List VariableId :=
  p.moduleVars id ++ ((p.moduleAt id).functions.flatMap p.signatureVars ++
    (p.moduleAt id).functions.flatMap p.blockVars)

/-- The structs, functions and variables that a module owns. -/
def Owns (p : Program) (id : ModuleId) : Reference → Prop
  | .record s => s ∈ (p.moduleAt id).structs
  | .func f => f ∈ (p.moduleAt id).functions
  | .var v => v ∈ p.ownVars id
  | .mod _ | .const _ | .text _ | .block _ => False

/-- A struct, function or variable that none of the modules owns. -/
def Foreign (p : Program) (ids : List ModuleId) : Reference → Prop
  | .record s => ∀ id ∈ ids, ¬ p.Owns id (.record s)
  | .func f => ∀ id ∈ ids, ¬ p.Owns id (.func f)
  | .var v => ∀ id ∈ ids, ¬ p.Owns id (.var v)
  | .mod _ | .const _ | .text _ | .block _ => False

/-! ## References -/

/-- A reference, with what the value of a constant mentions. -/
def expand (p : Program) : Reference → List Reference
  | .const c => .const c :: (p.constantAt c).mentions
  | r => [r]

/-- What a module and all that it owns mention. -/
def mentions (p : Program) (id : ModuleId) : List Reference :=
  (p.moduleAt id).mentions ++
    (((p.moduleAt id).structs.flatMap fun s => (p.structAt s).mentions) ++
      (((p.moduleAt id).functions.flatMap fun f => (p.functionAt f).mentions) ++
        (p.ownVars id).flatMap fun v => (p.variableAt v).mentions))

/-- All that a module refers to. -/
def references (p : Program) (id : ModuleId) : List Reference := (p.mentions id).flatMap p.expand

/-- What the copying of some modules has to follow belongs to one of them. -/
theorem mem_ofModules_vars_iff {c : CopySource} {base : Program} {ids : List ModuleId}
    {v : VariableId} :
    v ∈ (CopyPlan.ofModules c base ids).vars ↔ ∃ id ∈ ids, v ∈ c.program.ownVars id := by
  simp only [CopyPlan.ofModules, ownVars, List.mem_append, List.mem_flatMap]
  constructor
  · rintro (⟨id, hid, hv⟩ | ⟨f, ⟨id, hid, hf⟩, hv⟩ | ⟨f, ⟨id, hid, hf⟩, hv⟩)
    · exact ⟨id, hid, .inl hv⟩
    · exact ⟨id, hid, .inr (.inl ⟨f, hf, hv⟩)⟩
    · exact ⟨id, hid, .inr (.inr ⟨f, hf, hv⟩)⟩
  · rintro ⟨id, hid, hv | ⟨f, hf, hv⟩ | ⟨f, hf, hv⟩⟩
    · exact .inl ⟨id, hid, hv⟩
    · exact .inr (.inl ⟨f, ⟨id, hid, hf⟩, hv⟩)
    · exact .inr (.inr ⟨f, ⟨id, hid, hf⟩, hv⟩)

end Program

/-! ## Copies -/

/-- Gathering from renamed members is renaming what is gathered. -/
theorem mapM_flatMap_of_mapM {α β γ δ : Type} {f : α → List γ} {g : β → List δ} {k : α → Option β}
    {on : γ → Option δ} {l : List α} {l' : List β} (h : l.mapM k = some l')
    (hk : ∀ a ∈ l, ∀ b, k a = some b → (f a).mapM on = some (g b)) :
    (l.flatMap f).mapM on = some (l'.flatMap g) := by
  rw [mapM_eq_some_iff_forall₂] at h
  induction h with
  | nil => rfl
  | @cons a b l l' hab _ ih =>
      have hhead := hk a List.mem_cons_self b hab
      have htail := ih fun a ha => hk a (List.mem_cons_of_mem _ ha)
      simp [hhead, htail]

/-- Labels of blocks are no references. -/
theorem Function.mentions_labelled (f : Function) : f.labelled.mentions = f.mentions := by
  have hblock : (fun b : Block => b.labelled.mentions) = Block.mentions := rfl
  simp only [mentions, labelled, Arena.toList_ofList, List.flatMap_map, hblock]

namespace CopyPlan

/-- What a copy does to references. -/
def onReference (P : CopyPlan) (dest : Program) : Reference → Option Reference :=
  (P.naming dest).onReference (P.source.program.textTo dest)

/-- The copy of an entry is found under its new name. -/
theorem get_known {e : Entity} {α : Type} [Inhabited α] {c : CopySource}
    {φ : Handle e → α → Prop} {old now : Arena e α} {l : List (Handle e)} (hl : l.Nodup)
    (h : Appended φ old l now) {a b : Handle e} (ha : a ∈ l)
    (hab : c.known (assigned old.size l).reverse a = some b) : φ a (now.get b) := by
  obtain ⟨l₁, l₂, rfl⟩ := List.append_of_mem ha
  rw [known_assigned c hl rfl] at hab
  cases hab
  exact h.get_new

variable {P : CopyPlan} {d : Renaming} {visible : FunctionId → List VariableId}
  (hready : P.Ready d visible) {newName : Option String} {dest : Program}
  (hc : P.Copied newName dest)

include hready hc

/-- A struct that is copied is found renamed at its new handle. -/
theorem Copied.structAt {s s' : StructId} (hs : s ∈ P.structs)
    (hs' : (P.naming dest).onStruct s = some s') :
    (P.source.program.structAt s).rename (P.naming dest) = some (dest.structAt s') :=
  get_known hready.distinct.structs hc.structs hs hs'

/-- A function that is copied is found renamed at its new handle. -/
theorem Copied.functionAt {f f' : FunctionId} (hf : f ∈ P.functions)
    (hf' : (P.naming dest).onFunction f = some f') :
    (P.source.program.functionAt f).labelled.rename (P.naming dest) = some (dest.functionAt f') :=
  get_known hready.distinct.functions hc.functions hf hf'

/-- A variable that is copied is found renamed at its new handle. -/
theorem Copied.variableAt {v v' : VariableId} (hv : v ∈ P.vars)
    (hv' : (P.naming dest).onVariable v = some v') :
    (P.source.program.variableAt v).rename (P.naming dest) = some (dest.variableAt v') :=
  get_known hready.distinct.vars hc.vars hv hv'

/-- A module that is copied is found renamed at its new handle, under its new name if it has one. -/
theorem Copied.moduleAt {id id' : ModuleId} (hid : id ∈ P.modules)
    (hid' : (P.naming dest).onModule id = some id') :
    (retitled newName (P.source.program.moduleAt id)).rename (P.naming dest) =
      some (dest.moduleAt id') :=
  get_known hready.distinct.modules hc.modules hid hid'

omit hready hc in
/-- A constant stands for its renamed value in the destination. -/
theorem Copied.constantAt {c c' : ConstantId} (hc : (P.naming dest).onConstant c = some c') :
    (P.source.program.constantAt c).mapParts (P.naming dest).onTy (P.source.program.textTo dest) =
      some (dest.constantAt c') ∧ dest.constants.find? (dest.constantAt c') = some c' := by
  simp only [naming, names, Program.constantTo, Option.bind_eq_bind, Option.bind_eq_some_iff] at hc
  obtain ⟨v, hv, v', hv', hfind⟩ := hc
  have hold : P.source.program.constantAt c = v := Arena.get_eq_of_get? hv
  have hnew : dest.constantAt c' = v' := Arena.get_eq_of_get? (Interner.get?_of_find? hfind)
  rw [hold, hnew]
  exact ⟨hv', hfind⟩

omit hready hc in
/-- What a renamed reference stands for is what the reference stands for, renamed. -/
theorem Copied.expand {r r' : Reference} (hr : P.onReference dest r = some r') :
    (P.source.program.expand r).mapM (P.onReference dest) = some (dest.expand r') := by
  cases r with
  | const c =>
      obtain ⟨c', hc, rfl⟩ := Option.map_eq_some_iff.mp hr
      have hvalue := Value.mentions_tracks (P.naming dest) (P.source.program.textTo dest)
        (P.source.program.constantAt c)
      rw [(Copied.constantAt hc).1] at hvalue
      simp only [Program.expand, List.mapM_cons, hr]
      simp only [onReference]
      rw [hvalue]
      rfl
  | block b =>
      cases hr
      simp [Program.expand, onReference, Renaming.onReference]
  | mod _ | record _ | func _ | var _ | text _ =>
      obtain ⟨_, -, rfl⟩ := Option.map_eq_some_iff.mp hr
      simp [Program.expand, hr]

section

variable {id id' : ModuleId} (hid : id ∈ P.modules)
  (hid' : (P.naming dest).onModule id = some id')

include hid hid'

/-- The variables of the copy are the copies of the variables. -/
theorem Copied.ownVars : (P.source.program.ownVars id).mapM (P.naming dest).onVariable =
    some (dest.ownVars id') := by
  have hm := Module.rename_eq_some_iff.mp (hc.moduleAt hready hid hid')
  have hf : ∀ f ∈ (P.source.program.moduleAt id).functions, ∀ f',
      (P.naming dest).onFunction f = some f' →
      (P.source.program.functionAt f).labelled.Renames (P.naming dest) (dest.functionAt f') := by
    intro f hf f' hf'
    refine Function.rename_eq_some_iff.mp (hc.functionAt hready ?_ hf')
    rw [hready.functionList]
    exact List.mem_flatMap.mpr ⟨id, hid, hf⟩
  exact mapM_append_some hm.vars (mapM_append_some
    (mapM_flatMap_of_mapM hm.functions fun f hmem f' hf' => (hf f hmem f' hf').signatureVars)
    (mapM_flatMap_of_mapM hm.functions fun f hmem f' hf' => (hf f hmem f' hf').blockVars))

/-- All that a copied module refers to, the copy refers to, renamed. -/
theorem Copied.mentions : (P.source.program.mentions id).mapM (P.onReference dest) =
    some (dest.mentions id') := by
  have hm := hc.moduleAt hready hid hid'
  have hparts := Module.rename_eq_some_iff.mp hm
  refine mapM_append_some ?_ (mapM_append_some ?_ (mapM_append_some ?_ ?_))
  · -- the name of a module is no reference
    have hretitled : (retitled newName (P.source.program.moduleAt id)).mentions =
        (P.source.program.moduleAt id).mentions := rfl
    rw [← hretitled]
    exact (Module.mentions_tracks (P.naming dest) (P.source.program.textTo dest)).mapM hm
  · refine mapM_flatMap_of_mapM hparts.structs fun s hs s' hs' => ?_
    refine (Structure.mentions_tracks _ _).mapM (hc.structAt hready ?_ hs')
    rw [hready.structList]
    exact List.mem_flatMap.mpr ⟨id, hid, hs⟩
  · refine mapM_flatMap_of_mapM hparts.functions fun f hf f' hf' => ?_
    rw [← Function.mentions_labelled]
    refine (Function.mentions_tracks _ _).mapM (hc.functionAt hready ?_ hf')
    rw [hready.functionList]
    exact List.mem_flatMap.mpr ⟨id, hid, hf⟩
  · refine mapM_flatMap_of_mapM (hc.ownVars hready hid hid') fun v hv v' hv' => ?_
    refine (Variable.mentions_tracks _ _).mapM (hc.variableAt hready ?_ hv')
    simp only [hready.variableList, hready.functionList, List.mem_append, List.mem_flatMap]
    simp only [Program.ownVars, List.mem_append, List.mem_flatMap] at hv
    obtain hv | ⟨f, hf, hv⟩ | ⟨f, hf, hv⟩ := hv
    · exact .inl ⟨id, hid, hv⟩
    · exact .inr (.inl ⟨f, ⟨id, hid, hf⟩, hv⟩)
    · exact .inr (.inr ⟨f, ⟨id, hid, hf⟩, hv⟩)

/-- What a copy refers to are the new names of what the module refers to. -/
theorem Copied.references : (P.source.program.references id).mapM (P.onReference dest) =
    some (dest.references id') :=
  mapM_flatMap_of_mapM (hc.mentions hready hid hid') fun _ _ _ hr => Copied.expand hr

end

end CopyPlan

end SignalGraph

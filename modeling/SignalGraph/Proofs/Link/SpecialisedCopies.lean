import SignalGraph.Proofs.Link.SpecialisationKeys
import SignalGraph.Proofs.Program.CopyApart
import SignalGraph.Proofs.Program.CopyFrame
import SignalGraph.Proofs.Program.Edit
import SignalGraph.Proofs.Program.Rework

/-!
# SignalGraph.Proofs.Link.SpecialisedCopies

The copy that is made for a key: the module of the key with handles of its own for what it owns, and
with its parameters as leading constant state (`SpecialisedCopy`).  Making one adds it to the
program, which keeps all it has (`specialisedCopy_makes`).
-/

namespace SignalGraph

/-- A table that answers all that another one answers continues it. -/
theorem Arena.isPrefix_of_get? {e : Entity} {α : Type} {a b : Arena e α}
    (h : ∀ k x, a.get? k = some x → b.get? k = some x) : a.toList <+: b.toList := by
  rw [List.prefix_iff_getElem?]
  intro i hi
  rw [← Arena.get?_eq_getElem? b ⟨i⟩]
  refine h ⟨i⟩ _ ?_
  rw [Arena.get?_eq_getElem?]
  exact List.getElem?_eq_getElem hi

/-- A table is no longer than what continues it. -/
theorem Arena.size_le_of_isPrefix {e : Entity} {α : Type} {a b : Arena e α}
    (h : a.toList <+: b.toList) : a.size ≤ b.size := by
  rw [← Arena.length_toList, ← Arena.length_toList]
  exact h.length_le

/-- Every element has one that it is related to. -/
theorem exists_of_forall₂ {α β : Type} {φ : α → β → Prop} {l : List α} {l' : List β}
    (h : List.Forall₂ φ l l') {a : α} (ha : a ∈ l) : ∃ b ∈ l', φ a b := by
  induction h with
  | nil => cases ha
  | @cons a' b l l' hab _ ih =>
      rcases List.mem_cons.mp ha with rfl | ha
      · exact ⟨b, List.mem_cons_self, hab⟩
      · obtain ⟨b', hb', hφ⟩ := ih ha
        exact ⟨b', List.mem_cons_of_mem _ hb', hφ⟩

/-- Lists that are related one after the other are related through the middle. -/
theorem forall₂_through {α β γ : Type} {φ : α → β → Prop} {ψ : β → γ → Prop} {l : List α}
    {l' : List β} {l'' : List γ} (h : List.Forall₂ φ l l') (h' : List.Forall₂ ψ l' l'') :
    List.Forall₂ (fun a c => ∃ b, φ a b ∧ ψ b c) l l'' := by
  induction h generalizing l'' with
  | nil =>
      cases h'
      exact .nil
  | cons hab _ ih =>
      cases h' with
      | cons hbc hrest => exact .cons ⟨_, hab, hbc⟩ (ih hrest)

namespace Link

open Program

/-! ## Binding parameters -/

/-- Makes each variable a constant with its value. -/
def bindAll : List (VariableId × Value) → Program → Program
  | [], p => p
  | (v, value) :: rest, p =>
    bindAll rest <| (p.intern value).2.modifyVariable v fun w =>
      { w with role := .constant, initial := some (p.intern value).1 }

/-- Binding parameters one after the other never fails. -/
theorem apply_forM_bind (l : List (VariableId × Value)) (p : Program) :
    Edit.apply (l.forM fun x => do
      let constant ← modifyGet (·.intern x.2)
      modify (·.modifyVariable x.1 fun v => { v with role := .constant, initial := some constant }))
      p = (.ok (), bindAll l p) := by
  induction l generalizing p with
  | nil => rfl
  | cons x l ih =>
      rw [List.forM_eq_forM, List.forM_cons, Edit.apply_bind]
      exact ih _

/-- Binding parameters changes the roles of variables and the list of the module. -/
theorem apply_bindParameters (id : ModuleId) (values : List Value) (p : Program) :
    (bindParameters id values).apply p =
      (.ok (), (bindAll ((p.moduleAt id).parameters.zip values) p).modifyModule id fun m =>
        { m with parameters := [], state := (p.moduleAt id).parameters ++ m.state }) := by
  unfold bindParameters
  rw [Edit.apply_program_bind, Edit.apply_bind]
  have hloop := apply_forM_bind ((p.moduleAt id).parameters.zip values) p
  rw [show Edit.apply _ p = _ from hloop]
  rfl

/-- What binding variables leaves. -/
structure BindsAll (l : List (VariableId × Value)) (p q : Program) : Prop where
  modules : q.modules = p.modules
  structs : q.structs = p.structs
  functions : q.functions = p.functions
  tables : p.TablesGrow q
  variableCount : q.vars.size = p.vars.size
  others : ∀ v, v ∉ l.map (·.1) → q.vars.get? v = p.vars.get? v
  bound : (l.map (·.1)).Nodup → ∀ x ∈ l, ∀ w, p.vars.get? x.1 = some w →
    ∃ c, q.constants.get? c = some x.2 ∧
      q.vars.get? x.1 = some { w with role := .constant, initial := some c }

/-- Binding one after the other binds them all, by induction on the list. -/
theorem bindsAll (l : List (VariableId × Value)) (p : Program) : BindsAll l p (bindAll l p) := by
  induction l generalizing p with
  | nil => exact ⟨rfl, rfl, rfl, .refl p, rfl, fun _ _ => rfl, fun _ _ hx => by cases hx⟩
  | cons x l ih =>
      have h := ih ((p.intern x.2).2.modifyVariable x.1 fun w =>
        { w with role := .constant, initial := some (p.intern x.2).1 })
      have hfirst : p.TablesGrow ((p.intern x.2).2.modifyVariable x.1 fun w =>
          { w with role := .constant, initial := some (p.intern x.2).1 }) :=
        ⟨Interner.prefix_intern _ _, List.prefix_refl _, id⟩
      refine ⟨h.modules, h.structs, h.functions, hfirst.trans h.tables, ?_, ?_, ?_⟩
      · exact h.variableCount.trans (Arena.size_modify _ _ _)
      · intro v hv
        rw [List.map_cons, List.mem_cons, not_or] at hv
        refine (h.others v hv.2).trans ?_
        exact (Arena.get?_modify _ _ _ _).trans (if_neg fun heq => hv.1 heq.symm)
      · intro hnodup y hy w hw
        rw [List.map_cons, List.nodup_cons] at hnodup
        rcases List.mem_cons.mp hy with rfl | hy
        · -- the later ones leave the first alone
          refine ⟨(p.intern y.2).1, ?_, ?_⟩
          · exact Arena.get?_of_isPrefix h.tables.constants (Interner.get?_intern p.constants y.2)
          · rw [show bindAll (y :: l) p = bindAll l _ from rfl, h.others y.1 hnodup.1]
            refine (Arena.get?_modify_self _ _ _).trans ?_
            rw [show (p.intern y.2).2.vars.get? y.1 = some w from hw]
            rfl
        · have hne : x.1 ≠ y.1 := fun heq =>
            hnodup.1 (heq ▸ List.mem_map_of_mem (f := Prod.fst) hy)
          refine h.bound hnodup.2 y hy w ?_
          exact ((Arena.get?_modify _ _ _ _).trans (if_neg hne)).trans hw

/-- The parameters of a module have become leading state, with the given values. -/
structure ParametersBound (id : ModuleId) (values : List Value) (p q : Program) : Prop where
  modules : q.modules = p.modules.modify id fun m =>
    { m with parameters := [], state := m.parameters ++ m.state }
  structs : q.structs = p.structs
  functions : q.functions = p.functions
  tables : p.TablesGrow q
  variableCount : q.vars.size = p.vars.size
  others : ∀ v, v ∉ (p.moduleAt id).parameters → q.vars.get? v = p.vars.get? v
  bound : List.Forall₂ (fun v value => ∃ w c, p.vars.get? v = some w ∧
    q.constants.get? c = some value ∧
      q.vars.get? v = some { w with role := .constant, initial := some c })
    (p.moduleAt id).parameters values

/-- Binding parameters of a well-formed program binds each to its value. -/
theorem bindParameters_binds {p : Program} (h : p.WellFormed) {id : ModuleId}
    (hid : id ∈ p.modules.handles) {values : List Value}
    (hlength : (p.moduleAt id).parameters.length = values.length) :
    ∃ q, (bindParameters id values).apply p = (.ok (), q) ∧ ParametersBound id values p q := by
  have hbinds := bindsAll ((p.moduleAt id).parameters.zip values) p
  have hfst : ((p.moduleAt id).parameters.zip values).map (·.1) = (p.moduleAt id).parameters :=
    List.map_fst_zip (Nat.le_of_eq hlength)
  have hdeclared : ∀ v ∈ (p.moduleAt id).parameters, v ∈ p.declared := fun v hv =>
    List.mem_append_left _ (List.mem_flatMap.mpr ⟨id, hid, List.mem_append_left _ hv⟩)
  have hnodup : (((p.moduleAt id).parameters.zip values).map (·.1)).Nodup := by
    rw [hfst]
    have hmodule := nodup_of_subperm (subperm_flatMap p.moduleVars (List.nodup_singleton id)
      (by simpa using hid)) (List.nodup_append.mp h.declaredOnce).1
    rw [List.flatMap_singleton] at hmodule
    exact (List.nodup_append.mp hmodule).1
  refine ⟨_, apply_bindParameters id values p, ?_, hbinds.structs, hbinds.functions,
    hbinds.tables.congr rfl rfl, hbinds.variableCount, ?_, ?_⟩
  · simp only [modifyModule, hbinds.modules]
    refine Arena.modify_congr fun m hm => ?_
    rw [show p.moduleAt id = m from Arena.get_eq_of_get? hm]
  · intro v hv
    exact hbinds.others v (hfst.symm ▸ hv)
  · rw [List.forall₂_iff_zip]
    refine ⟨hlength, fun {v value} hx => ?_⟩
    have hv := hdeclared v (List.of_mem_zip hx).1
    have hw := Arena.get?_eq_some_get (h.declaredInRange v hv)
    obtain ⟨c, hc, hbound⟩ := hbinds.bound hnodup (v, value) hx _ hw
    exact ⟨_, c, hw, hc, hbound⟩

namespace ParametersBound

variable {p q : Program} {id : ModuleId} {values : List Value} (h : ParametersBound id values p q)

include h

/-- The module has no parameters left, and its variables have become state. -/
theorem moduleAt_self (hid : id ∈ p.modules.handles) : q.moduleAt id =
    { p.moduleAt id with
      parameters := [], state := (p.moduleAt id).parameters ++ (p.moduleAt id).state } := by
  refine Arena.get_eq_of_get? ?_
  rw [h.modules, Arena.get?_modify_self,
    Arena.get?_eq_some_get (Arena.mem_handles_iff.mp hid)]
  rfl

/-- Other modules stay as they are. -/
theorem moduleAt_of_ne {k : ModuleId} (hk : k ≠ id) : q.moduleAt k = p.moduleAt k := by
  simp only [moduleAt, Arena.get, h.modules, Arena.get?_modify, if_neg (Ne.symm hk)]

/-- Binding parameters to sound values keeps what is there. -/
theorem reworked (hp : p.WellFormed) (hid : id ∈ p.modules.handles)
    (hvalues : ∀ value ∈ values, SoundValue p value) : p.Reworked q := by
  have hmodules : ∀ k ∈ p.modules.handles, (p.moduleAt k).Reworked (q.moduleAt k) := by
    intro k _
    by_cases hk : k = id
    · rw [hk, h.moduleAt_self hid]
      exact { Module.Reworked.refl (p.moduleAt id) with vars := List.nil_append _ }
    · rw [h.moduleAt_of_ne hk]
      exact .refl _
  have hcount : q.modules.size = p.modules.size := by rw [h.modules, Arena.size_modify]
  -- what is in range does not depend on the variables themselves
  have hle : p.inRange.Le q.inRange := by
    have hsame : p.Reworked { q with vars := p.vars } :=
      ⟨h.structs, h.functions, h.tables.congr rfl rfl, hcount, hmodules, rfl, fun _ hv => .inl hv⟩
    exact hsame.includes.inRange_le
  refine ⟨h.structs, h.functions, h.tables, hcount, hmodules, h.variableCount, fun w' hw' => ?_⟩
  obtain ⟨v, hv⟩ := Arena.mem_toList_iff.mp hw'
  by_cases hparam : v ∈ (p.moduleAt id).parameters
  · right
    obtain ⟨value, hvalue, w, c, hw, hc, hbound⟩ := exists_of_forall₂ h.bound hparam
    cases hv.symm.trans hbound
    have hrange := Variable.rename_eq_some_iff.mp
      (hle.variable (hp.vars w (Arena.mem_toList_iff.mpr ⟨v, hw⟩)))
    have hsound : q.sound c = some c := by
      obtain ⟨value', hvalue'⟩ := (hvalues value hvalue).mono
        (Nat.le_of_eq (by rw [h.structs])) h.tables.texts
      exact sound_eq_some_iff.mpr ⟨rfl, value, value', hc, hvalue'⟩
    refine Variable.rename_eq_some_iff.mpr { hrange with role := rfl, initial := ?_ }
    simp [inRange, hsound]
  · left
    rw [h.others v hparam] at hv
    exact Arena.mem_toList_iff.mpr ⟨v, hv⟩

end ParametersBound

/-! ## Copies -/

/-- What a copy of a module of `old` calls its handles: what the module owns has got new ones, all
else has kept its own. -/
structure CopyNames (old : Program) (id copy : ModuleId) (r : Renaming) (now : Program) : Prop where
  onModule : ∀ m, r.onModule m = if m = id then some copy else some m
  structs : Replaces r.onStruct (fun s => old.Owns id (.record s)) old.structs.size now.structs.size
  functions : Replaces r.onFunction (fun f => old.Owns id (.func f)) old.functions.size
    now.functions.size
  vars : Replaces r.onVariable (fun v => old.Owns id (.var v)) old.vars.size now.vars.size
  onConstant : r.onConstant = old.constantTo r.onTy now
  onBlock : r.onBlock = some

/-- In `now` stands a copy for the key, nodes apart: it is the module with other handles, and with
its parameters as leading constant state that holds the values of the key. -/
structure SpecialisedCopy (old : Program) (key : SpecialisationKey) (copy : ModuleId) (r : Renaming)
    (now : Program) : Prop where
  names : CopyNames old key.source copy r now
  module : Module.rename r { old.moduleAt key.source with
    name := (now.moduleAt copy).name
    parameters := []
    state := (old.moduleAt key.source).parameters ++ (old.moduleAt key.source).state
    nodes := ∅ } = some { now.moduleAt copy with nodes := ∅ }
  parameters : List.Forall₂ (fun v value => ∃ v' w c, r.onVariable v = some v' ∧
    (old.variableAt v).rename r = some w ∧ now.constants.get? c = some value ∧
      now.vars.get? v' = some { w with role := .constant, initial := some c })
    (old.moduleAt key.source).parameters key.values
  structs : ∀ s s', old.Owns key.source (.record s) → r.onStruct s = some s' →
    (old.structAt s).rename r = some (now.structAt s')
  functions : ∀ f f', old.Owns key.source (.func f) → r.onFunction f = some f' →
    (old.functionAt f).labelled.rename r = some (now.functionAt f')
  vars : ∀ v v', old.Owns key.source (.var v) → v ∉ (old.moduleAt key.source).parameters →
    r.onVariable v = some v' → (old.variableAt v).rename r = some (now.variableAt v')

/-- A copy for the key has been added to the program, with the nodes of its module. -/
structure CopyMade (p : Program) (key : SpecialisationKey) (r : Renaming) (q : Program) :
    Prop where
  wellFormed : q.WellFormed
  kept : p.KeptIn q
  tables : p.TablesGrow q
  size : q.modules.size = p.modules.size + 1
  fresh : p.findModule? (q.moduleAt ⟨p.modules.size⟩).name = none
  nodes : (p.moduleAt key.source).nodes.rename (Node.rename r) =
    some (q.moduleAt ⟨p.modules.size⟩).nodes
  copy : SpecialisedCopy p key ⟨p.modules.size⟩ r q

/-- An internal operation succeeds as an edit if it succeeds. -/
theorem apply_internal_eq_ok {α : Type} {f : Program → Except InternalError α × Program}
    {p q : Program} {a : α} : (Edit.internal f).apply p = (.ok a, q) ↔ f p = (.ok a, q) := by
  unfold Edit.internal
  rw [Edit.apply_bind, show Edit.apply (modifyGet f) p = (.ok (f p).1, (f p).2) from rfl]
  cases f p with
  | mk outcome q' => cases outcome <;> simp

/-- A specialised copy is a copy under a new name whose parameters are bound. -/
theorem specialisedCopy_eq_ok {p q : Program} {key : SpecialisationKey} {copy : ModuleId} :
    (specialisedCopy key).apply p = (.ok copy, q) ↔
      ∃ p', p.specialiseModule key.source (specialisedName p (p.moduleAt key.source).name) =
        (.ok copy, p') ∧ (bindParameters copy key.values).apply p' = (.ok (), q) := by
  unfold specialisedCopy
  rw [Edit.apply_program_bind, Edit.apply_bind_eq_ok]
  constructor
  · rintro ⟨_, p', hrun, hrest⟩
    obtain ⟨_, q', hbind, hrest⟩ := Edit.apply_bind_eq_ok.mp hrest
    cases hrest
    exact ⟨p', apply_internal_eq_ok.mp hrun, hbind⟩
  · rintro ⟨p', hrun, hbind⟩
    exact ⟨copy, p', apply_internal_eq_ok.mpr hrun, Edit.apply_bind_eq_ok.mpr ⟨(), q, hbind, rfl⟩⟩

/-- Whatever the program, a copy is one more module with a name of its own. -/
theorem specialisedCopy_gains {p q : Program} {key : SpecialisationKey} {copy : ModuleId}
    (h : (specialisedCopy key).apply p = (.ok copy, q)) :
    p.GainsModule (specialisedName p (p.moduleAt key.source).name) q := by
  obtain ⟨p', hrun, hbind⟩ := specialisedCopy_eq_ok.mp h
  obtain ⟨rfl, hgains⟩ := specialiseModule_gains hrun
  rw [apply_bindParameters] at hbind
  cases hbind
  have hbinds := bindsAll ((p'.moduleAt ⟨p.modules.size⟩).parameters.zip key.values) p'
  have hgains' := hgains.modify_new (f := fun m => { m with
    parameters := [], state := (p'.moduleAt ⟨p.modules.size⟩).parameters ++ m.state }) fun _ => rfl
  simpa only [GainsModule, outlines, modifyModule, hbinds.modules] using hgains'

section

variable {p : Program} {key : SpecialisationKey} (h : p.WellFormed)
  (hsource : key.source ∈ p.modules.handles)

include h hsource

/-- A copy of the module whose parameters have then been bound. -/
theorem copyMade {name : String} (hname : p.findModule? name = none) {p' q : Program}
    (hc : (p.specialisation key.source).Copied (some name) p')
    (hbound : ParametersBound ⟨p.modules.size⟩ key.values p' q)
    (hvalues : ∀ value ∈ key.values, SoundValue p value) :
    CopyMade p key ((p.specialisation key.source).naming q) q := by
  -- the copying gives the parts, and the binding changes only the parameters of the copy
  have hapart := h.copiedApart hsource hc
  have hwf := h.of_specialisation hsource hc
  have hcopy : (⟨p.modules.size⟩ : ModuleId) ∈ p'.modules.handles := by
    rw [Arena.mem_handles_iff, hapart.size]
    exact Nat.lt_succ_self _
  have hle := CopyPlan.naming_le (P := p.specialisation key.source) hbound.tables
  have hmodule := Module.rename_eq_some_iff.mp (hle.module hapart.module)
  have hself := hbound.moduleAt_self hcopy
  have hvars := h.replaces_vars hsource hc
  have hstructs := h.replaces_structs hsource hc
  have hfunctions := h.replaces_functions hsource hc
  have hvalues' : ∀ value ∈ key.values, SoundValue p' value := fun value hvalue =>
    (hvalues value hvalue).mono (CopyPlan.includes (h.specialisation_ready hsource) hc).structs
      hc.tables.texts
  have hparams : (p.moduleAt key.source).parameters.mapM
      ((p.specialisation key.source).naming q).onVariable =
        some (p'.moduleAt ⟨p.modules.size⟩).parameters := hmodule.parameters
  have hown : ∀ v ∈ (p.moduleAt key.source).parameters, p.Owns key.source (.var v) := fun v hv =>
    List.mem_append_left _ (List.mem_append_left _ hv)
  -- the parameters that are bound are new ones, so no old variable changes with them
  have hnew : ∀ v' ∈ (p'.moduleAt ⟨p.modules.size⟩).parameters, p.vars.size ≤ v'.idx := by
    intro v' hv'
    obtain ⟨v, hv, hvv'⟩ := exists_mem_of_mapM hparams hv'
    obtain ⟨b, hb, hle, -⟩ := hvars.fresh v (hown v hv)
    cases hb.symm.trans hvv'
    exact hle
  have hstructsEq : q.structAt = p'.structAt := by
    funext s
    simp only [structAt, hbound.structs]
  have hfunctionsEq : q.functionAt = p'.functionAt := by
    funext f
    simp only [functionAt, hbound.functions]
  refine {
    wellFormed := hwf.of_reworked (hbound.reworked hwf hcopy hvalues')
    kept := {
      modules := Arena.isPrefix_of_get? fun k m hm => ?_
      structs := hbound.structs ▸ hc.kept.structs
      functions := hbound.functions ▸ hc.kept.functions
      vars := Arena.isPrefix_of_get? fun v w hw => ?_
      constants := hc.tables.constants.trans hbound.tables.constants
      texts := hc.tables.texts.trans hbound.tables.texts }
    tables := hc.tables.trans hbound.tables
    size := by rw [hbound.modules, Arena.size_modify, hapart.size]
    fresh := ?_
    nodes := ?_
    copy := {
      names := {
        onModule := hapart.onModule
        structs := hbound.structs ▸ hstructs
        functions := hbound.functions ▸ hfunctions
        vars := hbound.variableCount ▸ hvars
        onConstant := rfl
        onBlock := rfl }
      module := ?_
      parameters := ?_
      structs := ?_
      functions := ?_
      vars := ?_ } }
  -- only the copy's own entry is modified, and it is none of the old modules
  · have hk : (⟨p.modules.size⟩ : ModuleId) ≠ k := by
      rintro rfl
      exact Nat.lt_irrefl _ (Arena.lt_size_of_get? hm)
    rw [hbound.modules, Arena.get?_modify, if_neg hk]
    exact Arena.get?_of_isPrefix hc.kept.modules hm
  · have hold : v ∉ (p'.moduleAt ⟨p.modules.size⟩).parameters := fun hv =>
      Nat.not_lt.mpr (hnew v hv) (Arena.lt_size_of_get? hw)
    rw [hbound.others v hold]
    exact Arena.get?_of_isPrefix hc.kept.vars hw
  · rw [hself]
    exact (congrArg p.findModule? hmodule.name).trans hname
  · rw [hself]
    exact hmodule.nodes
  · rw [hself]
    exact Module.rename_eq_some_iff.mpr { hmodule with
      name := rfl
      nodes := rfl
      state := hmodule.vars
      parameters := rfl }
  -- the names of the parameters, and then the values that these are bound to
  · have hcomp := forall₂_through (mapM_eq_some_iff_forall₂.mp hparams) hbound.bound
    refine forall₂_imp_mem (fun v hv value hx => ?_) hcomp
    obtain ⟨v', hvv', w, c, hw, hc', hnow⟩ := hx
    have hrename := hle.variable (hapart.vars v v' (hown v hv) hvv')
    rw [show p'.variableAt v' = w from Arena.get_eq_of_get? hw] at hrename
    exact ⟨v', w, c, hvv', hrename, hc', hnow⟩
  · intro s s' hs hs'
    rw [hstructsEq]
    exact hle.struct (hapart.structs s s' hs hs')
  · intro f f' hf hf'
    rw [hfunctionsEq]
    exact hle.function (hapart.functions f f' hf hf')
  -- any other variable of the copy is as copied, since two variables never share a copy
  · intro v v' hv hparam hvv'
    have hother : v' ∉ (p'.moduleAt ⟨p.modules.size⟩).parameters := by
      intro hv'
      obtain ⟨u, hu, huv'⟩ := exists_mem_of_mapM hparams hv'
      exact hparam (hvars.injective u v v' (hown u hu) hv huv' hvv' ▸ hu)
    have hsame : q.variableAt v' = p'.variableAt v' := by
      simp only [variableAt, Arena.get, hbound.others v' hother]
    rw [hsame]
    exact hle.variable (hapart.vars v v' hv hvv')

/-- A copy can be made for every key whose values fit. -/
theorem specialisedCopy_makes
    (hlength : (p.moduleAt key.source).parameters.length = key.values.length)
    (hvalues : ∀ value ∈ key.values, SoundValue p value) :
    ∃ r q, (specialisedCopy key).apply p = (.ok ⟨p.modules.size⟩, q) ∧ CopyMade p key r q := by
  obtain ⟨p', hrun, hc⟩ := h.specialiseModule_copied hsource
    (specialisedName p (p.moduleAt key.source).name)
  have hapart := h.copiedApart hsource hc
  have hmodule := Module.rename_eq_some_iff.mp hapart.module
  have hcopy : (⟨p.modules.size⟩ : ModuleId) ∈ p'.modules.handles := by
    rw [Arena.mem_handles_iff, hapart.size]
    exact Nat.lt_succ_self _
  have hparams : (p'.moduleAt ⟨p.modules.size⟩).parameters.length = key.values.length :=
    (mapM_eq_some_iff_forall₂.mp hmodule.parameters).length_eq.symm.trans hlength
  obtain ⟨q, hbind, hbound⟩ := bindParameters_binds (h.of_specialisation hsource hc) hcopy hparams
  exact ⟨_, q, specialisedCopy_eq_ok.mpr ⟨p', hrun, hbind⟩,
    copyMade h hsource (findModule?_specialisedName _ _) hc hbound hvalues⟩

end

/-! ## Copies as the program goes on -/

end Link

/-- What is replaced by new entries of a range is so in every larger range. -/
theorem Replaces.mono {e : Entity} {names : Handle e → Option (Handle e)}
    {own own' : Handle e → Prop} {start start' stop stop' : Nat}
    (h : Replaces names own start stop) (hown : ∀ a, own' a ↔ own a)
    (hold : ∀ a, own' a → a.idx < start') (hstart : start' ≤ start) (hstop : stop ≤ stop') :
    Replaces names own' start' stop' where
  old := hold
  fresh a ha := by
    obtain ⟨b, hb, hle, hlt⟩ := h.fresh a ((hown a).mp ha)
    exact ⟨b, hb, Nat.le_trans hstart hle, Nat.lt_of_lt_of_le hlt hstop⟩
  injective a a' b ha ha' := h.injective a a' b ((hown a).mp ha) ((hown a').mp ha')
  kept a ha := h.kept a fun ho => ha ((hown a).mpr ho)

/-- What is replaced has its new name below the end of the range. -/
theorem Replaces.lt_stop {e : Entity} {names : Handle e → Option (Handle e)}
    {own : Handle e → Prop} {start stop : Nat} (h : Replaces names own start stop)
    {a b : Handle e} (ha : own a) (hab : names a = some b) : b.idx < stop := by
  obtain ⟨b', hb', -, hlt⟩ := h.fresh a ha
  cases hab.symm.trans hb'
  exact hlt

/-- The renaming with the constants of `old` looked up in `now`. -/
def Renaming.interning (r : Renaming) (old now : Program) : Renaming :=
  { r with onConstant := old.constantTo r.onTy now }

namespace Program

variable {old p q : Program}

/-- A module owns the same as long as only nodes change. -/
theorem KeptUpToNodes.owns_iff (h : old.KeptUpToNodes p) (hold : old.WellFormed) {id : ModuleId}
    (hid : id ∈ old.modules.handles) (x : Reference) : old.Owns id x ↔ p.Owns id x := by
  obtain ⟨nodes, hm⟩ := h.moduleAt hid
  have hfunction : ∀ f ∈ (old.moduleAt id).functions, p.functionAt f = old.functionAt f :=
    fun f hf => h.functionAt (Arena.mem_handles_iff.mp (hold.function_inRange hid hf))
  have hsignature : ∀ f ∈ (old.moduleAt id).functions, p.signatureVars f = old.signatureVars f :=
    fun f hf => by simp only [signatureVars, hfunction f hf]
  have hblock : ∀ f ∈ (old.moduleAt id).functions, p.blockVars f = old.blockVars f :=
    fun f hf => by simp only [blockVars, hfunction f hf]
  have hvars : p.ownVars id = old.ownVars id := by
    simp only [ownVars, moduleVars, hm]
    rw [List.flatMap_congr hsignature, List.flatMap_congr hblock]
  cases x <;> simp only [Owns, hm, hvars]

/-- Constants that are in use in `old` have the same new names there and in a program that kept
them. -/
theorem interning_square {d r : Renaming} (hd : d.Le .identity) (hsound : d.onConstant = old.sound)
    (hr : r.onConstant = p.constantTo r.onTy q) (h : old.TablesGrow p) :
    d.Square r .identity (r.interning old q) := by
  -- all but constants keep their names in `old`, so their sides of the square are the same
  have hsame : ∀ {α : Type} {f g : α → Option α}, Extends f some → Commutes f g some g := by
    intro α f g hf x x' y y' hx hy hy'
    cases hf hx
    cases hy'
    exact hy
  refine ⟨hsame hd.onModule, hsame hd.onStruct, hsame hd.onFunction, hsame hd.onVariable, ?_,
    hsame hd.onBlock⟩
  intro c c' y y' hc hy hy'
  rw [hsound] at hc
  rw [hr] at hy
  cases hy'
  obtain ⟨rfl, v, v', hv, hv'⟩ := sound_eq_some_iff.mp hc
  obtain rfl := eq_of_mapParts_inRange hv'
  simp only [constantTo, Option.bind_eq_bind, Option.bind_eq_some_iff] at hy
  obtain ⟨v₁, hv₁, u, hu, hfind⟩ := hy
  cases hv₁.symm.trans (Arena.get?_of_isPrefix h.constants hv)
  -- a constant is looked up by its value, so the square is needed for the types and the texts in it
  have hty : Commutes (fun t : Ty => t.mapStructs (·.below old.structs.size)) r.onTy some r.onTy :=
    hsame (Ty.mapStructs_extends_some old.inRange_le_identity.onStruct)
  have htext : Commutes (CopySource.present old) (p.textTo q) some (old.textTo q) := by
    intro t t' s s' ht hs hs'
    cases hs'
    obtain ⟨rfl, text, htext⟩ := present_eq_some_iff.mp ht
    have hkept : p.texts.get? t = some text := Arena.get?_of_isPrefix h.texts htext
    simp only [textTo, htext, hkept, Option.bind_eq_bind, Option.bind_some] at hs ⊢
    exact hs
  have hvalue := Value.mapParts_commutes hty htext hv' hu
    (Value.mapParts_keeps (fun _ => rfl) (fun _ => rfl) u)
  simp only [Renaming.interning, constantTo, Option.bind_eq_bind, Option.bind_eq_some_iff]
  exact ⟨v, hv, u, hvalue, hfind⟩

end Program

namespace Link

open Program

variable {old p q : Program} {key : SpecialisationKey} {copy : ModuleId} {r : Renaming}

namespace SpecialisedCopy

/-- A copy of a module is a copy of what the module was before its nodes changed. -/
theorem of_kept (hc : SpecialisedCopy p key copy r q) (h : old.KeptUpToNodes p)
    (hold : old.WellFormed) (hsource : key.source ∈ old.modules.handles) :
    SpecialisedCopy old key copy (r.interning old q) q := by
  have howns := h.owns_iff hold hsource
  obtain ⟨nodes, hm⟩ := h.moduleAt hsource
  have hsquare := interning_square (q := q) old.inRange_le_identity rfl hc.names.onConstant h.tables
  have hstruct : ∀ s, old.Owns key.source (.record s) → s.idx < old.structs.size :=
    fun s hs => Arena.mem_handles_iff.mp (hold.struct_inRange hsource hs)
  have hfunction : ∀ f, old.Owns key.source (.func f) → f.idx < old.functions.size :=
    fun f hf => Arena.mem_handles_iff.mp (hold.function_inRange hsource hf)
  have hdeclared : ∀ v, old.Owns key.source (.var v) → v ∈ old.declared := fun v hv =>
    (hold.vars_subperm (List.nodup_singleton key.source) (by simpa using hsource) true old).subset
      (specialisation_vars.mpr hv)
  -- what the module owns is in range in `old`, so it reads the same in both programs
  have hvariable : ∀ v, old.Owns key.source (.var v) → ∀ w, (p.variableAt v).rename r = some w →
      (old.variableAt v).rename (r.interning old q) = some w := by
    intro v hv w hw
    rw [h.variableAt (hold.declaredInRange v (hdeclared v hv))] at hw
    exact Variable.rename_commutes hsquare (hold.variableAt (hdeclared v hv)) hw
      (Variable.rename_keeps w)
  refine {
    names := {
      onModule := hc.names.onModule
      structs := hc.names.structs.mono (fun _ => howns _) hstruct
        (Arena.size_le_of_isPrefix h.structs) (Nat.le_refl _)
      functions := hc.names.functions.mono (fun _ => howns _) hfunction
        (Arena.size_le_of_isPrefix h.functions) (Nat.le_refl _)
      vars := hc.names.vars.mono (fun _ => howns _)
        (fun v hv => hold.declaredInRange v (hdeclared v hv))
        (Arena.size_le_of_isPrefix h.vars) (Nat.le_refl _)
      onConstant := rfl
      onBlock := hc.names.onBlock }
    module := ?_
    parameters := ?_
    structs := fun s s' hs hs' => ?_
    functions := fun f f' hf hf' => ?_
    vars := fun v v' hv hparam hv' => ?_ }
  -- the nodes may have changed since, so those of `old` are put in their place
  · have hmodule := hc.module
    rw [hm] at hmodule
    have hparts := hold.moduleAt hsource
    refine Module.rename_commutes hsquare ?_ hmodule (Module.rename_keeps _)
    exact Module.rename_eq_some_iff.mpr { hparts with
      name := rfl
      nodes := rfl
      state := hparts.vars
      parameters := rfl }
  · have hparameters := hc.parameters
    rw [hm] at hparameters
    refine forall₂_imp_mem (fun v hv value hx => ?_) hparameters
    obtain ⟨v', w, c, hv', hw, hbound⟩ := hx
    have hown : old.Owns key.source (.var v) :=
      List.mem_append_left _ (List.mem_append_left _ hv)
    exact ⟨v', w, c, hv', hvariable v hown w hw, hbound⟩
  · have hrename := hc.structs s s' ((howns _).mp hs) hs'
    rw [h.structAt (hstruct s hs)] at hrename
    exact Structure.rename_commutes hsquare
      (hold.structs _ (Arena.get_mem_toList (hold.struct_inRange hsource hs))) hrename
      (Structure.rename_keeps _)
  · have hrename := hc.functions f f' ((howns _).mp hf) hf'
    rw [h.functionAt (hfunction f hf)] at hrename
    have hscope := interning_square (q := q)
      (Renaming.within_le_identity old.inRange_le_identity (old.visibleTo (old.functionAt f))
        (old.functionAt f).blocks.size) rfl hc.names.onConstant h.tables
    exact Function.rename_commutes hscope
      (Function.rename_labelled
        (hold.functions _ (Arena.get_mem_toList (hold.function_inRange hsource hf)))) hrename
      (Function.rename_keeps _)
  · have hother : v ∉ (p.moduleAt key.source).parameters := by
      rw [hm]
      exact hparam
    exact hvariable v hv _ (hc.vars v v' ((howns _).mp hv) hother hv')

/-- A copy knows its constants in every later program. -/
theorem interning_le (hc : SpecialisedCopy old key copy r p) (h : p.KeptUpToNodes q) :
    r.Le (r.interning old q) where
  onModule _ _ hx := hx
  onStruct _ _ hx := hx
  onFunction _ _ hx := hx
  onVariable _ _ hx := hx
  onConstant := by
    rw [hc.names.onConstant]
    exact h.tables.constantTo old r.onTy
  onBlock _ _ hx := hx

/-- A copy stays as it is while constants, texts and copies are added and nodes change. -/
theorem later (hc : SpecialisedCopy old key copy r p) (h : p.KeptUpToNodes q)
    (hcopy : copy ∈ p.modules.handles) : SpecialisedCopy old key copy (r.interning old q) q := by
  have hle := hc.interning_le h
  obtain ⟨nodes, hm⟩ := h.moduleAt hcopy
  refine {
    names := {
      onModule := hc.names.onModule
      structs := hc.names.structs.mono (fun _ => .rfl) hc.names.structs.old (Nat.le_refl _)
        (Arena.size_le_of_isPrefix h.structs)
      functions := hc.names.functions.mono (fun _ => .rfl) hc.names.functions.old (Nat.le_refl _)
        (Arena.size_le_of_isPrefix h.functions)
      vars := hc.names.vars.mono (fun _ => .rfl) hc.names.vars.old (Nat.le_refl _)
        (Arena.size_le_of_isPrefix h.vars)
      onConstant := rfl
      onBlock := hc.names.onBlock }
    module := ?_
    parameters := hc.parameters.imp fun v value hx => ?_
    structs := fun s s' hs hs' => ?_
    functions := fun f f' hf hf' => ?_
    vars := fun v v' hv hparam hv' => ?_ }
  · rw [hm]
    exact hle.module hc.module
  · obtain ⟨v', w, c, hv', hw, hvalue, hnow⟩ := hx
    exact ⟨v', w, c, hv', hle.variable hw, Arena.get?_of_isPrefix h.tables.constants hvalue,
      Arena.get?_of_isPrefix h.vars hnow⟩
  · rw [h.structAt (hc.names.structs.lt_stop hs hs')]
    exact hle.struct (hc.structs s s' hs hs')
  · rw [h.functionAt (hc.names.functions.lt_stop hf hf')]
    exact hle.function (hc.functions f f' hf hf')
  · rw [h.variableAt (hc.names.vars.lt_stop hv hv')]
    exact hle.variable (hc.vars v v' hv hparam hv')

end SpecialisedCopy

end Link

end SignalGraph

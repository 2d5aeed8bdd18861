import SignalGraph.Proofs.Link.AlikeLinking
import SignalGraph.Proofs.Link.SpecialisedCopies

/-!
# SignalGraph.Proofs.Link.AlikeCopies

Copies of one module in alike programs: with its copy each program is like the other with its
(`Alike.specialised`).  The copies stand at the same place, and what each is called in its program
fits together (`specialisation_square`).
-/

namespace SignalGraph

/-! ## Tables that grow alike -/

section

variable {e : Entity} {α β : Type}

/-- A table that is renamed is renamed the same way by names that know more. -/
theorem Arena.rename_extends {f g : α → Option α} (hfg : Extends f g) {a b : Arena e α}
    (h : a.rename f = some b) : a.rename g = some b := by
  rw [Arena.rename_eq_some_iff, mapM_eq_some_iff_forall₂] at h ⊢
  exact h.imp fun _ _ hxy => hfg hxy

/-- Tables that are alike are so with what is appended to them. -/
theorem Appended.rename {f : α → Option α} {φ ψ : β → α → Prop} {a b a' b' : Arena e α} {l : List β}
    (ha : Appended φ a l a') (hb : Appended ψ b l b') (hold : a.rename f = some b)
    (hnew : ∀ k ∈ l, ∀ x y, φ k x → ψ k y → f x = some y) : a'.rename f = some b' := by
  obtain ⟨u, hu, hφ⟩ := ha
  obtain ⟨v, hv, hψ⟩ := hb
  have hmade : ∀ (l : List β) (u v : List α), (∀ k ∈ l, ∀ x y, φ k x → ψ k y → f x = some y) →
      List.Forall₂ φ l u → List.Forall₂ ψ l v → u.mapM f = some v := by
    intro l u v hnew hφ hψ
    rw [mapM_eq_some_iff_forall₂]
    induction hφ generalizing v with
    | nil =>
        cases hψ
        exact .nil
    | cons hx _ ih =>
        obtain ⟨y, v, hy, hrest, rfl⟩ := List.forall₂_cons_left_iff.mp hψ
        exact .cons (hnew _ List.mem_cons_self _ _ hx hy)
          (ih v (fun k hk => hnew k (List.mem_cons_of_mem _ hk)) hrest)
  rw [Arena.rename_eq_some_iff] at hold ⊢
  rw [hu, hv]
  exact mapM_append_some hold (hmade l u v hnew hφ hψ)

end

namespace Program

/-! ## Constants and texts -/

/-- Texts correspond across four programs: the way round by the copies ends where the direct one
does. -/
theorem textTo_commutes (p q p' q' : Program) :
    Commutes (p.textTo p') (p.textTo q) (q.textTo q') (p'.textTo q') := by
  intro t t' u u' ht hu ht'
  obtain ⟨s, hs, hfind⟩ := Option.bind_eq_some_iff.mp ht
  obtain ⟨s₂, hs₂, hfind₂⟩ := Option.bind_eq_some_iff.mp hu
  cases hs.symm.trans hs₂
  obtain ⟨s₃, hs₃, hfind₃⟩ := Option.bind_eq_some_iff.mp ht'
  cases (Interner.get?_of_find? hfind₂).symm.trans hs₃
  simp [textTo, Interner.get?_of_find? hfind, hfind₃]

/-- Constants correspond across four programs if their types do. -/
theorem constantTo_commutes {f g h k : Ty → Option Ty} (hty : Commutes f g h k)
    (p q p' q' : Program) :
    Commutes (p.constantTo f p') (p.constantTo g q) (q.constantTo h q') (p'.constantTo k q') := by
  intro c c' d d' hc hd hc'
  simp only [constantTo, Option.bind_eq_bind, Option.bind_eq_some_iff] at hc hd hc' ⊢
  obtain ⟨v, hv, v', hv', hfind⟩ := hc
  obtain ⟨v₂, hv₂, w, hw, hfind₂⟩ := hd
  cases hv.symm.trans hv₂
  obtain ⟨w₂, hw₂, w', hw', hfind₃⟩ := hc'
  cases (Interner.get?_of_find? hfind₂).symm.trans hw₂
  exact ⟨v', Interner.get?_of_find? hfind, w',
    Value.mapParts_commutes hty (textTo_commutes p q p' q') hv' hw hw', hfind₃⟩

/-- What is known of the names of texts is not forgotten when the tables grow. -/
theorem textTo_extends {p q p' q' : Program} (hp : p.TablesGrow p') (hq : q.TablesGrow q') :
    Extends (p.textTo q) (p'.textTo q') := by
  intro t t' ht
  obtain ⟨s, hs, hfound⟩ := Option.bind_eq_some_iff.mp ht
  simp [textTo, show p'.texts.get? t = some s from Arena.get?_of_isPrefix hp.texts hs,
    show q'.texts.find? s = some t' from Arena.find?_of_isPrefix hq.texts hfound]

/-- What is known of the names of constants is not forgotten when the tables grow. -/
theorem alikeNames_le {V V' : VariableId → Option VariableId} (hV : Extends V V')
    {p q p' q' : Program} (hp : p.TablesGrow p') (hq : q.TablesGrow q') :
    (alikeNames V p q).Le (alikeNames V' p' q') where
  onModule _ _ hx := hx
  onStruct _ _ hx := hx
  onFunction _ _ hx := hx
  onVariable := hV
  onConstant c c' hc := by
    simp only [alikeNames_onConstant, constantTo, Option.bind_eq_bind,
      Option.bind_eq_some_iff] at hc ⊢
    obtain ⟨v, hv, w, hw, hfind⟩ := hc
    refine ⟨v, Arena.get?_of_isPrefix hp.constants hv, w, ?_,
      Arena.find?_of_isPrefix hq.constants hfind⟩
    exact Value.mapParts_extends (fun _ _ ht => ht) (textTo_extends hp hq) hw
  onBlock _ _ hx := hx

/-! ## Copying -/

section

variable {p q p' q' : Program} {V : VariableId → Option VariableId} {id : ModuleId}

namespace Alike

section

variable (h : Alike V p q)

include h

/-- The same structs are copied. -/
theorem structs_specialisation : (q.specialisation id).structs = (p.specialisation id).structs := by
  rw [specialisation_structs, specialisation_structs, h.moduleStructs]

/-- The same functions are copied. -/
theorem functions_specialisation :
    (q.specialisation id).functions = (p.specialisation id).functions := by
  rw [specialisation_functions, specialisation_functions, h.moduleFunctions]

/-- The same variables are copied. -/
theorem vars_specialisation :
    (p.specialisation id).vars.mapM V = some (q.specialisation id).vars := by
  have hmodule := (h.moduleAt id).vars
  have hsignature : ((p.moduleAt id).functions.flatMap p.signatureVars).mapM V =
      some ((p.moduleAt id).functions.flatMap q.signatureVars) :=
    mapM_flatMap_of_forall₂ (List.forall₂_same.mpr fun f _ => (h.functionAt f).signatureVars)
  have hblocks : ((p.moduleAt id).functions.flatMap p.blockVars).mapM V =
      some ((p.moduleAt id).functions.flatMap q.blockVars) :=
    mapM_flatMap_of_forall₂ (List.forall₂_same.mpr fun f _ =>
      mapM_flatMap_of_forall₂ ((h.functionAt f).blockList.imp fun _ _ hb => hb.parameters))
  simp only [specialisation, CopyPlan.ofModules, List.flatMap_cons, List.flatMap_nil,
    List.append_nil, h.moduleFunctions]
  exact mapM_append_some hmodule (mapM_append_some hsignature hblocks)

/-- Modules get the same names in both copies. -/
theorem modules_known : (q.specialisation id).source.known (q.specialisation id).copies.modules =
    (p.specialisation id).source.known (p.specialisation id).copies.modules := by
  have hsize : (q.specialisation id).base.modules.size = (p.specialisation id).base.modules.size :=
    h.size
  funext m
  simp only [CopySource.known, CopyPlan.copies, hsize]
  rfl

/-- Structs get the same names in both copies. -/
theorem structs_known : (q.specialisation id).source.known (q.specialisation id).copies.structs =
    (p.specialisation id).source.known (p.specialisation id).copies.structs := by
  have hsize : (q.specialisation id).base.structs.size = (p.specialisation id).base.structs.size :=
    congrArg Arena.size h.structs
  funext s
  simp only [CopySource.known, CopyPlan.copies, hsize, h.structs_specialisation]
  rfl

/-- Functions get the same names in both copies. -/
theorem functions_known :
    (q.specialisation id).source.known (q.specialisation id).copies.functions =
      (p.specialisation id).source.known (p.specialisation id).copies.functions := by
  have hsize : (q.specialisation id).base.functions.size =
    (p.specialisation id).base.functions.size := Arena.size_of_rename h.functions
  funext s
  simp only [CopySource.known, CopyPlan.copies, hsize, h.functions_specialisation]
  rfl

end

end Alike

/-- The names that new variables have got in the second program when as many were added to both. -/
def extendNames (V : VariableId → Option VariableId) (p q p' : Program) (v : VariableId) :
    Option VariableId :=
  if v.idx < p.vars.size then V v
  else if v.idx < p'.vars.size then some ⟨q.vars.size + (v.idx - p.vars.size)⟩
  else none

/-- The names of old variables stay. -/
theorem extendNames_extends (h : Alike V p q) : Extends V (extendNames V p q p') := by
  intro v v' hv
  obtain ⟨x, x', hx, -⟩ := h.vars hv
  rw [extendNames, if_pos (Arena.lt_size_of_get? hx), hv]

/-- A variable of the first program is an old one, or the copy of one. -/
theorem extendNames_cases {name : String}
    (hcp : (p.specialisation id).Copied (some name) p') {v v' : VariableId}
    (hv : extendNames V p q p' v = some v') : V v = some v' ∨
      ∃ i, i < (p.specialisation id).vars.length ∧ v = ⟨p.vars.size + i⟩ ∧
        v' = ⟨q.vars.size + i⟩ := by
  have hsize : p'.vars.size = p.vars.size + (p.specialisation id).vars.length := hcp.vars.size
  unfold extendNames at hv
  split at hv
  · exact .inl hv
  · next hold =>
    obtain ⟨hnew, hv⟩ := Option.ite_none_right_eq_some.mp hv
    refine .inr ⟨v.idx - p.vars.size, by omega, ?_, (Option.some.inj hv).symm⟩
    cases v
    simp at hold ⊢
    omega

section

variable (h : Alike V p q) (hp : p.WellFormed) (hq : q.WellFormed) (hid : id ∈ p.modules.handles)
  {name : String} (hcp : (p.specialisation id).Copied (some name) p')
  (hcq : (q.specialisation id).Copied (some name) q')

include h hp hq hid hcp

/-- Copies of corresponding variables correspond. -/
theorem extendNames_commutes :
    Commutes ((p.specialisation id).source.known (p.specialisation id).copies.vars) V
      ((q.specialisation id).source.known (q.specialisation id).copies.vars)
      (extendNames V p q p') := by
  have hdistinct := (hp.specialisation_ready hid).distinct.vars
  have hdistinct' := (hq.specialisation_ready (h.handles ▸ hid)).distinct.vars
  have hvars : (p.specialisation id).vars.mapM V = some (q.specialisation id).vars :=
    h.vars_specialisation
  have hall := mapM_eq_some_iff_forall₂.mp hvars
  intro v w v' w' hw hv hw'
  obtain ⟨x, -, hx, -⟩ := h.vars hv
  by_cases hmem : v ∈ (p.specialisation id).vars
  · -- the copies of both stand at the same place among the new variables
    obtain ⟨l₁, l₂, hsplit⟩ := List.append_of_mem hmem
    rw [hsplit] at hall
    obtain ⟨u₁, u₂, hsplit', h₁, h₂⟩ := forall₂_append_left_iff.mp hall
    obtain ⟨y, u₂, hy, -, rfl⟩ := List.forall₂_cons_left_iff.mp h₂
    cases hv.symm.trans hy
    rw [CopyPlan.known_variable (hp.specialisation_ready hid).distinct hsplit] at hw
    rw [CopyPlan.known_variable (hq.specialisation_ready (h.handles ▸ hid)).distinct hsplit'] at hw'
    cases hw
    cases hw'
    have hsize := hcp.vars.size
    have hlength := congrArg List.length hsplit
    rw [List.length_append, List.length_cons] at hlength
    have hbase : (p.specialisation id).base.vars.size = p.vars.size := rfl
    rw [extendNames, if_neg (by simp [hbase]), if_pos (by simp only [hbase] at hsize ⊢; omega)]
    simp only [hbase, h₁.length_eq, Nat.add_sub_cancel_left]
    rfl
  -- what is not copied keeps its name on both sides
  · have hmem' : v' ∉ (q.specialisation id).vars := by
      intro hmem'
      obtain ⟨a, ha, hav⟩ := exists_mem_of_mapM hvars hmem'
      exact hmem (h.injective hav hv ▸ ha)
    obtain ⟨hmem'', -⟩ | ⟨-, -, rfl⟩ := known_cases hdistinct hw
    · exact absurd hmem'' hmem
    · obtain ⟨hmem'', -⟩ | ⟨-, -, rfl⟩ := known_cases hdistinct' hw'
      · exact absurd hmem'' hmem'
      · exact extendNames_extends h hv

/-- What a module's contents are called in its copy fits what they are called in the other
program. -/
theorem specialisation_square : ((p.specialisation id).naming p').Square (alikeNames V p q)
    ((q.specialisation id).naming q') (alikeNames (extendNames V p q p') p' q') where
  onModule := by
    rw [CopyPlan.naming_onModule, CopyPlan.naming_onModule, h.modules_known]
    intro x x' y y' hx hy hy'
    cases hy
    exact hx.symm.trans hy'
  onStruct := by
    rw [CopyPlan.naming_onStruct, CopyPlan.naming_onStruct, h.structs_known]
    intro x x' y y' hx hy hy'
    cases hy
    exact hx.symm.trans hy'
  onFunction := by
    rw [CopyPlan.naming_onFunction, CopyPlan.naming_onFunction, h.functions_known]
    intro x x' y y' hx hy hy'
    cases hy
    exact hx.symm.trans hy'
  onVariable := extendNames_commutes h hp hq hid hcp
  onConstant := by
    have hty : (q.specialisation id).source.onTy (q.specialisation id).copies =
        (p.specialisation id).source.onTy (p.specialisation id).copies := by
      funext t
      rw [CopySource.onTy, h.structs_known, CopySource.onTy]
    refine constantTo_commutes (fun x x' y y' hx hy hy' => ?_) p q p' q'
    cases hy
    rw [hty] at hy'
    exact hx.symm.trans hy'
  onBlock x x' y y' hx hy hy' := by
    cases hx
    cases hy
    exact hy'

include hcq

/-- With a copy of the same module each, alike programs are alike. -/
theorem Alike.specialised : Alike (extendNames V p q p') p' q' := by
  have hsquare : ((p.specialisation id).naming p').Square (alikeNames V p q)
      ((q.specialisation id).naming q') (alikeNames (extendNames V p q p') p' q') :=
    specialisation_square h hp hq hid hcp
  have hle : (alikeNames V p q).Le (alikeNames (extendNames V p q p') p' q') :=
    alikeNames_le (extendNames_extends h) hcp.tables hcq.tables
  have hstructs := hcq.structs
  have hfunctions := hcq.functions
  rw [h.structs_specialisation] at hstructs
  rw [h.functions_specialisation] at hfunctions
  refine {
    modules := hcp.modules.rename hcq.modules (Arena.rename_extends hle.module h.modules) ?_
    structs := ?_
    functions := hcp.functions.rename hfunctions (Arena.rename_extends hle.function h.functions) ?_
    vars := fun v v' hv => ?_
    injective := fun v w v' hv hw => ?_
    texts := hcp.tables.distinctTexts h.texts }
  -- each table: the old entries are alike as before, and the copies are by the square
  · intro m _ x y hx hy
    have hm := h.moduleAt m
    refine Module.rename_commutes hsquare hx (Module.rename_eq_some_iff.mpr ?_) hy
    exact { hm with kind := hm.kind, name := rfl, connections := hm.connections, span := hm.span }
  · have hrename : p'.structs.rename (Structure.rename (alikeNames (extendNames V p q p') p' q')) =
        some q'.structs := by
      refine hcp.structs.rename hstructs ?_ fun r _ x y hx hy => ?_
      · exact h.structs ▸ Structure.rename_keeps.arena p.structs
      · refine Structure.rename_commutes hsquare hx (Structure.rename_keeps _) ?_
        have hsame : (q.specialisation id).source.program.structAt r = p.structAt r := h.structAt r
        exact hsame ▸ hy
    exact Option.some.inj (hrename.symm.trans (Structure.rename_keeps.arena p'.structs))
  · intro g _ x y hx hy
    exact Function.rename_commutes hsquare hx
      (Function.rename_labelled (Function.rename_eq_some_iff.mpr (h.functionAt g))) hy
  -- variables are compared one by one, the new ones by their place in the list of those copied
  · rcases extendNames_cases hcp hv with hv | ⟨i, hi, rfl, rfl⟩
    · obtain ⟨x, x', hx, hx', hrename⟩ := h.vars hv
      exact ⟨x, x', hcp.vars.get?_old hx, hcq.vars.get?_old hx', hle.variable hrename⟩
    · have hvars : (p.specialisation id).vars.mapM V = some (q.specialisation id).vars :=
        h.vars_specialisation
      have hall := List.forall₂_iff_get.mp (mapM_eq_some_iff_forall₂.mp hvars)
      have hi' : i < (q.specialisation id).vars.length := hall.1 ▸ hi
      have hV := hall.2 i hi hi'
      obtain ⟨x, hx, hrename⟩ := hcp.vars.get?_of_getElem? (List.getElem?_eq_getElem hi)
      obtain ⟨x', hx', hrename'⟩ := hcq.vars.get?_of_getElem? (List.getElem?_eq_getElem hi')
      exact ⟨x, x', hx, hx', Variable.rename_commutes hsquare hrename
        (Variable.rename_eq_some_iff.mpr (h.variableAt hV)) hrename'⟩
  -- old names and new ones never meet, since the new ones lie behind all old variables
  · have hlt : ∀ {a a'}, V a = some a' → a'.idx < q.vars.size := by
      intro a a' ha
      obtain ⟨_, _, -, ha', -⟩ := h.vars ha
      exact Arena.lt_size_of_get? ha'
    rcases extendNames_cases hcp hv with hv | ⟨i, -, rfl, rfl⟩ <;>
      rcases extendNames_cases hcp hw with hw | ⟨j, -, rfl, hj⟩
    · exact h.injective hv hw
    · have hrange := hlt hv
      rw [hj] at hrange
      exact absurd hrange (Nat.not_lt.mpr (Nat.le_add_right _ _))
    · exact absurd (hlt hw) (Nat.not_lt.mpr (Nat.le_add_right _ _))
    · simpa using hj

end

end

end Program

end SignalGraph

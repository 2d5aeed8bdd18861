import SignalGraph.Proofs.Link.AlikeCopies
import SignalGraph.Proofs.Link.Intactness

/-!
# SignalGraph.Proofs.Link.AlikeSpecialising

Specialising does the same to alike programs (`agree_specialiseInstances`).  Nodes that correspond
have keys that correspond, keys are the same exactly if those that correspond are, and copies made
for keys that correspond stand at the same place under the same name.
-/

namespace SignalGraph

namespace Program

variable {p q p' q' : Program} {V : VariableId → Option VariableId}

/-! ## Single changes -/

/-- New constants and texts do not matter. -/
theorem Alike.grow (h : Alike V p q) (hp : p.TablesGrow p') (hq : q.TablesGrow q')
    (hpmodules : p'.modules = p.modules) (hqmodules : q'.modules = q.modules)
    (hpstructs : p'.structs = p.structs) (hqstructs : q'.structs = q.structs)
    (hpfunctions : p'.functions = p.functions) (hqfunctions : q'.functions = q.functions)
    (hpvars : p'.vars = p.vars) (hqvars : q'.vars = q.vars) : Alike V p' q' := by
  have hle := alikeNames_le (fun _ _ hv => hv : Extends V V) hp hq
  refine ⟨?_, ?_, ?_, fun v v' hv => ?_, h.injective, hp.distinctTexts h.texts⟩
  · rw [hpmodules, hqmodules]
    exact Arena.rename_extends hle.module h.modules
  · rw [hpstructs, hqstructs, h.structs]
  · rw [hpfunctions, hqfunctions]
    exact Arena.rename_extends hle.function h.functions
  · rw [hpvars, hqvars]
    obtain ⟨x, x', hx, hx', hrename⟩ := h.vars hv
    exact ⟨x, x', hx, hx', hle.variable hrename⟩

/-- Interning a value only adds to the tables. -/
theorem tablesGrow_intern (p : Program) (v : Value) : p.TablesGrow (p.intern v).2 where
  constants := Interner.prefix_intern _ _
  texts := List.prefix_refl _
  distinctTexts := id

/-- Interning values that correspond gives constants that do. -/
theorem Alike.intern (h : Alike V p q) {v w : Value} (hvw : v.mapParts some (p.textTo q) = some w) :
    Alike V (p.intern v).2 (q.intern w).2 ∧
      (p.intern v).2.constantTo some (q.intern w).2 (p.intern v).1 = some (q.intern w).1 := by
  refine ⟨h.grow (tablesGrow_intern p v) (tablesGrow_intern q w) rfl rfl rfl rfl rfl rfl rfl rfl,
    ?_⟩
  have hget : (p.intern v).2.constants.get? (p.intern v).1 = some v :=
    Interner.get?_intern p.constants v
  have hfind : (q.intern w).2.constants.find? w = some (q.intern w).1 :=
    Interner.find?_intern q.constants w
  have hparts : v.mapParts some ((p.intern v).2.textTo (q.intern w).2) = some w := hvw
  simp [constantTo, hget, hparts, hfind]

/-- Variables that correspond change alike. -/
theorem Alike.modifyVariable (h : Alike V p q) {v v' : VariableId} (hv : V v = some v')
    {f g : Variable → Variable}
    (hfg : ∀ x x', x.Renames (alikeNames V p q) x' → (f x).Renames (alikeNames V p q) (g x')) :
    Alike V (p.modifyVariable v f) (q.modifyVariable v' g) where
  modules := h.modules
  structs := h.structs
  functions := h.functions
  vars := by
    intro w w' hw
    obtain ⟨x, x', hx, hx', hrename⟩ := h.vars hw
    simp only [Program.modifyVariable, Arena.get?_modify]
    by_cases hsame : v = w
    · subst hsame
      cases hv.symm.trans hw
      rw [if_pos rfl, if_pos rfl, hx, hx']
      exact ⟨f x, g x', rfl, rfl,
        Variable.rename_eq_some_iff.mpr (hfg x x' (Variable.rename_eq_some_iff.mp hrename))⟩
    · have hother : v' ≠ w' := fun heq => hsame (h.injective hv (heq ▸ hw))
      rw [if_neg hsame, if_neg hother]
      exact ⟨x, x', hx, hx', hrename⟩
  injective := h.injective
  texts := h.texts

end Program

namespace Link

open Program Edit

variable {p q p' q' : Program} {V : VariableId → Option VariableId}

/-! ## Binding parameters -/

/-- Corresponding parameters are bound to corresponding values one by one. -/
theorem bindAll_alike {l l' : List (VariableId × Value)} (h : Alike V p q)
    (hl : List.Forall₂ (fun x y => V x.1 = some y.1 ∧ x.2.mapParts some (p.textTo q) = some y.2)
      l l') : Alike V (bindAll l p) (bindAll l' q) := by
  induction l generalizing l' p q with
  | nil =>
      cases hl
      exact h
  | cons x l ih =>
      obtain ⟨y, l', ⟨hvar, hvalue⟩, hrest, rfl⟩ := List.forall₂_cons_left_iff.mp hl
      obtain ⟨hinterned, hconstant⟩ := h.intern hvalue
      have hfirst := hinterned.modifyVariable hvar
        (f := fun w => { w with role := .constant, initial := some (p.intern x.2).1 })
        (g := fun w => { w with role := .constant, initial := some (q.intern y.2).1 })
        fun z z' hz => { hz with role := rfl, initial := by simp [hconstant] }
      have hall := ih hfirst hrest
      exact hall

/-- The parameters of a module become state with the same values. -/
theorem bound_alike (h : Alike V p q) (id : ModuleId) {values values' : List Value}
    (hvalues : values.mapM (·.mapParts some (p.textTo q)) = some values') :
    ∃ p' q', (bindParameters id values).apply p = (.ok (), p') ∧
      (bindParameters id values').apply q = (.ok (), q') ∧ Alike V p' q' := by
  refine ⟨_, _, apply_bindParameters id values p, apply_bindParameters id values' q, ?_⟩
  have hparameters := (h.moduleAt id).parameters
  have hbound : Alike V (bindAll ((p.moduleAt id).parameters.zip values) p)
      (bindAll ((q.moduleAt id).parameters.zip values') q) :=
    bindAll_alike h (Check.forall₂_zip (mapM_eq_some_iff_forall₂.mp hparameters)
      (mapM_eq_some_iff_forall₂.mp hvalues))
  refine (AlikeBy.modifyModule ⟨hbound, rfl⟩ id fun m m' hm => ?_).alike
  exact { hm with parameters := rfl, state := mapM_append_some hparameters hm.state }

/-! ## Copies -/

/-- Both programs are well formed, and they are alike. -/
structure Twins (p q : Program) : Prop where
  left : p.WellFormed
  right : q.WellFormed
  alike : ∃ V, Alike V p q

/-- Keys of corresponding nodes of two programs. -/
structure KeyAlike (p q : Program) (key key' : SpecialisationKey) : Prop where
  source : key'.source = key.source
  values : key.values.mapM (·.mapParts some (p.textTo q)) = some key'.values

/-- Keys stay alike when the tables grow. -/
theorem KeyAlike.grow {key key' : SpecialisationKey} (h : KeyAlike p q key key')
    (hp : p.TablesGrow p') (hq : q.TablesGrow q') : KeyAlike p' q' key key' where
  source := h.source
  values := by
    have hvalues := h.values
    rw [mapM_eq_some_iff_forall₂] at hvalues ⊢
    exact hvalues.imp fun _ _ hv =>
      Value.mapParts_extends (fun _ _ ht => ht) (textTo_extends hp hq) hv

/-- With distinct texts, a value can be told from its counterpart. -/
theorem mapParts_back (htexts : p.texts.toList.Nodup) {v w : Value}
    (h : v.mapParts some (p.textTo q) = some w) : w.mapParts some (q.textTo p) = some v := by
  have hback : Commutes (p.textTo q) some some (q.textTo p) := by
    intro t t' u u' ht hu hu'
    cases hu
    cases hu'
    obtain ⟨s, hs, hfound⟩ := Option.bind_eq_some_iff.mp ht
    have hself : p.texts.find? s = some t :=
      Interner.find?_of_isPrefix (List.prefix_refl _) htexts hs
    simp [textTo, Interner.get?_of_find? hfound, hself]
  have hkeep : v.mapParts some some = some v :=
    Value.mapParts_keeps (fun _ => rfl) (fun _ => rfl) v
  exact Value.mapParts_commutes (fun _ _ _ _ hx hy hy' => by cases hx; cases hy; exact hy') hback h
    hkeep hkeep

/-- Keys are the same exactly if those that correspond are. -/
theorem KeyAlike.eq_iff (htexts : p.texts.toList.Nodup) {key₁ key₂ key₁' key₂' : SpecialisationKey}
    (h₁ : KeyAlike p q key₁ key₁') (h₂ : KeyAlike p q key₂ key₂') :
    key₁' = key₂' ↔ key₁ = key₂ := by
  constructor
  · rintro rfl
    have hsource : key₁.source = key₂.source := h₁.source.symm.trans h₂.source
    have hback : ∀ {key : SpecialisationKey}, KeyAlike p q key key₁' →
        key₁'.values.mapM (·.mapParts some (q.textTo p)) = some key.values := by
      intro key h
      have hvalues := h.values
      rw [mapM_eq_some_iff_forall₂] at hvalues ⊢
      exact (hvalues.imp fun _ _ hv => mapParts_back htexts hv).flip
    have hvalues := Option.some.inj ((hback h₁).symm.trans (hback h₂))
    cases key₁
    cases key₂
    simp_all
  · rintro rfl
    have hsource : key₁'.source = key₂'.source := h₁.source.trans h₂.source.symm
    have hvalues := Option.some.inj (h₁.values.symm.trans h₂.values)
    cases key₁'
    cases key₂'
    simp_all

/-- The copies get the same name: it depends on the names of modules only. -/
theorem specialisedName_alike (h : Alike V p q) (base : String) :
    specialisedName q base = specialisedName p base := by
  simp only [specialisedName, h.size, h.findModule?]

/-- Copies for corresponding keys are made at the same place. -/
theorem agree_specialisedCopy (h : Twins p q) {key key' : SpecialisationKey}
    (hkey : KeyAlike p q key key') (hsound : KeySound p key) (hsound' : KeySound q key') :
    Agree (fun copy copy' p' q' => copy = copy' ∧ Twins p' q' ∧ p.TablesGrow p' ∧ q.TablesGrow q')
      (specialisedCopy key) (specialisedCopy key') p q := by
  obtain ⟨V, halike⟩ := h.alike
  obtain ⟨source, values'⟩ := key'
  obtain rfl : source = key.source := hkey.source
  obtain ⟨_, p', hrun, hmade⟩ :=
    specialisedCopy_makes h.left hsound.source hsound.length hsound.values
  obtain ⟨_, q', hrun', hmade'⟩ :=
    specialisedCopy_makes h.right hsound'.source hsound'.length hsound'.values
  have hplace : (⟨q.modules.size⟩ : ModuleId) = ⟨p.modules.size⟩ := by rw [halike.size]
  unfold Agree
  rw [hrun, hrun']
  refine .ok ⟨hplace.symm, ⟨hmade.wellFormed, hmade'.wellFormed, ?_⟩, hmade.tables, hmade'.tables⟩
  -- both copies, then the parameters of both
  obtain ⟨p₁, hcopy, hbind⟩ := specialisedCopy_eq_ok.mp hrun
  obtain ⟨q₁, hcopy', hbind'⟩ := specialisedCopy_eq_ok.mp hrun'
  dsimp only at hcopy' hbind'
  rw [(halike.moduleAt key.source).name, specialisedName_alike halike] at hcopy'
  obtain ⟨p₂, hrun₂, hc⟩ := h.left.specialiseModule_copied hsound.source
    (specialisedName p (p.moduleAt key.source).name)
  obtain ⟨q₂, hrun₂', hc'⟩ := h.right.specialiseModule_copied hsound'.source
    (specialisedName p (p.moduleAt key.source).name)
  cases hcopy.symm.trans hrun₂
  cases hcopy'.symm.trans hrun₂'
  have hcopied := halike.specialised h.left h.right hsound.source hc hc'
  rw [hplace] at hbind'
  obtain ⟨p₃, q₃, hbound, hbound', hbinds⟩ := bound_alike hcopied ⟨p.modules.size⟩
    (hkey.grow hc.tables hc'.tables).values
  cases hbind.symm.trans hbound
  cases hbind'.symm.trans hbound'
  exact ⟨_, hbinds⟩

/-! ## Keys -/

/-- Values that correspond are converted to values that do. -/
theorem castTo?_alike {f : TextId → Option TextId} {v v' : Value} (t : Ty)
    (h : v.mapParts some f = some v') :
    ((v.castTo? t).getD v).mapParts some f = some ((v'.castTo? t).getD v') := by
  obtain rfl | ⟨s, s', rfl, rfl⟩ | ⟨u, vs, vs', rfl, rfl⟩ := Value.mapParts_cases h
  · cases hcast : v'.castTo? t with
    | none => exact h
    | some w =>
        rcases castTo?_cases hcast with rfl | hplain
        · exact h
        · exact hplain some f
  · rw [castTo?_getD_of_not_number rfl rfl, castTo?_getD_of_not_number rfl rfl]
    exact h
  · rw [castTo?_getD_of_not_number rfl rfl, castTo?_getD_of_not_number rfl rfl]
    exact h

/-- Edits of a list that may fail do so for related lists together. -/
theorem mapM_except_related {ε α β γ δ : Type} {φ : α → γ → Prop} {ψ : β → δ → Prop} {l : List α}
    {l' : List γ} {f : α → Except ε β} {g : γ → Except ε δ} (hl : List.Forall₂ φ l l')
    (hfg : ∀ x y, φ x y → (∃ e, f x = .error e ∧ g y = .error e) ∨
      ∃ a b, f x = .ok a ∧ g y = .ok b ∧ ψ a b) :
    (∃ e, l.mapM f = .error e ∧ l'.mapM g = .error e) ∨
      ∃ u v, l.mapM f = .ok u ∧ l'.mapM g = .ok v ∧ List.Forall₂ ψ u v := by
  induction hl with
  | nil => exact .inr ⟨[], [], rfl, rfl, .nil⟩
  | cons hxy _ ih =>
      rw [List.mapM_cons, List.mapM_cons]
      obtain ⟨e, hx, hy⟩ | ⟨a, b, hx, hy, hab⟩ := hfg _ _ hxy
      · rw [hx, hy]
        exact .inl ⟨e, rfl, rfl⟩
      · obtain ⟨e, hu, hv⟩ | ⟨u, v, hu, hv, huv⟩ := ih
        · rw [hx, hy, hu, hv]
          exact .inl ⟨e, rfl, rfl⟩
        · rw [hx, hy, hu, hv]
          exact .inr ⟨a :: u, b :: v, rfl, rfl, .cons hab huv⟩

/-- Corresponding arguments are refused alike, or bound as corresponding values. -/
theorem boundValue_alike (h : Alike V p q) (span : Span) {param param' : VariableId}
    (hparam : V param = some param') {arg arg' : ConstantId}
    (harg : p.constantTo some q arg = some arg') :
    (∃ d, boundValue p span param arg = .error d ∧ boundValue q span param' arg' = .error d) ∨
      ∃ v v', boundValue p span param arg = .ok v ∧ boundValue q span param' arg' = .ok v' ∧
        v.mapParts some (p.textTo q) = some v' := by
  have hvalue := Alike.constantAt harg
  unfold boundValue
  simp only [h.ty hparam, Value.ty_of_mapParts hvalue, (h.variableAt hparam).name, h.describe]
  split
  · exact .inr ⟨_, _, rfl, rfl, castTo?_alike _ hvalue⟩
  · exact .inl ⟨_, rfl, rfl⟩

/-- Corresponding nodes have corresponding keys. -/
theorem specialisationKey_alike (h : Alike V p q) {n n' : Node}
    (hn : n.Renames (alikeNames V p q) n') :
    (∃ d, specialisationKey p n = .error d ∧ specialisationKey q n' = .error d) ∨
      ∃ key key', specialisationKey p n = .ok key ∧ specialisationKey q n' = .ok key' ∧
        KeyAlike p q key key' := by
  have hargs := mapM_eq_some_iff_forall₂.mp hn.args
  unfold specialisationKey
  rw [hn.source, hn.span, h.findModule?]
  cases p.findModule? n.source with
  | none => exact .inl ⟨_, rfl, rfl⟩
  | some source =>
      have hm := h.moduleAt source
      have hparameters := mapM_eq_some_iff_forall₂.mp hm.parameters
      dsimp only
      rw [hm.name, ← hparameters.length_eq, ← hargs.length_eq]
      by_cases hlength : (p.moduleAt source).parameters.length ≠ n.args.length
      · rw [if_pos hlength, if_pos hlength]
        exact .inl ⟨_, rfl, rfl⟩
      · rw [if_neg hlength, if_neg hlength]
        obtain ⟨d, hp, hq⟩ | ⟨values, values', hp, hq, hvalues⟩ := mapM_except_related
          (f := fun x => boundValue p n.span x.1 x.2) (g := fun x => boundValue q n.span x.1 x.2)
          (Check.forall₂_zip hparameters hargs)
          fun x y hxy => boundValue_alike h n.span hxy.1 hxy.2
        · rw [hp, hq]
          exact .inl ⟨_, rfl, rfl⟩
        · rw [hp, hq]
          exact .inr ⟨_, _, rfl, rfl, rfl, mapM_eq_some_iff_forall₂.mpr hvalues⟩

/-! ## Nodes -/

/-- The copies made so far, for corresponding keys and at the same places. -/
def MadeAlike (p q : Program) (made made' : Specialisations) : Prop :=
  List.Forall₂ (fun x y => KeyAlike p q x.1 y.1 ∧ x.2 = y.2) made made'

/-- Copies stay at corresponding keys when the tables grow. -/
theorem MadeAlike.grow {made made' : Specialisations} (h : MadeAlike p q made made')
    (hp : p.TablesGrow p') (hq : q.TablesGrow q') : MadeAlike p' q' made made' :=
  h.imp fun _ _ hx => ⟨hx.1.grow hp hq, hx.2⟩

/-- A copy that was made before is found at the same place in both programs. -/
theorem MadeAlike.lookup (htexts : p.texts.toList.Nodup) {made made' : Specialisations}
    (h : MadeAlike p q made made') {key key' : SpecialisationKey} (hkey : KeyAlike p q key key') :
    made'.lookup key' = made.lookup key := by
  induction h with
  | nil => rfl
  | @cons x y made made' hxy _ ih =>
      obtain ⟨k, copy⟩ := x
      obtain ⟨k', copy'⟩ := y
      obtain ⟨hk, rfl⟩ := hxy
      have hsame : (key' == k') = (key == k) := by
        rw [Bool.eq_iff_iff, beq_iff_eq, beq_iff_eq]
        exact hkey.eq_iff htexts hk
      rw [List.lookup_cons, List.lookup_cons, hsame, ih]

variable {settings : Settings}

/-- Corresponding nodes get their copies alike: an old one, a new one, or the same diagnostic. -/
theorem agree_copyFor (h : Twins p q) (halike : Alike V p q) {n n' : Node}
    (hn : n.Renames (alikeNames V p q) n') (hargs : ∀ c ∈ n.args, p.sound c = some c)
    (hargs' : ∀ c ∈ n'.args, q.sound c = some c) {made made' : Specialisations}
    (hmade : MadeAlike p q made made') :
    Agree (fun x y p' q' => x.1 = y.1 ∧ Twins p' q' ∧ MadeAlike p' q' x.2 y.2)
      (copyFor settings n made) (copyFor settings n' made') p q := by
  unfold copyFor
  refine .program_bind ?_
  obtain ⟨d, hp, hq⟩ | ⟨key, key', hp, hq, hkey⟩ := specialisationKey_alike halike hn
  · rw [hp, hq]
    exact agree_throw d
  · rw [hp, hq]
    dsimp only
    rw [hmade.lookup halike.texts hkey, ← hmade.length_eq, hn.span]
    split
    · exact agree_pure ⟨rfl, h, hmade⟩
    · refine .ite (fun _ => agree_throw_bind _ _ _) fun _ => ?_
      refine .bind (agree_specialisedCopy h hkey (keySound_of_specialisationKey hargs hp)
        (keySound_of_specialisationKey hargs' hq)) ?_
      rintro copy _ p' q' ⟨rfl, h, hgrow, hgrow'⟩
      exact agree_pure ⟨rfl, h, .cons ⟨hkey.grow hgrow hgrow', rfl⟩ (hmade.grow hgrow hgrow')⟩

/-- Pointing a node to another module keeps a program well-formed. -/
theorem wellFormed_pointed (hp : p.WellFormed) (graph : ModuleId) (k : NodeId) (source : String) :
    (pointed p graph k source).WellFormed := by
  by_cases hgraph : graph ∈ p.modules.handles
  · exact hp.adds (adds_pointed hp hgraph k source)
  · rw [pointed, modifyModule_of_not_mem hgraph]
    exact hp

/-- Corresponding nodes are pointed to copies of the same name. -/
theorem Twins.pointed (h : Twins p q) (graph : ModuleId) (k : NodeId) (source : String) :
    Twins (pointed p graph k source) (pointed q graph k source) where
  left := wellFormed_pointed h.left graph k source
  right := wellFormed_pointed h.right graph k source
  alike := by
    obtain ⟨V, halike⟩ := h.alike
    refine ⟨V, (AlikeBy.modifyModule ⟨halike, rfl⟩ graph fun m m' hm => ?_).alike⟩
    refine { hm with nodes := Arena.rename_modify hm.nodes (fun n n' hn => ?_) k }
    have hn := Node.rename_eq_some_iff.mp hn
    exact Node.rename_eq_some_iff.mpr { hn with source := rfl, args := rfl }

/-- The nodes of a graph are specialised alike. -/
theorem agree_specialiseNodes (h : Twins p q) (graph : ModuleId) (ids : List NodeId)
    {made made' : Specialisations} (hmade : MadeAlike p q made made') :
    Agree (fun made made' p' q' => Twins p' q' ∧ MadeAlike p' q' made made')
      (specialiseNodes settings graph ids made) (specialiseNodes settings graph ids made') p q := by
  induction ids generalizing p q made made' with
  | nil => exact agree_pure ⟨h, hmade⟩
  | cons k ids ih =>
      obtain ⟨V, halike⟩ := h.alike
      unfold specialiseNodes
      refine .program_bind (.bind (agree_copyFor h halike ((halike.moduleAt graph).node k)
        (node_args_sound h.left graph k) (node_args_sound h.right graph k) hmade) ?_)
      rintro ⟨copy, made⟩ ⟨copy', made'⟩ p' q' ⟨hcopy, h, hmade⟩
      obtain rfl : copy = copy' := hcopy
      refine .program_bind ?_
      obtain ⟨V, halike⟩ := h.alike
      dsimp only
      rw [(halike.moduleAt copy).name]
      refine .bind (agree_modifyModule (R := fun _ _ p' q' => Twins p' q' ∧
        MadeAlike p' q' made made') ⟨h.pointed graph k _, hmade.grow ?_ ?_⟩) ?_
      · exact (TablesGrow.refl p').congr rfl rfl
      · exact (TablesGrow.refl q').congr rfl rfl
      rintro _ _ p' q' ⟨h, hmade⟩
      exact ih h hmade

/-- All graphs are specialised alike, by induction on the bound on the modules visited. -/
theorem agree_specialiseFrom (h : Twins p q) (fuel : Nat) (id : ModuleId)
    {made made' : Specialisations} (hmade : MadeAlike p q made made') :
    Agree (fun _ _ => Twins) (specialiseFrom settings fuel id made)
      (specialiseFrom settings fuel id made') p q := by
  induction fuel generalizing p q id made made' with
  | zero => exact agree_pure h
  | succ fuel ih =>
      obtain ⟨V, halike⟩ := h.alike
      unfold specialiseFrom
      refine .program_bind ?_
      have hget := Arena.get?_of_rename halike.modules id
      cases hm : p.modules.get? id with
      | none =>
          rw [hm] at hget
          rw [← Option.some.inj hget]
          exact agree_pure h
      | some m =>
          rw [hm] at hget
          simp at hget
          obtain ⟨m', hrename, hget⟩ := hget
          have hmodule := Module.rename_eq_some_iff.mp hrename
          -- the same nodes are pending, since renaming keeps the number of arguments
          have hpending : (m'.nodes.entries.filter (!·.2.args.isEmpty)).map (·.1) =
              (m.nodes.entries.filter (!·.2.args.isEmpty)).map (·.1) := by
            refine map_eq_of_forall₂ (filter_of_forall₂ (Arena.entries_of_rename hmodule.nodes)
              fun x y hxy => ?_) fun _ _ hxy => hxy.1.symm
            have hargs := mapM_eq_some_iff_forall₂.mp (Node.rename_eq_some_iff.mp hxy.2).args
            rw [isEmpty_eq_of_forall₂ hargs]
          rw [← hget]
          dsimp only
          rw [hmodule.isGraph, hpending]
          refine .bind (agree_specialiseNodes h id _ hmade) ?_
          rintro made made' p' q' ⟨h, hmade⟩
          exact ih h _ hmade

/-- Specialising does the same to alike programs. -/
theorem agree_specialiseInstances (h : Twins p q) (settings : Settings) :
    Agree (fun _ _ => Twins) (specialiseInstances settings) (specialiseInstances settings) p q := by
  obtain ⟨V, halike⟩ := h.alike
  refine .program_bind ?_
  rw [halike.size]
  exact agree_specialiseFrom h _ _ .nil

end Link

end SignalGraph

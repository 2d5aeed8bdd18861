import SignalGraph.Link.Specialise
import SignalGraph.Proofs.Program.CopyClosed

/-!
# SignalGraph.Proofs.Link.SpecialisationKeys

What decides which copy a node gets, while copies are being added and nodes pointed to them.

* `KeptUpToNodes` says that a program keeps all that another one has, nodes apart;
* the key of a node stays the same as long as its module was there before
  (`specialisationKey_congr`);
* the bound values mention only what the arguments mention (`boundValue_sound`);
* copies get names that no module has (`findModule?_specialisedName`).
-/

namespace SignalGraph

namespace Program

/-! ## Programs that are kept, nodes apart -/

/-- All that the first program has stands in the second at the same place, though modules may have
other nodes there. -/
structure KeptUpToNodes (p q : Program) : Prop where
  modules : ∀ ⦃id m⦄, p.modules.get? id = some m →
    ∃ nodes, q.modules.get? id = some { m with nodes }
  structs : p.structs.toList <+: q.structs.toList
  functions : p.functions.toList <+: q.functions.toList
  vars : p.vars.toList <+: q.vars.toList
  tables : p.TablesGrow q

namespace KeptUpToNodes

variable {p q r : Program}

theorem refl (p : Program) : p.KeptUpToNodes p where
  modules _ m hm := ⟨m.nodes, hm⟩
  structs := List.prefix_refl _
  functions := List.prefix_refl _
  vars := List.prefix_refl _
  tables := .refl p

/-- What is kept twice up to nodes is kept up to nodes. -/
theorem trans (h : p.KeptUpToNodes q) (h' : q.KeptUpToNodes r) : p.KeptUpToNodes r where
  modules id m hm := by
    obtain ⟨nodes, hq⟩ := h.modules hm
    obtain ⟨nodes', hr⟩ := h'.modules hq
    exact ⟨nodes', hr⟩
  structs := h.structs.trans h'.structs
  functions := h.functions.trans h'.functions
  vars := h.vars.trans h'.vars
  tables := h.tables.trans h'.tables

variable (h : p.KeptUpToNodes q)

include h

/-- Modules stay where they are. -/
theorem mem_handles {id : ModuleId} (hid : id ∈ p.modules.handles) : id ∈ q.modules.handles := by
  rw [Arena.mem_handles_iff] at hid ⊢
  obtain ⟨nodes, hq⟩ := h.modules (Arena.get?_eq_some_get hid)
  exact Arena.lt_size_of_get? hq

/-- A module is kept but for its nodes. -/
theorem moduleAt {id : ModuleId} (hid : id ∈ p.modules.handles) :
    ∃ nodes, q.moduleAt id = { p.moduleAt id with nodes } := by
  obtain ⟨nodes, hq⟩ := h.modules (Arena.get?_eq_some_get (Arena.mem_handles_iff.mp hid))
  exact ⟨nodes, Arena.get_eq_of_get? hq⟩

/-- Modules keep their names. -/
theorem moduleAt_name {id : ModuleId} (hid : id ∈ p.modules.handles) :
    (q.moduleAt id).name = (p.moduleAt id).name := by
  obtain ⟨nodes, hm⟩ := h.moduleAt hid
  rw [hm]

/-- Modules keep their parameters. -/
theorem moduleAt_parameters {id : ModuleId} (hid : id ∈ p.modules.handles) :
    (q.moduleAt id).parameters = (p.moduleAt id).parameters := by
  obtain ⟨nodes, hm⟩ := h.moduleAt hid
  rw [hm]

/-- Structs are kept. -/
theorem structAt {s : StructId} (hs : s.idx < p.structs.size) : q.structAt s = p.structAt s :=
  Arena.get_eq_of_get? (Arena.get?_of_isPrefix h.structs (Arena.get?_eq_some_get hs))

/-- Functions are kept. -/
theorem functionAt {f : FunctionId} (hf : f.idx < p.functions.size) :
    q.functionAt f = p.functionAt f :=
  Arena.get_eq_of_get? (Arena.get?_of_isPrefix h.functions (Arena.get?_eq_some_get hf))

/-- Variables are kept. -/
theorem variableAt {v : VariableId} (hv : v.idx < p.vars.size) :
    q.variableAt v = p.variableAt v :=
  Arena.get_eq_of_get? (Arena.get?_of_isPrefix h.vars (Arena.get?_eq_some_get hv))

/-- Constants are kept. -/
theorem constantAt {c : ConstantId} (hc : c.idx < p.constants.size) :
    q.constantAt c = p.constantAt c :=
  Arena.get_eq_of_get? (Arena.get?_of_isPrefix h.tables.constants (Arena.get?_eq_some_get hc))

/-- A module that was there before is found under the same names. -/
theorem findModule?_iff {id : ModuleId} (hid : id ∈ p.modules.handles) {name : String} :
    q.findModule? name = some id ↔ p.findModule? name = some id := by
  have hlt := Arena.mem_handles_iff.mp hid
  have hat := Arena.get?_eq_some_get hlt
  obtain ⟨nodes, hq⟩ := h.modules hat
  have hbefore : ∀ k : ModuleId, k.idx < id.idx → ∃ m nodes, p.modules.get? k = some m ∧
      q.modules.get? k = some { m with nodes } := by
    intro k hk
    have hm := Arena.get?_eq_some_get (Nat.lt_trans hk hlt)
    obtain ⟨nodes, hq⟩ := h.modules hm
    exact ⟨_, nodes, hm, hq⟩
  simp only [findModule?, Arena.find?_eq_some_iff]
  constructor
  · rintro ⟨m', hm', hname, hfirst⟩
    cases hq.symm.trans hm'
    refine ⟨_, hat, hname, fun k y hk hy => ?_⟩
    obtain ⟨m, nodes', hm, hqm⟩ := hbefore k hk
    cases hy.symm.trans hm
    have hother := hfirst k _ hk hqm
    exact hother
  · rintro ⟨m, hm, hname, hfirst⟩
    cases hat.symm.trans hm
    refine ⟨_, hq, hname, fun k y hk hy => ?_⟩
    obtain ⟨m, nodes', hm, hqm⟩ := hbefore k hk
    cases hy.symm.trans hqm
    exact hfirst k m hk hm

end KeptUpToNodes

/-- What keeps everything keeps everything but nodes. -/
theorem KeptIn.keptUpToNodes {p q : Program} (h : p.KeptIn q) (htables : p.TablesGrow q) :
    p.KeptUpToNodes q where
  modules _ m hm := ⟨m.nodes, Arena.get?_of_isPrefix h.modules hm⟩
  structs := h.structs
  functions := h.functions
  vars := h.vars
  tables := htables

end Program

/-- A list of steps succeeds exactly if each of them does. -/
theorem mapM_eq_ok_iff_forall₂ {ε α β : Type} {f : α → Except ε β} {l : List α} {l' : List β} :
    l.mapM f = .ok l' ↔ List.Forall₂ (fun a b => f a = .ok b) l l' := by
  induction l generalizing l' with
  | nil =>
      rw [List.forall₂_nil_left_iff, List.mapM_nil]
      exact ⟨fun h => (Except.ok.inj h).symm, fun h => h ▸ rfl⟩
  | cons a l ih =>
      rw [List.forall₂_cons_left_iff, List.mapM_cons]
      cases hfa : f a with
      | error e => simp [bind, Except.bind]
      | ok b =>
          cases hrest : l.mapM f with
          | error e => simp [bind, Except.bind, ← ih, hrest]
          | ok bs =>
              simp only [bind, Except.bind, pure, Except.pure, Except.ok.injEq, ← ih, hrest]
              constructor
              · exact fun h => ⟨b, bs, rfl, rfl, h.symm⟩
              · rintro ⟨_, _, rfl, rfl, rfl⟩
                rfl

namespace Link

open Program

variable {p q : Program} {n : Node} {key : SpecialisationKey}

/-! ## Bound values -/

/-- An argument is accepted if it can be cast without loss; the value is the result of the cast, or
the argument where the cast gives none. -/
theorem boundValue_eq_ok_iff {span : Span} {param : VariableId} {arg : ConstantId} {value : Value} :
    boundValue p span param arg = .ok value ↔
      (p.variableAt param).ty.canSilentlyCast (p.constantAt arg).ty ∧
        ((p.constantAt arg).castTo? (p.variableAt param).ty).getD (p.constantAt arg) = value := by
  unfold boundValue
  by_cases hcast : (p.variableAt param).ty.canSilentlyCast (p.constantAt arg).ty
  · simp [hcast]
  · simp [hcast]

/-- The node's module, with as many parameters as the node has arguments, and what they are bound
to. -/
theorem specialisationKey_eq_ok_iff : specialisationKey p n = .ok key ↔
    p.findModule? n.source = some key.source ∧
      (p.moduleAt key.source).parameters.length = n.args.length ∧
      List.Forall₂ (fun x value => boundValue p n.span x.1 x.2 = .ok value)
        ((p.moduleAt key.source).parameters.zip n.args) key.values := by
  obtain ⟨source, values⟩ := key
  unfold specialisationKey
  cases hfind : p.findModule? n.source with
  | none => simp [throw, throwThe, MonadExceptOf.throw]
  | some source' =>
      -- the module is found first, then the numbers are compared, and then the values are converted
      by_cases hlength : (p.moduleAt source').parameters.length = n.args.length
      · cases hvalues : ((p.moduleAt source').parameters.zip n.args).mapM
            (fun x => boundValue p n.span x.1 x.2) with
        | error e =>
            simp only [bind, Except.bind, hvalues, Option.some.injEq]
            rw [if_neg (not_not.mpr hlength)]
            constructor
            · intro h
              cases h
            · rintro ⟨rfl, -, hbound⟩
              rw [← mapM_eq_ok_iff_forall₂, hvalues] at hbound
              cases hbound
        | ok values' =>
            simp only [bind, Except.bind, pure, Except.pure, hvalues, Option.some.injEq]
            rw [if_neg (not_not.mpr hlength), Except.ok.injEq, SpecialisationKey.mk.injEq]
            refine and_congr_right ?_
            rintro rfl
            rw [← mapM_eq_ok_iff_forall₂, hvalues, Except.ok.injEq]
            exact (and_iff_right hlength).symm
      · simp only [bind, Except.bind, throw, throwThe, MonadExceptOf.throw, Option.some.injEq]
        rw [if_pos hlength]
        constructor
        · intro h
          cases h
        · rintro ⟨rfl, hsame, -⟩
          exact absurd hsame hlength

/-- The key of a node whose module was there before. -/
theorem specialisationKey_congr (hp : p.WellFormed) (h : p.KeptUpToNodes q)
    (hsource : key.source ∈ p.modules.handles) (hargs : ∀ c ∈ n.args, c.idx < p.constants.size) :
    specialisationKey q n = .ok key ↔ specialisationKey p n = .ok key := by
  rw [specialisationKey_eq_ok_iff, specialisationKey_eq_ok_iff, h.findModule?_iff hsource,
    h.moduleAt_parameters hsource]
  refine and_congr_right fun _ => and_congr_right fun _ => ?_
  have hbound : ∀ x ∈ (p.moduleAt key.source).parameters.zip n.args, ∀ value,
      boundValue q n.span x.1 x.2 = .ok value ↔ boundValue p n.span x.1 x.2 = .ok value := by
    rintro ⟨param, arg⟩ hx value
    obtain ⟨hparam, harg⟩ := List.of_mem_zip hx
    have hdeclared : param ∈ p.declared :=
      List.mem_append_left _ (List.mem_flatMap.mpr
        ⟨key.source, hsource, List.mem_append_left _ hparam⟩)
    rw [boundValue_eq_ok_iff, boundValue_eq_ok_iff, h.variableAt (hp.declaredInRange _ hdeclared),
      h.constantAt (hargs arg harg)]
  constructor
  · exact forall₂_imp_mem fun x hx value => (hbound x hx value).mp
  · exact forall₂_imp_mem fun x hx value => (hbound x hx value).mpr

/-- Converting a value gives the value itself, or one that mentions nothing. -/
theorem castTo?_cases {v w : Value} {t : Ty} (h : v.castTo? t = some w) :
    w = v ∨ ∀ (onTy : Ty → Option Ty) (onText : TextId → Option TextId),
      w.mapParts onTy onText = some w := by
  unfold Value.castTo? at h
  by_cases hty : v.ty = t.unqualified
  · rw [if_pos hty] at h
    exact .inl (Option.some.inj h).symm
  · rw [if_neg hty] at h
    refine .inr fun onTy onText => ?_
    split at h
    all_goals first
      | cases h
      | obtain ⟨x, -, rfl⟩ := Option.map_eq_some_iff.mp h
        rfl

/-- What is no number stays what it is. -/
theorem castTo?_getD_of_not_number {v : Value} {t : Ty} (hint : v.asInt64? = none)
    (hfloat : v.asFloat64? = none) : (v.castTo? t).getD v = v := by
  unfold Value.castTo?
  split
  · rfl
  · simp only [hint, hfloat, Option.map_none]
    split <;> rfl

/-- The value that is bound is sound if the argument is. -/
theorem boundValue_sound {span : Span} {param : VariableId} {arg : ConstantId} {value : Value}
    (h : boundValue p span param arg = .ok value) (harg : p.sound arg = some arg) :
    SoundValue p value := by
  obtain ⟨-, hvalue⟩ := boundValue_eq_ok_iff.mp h
  obtain ⟨-, v, v', hv, hv'⟩ := sound_eq_some_iff.mp harg
  have hat : p.constantAt arg = v := Arena.get_eq_of_get? hv
  rw [hat] at hvalue
  cases hcast : v.castTo? (p.variableAt param).ty with
  | none =>
      rw [hcast] at hvalue
      exact ⟨v', hvalue ▸ hv'⟩
  | some w =>
      rw [hcast, Option.getD_some] at hvalue
      subst hvalue
      rcases castTo?_cases hcast with rfl | hplain
      · exact ⟨v', hv'⟩
      · exact ⟨w, hplain _ _⟩

/-! ## Names of copies -/

/-- The name of a specialised copy is free. -/
theorem findModule?_specialisedName (p : Program) (base : String) :
    p.findModule? (specialisedName p base) = none := by
  have hnodup : ((List.range (p.modules.size + 1)).map
      fun n => base ++ "_specialised_" ++ toString (n + 1)).Nodup := by
    refine List.nodup_range.map fun i j heq => ?_
    have hnumber := Arena.eq_of_toString_eq ((String.append_right_inj _).mp heq)
    omega
  obtain ⟨name, hfind⟩ := Arena.exists_free_name (a := p.modules) Module.name hnodup (by simp)
  have hname : specialisedName p base = name := congrArg (·.getD (base ++ "_specialised_")) hfind
  rw [hname]
  have hfree := List.find?_some hfind
  simpa [findModule?] using hfree

end Link

end SignalGraph

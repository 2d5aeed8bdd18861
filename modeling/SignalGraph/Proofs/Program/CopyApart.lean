import SignalGraph.Proofs.Program.Alike
import SignalGraph.Proofs.Program.CopyClosed

/-!
# SignalGraph.Proofs.Program.CopyApart

Copying a module within its program.  The copy stands apart from the module: what the module owns is
replaced by copies, all else is kept, so nothing of the copy refers to anything that the module owns
(`specialiseModule_apart`).
-/

namespace SignalGraph

open Copy CopySource

namespace Program

/-- In `now` stands a copy of a module of `old`, under a new name, and all else stays.  `r` is what
the copy calls the handles of `old`. -/
structure CopiedApart (old : Program) (id : ModuleId) (name : String) (r : Renaming)
    (now : Program) : Prop where
  kept : old.KeptIn now
  size : now.modules.size = old.modules.size + 1
  /-- What the module owns has one copy each, which is new. -/
  fresh : ∀ x, old.Owns id x → ∃ y, r.onReference (old.textTo now) x = some y ∧ old.Created now y
  injective : ∀ x x' y, old.Owns id x → old.Owns id x' →
    r.onReference (old.textTo now) x = some y → r.onReference (old.textTo now) x' = some y → x = x'
  /-- What it does not own keeps its handle. -/
  onModule : ∀ m, r.onModule m = if m = id then some ⟨old.modules.size⟩ else some m
  onStruct : ∀ s, ¬ old.Owns id (.record s) → r.onStruct s = some s
  onFunction : ∀ f, ¬ old.Owns id (.func f) → r.onFunction f = some f
  onVariable : ∀ v, ¬ old.Owns id (.var v) → r.onVariable v = some v
  onBlock : ∀ b, r.onBlock b = some b
  /-- Constants are interned again, which gives the old handle if the value mentions nothing
  owned. -/
  onConstant : ∀ c c', r.onConstant c = some c' →
    (old.constantAt c).mapParts r.onTy (old.textTo now) = some (now.constantAt c') ∧
      now.constants.find? (now.constantAt c') = some c'
  onOtherConstant : old.constants.toList.Nodup → old.texts.toList.Nodup → ∀ c,
    .const c ∈ old.references id → (∀ x ∈ old.expand (.const c), ¬ old.Owns id x) →
      r.onConstant c = some c
  /-- The copies are what they are copied from, with these handles. -/
  module : (CopyPlan.retitled (some name) (old.moduleAt id)).rename r =
    some (now.moduleAt ⟨old.modules.size⟩)
  structs : ∀ s s', old.Owns id (.record s) → r.onStruct s = some s' →
    (old.structAt s).rename r = some (now.structAt s')
  functions : ∀ f f', old.Owns id (.func f) → r.onFunction f = some f' →
    (old.functionAt f).labelled.rename r = some (now.functionAt f')
  vars : ∀ v v', old.Owns id (.var v) → r.onVariable v = some v' →
    (old.variableAt v).rename r = some (now.variableAt v')
  references : (old.references id).mapM (r.onReference (old.textTo now)) =
    some (now.references ⟨old.modules.size⟩)
  /-- Nothing of the copy refers to what the module owns. -/
  apart : ∀ x ∈ now.references ⟨old.modules.size⟩, ¬ old.Owns id x

end Program

/-- Values mention structs and texts only. -/
theorem Value.mem_mentions {v : Value} {x : Reference} (hx : x ∈ v.mentions) :
    ∃ y, (Renaming.onlyStructs some).onReference some x = some y := by
  have hkeeps : v.mapParts (Renaming.onlyStructs some).onTy some = some v :=
    Value.mapParts_keeps (Ty.mapStructs_keeps fun _ => rfl) (fun _ => rfl) v
  exact exists_of_mapM (Tracks.mapM (Value.mentions_tracks (.onlyStructs some) some) hkeeps) hx

/-! ## Handles that are replaced -/

/-- `names` replaces the handles of `own`, which are below `start`, by distinct handles from `start`
on, and keeps all others. -/
structure Replaces {e : Entity} (names : Handle e → Option (Handle e)) (own : Handle e → Prop)
    (start stop : Nat) : Prop where
  old : ∀ a, own a → a.idx < start
  fresh : ∀ a, own a → ∃ b, names a = some b ∧ start ≤ b.idx ∧ b.idx < stop
  injective : ∀ a a' b, own a → own a' → names a = some b → names a' = some b → a = a'
  kept : ∀ a, ¬ own a → names a = some a

/-- No handle gets the name of one that is replaced. -/
theorem Replaces.not_own {e : Entity} {names : Handle e → Option (Handle e)}
    {own : Handle e → Prop} {start stop : Nat} (h : Replaces names own start stop)
    {a b : Handle e} (hab : names a = some b) : ¬ own b := by
  intro hb
  by_cases ha : own a
  · obtain ⟨b', hb', hle, -⟩ := h.fresh a ha
    cases hab.symm.trans hb'
    exact Nat.lt_irrefl _ (Nat.lt_of_lt_of_le (h.old b hb) hle)
  · cases hab.symm.trans (h.kept a ha)
    exact ha hb

/-- Copying replaces the listed handles. -/
theorem CopySource.replaces_known {e : Entity} {c : CopySource} {start : Nat} {l : List (Handle e)}
    (hkeep : c.keepOutside = true) (hl : l.Nodup) (hold : ∀ a ∈ l, a.idx < start) :
    Replaces (c.known (assigned start l).reverse) (· ∈ l) start (start + l.length) where
  old := hold
  fresh a ha := by
    obtain ⟨u, v, hu⟩ := List.append_of_mem ha
    refine ⟨_, CopyPlan.known_assigned c hl hu, Nat.le_add_right _ _, ?_⟩
    simp [hu]
  injective a a' b ha ha' hab hab' := by
    obtain ⟨u, v, hu⟩ := List.append_of_mem ha
    obtain ⟨u', v', hu'⟩ := List.append_of_mem ha'
    rw [CopyPlan.known_assigned c hl hu] at hab
    rw [CopyPlan.known_assigned c hl hu'] at hab'
    have hlength : u.length = u'.length := by
      have hidx := congrArg Handle.idx (Option.some.inj (hab.trans hab'.symm))
      simpa using hidx
    have hat : l[u.length]? = some a := by simp [hu]
    have hat' : l[u'.length]? = some a' := by simp [hu']
    rw [hlength] at hat
    exact Option.some.inj (hat.symm.trans hat')
  kept a ha := by simp [known, lookup_assigned_eq_none ha, hkeep]

namespace Program

section

variable {p : Program} (h : p.WellFormed) {id : ModuleId} (hid : id ∈ p.modules.handles)
  {name : String} {q : Program} (hc : (p.specialisation id).Copied (some name) q)

/-- The structs of the module are copied. -/
theorem specialisation_structs : (p.specialisation id).structs = (p.moduleAt id).structs := by
  simp [specialisation, CopyPlan.ofModules]

/-- The functions of the module are copied. -/
theorem specialisation_functions :
    (p.specialisation id).functions = (p.moduleAt id).functions := by
  simp [specialisation, CopyPlan.ofModules]

/-- The variables that the module owns are copied. -/
theorem specialisation_vars {v : VariableId} :
    v ∈ (p.specialisation id).vars ↔ v ∈ p.ownVars id := by
  unfold specialisation
  rw [mem_ofModules_vars_iff]
  simp

section

include hc

/-- A constant that mentions nothing of the module's keeps its handle: its copy is an equal value,
and constants are interned. -/
theorem onConstant_of_not_owned
    (hkept : ∀ s, ¬ p.Owns id (.record s) → ((p.specialisation id).naming q).onStruct s = some s)
    (hconstants : p.constants.toList.Nodup)
    (htexts : p.texts.toList.Nodup) {c c' : ConstantId}
    (hcc : ((p.specialisation id).naming q).onConstant c = some c')
    (hown : ∀ x ∈ p.expand (.const c), ¬ p.Owns id x) : c' = c := by
  simp only [CopyPlan.naming, names, constantTo, Option.bind_eq_bind,
    Option.bind_eq_some_iff] at hcc
  obtain ⟨v, hv, w, hw, hfind⟩ := hcc
  have hat : p.constantAt c = v := Arena.get_eq_of_get? hv
  -- the value mentions no struct that is replaced, so it is interned as it is
  let kept : StructId → Option StructId := fun s =>
    if s ∈ (p.moduleAt id).structs then none else some s
  have hrun := Value.mentions_tracks ((p.specialisation id).naming q) (p.textTo q) v
  rw [show v.mapParts ((p.specialisation id).naming q).onTy (p.textTo q) = some w from hw] at hrun
  obtain ⟨u, hu⟩ : ∃ u, v.mapParts (Renaming.onlyStructs kept).onTy (p.textTo q) = some u := by
    refine Tracks.defined (Value.mentions_tracks (.onlyStructs kept) (p.textTo q)) fun x hx => ?_
    obtain ⟨x', hx'⟩ := exists_of_mapM hrun hx
    cases x with
    | record s =>
        have hs : s ∉ (p.moduleAt id).structs := hown (.record s) (by simp [expand, hat, hx])
        exact ⟨.record s, by simp [Renaming.onReference, Renaming.onlyStructs, kept, hs]⟩
    | text t => exact ⟨x', hx'⟩
    | mod _ | func _ | var _ | const _ | block _ =>
        obtain ⟨y, hy⟩ := Value.mem_mentions hx
        cases hy
  have hstructs : Extends kept ((p.specialisation id).naming q).onStruct := by
    intro s s' hs
    obtain ⟨hs, hs'⟩ := Option.ite_none_left_eq_some.mp hs
    exact (hkept s hs).trans hs'
  -- the same value under the identity: interned again, it is the constant that was there
  have hidentity : Extends kept some := fun s s' hs => (Option.ite_none_left_eq_some.mp hs).2
  have htext : Extends (p.textTo q) some := by
    intro t t' ht
    obtain ⟨text, htext, hfound⟩ := Option.bind_eq_some_iff.mp ht
    have hsame := Interner.find?_of_isPrefix hc.tables.texts htexts htext
    exact hsame.symm.trans hfound
  have huw : u = w := Option.some.inj
    ((Value.mapParts_extends (Ty.mapStructs_extends hstructs) (fun _ _ ht => ht) hu).symm.trans hw)
  have huv : v = u := Option.some.inj
    ((Value.mapParts_keeps (fun _ => rfl) (fun _ => rfl) v).symm.trans
      (Value.mapParts_extends (Ty.mapStructs_extends_some hidentity) htext hu))
  have hsame := Interner.find?_of_isPrefix hc.tables.constants hconstants hv
  rw [huv, huw] at hsame
  exact Option.some.inj (hfind.symm.trans hsame)

end

include h hid hc

/-- The structs of the module are replaced by new ones. -/
theorem WellFormed.replaces_structs : Replaces ((p.specialisation id).naming q).onStruct
    (fun s => p.Owns id (.record s)) p.structs.size q.structs.size := by
  have hnodup := (h.specialisation_ready hid).distinct.structs
  rw [specialisation_structs] at hnodup
  have hsize := hc.structs.size
  rw [specialisation_structs] at hsize
  rw [CopyPlan.naming_onStruct, CopyPlan.copies, specialisation_structs, hsize]
  exact replaces_known rfl hnodup fun s hs => Arena.mem_handles_iff.mp (h.struct_inRange hid hs)

/-- The functions of the module are replaced by new ones. -/
theorem WellFormed.replaces_functions : Replaces ((p.specialisation id).naming q).onFunction
    (fun f => p.Owns id (.func f)) p.functions.size q.functions.size := by
  have hnodup := (h.specialisation_ready hid).distinct.functions
  rw [specialisation_functions] at hnodup
  have hsize := hc.functions.size
  rw [specialisation_functions] at hsize
  rw [CopyPlan.naming_onFunction, CopyPlan.copies, specialisation_functions, hsize]
  exact replaces_known rfl hnodup fun f hf => Arena.mem_handles_iff.mp (h.function_inRange hid hf)

/-- The variables of the module are replaced by new ones. -/
theorem WellFormed.replaces_vars : Replaces ((p.specialisation id).naming q).onVariable
    (fun v => p.Owns id (.var v)) p.vars.size q.vars.size := by
  have hnodup := (h.specialisation_ready hid).distinct.vars
  have hold : ∀ v ∈ (p.specialisation id).vars, v.idx < p.vars.size := fun v hv =>
    h.declaredInRange v
      ((h.vars_subperm (List.nodup_singleton id) (by simpa using hid) true p).subset hv)
  have hown : (fun v => p.Owns id (.var v)) = (· ∈ (p.specialisation id).vars) :=
    funext fun v => propext specialisation_vars.symm
  rw [CopyPlan.naming_onVariable, CopyPlan.copies, hown, hc.vars.size]
  exact replaces_known rfl hnodup hold

/-- The copy of a module is apart from the module. -/
theorem WellFormed.copiedApart : p.CopiedApart id name ((p.specialisation id).naming q) q := by
  have hready := h.specialisation_ready hid
  have hmem : id ∈ (p.specialisation id).modules := List.mem_singleton.mpr rfl
  have hlist : (p.specialisation id).modules = [] ++ id :: [] := rfl
  have hname : ((p.specialisation id).naming q).onModule id = some ⟨p.modules.size⟩ :=
    CopyPlan.known_assigned _ hready.distinct.modules hlist
  have hreferences := hc.references hready hmem hname
  -- each of the three tables maps what the module owns one to one to new entries
  have hstructs := h.replaces_structs hid hc
  have hfunctions := h.replaces_functions hid hc
  have hvars := h.replaces_vars hid hc
  refine {
    kept := hc.kept
    size := hc.modules.size
    fresh := ?_
    injective := ?_
    onModule := ?_
    onStruct := hstructs.kept
    onFunction := hfunctions.kept
    onVariable := hvars.kept
    onBlock := fun _ => rfl
    onConstant := fun _ _ hcc => CopyPlan.Copied.constantAt hcc
    onOtherConstant := ?_
    module := hc.moduleAt hready hmem hname
    structs := fun s s' hs hs' => hc.structAt hready (specialisation_structs.symm ▸ hs) hs'
    functions := fun f f' hf hf' => hc.functionAt hready (specialisation_functions.symm ▸ hf) hf'
    vars := fun v v' hv hv' => hc.variableAt hready (specialisation_vars.mpr hv) hv'
    references := hreferences
    apart := ?_ }
  -- only structs, functions and variables can be owned; for the others the hypothesis is absurd
  · intro x hown
    cases x with
    | record s =>
        obtain ⟨s', hs, hnew⟩ := hstructs.fresh s hown
        exact ⟨.record s', Renaming.onReference_eq_record.mpr ⟨s, rfl, hs⟩, hnew⟩
    | func f =>
        obtain ⟨f', hf, hnew⟩ := hfunctions.fresh f hown
        exact ⟨.func f', Renaming.onReference_eq_func.mpr ⟨f, rfl, hf⟩, hnew⟩
    | var v =>
        obtain ⟨v', hv, hnew⟩ := hvars.fresh v hown
        exact ⟨.var v', Renaming.onReference_eq_var.mpr ⟨v, rfl, hv⟩, hnew⟩
    | mod _ | const _ | text _ | block _ => cases hown
  · intro x x' y hown hown' hx hx'
    cases x with
    | record s =>
        obtain ⟨t, hs, rfl⟩ := Option.map_eq_some_iff.mp hx
        obtain ⟨s', rfl, hs'⟩ := Renaming.onReference_eq_record.mp hx'
        rw [hstructs.injective s s' t hown hown' hs hs']
    | func f =>
        obtain ⟨t, hf, rfl⟩ := Option.map_eq_some_iff.mp hx
        obtain ⟨f', rfl, hf'⟩ := Renaming.onReference_eq_func.mp hx'
        rw [hfunctions.injective f f' t hown hown' hf hf']
    | var v =>
        obtain ⟨t, hv, rfl⟩ := Option.map_eq_some_iff.mp hx
        obtain ⟨v', rfl, hv'⟩ := Renaming.onReference_eq_var.mp hx'
        rw [hvars.injective v v' t hown hown' hv hv']
    | mod _ | const _ | text _ | block _ => cases hown
  · intro m
    by_cases hm : m = id
    · rw [if_pos hm, hm]
      exact hname
    · have hout : m ∉ (p.specialisation id).modules := fun hin => hm (List.mem_singleton.mp hin)
      rw [if_neg hm, CopyPlan.naming_onModule, CopyPlan.copies, known,
        lookup_assigned_eq_none hout]
      rfl
  -- a constant that mentions nothing of the module is found again in its place
  · intro hconstants htexts c hcref hown
    obtain ⟨x, hx⟩ := exists_of_mapM hreferences hcref
    obtain ⟨c', hcc, -⟩ := Option.map_eq_some_iff.mp hx
    rw [hcc, onConstant_of_not_owned hc hstructs.kept hconstants htexts hcc hown]
  -- what the copy mentions is a new name, and no new entry is owned by the original
  · intro x hx hown
    obtain ⟨y, -, hy⟩ := exists_mem_of_mapM hreferences hx
    cases x with
    | record s =>
        obtain ⟨s₀, -, hs⟩ := Renaming.onReference_eq_record.mp hy
        exact hstructs.not_own hs hown
    | func f =>
        obtain ⟨f₀, -, hf⟩ := Renaming.onReference_eq_func.mp hy
        exact hfunctions.not_own hf hown
    | var v =>
        obtain ⟨v₀, -, hv⟩ := Renaming.onReference_eq_var.mp hy
        exact hvars.not_own hv hown
    | mod _ | const _ | text _ | block _ => cases hown

omit hc in
/-- A module of a well-formed program can be copied within the program.  Nothing that was there
changes, and the copy is the module with its own copies of all that the module owns. -/
theorem specialiseModule_apart (name : String) :
    ∃ q r, p.specialiseModule id name = (.ok ⟨p.modules.size⟩, q) ∧
      p.CopiedApart id name r q := by
  obtain ⟨q, hrun, hc⟩ := h.specialiseModule_copied hid name
  exact ⟨q, _, hrun, h.copiedApart hid hc⟩

end

/-- The copy of a processor keeps the struct of the namespace, but has a state of its own. -/
theorem specialiseModule_apart_borrowing : ∃ q r,
    borrowing.specialiseModule ⟨1⟩ "Q" = (.ok ⟨2⟩, q) ∧ borrowing.CopiedApart ⟨1⟩ "Q" r q ∧
      r.onStruct ⟨0⟩ = some ⟨0⟩ ∧ r.onVariable ⟨0⟩ ≠ some ⟨0⟩ := by
  have hid : (⟨1⟩ : ModuleId) ∈ borrowing.modules.handles := by decide
  obtain ⟨q, r, hrun, hapart⟩ := specialiseModule_apart borrowing_wellFormed hid "Q"
  refine ⟨q, r, hrun, hapart, hapart.onStruct ⟨0⟩ ?_, fun hsame => ?_⟩
  · intro hown
    cases hown
  · have hown : borrowing.Owns ⟨1⟩ (.var ⟨0⟩) := by
      change (⟨0⟩ : VariableId) ∈ borrowing.ownVars ⟨1⟩
      decide
    obtain ⟨y, hy, hnew⟩ := hapart.fresh (.var ⟨0⟩) hown
    obtain rfl : .var ⟨0⟩ = y := by simpa [Renaming.onReference, hsame] using hy
    exact absurd hnew.1 (by decide)

end Program

end SignalGraph

import SignalGraph.Proofs.Program.CopyChecks

/-!
# SignalGraph.Proofs.Program.CopyClosed

Copying modules into another program.  It fails exactly if a listed module refers to a struct,
function or variable that none of the listed modules owns; otherwise all that the copies refer to
has been added or interned by the copying, and the destination keeps what it had
(`copyModulesInto_closed`).
-/

namespace SignalGraph

open Copy CopySource

/-! ## What the listed modules own -/

/-- The renaming of structs alone. -/
def Renaming.onlyStructs (f : StructId → Option StructId) : Renaming where
  onModule _ := none
  onStruct := f
  onFunction _ := none
  onVariable _ := none
  onConstant _ := none
  onBlock _ := none

/-- A scope that changes nothing changes nothing within a function. -/
theorem Renaming.within_le_identity {d : Renaming} (h : d.Le .identity)
    (visible : List VariableId) (n : Nat) : (d.within visible n).Le .identity where
  onModule := h.onModule
  onStruct := h.onStruct
  onFunction := h.onFunction
  onVariable _ _ hv := h.onVariable (Option.ite_none_right_eq_some.mp hv).2
  onConstant := h.onConstant
  onBlock b b' hb := by
    exact (Option.ite_none_right_eq_some.mp hb).2

namespace Program

variable {p : Program} {ids : List ModuleId}

/-- The structs of some modules. -/
def structsOf (p : Program) (ids : List ModuleId) : List StructId :=
  ids.flatMap fun id => (p.moduleAt id).structs

/-- The identity on what the listed modules own, and on the constants whose value mentions no other
struct. -/
def owned (p : Program) (ids : List ModuleId) : Renaming where
  onModule m := m.among ids
  onStruct s := s.among (p.structsOf ids)
  onFunction f := f.among (ids.flatMap fun id => (p.moduleAt id).functions)
  onVariable v := v.among (ids.flatMap p.ownVars)
  onConstant c := do
    let value ← p.constants.get? c
    let _ ← value.mapParts (·.mapStructs (·.among (p.structsOf ids))) (present p)
    return c
  onBlock _ := none

/-- A constant may be copied if its value mentions copied structs only, and texts that are there. -/
theorem owned_onConstant_iff {c c' : ConstantId} : (p.owned ids).onConstant c = some c' ↔
    c = c' ∧ ∃ v v', p.constants.get? c = some v ∧
      v.mapParts (·.mapStructs (·.among (p.structsOf ids))) (present p) = some v' := by
  simp only [owned, Option.bind_eq_bind, Option.bind_eq_some_iff, Option.pure_def,
    Option.some.injEq]
  constructor
  · rintro ⟨v, hv, v', hv', rfl⟩
    exact ⟨rfl, v, v', hv, hv'⟩
  · rintro ⟨rfl, v, v', hv, hv'⟩
    exact ⟨v, hv, v', hv', rfl⟩

/-- What belongs to the copied modules is kept. -/
theorem owned_le_identity (p : Program) (ids : List ModuleId) : (p.owned ids).Le .identity where
  onModule _ _ h := congrArg some (Handle.among_eq_some_iff.mp h).2
  onStruct _ _ h := congrArg some (Handle.among_eq_some_iff.mp h).2
  onFunction _ _ h := congrArg some (Handle.among_eq_some_iff.mp h).2
  onVariable _ _ h := congrArg some (Handle.among_eq_some_iff.mp h).2
  onConstant _ _ h := congrArg some (owned_onConstant_iff.mp h).1
  onBlock _ _ h := by cases h

/-- If a list is inside, so is each of its elements. -/
theorem Inside.mem {l : List Reference} {r : Reference} (h : p.Inside ids l) (hr : r ∈ l) :
    p.Inside ids [r] := by
  intro s hs
  exact h s (List.mem_flatMap.mpr ⟨r, hr, by simpa using hs⟩)

/-- Handles in range with an owner from the list, as `owned` takes them. -/
def ownedBy (r : Renaming) (ids : List ModuleId) : Renaming :=
  { r with onModule := fun m => m.among ids }

/-- A struct that is not foreign belongs to the copied modules. -/
theorem mem_of_not_foreign {s : StructId} (h : ¬ p.Foreign ids (.record s)) :
    s ∈ p.structsOf ids := by
  by_contra hs
  refine h fun id hid hmem => hs ?_
  exact List.mem_flatMap.mpr ⟨id, hid, hmem⟩

/-- What is in range and inside is owned by the listed modules. -/
theorem owned_defined {r r' : Reference}
    (hr : (ownedBy p.inRange ids).onReference some r = some r') (hin : p.Inside ids [r]) :
    ∃ r', (p.owned ids).onReference some r = some r' := by
  have hforeign := hin.not_foreign List.mem_cons_self
  cases r with
  | mod m => exact ⟨r', hr⟩
  | record s =>
      refine ⟨.record s, ?_⟩
      have hs := Handle.among_eq_some_iff.mpr ⟨mem_of_not_foreign hforeign, rfl⟩
      simp [Renaming.onReference, owned, hs]
  | func f =>
      refine ⟨.func f, ?_⟩
      have hf : f ∈ ids.flatMap fun id => (p.moduleAt id).functions := by
        by_contra hf
        exact hforeign fun id hid hmem => hf (List.mem_flatMap.mpr ⟨id, hid, hmem⟩)
      simp [Renaming.onReference, owned, Handle.among_eq_some_iff.mpr ⟨hf, rfl⟩]
  | var v =>
      refine ⟨.var v, ?_⟩
      have hv : v ∈ ids.flatMap p.ownVars := by
        by_contra hv
        exact hforeign fun id hid hmem => hv (List.mem_flatMap.mpr ⟨id, hid, hmem⟩)
      simp [Renaming.onReference, owned, Handle.among_eq_some_iff.mpr ⟨hv, rfl⟩]
  | const c =>
      obtain ⟨c', hc, -⟩ := Option.map_eq_some_iff.mp hr
      obtain ⟨-, v, v', hv, hv'⟩ := sound_eq_some_iff.mp hc
      have hat : p.constantAt c = v := Arena.get_eq_of_get? hv
      -- the structs of the value are owned, and its texts are there
      have hrange := Value.mentions_tracks (.onlyStructs (·.below p.structs.size)) (present p) v
      rw [show v.mapParts (Renaming.onlyStructs (·.below p.structs.size)).onTy (present p) = some v'
        from hv'] at hrange
      have hvalue : ∃ w, v.mapParts (Renaming.onlyStructs (·.among (p.structsOf ids))).onTy
          (present p) = some w := by
        refine Tracks.defined (Value.mentions_tracks
          (.onlyStructs (·.among (p.structsOf ids))) (present p)) fun x hx => ?_
        obtain ⟨x', hx'⟩ := exists_of_mapM hrange hx
        cases x with
        | record s =>
            have hs : ¬ p.Foreign ids (.record s) := by
              refine hin (.record s) ?_
              simp [expand, hat, hx]
            exact ⟨.record s, by simp [Renaming.onReference, Renaming.onlyStructs,
              Handle.among_eq_some_iff.mpr ⟨mem_of_not_foreign hs, rfl⟩]⟩
        | text t => exact ⟨x', hx'⟩
        | mod _ | func _ | var _ | const _ | block _ => cases hx'
      obtain ⟨w, hw⟩ := hvalue
      have hconst : (p.owned ids).onConstant c = some c :=
        owned_onConstant_iff.mpr ⟨rfl, v, w, hv, hw⟩
      exact ⟨.const c, by simp [Renaming.onReference, hconst]⟩
  | text t => exact ⟨.text t, rfl⟩
  | block b => cases hr

/-- The same for what a function body mentions. -/
theorem owned_within_defined {f : Function} {r r' : Reference}
    (hr : (ownedBy (p.scope f) ids).onReference some r = some r') (hin : p.Inside ids [r]) :
    ∃ r', ((p.owned ids).within (p.visibleTo f) f.blocks.size).onReference some r = some r' := by
  cases r with
  | var v =>
      obtain ⟨w, hw, -⟩ := Option.map_eq_some_iff.mp hr
      obtain ⟨hvisible, hdeclared⟩ := Option.ite_none_right_eq_some.mp hw
      have hv : (ownedBy p.inRange ids).onReference some (.var v) = some (.var w) := by
        simp only [Renaming.onReference, ownedBy, hdeclared, Option.map_some]
      obtain ⟨x, hx⟩ := owned_defined hv hin
      obtain ⟨w', hw', rfl⟩ := Option.map_eq_some_iff.mp hx
      exact ⟨.var w', by simp [Renaming.onReference, Renaming.within, hvisible, hw']⟩
  | block b => exact ⟨r', hr⟩
  | mod m => exact owned_defined (r := .mod m) hr hin
  | record s => exact owned_defined (r := .record s) hr hin
  | func g => exact owned_defined (r := .func g) hr hin
  | const c => exact owned_defined (r := .const c) hr hin
  | text t => exact ⟨.text t, rfl⟩

section

variable (h : p.WellFormed) (hids : ids.Nodup) (hsub : ids ⊆ p.modules.handles) (base : Program)

include h hids hsub

/-- All that belongs to the copied modules has a name. -/
theorem WellFormed.owned_covers :
    Covers ⟨p, false⟩ (CopyPlan.ofModules ⟨p, false⟩ base ids).copies (p.owned ids) := by
  have hdistinct := h.distinct hids hsub false base
  have hknown : ∀ {e : Entity} {start : Nat} {l : List (Handle e)} {a : Handle e}, l.Nodup →
      a ∈ l → ∃ b, CopySource.known ⟨p, false⟩ (assigned start l).reverse a = some b := by
    intro e start l a hl ha
    obtain ⟨l₁, l₂, hsplit⟩ := List.append_of_mem ha
    exact ⟨_, CopyPlan.known_assigned _ hl hsplit⟩
  refine ⟨?_, ?_, ?_, ?_, ?_, ?_⟩
  · exact fun id _ hid => hknown hdistinct.modules (Handle.among_eq_some_iff.mp hid).1
  · exact fun id _ hid => hknown hdistinct.structs (Handle.among_eq_some_iff.mp hid).1
  · exact fun id _ hid => hknown hdistinct.functions (Handle.among_eq_some_iff.mp hid).1
  · intro v _ hv
    refine hknown hdistinct.vars (mem_ofModules_vars_iff.mpr ?_)
    exact List.mem_flatMap.mp (Handle.among_eq_some_iff.mp hv).1
  · intro c _ hc
    obtain ⟨-, v, v', hv, hv'⟩ := owned_onConstant_iff.mp hc
    obtain ⟨w, hw⟩ := Value.mapParts_defined (Ty.mapStructs_defined
      (b := CopySource.known ⟨p, false⟩ (CopyPlan.ofModules ⟨p, false⟩ base ids).copies.structs)
      fun s _ hs => hknown hdistinct.structs (Handle.among_eq_some_iff.mp hs).1) v v' hv'
    exact ⟨v, w, hv, hw⟩
  · exact fun b _ hb => by cases hb

/-- Modules that refer to nothing foreign can be copied into another program. -/
theorem WellFormed.owned_ready (hin : ∀ id ∈ ids, p.Inside ids (p.mentions id)) :
    (CopyPlan.ofModules ⟨p, false⟩ base ids).Ready (p.owned ids)
      (fun g => p.visibleTo (p.functionAt g)) where
  distinct := h.distinct hids hsub false base
  structList := rfl
  functionList := rfl
  variableList := rfl
  covers := h.owned_covers hids hsub base
  identity := p.owned_le_identity ids
  structOwner id hid := h.structOwner id (hsub hid)
  functionOwner id hid := h.functionOwner id (hsub hid)
  modules id hid := by
    -- being in range is not enough: each mention must also be owned by a copied module
    have hrange : (p.moduleAt id).rename (ownedBy p.inRange ids) = some (p.moduleAt id) :=
      Module.rename_eq_some_iff.mpr { h.moduleAt (hsub hid) with }
    have hall := (Module.mentions_tracks _ some).mapM hrange
    refine (Module.mentions_tracks (p.owned ids) some).defined fun r hr => ?_
    obtain ⟨r', hr'⟩ := exists_of_mapM hall hr
    exact owned_defined hr' ((hin id hid).mem (List.mem_append_left _ hr))
  nodes id hid := h.nodes _ (Arena.get_mem_toList (hsub hid))
  structs s hs := by
    obtain ⟨id, hid, hs⟩ := List.mem_flatMap.mp hs
    have hself := Structure.rename_eq_some_iff.mp
      (h.structs _ (Arena.get_mem_toList (h.struct_inRange (hsub hid) hs)))
    have howner : (p.structAt s).owner = id := h.structOwner id (hsub hid) s hs
    have hrange : (p.structAt s).rename (ownedBy p.inRange ids) = some (p.structAt s) :=
      Structure.rename_eq_some_iff.mpr { hself with
        owner := Handle.among_eq_some_iff.mpr ⟨howner ▸ hid, rfl⟩ }
    have hall := (Structure.mentions_tracks _ some).mapM hrange
    refine (Structure.mentions_tracks (p.owned ids) some).defined fun r hr => ?_
    obtain ⟨r', hr'⟩ := exists_of_mapM hall hr
    refine owned_defined hr' ((hin id hid).mem ?_)
    exact List.mem_append_right _ (List.mem_append_left _ (List.mem_flatMap.mpr ⟨s, hs, hr⟩))
  vars v hv := by
    have hself := Variable.rename_eq_some_iff.mp
      (h.variableAt ((h.vars_subperm hids hsub false base).subset hv))
    obtain ⟨id, hid, hv⟩ := mem_ofModules_vars_iff.mp hv
    have hrange : (p.variableAt v).rename (ownedBy p.inRange ids) = some (p.variableAt v) :=
      Variable.rename_eq_some_iff.mpr { hself with }
    have hall := (Variable.mentions_tracks _ some).mapM hrange
    refine (Variable.mentions_tracks (p.owned ids) some).defined fun r hr => ?_
    obtain ⟨r', hr'⟩ := exists_of_mapM hall hr
    refine owned_defined hr' ((hin id hid).mem ?_)
    exact List.mem_append_right _ (List.mem_append_right _ (List.mem_append_right _
      (List.mem_flatMap.mpr ⟨v, hv, hr⟩)))
  -- for a function both hold in its own scope, with the variables and blocks seen there
  functions f hf := by
    have hself := h.functionAt (h.functionsOf_subset hsub hf)
    obtain ⟨id, hid, hf⟩ := List.mem_flatMap.mp hf
    have howner : (p.functionAt f).owner = id := h.functionOwner id (hsub hid) f hf
    have hrange : (p.functionAt f).rename (ownedBy (p.scope (p.functionAt f)) ids) =
        some (p.functionAt f) :=
      Function.rename_eq_some_iff.mpr { hself with
        owner := Handle.among_eq_some_iff.mpr ⟨howner ▸ hid, rfl⟩ }
    have hall := (Function.mentions_tracks _ some).mapM hrange
    have hdefined : ∃ g, (p.functionAt f).rename ((p.owned ids).within
        (p.visibleTo (p.functionAt f)) (p.functionAt f).blocks.size) = some g := by
      refine (Function.mentions_tracks _ some).defined fun r hr => ?_
      obtain ⟨r', hr'⟩ := exists_of_mapM hall hr
      refine owned_within_defined hr' ((hin id hid).mem ?_)
      exact List.mem_append_right _ (List.mem_append_right _ (List.mem_append_left _
        (List.mem_flatMap.mpr ⟨f, hf, hr⟩)))
    obtain ⟨g, hg⟩ := hdefined
    have hsame := (Renaming.within_le_identity (p.owned_le_identity ids) _ _).function hg
    rw [Function.rename_keeps] at hsame
    exact hg.trans hsame.symm
  visible g hg v hv := h.visible hids hsub false base hv

end

/-! ## What the copies refer to -/

/-- Everything that the first program holds stands in the second at the same place. -/
structure KeptIn (p q : Program) : Prop where
  modules : p.modules.toList <+: q.modules.toList
  structs : p.structs.toList <+: q.structs.toList
  functions : p.functions.toList <+: q.functions.toList
  vars : p.vars.toList <+: q.vars.toList
  constants : p.constants.toList <+: q.constants.toList
  texts : p.texts.toList <+: q.texts.toList

/-- The handle stands for something that the second program has beyond the first, or is the one that
interning its value in the second program answers. -/
def Created (old now : Program) : Reference → Prop
  | .mod m => old.modules.size ≤ m.idx ∧ m.idx < now.modules.size
  | .record s => old.structs.size ≤ s.idx ∧ s.idx < now.structs.size
  | .func f => old.functions.size ≤ f.idx ∧ f.idx < now.functions.size
  | .var v => old.vars.size ≤ v.idx ∧ v.idx < now.vars.size
  | .const c => now.constants.find? (now.constantAt c) = some c
  | .text t => now.texts.find? (now.textAt t) = some t
  | .block _ => True

/-- Copies of the listed modules of `p` that refer to nothing but what was made with them. -/
structure ClosedCopy (p : Program) (ids : List ModuleId) (dest : Program) (new : List ModuleId)
    (now : Program) : Prop where
  kept : dest.KeptIn now
  handles : new = freshHandles dest.modules.size ids.length
  copied : (CopyPlan.ofModules ⟨p, false⟩ dest ids).Copied none now
  renamed : List.Forall₂ (fun id id' => (p.references id).mapM
    ((CopyPlan.ofModules ⟨p, false⟩ dest ids).onReference now) = some (now.references id')) ids new
  references : ∀ id ∈ new, ∀ r ∈ now.references id, dest.Created now r
  blocks : ∀ id ∈ new, ∀ f ∈ (now.moduleAt id).functions, ∀ b ∈ (now.functionAt f).blocks.toList,
    ∀ t ∈ b.terminator.successors, t.idx < (now.functionAt f).blocks.size
  nodes : ∀ id ∈ new, ∀ w ∈ (now.moduleAt id).connections.toList, ∀ r ∈ [w.source, w.dest],
    ∀ n, r.node = some n → n.idx < (now.moduleAt id).nodes.size

end Program

/-- A renamed terminator leads to the renamed blocks. -/
theorem Terminator.successors_of_rename {r : Renaming} {t t' : Terminator}
    (h : t.rename r.renamer = some t') : t.successors.mapM r.onBlock = some t'.successors := by
  cases t with
  | branch b args =>
      simp [rename, Option.bind_eq_some_iff] at h
      obtain ⟨b', hb, args', -, rfl⟩ := h
      simp [successors, hb]
  | branchIf e b ts b' fs =>
      simp [rename, Option.bind_eq_some_iff] at h
      obtain ⟨e', -, c, hc, c', hc', ts', -, fs', -, rfl⟩ := h
      simp [successors, hc, hc']
  | returnVoid =>
      simp [rename] at h
      subst h
      rfl
  | returnValue v =>
      simp [rename, Option.bind_eq_some_iff] at h
      obtain ⟨v', -, rfl⟩ := h
      rfl

namespace CopyPlan

variable {P : CopyPlan} {d : Renaming} {visible : FunctionId → List VariableId}
  (hready : P.Ready d visible) {newName : Option String} {dest : Program}
  (hc : P.Copied newName dest)

include hc

/-- Copying keeps what the destination has. -/
theorem Copied.kept : P.base.KeptIn dest where
  modules := by
    obtain ⟨new, hnew, -⟩ := hc.modules
    exact ⟨new, hnew.symm⟩
  structs := by
    obtain ⟨new, hnew, -⟩ := hc.structs
    exact ⟨new, hnew.symm⟩
  functions := by
    obtain ⟨new, hnew, -⟩ := hc.functions
    exact ⟨new, hnew.symm⟩
  vars := by
    obtain ⟨new, hnew, -⟩ := hc.vars
    exact ⟨new, hnew.symm⟩
  constants := hc.tables.constants
  texts := hc.tables.texts

include hready

/-- Where nothing outside is kept, all new names are of things that came with the copy. -/
theorem Copied.created (hkeep : P.source.keepOutside = false) {r r' : Reference}
    (hr : P.onReference dest r = some r') : P.base.Created dest r' := by
  -- with nothing kept from outside, every known name is one of the fresh handles
  have hfresh : ∀ {e : Entity} {start : Nat} {l : List (Handle e)} {a b : Handle e}, l.Nodup →
      P.source.known (assigned start l).reverse a = some b →
      start ≤ b.idx ∧ b.idx < start + l.length := by
    intro e start l a b hl hab
    rcases known_cases hl hab with ⟨-, hb⟩ | ⟨-, hkept, -⟩
    · exact mem_freshHandles_iff.mp hb
    · rw [hkeep] at hkept
      cases hkept
  cases r with
  | mod m =>
      obtain ⟨m', hm, rfl⟩ := Option.map_eq_some_iff.mp hr
      simpa [Program.Created, hc.modules.size] using hfresh hready.distinct.modules hm
  | record s =>
      obtain ⟨s', hs, rfl⟩ := Option.map_eq_some_iff.mp hr
      simpa [Program.Created, hc.structs.size] using hfresh hready.distinct.structs hs
  | func f =>
      obtain ⟨f', hf, rfl⟩ := Option.map_eq_some_iff.mp hr
      simpa [Program.Created, hc.functions.size] using hfresh hready.distinct.functions hf
  | var v =>
      obtain ⟨v', hv, rfl⟩ := Option.map_eq_some_iff.mp hr
      simpa [Program.Created, hc.vars.size] using hfresh hready.distinct.vars hv
  | const c =>
      obtain ⟨c', hc', rfl⟩ := Option.map_eq_some_iff.mp hr
      exact (Copied.constantAt hc').2
  | text t =>
      obtain ⟨t', ht, rfl⟩ := Option.map_eq_some_iff.mp hr
      obtain ⟨text, -, hfind⟩ := Option.bind_eq_some_iff.mp ht
      have htext : dest.textAt t' = text := by
        simp [Program.textAt, Interner.get?_of_find? hfind]
      simpa [Program.Created, htext] using hfind
  | block b =>
      cases hr
      trivial

section

variable {id id' : ModuleId} (hid : id ∈ P.modules)
  (hid' : (P.naming dest).onModule id = some id')

include hid hid'

/-- The branches of a copied function stay in it. -/
theorem Copied.blocks {f' : FunctionId} (hf' : f' ∈ (dest.moduleAt id').functions) {b : Block}
    (hb : b ∈ (dest.functionAt f').blocks.toList) {t : BlockId}
    (ht : t ∈ b.terminator.successors) : t.idx < (dest.functionAt f').blocks.size := by
  have hm := Module.rename_eq_some_iff.mp (hc.moduleAt hready hid hid')
  obtain ⟨f, hf, hknown⟩ := exists_mem_of_mapM hm.functions hf'
  have hlisted : f ∈ P.functions := by
    rw [hready.functionList]
    exact List.mem_flatMap.mpr ⟨id, hid, hf⟩
  have hcopy := Function.rename_eq_some_iff.mp (hc.functionAt hready hlisted hknown)
  have hself := Function.rename_eq_some_iff.mp (hready.functions f hlisted)
  rw [Arena.size_of_rename hcopy.blocks, Function.size_labelled]
  -- the block is the copy of one whose branches are in range
  obtain ⟨b₀, hb₀, hb⟩ := exists_mem_of_mapM (Arena.rename_eq_some_iff.mp hcopy.blocks) hb
  rw [Function.labelled, Arena.toList_ofList] at hb₀
  obtain ⟨b₁, hb₁, rfl⟩ := List.mem_map.mp hb₀
  have hkept := Terminator.successors_of_rename (Block.rename_eq_some_iff.mp hb).terminator
  have hrange := Terminator.successors_of_rename (Block.rename_eq_some_iff.mp
    (eq_some_of_mapM_self (Arena.rename_eq_some_iff.mp hself.blocks) hb₁)).terminator
  have hsame : b₁.terminator.successors = b.terminator.successors := by
    simpa [Block.labelled] using hkept
  obtain ⟨t', ht'⟩ := exists_of_mapM hrange (hsame ▸ ht)
  exact (Option.ite_none_right_eq_some.mp ht').1

/-- Connections of copies end at nodes of copies. -/
theorem Copied.nodes {w : Connection} (hw : w ∈ (dest.moduleAt id').connections.toList)
    {r : EndpointRef} (hr : r ∈ [w.source, w.dest]) {n : NodeId} (hn : r.node = some n) :
    n.idx < (dest.moduleAt id').nodes.size := by
  have hm := Module.rename_eq_some_iff.mp (hc.moduleAt hready hid hid')
  rw [hm.connections] at hw
  rw [Arena.size_of_rename hm.nodes]
  exact hready.nodes id hid w hw r hr n hn

end

end CopyPlan

/-! ## Copying into another program -/

/-- What is related element by element is so under every relation that follows for these
elements. -/
theorem forall₂_imp_mem {α β : Type} {φ ψ : α → β → Prop} {l : List α} {l' : List β}
    (himp : ∀ a ∈ l, ∀ b, φ a b → ψ a b) (h : List.Forall₂ φ l l') : List.Forall₂ ψ l l' := by
  induction h with
  | nil => exact .nil
  | cons hab _ ih =>
      exact .cons (himp _ List.mem_cons_self _ hab)
        (ih fun a ha => himp a (List.mem_cons_of_mem _ ha))

namespace Program

section

variable {p : Program} {ids : List ModuleId} (h : p.WellFormed) (hids : ids.Nodup)
  (hsub : ids ⊆ p.modules.handles) (dest : Program)

include h hids hsub

/-- If all that the modules mention is inside, they are copied. -/
theorem WellFormed.copyModulesInto_ok (hin : ∀ id ∈ ids, p.Inside ids (p.mentions id)) :
    ∃ new q, p.copyModulesInto ids dest = (.ok new, q) ∧ p.ClosedCopy ids dest new q := by
  have hready := h.owned_ready hids hsub dest hin
  obtain ⟨new, s, hrun, hc, hnew⟩ := CopyPlan.gives_copyModules hready none
  have hfresh : new = freshHandles dest.modules.size ids.length :=
    Option.some.inj (hnew.symm.trans (mapM_known_assigned ⟨p, false⟩ hids))
  refine ⟨new, s.dest, ?_, ?_⟩
  · have hrun : (copyModules ⟨p, false⟩ none ids).run.run { dest } = (.ok new, s) := hrun
    simp only [copyModulesInto, hrun]
  · have hsource : ∀ id' ∈ new, ∃ id ∈ ids,
        ((CopyPlan.ofModules ⟨p, false⟩ dest ids).naming s.dest).onModule id = some id' :=
      fun id' hid' => exists_mem_of_mapM hnew hid'
    have hrenamed : ∀ id ∈ ids, ∀ id',
        ((CopyPlan.ofModules ⟨p, false⟩ dest ids).naming s.dest).onModule id = some id' →
        (p.references id).mapM ((CopyPlan.ofModules ⟨p, false⟩ dest ids).onReference s.dest) =
          some (s.dest.references id') := fun id hid id' hname => hc.references hready hid hname
    refine ⟨hc.kept, hfresh, hc, ?_, ?_, ?_, ?_⟩
    · exact forall₂_imp_mem hrenamed (mapM_eq_some_iff_forall₂.mp hnew)
    · intro id' hid' r' hr'
      obtain ⟨id, hid, hname⟩ := hsource id' hid'
      obtain ⟨r, -, hr⟩ := exists_mem_of_mapM (hrenamed id hid id' hname) hr'
      exact hc.created hready rfl hr
    · intro id' hid' f hf b hb t ht
      obtain ⟨id, hid, hname⟩ := hsource id' hid'
      exact hc.blocks hready hid hname hf hb ht
    · intro id' hid' w hw r hr n hn
      obtain ⟨id, hid, hname⟩ := hsource id' hid'
      exact hc.nodes hready hid hname hw hr hn

/-- Copying modules into another program fails exactly if one of them refers to a struct, function
or variable that none of them owns.  Otherwise the copies refer to nothing but what was added or
interned with them, and all that was there before stays. -/
theorem copyModulesInto_closed :
    ((∃ e q, p.copyModulesInto ids dest = (.error e, q)) ↔
      ∃ id ∈ ids, ∃ r ∈ p.references id, p.Foreign ids r) ∧
    ∀ new q, p.copyModulesInto ids dest = (.ok new, q) → p.ClosedCopy ids dest new q := by
  have hok := h.copyModulesInto_ok hids hsub dest
  -- a run that succeeds has met no foreign reference, since the copying checks each of them
  have hchecks : ∀ new q, p.copyModulesInto ids dest = (.ok new, q) →
      ∀ id ∈ ids, p.Inside ids (p.mentions id) := by
    intro new q hrun
    cases hcopy : (copyModules ⟨p, false⟩ none ids).apply { dest } with
    | mk outcome s =>
        have hcopy' : (copyModules ⟨p, false⟩ none ids).run.run { dest } = (outcome, s) := hcopy
        simp only [copyModulesInto, hcopy', Prod.mk.injEq] at hrun
        obtain ⟨rfl, rfl⟩ := hrun
        exact copyModules_inside hcopy
  refine ⟨⟨?_, ?_⟩, ?_⟩
  · rintro ⟨e, q, hrun⟩
    by_contra hnone
    have hin : ∀ id ∈ ids, p.Inside ids (p.mentions id) :=
      fun id hid r hr hforeign => hnone ⟨id, hid, r, hr, hforeign⟩
    obtain ⟨new, q', hrun', -⟩ := hok hin
    rw [hrun] at hrun'
    cases hrun'
  · rintro ⟨id, hid, r, hr, hforeign⟩
    cases hrun : p.copyModulesInto ids dest with
    | mk outcome q =>
        cases outcome with
        | error e => exact ⟨e, q, rfl⟩
        | ok new => exact absurd hforeign (hchecks new q hrun id hid r hr)
  · intro new q hrun
    obtain ⟨new', q', hrun', hclosed⟩ := hok (hchecks new q hrun)
    rw [hrun] at hrun'
    cases hrun'
    exact hclosed

end

/-- A processor whose state has a struct that a namespace declares. -/
def borrowing : Program where
  modules := ⟨#[
    { kind := .nameSpace, name := "N", structs := [⟨0⟩] },
    { kind := .processor, name := "P", functions := [⟨0⟩], state := [⟨0⟩] }]⟩
  structs := ⟨#[{ name := "S", owner := ⟨0⟩, members := [⟨"x", .int32⟩] }]⟩
  functions := ⟨#[
    { name := "run"
      owner := ⟨1⟩
      kind := .run
      blocks := ⟨#[
        { name := "@a", terminator := .branch ⟨1⟩ [.const ⟨0⟩] },
        { name := "@b"
          parameters := [⟨1⟩]
          statements := [.assign (.member (.var ⟨0⟩) "x") (.var ⟨1⟩)]
          terminator := .returnVoid }]⟩ }]⟩
  vars := ⟨#[
    { name := "s", ty := .struct ⟨0⟩, role := .state, initial := some ⟨1⟩ },
    { name := "$i", ty := .int32, role := .parameter }]⟩
  constants := ⟨⟨#[.int32 1, .zero (.struct ⟨0⟩)]⟩⟩

/-- `borrowing` is well formed. -/
theorem borrowing_wellFormed : borrowing.WellFormed where
  modules m hm := by
    obtain rfl | hm := List.mem_cons.mp hm
    · rfl
    · cases List.mem_singleton.mp hm
      rfl
  nodes := by decide
  structs := by decide
  functions f hf := by
    cases List.mem_singleton.mp hf
    rfl
  vars := by decide
  structOwner := by decide
  functionOwner := by decide
  structsListed := by decide
  functionsListed := by decide
  declaredOnce := by decide
  declaredInRange := by decide

/-- The processor alone cannot be copied; together with the namespace it can. -/
theorem copyModulesInto_closed_borrowing :
    (∃ e q, borrowing.copyModulesInto [⟨1⟩] borrowing = (.error e, q)) ∧
    ∃ q, borrowing.copyModulesInto [⟨1⟩, ⟨0⟩] borrowing = (.ok [⟨2⟩, ⟨3⟩], q) ∧
      borrowing.ClosedCopy [⟨1⟩, ⟨0⟩] borrowing [⟨2⟩, ⟨3⟩] q := by
  have hrun : (borrowing.copyModulesInto [⟨1⟩, ⟨0⟩] borrowing).1 = .ok [⟨2⟩, ⟨3⟩] := by
    decide +kernel
  have hforeign : borrowing.Foreign [⟨1⟩] (.record ⟨0⟩) := by
    intro id hid hmem
    cases List.mem_singleton.mp hid
    cases hmem
  constructor
  · have halone := copyModulesInto_closed borrowing_wellFormed (List.nodup_singleton ⟨1⟩)
      (by decide) borrowing
    exact halone.1.mpr ⟨⟨1⟩, List.mem_cons_self, .record ⟨0⟩, by decide, hforeign⟩
  · have hnodup : [(⟨1⟩ : ModuleId), ⟨0⟩].Nodup := by decide
    have hboth := copyModulesInto_closed borrowing_wellFormed hnodup (by decide) borrowing
    cases hcopy : borrowing.copyModulesInto [⟨1⟩, ⟨0⟩] borrowing with
    | mk outcome q =>
        rw [hcopy] at hrun
        subst hrun
        exact ⟨q, rfl, hboth.2 _ q hcopy⟩

end Program

end SignalGraph

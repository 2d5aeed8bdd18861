import SignalGraph.Proofs.Program.WellFormed

/-!
# SignalGraph.Proofs.Program.CopyWellFormed

Copying modules of a well-formed program into another one, or within the program, leaves the
destination well formed (`WellFormed.copied`).  What is copied mentions handles of the source; their
new names are handles of the destination.
-/

namespace SignalGraph

open CopySource

/-! ## Fresh handles -/

section

variable {e : Entity}

/-- The handles of the next entries of a table. -/
def freshHandles (start count : Nat) : List (Handle e) :=
  (List.range count).map fun i => ⟨start + i⟩

/-- Fresh handles are those from the start of a range up to its end. -/
theorem mem_freshHandles_iff {start count : Nat} {h : Handle e} :
    h ∈ freshHandles start count ↔ start ≤ h.idx ∧ h.idx < start + count := by
  simp only [freshHandles, List.mem_map, List.mem_range]
  constructor
  · rintro ⟨i, hi, rfl⟩
    simp [hi]
  · rintro ⟨hle, hlt⟩
    exact ⟨h.idx - start, by omega, by cases h; simp at hle ⊢; omega⟩

/-- Fresh handles are distinct. -/
theorem nodup_freshHandles (start count : Nat) :
    (freshHandles start count : List (Handle e)).Nodup := by
  refine List.Nodup.map ?_ List.nodup_range
  intro i j hij
  simpa using hij

/-- The new names of all that is copied are the fresh handles, in order. -/
theorem mapM_known_assigned (c : CopySource) {n : Nat} {l : List (Handle e)} (hl : l.Nodup) :
    l.mapM (c.known (assigned n l).reverse) = some (freshHandles n l.length) := by
  rw [mapM_eq_some_iff_forall₂, List.forall₂_iff_get]
  refine ⟨by simp [freshHandles], fun i hi _ => ?_⟩
  have hsplit : l = l.take i ++ l[i] :: l.drop (i + 1) := by simp
  have hknown := CopyPlan.known_assigned c (n := n) hl hsplit
  have hlength : (l.take i).length = i := by simp; omega
  rw [hlength] at hknown
  simpa [freshHandles] using hknown

/-- What has a new name is copied and its name is fresh, or it is from outside and keeps its
name. -/
theorem known_cases {c : CopySource} {start : Nat} {l : List (Handle e)} {a b : Handle e}
    (hl : l.Nodup) (h : c.known (assigned start l).reverse a = some b) :
    (a ∈ l ∧ b ∈ (freshHandles start l.length : List (Handle e))) ∨
      (a ∉ l ∧ c.keepOutside = true ∧ a = b) := by
  by_cases ha : a ∈ l
  · obtain ⟨l₁, l₂, hsplit⟩ := List.append_of_mem ha
    rw [CopyPlan.known_assigned c hl hsplit] at h
    cases h
    refine .inl ⟨ha, mem_freshHandles_iff.mpr ⟨by simp, ?_⟩⟩
    simp [hsplit]
  · simp only [known, lookup_assigned_eq_none ha] at h
    split at h
    · next hkeep => exact .inr ⟨ha, hkeep, Option.some.inj h⟩
    · cases h

/-- The handles of a table that was appended to are the old ones and fresh ones. -/
theorem Appended.handles {α β : Type} {φ : β → α → Prop} {old now : Arena e α} {l : List β}
    (h : Appended φ old l now) : now.handles = old.handles ++ freshHandles old.size l.length := by
  have hsize := h.size
  simp only [Arena.size] at hsize
  simp only [Arena.handles, freshHandles, hsize, List.range_add, List.map_append, List.map_map]
  rfl

/-- What is gathered by handle is gathered from the list of the table. -/
theorem Arena.flatMap_handles {α β : Type} [Inhabited α] (a : Arena e α) (f : α → List β) :
    (a.handles.flatMap fun h => f (a.get h)) = a.toList.flatMap f := by
  rw [← Arena.map_get_handles, List.flatMap_map]

end

/-- Lists that are mapped part by part are mapped as a whole. -/
theorem mapM_flatMap_of_forall₂ {α β γ δ : Type} {f : α → List γ} {g : β → List δ}
    {k : γ → Option δ} {l : List α} {l' : List β}
    (h : List.Forall₂ (fun a b => (f a).mapM k = some (g b)) l l') :
    (l.flatMap f).mapM k = some (l'.flatMap g) := by
  induction h with
  | nil => rfl
  | cons hab _ ih => simp [hab, ih]

/-! ## Old parts -/

namespace Program

/-- A text that is there keeps its handle. -/
theorem present_eq_some_iff {p : Program} {t t' : TextId} :
    present p t = some t' ↔ t = t' ∧ ∃ text, p.texts.get? t = some text := by
  simp only [present, Option.map_eq_some_iff]
  constructor
  · rintro ⟨text, htext, rfl⟩
    exact ⟨rfl, text, htext⟩
  · rintro ⟨rfl, text, htext⟩
    exact ⟨text, htext, rfl⟩

/-- A value whose structs and texts are in range is not changed by looking. -/
theorem eq_of_mapParts_inRange {p : Program} {v v' : Value}
    (h : v.mapParts (·.mapStructs (·.below p.structs.size)) (present p) = some v') : v = v' := by
  have hsome : v.mapParts some some = some v' := by
    refine Value.mapParts_extends ?_ ?_ h
    · exact Ty.mapStructs_extends_some p.inRange_le_identity.onStruct
    · intro t t' ht
      exact congrArg some (present_eq_some_iff.mp ht).1
  exact Option.some.inj ((Value.mapParts_keeps (fun _ => rfl) (fun _ => rfl) v).symm.trans hsome)

/-- A program that has all that another one has. -/
structure Includes (p q : Program) : Prop where
  modules : p.modules.size ≤ q.modules.size
  structs : p.structs.size ≤ q.structs.size
  functions : p.functions.size ≤ q.functions.size
  declared : p.declared ⊆ q.declared
  tables : p.TablesGrow q

/-- More handles are in range of a larger table. -/
theorem below_extends {e : Entity} {m n : Nat} (h : m ≤ n) :
    Extends (Handle.below (e := e) m) (Handle.below n) := by
  intro x y hx
  rw [Handle.below_eq_some_iff] at hx ⊢
  exact ⟨Nat.lt_of_lt_of_le hx.1 h, hx.2⟩

end Program

/-- The value mentions only structs and texts that are there. -/
def SoundValue (p : Program) (value : Value) : Prop :=
  ∃ value', value.mapParts (·.mapStructs (·.below p.structs.size)) (CopySource.present p) =
    some value'

/-- A sound value is sound in every program with more structs and texts. -/
theorem SoundValue.mono {p q : Program} {value : Value} (h : SoundValue p value)
    (hstructs : p.structs.size ≤ q.structs.size) (htexts : p.texts.toList <+: q.texts.toList) :
    SoundValue q value := by
  obtain ⟨value', hvalue⟩ := h
  refine ⟨value', Value.mapParts_extends (Ty.mapStructs_extends (Program.below_extends hstructs)) ?_
    hvalue⟩
  intro t t' ht
  obtain ⟨rfl, text, htext⟩ := Program.present_eq_some_iff.mp ht
  exact Program.present_eq_some_iff.mpr ⟨rfl, text, Arena.get?_of_isPrefix htexts htext⟩

/-- A list of values has a name if each of them has. -/
theorem Value.mapPartsList_defined_iff {onTy : Ty → Option Ty} {onText : TextId → Option TextId}
    {vs : List Value} : (∃ vs', mapPartsList onTy onText vs = some vs') ↔
      ∀ v ∈ vs, ∃ v', v.mapParts onTy onText = some v' := by
  induction vs with
  | nil => simp [mapPartsList]
  | cons v vs ih => simp [mapPartsList, Option.bind_eq_some_iff, ← ih]

/-- An aggregate is sound if its type is in range and its elements are sound. -/
theorem soundValue_aggregate {p : Program} {t : Ty} {vs : List Value} :
    SoundValue p (.aggregate t vs) ↔
      (∃ t', t.mapStructs (·.below p.structs.size) = some t') ∧ ∀ v ∈ vs, SoundValue p v := by
  have hvs : (∃ vs', Value.mapPartsList (·.mapStructs (·.below p.structs.size)) (present p) vs =
      some vs') ↔ ∀ v ∈ vs, SoundValue p v := Value.mapPartsList_defined_iff
  rw [← hvs, SoundValue]
  simp only [Value.mapParts, Option.bind_eq_bind, Option.pure_def, Option.bind_eq_some_iff,
    Option.some.injEq]
  constructor
  · rintro ⟨_, t', ht, vs', hvs', -⟩
    exact ⟨⟨t', ht⟩, vs', hvs'⟩
  · rintro ⟨⟨t', ht⟩, vs', hvs'⟩
    exact ⟨_, t', ht, vs', hvs', rfl⟩

namespace Program

/-- A constant is in use if its value is sound. -/
theorem sound_iff {p : Program} {id : ConstantId} :
    p.sound id = some id ↔ ∃ v, p.constants.get? id = some v ∧ SoundValue p v := by
  rw [sound_eq_some_iff]
  constructor
  · rintro ⟨-, v, v', hv, hv'⟩
    exact ⟨v, hv, v', hv'⟩
  · rintro ⟨v, hv, v', hv'⟩
    exact ⟨rfl, v, v', hv, hv'⟩

/-- More is in range in a program that has more. -/
theorem Includes.inRange_le {p q : Program} (h : p.Includes q) : p.inRange.Le q.inRange where
  onModule := below_extends h.modules
  onStruct := below_extends h.structs
  onFunction := below_extends h.functions
  onVariable v w hv := by
    obtain ⟨hv, hvw⟩ := Handle.among_eq_some_iff.mp hv
    exact Handle.among_eq_some_iff.mpr ⟨h.declared hv, hvw⟩
  onConstant id id' hid := by
    obtain ⟨rfl, v, v', hv, hv'⟩ := sound_eq_some_iff.mp hid
    exact sound_iff.mpr ⟨v, Arena.get?_of_isPrefix h.tables.constants hv,
      SoundValue.mono ⟨v', hv'⟩ h.structs h.tables.texts⟩
  onBlock _ _ hb := by cases hb

end Program

/-- A larger renaming within larger scopes is larger. -/
theorem Renaming.Le.within {r r' : Renaming} (h : r.Le r') {visible visible' : List VariableId}
    (hvisible : visible ⊆ visible') {n n' : Nat} (hn : n ≤ n') :
    (r.within visible n).Le (r'.within visible' n') where
  onModule := h.onModule
  onStruct := h.onStruct
  onFunction := h.onFunction
  onVariable v w hv := by
    obtain ⟨hv, hvw⟩ := Option.ite_none_right_eq_some.mp hv
    exact Option.ite_none_right_eq_some.mpr ⟨hvisible hv, h.onVariable hvw⟩
  onConstant := h.onConstant
  onBlock b c hb := by
    obtain ⟨hb, hbc⟩ := Option.ite_none_right_eq_some.mp hb
    exact Option.ite_none_right_eq_some.mpr ⟨Nat.lt_of_lt_of_le hb hn, hbc⟩

/-! ## New parts -/

/-- New names of handles in range are in range. -/
theorem known_square {e : Entity} {c : CopySource} {start size size' : Nat} {l : List (Handle e)}
    (hl : l.Nodup) (hkeep : c.keepOutside = true → size ≤ start)
    (hsize : size' = start + l.length) :
      Commutes (c.known (assigned start l).reverse) (Handle.below size)
        (c.known (assigned start l).reverse) (Handle.below size') := by
  intro x x' y y' hx hy hy'
  obtain ⟨hlt, rfl⟩ := Handle.below_eq_some_iff.mp hy
  cases hx.symm.trans hy'
  refine Handle.below_eq_some_iff.mpr ⟨?_, rfl⟩
  rcases known_cases hl hx with ⟨-, hfresh⟩ | ⟨-, hkept, rfl⟩
  · exact hsize ▸ (mem_freshHandles_iff.mp hfresh).2
  · have hle := hkeep hkept
    omega

namespace Program

/-- The variables of modules are gathered from the list of modules. -/
theorem allModuleVars_eq (p : Program) :
    p.allModuleVars = p.modules.toList.flatMap fun m => m.parameters ++ m.state :=
  p.modules.flatMap_handles fun m => m.parameters ++ m.state

/-- The parameters and locals of functions are gathered from the list of functions. -/
theorem signatureVars_eq (p : Program) : p.functions.handles.flatMap p.signatureVars =
    p.functions.toList.flatMap fun f => f.parameters ++ f.locals :=
  p.functions.flatMap_handles fun f => f.parameters ++ f.locals

/-- The parameters of blocks are gathered from the list of functions. -/
theorem blockVars_eq (p : Program) : p.functions.handles.flatMap p.blockVars =
    p.functions.toList.flatMap fun f => f.blocks.toList.flatMap fun b => b.parameters :=
  p.functions.flatMap_handles fun f : Function =>
    f.blocks.toList.flatMap fun b : Block => b.parameters

end Program

section

variable {r : Renaming}

/-- The variables of a module are renamed in order. -/
theorem Module.Renames.vars {m m' : Module} (h : m.Renames r m') :
    (m.parameters ++ m.state).mapM r.onVariable = some (m'.parameters ++ m'.state) := by
  simp [h.parameters, h.state]

/-- The parameters and locals of a function are renamed in order. -/
theorem Function.Renames.signatureVars {f f' : Function} (h : f.Renames r f') :
    (f.parameters ++ f.locals).mapM r.onVariable = some (f'.parameters ++ f'.locals) := by
  simp [h.parameters, h.locals]

/-- Labels do not matter for the parameters of blocks. -/
theorem Function.Renames.blockVars {f f' : Function} (h : f.labelled.Renames r f') :
    (f.blocks.toList.flatMap fun b => b.parameters).mapM r.onVariable =
      some (f'.blocks.toList.flatMap fun b => b.parameters) := by
  refine mapM_flatMap_of_forall₂ ?_
  have hblocks := mapM_eq_some_iff_forall₂.mp (Arena.rename_eq_some_iff.mp h.blocks)
  rw [Function.labelled, Arena.toList_ofList, List.forall₂_map_left_iff] at hblocks
  exact hblocks.imp fun b b' hb => (Block.rename_eq_some_iff.mp hb).parameters

/-- Labels do not change how many blocks there are. -/
theorem Function.size_labelled (f : Function) : f.labelled.blocks.size = f.blocks.size := by
  rw [← Arena.length_toList, ← Arena.length_toList]
  simp [labelled]

/-- Labels are no names that a renaming changes. -/
theorem Function.rename_labelled {f f' : Function} (h : f.rename r = some f') :
    f.labelled.rename r = some f'.labelled := by
  have h := Function.rename_eq_some_iff.mp h
  refine Function.rename_eq_some_iff.mpr { h with blocks := ?_ }
  have hblocks := mapM_eq_some_iff_forall₂.mp (Arena.rename_eq_some_iff.mp h.blocks)
  rw [Arena.rename_eq_some_iff, mapM_eq_some_iff_forall₂, labelled, labelled,
    Arena.toList_ofList, Arena.toList_ofList, List.forall₂_map_left_iff, List.forall₂_map_right_iff]
  refine hblocks.imp fun b b' hb => ?_
  have hb := Block.rename_eq_some_iff.mp hb
  exact Block.rename_eq_some_iff.mpr { hb with name := congrArg blockLabel hb.name }

end

namespace CopyPlan

section

variable {P : CopyPlan} {d : Renaming} {visible : FunctionId → List VariableId}
  (hready : P.Ready d visible) {newName : Option String} {dest : Program}
  (hc : P.Copied newName dest)

include hready hc

/-- Exactly the copied variables are newly declared. -/
theorem declared_perm :
    dest.declared.Perm (P.base.declared ++ freshHandles P.base.vars.size P.vars.length) := by
  obtain ⟨ms, hms, hmodules⟩ := hc.modules
  obtain ⟨fs, hfs, hfunctions⟩ := hc.functions
  have hmoduleVars := mapM_flatMap_of_forall₂ (hmodules.imp fun id m hm =>
    (Module.rename_eq_some_iff.mp hm).vars)
  have hsignatureVars := mapM_flatMap_of_forall₂ (hfunctions.imp fun g f hf =>
    (Function.rename_eq_some_iff.mp hf).signatureVars)
  have hblockVars := mapM_flatMap_of_forall₂ (hfunctions.imp fun g f hf =>
    (Function.rename_eq_some_iff.mp hf).blockVars)
  have hfresh := mapM_known_assigned P.source (n := P.base.vars.size) hready.distinct.vars
  have hnew : P.vars.mapM (P.source.known P.copies.vars) =
      some ((ms.flatMap fun m => m.parameters ++ m.state) ++
        ((fs.flatMap fun f => f.parameters ++ f.locals) ++
          fs.flatMap fun f => f.blocks.toList.flatMap fun b => b.parameters)) := by
    rw [hready.variableList]
    exact mapM_append_some hmoduleVars (mapM_append_some hsignatureVars hblockVars)
  have hsame := Option.some.inj (hnew.symm.trans hfresh)
  rw [← hsame]
  simp only [Program.declared, Program.allModuleVars_eq, Program.signatureVars_eq,
    Program.blockVars_eq, hms, hfs, List.flatMap_append]
  rw [List.perm_iff_count]
  intro v
  simp only [List.count_append]
  omega

/-- The destination has all that the program had that it started from. -/
theorem includes : P.base.Includes dest where
  modules := by
    rw [hc.modules.size]
    exact Nat.le_add_right _ _
  structs := by
    rw [hc.structs.size]
    exact Nat.le_add_right _ _
  functions := by
    rw [hc.functions.size]
    exact Nat.le_add_right _ _
  declared v hv := (declared_perm hready hc).mem_iff.mpr (List.mem_append_left _ hv)
  tables := hc.tables

variable (hbase : P.source.keepOutside = true → P.base = P.source.program)

include hbase

/-- New names of structs in range are in range. -/
theorem struct_square : Commutes (P.naming dest).onStruct
    (Handle.below P.source.program.structs.size) (P.naming dest).onStruct
    (Handle.below dest.structs.size) :=
  known_square hready.distinct.structs
    (fun hkeep => Nat.le_of_eq (by rw [hbase hkeep])) hc.structs.size

/-- A new name of a declared variable is declared. -/
theorem mem_declared {v w : VariableId} (hv : v ∈ P.source.program.declared)
    (hw : P.source.known P.copies.vars v = some w) : w ∈ dest.declared := by
  refine (declared_perm hready hc).mem_iff.mpr (List.mem_append.mpr ?_)
  rcases known_cases hready.distinct.vars hw with ⟨-, hfresh⟩ | ⟨-, hkeep, rfl⟩
  · exact .inr hfresh
  · rw [hbase hkeep]
    exact .inl hv

/-- New names of handles in use are in use. -/
theorem naming_square : (P.naming dest).Square P.source.program.inRange (P.naming dest)
    dest.inRange where
  onModule := known_square hready.distinct.modules (fun hkeep => Nat.le_of_eq (by rw [hbase hkeep]))
    hc.modules.size
  onStruct := struct_square hready hc hbase
  onFunction :=
    known_square hready.distinct.functions
      (fun hkeep => Nat.le_of_eq (by rw [hbase hkeep])) hc.functions.size
  onVariable x x' y y' hx hy hy' := by
    obtain ⟨hmem, rfl⟩ := Handle.among_eq_some_iff.mp hy
    cases hx.symm.trans hy'
    exact Handle.among_eq_some_iff.mpr ⟨mem_declared hready hc hbase hmem hx, rfl⟩
  onConstant x x' y y' hx hy hy' := by
    obtain ⟨rfl, v, v', hv, hv'⟩ := Program.sound_eq_some_iff.mp hy
    cases hx.symm.trans hy'
    simp only [naming, names, Program.constantTo, Option.bind_eq_bind, Option.bind_eq_some_iff]
      at hx
    obtain ⟨v₀, hv₀, w, hw, hfind⟩ := hx
    cases hv.symm.trans hv₀
    refine Program.sound_eq_some_iff.mpr ⟨rfl, w, w, Interner.get?_of_find? hfind, ?_⟩
    obtain rfl := Program.eq_of_mapParts_inRange hv'
    refine Value.mapParts_commutes
      (Ty.mapStructs_commutes (struct_square hready hc hbase)) ?_ hw hv' hw
    intro t t' u u' ht hu ht'
    obtain ⟨rfl, text, htext⟩ := Program.present_eq_some_iff.mp hu
    cases ht.symm.trans ht'
    obtain ⟨text', -, hfind⟩ := Option.bind_eq_some_iff.mp ht
    exact Program.present_eq_some_iff.mpr ⟨rfl, text', Interner.get?_of_find? hfind⟩
  onBlock x x' y y' hx hy hy' := by cases hy

/-- What a function could see, its copy sees under the new name. -/
theorem scope_square (hvisible : visible = fun g =>
      P.source.program.visibleTo (P.source.program.functionAt g)) {g : FunctionId}
    (hg : g ∈ P.functions) {f : Function}
    (hf : (P.source.program.functionAt g).labelled.rename (P.naming dest) = some f) :
    (P.naming dest).Square (P.source.program.scope (P.source.program.functionAt g))
      (P.naming dest) (dest.scope f) := by
  have hsquare := naming_square hready hc hbase
  have hf := Function.rename_eq_some_iff.mp hf
  refine ⟨hsquare.onModule, hsquare.onStruct, hsquare.onFunction, ?_, hsquare.onConstant, ?_⟩
  · intro v w v' w' hv hv' hw
    obtain ⟨hseen, hdeclared⟩ := Option.ite_none_right_eq_some.mp hv'
    refine Option.ite_none_right_eq_some.mpr ⟨?_, hsquare.onVariable hv hdeclared hw⟩
    -- a variable of the original function is declared by its copy
    have hown : v ∈ P.source.program.signatureVars g ∨ v ∈ P.source.program.blockVars g →
        w ∈ f.declared := by
      simp only [Function.declared, ← List.append_assoc]
      rintro (hmem | hmem)
      · exact List.mem_append_left _ (mem_of_mapM hf.signatureVars hmem hv)
      · exact List.mem_append_right _ (mem_of_mapM hf.blockVars hmem hv)
    rcases List.mem_append.mp hseen with hmodule | hlocal
    -- a module's variable is one that is copied, the function's own, or one kept from outside
    · rcases hready.visible g hg v (by rw [hvisible]; exact hseen) with hmem | hmem | hmem | hmem
      · obtain ⟨ms, hms, hmodules⟩ := hc.modules
        have hvars := mapM_flatMap_of_forall₂ (hmodules.imp fun id m hm =>
          (Module.rename_eq_some_iff.mp hm).vars)
        refine List.mem_append_left _ ?_
        rw [Program.allModuleVars_eq, hms, List.flatMap_append]
        exact List.mem_append_right _ (mem_of_mapM hvars hmem hv)
      · exact List.mem_append_right _ (hown (.inl hmem))
      · exact List.mem_append_right _ (hown (.inr hmem))
      · obtain ⟨hcopied, -⟩ | ⟨-, hkeep, rfl⟩ := known_cases hready.distinct.vars hv
        · exact absurd hcopied hmem
        · refine List.mem_append_left _ ?_
          obtain ⟨ms, hms, -⟩ := hc.modules
          rw [Program.allModuleVars_eq, hms, List.flatMap_append, hbase hkeep,
            ← Program.allModuleVars_eq]
          exact List.mem_append_left _ hmodule
    · refine List.mem_append_right _ (hown ?_)
      simp only [Function.declared, List.mem_append] at hlocal
      obtain hmem | hmem | hmem := hlocal
      · exact .inl (List.mem_append_left _ hmem)
      · exact .inl (List.mem_append_right _ hmem)
      · exact .inr hmem
  · intro b b' c c' hb hc' hb'
    obtain ⟨hlt, rfl⟩ : b.idx < _ ∧ b = c := by
      simpa [Program.scope, Renaming.within] using hc'
    cases hb.symm.trans hb'
    cases hb
    have hsize := Arena.size_of_rename hf.blocks
    rw [Function.size_labelled] at hsize
    simp [Program.scope, Renaming.within, hsize, hlt]

omit hbase

omit hready in
/-- What the new modules list are the new entries of a table, in order. -/
theorem listed_concat {e : Entity} {list : List (Handle e)} {start : Nat}
    (field : Module → List (Handle e))
    (hlist : list = P.modules.flatMap fun id => field (P.source.program.moduleAt id))
    (hnodup : list.Nodup)
    (hfield : ∀ id m, (retitled newName (P.source.program.moduleAt id)).Renames (P.naming dest) m →
      (field (P.source.program.moduleAt id)).mapM (P.source.known (assigned start list).reverse) =
        some (field m)) :
    (dest.modules.handles.flatMap fun id => field (dest.moduleAt id)) =
      (P.base.modules.handles.flatMap fun id => field (P.base.moduleAt id)) ++
        freshHandles start list.length := by
  obtain ⟨ms, hms, hmodules⟩ := hc.modules
  have hnew := mapM_flatMap_of_forall₂ (hmodules.imp fun id m hm =>
    hfield id m (Module.rename_eq_some_iff.mp hm))
  have hfresh := mapM_known_assigned P.source (n := start) hnodup
  rw [← hlist] at hnew
  have hsame := Option.some.inj (hnew.symm.trans hfresh)
  have hold := P.base.modules.flatMap_handles field
  have hnow := dest.modules.flatMap_handles field
  rw [hms, List.flatMap_append, hsame, ← hold] at hnow
  exact hnow

/-- The copied modules list the copied structs, in order. -/
theorem structs_listed : (dest.modules.handles.flatMap fun id => (dest.moduleAt id).structs) =
    (P.base.modules.handles.flatMap fun id => (P.base.moduleAt id).structs) ++
      freshHandles P.base.structs.size P.structs.length :=
  listed_concat hc (·.structs) hready.structList hready.distinct.structs fun _ _ hm => hm.structs

/-- The copied modules list the copied functions, in order. -/
theorem functions_listed :
    (dest.modules.handles.flatMap fun id => (dest.moduleAt id).functions) =
    (P.base.modules.handles.flatMap fun id => (P.base.moduleAt id).functions) ++
      freshHandles P.base.functions.size P.functions.length :=
  listed_concat hc (·.functions) hready.functionList hready.distinct.functions
    fun _ _ hm => hm.functions

end

end CopyPlan

/-- A copy belongs to the copy of its owner. -/
theorem CopyPlan.owner_of_copy {P : CopyPlan} (hP : P.Distinct) {e : Entity} {α : Type}
    [Inhabited α] {old now : Arena e α} {list : List (Handle e)} {item : Handle e → α}
    {owner : α → ModuleId} (hlist : list.Nodup)
    (h : Appended (fun r y => P.source.known P.copies.modules (owner (item r)) = some (owner y))
      old list now)
    {l₁ l₂ : List ModuleId} {id : ModuleId} (hid : P.modules = l₁ ++ id :: l₂) {r r' : Handle e}
    (hr : r ∈ list) (howner : owner (item r) = id)
    (hr' : P.source.known (assigned old.size list).reverse r = some r') :
    owner (now.get r') = ⟨P.base.modules.size + l₁.length⟩ := by
  obtain ⟨a, b, rfl⟩ := List.append_of_mem hr
  rw [known_assigned P.source hlist rfl] at hr'
  cases hr'
  have hnew := h.get_new
  rw [howner, known_module hP hid] at hnew
  exact (Option.some.inj hnew).symm

/-- What the modules list of an appended table belongs to them: the old entries did, and a new entry
is the copy of one that the copied module owned. -/
theorem CopyPlan.owner_of_listed {P : CopyPlan} (hP : P.Distinct) {newName : Option String}
    {dest : Program} (hc : P.Copied newName dest) {e : Entity} {α : Type} [Inhabited α]
    (table : Program → Arena e α) (field : Module → List (Handle e)) (owner : α → ModuleId)
    {list : List (Handle e)}
    (hlist : list = P.modules.flatMap fun id => field (P.source.program.moduleAt id))
    (hnodup : list.Nodup)
    (hfield : ∀ id m, (retitled newName (P.source.program.moduleAt id)).Renames (P.naming dest) m →
      (field (P.source.program.moduleAt id)).mapM
        (P.source.known (assigned (table P.base).size list).reverse) = some (field m))
    (htable : Appended (fun r y => P.source.known P.copies.modules
      (owner ((table P.source.program).get r)) = some (owner y)) (table P.base) list (table dest))
    (hsource : ∀ id ∈ P.modules, ∀ r ∈ field (P.source.program.moduleAt id),
      owner ((table P.source.program).get r) = id)
    (hrange : ∀ id ∈ P.base.modules.handles, ∀ r ∈ field (P.base.moduleAt id),
      r ∈ (table P.base).handles)
    (hbase : ∀ id ∈ P.base.modules.handles, ∀ r ∈ field (P.base.moduleAt id),
      owner ((table P.base).get r) = id) :
    ∀ id ∈ dest.modules.handles, ∀ r ∈ field (dest.moduleAt id),
      owner ((table dest).get r) = id := by
  intro id hid r hr
  rcases hc.modules.mem_handles hid with hid | ⟨l₁, id₀, l₂, hsplit, rfl⟩
  · -- an old module lists what it listed, and those entries are unchanged
    have hsame : dest.moduleAt id = P.base.moduleAt id := hc.modules.get_old hid
    rw [hsame] at hr
    rw [htable.get_old (hrange id hid r hr)]
    exact hbase id hid r hr
  · -- a new module lists the new names of what its original lists
    have hm := hc.modules
    rw [hsplit] at hm
    have hm := Module.rename_eq_some_iff.mp hm.get_new
    obtain ⟨r₀, hr₀, hknown⟩ := exists_mem_of_mapM (hfield id₀ _ hm) hr
    have hid₀ : id₀ ∈ P.modules := by simp [hsplit]
    have hmem : r₀ ∈ list := by
      rw [hlist]
      exact List.mem_flatMap.mpr ⟨id₀, hid₀, hr₀⟩
    exact owner_of_copy hP hnodup htable hsplit hmem (hsource id₀ hid₀ r₀ hr₀) hknown

namespace Program

/-- Structs and functions stand in the order in which the modules list them. -/
structure Ordered (p : Program) : Prop where
  structs : (p.modules.handles.flatMap fun id => (p.moduleAt id).structs) = p.structs.handles
  functions : (p.modules.handles.flatMap fun id => (p.moduleAt id).functions) = p.functions.handles

section

variable {P : CopyPlan} (hp : P.source.program.WellFormed) (hb : P.base.WellFormed)
  (hready : P.Ready P.source.program.inRange
    fun g => P.source.program.visibleTo (P.source.program.functionAt g))
  (hbase : P.source.keepOutside = true → P.base = P.source.program)
  {newName : Option String} {dest : Program} (hc : P.Copied newName dest)
  (hsub : P.modules ⊆ P.source.program.modules.handles)

include hready hc

/-- Copying keeps structs and functions in the order in which modules list them. -/
theorem Ordered.copied (ho : P.base.Ordered) : dest.Ordered where
  structs := by
    rw [CopyPlan.structs_listed hready hc, ho.structs, hc.structs.handles]
  functions := by
    rw [CopyPlan.functions_listed hready hc, ho.functions, hc.functions.handles]

include hp hb hbase hsub

/-- What copies make of a well-formed program is well formed.  Old parts see as much as before, and
new parts mention what their originals mention, under the new names (`naming_square`,
`scope_square`). -/
theorem WellFormed.copied : dest.WellFormed := by
  have hincludes := CopyPlan.includes hready hc
  have hle := hincludes.inRange_le
  have hsquare := CopyPlan.naming_square hready hc hbase
  refine {
    modules := fun m hm => ?_
    nodes := fun m hm => ?_
    structs := fun r hr => ?_
    functions := fun f hf => ?_
    vars := fun v hv => ?_
    structOwner := fun id hid r hr => ?_
    functionOwner := fun id hid f hf => ?_
    structsListed := ?_
    functionsListed := ?_
    declaredOnce := ?_
    declaredInRange := fun v hv => ?_ }
  -- each kind of entry is an old one, which sees more names now, or the copy of an entry that was
  -- well formed under the old names
  · rcases hc.modules.mem_toList hm with hm | ⟨id, hid, hm⟩
    · exact hle.module (hb.modules m hm)
    · have hrange := Module.rename_eq_some_iff.mp (hp.modules _ (Arena.get_mem_toList (hsub hid)))
      have hretitled : (CopyPlan.retitled newName (P.source.program.moduleAt id)).rename
          P.source.program.inRange =
            some (CopyPlan.retitled newName (P.source.program.moduleAt id)) :=
        Module.rename_eq_some_iff.mpr
          { hrange with kind := rfl, name := rfl, connections := rfl, span := rfl }
      exact Module.rename_commutes hsquare hm hretitled hm
  · rcases hc.modules.mem_toList hm with hm | ⟨id, hid, hm⟩
    · exact hb.nodes m hm
    · have hm := Module.rename_eq_some_iff.mp hm
      rw [hm.connections, Arena.size_of_rename hm.nodes]
      exact hready.nodes id hid
  · rcases hc.structs.mem_toList hr with hr | ⟨r₀, hr₀, hr⟩
    · exact hle.struct (hb.structs r hr)
    · have hmem : r₀ ∈ P.source.program.structs.handles := by
        rw [hready.structList] at hr₀
        obtain ⟨id, hid, hr₀⟩ := List.mem_flatMap.mp hr₀
        exact hp.struct_inRange (hsub hid) hr₀
      exact Structure.rename_commutes hsquare hr (hp.structs _ (Arena.get_mem_toList hmem)) hr
  -- a function sees the variables of all modules, so its square is the one of its own scope
  · rcases hc.functions.mem_toList hf with hf | ⟨g, hg, hf⟩
    · have hseen : P.base.visibleTo f ⊆ dest.visibleTo f := by
        obtain ⟨ms, hms, -⟩ := hc.modules
        intro v hv
        simp only [visibleTo, allModuleVars_eq, hms, List.flatMap_append, List.mem_append] at hv ⊢
        exact hv.imp_left .inl
      exact (hle.within hseen (Nat.le_refl _)).function (hb.functions f hf)
    · have hmem : g ∈ P.source.program.functions.handles := by
        rw [hready.functionList] at hg
        obtain ⟨id, hid, hg⟩ := List.mem_flatMap.mp hg
        exact hp.function_inRange (hsub hid) hg
      exact Function.rename_commutes (CopyPlan.scope_square hready hc hbase rfl hg hf) hf
        (Function.rename_labelled (hp.functions _ (Arena.get_mem_toList hmem))) hf
  · rcases hc.vars.mem_toList hv with hv | ⟨v₀, hv₀, hv⟩
    · exact hle.variable (hb.vars v hv)
    · obtain ⟨w, hw⟩ := hready.vars v₀ hv₀
      have hself := Option.some.inj
        ((hready.identity.variable hw).symm.trans (Variable.rename_keeps _))
      exact Variable.rename_commutes hsquare hv (hself ▸ hw) hv
  -- owners and lists agree: one argument for the two tables
  · exact CopyPlan.owner_of_listed hready.distinct hc (·.structs) (·.structs) (·.owner)
      hready.structList hready.distinct.structs (fun _ _ hm => hm.structs)
      (hc.structs.mono fun _ _ _ h => (Structure.rename_eq_some_iff.mp h).owner) hready.structOwner
      (fun _ => hb.struct_inRange) hb.structOwner id hid r hr
  · exact CopyPlan.owner_of_listed hready.distinct hc (·.functions) (·.functions) (·.owner)
      hready.functionList hready.distinct.functions (fun _ _ hm => hm.functions)
      (hc.functions.mono fun _ _ _ h => (Function.rename_eq_some_iff.mp h).owner)
      hready.functionOwner (fun _ => hb.function_inRange) hb.functionOwner id hid f hf
  · rw [CopyPlan.structs_listed hready hc, hc.structs.handles]
    exact hb.structsListed.append_right _
  · rw [CopyPlan.functions_listed hready hc, hc.functions.handles]
    exact hb.functionsListed.append_right _
  -- the declared variables are the old ones and fresh handles for the copies
  · rw [(CopyPlan.declared_perm hready hc).nodup_iff, List.nodup_append]
    refine ⟨hb.declaredOnce, nodup_freshHandles _ _, ?_⟩
    rintro v hv w hw rfl
    have hlt := hb.declaredInRange v hv
    have hle := (mem_freshHandles_iff.mp hw).1
    omega
  · rw [hc.vars.size]
    rcases List.mem_append.mp ((CopyPlan.declared_perm hready hc).mem_iff.mp hv) with hv | hv
    · exact Nat.lt_of_lt_of_le (hb.declaredInRange v hv) (Nat.le_add_right _ _)
    · exact (mem_freshHandles_iff.mp hv).2

end

end Program

end SignalGraph

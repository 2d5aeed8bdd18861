import SignalGraph.Proofs.Program.CopyWellFormed
import SignalGraph.Proofs.Program.Rework
import Mathlib.Order.Defs.Unbundled

/-!
# SignalGraph.Proofs.Program.Additions

Additions that keep a program well formed.  A program may get more entries, some entries may be
replaced, and new variables may be declared, each in one place; what is new or replaced mentions
only what is there (`WellFormed.adds`).

The lists of a well-formed program, such as the variables that it declares, are gathered from the
entries of its tables.  An addition makes one entry contribute more.
-/

namespace SignalGraph

open scoped List

/-! ## Gathering -/

namespace Arena

variable {e : Entity} {α β : Type} [Inhabited α]

/-- What the entries contribute, in order. -/
def gather (a : Arena e α) (g : Handle e → α → List β) : List β :=
  a.handles.flatMap fun h => g h (a.get h)

variable {a : Arena e α} {g : Handle e → α → List β}

omit [Inhabited α] in
/-- Handles stay in range in a table of at least the same size. -/
theorem mem_handles_of_le {b : Arena e α} {h : Handle e} (hh : h ∈ a.handles)
    (hle : a.size ≤ b.size) : h ∈ b.handles :=
  mem_handles_iff.mpr (Nat.lt_of_lt_of_le (mem_handles_iff.mp hh) hle)

omit [Inhabited α] in
/-- A new entry makes its handle the last one. -/
theorem handles_push (a : Arena e α) (x : α) : (a.push x).handles = a.handles ++ [a.next] := by
  simp [handles, push, next, List.range_succ]

/-- The new entry is found under its handle. -/
theorem get_push_next (a : Arena e α) (x : α) : (a.push x).get a.next = x := by
  simp [get]

/-- Old entries are found as before. -/
theorem get_push_of_mem {h : Handle e} (hh : h ∈ a.handles) (x : α) :
    (a.push x).get h = a.get h := by
  rw [get, get, get?_push_of_lt a x h (mem_handles_iff.mp hh)]

/-- What a table gathers from its entries is continued by the new entry. -/
theorem gather_push (a : Arena e α) (x : α) (g : Handle e → α → List β) :
    (a.push x).gather g = a.gather g ++ g a.next x := by
  have hold : (a.handles.flatMap fun h => g h ((a.push x).get h)) = a.gather g :=
    List.flatMap_congr fun h hh => by rw [get_push_of_mem hh]
  rw [gather, handles_push, List.flatMap_append, hold]
  simp [get_push_next]

omit [Inhabited α] in
/-- Changing an entry changes no handles. -/
theorem handles_modify (a : Arena e α) (k : Handle e) (f : α → α) :
    (a.modify k f).handles = a.handles :=
  Arena.handles_eq_of_size (Arena.size_modify a k f)

/-- Other entries are found as before a change. -/
theorem get_modify_of_ne {h k : Handle e} (hk : h ≠ k) (f : α → α) :
    (a.modify k f).get h = a.get h := by
  have hidx : k.idx ≠ h.idx := fun heq => hk (by cases h; cases k; exact congrArg _ heq.symm)
  rw [get, get, get?_modify_of_ne a k h f hidx]

/-- The changed entry is found changed. -/
theorem get_modify_self {k : Handle e} (hk : k ∈ a.handles) (f : α → α) :
    (a.modify k f).get k = f (a.get k) := by
  rw [get, get?_modify_self, get?_eq_some_get (mem_handles_iff.mp hk)]
  rfl

/-- A change after which the entry contributes the same. -/
theorem gather_modify_eq {k : Handle e} {f : α → α} (h : g k (f (a.get k)) = g k (a.get k)) :
    (a.modify k f).gather g = a.gather g := by
  rw [gather, handles_modify]
  refine List.flatMap_congr fun i hi => ?_
  by_cases hik : i = k
  · rw [hik] at hi ⊢
    rw [get_modify_self hi, h]
  · rw [get_modify_of_ne hik]

end Arena

/-- One list among many gets longer. -/
theorem flatMap_perm_of_longer {α β : Type} {l : List α} (hl : l.Nodup) {k : α} (hk : k ∈ l)
    {f g : α → List β} {new : List β} (hother : ∀ a ∈ l, a ≠ k → g a = f a)
    (hlonger : (g k).Perm (f k ++ new)) : (l.flatMap g).Perm (l.flatMap f ++ new) := by
  obtain ⟨l₁, l₂, rfl⟩ := List.append_of_mem hk
  have hnodup := List.nodup_append.mp hl
  have hbefore : l₁.flatMap g = l₁.flatMap f := List.flatMap_congr fun a ha =>
    hother a (by simp [ha]) (hnodup.2.2 a ha k (by simp))
  have hafter : l₂.flatMap g = l₂.flatMap f := List.flatMap_congr fun a ha =>
    hother a (by simp [ha]) fun h => (List.nodup_cons.mp hnodup.2.1).1 (h ▸ ha)
  simp only [List.flatMap_append, List.flatMap_cons, hbefore, hafter, List.append_assoc]
  refine List.Perm.append_left _ ?_
  calc g k ++ l₂.flatMap f
    _ ~ f k ++ new ++ l₂.flatMap f := hlonger.append_right _
    _ ~ f k ++ (l₂.flatMap f ++ new) := by
        rw [List.append_assoc]
        exact List.perm_append_comm.append_left _

namespace Arena

variable {e : Entity} {α β : Type} [Inhabited α] {a : Arena e α} {g : Handle e → α → List β}

/-- A change after which the entry contributes more. -/
theorem gather_modify_perm {k : Handle e} (hk : k ∈ a.handles) {f : α → α} {new : List β}
    (h : (g k (f (a.get k))).Perm (g k (a.get k) ++ new)) :
    ((a.modify k f).gather g).Perm (a.gather g ++ new) := by
  rw [gather, handles_modify]
  refine flatMap_perm_of_longer a.nodup_handles hk (fun i _ hik => by rw [get_modify_of_ne hik]) ?_
  rw [get_modify_self hk]
  exact h

end Arena

/-- Interning adds at most the value that is interned. -/
theorem Interner.mem_toList_intern {e : Entity} {α : Type} [BEq α] {t : Interner e α} {x y : α}
    (h : y ∈ (t.intern x).2.toList) : y ∈ t.toList ∨ y = x := by
  unfold intern at h
  split at h
  · exact .inl h
  · simpa [toList] using h

/-! ## Listing every entry -/

section

variable {e : Entity} {α : Type} [Inhabited α]

/-- What the modules list, each with the module that lists it. -/
def Program.listing (p : Program) (lists : Module → List (Handle e)) : List (Handle e × ModuleId) :=
  p.modules.gather fun id m => (lists m).map (·, id)

/-- The entries of a table, each with the module that it names as its own. -/
def Arena.owners (a : Arena e α) (owner : α → ModuleId) : List (Handle e × ModuleId) :=
  a.gather fun h x => [(h, owner x)]

/-- The list of owners, written with handles. -/
theorem Arena.owners_eq (a : Arena e α) (owner : α → ModuleId) :
    a.owners owner = a.handles.map fun h => (h, owner (a.get h)) :=
  List.map_eq_flatMap.symm

/-- Everything is listed once, by its owner. -/
theorem Program.listing_perm_iff {p : Program} {a : Arena e α} {lists : Module → List (Handle e)}
    {owner : α → ModuleId} : (p.listing lists).Perm (a.owners owner) ↔
      (∀ id ∈ p.modules.handles, ∀ h ∈ lists (p.moduleAt id), owner (a.get h) = id) ∧
        (p.modules.handles.flatMap fun id => lists (p.moduleAt id)).Perm a.handles := by
  rw [Arena.owners_eq]
  constructor
  · intro hperm
    constructor
    · intro id hid h hh
      have hmem : (h, id) ∈ p.listing lists :=
        List.mem_flatMap.mpr ⟨id, hid, List.mem_map.mpr ⟨h, hh, rfl⟩⟩
      obtain ⟨k, -, heq⟩ := List.mem_map.mp (hperm.mem_iff.mp hmem)
      cases heq
      rfl
    · have hfst : (p.listing lists).map Prod.fst =
          p.modules.handles.flatMap fun id => lists (p.moduleAt id) := by
        simp [listing, Arena.gather, moduleAt, List.map_flatMap, Function.comp_def]
      simpa [hfst, Function.comp_def] using hperm.map Prod.fst
  · rintro ⟨howner, hperm⟩
    have hlisting :
      p.listing lists = (p.modules.handles.flatMap fun id => lists (p.moduleAt id)).map
        fun h => (h, owner (a.get h)) := by
      rw [List.map_flatMap]
      refine List.flatMap_congr fun id hid => List.map_congr_left fun h hh => ?_
      rw [howner id hid h hh]
    rw [hlisting]
    exact hperm.map _

end

/-- Two lists get the same new elements. -/
def GrowAlike {α : Type} (l l' k k' : List α) : Prop :=
  ∃ new, l'.Perm (l ++ new) ∧ k'.Perm (k ++ new)

namespace GrowAlike

variable {α : Type} {l l' k k' : List α}

/-- Lists that stay as they are grow alike. -/
theorem of_eq (hl : l' = l) (hk : k' = k) : GrowAlike l l' k k' :=
  ⟨[], by simp [hl], by simp [hk]⟩

/-- Lists that grow alike stay permutations of each other. -/
theorem perm (h : GrowAlike l l' k k') (hlk : l.Perm k) : l'.Perm k' := by
  obtain ⟨new, hl, hk⟩ := h
  exact (hl.trans (hlk.append_right new)).trans hk.symm

end GrowAlike

/-- Details are kept if their types are. -/
theorem EndpointDetails.mapM_rename_iff {r : Renaming} {d : EndpointDetails} :
    (some d).mapM (EndpointDetails.rename r) = some (some d) ↔
    ∀ t ∈ d.types, r.onTy t = some t := by
  have htypes : d.types.mapM r.onTy = some d.types ↔ ∀ t ∈ d.types, r.onTy t = some t :=
    ⟨fun h _ ht => eq_some_of_mapM_self h ht, mapM_self_of_forall⟩
  rw [← htypes]
  cases d
  simp [EndpointDetails.rename, Option.bind_eq_some_iff]

/-! ## Additions -/

/-- Every end of a connection names a node that is there. -/
def Module.Wired (m : Module) : Prop :=
  ∀ w ∈ m.connections.toList, ∀ r ∈ [w.source, w.dest], ∀ n, r.node = some n → n.idx < m.nodes.size

namespace Program

/-- In a well-formed program connections end at nodes of their modules. -/
theorem WellFormed.wired {p : Program} (hp : p.WellFormed) {id : ModuleId}
    (hid : id ∈ p.modules.handles) : (p.moduleAt id).Wired := hp.nodes _ (Arena.get_mem_toList hid)

/-- The second program is the first one with more or other entries, where the variables `new` are
declared, and what is not an old entry mentions only what is there. -/
structure Adds (p q : Program) (new : List VariableId) : Prop where
  moduleCount : p.modules.size ≤ q.modules.size
  structCount : p.structs.size ≤ q.structs.size
  functionCount : p.functions.size ≤ q.functions.size
  variableCount : p.vars.size ≤ q.vars.size
  constants : q.constants = p.constants
  texts : q.texts = p.texts
  moduleVars : p.allModuleVars ⊆ q.allModuleVars
  declared : q.declared.Perm (p.declared ++ new)
  distinct : new.Nodup
  fresh : ∀ v ∈ new, v ∉ p.declared ∧ v.idx < q.vars.size
  modules : ∀ m ∈ q.modules.toList, m ∈ p.modules.toList ∨ m.rename q.inRange = some m ∧ m.Wired
  structs : ∀ r ∈ q.structs.toList, r ∈ p.structs.toList ∨ r.rename q.inRange = some r
  functions : ∀ f ∈ q.functions.toList, f ∈ p.functions.toList ∨ f.rename (q.scope f) = some f
  vars : ∀ v ∈ q.vars.toList, v ∈ p.vars.toList ∨ v.rename q.inRange = some v
  structLists : GrowAlike (p.listing (·.structs)) (q.listing (·.structs))
    (p.structs.owners (·.owner)) (q.structs.owners (·.owner))
  functionLists : GrowAlike (p.listing (·.functions)) (q.listing (·.functions))
    (p.functions.owners (·.owner)) (q.functions.owners (·.owner))

namespace Adds

variable {p q : Program} {new : List VariableId} (h : p.Adds q new)

include h

/-- What was there before an addition is there after it. -/
theorem includes : p.Includes q where
  modules := h.moduleCount
  structs := h.structCount
  functions := h.functionCount
  declared _ hv := h.declared.mem_iff.mpr (List.mem_append_left _ hv)
  tables := (TablesGrow.refl p).congr h.constants h.texts

/-- After an addition every function sees at least what it saw. -/
theorem scope_le (f : Function) : (p.scope f).Le (q.scope f) := by
  refine h.includes.inRange_le.within ?_ (Nat.le_refl _)
  exact fun _ hv => List.mem_append.mpr ((List.mem_append.mp hv).imp_left (h.moduleVars ·))

end Adds

/-- Additions keep programs well formed: the old parts see as much as before, and the new parts see
only what is there. -/
theorem WellFormed.adds {p q : Program} {new : List VariableId} (hp : p.WellFormed)
    (h : p.Adds q new) : q.WellFormed := by
  have hle := h.includes.inRange_le
  -- the lists of structs and of functions are judged as a whole, by the pairs of owner and entry
  have hstructs := listing_perm_iff.mp
    (h.structLists.perm (listing_perm_iff.mpr ⟨hp.structOwner, hp.structsListed⟩))
  have hfunctions := listing_perm_iff.mp
    (h.functionLists.perm (listing_perm_iff.mpr ⟨hp.functionOwner, hp.functionsListed⟩))
  refine {
    modules := fun m hm => ?_
    nodes := fun m hm => ?_
    structs := fun r hr => ?_
    functions := fun f hf => ?_
    vars := fun v hv => ?_
    structOwner := hstructs.1
    functionOwner := hfunctions.1
    structsListed := hstructs.2
    functionsListed := hfunctions.2
    declaredOnce := ?_
    declaredInRange := fun v hv => ?_ }
  · exact (h.modules m hm).elim (fun hm => hle.module (hp.modules m hm)) (·.1)
  · exact (h.modules m hm).elim (fun hm => hp.nodes m hm) (·.2)
  · exact (h.structs r hr).elim (fun hr => hle.struct (hp.structs r hr)) id
  · exact (h.functions f hf).elim (fun hf => (h.scope_le f).function (hp.functions f hf)) id
  · exact (h.vars v hv).elim (fun hv => hle.variable (hp.vars v hv)) id
  · rw [h.declared.nodup_iff, List.nodup_append]
    refine ⟨hp.declaredOnce, h.distinct, ?_⟩
    rintro v hv w hw rfl
    exact (h.fresh v hw).1 hv
  · obtain hv | hv := List.mem_append.mp (h.declared.mem_iff.mp hv)
    · exact Nat.lt_of_lt_of_le (hp.declaredInRange v hv) h.variableCount
    · exact (h.fresh v hv).2

/-- A well-formed program all of whose constants mention only what is there, also those that are not
in use. -/
structure Intact (p : Program) : Prop where
  wellFormed : p.WellFormed
  constants : ∀ v ∈ p.constants.toList, SoundValue p v

/-- Additions keep programs intact. -/
theorem Intact.adds {p q : Program} {new : List VariableId} (hp : p.Intact) (h : p.Adds q new) :
    q.Intact where
  wellFormed := hp.wellFormed.adds h
  constants v hv := by
    rw [h.constants] at hv
    exact (hp.constants v hv).mono h.structCount (h.texts ▸ List.prefix_refl _)

/-! ## Single additions -/

/-- All variables that functions declare. -/
def allFunctionVars (p : Program) : List VariableId := p.functions.gather fun _ f => f.declared

/-- What a program declares is what its modules and its functions declare. -/
theorem declared_perm (p : Program) : p.declared.Perm (p.allModuleVars ++ p.allFunctionVars) := by
  refine List.Perm.append_left _ ?_
  have hsplit : p.allFunctionVars = p.functions.handles.flatMap fun id =>
      p.signatureVars id ++ p.blockVars id := by
    simp [allFunctionVars, Arena.gather, Function.declared, signatureVars, blockVars, functionAt]
  rw [hsplit]
  exact List.flatMap_append_perm _ _ _

section

variable {p q : Program} {new : List VariableId}

/-- If only modules declare more, the program declares that much more. -/
theorem declared_perm_of_modules (hm : q.allModuleVars.Perm (p.allModuleVars ++ new))
    (hf : q.allFunctionVars = p.allFunctionVars) : q.declared.Perm (p.declared ++ new) := by
  calc q.declared
    _ ~ q.allModuleVars ++ q.allFunctionVars := q.declared_perm
    _ ~ p.allModuleVars ++ new ++ p.allFunctionVars := hf ▸ hm.append_right _
    _ ~ p.allModuleVars ++ p.allFunctionVars ++ new := by
        simp only [List.append_assoc]
        exact List.perm_append_comm.append_left _
    _ ~ p.declared ++ new := p.declared_perm.symm.append_right _

/-- If only functions declare more, the program declares that much more. -/
theorem declared_perm_of_functions (hm : q.allModuleVars = p.allModuleVars)
    (hf : q.allFunctionVars.Perm (p.allFunctionVars ++ new)) :
    q.declared.Perm (p.declared ++ new) := by
  calc q.declared
    _ ~ q.allModuleVars ++ q.allFunctionVars := q.declared_perm
    _ ~ p.allModuleVars ++ (p.allFunctionVars ++ new) := hm ▸ hf.append_left _
    _ ~ p.declared ++ new := by
        rw [← List.append_assoc]
        exact p.declared_perm.symm.append_right _

end

end Program

/-- What a changed table lists is old, or it is the changed entry. -/
theorem Arena.mem_toList_modify {e : Entity} {α : Type} [Inhabited α] {a : Arena e α} {k : Handle e}
    {f : α → α} {x : α} (hx : x ∈ (a.modify k f).toList) :
    x ∈ a.toList ∨ k ∈ a.handles ∧ x = f (a.get k) := by
  obtain ⟨h, hh⟩ := Arena.mem_toList_iff.mp hx
  have hlt := Arena.lt_size_of_get? hh
  rw [Arena.size_modify] at hlt
  have hmem := Arena.mem_handles_iff.mpr hlt
  rw [← Arena.get_eq_of_get? hh]
  by_cases hk : h = k
  · rw [hk] at hmem ⊢
    exact .inr ⟨hmem, Arena.get_modify_self hmem f⟩
  · rw [Arena.get_modify_of_ne hk]
    exact .inl (Arena.get_mem_toList hmem)

/-- The handle of a new entry is in range once the entry is there. -/
theorem Arena.next_below {e : Entity} {α : Type} (a : Arena e α) (x : α) :
    a.next.below (a.push x).size = some a.next := by
  simp [next, size, push]

/-- What a longer table lists is old, or it is the new entry. -/
theorem Arena.mem_toList_push {e : Entity} {α : Type} {a : Arena e α} {x y : α}
    (hy : y ∈ (a.push x).toList) : y ∈ a.toList ∨ y = x := by
  simpa using hy

namespace Program

section

variable {p : Program}

/-- Changing a module that is not there does nothing. -/
theorem modifyModule_of_not_mem {id : ModuleId} (hid : id ∉ p.modules.handles)
    (f : Module → Module) : p.modifyModule id f = p := by
  have hsame : p.modules.modify id f = p.modules := Arena.modify_eq_self fun m hm =>
    absurd (Arena.mem_handles_iff.mpr (Arena.lt_size_of_get? hm)) hid
  rw [modifyModule, hsame]

/-- Other variables. -/
theorem adds_vars {vs : Arena .var Variable} (hsize : p.vars.size ≤ vs.size)
    (hvs : ∀ v ∈ vs.toList, v ∈ p.vars.toList ∨ v.rename p.inRange = some v) :
    p.Adds { p with vars := vs } [] where
  moduleCount := Nat.le_refl _
  structCount := Nat.le_refl _
  functionCount := Nat.le_refl _
  variableCount := hsize
  constants := rfl
  texts := rfl
  moduleVars _ hv := hv
  declared := by
    rw [List.append_nil]
    exact .refl _
  distinct := .nil
  fresh _ hv := by cases hv
  modules _ hm := .inl hm
  structs _ hr := .inl hr
  functions _ hf := .inl hf
  vars := hvs
  structLists := .of_eq rfl rfl
  functionLists := .of_eq rfl rfl

/-! ### Constants, texts and variables -/

/-- Only constants, texts and variables were added or variables replaced, and what these mention is
there. -/
structure Collects (p q : Program) : Prop where
  rest : q = { p with vars := q.vars, constants := q.constants, texts := q.texts }
  tables : p.TablesGrow q
  constants : (∀ v ∈ p.constants.toList, SoundValue p v) → ∀ v ∈ q.constants.toList, SoundValue q v
  variableCount : p.vars.size ≤ q.vars.size
  vars : ∀ v ∈ q.vars.toList, v ∈ p.vars.toList ∨ v.rename q.inRange = some v

namespace Collects

section

variable {p q : Program} (h : p.Collects q)

include h

theorem modules : q.modules = p.modules := by rw [h.rest]

theorem structs : q.structs = p.structs := by rw [h.rest]

theorem functions : q.functions = p.functions := by rw [h.rest]

theorem functionAt (f : FunctionId) : q.functionAt f = p.functionAt f := by rw [h.rest]; rfl

theorem declared : q.declared = p.declared := by rw [h.rest]; rfl

theorem allModuleVars : q.allModuleVars = p.allModuleVars := by rw [h.rest]; rfl

theorem inRange_le : p.inRange.Le q.inRange := by
  refine Includes.inRange_le ⟨?_, ?_, ?_, ?_, h.tables⟩
  · exact Nat.le_of_eq (by rw [h.modules])
  · exact Nat.le_of_eq (by rw [h.structs])
  · exact Nat.le_of_eq (by rw [h.functions])
  · rw [h.declared]
    exact List.Subset.refl _

/-- Functions see at least what they saw before texts, constants and variables were collected. -/
theorem scope_le (f : Function) : (p.scope f).Le (q.scope f) := by
  refine h.inRange_le.within ?_ (Nat.le_refl _)
  simp [visibleTo, h.allModuleVars]

/-- Values stay sound while texts, constants and variables are collected. -/
theorem soundValue {v : Value} (hv : SoundValue p v) : SoundValue q v :=
  hv.mono (Nat.le_of_eq (by rw [h.structs])) h.tables.texts

/-- A program stays well formed while texts, constants and variables are collected. -/
theorem wellFormed (hp : p.WellFormed) : q.WellFormed := by
  have hreworked : p.Reworked { q with vars := p.vars } := by
    refine ⟨h.structs, h.functions, h.tables.congr rfl rfl, by rw [h.modules], fun id _ => ?_, rfl,
      fun v hv => .inl hv⟩
    simp only [moduleAt, h.modules]
    exact .refl _
  exact (hp.of_reworked hreworked).adds (adds_vars h.variableCount h.vars)

/-- A program stays intact while texts, constants and variables are collected. -/
theorem intact (hp : p.Intact) : q.Intact := ⟨h.wellFormed hp.wellFormed, h.constants hp.constants⟩

end

variable {p q r : Program}

theorem refl (p : Program) : p.Collects p :=
  ⟨rfl, .refl p, id, Nat.le_refl _, fun _ hv => .inl hv⟩

theorem trans (h : p.Collects q) (h' : q.Collects r) : p.Collects r where
  rest := by rw [h'.rest, h.rest]
  tables := h.tables.trans h'.tables
  constants := h'.constants ∘ h.constants
  variableCount := Nat.le_trans h.variableCount h'.variableCount
  vars v hv := (h'.vars v hv).elim
    (fun hv => (h.vars v hv).imp_right fun hv => h'.inRange_le.variable hv) .inr

instance : IsPreorder Program Collects where
  refl := refl
  trans _ _ _ := trans

/-- Interning a sound value collects. -/
theorem intern {v : Value} (hv : SoundValue p v) : p.Collects (p.intern v).2 where
  rest := rfl
  tables := ⟨Interner.prefix_intern _ _, List.prefix_refl _, id⟩
  constants hp w hw := by
    rcases Interner.mem_toList_intern hw with hw | rfl
    · exact hp w hw
    · exact hv
  variableCount := Nat.le_refl _
  vars _ hw := .inl hw

/-- Interning a text collects. -/
theorem internText (p : Program) (text : String) : p.Collects (p.internText text).2 where
  rest := rfl
  tables := ⟨List.prefix_refl _, Interner.prefix_intern _ _, fun h => Interner.nodup_intern h _⟩
  constants hp v hv := (hp v hv).mono (Nat.le_refl _) (Interner.prefix_intern _ _)
  variableCount := Nat.le_refl _
  vars _ hw := .inl hw

/-- Adding a variable whose parts are in range collects, since nothing declares it yet. -/
theorem addVariable {v : Variable} (hv : v.rename p.inRange = some v) :
    p.Collects (p.addVariable v).2 where
  rest := rfl
  tables := (TablesGrow.refl p).congr rfl rfl
  constants := id
  variableCount := by simp [Program.addVariable]
  vars w hw := (Arena.mem_toList_push hw).imp_right fun h => by
    rw [h]
    exact hv

/-- Changing a variable collects if its new parts are in range. -/
theorem modifyVariable {id : VariableId} {f : Variable → Variable}
    (hf : (f (p.variableAt id)).rename p.inRange = some (f (p.variableAt id))) :
    p.Collects (p.modifyVariable id f) where
  rest := rfl
  tables := (TablesGrow.refl p).congr rfl rfl
  constants := fun h => h
  variableCount := by simp [Program.modifyVariable]
  vars w hw := (Arena.mem_toList_modify hw).imp_right fun h => by
    rw [h.2]
    exact hf

end Collects

/-- A struct may be changed if its parts stay in range and its owner stays. -/
theorem adds_modifyStruct {id : StructId} {f : Structure → Structure}
    (howner : (f (p.structAt id)).owner = (p.structAt id).owner)
    (hf : (f (p.structAt id)).rename p.inRange = some (f (p.structAt id))) :
    p.Adds { p with structs := p.structs.modify id f } [] := by
  have hincludes : p.Includes { p with structs := p.structs.modify id f } :=
    ⟨Nat.le_refl _, by simp, Nat.le_refl _, fun _ hv => hv, (TablesGrow.refl p).congr rfl rfl⟩
  refine {
    moduleCount := Nat.le_refl _
    structCount := by simp
    functionCount := Nat.le_refl _
    variableCount := Nat.le_refl _
    constants := rfl
    texts := rfl
    moduleVars := fun _ hv => hv
    declared := by
      rw [List.append_nil]
      exact .refl _
    distinct := .nil
    fresh := fun _ hv => by cases hv
    modules := fun _ hm => .inl hm
    structs := fun r hr => (Arena.mem_toList_modify hr).imp_right fun h => ?_
    functions := fun _ hf => .inl hf
    vars := fun _ hv => .inl hv
    structLists := .of_eq rfl (Arena.gather_modify_eq ?_)
    functionLists := .of_eq rfl rfl }
  · rw [h.2]
    exact hincludes.inRange_le.struct hf
  · exact congrArg (fun owner => [(id, owner)]) howner

/-- The variables of all modules are gathered from the table of modules. -/
theorem allModuleVars_gather (p : Program) :
    p.allModuleVars = p.modules.gather fun _ m => m.parameters ++ m.state := rfl

/-- A new module declares nothing. -/
theorem adds_addModule (p : Program) (kind : ModuleKind) (name : String) :
    p.Adds (p.addModule kind name).2 [] := by
  have hvars : (p.addModule kind name).2.allModuleVars = p.allModuleVars := by
    simp [allModuleVars_gather, addModule, Arena.gather_push]
  exact {
    moduleCount := by simp [addModule]
    structCount := Nat.le_refl _
    functionCount := Nat.le_refl _
    variableCount := Nat.le_refl _
    constants := rfl
    texts := rfl
    moduleVars := fun _ hv => hvars ▸ hv
    declared := declared_perm_of_modules (by rw [hvars, List.append_nil]) rfl
    distinct := .nil
    fresh := fun _ hv => by cases hv
    modules := fun m hm => (Arena.mem_toList_push hm).imp_right fun h => by
      rw [h]
      exact ⟨rfl, fun _ hw => by cases hw⟩
    structs := fun _ hr => .inl hr
    functions := fun _ hf => .inl hf
    vars := fun _ hv => .inl hv
    structLists := .of_eq (by simp [listing, addModule, Arena.gather_push]) rfl
    functionLists := .of_eq (by simp [listing, addModule, Arena.gather_push]) rfl }

/-- A module that lists the same structs and functions and has the variables `new` in addition. -/
theorem adds_modifyModule {id : ModuleId} {f : Module → Module} {new : List VariableId}
    (hid : id ∈ p.modules.handles)
    (hstructs : (f (p.moduleAt id)).structs = (p.moduleAt id).structs)
    (hfunctions : (f (p.moduleAt id)).functions = (p.moduleAt id).functions)
      (hvars : ((f (p.moduleAt id)).parameters ++ (f (p.moduleAt id)).state).Perm
        ((p.moduleAt id).parameters ++ (p.moduleAt id).state ++ new))
    (hnew : new.Nodup) (hfresh : ∀ v ∈ new, v ∉ p.declared ∧ v.idx < p.vars.size)
    (hrename : ∀ r, p.inRange.Le r → (∀ v ∈ new, r.onVariable v = some v) →
      (f (p.moduleAt id)).rename r = some (f (p.moduleAt id)))
    (hwired : (f (p.moduleAt id)).Wired) : p.Adds (p.modifyModule id f) new := by
  have hall : (p.modifyModule id f).allModuleVars.Perm (p.allModuleVars ++ new) :=
    Arena.gather_modify_perm (g := fun _ (m : Module) => m.parameters ++ m.state) hid hvars
  have hdeclared := declared_perm_of_modules hall rfl
  have hincludes : p.Includes (p.modifyModule id f) :=
    ⟨by simp [modifyModule], Nat.le_refl _, Nat.le_refl _,
      fun _ hv => hdeclared.mem_iff.mpr (List.mem_append_left _ hv),
      (TablesGrow.refl p).congr rfl rfl⟩
  refine {
    moduleCount := hincludes.modules
    structCount := Nat.le_refl _
    functionCount := Nat.le_refl _
    variableCount := Nat.le_refl _
    constants := rfl
    texts := rfl
    moduleVars := fun _ hv => hall.mem_iff.mpr (List.mem_append_left _ hv)
    declared := hdeclared
    distinct := hnew
    fresh := hfresh
    modules := fun m hm => (Arena.mem_toList_modify hm).imp_right fun h => ?_
    structs := fun _ hr => .inl hr
    functions := fun _ hf => .inl hf
    vars := fun _ hv => .inl hv
    structLists := .of_eq (Arena.gather_modify_eq (congrArg (List.map (·, id)) hstructs)) rfl
    functionLists := .of_eq (Arena.gather_modify_eq (congrArg (List.map (·, id)) hfunctions)) rfl }
  rw [h.2]
  refine ⟨hrename _ hincludes.inRange_le fun v hv => ?_, hwired⟩
  exact Handle.among_eq_some_iff.mpr ⟨hdeclared.mem_iff.mpr (List.mem_append_right _ hv), rfl⟩

/-- A module that declares the same with other endpoints, nodes and connections. -/
theorem adds_editModule (hp : p.WellFormed) {id : ModuleId} {f : Module → Module}
    (hid : id ∈ p.modules.handles)
    (hstructs : (f (p.moduleAt id)).structs = (p.moduleAt id).structs)
    (hfunctions : (f (p.moduleAt id)).functions = (p.moduleAt id).functions)
    (hparameters : (f (p.moduleAt id)).parameters = (p.moduleAt id).parameters)
    (hstate : (f (p.moduleAt id)).state = (p.moduleAt id).state)
      (hannotations : (f (p.moduleAt id)).annotations.mapConstants p.inRange.onConstant =
        some (f (p.moduleAt id)).annotations)
    (hendpoints : ∀ e ∈ (f (p.moduleAt id)).endpoints.toList,
      e ∈ (p.moduleAt id).endpoints.toList ∨ e.rename p.inRange = some e)
    (hnodes : ∀ n ∈ (f (p.moduleAt id)).nodes.toList,
      n ∈ (p.moduleAt id).nodes.toList ∨ n.rename p.inRange = some n)
    (hwired : (f (p.moduleAt id)).Wired) : p.Adds (p.modifyModule id f) [] := by
  have hm := hp.moduleAt hid
  have hrange : (f (p.moduleAt id)).rename p.inRange = some (f (p.moduleAt id)) := by
    refine Module.rename_eq_some_iff.mpr {
      kind := rfl
      name := rfl
      annotations := hannotations
      endpoints := Arena.rename_eq_some_iff.mpr (mapM_self_of_forall fun e he => ?_)
      nodes := Arena.rename_eq_some_iff.mpr (mapM_self_of_forall fun n hn => ?_)
      connections := rfl
      structs := hstructs ▸ hm.structs
      functions := hfunctions ▸ hm.functions
      state := hstate ▸ hm.state
      parameters := hparameters ▸ hm.parameters
      span := rfl }
    · exact (hendpoints e he).elim
        (eq_some_of_mapM_self (Arena.rename_eq_some_iff.mp hm.endpoints)) fun h => h
    · exact (hnodes n hn).elim
        (eq_some_of_mapM_self (Arena.rename_eq_some_iff.mp hm.nodes)) fun h => h
  refine adds_modifyModule hid hstructs hfunctions ?_ .nil (fun _ hv => by cases hv) ?_ hwired
  · rw [hparameters, hstate, List.append_nil]
  · exact fun r hle _ => hle.module hrange

section

variable (hp : p.WellFormed) {id : ModuleId} (hid : id ∈ p.modules.handles)

include hp hid

/-- A new endpoint declares nothing. -/
theorem adds_addEndpoint {e : Endpoint} (he : e.rename p.inRange = some e) :
    p.Adds (p.modifyModule id (·.addEndpoint e)) [] := by
  refine adds_editModule hp hid rfl rfl rfl rfl (hp.moduleAt hid).annotations (fun x hx => ?_)
    (fun n hn => .inl hn) (hp.wired hid)
  refine (Arena.mem_toList_push hx).imp_right fun h => ?_
  rw [h]
  exact he

/-- A new node declares nothing. -/
theorem adds_addNode {n : Node} (hn : n.rename p.inRange = some n) :
    p.Adds (p.modifyModule id (·.addNode n)) [] := by
  refine adds_editModule hp hid rfl rfl rfl rfl (hp.moduleAt hid).annotations (fun e he => .inl he)
    (fun x hx => ?_) fun w hw r hr k hk => ?_
  · refine (Arena.mem_toList_push hx).imp_right fun h => ?_
    rw [h]
    exact hn
  · have hlt := hp.wired hid w hw r hr k hk
    simp only [Module.addNode, Arena.size_push]
    exact Nat.lt_succ_of_lt hlt

/-- A new connection is an addition if it ends at nodes that are there. -/
theorem adds_addConnection {c : Connection} (hc : ∀ r ∈ [c.source, c.dest], ∀ n, r.node = some n →
    n.idx < (p.moduleAt id).nodes.size) : p.Adds (p.modifyModule id (·.addConnection c)) [] := by
  refine adds_editModule hp hid rfl rfl rfl rfl (hp.moduleAt hid).annotations (fun e he => .inl he)
    (fun n hn => .inl hn) fun w hw => ?_
  rcases Arena.mem_toList_push hw with hw | rfl
  · exact hp.wired hid w hw
  · exact hc

end

/-- A new struct is listed by its owner and declares no variable. -/
theorem adds_addStruct (hp : p.WellFormed) {owner : ModuleId} (howner : owner ∈ p.modules.handles)
    (name : String) (span : Span) : p.Adds (p.addStruct owner name span).2 [] := by
  have hall : (p.addStruct owner name span).2.allModuleVars = p.allModuleVars :=
    Arena.gather_modify_eq (g := fun _ (m : Module) => m.parameters ++ m.state) rfl
  have hdeclared : (p.addStruct owner name span).2.declared.Perm (p.declared ++ []) :=
    declared_perm_of_modules (by rw [hall, List.append_nil]) rfl
  have hincludes : p.Includes (p.addStruct owner name span).2 :=
    ⟨by simp [addStruct, modifyModule], by simp [addStruct, modifyModule], Nat.le_refl _,
      fun _ hv => hdeclared.mem_iff.mpr (List.mem_append_left _ hv),
      (TablesGrow.refl p).congr rfl rfl⟩
  refine {
    moduleCount := hincludes.modules
    structCount := hincludes.structs
    functionCount := Nat.le_refl _
    variableCount := Nat.le_refl _
    constants := rfl
    texts := rfl
    moduleVars := fun _ hv => hall ▸ hv
    declared := hdeclared
    distinct := .nil
    fresh := fun _ hv => by cases hv
    modules := fun m hm => (Arena.mem_toList_modify hm).imp_right fun h => ?_
    structs := fun r hr => (Arena.mem_toList_push hr).imp_right fun h => ?_
    functions := fun _ hf => .inl hf
    vars := fun _ hv => .inl hv
    structLists := ⟨[(p.structs.next, owner)], Arena.gather_modify_perm howner ?_, ?_⟩
    functionLists := .of_eq (Arena.gather_modify_eq rfl) rfl }
  · rw [h.2]
    have hm := Module.rename_eq_some_iff.mp
      (hincludes.inRange_le.module (hp.modules _ (Arena.get_mem_toList howner)))
    refine ⟨Module.rename_eq_some_iff.mpr { hm with structs := mapM_concat hm.structs ?_ },
      hp.wired howner⟩
    exact Arena.next_below _ _
  · rw [h]
    refine Structure.rename_eq_some_iff.mpr ⟨rfl, ?_, rfl, rfl⟩
    simpa [inRange, addStruct, modifyModule] using Arena.mem_handles_iff.mp howner
  · simp
  · simp [Arena.owners, addStruct, modifyModule, Arena.gather_push]

/-- A function sees a variable if it is declared in the program, and by a module or by the
function. -/
theorem scope_onVariable {f : Function} {v w : VariableId} :
    (p.scope f).onVariable v = some w ↔ v ∈ p.visibleTo f ∧ v ∈ p.declared ∧ v = w := by
  simp [scope, Renaming.within, inRange]

/-- A function sees its own blocks. -/
theorem scope_onBlock {f : Function} {b c : BlockId} :
    (p.scope f).onBlock b = some c ↔ b.idx < f.blocks.size ∧ b = c := by
  simp [scope, Renaming.within]

/-- The identity on what every function body can mention. -/
def common (p : Program) : Renaming := p.inRange.within p.allModuleVars 0

/-- A new function is an addition if it declares fresh variables and mentions only what is there,
its own variables and its own blocks. -/
theorem adds_addFunction (hp : p.WellFormed) {f : Function} (howner : f.owner ∈ p.modules.handles)
    (hnew : f.declared.Nodup) (hfresh : ∀ v ∈ f.declared, v ∉ p.declared ∧ v.idx < p.vars.size)
    (hrename : ∀ r, p.common.Le r → (∀ v ∈ f.declared, r.onVariable v = some v) →
      (∀ b, b.idx < f.blocks.size → r.onBlock b = some b) → f.rename r = some f) :
    p.Adds (p.addFunction f).2 f.declared := by
  have hall : (p.addFunction f).2.allModuleVars = p.allModuleVars :=
    Arena.gather_modify_eq (g := fun _ (m : Module) => m.parameters ++ m.state) rfl
  have hdeclared : (p.addFunction f).2.declared.Perm (p.declared ++ f.declared) := by
    refine declared_perm_of_functions hall ?_
    simp [allFunctionVars, addFunction, modifyModule, Arena.gather_push]
  have hincludes : p.Includes (p.addFunction f).2 :=
    ⟨by simp [addFunction, modifyModule], Nat.le_refl _, by simp [addFunction, modifyModule],
      fun _ hv => hdeclared.mem_iff.mpr (List.mem_append_left _ hv),
      (TablesGrow.refl p).congr rfl rfl⟩
  refine {
    moduleCount := hincludes.modules
    structCount := Nat.le_refl _
    functionCount := hincludes.functions
    variableCount := Nat.le_refl _
    constants := rfl
    texts := rfl
    moduleVars := fun _ hv => hall ▸ hv
    declared := hdeclared
    distinct := hnew
    fresh := hfresh
    modules := fun m hm => (Arena.mem_toList_modify hm).imp_right fun h => ?_
    structs := fun _ hr => .inl hr
    functions := fun g hg => (Arena.mem_toList_push hg).imp_right fun h => ?_
    vars := fun _ hv => .inl hv
    structLists := .of_eq (Arena.gather_modify_eq rfl) rfl
    functionLists := ⟨[(p.functions.next, f.owner)], Arena.gather_modify_perm howner ?_, ?_⟩ }
  -- the owner lists one more function, which is the next handle
  · rw [h.2]
    have hm := Module.rename_eq_some_iff.mp
      (hincludes.inRange_le.module (hp.modules _ (Arena.get_mem_toList howner)))
    refine ⟨Module.rename_eq_some_iff.mpr { hm with functions := mapM_concat hm.functions ?_ },
      hp.wired howner⟩
    exact Arena.next_below _ _
  -- the function sees the variables of modules as before, its own, and its own blocks
  · rw [h]
    refine hrename _ (hincludes.inRange_le.within ?_ (Nat.zero_le _)) (fun v hv => ?_)
      fun b hb => ?_
    · exact fun _ hv => List.mem_append_left _ (hall ▸ hv)
    · exact scope_onVariable.mpr ⟨List.mem_append_right _ hv,
        hdeclared.mem_iff.mpr (List.mem_append_right _ hv), rfl⟩
    · exact scope_onBlock.mpr ⟨hb, rfl⟩
  · simp
  · simp [Arena.owners, addFunction, modifyModule, Arena.gather_push]

section

variable {id : FunctionId} {g : Function → Function} {new : List VariableId}
  (hid : id ∈ p.functions.handles)
  (hvars : (g (p.functionAt id)).declared.Perm ((p.functionAt id).declared ++ new))
  (hblocks : (p.functionAt id).blocks.size ≤ (g (p.functionAt id)).blocks.size)

include hid hvars

/-- A changed function declares what it declared and what is new. -/
theorem declared_modifyFunction : (p.modifyFunction id g).declared.Perm (p.declared ++ new) :=
  declared_perm_of_functions rfl
    (Arena.gather_modify_perm (g := fun _ (f : Function) => f.declared) hid hvars)

include hblocks

/-- What the function could mention it still can. -/
theorem scope_modifyFunction :
    (p.scope (p.functionAt id)).Le ((p.modifyFunction id g).scope (g (p.functionAt id))) := by
  have hdeclared := declared_modifyFunction hid hvars
  have hincludes : p.Includes (p.modifyFunction id g) :=
    ⟨Nat.le_refl _, Nat.le_refl _, by simp [modifyFunction],
      fun _ hv => hdeclared.mem_iff.mpr (List.mem_append_left _ hv),
      (TablesGrow.refl p).congr rfl rfl⟩
  refine hincludes.inRange_le.within ?_ hblocks
  intro v hv
  refine List.mem_append.mpr ((List.mem_append.mp hv).imp_right fun hv => ?_)
  exact hvars.mem_iff.mpr (List.mem_append_left _ hv)

/-- A function with the same owner that declares the variables `new` in addition. -/
theorem adds_modifyFunction
    (howner : (g (p.functionAt id)).owner = (p.functionAt id).owner) (hnew : new.Nodup)
    (hfresh : ∀ v ∈ new, v ∉ p.declared ∧ v.idx < p.vars.size)
    (hrename : ∀ r, (p.scope (p.functionAt id)).Le r → (∀ v ∈ new, r.onVariable v = some v) →
      (∀ b, b.idx < (g (p.functionAt id)).blocks.size → r.onBlock b = some b) →
      (g (p.functionAt id)).rename r = some (g (p.functionAt id))) :
    p.Adds (p.modifyFunction id g) new := by
  have hdeclared := declared_modifyFunction hid hvars
  refine {
    moduleCount := Nat.le_refl _
    structCount := Nat.le_refl _
    functionCount := by simp [modifyFunction]
    variableCount := Nat.le_refl _
    constants := rfl
    texts := rfl
    moduleVars := fun _ hv => hv
    declared := hdeclared
    distinct := hnew
    fresh := hfresh
    modules := fun _ hm => .inl hm
    structs := fun _ hr => .inl hr
    functions := fun f hf => (Arena.mem_toList_modify hf).imp_right fun h => ?_
    vars := fun _ hv => .inl hv
    structLists := .of_eq rfl rfl
    functionLists := .of_eq rfl (Arena.gather_modify_eq ?_) }
  · rw [h.2]
    refine hrename _ (scope_modifyFunction hid hvars hblocks) (fun v hv => ?_) fun b hb => ?_
    · exact scope_onVariable.mpr
        ⟨List.mem_append_right _ (hvars.mem_iff.mpr (List.mem_append_right _ hv)),
          hdeclared.mem_iff.mpr (List.mem_append_right _ hv), rfl⟩
    · exact scope_onBlock.mpr ⟨hb, rfl⟩
  · exact congrArg (fun owner => [(id, owner)]) howner

end

end

/-! ## Enlarging -/

/-- What is intact stays so, and all entries are still there. -/
structure Enlarges (p q : Program) : Prop where
  intact : p.Intact → q.Intact
  modules : p.modules.size ≤ q.modules.size
  structs : p.structs.size ≤ q.structs.size
  functions : p.functions.size ≤ q.functions.size

instance : IsPreorder Program Enlarges where
  refl _ := ⟨id, Nat.le_refl _, Nat.le_refl _, Nat.le_refl _⟩
  trans _ _ _ h h' := ⟨h'.intact ∘ h.intact, Nat.le_trans h.modules h'.modules,
    Nat.le_trans h.structs h'.structs, Nat.le_trans h.functions h'.functions⟩

/-- An addition makes a program larger. -/
theorem Adds.enlarges {p q : Program} {new : List VariableId} (h : p.Adds q new) : p.Enlarges q :=
  ⟨fun hp => hp.adds h, h.moduleCount, h.structCount, h.functionCount⟩

/-- Collecting texts, constants and variables makes a program larger. -/
theorem Collects.enlarges {p q : Program} (h : p.Collects q) : p.Enlarges q :=
  ⟨h.intact, Nat.le_of_eq (by rw [h.modules]), Nat.le_of_eq (by rw [h.structs]),
    Nat.le_of_eq (by rw [h.functions])⟩

end Program

end SignalGraph

import SignalGraph.Proofs.Program.Additions
import SignalGraph.Proofs.Program.Alike

/-!
# SignalGraph.Proofs.Program.Tidy

Programs in which everything already is as a copy would leave it: structs and functions stand in the
order in which the modules list them, no text is there twice, and every block has a label.  A copy
of a tidy program is like the program (`WellFormed.duplicate_twin`).

Most changes keep the order of what is listed (`KeepsOrder`).  Those that list more keep a program
tidy if no later module lists anything of the kind.
-/

namespace SignalGraph

/-! ## Labels -/

/-- A label that is completed is not changed again. -/
theorem blockLabel_blockLabel (name : String) : blockLabel (blockLabel name) = blockLabel name := by
  have hstart : (blockLabel name).startsWith "@" = true := by
    unfold blockLabel
    split
    · assumption
    · simp
  rw [blockLabel, if_pos hstart]

/-- A function has complete labels if each of its blocks has. -/
theorem Function.labelled_eq_self_iff {f : Function} :
    f.labelled = f ↔ ∀ b ∈ f.blocks.toList, blockLabel b.name = b.name := by
  have hblock : ∀ b : Block, b.labelled = b ↔ blockLabel b.name = b.name := fun b =>
    ⟨fun h => congrArg Block.name h, fun h => by rw [Block.labelled, h]⟩
  have hlist : f.blocks.toList.map Block.labelled = f.blocks.toList ↔
      ∀ b ∈ f.blocks.toList, blockLabel b.name = b.name := by
    conv_lhs => rhs; rw [← List.map_id f.blocks.toList]
    simp only [List.map_inj_left, id_eq, hblock]
  rw [← hlist]
  constructor
  · intro h
    have hblocks := congrArg (fun g : Function => g.blocks.toList) h
    simpa [labelled] using hblocks
  · intro h
    rw [labelled, h, Arena.ofList_toList]

/-- A renamed copy has labels. -/
theorem Function.labelled_of_rename {r : Renaming} {f f' : Function}
    (h : f.labelled.rename r = some f') : f'.labelled = f' := by
  have hagain : f.labelled.labelled = f.labelled :=
    labelled_eq_self_iff.mpr fun b hb => by
      rw [labelled, Arena.toList_ofList] at hb
      obtain ⟨b₀, -, rfl⟩ := List.mem_map.mp hb
      exact blockLabel_blockLabel b₀.name
  have hlabelled := rename_labelled h
  rw [hagain] at hlabelled
  exact Option.some.inj (hlabelled.symm.trans h)

namespace Arena

variable {e : Entity} {α β : Type} [Inhabited α] {a : Arena e α} {g : Handle e → α → List β}

/-- A change after which the last entry that contributes contributes more. -/
theorem gather_modify_last {k : Handle e} (hk : k ∈ a.handles)
    (hlast : ∀ h ∈ a.handles, k.idx < h.idx → g h (a.get h) = []) {f : α → α} {new : List β}
    (h : g k (f (a.get k)) = g k (a.get k) ++ new) :
    (a.modify k f).gather g = a.gather g ++ new := by
  obtain ⟨before, after, hsplit⟩ := List.append_of_mem hk
  have hsorted : a.handles.Pairwise fun i j => i.idx < j.idx := by
    rw [handles, List.pairwise_map]
    exact List.pairwise_lt_range
  rw [hsplit, List.pairwise_append, List.pairwise_cons] at hsorted
  have hother : ∀ i ∈ a.handles, i ≠ k → g i ((a.modify k f).get i) = g i (a.get i) :=
    fun i _ hik => by rw [get_modify_of_ne hik]
  have hbefore : (before.flatMap fun i => g i ((a.modify k f).get i)) =
      before.flatMap fun i => g i (a.get i) := by
    refine List.flatMap_congr fun i hi => hother i (by simp [hsplit, hi]) ?_
    rintro rfl
    exact Nat.lt_irrefl _ (hsorted.2.2 i hi i List.mem_cons_self)
  have hnothing : ∀ i ∈ after, g i (a.get i) = [] := fun i hi =>
    hlast i (by simp [hsplit, hi]) (hsorted.2.1.1 i hi)
  have hafter : (after.flatMap fun i => g i ((a.modify k f).get i)) =
      after.flatMap fun i => g i (a.get i) := by
    refine List.flatMap_congr fun i hi => hother i (by simp [hsplit, hi]) ?_
    rintro rfl
    exact Nat.lt_irrefl _ (hsorted.2.1.1 i hi)
  have hempty : (after.flatMap fun i => g i (a.get i)) = [] := List.flatMap_eq_nil_iff.mpr hnothing
  rw [gather, gather, handles_modify, hsplit]
  simp only [List.flatMap_append, List.flatMap_cons, hbefore, hafter, hempty, get_modify_self hk, h,
    List.append_nil, List.append_assoc]

end Arena

namespace Program

variable {p q r : Program}

/-! ## Tidy programs -/

/-- Everything is as a copy would leave it. -/
structure Tidy (p : Program) : Prop where
  ordered : p.Ordered
  texts : p.texts.toList.Nodup
  labels : ∀ f ∈ p.functions.toList, f.labelled = f

/-- The empty program is tidy. -/
theorem Tidy.empty : ({} : Program).Tidy where
  ordered := ⟨rfl, rfl⟩
  texts := List.nodup_nil
  labels _ hf := by cases hf

/-- A copy of a tidy program is like the program. -/
theorem WellFormed.duplicate_twin (h : p.WellFormed) (ht : p.Tidy) :
    ∃ q, p.duplicate = .ok q ∧ q.WellFormed ∧ Alike p.copiedVars p q := by
  obtain ⟨q, hq, hc⟩ := h.duplicate_copied
  exact ⟨q, hq, h.of_duplicate hc, h.duplicate_alike ht.ordered hc ht.texts ht.labels⟩

/-- Copies keep a program tidy. -/
theorem Tidy.copied {P : CopyPlan} {newName : Option String} (ht : P.base.Tidy)
    (hready : P.Ready P.source.program.inRange
      fun g => P.source.program.visibleTo (P.source.program.functionAt g))
    (hc : P.Copied newName q) : q.Tidy where
  ordered := ht.ordered.copied hready hc
  texts := hc.tables.distinctTexts ht.texts
  labels f hf := by
    rcases hc.functions.mem_toList hf with hf | ⟨g, -, hf⟩
    · exact ht.labels f hf
    · exact Function.labelled_of_rename hf

/-! ## Changes that keep the order -/

/-- The modules list the same structs and functions, of which there are as many as before; texts are
added only if they are new, and blocks only with labels. -/
structure KeepsOrder (p q : Program) : Prop where
  moduleCount : q.modules.size = p.modules.size
  structLists : ∀ id, (q.moduleAt id).structs = (p.moduleAt id).structs
  functionLists : ∀ id, (q.moduleAt id).functions = (p.moduleAt id).functions
  structCount : q.structs.size = p.structs.size
  functionCount : q.functions.size = p.functions.size
  texts : p.texts.toList.Nodup → q.texts.toList.Nodup
  labels : (∀ f ∈ p.functions.toList, f.labelled = f) → ∀ f ∈ q.functions.toList, f.labelled = f

namespace KeepsOrder

theorem refl (p : Program) : p.KeepsOrder p :=
  ⟨rfl, fun _ => rfl, fun _ => rfl, rfl, rfl, id, id⟩

/-- What keeps the order twice keeps it. -/
theorem trans (h : p.KeepsOrder q) (h' : q.KeepsOrder r) : p.KeepsOrder r where
  moduleCount := h'.moduleCount.trans h.moduleCount
  structLists id := (h'.structLists id).trans (h.structLists id)
  functionLists id := (h'.functionLists id).trans (h.functionLists id)
  structCount := h'.structCount.trans h.structCount
  functionCount := h'.functionCount.trans h.functionCount
  texts := h'.texts ∘ h.texts
  labels := h'.labels ∘ h.labels

/-- Changes of variables, constants and texts. -/
theorem of_eq (hmodules : q.modules = p.modules) (hstructs : q.structs = p.structs)
    (hfunctions : q.functions = p.functions)
    (htexts : p.texts.toList.Nodup → q.texts.toList.Nodup) : p.KeepsOrder q where
  moduleCount := by rw [hmodules]
  structLists id := by rw [moduleAt, hmodules, moduleAt]
  functionLists id := by rw [moduleAt, hmodules, moduleAt]
  structCount := by rw [hstructs]
  functionCount := by rw [hfunctions]
  texts := htexts
  labels h := by rwa [hfunctions]

theorem intern (p : Program) (v : Value) : p.KeepsOrder (p.intern v).2 := of_eq rfl rfl rfl id

theorem internText (p : Program) (s : String) : p.KeepsOrder (p.internText s).2 :=
  of_eq rfl rfl rfl fun h => Interner.nodup_intern h s

theorem addVariable (p : Program) (v : Variable) : p.KeepsOrder (p.addVariable v).2 :=
  of_eq rfl rfl rfl id

theorem modifyVariable (p : Program) (v : VariableId) (f : Variable → Variable) :
    p.KeepsOrder (p.modifyVariable v f) := of_eq rfl rfl rfl id

theorem modifyStruct (p : Program) (id : StructId) (f : Structure → Structure) :
    p.KeepsOrder { p with structs := p.structs.modify id f } :=
  ⟨rfl, fun _ => rfl, fun _ => rfl, Arena.size_modify _ _ _, rfl, fun h => h, fun h => h⟩

/-- A part of a module that a change does not touch. -/
theorem moduleAt_modifyModule_eq {β : Type} (part : Module → β) (p : Program) (id k : ModuleId)
    {f : Module → Module} (hf : ∀ m, part (f m) = part m) :
    part ((p.modifyModule id f).moduleAt k) = part (p.moduleAt k) := by
  simp only [Program.modifyModule, moduleAt, Arena.get, Arena.get?_modify]
  split
  · cases p.modules.get? k <;> simp [hf]
  · rfl

/-- A change of a module keeps the order if it keeps the structs and functions that the module
lists. -/
theorem modifyModule (p : Program) (id : ModuleId) {f : Module → Module}
    (hstructs : ∀ m, (f m).structs = m.structs) (hfunctions : ∀ m, (f m).functions = m.functions) :
    p.KeepsOrder (p.modifyModule id f) where
  moduleCount := Arena.size_modify _ _ _
  structLists k := moduleAt_modifyModule_eq Module.structs p id k hstructs
  functionLists k := moduleAt_modifyModule_eq Module.functions p id k hfunctions
  structCount := rfl
  functionCount := rfl
  texts h := h
  labels h := h

/-- A change of a function keeps the order if it keeps labels complete. -/
theorem modifyFunction (p : Program) (id : FunctionId) {g : Function → Function}
    (hg : ∀ f, f.labelled = f → (g f).labelled = g f) : p.KeepsOrder (p.modifyFunction id g) where
  moduleCount := rfl
  structLists _ := rfl
  functionLists _ := rfl
  structCount := rfl
  functionCount := Arena.size_modify _ _ _
  texts h := h
  labels h f hf := by
    rcases Arena.mem_toList_modify hf with hf | ⟨hid, rfl⟩
    · exact h f hf
    · exact hg _ (h _ (Arena.get_mem_toList hid))

end KeepsOrder

instance : IsPreorder Program KeepsOrder where
  refl := KeepsOrder.refl
  trans _ _ _ := KeepsOrder.trans

/-- A tidy program stays tidy while the order is kept. -/
theorem Tidy.keep (h : p.Tidy) (hq : p.KeepsOrder q) : q.Tidy where
  ordered := by
    have hhandles : q.modules.handles = p.modules.handles := Arena.handles_eq_of_size hq.moduleCount
    constructor
    · rw [hhandles, Arena.handles_eq_of_size hq.structCount, ← h.ordered.structs]
      exact List.flatMap_congr fun id _ => hq.structLists id
    · rw [hhandles, Arena.handles_eq_of_size hq.functionCount, ← h.ordered.functions]
      exact List.flatMap_congr fun id _ => hq.functionLists id
  texts := hq.texts h.texts
  labels := hq.labels h.labels

/-! ## Changes that list more -/

/-- No module from a position on lists anything of a kind. -/
def ListsNoneFrom {β : Type} (p : Program) (lists : Module → List β) (k : Nat) : Prop :=
  ∀ id ∈ p.modules.handles, k ≤ id.idx → lists (p.moduleAt id) = []

/-- If later modules list nothing, they list nothing while their lists are kept. -/
theorem ListsNoneFrom.keep {β : Type} {lists : Module → List β} {k : Nat}
    (h : p.ListsNoneFrom lists k) (hcount : q.modules.size = p.modules.size)
    (hlists : ∀ id : ModuleId, k ≤ id.idx → lists (q.moduleAt id) = lists (p.moduleAt id)) :
    q.ListsNoneFrom lists k := fun id hid hle =>
  (hlists id hle).trans (h id (Arena.mem_handles_of_le hid (Nat.le_of_eq hcount)) hle)

/-- A new module lists nothing, so it keeps a program tidy. -/
theorem Tidy.addModule (h : p.Tidy) (kind : ModuleKind) (name : String) :
    (p.addModule kind name).2.Tidy where
  ordered := {
    structs := by
      have hall := Arena.gather_push p.modules { kind, name } fun _ m => m.structs
      exact hall.trans ((List.append_nil _).trans h.ordered.structs)
    functions := by
      have hall := Arena.gather_push p.modules { kind, name } fun _ m => m.functions
      exact hall.trans ((List.append_nil _).trans h.ordered.functions) }
  texts := h.texts
  labels := h.labels

variable {m : ModuleId} (h : p.Tidy) (hm : m ∈ p.modules.handles)

include h hm

/-- A new struct keeps a program tidy if no later module lists any. -/
theorem Tidy.addStruct (hlast : p.ListsNoneFrom (·.structs) (m.idx + 1)) (name : String)
    (span : Span) : (p.addStruct m name span).2.Tidy where
  ordered := {
    structs := by
      have hall := Arena.gather_modify_last (g := fun _ (k : Module) => k.structs)
        (f := fun k => { k with structs := k.structs ++ [p.structs.next] }) hm hlast rfl
      refine hall.trans ?_
      rw [Program.addStruct, Program.modifyModule, Arena.handles_push, ← h.ordered.structs]
      rfl
    functions := by
      have hall := Arena.gather_modify_eq (g := fun _ m => m.functions) (a := p.modules) (k := m)
        (f := fun k => { k with structs := k.structs ++ [p.structs.next] }) rfl
      exact hall.trans h.ordered.functions }
  texts := h.texts
  labels := h.labels

omit hm in
/-- A new function keeps a program tidy if no later module lists any. -/
theorem Tidy.addFunction {f : Function} (hf : f.owner ∈ p.modules.handles)
    (hlast : p.ListsNoneFrom (·.functions) (f.owner.idx + 1)) (hlabels : f.labelled = f) :
    (p.addFunction f).2.Tidy where
  ordered := {
    structs := by
      have hall := Arena.gather_modify_eq (g := fun _ m => m.structs) (a := p.modules)
        (k := f.owner) (f := fun k => { k with functions := k.functions ++ [p.functions.next] }) rfl
      exact hall.trans h.ordered.structs
    functions := by
      have hall := Arena.gather_modify_last (g := fun _ (k : Module) => k.functions)
        (f := fun k => { k with functions := k.functions ++ [p.functions.next] }) hf hlast rfl
      refine hall.trans ?_
      rw [Program.addFunction, Program.modifyModule, Arena.handles_push, ← h.ordered.functions]
      rfl }
  texts := h.texts
  labels g hg := by
    have hg : g ∈ (p.functions.push f).toList := hg
    rw [Arena.toList_push, List.mem_append, List.mem_singleton] at hg
    rcases hg with hg | rfl
    · exact h.labels g hg
    · exact hlabels

end Program

end SignalGraph

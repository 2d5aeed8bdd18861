import SignalGraph.Proofs.Program.CopySteps

/-!
# SignalGraph.Proofs.Program.CopyFrame

What a copy within a program does to the modules of any program, well-formed or not: there is one
module more, with the name asked for, and the others keep their kind, name and nodes
(`specialiseModule_gains`).
-/

namespace SignalGraph

open Copy CopySource

/-! ## Outlines -/

/-- What a copy of another module leaves alone in every module. -/
def Module.outline (m : Module) : ModuleKind × String × Arena .node Node :=
  (m.kind, m.name, m.nodes)

namespace Program

def outlines (p : Program) : List (ModuleKind × String × Arena .node Node) :=
  p.modules.toList.map Module.outline

/-- There is one module more, and the outlines of the others stay. -/
def GainsModule (p : Program) (name : String) (q : Program) : Prop :=
  ∃ kind nodes, q.outlines = p.outlines ++ [(kind, name, nodes)]

/-- A change that keeps the outline of a module keeps all outlines. -/
theorem outlines_modifyModule {f : Module → Module} (hf : ∀ m, (f m).outline = m.outline)
    (p : Program) (id : ModuleId) : (p.modifyModule id f).outlines = p.outlines :=
  Arena.map_toList_modify hf p.modules id

/-- There is one outline for each module. -/
theorem length_outlines (p : Program) : p.outlines.length = p.modules.size := by
  rw [outlines, List.length_map, Arena.length_toList]

/-- Adding a module is the way to gain one. -/
theorem gainsModule_addModule (p : Program) (kind : ModuleKind) (name : String) :
    p.GainsModule name (p.addModule kind name).2 :=
  ⟨kind, ∅, by simp [outlines, addModule, Module.outline]⟩

namespace GainsModule

variable {p q : Program} {name : String} (h : p.GainsModule name q)

include h

/-- There is one module more. -/
theorem size : q.modules.size = p.modules.size + 1 := by
  obtain ⟨kind, nodes, heq⟩ := h
  rw [← length_outlines, ← length_outlines, heq, List.length_append, List.length_singleton]

/-- The name of the new module stands at the end. -/
theorem names : q.modules.toList.map (·.name) = p.modules.toList.map (·.name) ++ [name] := by
  obtain ⟨kind, nodes, heq⟩ := h
  have hnames := congrArg (List.map (·.2.1)) heq
  simp only [outlines, List.map_append, List.map_map, List.map_singleton] at hnames
  exact hnames

/-- The modules from before are still there, and their outlines stay. -/
theorem outline {id : ModuleId} (hid : id ∈ p.modules.handles) :
    id ∈ q.modules.handles ∧ (q.moduleAt id).outline = (p.moduleAt id).outline := by
  have hlt := Arena.mem_handles_iff.mp hid
  have hlt' : id.idx < q.modules.size := by
    rw [h.size]
    exact Nat.lt_succ_of_lt hlt
  obtain ⟨kind, nodes, heq⟩ := h
  have hat : ∀ r : Program, id.idx < r.modules.size →
      r.outlines[id.idx]? = some (r.moduleAt id).outline := by
    intro r hr
    rw [outlines, List.getElem?_map, ← Arena.get?_eq_getElem?, Arena.get?_eq_some_get hr]
    rfl
  refine ⟨Arena.mem_handles_iff.mpr hlt', Option.some.inj ?_⟩
  rw [← hat q hlt', ← hat p hlt, heq, List.getElem?_append_left]
  rw [length_outlines]
  exact hlt

/-- Changes within the outlines do not undo the gain. -/
theorem modify {f : Module → Module} (hf : ∀ m, (f m).outline = m.outline) (id : ModuleId) :
    p.GainsModule name (q.modifyModule id f) := by
  obtain ⟨kind, nodes, heq⟩ := h
  exact ⟨kind, nodes, (outlines_modifyModule hf q id).trans heq⟩

/-- The new module may change, but for its name. -/
theorem modify_new {f : Module → Module} (hf : ∀ m, (f m).name = m.name) :
    p.GainsModule name (q.modifyModule ⟨p.modules.size⟩ f) := by
  obtain ⟨kind, nodes, heq⟩ := h
  obtain ⟨old, last, hsplit, hold, hlast⟩ := List.map_eq_append_iff.mp heq
  obtain ⟨m, rfl, hm⟩ := List.map_eq_singleton_iff.mp hlast
  have hsize : p.modules.size = old.length := by
    rw [← length_outlines, ← hold, List.length_map]
  have hmodules : q.modules = (Arena.ofList old).push m := by
    rw [← Arena.ofList_concat, ← hsplit, Arena.ofList_toList]
  have hname : m.name = name := congrArg (·.2.1) hm
  have hnext : (Arena.ofList old : Arena .mod Module).next = ⟨p.modules.size⟩ := by
    rw [hsize]
    rfl
  refine ⟨(f m).kind, (f m).nodes, ?_⟩
  rw [outlines, modifyModule, hmodules, ← hnext, Arena.modify_push_next, Arena.toList_push,
    Arena.toList_ofList, List.map_append, hold, ← hname, ← hf m]
  rfl

end GainsModule

end Program

open Program

/-! ## Copying one module -/

variable {p : Program} {id : ModuleId} {name : String}

/-- While a module is being copied within its program. -/
structure Framed (p : Program) (id : ModuleId) (name : String) (s : CopyState) : Prop where
  copies : s.copies.modules = [(id, ⟨p.modules.size⟩)]
  gains : p.GainsModule name s.dest

/-- A look-up changes nothing. -/
theorem ensures_copyOf_true {I : CopyState → Prop} {e : Entity} {c : CopySource} {what : String}
    {view : Handle e → String} {copies : Copies → List (Handle e × Handle e)} (x : Handle e) :
    Ensures I (copyOf c what view copies x) fun _ => True := by
  unfold copyOf
  refine ensures_get.bind fun s _ => ?_
  split
  · exact ensures_pure trivial
  · split
    · exact ensures_pure trivial
    · exact ensures_fail _

/-- The rest of the destination may change as long as its modules stay. -/
theorem Framed.dest {s : CopyState} (hs : Framed p id name s) {q : Program}
    (hq : q.modules = s.dest.modules) : Framed p id name { s with dest := q } := by
  obtain ⟨kind, nodes, heq⟩ := hs.gains
  exact ⟨hs.copies, kind, nodes, (congrArg (·.toList.map Module.outline) hq).trans heq⟩

/-- Every step of copying stays within the frame. -/
theorem framed_laws (p : Program) (id : ModuleId) (name : String) :
    CopyLaws ⟨p, true⟩ [id] (Framed p id name) (fun _ => True) (· = ⟨p.modules.size⟩) where
  structOf _ := ensures_copyOf_true _
  functionOf _ := ensures_copyOf_true _
  variableOf _ := ensures_copyOf_true _
  moduleOf k := by
    unfold moduleOf copyOf
    refine ensures_get.bind fun s hs => ?_
    simp only [hs.copies]
    split
    · next new hnew =>
      refine ensures_pure fun hk => ?_
      cases List.mem_singleton.mp hk
      simpa using hnew.symm
    · next hnone =>
      refine ensures_pure fun hk => ?_
      cases List.mem_singleton.mp hk
      simp at hnone
  constantOf := ensures_constantOf (fun _ => ensures_copyOf_true _) (fun _ _ hq hs => hs.dest hq)
    fun _ => trivial
  met_const _ _ := trivial
  met_block _ := trivial
  met_mod _ := trivial
  met_own _ _ _ _ := trivial
  dest _ _ hq _ _ _ hs := hs.dest hq
  target s new f hnew hf hs := by
    subst hnew
    exact ⟨hs.copies, hs.gains.modify_new hf⟩
  listed s k structs functions hs := ⟨hs.copies, hs.gains.modify (by intro _; rfl) k⟩
  declareStruct _ _ _ _ _ owner _ _ hs := ⟨hs.copies, hs.gains.modify (by intro _; rfl) owner⟩
  functions _ _ _ _ _ _ hs := ⟨hs.copies, hs.gains⟩
  vars _ _ _ _ _ _ hs := ⟨hs.copies, hs.gains⟩
  blocks _ _ hs := ⟨hs.copies, hs.gains⟩
  nodes _ _ hs := ⟨hs.copies, hs.gains⟩

/-- Once the module is declared, the copy is framed. -/
theorem framed_declared (p : Program) (id : ModuleId) (name : String) :
    ∃ s, ([id].forM (declareModule ⟨p, true⟩ (some name))).apply { dest := p } = (.ok (), s) ∧
      Framed p id name s := by
  refine ⟨_, rfl, rfl, ?_⟩
  exact (gainsModule_addModule p _ name).modify (by intro _; rfl) p.modules.next

/-- A copy within a program is its last module and has the name asked for. -/
theorem specialiseModule_gains {q : Program} {new : ModuleId}
    (h : p.specialiseModule id name = (.ok new, q)) :
    new = ⟨p.modules.size⟩ ∧ p.GainsModule name q := by
  obtain ⟨s, hdeclare, hs⟩ := framed_declared p id name
  have hrun : (copyModules ⟨p, true⟩ (some name) [id]).apply { dest := p } =
      (copyDeclared ⟨p, true⟩ [id]).apply s := by
    rw [copyModules_eq, apply_bind, hdeclare]
  cases hend : (copyModules ⟨p, true⟩ (some name) [id]).run.run { dest := p } with
  | mk outcome s' =>
      simp only [specialiseModule, hend] at h
      cases outcome with
      | error e => cases h
      | ok news =>
          obtain ⟨hframed, -, htargets⟩ :=
            (framed_laws p id name).copyDeclared s news s' hs (hrun.symm.trans hend)
          cases htargets with
          | cons hnew _ =>
              cases h
              exact ⟨hnew, hframed.gains⟩

end SignalGraph

import SignalGraph.Proofs.Program.CopyPlan

/-!
# SignalGraph.Proofs.Program.CopiedModules

What copying modules leaves in the destination.  One lemma for each step says how far the step takes
the copy (`CopyPlan.At`); together they say that the destination ends with all listed modules, their
structs, functions and variables, renamed by `CopyPlan.naming`.
-/

namespace SignalGraph

open Copy CopySource

namespace Renaming

/-- The part of a renaming that types and constants see. -/
def data (r : Renaming) : Renaming :=
  { r with
    onModule := fun _ => none
    onFunction := fun _ => none
    onVariable := fun _ => none
    onBlock := fun _ => none }

/-- The renaming of what a function body with the given number of blocks may mention. -/
def within (r : Renaming) (visible : List VariableId) (blocks : Nat) : Renaming :=
  { r with
    onVariable := fun v => if v ∈ visible then r.onVariable v else none
    onBlock := fun b => if b.idx < blocks then some b else none }

end Renaming

/-- Data mentions structs and constants only, so covering it needs the names of structs only. -/
theorem CopySource.Covers.data {c : CopySource} {k k' : Copies} {d : Renaming}
    (h : Covers c k d) (hstructs : k'.structs = k.structs) : Covers c k' d.data where
  onModule _ _ hid := by cases hid
  onStruct id new hid := by
    rw [hstructs]
    exact h.onStruct id new hid
  onFunction _ _ hid := by cases hid
  onVariable _ _ hid := by cases hid
  onConstant id new hid := by
    have husable := h.onConstant id new hid
    unfold Usable CopySource.onTy at husable ⊢
    rw [hstructs]
    exact husable
  onBlock _ _ hid := by cases hid

/-- A block whose label starts as labels do, as that of every copy. -/
def Block.labelled (b : Block) : Block := { b with name := blockLabel b.name }

/-- A function with labels that start as labels do. -/
def Function.labelled (f : Function) : Function :=
  { f with blocks := .ofList (f.blocks.toList.map Block.labelled) }

namespace Program

/-- The variables of a module, in the order in which they are copied. -/
def moduleVars (p : Program) (id : ModuleId) : List VariableId :=
  (p.moduleAt id).parameters ++ (p.moduleAt id).state

/-- The variables that a function declares before its blocks. -/
def signatureVars (p : Program) (id : FunctionId) : List VariableId :=
  (p.functionAt id).parameters ++ (p.functionAt id).locals

/-- The parameters of a function's blocks. -/
def blockVars (p : Program) (id : FunctionId) : List VariableId :=
  (p.functionAt id).blocks.toList.flatMap (·.parameters)

end Program

namespace CopyPlan

variable {P : CopyPlan} {ms l₁ l₂ : List (ModuleId × Module)} {ss : List (StructId × Structure)}
  {fs : List (FunctionId × Function)} {vs : List VariableId} {s s' : CopyState} {d : Renaming}
  {k : Copies} {id : ModuleId} {x : Module}

/-- The data of a program is named by the names of structs. -/
theorem naming_data (hk : k.structs = P.copies.structs) (p : Program) :
    (P.source.names k p).data = (P.naming p).data := by
  have hty : P.source.onTy k = P.source.onTy P.copies := by
    funext t
    simp [CopySource.onTy, hk]
  simp [naming, names, Renaming.data, hk, hty]

/-- Once all structs are declared, their names are those of the plan. -/
theorem At.structCopies_eq (h : P.At ms ss fs vs s) (hss : ss.map (·.1) = P.structs) :
    s.copies.structs = P.copies.structs := by
  rw [h.structCopies, hss]
  rfl

/-- A planned module is renamed to its copy. -/
theorem At.gives_moduleOf (h : P.At (l₁ ++ (id, x) :: l₂) ss fs vs s) (hP : P.Distinct)
    (hms : (l₁ ++ (id, x) :: l₂).map (·.1) = P.modules) {post : ModuleId → CopyState → Prop}
    (hpost : post ⟨P.base.modules.size + l₁.length⟩ s) : Gives (P.source.moduleOf id) s post := by
  refine gives_copyOf ?_ hpost
  rw [h.moduleCopies]
  have hsplit : (l₁ ++ (id, x) :: l₂).map (·.1) = l₁.map (·.1) ++ id :: l₂.map (·.1) := by simp
  have hknown := known_assigned P.source (n := P.base.modules.size) (hms ▸ hP.modules) hsplit
  simpa using hknown

/-! ## Modules and structs -/

/-- A module of which nothing but the declaration has been copied. -/
def declared (newName : Option String) (m : Module) : Module :=
  { kind := m.kind, name := newName.getD m.name, span := m.span }

/-- Declaring a module copies its kind and its name. -/
theorem gives_declareModule (h : P.At ms ss fs vs s) (newName : Option String) (id : ModuleId) :
    Gives (P.source.declareModule newName id) s fun _ s' =>
      P.At (ms ++ [(id, declared newName (P.source.program.moduleAt id))]) ss fs vs s' := by
  unfold declareModule
  refine .bind (gives_add (.bind (gives_modifyDest (gives_modifyCopies ?_))))
  have hblank : (declared newName (P.source.program.moduleAt id)).rename (P.naming s.dest) =
      some (declared newName (P.source.program.moduleAt id)) := by
    simp [declared, Module.rename, Annotations.mapConstants]
  have hpush := h.pushModule id hblank
  simpa [Program.addModule, Program.modifyModule, Arena.modify_push_next, declared] using hpush

/-- A struct without its members. -/
def bare (r : Structure) : Structure := { r with members := [] }

/-- Declaring the structs of a module copies their names, and the copy of the module lists them. -/
theorem gives_declareStructs (h : P.At (l₁ ++ (id, x) :: l₂) ss fs vs s) (hP : P.Distinct)
    (hms : (l₁ ++ (id, x) :: l₂).map (·.1) = P.modules) {u : List StructId}
    (hss : P.structs = ss.map (·.1) ++ ((P.source.program.moduleAt id).structs ++ u))
    (howner : ∀ r ∈ (P.source.program.moduleAt id).structs,
      (P.source.program.structAt r).owner = id) (hx : x.structs = []) :
    Gives (P.source.declareStructs id) s fun _ s' =>
      P.At (l₁ ++ (id, { x with structs := (P.source.program.moduleAt id).structs }) :: l₂)
        (ss ++ (P.source.program.moduleAt id).structs.map
          fun r => (r, bare (P.source.program.structAt r))) fs vs s' := by
  unfold declareStructs
  refine .bind (h.gives_moduleOf hP hms ?_)
  -- the copy of the module lists the structs declared so far, all without members
  refine gives_forM (I := fun done _ s => P.At (l₁ ++ (id, { x with structs := done }) :: l₂)
    (ss ++ done.map fun r => (r, bare (P.source.program.structAt r))) fs vs s) ?_ ?_
  · intro done r todo hsplit s h
    have hr : (P.source.program.structAt r).owner = id := howner r (by simp [hsplit])
    have hmodules : P.modules = l₁.map (·.1) ++ id :: l₂.map (·.1) := by simpa using hms.symm
    have howner' := known_module hP hmodules
    have hstructs : P.structs = ss.map (·.1) ++ done ++ r :: (todo ++ u) := by simp [hss, hsplit]
    have hnew := known_struct hP hstructs
    refine .bind (gives_add (gives_modifyCopies ?_))
    have hbare : (bare (P.source.program.structAt r)).rename (P.naming s.dest) =
        some { name := (P.source.program.structAt r).name
               owner := ⟨P.base.modules.size + l₁.length⟩
               span := (P.source.program.structAt r).span } := by
      simp [bare, Structure.rename, hr, howner']
    have hpush := (h.pushStruct r hbare).modifyModule
      (y := { x with structs := done ++ [r] })
      (f := fun m => { m with structs := m.structs ++ [s.dest.structs.next] }) fun m hm => by
        have hm := Module.rename_eq_some_iff.mp hm
        refine Module.rename_eq_some_iff.mpr { hm with structs := mapM_concat hm.structs ?_ }
        rw [h.structs.next]
        simpa using hnew
    simpa [Program.addStruct, Program.modifyModule] using hpush
  · have hself : { x with structs := [] } = x := by rw [← hx]
    simpa [hself] using h

/-- All members of a struct are copied at once. -/
theorem gives_copyMembers {r₁ r₂ : List (StructId × Structure)} {r : StructId}
    (h : P.At ms (r₁ ++ (r, bare (P.source.program.structAt r)) :: r₂) fs vs s) (hP : P.Distinct)
    (hd : Covers P.source P.copies d)
    (hss : (r₁ ++ (r, bare (P.source.program.structAt r)) :: r₂).map (·.1) = P.structs)
    {r' : Structure} (hr : (P.source.program.structAt r).rename d = some r') :
    Gives (P.source.copyMembers r) s fun _ s' =>
      P.At ms (r₁ ++ (r, P.source.program.structAt r) :: r₂) fs vs s' := by
  have hstructs := h.structCopies_eq hss
  have hr := Structure.rename_eq_some_iff.mp hr
  unfold copyMembers
  refine .bind ((members_mirrors (hd.data hstructs) hr.members s rfl).mono ?_)
  rintro members s₁ ⟨hinterned, hmembers⟩
  have h₁ := h.interned hinterned
  have hsplit : P.structs = r₁.map (·.1) ++ r :: r₂.map (·.1) := by simpa using hss.symm
  have hknown := known_struct hP hsplit
  refine .bind (gives_copyOf (b := ⟨P.base.structs.size + r₁.length⟩) ?_ ?_)
  · rw [hinterned.copies, hstructs]
    simpa using hknown
  · refine gives_modifyDest (h₁.modifyStruct fun y hy => ?_)
    have hy := Structure.rename_eq_some_iff.mp hy
    refine Structure.rename_eq_some_iff.mpr { hy with members := ?_ }
    change List.mapM (Member.rename (P.source.names s.copies s₁.dest).data) _ = _ at hmembers
    rw [naming_data hstructs] at hmembers
    exact hmembers

/-! ## Variables -/

/-- Copying a variable adds it and notes its name. -/
theorem gives_copyVariable (h : P.At ms ss fs vs s) (hP : P.Distinct)
    (hd : Covers P.source P.copies d) (hss : ss.map (·.1) = P.structs) {v : VariableId}
    {u : List VariableId} (hvs : P.vars = vs ++ v :: u) {w : Variable}
    (hv : (P.source.program.variableAt v).rename d = some w) :
    Gives (P.source.copyVariable v) s fun new s' =>
      P.At ms ss fs (vs ++ [v]) s' ∧ (P.naming s'.dest).onVariable v = some new ∧
        s'.copies.blocks = s.copies.blocks ∧ s.dest.TablesGrow s'.dest := by
  have hstructs := h.structCopies_eq hss
  have hmirrors := variable_mirrors (hd.data hstructs) hv
  rw [copyVariable_eq]
  refine .bind ((hmirrors s rfl).mono ?_)
  rintro w s₁ ⟨hinterned, hw⟩
  have h₁ := h.interned hinterned
  have hw' : (P.source.program.variableAt v).rename (P.naming s₁.dest) = some w := by
    change Variable.rename (P.source.names s.copies s₁.dest).data _ = _ at hw
    rw [naming_data hstructs] at hw
    exact hw
  refine .bind (gives_add (.bind (gives_modifyCopies (gives_pure ?_))))
  refine ⟨h₁.pushVariable hw', ?_, ?_, hinterned.tables.congr rfl rfl⟩
  · rw [naming_onVariable, known_variable hP hvs]
    exact congrArg some h₁.vars.next.symm
  · rw [← hinterned.copies]

/-- Variables whose copies are collected in a list. -/
theorem gives_copyVariables (h : P.At ms ss fs vs s) (hP : P.Distinct)
    (hd : Covers P.source P.copies d) (hss : ss.map (·.1) = P.structs) {l u : List VariableId}
    (hvs : P.vars = vs ++ (l ++ u))
    (hl : ∀ v ∈ l, ∃ w, (P.source.program.variableAt v).rename d = some w) :
    Gives (l.mapM P.source.copyVariable) s fun news s' =>
      P.At ms ss fs (vs ++ l) s' ∧ l.mapM (P.naming s'.dest).onVariable = some news ∧
        s'.copies.blocks = s.copies.blocks ∧ s.dest.TablesGrow s'.dest := by
  refine gives_mapM (I := fun done news s' => P.At ms ss fs (vs ++ done) s' ∧
    done.mapM (P.naming s'.dest).onVariable = some news ∧
    s'.copies.blocks = s.copies.blocks ∧ s.dest.TablesGrow s'.dest) ?_ ?_
  · rintro done v todo hsplit news s₁ ⟨h₁, hnews, hblocks, hgrow⟩
    obtain ⟨w, hw⟩ := hl v (by simp [hsplit])
    refine (gives_copyVariable h₁ hP hd hss (v := v) (u := todo ++ u)
      (by simp [hvs, hsplit]) hw).mono ?_
    rintro new s₂ ⟨h₂, hnew, hblocks₂, hgrow₂⟩
    exact ⟨by simpa using h₂, mapM_concat hnews hnew, hblocks₂.trans hblocks, hgrow.trans hgrow₂⟩
  · exact ⟨by simpa using h, rfl, rfl, .refl _⟩

/-- Copying the variables of a module makes its copy list them. -/
theorem gives_copyModuleVariables (h : P.At (l₁ ++ (id, x) :: l₂) ss fs vs s) (hP : P.Distinct)
    (hd : Covers P.source P.copies d) (hms : (l₁ ++ (id, x) :: l₂).map (·.1) = P.modules)
    (hss : ss.map (·.1) = P.structs) {u : List VariableId}
    (hvs : P.vars = vs ++ ((P.source.program.moduleAt id).parameters ++
      ((P.source.program.moduleAt id).state ++ u)))
    (hvars : ∀ v ∈ P.vars, ∃ w, (P.source.program.variableAt v).rename d = some w)
    (hparameters : x.parameters = []) (hstate : x.state = []) :
    Gives (P.source.copyModuleVariables id) s fun _ s' =>
      P.At (l₁ ++ (id, { x with parameters := (P.source.program.moduleAt id).parameters
                                state := (P.source.program.moduleAt id).state }) :: l₂) ss fs
        (vs ++ ((P.source.program.moduleAt id).parameters ++
          (P.source.program.moduleAt id).state)) s' := by
  unfold copyModuleVariables
  refine .bind (h.gives_moduleOf hP hms ?_)
  -- first the parameters are listed one by one, and then the state in the same way
  refine .bind ((gives_forM (I := fun done _ s =>
    P.At (l₁ ++ (id, { x with parameters := done }) :: l₂) ss fs (vs ++ done) s) ?_ ?_).mono ?_)
  · intro done v todo hsplit s₁ h₁
    obtain ⟨w, hw⟩ := hvars v (by simp [hvs, hsplit])
    refine .bind ((gives_copyVariable h₁ hP hd hss (v := v)
      (u := todo ++ ((P.source.program.moduleAt id).state ++ u))
      (by simp [hvs, hsplit]) hw).mono ?_)
    rintro new s₂ ⟨h₂, hnew, -, -⟩
    refine gives_modifyDest ?_
    have hpush := h₂.modifyModule (y := { x with parameters := done ++ [v] })
      (f := fun m => { m with parameters := m.parameters ++ [new] }) fun m hm => by
        have hm := Module.rename_eq_some_iff.mp hm
        exact Module.rename_eq_some_iff.mpr
          { hm with parameters := mapM_concat hm.parameters hnew }
    simpa using hpush
  · have hself : { x with parameters := [] } = x := by rw [← hparameters]
    simpa [hself] using h
  · intro _ s₁ h₁
    refine (gives_forM (I := fun done _ s =>
      P.At (l₁ ++ (id, { x with parameters := (P.source.program.moduleAt id).parameters
                                state := done }) :: l₂) ss fs
        (vs ++ ((P.source.program.moduleAt id).parameters ++ done)) s) ?_ ?_)
    · intro done v todo hsplit s₁ h₁
      obtain ⟨w, hw⟩ := hvars v (by simp [hvs, hsplit])
      refine .bind ((gives_copyVariable h₁ hP hd hss (v := v) (u := todo ++ u)
        (by simp [hvs, hsplit]) hw).mono ?_)
      rintro new s₂ ⟨h₂, hnew, -, -⟩
      refine gives_modifyDest ?_
      have hpush := h₂.modifyModule
        (y := { x with parameters := (P.source.program.moduleAt id).parameters
                       state := done ++ [v] })
        (f := fun m => { m with state := m.state ++ [new] }) fun m hm => by
          have hm := Module.rename_eq_some_iff.mp hm
          exact Module.rename_eq_some_iff.mpr { hm with state := mapM_concat hm.state hnew }
      simpa using hpush
    · simpa [hstate] using h₁

/-! ## Functions -/

/-- A function without its blocks. -/
def signature (f : Function) : Function := { f with blocks := ∅ }

/-- Copying the signature of a function adds it with its variables, and the copy of its module lists
it. -/
theorem gives_copySignature (h : P.At (l₁ ++ (id, x) :: l₂) ss fs vs s) (hP : P.Distinct)
    (hd : Covers P.source P.copies d) (hms : (l₁ ++ (id, x) :: l₂).map (·.1) = P.modules)
    (hss : ss.map (·.1) = P.structs) {g : FunctionId} {t : List FunctionId}
    (hfs : P.functions = fs.map (·.1) ++ g :: t) {f : Function}
    (hf : P.source.program.functionAt g = f) (howner : f.owner = id) {u : List VariableId}
    (hvs : P.vars = vs ++ (f.parameters ++ (f.locals ++ u)))
    (hvars : ∀ v ∈ P.vars, ∃ w, (P.source.program.variableAt v).rename d = some w)
    {f' : Function} {r : Renaming} (hdata : r.data = d.data) (hf' : f.rename r = some f') :
    Gives (P.source.copySignature g) s fun _ s' =>
      P.At (l₁ ++ (id, { x with functions := x.functions ++ [g] }) :: l₂) ss
        (fs ++ [(g, signature f)]) (vs ++ (f.parameters ++ f.locals)) s' := by
  subst howner
  have hf' := Function.rename_eq_some_iff.mp hf'
  have hstructs := h.structCopies_eq hss
  have hreturns : d.data.onTy f.returns = some f'.returns := by
    rw [← hdata]
    exact hf'.returns
  have hannotations : f.annotations.mapConstants d.data.onConstant = some f'.annotations := by
    rw [← hdata]
    exact hf'.annotations
  unfold copySignature
  rw [hf]
  refine .bind (h.gives_moduleOf hP hms ?_)
  -- the steps in their order: return type, annotations, parameters, locals, then the function
  -- itself
  refine .bind ((tyOf_mirrors (hd.data hstructs) hreturns s rfl).mono ?_)
  rintro returns s₁ ⟨hinterned₁, hreturns⟩
  refine .bind
    ((annotationsOf_mirrors (hd.data hstructs) hannotations s₁ hinterned₁.copies).mono ?_)
  rintro annotations s₂ ⟨hinterned₂, hannotations⟩
  have h₂ := (h.interned hinterned₁).interned hinterned₂
  refine .bind
    ((gives_copyVariables h₂ hP hd hss hvs fun v hv => hvars v (by simp [hvs, hv])).mono ?_)
  rintro parameters s₃ ⟨h₃, hparameters, -, hgrow₃⟩
  refine .bind ((gives_copyVariables h₃ hP hd hss (l := f.locals) (u := u) (by simp [hvs])
    fun v hv => hvars v (by simp [hvs, hv])).mono ?_)
  rintro locals s₄ ⟨h₄, hlocals, -, hgrow₄⟩
  refine .bind (gives_add (gives_modifyCopies ?_))
  -- names given so far stay what they are, so the early parts are also right in the last state
  have hmodules : P.modules = l₁.map (·.1) ++ f.owner :: l₂.map (·.1) := by simpa using hms.symm
  have howner := known_module hP hmodules
  have hsignature : (signature f).rename (P.naming s₄.dest) =
      some { name := f.name, owner := ⟨P.base.modules.size + l₁.length⟩, kind := f.kind, returns
             annotations, span := f.span, parameters, locals } := by
    have hgrow := (naming_le (P := P) (hgrow₃.trans hgrow₄)).annotations
    exact Function.rename_eq_some_iff.mpr {
      name := rfl
      owner := by simpa [signature] using howner
      kind := rfl
      returns := (congrArg (·.onTy f.returns) (naming_data hstructs s₁.dest)).symm.trans hreturns
      parameters := hparameters
      locals := hlocals
      blocks := rfl
      annotations := hgrow ((congrArg (f.annotations.mapConstants ·.onConstant)
        (naming_data hstructs s₂.dest)).symm.trans hannotations)
      span := rfl }
  have hnew := known_function hP hfs
  -- the new function is listed by the copy of its module
  have hpush := (h₄.pushFunction g hsignature).modifyModule
    (y := { x with functions := x.functions ++ [g] })
    (f := fun m => { m with functions := m.functions ++ [s₄.dest.functions.next] }) fun m hm => by
      have hm := Module.rename_eq_some_iff.mp hm
      refine Module.rename_eq_some_iff.mpr { hm with functions := mapM_concat hm.functions ?_ }
      rw [h₄.functions.next]
      simpa using hnew
  simpa [Program.addFunction, Program.modifyModule] using hpush

/-! ## Endpoints, nodes and connections -/

section

variable (hP : P.Distinct) (hd : Covers P.source P.copies d) (hss : ss.map (·.1) = P.structs)

include hd hss

/-- Copying endpoints adds them one by one, by induction on their number. -/
theorem gives_copyEndpoints (h : P.At (l₁ ++ (id, x) :: l₂) ss fs vs s) (hx : x.endpoints = ∅)
    {a b : Arena .endpoint Endpoint} (ha : a.rename (Endpoint.rename d) = some b) :
    Gives (a.toList.forM (P.source.copyEndpoint ⟨P.base.modules.size + l₁.length⟩)) s fun _ s' =>
      P.At (l₁ ++ (id, { x with endpoints := a }) :: l₂) ss fs vs s' := by
  rw [Arena.rename_eq_some_iff] at ha
  refine (gives_forM (I := fun done _ s =>
    P.At (l₁ ++ (id, { x with endpoints := .ofList done }) :: l₂) ss fs vs s) ?_ ?_).mono ?_
  · intro done e todo hsplit s h
    obtain ⟨e', he⟩ := exists_of_mapM ha (a := e) (by simp [hsplit])
    have hstructs := h.structCopies_eq hss
    rw [copyEndpoint_eq]
    refine .bind ((endpoint_mirrors (hd.data hstructs) he s rfl).mono ?_)
    rintro new s₁ ⟨hinterned, hnew⟩
    refine gives_modifyDest ((h.interned hinterned).modifyModule fun m hm => ?_)
    have hm := Module.rename_eq_some_iff.mp hm
    rw [Arena.ofList_concat]
    refine Module.rename_eq_some_iff.mpr { hm with endpoints := Arena.rename_push hm.endpoints ?_ }
    exact (congrArg (e.rename ·) (naming_data hstructs s₁.dest)).symm.trans hnew
  · have hself : { x with endpoints := ∅ } = x := by rw [← hx]
    simpa [hself] using h
  · exact fun _ _ h => h

/-- Nodes keep their places. -/
theorem gives_copyNodes (h : P.At (l₁ ++ (id, x) :: l₂) ss fs vs s) (hx : x.nodes = ∅)
    (hnodes : s.copies.nodes = []) {a b : Arena .node Node}
    (ha : a.rename (Node.rename d) = some b) :
    Gives (a.entries.forM fun y => P.source.copyNode ⟨P.base.modules.size + l₁.length⟩ y.1 y.2) s
      fun _ s' => P.At (l₁ ++ (id, { x with nodes := a }) :: l₂) ss fs vs s' ∧
        s'.copies.nodes = (a.handles.map fun k => (k, k)).reverse := by
  rw [Arena.rename_eq_some_iff] at ha
  -- after each round, the nodes done so far are in the copy, and stand for themselves
  refine (gives_forM (I := fun done _ s =>
    P.At (l₁ ++ (id, { x with nodes := .ofList (done.map (·.2)) }) :: l₂) ss fs vs s ∧
      s.copies.nodes = (done.map fun y => (y.1, y.1)).reverse) ?_ ?_).mono ?_
  · rintro done ⟨k, n⟩ todo hsplit s ⟨h, hnodes⟩
    have hk := Arena.handle_of_entries_split hsplit
    obtain ⟨n', hn⟩ := exists_of_mapM ha (a := n) (by rw [← Arena.map_snd_entries, hsplit]; simp)
    have hstructs := h.structCopies_eq hss
    obtain ⟨args, hargs, -⟩ := Option.bind_eq_some_iff.mp hn
    unfold copyNode
    refine .bind ((constants_mirrors (hd.data hstructs) hargs s rfl).mono ?_)
    rintro args s₁ ⟨hinterned, hargs⟩
    have h₁ := h.interned hinterned
    obtain ⟨y, hy, hrename⟩ := h₁.modules.get?
    have hnext : (s₁.dest.moduleAt ⟨P.base.modules.size + l₁.length⟩).nodes.next = k := by
      have hsize := Arena.size_of_rename (Module.rename_eq_some_iff.mp hrename).nodes
      rw [hk, Program.moduleAt, Arena.get_eq_of_get? hy]
      simpa [Arena.size, Arena.next, Arena.ofList] using hsize
    refine .bind (gives_get (.bind (gives_modifyDest (gives_modifyCopies ⟨?_, ?_⟩))))
    · have hpush := h₁.modifyModule
        (y := { x with nodes := .ofList ((done ++ [(k, n)]).map (·.2)) })
        (f := (·.addNode { n with args })) fun m hm => by
          have hm := Module.rename_eq_some_iff.mp hm
          rw [List.map_append, List.map_cons, List.map_nil, Arena.ofList_concat]
          refine Module.rename_eq_some_iff.mpr { hm with nodes := Arena.rename_push hm.nodes ?_ }
          have hargs' : n.args.mapM (P.naming s₁.dest).onConstant = some args :=
            (congrArg (n.args.mapM ·.onConstant) (naming_data hstructs s₁.dest)).symm.trans hargs
          simp [Node.rename, hargs']
      exact { hpush with }
    · simp [hnext, hinterned.copies, hnodes]
  · have hself : { x with nodes := ∅ } = x := by rw [← hx]
    exact ⟨by simpa [hself] using h, by simpa using hnodes⟩
  · rintro _ s' ⟨h, hnodes⟩
    rw [Arena.map_snd_entries] at h
    refine ⟨h, ?_⟩
    rw [hnodes, ← Arena.map_fst_entries]
    simp [Function.comp_def]

end

/-- An end of a connection is renamed to the copy of its node. -/
theorem gives_endpointRefOf {r : EndpointRef} {post : EndpointRef → CopyState → Prop}
    (hnode : ∀ n, r.node = some n → s.copies.nodes.lookup n = some n) (h : post r s) :
    Gives (endpointRefOf r) s post := by
  unfold endpointRefOf
  split
  · exact gives_pure h
  · next n hn =>
    refine .bind (gives_get ?_)
    rw [hnode n hn]
    have hself : { r with node := some n } = r := by rw [← hn]
    refine gives_pure ?_
    rw [hself]
    exact h

/-- Connections refer to nodes, which keep their places. -/
theorem gives_copyConnections (h : P.At (l₁ ++ (id, x) :: l₂) ss fs vs s)
    (hx : x.connections = ∅) {a : Arena .wire Connection}
    (hnodes : ∀ w ∈ a.toList, ∀ r ∈ [w.source, w.dest], ∀ n, r.node = some n →
      s.copies.nodes.lookup n = some n) :
    Gives (a.toList.forM (copyConnection ⟨P.base.modules.size + l₁.length⟩)) s fun _ s' =>
      P.At (l₁ ++ (id, { x with connections := a }) :: l₂) ss fs vs s' := by
  refine (gives_forM (I := fun done _ s₁ =>
    P.At (l₁ ++ (id, { x with connections := .ofList done }) :: l₂) ss fs vs s₁ ∧
      s₁.copies.nodes = s.copies.nodes) ?_ ?_).mono ?_
  · rintro done w todo hsplit s₁ ⟨h₁, hsame⟩
    have hw := hnodes w (by simp [hsplit])
    unfold copyConnection
    refine .bind (gives_endpointRefOf (hsame ▸ hw _ (by simp)) ?_)
    refine .bind (gives_endpointRefOf (hsame ▸ hw _ (by simp)) ?_)
    refine gives_modifyDest ⟨h₁.modifyModule fun m hm => ?_, hsame⟩
    have hm := Module.rename_eq_some_iff.mp hm
    refine Module.rename_eq_some_iff.mpr { hm with connections := ?_ }
    rw [Arena.ofList_concat]
    exact congrArg (·.push w) hm.connections
  · have hself : { x with connections := ∅ } = x := by rw [← hx]
    exact ⟨by simpa [hself] using h, rfl⟩
  · exact fun _ _ h => h.1

/-! ## Bodies -/

/-- A block without its statements. -/
def header (b : Block) : Block :=
  { name := blockLabel b.name, parameters := b.parameters, span := b.span }

/-- Changing one element of a list is followed by the same change of the renamed list. -/
theorem rename_ofList_modify {e : Entity} {α : Type} {φ : α → Option α} {u : α → α}
    {before after : List α} {a a' : α} {y : Arena e α}
    (h : (Arena.ofList (before ++ a :: after)).rename φ = some y)
    (ha : ∀ z, φ a = some z → φ a' = some (u z)) :
    (Arena.ofList (before ++ a' :: after)).rename φ = some (y.modify ⟨before.length⟩ u) := by
  rw [Arena.rename_eq_some_iff, Arena.toList_ofList, mapM_eq_some_iff_forall₂] at h ⊢
  have happended : Appended (fun a b => φ a = some b) (∅ : Arena e α) (before ++ a :: after) y :=
    ⟨y.toList, rfl, h⟩
  obtain ⟨new, hnew, hall⟩ := happended.modify ha
  have hsize : (∅ : Arena e α).size + before.length = before.length := by
    simp [Arena.size, Arena.empty, EmptyCollection.emptyCollection]
  rw [hsize] at hnew
  rw [hnew]
  exact hall

section

variable {g₁ g₂ : List (FunctionId × Function)} {g : FunctionId} {f : Function}
  {rest : List VariableId}

/-- The blocks are declared first, with their parameters, so that branches find them. -/
theorem gives_copyBlocks (h : P.At ms ss (g₁ ++ (g, signature f) :: g₂) vs s) (hP : P.Distinct)
    (hd : Covers P.source P.copies d) (hss : ss.map (·.1) = P.structs)
    (hvs : P.vars = vs ++ (f.blocks.toList.flatMap (·.parameters) ++ rest))
    (hvars : ∀ v ∈ P.vars, ∃ w, (P.source.program.variableAt v).rename d = some w)
    (hblocks : s.copies.blocks = []) :
    Gives (f.blocks.entries.forM fun y =>
        P.source.copyBlock ⟨P.base.functions.size + g₁.length⟩ y.1 y.2) s fun _ s' =>
      P.At ms ss (g₁ ++ (g, { f with blocks := .ofList (f.blocks.toList.map header) }) :: g₂)
        (vs ++ f.blocks.toList.flatMap (·.parameters)) s' ∧
      s'.copies.blocks = (f.blocks.handles.map fun k => (k, k)).reverse := by
  -- after each round, the blocks done so far are declared and named after themselves
  refine (gives_forM (I := fun done _ s =>
    P.At ms ss (g₁ ++ (g, { f with blocks := .ofList ((done.map (·.2)).map header) }) :: g₂)
      (vs ++ (done.map (·.2)).flatMap (·.parameters)) s ∧
    s.copies.blocks = (done.map fun y => (y.1, y.1)).reverse) ?_ ?_).mono ?_
  · rintro done ⟨k, b⟩ todo hsplit s ⟨h, hblocks⟩
    have hk := Arena.handle_of_entries_split hsplit
    have hlist : f.blocks.toList = done.map (·.2) ++ b :: todo.map (·.2) := by
      rw [← Arena.map_snd_entries, hsplit]
      simp
    unfold copyBlock
    refine .bind ((gives_copyVariables h hP hd hss (l := b.parameters)
      (u := (todo.map (·.2)).flatMap (·.parameters) ++ rest) (by simp [hvs, hlist])
      fun v hv => hvars v (by simp [hvs, hlist, hv])).mono ?_)
    rintro parameters s₁ ⟨h₁, hparameters, hsame, -⟩
    obtain ⟨y, hy, hrename⟩ := h₁.functions.get?
    -- the next free block has the handle of the original, since as many have been added before it
    have hnext : (s₁.dest.functionAt ⟨P.base.functions.size + g₁.length⟩).blocks.next = k := by
      have hsize := Arena.size_of_rename (Function.rename_eq_some_iff.mp hrename).blocks
      rw [hk, Program.functionAt, Arena.get_eq_of_get? hy]
      simpa [Arena.size, Arena.next, Arena.ofList] using hsize
    refine .bind (gives_get (.bind (gives_modifyDest (gives_modifyCopies ⟨?_, ?_⟩))))
    · have hpush := h₁.modifyFunction
        (y := { f with blocks := .ofList (((done ++ [(k, b)]).map (·.2)).map header) })
        (f := fun f => { f with
          blocks := f.blocks.push { name := blockLabel b.name, parameters, span := b.span } })
        fun f hf => by
          have hf := Function.rename_eq_some_iff.mp hf
          simp only [List.map_append, List.map_cons, List.map_nil]
          rw [Arena.ofList_concat]
          refine Function.rename_eq_some_iff.mpr
            { hf with blocks := Arena.rename_push hf.blocks ?_ }
          have hheader : (header b).Renames (P.naming s₁.dest)
              { name := blockLabel b.name, parameters, span := b.span } := {
            name := rfl
            parameters := hparameters
            statements := rfl
            terminator := rfl
            span := rfl }
          exact Block.rename_eq_some_iff.mpr hheader
      simp only [List.map_append, List.map_cons, List.map_nil, List.flatMap_append,
        List.flatMap_cons, List.flatMap_nil, List.append_nil, ← List.append_assoc] at hpush ⊢
      exact { hpush with }
    · simp [hnext, hsame, hblocks]
  · exact ⟨by simpa [signature] using h, by simpa using hblocks⟩
  · rintro _ s' ⟨h, hblocks⟩
    rw [Arena.map_snd_entries] at h
    refine ⟨h, ?_⟩
    rw [hblocks, ← Arena.map_fst_entries]
    simp [Function.comp_def]

/-- The code of the blocks is copied once all of them are declared. -/
theorem gives_copyBlockBodies {d' : Renaming}
    (h : P.At ms ss (g₁ ++ (g, { f with blocks := .ofList (f.blocks.toList.map header) }) :: g₂) vs
      s) (hk : s.copies = k) (hd : Covers P.source k d')
    (hsquare : ∀ p, d'.Square (P.source.names k p) .identity (P.naming p))
    (hblocks : ∀ b ∈ f.blocks.handles, k.blocks.lookup b = some b)
    (hf : f.blocks.rename (Block.rename d') = some f.blocks) :
    Gives (f.blocks.entries.forM fun y =>
        P.source.copyBlockBody ⟨P.base.functions.size + g₁.length⟩ y.1 y.2) s fun _ s' =>
      P.At ms ss (g₁ ++ (g, f.labelled) :: g₂) vs s' := by
  -- after each round, the blocks done so far have their code and the others only their headers
  refine (gives_forM (I := fun done todo s =>
    P.At ms ss (g₁ ++ (g, { f with
      blocks := .ofList ((done.map (·.2)).map Block.labelled ++ (todo.map (·.2)).map header) }) ::
        g₂) vs s ∧
    s.copies = k) ?_ ?_).mono ?_
  · rintro done ⟨id, b⟩ todo hsplit s ⟨h, hk⟩
    have hid := Arena.handle_of_entries_split hsplit
    have hb : b.rename d' = some b := by
      refine eq_some_of_mapM_self (Arena.rename_eq_some_iff.mp hf) ?_
      rw [← Arena.map_snd_entries, hsplit]
      simp
    have hb := Block.rename_eq_some_iff.mp hb
    have hmirrors : Mirrors k (b.statements.mapM (·.rename P.source.renamer))
        fun p => b.statements.mapM (Statement.rename (P.source.names k p).renamer) := by
      refine Mirrors.mapM (fun s _ => stable_statement s) fun s hs => ?_
      obtain ⟨s', hs'⟩ := exists_of_mapM hb.statements hs
      exact statement_mirrors hd hs'
    unfold copyBlockBody
    refine .bind ((hmirrors s hk).mono ?_)
    rintro statements s₁ ⟨hinterned₁, hstatements⟩
    refine .bind ((terminator_mirrors hd hb.terminator s₁ (hinterned₁.copies.trans hk)).mono ?_)
    rintro terminator s₂ ⟨hinterned₂, hterminator⟩
    have hcopies : s₂.copies = k := hinterned₂.copies.trans (hinterned₁.copies.trans hk)
    have h₂ := (h.interned hinterned₁).interned hinterned₂
    refine .bind (gives_blockOf (b := id) ?_ ?_)
    · rw [hcopies]
      refine hblocks id ?_
      rw [← Arena.map_fst_entries, hsplit]
      simp
    refine gives_modifyDest ⟨?_, hcopies⟩
    -- interning while the terminator is copied changes no name in the statements
    have hstatements₂ := stable_mapM (fun s => stable_statement s) hinterned₂.tables _ hstatements
    have hpush := h₂.modifyFunction
      (y := { f with
        blocks := .ofList ((done.map (·.2)).map Block.labelled ++
          b.labelled :: (todo.map (·.2)).map header) })
      (f := fun f => { f with
        blocks := f.blocks.modify id fun b => { b with statements, terminator } })
      fun f hf => by
        have hf := Function.rename_eq_some_iff.mp hf
        refine Function.rename_eq_some_iff.mpr { hf with blocks := ?_ }
        have hlength : (⟨((done.map (·.2)).map Block.labelled).length⟩ : BlockId) = id := by
          rw [hid]
          simp
        rw [← hlength]
        refine rename_ofList_modify (a := header b) hf.blocks fun z hz => ?_
        have hz := Block.rename_eq_some_iff.mp hz
        refine Block.rename_eq_some_iff.mpr { hz with statements := ?_, terminator := ?_ }
        · exact (Statement.rename_commutes (hsquare s₂.dest)).mapM hb.statements hstatements₂
            (Statement.rename_keeps.mapM _)
        · exact Terminator.rename_commutes (hsquare s₂.dest) hb.terminator hterminator
            (Terminator.rename_keeps _)
    simpa using hpush
  · refine ⟨?_, hk⟩
    simpa [Arena.map_snd_entries] using h
  · rintro _ s' ⟨h, -⟩
    simpa [Arena.map_snd_entries, Function.labelled] using h

end

/-- Variables that have been copied already, or never will be, have their final names. -/
theorem known_of_append (c : CopySource) {e : Entity} {n : Nat} {l l₁ l₂ : List (Handle e)}
    {a : Handle e} (hl : l.Nodup) (hsplit : l = l₁ ++ l₂) (ha : a ∈ l₁ ∨ a ∉ l) :
    c.known (assigned n l₁).reverse a = c.known (assigned n l).reverse a := by
  rcases ha with ha | ha
  · obtain ⟨u, v, rfl⟩ := List.append_of_mem ha
    have hall : l = u ++ a :: (v ++ l₂) := by simp [hsplit]
    rw [known_assigned c (hsplit ▸ hl).of_append_left rfl, known_assigned c hl hall]
  · have ha₁ : a ∉ l₁ := fun h => ha (by simp [hsplit, h])
    simp [known, lookup_assigned_eq_none ha, lookup_assigned_eq_none ha₁]

/-- Blocks keep their handles. -/
theorem lookup_same {e : Entity} {l : List (Handle e)} {a : Handle e} (ha : a ∈ l) :
    (l.map fun k => (k, k)).reverse.lookup a = some a := by
  have hall : ∀ l : List (Handle e), a ∈ l → (l.map fun k => (k, k)).lookup a = some a := by
    intro l ha
    induction l with
    | nil => cases ha
    | cons b l ih =>
        by_cases hb : a = b
        · simp [hb]
        · have hne : (a == b) = false := by simpa using hb
          rw [List.map_cons, List.lookup_cons, hne]
          exact ih ((List.mem_cons.mp ha).resolve_left hb)
  rw [← List.map_reverse]
  exact hall l.reverse (List.mem_reverse.mpr ha)

section

variable {visible : List VariableId} {n : Nat}

/-- While a function is copied, the names that it needs are known: those of the plan, of its
variables and of its blocks. -/
theorem covers_within (hd : Covers P.source P.copies d) (hmodules : k.modules = P.copies.modules)
    (hstructs : k.structs = P.copies.structs) (hfunctions : k.functions = P.copies.functions)
    (hvars : ∀ v ∈ visible, P.source.known k.vars v = P.source.known P.copies.vars v)
    (hblocks : ∀ b : BlockId, b.idx < n → k.blocks.lookup b = some b) :
    Covers P.source k (d.within visible n) where
  onModule := hmodules ▸ hd.onModule
  onStruct := hstructs ▸ hd.onStruct
  onFunction := hfunctions ▸ hd.onFunction
  onVariable v new hv := by
    simp only [Renaming.within, Option.ite_none_right_eq_some] at hv
    rw [hvars v hv.1]
    exact hd.onVariable v new hv.2
  onConstant := (hd.data hstructs).onConstant
  onBlock b new hb := by
    simp only [Renaming.within, Option.ite_none_right_eq_some] at hb
    exact ⟨b, hblocks b hb.1⟩

/-- While a function is copied, the names that it gets are those of the plan. -/
theorem square_within (hid : d.Le .identity) (hmodules : k.modules = P.copies.modules)
    (hstructs : k.structs = P.copies.structs) (hfunctions : k.functions = P.copies.functions)
    (hvars : ∀ v ∈ visible, P.source.known k.vars v = P.source.known P.copies.vars v)
    (hblocks : ∀ b : BlockId, b.idx < n → k.blocks.lookup b = some b) (p : Program) :
    (d.within visible n).Square (P.source.names k p) .identity (P.naming p) where
  onModule x x' y y' hx hy hy' := by
    cases hid.onModule hx
    cases hy'
    simpa [hmodules, names] using hy
  onStruct x x' y y' hx hy hy' := by
    cases hid.onStruct hx
    cases hy'
    simpa [hstructs, names] using hy
  onFunction x x' y y' hx hy hy' := by
    cases hid.onFunction hx
    cases hy'
    simpa [hfunctions, names] using hy
  onVariable x x' y y' hx hy hy' := by
    simp only [Renaming.within, Option.ite_none_right_eq_some] at hx
    cases hid.onVariable hx.2
    cases hy'
    simpa [names, hvars x hx.1] using hy
  onConstant x x' y y' hx hy hy' := by
    cases hid.onConstant hx
    cases hy'
    exact (congrArg (·.onConstant x) (naming_data hstructs p)).symm.trans hy
  onBlock x x' y y' hx hy hy' := by
    simp only [Renaming.within, Option.ite_none_right_eq_some] at hx
    obtain ⟨hlt, rfl⟩ : x.idx < n ∧ x = x' := by simpa using hx
    cases hy'
    have hy : k.blocks.lookup x = some y := hy
    rw [hblocks x hlt] at hy
    exact hy

end

/-- Copying the body of a function completes its copy. -/
theorem gives_copyBody {g₁ g₂ : List (FunctionId × Function)} {g : FunctionId} {f : Function}
    {u : List VariableId} (visible : List VariableId)
    (h : P.At ms ss (g₁ ++ (g, signature f) :: g₂) vs s) (hP : P.Distinct)
    (hd : Covers P.source P.copies d) (hid : d.Le .identity) (hms : ms.map (·.1) = P.modules)
    (hss : ss.map (·.1) = P.structs) (hfs : P.functions = g₁.map (·.1) ++ g :: g₂.map (·.1))
    (hg : P.source.program.functionAt g = f)
    (hvs : P.vars = vs ++ (f.blocks.toList.flatMap (·.parameters) ++ u))
    (hvars : ∀ v ∈ P.vars, ∃ w, (P.source.program.variableAt v).rename d = some w)
    (hvisible : ∀ v ∈ visible, v ∈ vs ++ f.blocks.toList.flatMap (·.parameters) ∨ v ∉ P.vars)
    (hf : f.rename (d.within visible f.blocks.size) = some f) :
    Gives (P.source.copyBody g) s fun _ s' =>
      P.At ms ss (g₁ ++ (g, f.labelled) :: g₂)
        (vs ++ f.blocks.toList.flatMap (·.parameters)) s' := by
  unfold copyBody
  rw [hg]
  refine .bind (gives_copyOf (b := ⟨P.base.functions.size + g₁.length⟩) ?_ ?_)
  · have hknown := known_function hP hfs
    rw [h.functionCopies]
    simpa [hfs, CopyPlan.copies] using hknown
  refine .bind (gives_modifyCopies ?_)
  have h₀ : P.At ms ss (g₁ ++ (g, signature f) :: g₂) vs
      { s with copies := { s.copies with blocks := [] } } := { h with }
  refine .bind ((gives_copyBlocks h₀ hP hd hss hvs hvars rfl).mono ?_)
  rintro _ s₁ ⟨h₁, hblocks⟩
  have hmodules : s₁.copies.modules = P.copies.modules := by
    rw [h₁.moduleCopies, hms]
    rfl
  have hfunctions : s₁.copies.functions = P.copies.functions := by
    rw [h₁.functionCopies]
    simp [CopyPlan.copies, hfs]
  -- all variables that the function sees have their copies by now, or are kept from outside
  have hknown : ∀ v ∈ visible,
      P.source.known s₁.copies.vars v = P.source.known P.copies.vars v := by
    intro v hv
    rw [h₁.variableCopies]
    have hall : P.vars = (vs ++ f.blocks.toList.flatMap (·.parameters)) ++ u := by simp [hvs]
    exact known_of_append P.source hP.vars hall (hvisible v hv)
  have hlookup : ∀ b : BlockId, b.idx < f.blocks.size → s₁.copies.blocks.lookup b = some b := by
    intro b hb
    rw [hblocks]
    exact lookup_same (Arena.mem_handles_iff.mpr hb)
  refine gives_copyBlockBodies h₁ rfl
    (covers_within hd hmodules (h₁.structCopies_eq hss) hfunctions hknown hlookup)
    (square_within hid hmodules (h₁.structCopies_eq hss) hfunctions hknown hlookup)
    (fun b hb => hlookup b (Arena.mem_handles_iff.mp hb))
    (Function.rename_eq_some_iff.mp hf).blocks

/-! ## Whole modules -/

/-- The listed modules can be copied: nothing in them is listed twice, everything has its owner, and
all that they mention is accepted by `d`, whose handles have copies or may be kept.  A function
body mentions only variables that are visible to it. -/
structure Ready (P : CopyPlan) (d : Renaming) (visible : FunctionId → List VariableId) : Prop where
  distinct : P.Distinct
  structList : P.structs = P.modules.flatMap fun id => (P.source.program.moduleAt id).structs
  functionList : P.functions = P.modules.flatMap fun id => (P.source.program.moduleAt id).functions
  variableList : P.vars = P.modules.flatMap P.source.program.moduleVars ++
    (P.functions.flatMap P.source.program.signatureVars ++
      P.functions.flatMap P.source.program.blockVars)
  covers : Covers P.source P.copies d
  identity : d.Le .identity
  structOwner : ∀ id ∈ P.modules, ∀ r ∈ (P.source.program.moduleAt id).structs,
    (P.source.program.structAt r).owner = id
  functionOwner : ∀ id ∈ P.modules, ∀ g ∈ (P.source.program.moduleAt id).functions,
    (P.source.program.functionAt g).owner = id
  modules : ∀ id ∈ P.modules, ∃ m, (P.source.program.moduleAt id).rename d = some m
  nodes : ∀ id ∈ P.modules, ∀ w ∈ (P.source.program.moduleAt id).connections.toList,
    ∀ r ∈ [w.source, w.dest], ∀ n, r.node = some n →
      n.idx < (P.source.program.moduleAt id).nodes.size
  structs : ∀ r ∈ P.structs, ∃ r', (P.source.program.structAt r).rename d = some r'
  vars : ∀ v ∈ P.vars, ∃ w, (P.source.program.variableAt v).rename d = some w
  functions : ∀ g ∈ P.functions, (P.source.program.functionAt g).rename
    (d.within (visible g) (P.source.program.functionAt g).blocks.size) =
      some (P.source.program.functionAt g)
  visible : ∀ g ∈ P.functions, ∀ v ∈ visible g,
    v ∈ P.modules.flatMap P.source.program.moduleVars ∨ v ∈ P.source.program.signatureVars g ∨
      v ∈ P.source.program.blockVars g ∨ v ∉ P.vars

/-- A module with a new name, if one is given. -/
def retitled (newName : Option String) (m : Module) : Module :=
  { m with name := newName.getD m.name }

/-- A module whose declarations have been copied, but not its contents. -/
def outlined (newName : Option String) (m : Module) : Module :=
  { retitled newName m with annotations := {}, endpoints := ∅, nodes := ∅, connections := ∅ }

variable {newName : Option String} {visible : FunctionId → List VariableId}

/-- Copying the contents of a module completes its copy and those of its functions. -/
theorem gives_copyContents {f₁ f₂ : List (FunctionId × Function)} {u : List VariableId}
    {m : Module} (hm : P.source.program.moduleAt id = m)
    (h : P.At (l₁ ++ (id, outlined newName m) :: l₂) ss
      (f₁ ++ (m.functions.map (fun g => (g, signature (P.source.program.functionAt g))) ++ f₂)) vs
      s)
    (hready : P.Ready d visible) (hms : (l₁ ++ (id, x) :: l₂).map (·.1) = P.modules)
    (hss : ss.map (·.1) = P.structs)
    (hfs : P.functions = f₁.map (·.1) ++ (m.functions ++ f₂.map (·.1)))
    (hvs : P.vars = vs ++ (m.functions.flatMap P.source.program.blockVars ++ u))
    (hseen : ∀ v, v ∈ P.modules.flatMap P.source.program.moduleVars ∨
      (∃ g ∈ P.functions, v ∈ P.source.program.signatureVars g) → v ∈ vs) :
    Gives (P.source.copyContents id) s fun _ s' =>
      P.At (l₁ ++ (id, retitled newName m) :: l₂) ss
        (f₁ ++ (m.functions.map (fun g => (g, (P.source.program.functionAt g).labelled)) ++ f₂))
        (vs ++ m.functions.flatMap P.source.program.blockVars) s' := by
  have hmem : id ∈ P.modules := by simp [← hms]
  obtain ⟨m', hm'⟩ := hready.modules id hmem
  rw [hm] at hm'
  have hm' := Module.rename_eq_some_iff.mp hm'
  have hstructs := h.structCopies_eq hss
  unfold copyContents
  simp only [hm]
  refine .bind (h.gives_moduleOf hready.distinct (by simpa using hms) ?_)
  -- annotations
  refine .bind ((annotationsOf_mirrors (hready.covers.data hstructs) hm'.annotations s rfl).mono ?_)
  rintro annotations s₁ ⟨hinterned, hannotations⟩
  refine .bind (gives_modifyDest ?_)
  have h₁ := (h.interned hinterned).modifyModule
    (y := { outlined newName m with annotations := m.annotations })
    (f := fun m => { m with annotations }) fun y hy => by
      have hy := Module.rename_eq_some_iff.mp hy
      refine Module.rename_eq_some_iff.mpr { hy with annotations := ?_ }
      exact (congrArg (m.annotations.mapConstants ·.onConstant)
        (naming_data hstructs s₁.dest)).symm.trans hannotations
  -- endpoints, nodes and connections
  refine .bind ((gives_copyEndpoints hready.covers hss h₁ rfl hm'.endpoints).mono ?_)
  intro _ s₂ h₂
  refine .bind (gives_modifyCopies ?_)
  have h₂ : P.At _ ss _ vs { s₂ with copies := { s₂.copies with nodes := [] } } := { h₂ with }
  refine .bind ((gives_copyNodes hready.covers hss h₂ rfl rfl hm'.nodes).mono ?_)
  rintro _ s₃ ⟨h₃, hnodes⟩
  refine .bind ((gives_copyConnections h₃ rfl (a := m.connections) ?_).mono ?_)
  · intro w hw r hr n hn
    rw [hnodes]
    refine lookup_same (Arena.mem_handles_iff.mpr ?_)
    exact hm ▸ hready.nodes id hmem w (by rw [hm]; exact hw) r hr n hn
  -- bodies
  intro _ s₄ h₄
  refine (gives_forM (I := fun done todo s =>
    P.At (l₁ ++ (id, retitled newName m) :: l₂) ss
      (f₁ ++ (done.map (fun g => (g, (P.source.program.functionAt g).labelled)) ++
        (todo.map (fun g => (g, signature (P.source.program.functionAt g))) ++ f₂)))
      (vs ++ done.flatMap P.source.program.blockVars) s) ?_ ?_).mono ?_
  · intro done g todo hsplit s h
    have hg : g ∈ P.functions := by simp [hfs, hsplit]
    have h' : P.At (l₁ ++ (id, retitled newName m) :: l₂) ss
        ((f₁ ++ done.map fun g => (g, (P.source.program.functionAt g).labelled)) ++
          (g, signature (P.source.program.functionAt g)) ::
            (todo.map (fun g => (g, signature (P.source.program.functionAt g))) ++ f₂))
        (vs ++ done.flatMap P.source.program.blockVars) s := by simpa using h
    have hbody := gives_copyBody (f := P.source.program.functionAt g)
      (u := todo.flatMap P.source.program.blockVars ++ u)
        (visible g) h' hready.distinct hready.covers hready.identity (by simpa using hms) hss
      (by simp [hfs, hsplit, Function.comp_def]) rfl
      (by simp [hvs, hsplit, Program.blockVars]) hready.vars
      (by
        intro v hv
        rcases hready.visible g hg v hv with hv | hv | hv | hv
        · exact .inl (by simp [hseen v (.inl hv)])
        · exact .inl (by simp [hseen v (.inr ⟨g, hg, hv⟩)])
        · exact .inl (List.mem_append_right _ hv)
        · exact .inr hv)
      (hready.functions g hg)
    refine hbody.mono fun _ s' h' => ?_
    simpa [Program.blockVars] using h'
  · simpa [outlined, retitled] using h₄
  · intro _ s' h'
    simpa using h'

/-! ## The whole copy -/

/-- Every table is the old one followed by renamed copies of what the plan lists. -/
structure Copied (P : CopyPlan) (newName : Option String) (dest : Program) : Prop where
  modules : Appended (fun id m =>
    (retitled newName (P.source.program.moduleAt id)).rename (P.naming dest) = some m)
    P.base.modules P.modules dest.modules
  structs : Appended (fun r y => (P.source.program.structAt r).rename (P.naming dest) = some y)
    P.base.structs P.structs dest.structs
  functions : Appended
    (fun g y => (P.source.program.functionAt g).labelled.rename (P.naming dest) = some y)
    P.base.functions P.functions dest.functions
  vars : Appended (fun v y => (P.source.program.variableAt v).rename (P.naming dest) = some y)
    P.base.vars P.vars dest.vars
  tables : P.base.TablesGrow dest

/-- Visiting lists one after the other is visiting all that they hold. -/
theorem forM_flatMap {α β : Type} (f : β → Copy Unit) (g : α → List β) (l : List α) :
    (l.flatMap g).forM f = l.forM fun a => (g a).forM f := by
  induction l with
  | nil => rfl
  | cons a l ih =>
      simp only [List.forM_eq_forM, List.flatMap_cons, List.forM_append, List.forM_cons] at ih ⊢
      rw [ih]

/-- First all modules are declared. -/
theorem gives_declareModules (P : CopyPlan) (newName : Option String) :
    Gives (P.modules.forM (P.source.declareModule newName)) { dest := P.base } fun _ s =>
      P.At (P.modules.map fun id => (id, declared newName (P.source.program.moduleAt id)))
        [] [] [] s := by
  refine gives_forM (I := fun done _ s =>
    P.At (done.map fun id => (id, declared newName (P.source.program.moduleAt id))) [] []
      [] s) ?_ ?_
  · intro done id todo _ s h
    simpa using gives_declareModule h newName id
  · exact ⟨.refl, .refl, .refl, .refl, rfl, rfl, rfl, rfl, .refl P.base⟩

/-- A module after its structs have been declared. -/
def withStructs (newName : Option String) (m : Module) : Module :=
  { declared newName m with structs := m.structs }

/-- A module after its variables have been copied. -/
def withVariables (newName : Option String) (m : Module) : Module :=
  { withStructs newName m with parameters := m.parameters, state := m.state }

section

variable (hready : P.Ready d visible)

include hready

/-- Then all structs are declared. -/
theorem gives_allStructs
    (h : P.At (P.modules.map fun id => (id, declared newName (P.source.program.moduleAt id)))
      [] [] [] s) :
    Gives (P.modules.forM P.source.declareStructs) s fun _ s =>
      P.At (P.modules.map fun id => (id, withStructs newName (P.source.program.moduleAt id)))
        (P.structs.map fun r => (r, bare (P.source.program.structAt r))) [] [] s := by
  refine (gives_forM (I := fun done todo s =>
    P.At ((done.map fun id => (id, withStructs newName (P.source.program.moduleAt id))) ++
        todo.map fun id => (id, declared newName (P.source.program.moduleAt id)))
      ((done.flatMap fun id => (P.source.program.moduleAt id).structs).map
        fun r => (r, bare (P.source.program.structAt r))) [] [] s) ?_ (by simpa using h)).mono ?_
  · intro done id todo hsplit s h
    have hid : id ∈ P.modules := by simp [hsplit]
    refine Gives.mono (gives_declareStructs (by simpa using h) hready.distinct
      (by simp [hsplit, Function.comp_def])
      (u := todo.flatMap fun id => (P.source.program.moduleAt id).structs)
      (by simp [hready.structList, hsplit, Function.comp_def]) (hready.structOwner id hid) rfl)
      fun _ s' h' => ?_
    simpa [withStructs] using h'
  · intro _ s' h'
    simpa [hready.structList] using h'

/-- Then the structs get their members, whose types may be any of them. -/
theorem gives_allMembers
    (h : P.At ms (P.structs.map fun r => (r, bare (P.source.program.structAt r))) fs vs s) :
    Gives (P.modules.forM fun id =>
        (P.source.program.moduleAt id).structs.forM P.source.copyMembers) s fun _ s =>
      P.At ms (P.structs.map fun r => (r, P.source.program.structAt r)) fs vs s := by
  rw [← forM_flatMap, ← hready.structList]
  refine (gives_forM (I := fun done todo s =>
    P.At ms ((done.map fun r => (r, P.source.program.structAt r)) ++
      todo.map fun r => (r, bare (P.source.program.structAt r))) fs vs s) ?_
      (by simpa using h)).mono ?_
  · intro done r todo hsplit s h
    obtain ⟨r', hr'⟩ := hready.structs r (by simp [hsplit])
    have hstep := gives_copyMembers (by simpa using h) hready.distinct hready.covers
      (by simp [hsplit, Function.comp_def]) hr'
    refine hstep.mono fun _ s' h' => ?_
    simpa using h'
  · intro _ s' h'
    simpa using h'

/-- Then the variables of modules are copied. -/
theorem gives_allModuleVariables
    (h : P.At (P.modules.map fun id => (id, withStructs newName (P.source.program.moduleAt id)))
      ss fs [] s) (hss : ss.map (·.1) = P.structs) :
    Gives (P.modules.forM P.source.copyModuleVariables) s fun _ s =>
      P.At (P.modules.map fun id => (id, withVariables newName (P.source.program.moduleAt id)))
        ss fs (P.modules.flatMap P.source.program.moduleVars) s := by
  refine (gives_forM (I := fun done todo s =>
    P.At ((done.map fun id => (id, withVariables newName (P.source.program.moduleAt id))) ++
        todo.map fun id => (id, withStructs newName (P.source.program.moduleAt id)))
      ss fs (done.flatMap P.source.program.moduleVars) s) ?_ (by simpa using h)).mono ?_
  · intro done id todo hsplit s h
    refine Gives.mono (gives_copyModuleVariables (by simpa using h) hready.distinct
      hready.covers (by simp [hsplit, Function.comp_def]) hss
      (u := todo.flatMap P.source.program.moduleVars ++
        (P.functions.flatMap P.source.program.signatureVars ++
          P.functions.flatMap P.source.program.blockVars))
      (by simp [hready.variableList, hsplit, Program.moduleVars]) hready.vars rfl rfl)
      fun _ s' h' => ?_
    simpa [withVariables, Program.moduleVars] using h'
  · intro _ s' h'
    simpa using h'

/-- Then the signatures of functions are copied. -/
theorem gives_allSignatures
    (h : P.At (P.modules.map fun id => (id, withVariables newName (P.source.program.moduleAt id)))
      ss [] (P.modules.flatMap P.source.program.moduleVars) s)
    (hss : ss.map (·.1) = P.structs) :
    Gives (P.modules.forM fun id =>
        (P.source.program.moduleAt id).functions.forM P.source.copySignature) s fun _ s =>
      P.At (P.modules.map fun id => (id, outlined newName (P.source.program.moduleAt id))) ss
        (P.functions.map fun g => (g, signature (P.source.program.functionAt g)))
        (P.modules.flatMap P.source.program.moduleVars ++
          P.functions.flatMap P.source.program.signatureVars) s := by
  -- modules before the current one are outlined, and those after it still lack their functions
  refine (gives_forM (I := fun done todo s =>
    P.At ((done.map fun id => (id, outlined newName (P.source.program.moduleAt id))) ++
        todo.map fun id => (id, withVariables newName (P.source.program.moduleAt id))) ss
      ((done.flatMap fun id => (P.source.program.moduleAt id).functions).map
        fun g => (g, signature (P.source.program.functionAt g)))
      (P.modules.flatMap P.source.program.moduleVars ++
        (done.flatMap fun id => (P.source.program.moduleAt id).functions).flatMap
          P.source.program.signatureVars) s) ?_ (by simpa using h)).mono ?_
  · intro done id todo hsplit s h
    have hid : id ∈ P.modules := by simp [hsplit]
    -- the functions of one module
    refine (gives_forM (I := fun seen _ s =>
      P.At ((done.map fun id => (id, outlined newName (P.source.program.moduleAt id))) ++
          (id, { withVariables newName (P.source.program.moduleAt id) with functions := seen }) ::
          todo.map fun id => (id, withVariables newName (P.source.program.moduleAt id))) ss
        ((((done.flatMap fun id => (P.source.program.moduleAt id).functions) ++ seen).map
          fun g => (g, signature (P.source.program.functionAt g))))
        (P.modules.flatMap P.source.program.moduleVars ++
          ((done.flatMap fun id => (P.source.program.moduleAt id).functions) ++ seen).flatMap
            P.source.program.signatureVars) s) ?_ ?_).mono ?_
    · intro seen g left hleft s h
      have hlist :
        P.functions = (done.flatMap fun id => (P.source.program.moduleAt id).functions) ++
          (seen ++ g ::
            (left ++ todo.flatMap fun id => (P.source.program.moduleAt id).functions)) := by
        simp [hready.functionList, hsplit, hleft]
      have hg : g ∈ P.functions := by simp [hlist]
      have hstep := gives_copySignature (g := g) h hready.distinct hready.covers
        (by simp [hsplit, Function.comp_def]) hss
        (t := left ++ todo.flatMap fun id => (P.source.program.moduleAt id).functions)
        (by simp [hlist, Function.comp_def]) rfl (hready.functionOwner id hid g (by simp [hleft]))
        (u := (left ++ todo.flatMap fun id =>
          (P.source.program.moduleAt id).functions).flatMap P.source.program.signatureVars ++
          P.functions.flatMap P.source.program.blockVars)
        (by
          rw [hready.variableList, hlist]
          simp [Program.signatureVars]) hready.vars (r := d.within (visible g)
            (P.source.program.functionAt g).blocks.size) rfl (hready.functions g hg)
      refine hstep.mono fun _ s' h' => ?_
      simpa [Program.signatureVars] using h'
    · simpa [withVariables, withStructs, declared] using h
    · intro _ s' h'
      simpa [outlined, retitled, withVariables, withStructs, declared] using h'
  · intro _ s' h'
    simpa [hready.functionList] using h'

/-- At last the contents of modules are copied, the bodies of functions included. -/
theorem gives_allContents
    (h : P.At (P.modules.map fun id => (id, outlined newName (P.source.program.moduleAt id))) ss
        (P.functions.map fun g => (g, signature (P.source.program.functionAt g)))
        (P.modules.flatMap P.source.program.moduleVars ++
          P.functions.flatMap P.source.program.signatureVars) s)
    (hss : ss.map (·.1) = P.structs) :
    Gives (P.modules.forM P.source.copyContents) s fun _ s =>
      P.At (P.modules.map fun id => (id, retitled newName (P.source.program.moduleAt id))) ss
        (P.functions.map fun g => (g, (P.source.program.functionAt g).labelled)) P.vars s := by
  -- modules before the current one are complete, with all their code; those after it are outlined
  refine (gives_forM (I := fun done todo s =>
    P.At ((done.map fun id => (id, retitled newName (P.source.program.moduleAt id))) ++
        todo.map fun id => (id, outlined newName (P.source.program.moduleAt id))) ss
      (((done.flatMap fun id => (P.source.program.moduleAt id).functions).map
          fun g => (g, (P.source.program.functionAt g).labelled)) ++
        (todo.flatMap fun id => (P.source.program.moduleAt id).functions).map
          fun g => (g, signature (P.source.program.functionAt g)))
      (P.modules.flatMap P.source.program.moduleVars ++
        P.functions.flatMap P.source.program.signatureVars ++
        (done.flatMap fun id => (P.source.program.moduleAt id).functions).flatMap
          P.source.program.blockVars) s) ?_ ?_).mono ?_
  · intro done id todo hsplit s h
    -- the functions split in the same way as the modules, which is where the handles come from
    have hlist : P.functions = (done.flatMap fun id => (P.source.program.moduleAt id).functions) ++
        ((P.source.program.moduleAt id).functions ++
          todo.flatMap fun id => (P.source.program.moduleAt id).functions) := by
      simp [hready.functionList, hsplit]
    refine Gives.mono (gives_copyContents (x := outlined newName (P.source.program.moduleAt id)) rfl
      (by simpa using h) hready (by simp [hsplit, Function.comp_def]) hss
      (by simp [hlist, Function.comp_def])
      (u := (todo.flatMap fun id => (P.source.program.moduleAt id).functions).flatMap
        P.source.program.blockVars)
      (by
        rw [hready.variableList]
        simp [hlist])
      (by
        rintro v (hv | ⟨g, hg, hv⟩)
        · exact List.mem_append_left _ hv
        · exact List.mem_append_right _
            (List.mem_append_left _ (List.mem_flatMap.mpr ⟨g, hg, hv⟩))))
      fun _ s' h' => ?_
    simpa using h'
  · simpa [← hready.functionList] using h
  · intro _ s' h'
    rw [hready.variableList, hready.functionList]
    rw [hready.functionList] at h'
    simpa using h'

omit hready in
/-- When all copies are complete, the destination is a copy according to the plan. -/
theorem At.copied
    (h : P.At (P.modules.map fun id => (id, retitled newName (P.source.program.moduleAt id)))
      (P.structs.map fun r => (r, P.source.program.structAt r))
      (P.functions.map fun g => (g, (P.source.program.functionAt g).labelled)) P.vars s) :
    P.Copied newName s.dest where
  modules := Appended.of_map h.modules
  structs := Appended.of_map h.structs
  functions := Appended.of_map h.functions
  vars := h.vars
  tables := h.tables

/-- The destination ends with all listed modules and what belongs to them, and the answers are the
new handles of the modules. -/
theorem gives_copyModules (newName : Option String) :
    Gives (P.source.copyModules newName P.modules) { dest := P.base } fun new s =>
      P.Copied newName s.dest ∧
      P.modules.mapM (P.source.known P.copies.modules) = some new := by
  have hss : ∀ f : StructId → Structure, (P.structs.map fun r => (r, f r)).map (·.1) = P.structs :=
    fun f => by simp [Function.comp_def]
  unfold copyModules
  refine .bind ((gives_declareModules P newName).mono fun _ _ h => ?_)
  refine .bind ((gives_allStructs hready h).mono fun _ _ h => ?_)
  refine .bind ((gives_allMembers hready h).mono fun _ _ h => ?_)
  refine .bind ((gives_allModuleVariables hready h (hss _)).mono fun _ _ h => ?_)
  refine .bind ((gives_allSignatures hready h (hss _)).mono fun _ _ h => ?_)
  refine .bind ((gives_allContents hready h (hss _)).mono fun _ s h => ?_)
  refine (gives_mapM (I := fun done new s' => s' = s ∧
    done.mapM (P.source.known P.copies.modules) = some new) ?_ ⟨rfl, rfl⟩).mono ?_
  · rintro done id todo hsplit new s' ⟨rfl, hnew⟩
    refine gives_copyOf (b := ⟨P.base.modules.size + done.length⟩) ?_ ⟨rfl, mapM_concat hnew ?_⟩
    · rw [h.moduleCopies]
      simpa [Function.comp_def] using known_assigned P.source (n := P.base.modules.size)
        hready.distinct.modules hsplit
    · exact known_module hready.distinct hsplit
  · rintro new s' ⟨rfl, hnew⟩
    exact ⟨h.copied, hnew⟩

end

end CopyPlan

end SignalGraph

import SignalGraph.Proofs.Heart.Reading

/-!
# SignalGraph.Proofs.Heart.Declaring

The items of a module leave an intact program intact (`builds_item`).  Items add what they declare
to the tables and to the module; they never remove an entry.
-/

namespace SignalGraph.Heart.Parser

variable {α β : Type}

/-- Where the parser succeeds, an intact program has stayed intact and has all its entries, and
`post` holds. -/
abbrev Builds (x : Parser α) (p : Program) (post : Program → α → Prop) : Prop :=
  Along Program.Enlarges x p post

/-- What is read is put in place by what follows. -/
theorem Reads.build {x : Parser α} {f : α → Parser β} {p : Program} {mid : Program → α → Prop}
    {post : Program → β → Prop} (hx : Reads x p mid)
    (hf : ∀ a q, p.Collects q → mid q a → Builds (f a) q post) : Builds (x >>= f) p post :=
  Along.bind_of_imp hx (fun _ hq => hq.enlarges) hf

/-! ## Structs -/

section

variable {p : Program} {m : ModuleId}

/-- A member that is accepted is added to the end of its struct. -/
theorem addMember_eq_ok {id : StructId} {name : String} {t : Ty} {span : Span} {q : Program}
    (h : p.addMember id name t span = .ok q) :
    q = { p with structs := p.structs.modify id fun s =>
      { s with members := s.members ++ [⟨name, t⟩] } } := by
  unfold Program.addMember at h
  extract_lets structs at h
  split at h
  · cases h
  · cases h
    rfl

/-- A new member of a type in range is an addition. -/
theorem adds_addMember (hp : p.WellFormed) {id : StructId} (hid : id ∈ p.structs.handles)
    {name : String} {t : Ty} (ht : p.inRange.onTy t = some t) :
    p.Adds { p with structs := p.structs.modify id fun s =>
      { s with members := s.members ++ [⟨name, t⟩] } } [] := by
  have hs := Structure.rename_eq_some_iff.mp (hp.structs _ (Arena.get_mem_toList hid))
  refine Program.adds_modifyStruct rfl (Structure.rename_eq_some_iff.mpr
    { hs with members := mapM_concat hs.members ?_ })
  simp [Member.rename, ht]

/-- Reading a struct keeps the program intact: the struct first, then its members one by one. -/
theorem builds_structItem (hp : p.Intact) (hm : m ∈ p.modules.handles) :
    Builds (structItem m) p fun _ _ => True := by
  unfold structItem
  refine along_then fun _ => along_then fun t => along_then fun name => along_program ?_
  split
  · exact along_fail _ _
  · rename_i id hid
    have hid := hp.wellFormed.struct_inRange hm (List.mem_of_find?_eq_some hid)
    refine along_then fun _ => along_untilClosed fun q hq => ?_
    have hintact := hq.intact hp
    refine along_then fun first => (reads_type hintact.wellFormed).build fun t r hr ht => ?_
    have hintact := hr.intact hintact
    refine along_then fun name => along_then fun _ => along_program <| along_then fun span => ?_
    refine along_lift fun s hs => along_modifyProgram ?_ trivial
    rw [addMember_eq_ok hs]
    refine (adds_addMember hintact.wellFormed (Arena.mem_handles_iff.mpr ?_) ht).enlarges
    rw [hr.structs]
    exact Nat.lt_of_lt_of_le (Arena.mem_handles_iff.mp hid) hq.structs

/-! ## Endpoints -/

instance : Still optionalIndex := by unfold optionalIndex; infer_instance

instance : Still endpointPath := by
  have hgo : ∀ n, Still (endpointPath.go n) := by
    intro n
    induction n with
    | zero => unfold endpointPath.go; infer_instance
    | succ n ih => unfold endpointPath.go; infer_instance
  unfold endpointPath
  infer_instance

/-- The types of an endpoint are read in range. -/
theorem reads_endpointDetails (hp : p.WellFormed) :
    Reads endpointDetails p fun q d => ∀ t ∈ d.types, q.inRange.onTy t = some t := by
  unfold endpointDetails
  refine along_then fun size => along_then fun t => ?_
  split
  · exact along_expected _
  · refine along_then fun _ => ?_
    extract_lets jp
    have hjp : ∀ q types, (∀ t ∈ types, q.inRange.onTy t = some t) →
        Reads (jp types) q fun q d => ∀ t ∈ d.types, q.inRange.onTy t = some t :=
      fun q types htypes => along_pure htypes
    clear_value jp
    refine along_then fun several => along_ite ?_ ?_
    · have hlist : Reads (commaList .rightParen type) p
          fun q types => ∀ t ∈ types, q.inRange.onTy t = some t :=
        along_commaList (fun _ _ _ h ht => Ty.mapStructs_extends h.inRange_le.onStruct ht)
          fun q hq => reads_type (hq.wellFormed hp)
      exact hlist.bind fun types q _ htypes => hjp q types htypes
    · exact (reads_type hp).bind fun t q _ ht => hjp q [t] (by simpa using ht)

/-- Reading an endpoint keeps the program intact. -/
theorem builds_endpointItem (hp : p.Intact) (hm : m ∈ p.modules.handles) :
    Builds (endpointItem m) p fun _ _ => True := by
  unfold endpointItem
  refine along_then fun first => ?_
  extract_lets jp
  -- what is left once the direction is known, and then once the path or the details are
  have hjp : ∀ direction, Builds (jp direction) p fun _ _ => True := by
    intro direction
    unfold jp
    refine along_then fun name => ?_
    extract_lets jp'
    have hjp' : ∀ q x, p.Collects q → (∀ d ∈ x.1, ∀ t ∈ d.types, q.inRange.onTy t = some t) →
        Builds (jp' x) q fun _ _ => True := by
      intro q x hq hdetails
      unfold jp'
      have hwf := hq.wellFormed hp.wellFormed
      refine along_then fun exposed => (reads_annotations hwf).build fun a r hr ha => ?_
      refine along_then fun _ => along_then fun span => along_modifyProgram ?_ trivial
      have hm : m ∈ r.modules.handles := by rwa [hr.modules, hq.modules]
      refine (Program.adds_addEndpoint (hr.wellFormed hwf) hm ?_).enlarges
      refine Endpoint.rename_eq_some_iff.mpr ⟨rfl, rfl, ?_, ha, rfl, rfl, rfl⟩
      obtain ⟨details, path⟩ := x
      cases details with
      | none => rfl
      | some d =>
          refine EndpointDetails.mapM_rename_iff.mpr fun t ht => ?_
          exact Ty.mapStructs_extends hr.inRange_le.onStruct (hdetails d rfl t ht)
    clear_value jp'
    refine along_then fun path => along_ite (along_then fun path => ?_) ?_
    · exact hjp' p _ (.refl p) (by simp)
    · exact (reads_endpointDetails hp.wellFormed).build fun d q hq hd =>
        hjp' q _ hq (by simpa using hd)
  clear_value jp
  refine along_then fun input => along_ite ?_ ?_
  · exact hjp _
  · exact along_then fun _ => hjp _

/-! ## Variables -/

/-- A new variable that a module declares. -/
theorem enlarges_addVariable (hp : p.Intact) (hm : m ∈ p.modules.handles) {v : Variable}
    (hv : v.rename p.inRange = some v) {parameters state : Module → List VariableId}
    (hperm : ∀ k, (parameters k ++ state k).Perm (k.parameters ++ k.state ++ [p.vars.next])) :
    p.Enlarges ((p.addVariable v).2.modifyModule m fun k =>
      { k with parameters := parameters k, state := state k }) := by
  have hadded := Program.Collects.addVariable hv
  have hwf := hadded.wellFormed hp.wellFormed
  have hfresh : p.vars.next ∉ (p.addVariable v).2.declared := fun hmem =>
    Nat.lt_irrefl _ (hp.wellFormed.declaredInRange _ hmem)
  suffices hadds : (p.addVariable v).2.Adds ((p.addVariable v).2.modifyModule m fun k =>
      { k with parameters := parameters k, state := state k }) [p.vars.next] from
    IsTrans.trans _ _ _ hadded.enlarges hadds.enlarges
  refine Program.adds_modifyModule hm rfl rfl (hperm _) (List.nodup_singleton _) ?_ ?_
    (hwf.wired hm)
  · simp only [List.mem_singleton, forall_eq]
    exact ⟨hfresh, by simp [Program.addVariable, Arena.next, Arena.size, Arena.push]⟩
  · intro r hle hnew
    have hk := Module.rename_eq_some_iff.mp (hle.module (hwf.modules _ (Arena.get_mem_toList hm)))
    have hvars : ∀ w ∈ parameters (p.moduleAt m) ++ state (p.moduleAt m),
        r.onVariable w = some w := by
      intro w hw
      rcases List.mem_append.mp ((hperm _).mem_iff.mp hw) with hw | hw
      · exact eq_some_of_mapM_self hk.vars hw
      · exact hnew w hw
    refine Module.rename_eq_some_iff.mpr { hk with
      parameters := mapM_self_of_forall fun w hw => hvars w (List.mem_append_left _ hw)
      state := mapM_self_of_forall fun w hw => hvars w (List.mem_append_right _ hw) }

/-- Reading a parameter of a module keeps the program intact. -/
theorem builds_parameterItem (hp : p.Intact) (hm : m ∈ p.modules.handles) :
    Builds (parameterItem m) p fun _ _ => True := by
  unfold parameterItem
  refine along_then fun first => along_then fun _ => ?_
  refine (reads_type hp.wellFormed).build fun t q hq ht => ?_
  refine along_then fun name => along_then fun _ => along_then fun span => ?_
  refine along_add_bind ?_ (along_pure trivial)
  refine enlarges_addVariable (hq.intact hp) (by rwa [hq.modules]) ?_ fun k => ?_
  · exact Variable.rename_eq_some_iff.mpr ⟨rfl, ht, rfl, rfl, rfl, rfl⟩
  · simp only [List.append_assoc]
    exact List.perm_append_comm.append_left _

/-- Reading a state variable keeps the program intact. -/
theorem builds_stateItem (hp : p.Intact) (hm : m ∈ p.modules.handles) :
    Builds (stateItem m) p fun _ _ => True := by
  unfold stateItem
  refine along_then fun first => ?_
  extract_lets jp
  -- what is left once the role is known, and then once the initial value is
  have hjp : ∀ role, Builds (jp role) p fun _ _ => True := by
    intro role
    unfold jp
    refine (reads_type hp.wellFormed).build fun t q hq ht => along_then fun name => ?_
    extract_lets jp'
    have hjp' : ∀ r initial, q.Collects r → (∀ c ∈ initial, r.inRange.onConstant c = some c) →
        Builds (jp' initial) r fun _ _ => True := by
      intro r initial hr hinitial
      unfold jp'
      have hintact := (hq.trans hr).intact hp
      refine (reads_annotations hintact.wellFormed).build fun a s hs ha => ?_
      refine along_then fun _ => along_then fun span => ?_
      refine along_add_bind ?_ (along_pure trivial)
      refine enlarges_addVariable (hs.intact hintact) ?_ ?_ fun k => ?_
      · rwa [hs.modules, hr.modules, hq.modules]
      · refine Variable.rename_eq_some_iff.mpr ⟨rfl, ?_, rfl, ?_, ha, rfl⟩
        · exact Ty.mapStructs_extends (hr.trans hs).inRange_le.onStruct ht
        · cases initial with
          | none => rfl
          | some c =>
              have hc := hs.inRange_le.onConstant (hinitial c rfl)
              simp [hc]
      · simp only [List.append_assoc]
        exact .refl _
    clear_value jp'
    have hwf := hq.wellFormed hp.wellFormed
    refine along_then fun given => along_ite ?_ (hjp' q none (.refl q) (by simp))
    exact (reads_internedConstant hwf).build fun c r hr hc => hjp' r _ hr (by simpa using hc)
  clear_value jp
  refine along_then fun isLet =>
    along_ite (hjp _) (along_then fun _ => along_then fun isExternal => ?_)
  exact along_ite (hjp _) (hjp _)

/-! ## Nodes and connections -/

instance : Still clockRatio := by unfold clockRatio; infer_instance

/-- Reading a node keeps the program intact. -/
theorem builds_nodeItem (hp : p.Intact) (hm : m ∈ p.modules.handles) :
    Builds (nodeItem m) p fun _ _ => True := by
  unfold nodeItem
  refine along_then fun first => along_then fun _ => along_then fun name => along_then fun _ => ?_
  refine along_then fun source => along_then fun size => ?_
  extract_lets jp
  have hjp : ∀ q values, p.Collects q → (∀ v ∈ values, SoundValue q v) →
      Builds (jp values) q fun _ _ => True := by
    intro q values hq hvalues
    unfold jp
    have hargs : Reads (values.mapM fun v => add (·.intern v)) q
        fun r args => ∀ c ∈ args, r.inRange.onConstant c = some c := by
      refine along_mapM (fun _ _ _ h hc => h.inRange_le.onConstant hc) fun v hv r hr => ?_
      have hsound := hr.soundValue (hvalues v hv)
      exact along_add (.intern hsound) (onConstant_intern hsound)
    refine hargs.build fun args r hr hargs => ?_
    refine along_then fun clock => along_then fun _ => along_then fun span => ?_
    have hwf := (hq.trans hr).wellFormed hp.wellFormed
    have hm : m ∈ r.modules.handles := by rwa [hr.modules, hq.modules]
    refine along_modifyProgram (Program.adds_addNode hwf hm ?_).enlarges trivial
    exact Node.rename_eq_some_iff.mpr ⟨rfl, rfl, mapM_self_of_forall hargs, rfl, rfl, rfl⟩
  clear_value jp
  refine along_then fun args => along_ite ?_ (hjp p [] (.refl p) (by simp))
  have hlist : Reads (commaList .rightParen constant) p fun q vs => ∀ v ∈ vs, SoundValue q v :=
    along_commaList soundValue_collects fun q hq => reads_constant (hq.wellFormed hp.wellFormed)
  exact hlist.build fun values q hq hvalues => hjp q values hq hvalues

/-- An end of a connection is read at a node that is there. -/
theorem reads_endpointRef : Reads (endpointRef m) p
    fun q r => ∀ n, r.node = some n → n.idx < (q.moduleAt m).nodes.size := by
  unfold endpointRef
  refine along_then fun t => along_then fun first => along_then fun dotted => along_ite ?_ ?_
  · refine along_program ?_
    split
    · rename_i node hnode
      refine along_then fun endpoint => ?_
      rw [pure_bind]
      refine along_then fun index => along_pure ?_
      rintro n ⟨⟩
      obtain ⟨x, hx, -⟩ := Arena.find?_eq_some_iff.mp hnode
      exact Arena.lt_size_of_get? hx
    · exact along_fail _ _
  · rw [pure_bind]
    exact along_then fun index => along_pure (by simp)

instance : Still interpolation := by
  unfold interpolation
  refine still_bind inferInstance fun t => still_bind inferInstance fun next => ?_
  split
  · split <;> infer_instance
  · infer_instance

/-- Reading a connection keeps the program intact. -/
theorem builds_connectionItem (hp : p.Intact) (hm : m ∈ p.modules.handles) :
    Builds (connectionItem m) p fun _ _ => True := by
  unfold connectionItem
  refine along_then fun first => along_then fun _ => along_then fun interpolation => ?_
  refine reads_endpointRef.build fun source q hq hsource => along_then fun _ => ?_
  extract_lets jp
  have hjp : ∀ delay, Builds (jp delay) q fun _ _ => True := by
    intro delay
    unfold jp
    refine reads_endpointRef.build fun dest r hr hdest => ?_
    refine along_then fun _ => along_then fun span => ?_
    have hwf := (hq.trans hr).wellFormed hp.wellFormed
    have hm : m ∈ r.modules.handles := by rwa [hr.modules, hq.modules]
    refine along_modifyProgram
      (Program.adds_addConnection hwf hm fun e he n hn => ?_).enlarges trivial
    simp only [List.mem_cons, List.not_mem_nil, or_false] at he
    rcases he with rfl | rfl
    · rw [Program.moduleAt, hr.modules]
      exact hsource n hn
    · exact hdest n hn
  clear_value jp
  refine along_then fun delayed => along_ite ?_ (hjp none)
  exact along_then fun frames => along_then fun _ => along_then fun _ => hjp _

/-! ## Functions -/

/-- Variables that were added since, each once. -/
structure NewVars (p q : Program) (vars : List VariableId) : Prop where
  nodup : vars.Nodup
  added : ∀ v ∈ vars, p.vars.size ≤ v.idx ∧ v.idx < q.vars.size

/-- New variables stay new while texts, constants and variables are collected. -/
theorem NewVars.mono {q r : Program} {vars : List VariableId} (h : NewVars p q vars)
    (hr : q.Collects r) : NewVars p r vars :=
  ⟨h.nodup, fun v hv => ⟨(h.added v hv).1, Nat.lt_of_lt_of_le (h.added v hv).2 hr.variableCount⟩⟩

/-- New variables are not declared yet. -/
theorem NewVars.fresh {q : Program} {vars : List VariableId} (h : NewVars p q vars)
    (hp : p.WellFormed) (hq : p.Collects q) : ∀ v ∈ vars, v ∉ q.declared ∧ v.idx < q.vars.size := by
  intro v hv
  refine ⟨fun hdeclared => ?_, (h.added v hv).2⟩
  rw [hq.declared] at hdeclared
  exact Nat.not_lt.mpr (h.added v hv).1 (hp.declaredInRange v hdeclared)

/-- Items that each add a variable. -/
theorem reads_newVars {item : Parser α} {close : TokenKind} {var : α → VariableId}
    (hitem : ∀ q, p.Collects q → Reads item q
      fun r a => q.vars.size ≤ (var a).idx ∧ (var a).idx < r.vars.size) :
    Reads (commaList close item) p fun q l => NewVars p q (l.map var) := by
  refine gives_commaList (J := fun l q => p.Collects q ∧ NewVars p q (l.map var)) (fun l q hq => ?_)
    ⟨.refl p, .nil, fun _ hv => by cases hv⟩
  refine (hitem q hq.1).mono fun a r hr => ⟨hq.1.trans hr.1, ?_, fun v hv => ?_⟩
  · rw [List.map_append, List.map_singleton, ← List.concat_eq_append, List.nodup_concat]
    refine ⟨fun hmem => ?_, hq.2.nodup⟩
    exact Nat.not_lt.mpr hr.2.1 (hq.2.added _ hmem).2
  · simp only [List.map_append, List.map_singleton, List.mem_append, List.mem_singleton] at hv
    rcases hv with hv | rfl
    · exact (hq.2.mono hr.1).added v hv
    · exact ⟨Nat.le_trans hq.1.variableCount hr.2.1, hr.2.2⟩

/-- A variable that is added is new. -/
theorem reads_addVariable {v : Variable} {q : Program} (hq : p.Collects q)
    (hv : v.rename q.inRange = some v) : Reads (add (·.addVariable v)) q
      fun r id => p.vars.size ≤ id.idx ∧ id.idx < r.vars.size := by
  refine along_add (.addVariable hv) ⟨hq.variableCount, ?_⟩
  simp [Program.addVariable, Arena.next, Arena.size, Arena.push]

/-- A parameter of a function is read as a new variable. -/
theorem reads_functionParameter (hp : p.WellFormed) :
    Reads functionParameter p fun q v => p.vars.size ≤ v.idx ∧ v.idx < q.vars.size := by
  unfold functionParameter
  refine along_then fun first => (reads_type hp).bind fun t q hq ht => ?_
  refine along_then fun name => along_then fun span => reads_addVariable hq ?_
  exact Variable.rename_eq_some_iff.mpr ⟨rfl, ht, rfl, rfl, rfl, rfl⟩

/-- A function without blocks and locals is an addition if its parameters are fresh. -/
theorem adds_signature (hp : p.WellFormed) {f : Function} (howner : f.owner ∈ p.modules.handles)
    (hlocals : f.locals = []) (hblocks : f.blocks = ∅) (hnodup : f.parameters.Nodup)
    (hfresh : ∀ v ∈ f.parameters, v ∉ p.declared ∧ v.idx < p.vars.size)
    (hreturns : p.inRange.onTy f.returns = some f.returns)
    (hannotations : f.annotations.mapConstants p.inRange.onConstant = some f.annotations) :
    p.Adds (p.addFunction f).2 f.parameters := by
  have hempty : (∅ : Arena .block Block).toList = [] := rfl
  have hdeclared : f.declared = f.parameters := by
    simp [Function.declared, hlocals, hblocks, hempty]
  rw [← hdeclared] at hnodup hfresh ⊢
  refine Program.adds_addFunction hp howner hnodup hfresh fun r hle hvars _ => ?_
  refine Function.rename_eq_some_iff.mpr {
    name := rfl
    owner := hle.onModule (Handle.below_eq_some_iff.mpr ⟨Arena.mem_handles_iff.mp howner, rfl⟩)
    kind := rfl
    returns := Ty.mapStructs_extends hle.onStruct hreturns
    parameters := mapM_self_of_forall fun v hv => hvars v (hdeclared ▸ hv)
    locals := by
      rw [hlocals]
      rfl
    blocks := by rw [hblocks, Arena.rename_empty]
    annotations := hle.annotations hannotations
    span := rfl }

/-- Reading the head of a function keeps the program intact; a body that is left for later belongs
to a function that is there. -/
theorem builds_functionItem (hp : p.Intact) (hm : m ∈ p.modules.handles) :
    Builds (functionItem m) p fun q o => ∀ b ∈ o, b.function ∈ q.functions.handles := by
  unfold functionItem
  refine along_then fun first => along_then fun keyword => along_then fun name => ?_
  refine along_then fun _ => ?_
  have hparameters : Reads (commaList .rightParen functionParameter) p
      fun q l => NewVars p q (l.map id) :=
    reads_newVars fun q hq => reads_functionParameter (hq.wellFormed hp.wellFormed)
  refine hparameters.build fun parameters q hq hnew => along_then fun _ => ?_
  rw [List.map_id] at hnew
  refine (reads_type (hq.wellFormed hp.wellFormed)).build fun returns r hr hreturns => ?_
  refine along_program ?_
  extract_lets inProcessor kind
  refine (reads_annotations ((hq.trans hr).wellFormed hp.wellFormed)).build fun a s hs ha => ?_
  refine along_then fun span => ?_
  have hs' := (hq.trans hr).trans hs
  have hnew := (hnew.mono hr).mono hs
  have hadds := adds_signature (hs'.wellFormed hp.wellFormed)
    (f := { name, owner := m, kind, returns, parameters, annotations := a, span })
    (by rwa [hs'.modules]) rfl rfl hnew.nodup (hnew.fresh hp.wellFormed hs')
    (Ty.mapStructs_extends hs.inRange_le.onStruct hreturns) ha
  refine along_add_bind hadds.enlarges (along_then fun bodiless => along_ite ?_ ?_)
  · exact along_pure (by simp)
  · refine along_then fun start => along_then fun _ => along_pure ?_
    simp [Program.addFunction, Program.modifyModule, Arena.handles_push]

/-! ## Items -/

/-- Reading an item keeps the program intact, whatever it is. -/
theorem builds_item (hp : p.Intact) (hm : m ∈ p.modules.handles) :
    Builds (item m) p fun q o => ∀ b ∈ o, b.function ∈ q.functions.handles := by
  have hnone : ∀ {x : Parser Unit}, (Builds x p fun _ _ => True) →
      Builds (do x; return none) p fun q (o : Option PendingBody) =>
        ∀ b ∈ o, b.function ∈ q.functions.handles :=
    fun hx => Along.bind hx fun _ _ _ _ => along_pure (by simp)
  unfold item
  refine along_then fun t => ?_
  split
  · exact hnone (builds_structItem hp hm)
  · exact hnone (builds_endpointItem hp hm)
  · exact hnone (builds_endpointItem hp hm)
  · exact hnone (builds_parameterItem hp hm)
  · exact hnone (builds_stateItem hp hm)
  · exact hnone (builds_stateItem hp hm)
  · exact hnone (builds_nodeItem hp hm)
  · exact hnone (builds_connectionItem hp hm)
  · exact builds_functionItem hp hm
  · exact builds_functionItem hp hm
  · exact builds_functionItem hp hm
  · exact along_expected _

/-- Reading all items of a module keeps the program intact, by induction on the fuel. -/
theorem builds_items (hp : p.Intact) (hm : m ∈ p.modules.handles) (n : Nat) :
    Builds (items m n) p fun q l => ∀ b ∈ l, b.function ∈ q.functions.handles := by
  induction n generalizing p with
  | zero => exact along_expected _
  | succ n ih =>
      unfold items
      refine along_then fun closed => along_ite (along_pure (by simp)) ?_
      refine Along.bind (builds_item hp hm) fun o q hq ho => ?_
      have hrest := ih (hq.intact hp) (Arena.mem_handles_of_le hm hq.modules)
      refine Along.bind hrest fun l r hr hl => along_pure fun b hb => ?_
      rcases List.mem_append.mp hb with hb | hb
      · exact Arena.mem_handles_of_le (ho b (Option.mem_toList.mp hb)) hr.functions
      · exact hl b hb

end

end SignalGraph.Heart.Parser

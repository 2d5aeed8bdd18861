import SignalGraph.Proofs.Heart.Declaring

/-!
# SignalGraph.Proofs.Heart.Bodies

Function bodies leave an intact program intact (`builds_functionBody`).  While a body is read, the
names in scope are names of what its function can see (`InBody`); what the function declares only
grows, so what it has seen it still sees.
-/

namespace SignalGraph

/-- All that the entries contribute, whatever their handles are. -/
theorem Arena.flatMap_toList {e : Entity} {α β : Type} [Inhabited α] (a : Arena e α)
    (g : α → List β) : a.toList.flatMap g = a.gather fun _ => g := by
  rw [← Arena.map_get_handles, List.flatMap_map]
  rfl

/-- A changed function is found changed. -/
theorem Program.functionAt_modifyFunction {p : Program} {f : FunctionId}
    (hf : f ∈ p.functions.handles) (g : Function → Function) :
    (p.modifyFunction f g).functionAt f = g (p.functionAt f) := Arena.get_modify_self hf g

namespace Heart.Parser

/-- The body of a function is being read. -/
structure InBody (p : Program) (f : FunctionId) (scope : Scope) : Prop where
  intact : p.Intact
  inRange : f ∈ p.functions.handles
  fits : scope.Fits (p.scope (p.functionAt f))

section

variable {p q : Program} {f : FunctionId} {scope : Scope} {new : List VariableId}

/-- While its body is read, a function can be read in its scope. -/
theorem InBody.readable (h : InBody p f scope) : Readable p (p.functionAt f) scope :=
  ⟨h.intact.wellFormed, h.fits⟩

/-- Reading goes on in the same scope while texts, constants and variables are collected. -/
theorem InBody.collects (h : InBody p f scope) (hq : p.Collects q) : InBody q f scope := by
  refine ⟨hq.intact h.intact, by rw [hq.functions]; exact h.inRange, ?_⟩
  rw [hq.functionAt]
  exact h.fits.mono (hq.scope_le _)

/-- The body is still being read, and the function now declares the variables `new`. -/
structure Continues (p q : Program) (f : FunctionId) (scope : Scope) (new : List VariableId) :
    Prop where
  enlarges : p.Enlarges q
  body : InBody q f scope
  scope_le : (p.scope (p.functionAt f)).Le (q.scope (q.functionAt f))
  declared : ∀ v ∈ new, (q.scope (q.functionAt f)).onVariable v = some v

/-- Reading goes on in the same scope after a change that adds variables or blocks to the
function. -/
theorem InBody.modifyFunction (h : InBody p f scope) {g : Function → Function}
    (hvars : (g (p.functionAt f)).declared.Perm ((p.functionAt f).declared ++ new))
    (hblocks : (p.functionAt f).blocks.size ≤ (g (p.functionAt f)).blocks.size)
    (hadds : p.Adds (p.modifyFunction f g) new) :
    Continues p (p.modifyFunction f g) f scope new := by
  have hat := Program.functionAt_modifyFunction h.inRange g
  have hle : (p.scope (p.functionAt f)).Le
      ((p.modifyFunction f g).scope ((p.modifyFunction f g).functionAt f)) := by
    rw [hat]
    exact Program.scope_modifyFunction h.inRange hvars hblocks
  refine ⟨hadds.enlarges, ⟨h.intact.adds hadds, ?_, h.fits.mono hle⟩, hle, fun v hv => ?_⟩
  · exact Arena.mem_handles_of_le h.inRange hadds.functionCount
  · rw [hat]
    refine Program.scope_onVariable.mpr ⟨List.mem_append_right _ ?_, ?_, rfl⟩
    · exact hvars.mem_iff.mpr (List.mem_append_right _ hv)
    · exact hadds.declared.mem_iff.mpr (List.mem_append_right _ hv)

/-- A block that gets the parameters `new` and otherwise mentions what the function can see. -/
theorem InBody.modifyBlock (h : InBody p f scope) {b : BlockId}
    (hb : (p.scope (p.functionAt f)).onBlock b = some b) (change : Block → Block)
    (hparameters : ∀ k, (change k).parameters = k.parameters ++ new) (hnew : new.Nodup)
    (hfresh : ∀ v ∈ new, v ∉ p.declared ∧ v.idx < p.vars.size)
    (hchange : ∀ r k, (p.scope (p.functionAt f)).Le r → (∀ v ∈ new, r.onVariable v = some v) →
      k.Renames r k → (change k).Renames r (change k)) :
    Continues p (p.modifyFunction f fun fn => { fn with blocks := fn.blocks.modify b change }) f
      scope new := by
  have hmem : b ∈ (p.functionAt f).blocks.handles :=
    Arena.mem_handles_iff.mpr (Program.scope_onBlock.mp hb).1
  have hvars : ((p.functionAt f).blocks.modify b change).toList.flatMap (·.parameters) |>.Perm
      ((p.functionAt f).blocks.toList.flatMap (·.parameters) ++ new) := by
    rw [Arena.flatMap_toList, Arena.flatMap_toList]
    refine Arena.gather_modify_perm hmem ?_
    rw [hparameters]
  have hdeclared : { p.functionAt f with
      blocks := (p.functionAt f).blocks.modify b change }.declared.Perm
        ((p.functionAt f).declared ++ new) := by
    simp only [Function.declared, List.append_assoc]
    exact (hvars.append_left _).append_left _
  have hsize : (p.functionAt f).blocks.size ≤ ((p.functionAt f).blocks.modify b change).size := by
    simp
  refine h.modifyFunction hdeclared hsize ?_
  refine Program.adds_modifyFunction h.inRange hdeclared hsize rfl hnew hfresh fun r hle hr _ => ?_
  have hf := Function.rename_eq_some_iff.mp
    (hle.function (h.intact.wellFormed.functions _ (Arena.get_mem_toList h.inRange)))
  -- all blocks but the changed one are as before, and that one is in scope by hypothesis
  have hold := Arena.rename_eq_some_iff.mp hf.blocks
  refine Function.rename_eq_some_iff.mpr { hf with
    blocks := Arena.rename_eq_some_iff.mpr (mapM_self_of_forall fun k hk => ?_) }
  rcases Arena.mem_toList_modify hk with hk | ⟨-, rfl⟩
  · exact eq_some_of_mapM_self hold hk
  · have hk := Block.rename_eq_some_iff.mp (eq_some_of_mapM_self hold (Arena.get_mem_toList hmem))
    exact Block.rename_eq_some_iff.mpr (hchange r _ hle hr hk)

/-! ## Local variables -/

/-- A local variable is read as a new one. -/
theorem reads_declaredVariable (hp : p.WellFormed) (role : VariableRole) :
    Reads (declaredVariable role) p fun q x => p.vars.size ≤ x.2.idx ∧ x.2.idx < q.vars.size := by
  unfold declaredVariable
  refine (reads_type hp).bind fun t q hq ht => along_then fun name => ?_
  refine Along.bind (reads_addVariable hq ?_) fun id r _ hid => along_pure hid
  exact Variable.rename_eq_some_iff.mpr ⟨rfl, ht, rfl, rfl, rfl, rfl⟩

/-- A new variable becomes a local of the function. -/
theorem InBody.addLocal (h : InBody p f scope) {v : VariableId} (hv : v ∉ p.declared)
    (hlt : v.idx < p.vars.size) :
    Continues p (p.modifyFunction f fun fn => { fn with locals := fn.locals ++ [v] }) f scope
      [v] := by
  have hdeclared : { p.functionAt f with locals := (p.functionAt f).locals ++ [v] }.declared.Perm
      ((p.functionAt f).declared ++ [v]) := by
    simp only [Function.declared, List.append_assoc]
    exact (List.perm_append_comm.append_left _).append_left _
  refine h.modifyFunction hdeclared (Nat.le_refl _) ?_
  refine Program.adds_modifyFunction h.inRange hdeclared (Nat.le_refl _) rfl
    (List.nodup_singleton v) (by simpa using ⟨hv, hlt⟩) fun r hle hr _ => ?_
  have hf := Function.rename_eq_some_iff.mp
    (hle.function (h.intact.wellFormed.functions _ (Arena.get_mem_toList h.inRange)))
  exact Function.rename_eq_some_iff.mpr { hf with
    locals := mapM_concat hf.locals (hr v List.mem_cons_self) }

/-- Names of variables that the function sees may be put into its scope. -/
theorem InBody.withVariables (h : InBody p f scope) {l : List (String × VariableId)}
    (hvars : ∀ x ∈ l, (p.scope (p.functionAt f)).onVariable x.2 = some x.2) :
    InBody p f { scope with vars := l ++ scope.vars } :=
  ⟨h.intact, h.inRange, fun x hx => (List.mem_append.mp hx).elim (hvars x) (h.fits.vars x),
    h.fits.blocks⟩

/-- Reading local variables keeps the program intact, by induction on the fuel. -/
theorem builds_locals (h : InBody p f scope) (n : Nat) :
    Builds (locals f n scope) p fun q scope => InBody q f scope := by
  induction n generalizing p scope with
  | zero => exact along_pure h
  | succ n ih =>
      unfold locals
      refine along_then fun first => along_then fun role => ?_
      split
      · exact along_pure h
      · rename_i role
        refine (reads_declaredVariable h.intact.wellFormed role).build fun x q hq hx => ?_
        obtain ⟨name, id⟩ := x
        refine along_then fun _ => along_then fun span => ?_
        have hid : id ∈ q.vars.handles := Arena.mem_handles_iff.mpr hx.2
        have hwf := hq.wellFormed h.intact.wellFormed
        have hv := Variable.rename_eq_some_iff.mp (hwf.vars _ (Arena.get_mem_toList hid))
        have hspan : q.Collects (q.modifyVariable id fun v => { v with span }) :=
          .modifyVariable (Variable.rename_eq_some_iff.mpr { hv with span := rfl })
        have hfresh : id ∉ q.declared := fun hmem => by
          rw [hq.declared] at hmem
          exact Nat.not_lt.mpr hx.1 (h.intact.wellFormed.declaredInRange id hmem)
        have hnext := ((h.collects hq).collects hspan).addLocal hfresh
          (Nat.lt_of_lt_of_le hx.2 hspan.variableCount)
        refine along_modifyProgram_bind (IsTrans.trans _ _ _ hspan.enlarges hnext.enlarges) ?_
        refine ih (hnext.body.withVariables (List.forall_mem_singleton.mpr ?_))
        exact hnext.declared id List.mem_cons_self

/-! ## Blocks -/

/-- A new block becomes one of the function. -/
theorem InBody.addBlock (h : InBody p f scope) (label : String) :
    Continues p (p.modifyFunction f fun fn =>
      { fn with blocks := fn.blocks.push (.ofName label) }) f scope [] := by
  have hdeclared : { p.functionAt f with
      blocks := (p.functionAt f).blocks.push (.ofName label) }.declared.Perm
        ((p.functionAt f).declared ++ []) := by
    simp [Function.declared, Block.ofName]
  refine h.modifyFunction hdeclared (by simp) ?_
  refine Program.adds_modifyFunction h.inRange hdeclared (by simp) rfl .nil
    (fun _ hv => by cases hv) fun r hle hr _ => ?_
  have hf := Function.rename_eq_some_iff.mp
    (hle.function (h.intact.wellFormed.functions _ (Arena.get_mem_toList h.inRange)))
  exact Function.rename_eq_some_iff.mpr { hf with blocks := Arena.rename_push hf.blocks rfl }

/-- Declaring blocks for labels keeps the program intact. -/
theorem builds_addBlocks (h : InBody p f scope) (labels : List String) :
    Builds (addBlocks f labels scope) p fun q scope => InBody q f scope := by
  induction labels generalizing p scope with
  | nil => exact along_pure h
  | cons label labels ih =>
      unfold addBlocks
      refine along_program ?_
      have hnext := h.addBlock label
      refine along_modifyProgram_bind hnext.enlarges (ih ⟨hnext.body.intact, hnext.body.inRange,
        hnext.body.fits.vars, fun x hx => ?_⟩)
      rcases List.mem_cons.mp hx with rfl | hx
      · refine Program.scope_onBlock.mpr ⟨?_, rfl⟩
        rw [Program.functionAt_modifyFunction h.inRange]
        simp [Arena.next, Arena.size, Arena.push]
      · exact hnext.body.fits.blocks x hx

/-- Blocks are seen as before while texts, constants and variables are collected. -/
theorem onBlock_collects (hq : p.Collects q) {b : BlockId}
    (hb : (p.scope (p.functionAt f)).onBlock b = some b) :
    (q.scope (q.functionAt f)).onBlock b = some b := by
  rw [hq.functionAt]
  exact (hq.scope_le _).onBlock hb

section

variable {b : BlockId} (hb : (p.scope (p.functionAt f)).onBlock b = some b)

include hb

/-- A block that mentions more of what the function can see. -/
theorem InBody.fillBlock (h : InBody p f scope) (change : Block → Block)
    (hparameters : ∀ k, (change k).parameters = k.parameters)
    (hchange : ∀ r k, (p.scope (p.functionAt f)).Le r → k.Renames r k →
      (change k).Renames r (change k)) :
    Continues p (p.modifyFunction f fun fn => { fn with blocks := fn.blocks.modify b change }) f
      scope [] := by
  refine h.modifyBlock hb change (fun k => ?_) .nil (fun _ hv => by cases hv) fun r k hle _ => ?_
  · rw [hparameters, List.append_nil]
  · exact hchange r k hle

/-- Reading the code of a block keeps the program intact. -/
theorem builds_blockBody (h : InBody p f scope) :
    Builds (blockBody scope f b) p fun q _ => InBody q f scope := by
  -- the program grows with every statement, so the induction is over all of them
  have hgo : ∀ n p, InBody p f scope → (p.scope (p.functionAt f)).onBlock b = some b →
      Builds (blockBody.go scope f b n) p fun q _ => InBody q f scope := by
    intro n
    induction n with
    | zero => exact fun p _ _ => along_expected _
    | succ n ih =>
        intro p h hb
        unfold blockBody.go
        refine (reads_terminator h.readable).build fun t q hq ht => ?_
        rw [← hq.functionAt] at ht
        have hb := onBlock_collects hq hb
        cases t with
        | some t =>
            have hnext := (h.collects hq).fillBlock hb (fun k => { k with terminator := t })
              (fun _ => rfl) fun r k hle hk => { hk with terminator := hle.terminator (ht t rfl) }
            exact along_then fun _ => along_modifyProgram hnext.enlarges hnext.body
        | none =>
            refine (reads_statement (h.collects hq).readable).build fun s r hr hs => ?_
            rw [← hr.functionAt] at hs
            have hb := onBlock_collects hr hb
            have hnext := ((h.collects hq).collects hr).fillBlock hb
              (fun k => { k with statements := k.statements ++ [s] }) (fun _ => rfl)
              fun r' k hle hk =>
                { hk with statements := mapM_concat hk.statements (hle.statement hs) }
            exact along_modifyProgram_bind hnext.enlarges
              (ih _ hnext.body (hnext.scope_le.onBlock hb))
  unfold blockBody
  exact along_then fun n => hgo n p h hb

end

/-- Reading a block keeps the program intact. -/
theorem builds_block (h : InBody p f scope) :
    Builds (block f scope) p fun q scope => InBody q f scope := by
  unfold block
  refine along_then fun first => (reads_blockRef h.readable).build fun b q hq hb => ?_
  rw [← hq.functionAt] at hb
  have hbody := h.collects hq
  extract_lets jp
  -- what is left once the parameters of the block are read
  have hjp : ∀ r params, q.Collects r → NewVars q r (params.map (·.2)) →
      Builds (jp params) r fun q scope => InBody q f scope := by
    intro r params hr hnew
    unfold jp
    have hb := onBlock_collects hr hb
    have hparams := (hbody.collects hr).modifyBlock hb
      (fun k => { k with parameters := k.parameters ++ params.map (·.2) }) (fun _ => rfl) hnew.nodup
      (hnew.fresh hbody.intact.wellFormed hr) fun r' k hle hvars hk =>
        { hk with parameters := mapM_append_some hk.parameters (mapM_self_of_forall hvars) }
    refine along_modifyProgram_bind hparams.enlarges ?_
    have hb := hparams.scope_le.onBlock hb
    have hscope := hparams.body.withVariables (l := params.reverse) fun x hx =>
      hparams.declared x.2 (List.mem_map_of_mem (List.mem_reverse.mp hx))
    refine along_then fun _ => along_then fun span => ?_
    have hspan := hscope.fillBlock hb (fun k => { k with span }) (fun _ => rfl)
      fun r' k hle hk => { hk with span := rfl }
    refine along_modifyProgram_bind hspan.enlarges ?_
    refine Along.bind (builds_blockBody (hspan.scope_le.onBlock hb) hspan.body) fun _ r' _ h => ?_
    exact along_pure h
  clear_value jp
  refine along_then fun given => along_ite ?_ ?_
  · have hlist : Reads (commaList .rightParen (declaredVariable .parameter)) q
        fun r l => NewVars q r (l.map (·.2)) :=
      reads_newVars fun r hr => reads_declaredVariable (hr.wellFormed hbody.intact.wellFormed) _
    exact hlist.build fun params r hr hnew => hjp r params hr hnew
  · exact hjp q [] (.refl q) ⟨.nil, fun _ hv => by cases hv⟩

/-- Reading blocks keeps the program intact, by induction on the fuel. -/
theorem builds_blocks (h : InBody p f scope) (n : Nat) :
    Builds (blocks f n scope) p fun _ _ => True := by
  induction n generalizing p scope with
  | zero => exact along_expected _
  | succ n ih =>
      unfold blocks
      refine along_then fun closed => along_ite (along_pure trivial) ?_
      exact Along.bind (builds_block h) fun scope q _ hq => ih hq

/-! ## Bodies -/

/-- Reading the body of a function keeps the program intact. -/
theorem builds_functionBody (hp : p.Intact) (hf : f ∈ p.functions.handles) :
    Builds (functionBody f) p fun _ _ => True := by
  have hbody : InBody p f
      { vars :=
        ((p.functionAt f).parameters.map fun v => ((p.variableAt v).name, v)).reverse } := by
    refine ⟨hp, hf, fun x hx => ?_, fun _ hx => by cases hx⟩
    obtain ⟨v, hv, rfl⟩ := List.mem_map.mp (List.mem_reverse.mp hx)
    exact eq_some_of_mapM_self (hp.wellFormed.functionAt hf).parameters hv
  unfold functionBody
  refine along_program (along_then fun _ => along_then fun n => ?_)
  refine Along.bind (builds_locals hbody n) fun scope q _ hq => ?_
  refine Along.bind (along_then fun c => builds_addBlocks hq _) fun scope r _ hr => ?_
  exact along_then fun n => builds_blocks hr n

end

end Heart.Parser

end SignalGraph

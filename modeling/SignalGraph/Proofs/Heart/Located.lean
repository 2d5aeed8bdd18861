import SignalGraph.Proofs.Heart.Locating

/-!
# SignalGraph.Proofs.Heart.Located

All parsers name places in the text only.  So what is wrong with a text is reported at characters of
it, and what is read from it stands there (`locates_parseFile`).  The three passes go back in the
text, but only to places that they have been at.
-/

namespace SignalGraph.Heart

namespace Parser

variable {file : FileId} {text : String}

/-! ## Types, constants and annotations -/

instance : Located file text plainType := by
  unfold plainType
  refine located_current fun t => ?_
  split
  · infer_instance
  · split
    · infer_instance
    · split
      · infer_instance
      · refine located_bind inferInstance fun path => located_bind inferInstance fun p => ?_
        split <;> infer_instance

instance (n : Nat) (t : Ty) : Located file text (arraySuffixes n t) := by
  induction n generalizing t with
  | zero => unfold arraySuffixes; infer_instance
  | succ n ih => unfold arraySuffixes atArraySuffix; infer_instance

instance : Located file text type := by unfold type; infer_instance

instance {element : Parser Value} [Located file text element] :
    Located file text (constantWith element) := by
  unfold constantWith
  refine located_current fun t => ?_
  split
  · split <;> infer_instance
  · infer_instance
  · infer_instance
  · refine located_bind inferInstance fun called => ?_
    extract_lets named
    clear_value named
    split <;> infer_instance
  · infer_instance

instance (n : Nat) : Located file text (constantTo n) := by
  induction n with
  | zero => unfold constantTo; infer_instance
  | succ n ih => unfold constantTo; infer_instance

instance : Located file text constant := by unfold constant; infer_instance

instance : Located file text internedConstant := by unfold internedConstant; infer_instance

instance : Located file text property := by
  unfold property
  refine located_current fun t => ?_
  extract_lets key jp
  have hjp : ∀ r, Located file text (jp r) := by
    intro r
    unfold jp
    infer_instance
  clear_value jp
  infer_instance

instance : Located file text annotations := by
  unfold annotations
  exact located_bind inferInstance fun _ => located_bind inferInstance fun _ => inferInstance

/-! ## Expressions -/

section

variable {expr : Parser Expr} [Located file text expr] (scope : Scope)

instance : Located file text functionRef := by
  unfold functionRef
  refine located_current fun t => located_bind inferInstance fun path => ?_
  refine located_bind inferInstance fun p => ?_
  split <;> infer_instance

instance : Located file text (arguments expr) := by unfold arguments; infer_instance

instance : Located file text (localVariable scope) := by
  unfold localVariable
  refine located_current fun t => ?_
  split <;> infer_instance

instance : Located file text (castExpr expr) := by unfold castExpr; infer_instance

instance : Located file text (pureCall expr) := by unfold pureCall; infer_instance

instance : Located file text processorProperty := by
  unfold processorProperty
  refine located_bind inferInstance fun _ => located_bind inferInstance fun _ => ?_
  refine located_current fun t => located_bind inferInstance fun name => ?_
  split <;> infer_instance

instance (op : UnaryOp) : Located file text (unaryExpr expr op) := by
  unfold unaryExpr
  infer_instance

instance (op : BinaryOp) : Located file text (binaryExpr expr op) := by
  unfold binaryExpr
  infer_instance

instance : Located file text pathOrConstant := by
  unfold pathOrConstant
  refine located_cursor fun here => located_bind inferInstance fun qualified => ?_
  extract_lets jp
  have hjp : ∀ found, Located file text (jp found) := by
    intro found
    unfold jp
    split <;> infer_instance
  clear_value jp
  infer_instance

instance : Located file text (wordExpr expr) := by
  unfold wordExpr
  refine located_current fun t => located_bind inferInstance fun called => ?_
  split
  · infer_instance
  · split
    · infer_instance
    · refine located_bind inferInstance fun dotted => ?_
      split
      · infer_instance
      · split <;> infer_instance

instance : Located file text (primaryExpr scope expr) := by
  unfold primaryExpr
  refine located_current fun t => ?_
  split <;> infer_instance

instance (parent : Expr) : Located file text (indexed expr parent) := by
  unfold indexed
  refine located_bind inferInstance fun _ => ?_
  extract_lets jp
  have hjp : ∀ e, Located file text (jp e) := by
    intro e
    unfold jp
    infer_instance
  clear_value jp
  refine located_bind inferInstance fun _ => located_bind inferInstance fun _ => ?_
  refine located_bind inferInstance fun _ => located_bind inferInstance fun _ => ?_
  split
  · infer_instance
  · split <;> infer_instance

instance (n : Nat) (e : Expr) : Located file text (selections expr n e) := by
  induction n generalizing e with
  | zero => unfold selections; infer_instance
  | succ n ih => unfold selections; infer_instance

instance (n : Nat) : Located file text (exprTo scope n) := by
  induction n with
  | zero => unfold exprTo; infer_instance
  | succ n ih => unfold exprTo; infer_instance

instance : Located file text (Parser.expr scope) := by unfold Parser.expr; infer_instance

end

/-! ## Statements -/

section

variable (scope : Scope)

instance : Located file text (call scope) := by unfold call; infer_instance

instance : Located file text (write scope) := by
  unfold write
  refine located_bind inferInstance fun endpoint => ?_
  extract_lets jp
  have hjp : ∀ element, Located file text (jp element) := by
    intro element
    unfold jp
    infer_instance
  clear_value jp
  infer_instance

instance : Located file text (store scope) := by
  unfold store
  refine located_bind inferInstance fun _ => located_bind inferInstance fun target => ?_
  refine located_expect fun _ => located_bind inferInstance fun read => ?_
  split
  · infer_instance
  · refine located_bind inferInstance fun called => ?_
    split
    · exact located_bind inferInstance fun _ => inferInstance
    · infer_instance

instance : Located file text (statement scope) := by unfold statement bareStatement; infer_instance

instance : Located file text (blockRef scope) := by
  unfold blockRef
  refine located_expect fun t => ?_
  split <;> infer_instance

instance : Located file text (branchTarget scope) := by
  unfold branchTarget
  refine located_bind inferInstance fun b => ?_
  extract_lets jp
  have hjp : ∀ args, Located file text (jp args) := by
    intro args
    unfold jp
    infer_instance
  clear_value jp
  infer_instance

instance : Located file text (terminator scope) := by
  unfold terminator
  refine located_bind inferInstance fun branch => ?_
  split
  · exact located_bind inferInstance fun _ => inferInstance
  · refine located_bind inferInstance fun branchIf => ?_
    split
    · refine located_bind inferInstance fun c => located_expect fun _ => ?_
      refine located_bind inferInstance fun x => located_expect fun _ => ?_
      exact located_bind inferInstance fun _ => inferInstance
    · infer_instance

/-! ## Bodies -/

variable (f : FunctionId)

/-- A block stays where it is, or comes to stand in the text. -/
theorem located_modifyBlock {b : BlockId} {change : Block → Block}
    (hchange : ∀ k : Block, k.span.Fits file text → (change k).span.Fits file text) :
    Located file text (modifyBlock f b change) :=
  located_modifyProgram fun _ hp => hp.modifyFunction fun _ hf =>
    ⟨hf.span, hf.blocks.modify hchange⟩

instance (role : VariableRole) : Located file text (declaredVariable role) := by
  unfold declaredVariable
  infer_instance

instance (b : BlockId) (n : Nat) : Located file text (blockBody.go scope f b n) := by
  induction n with
  | zero => unfold blockBody.go; infer_instance
  | succ n ih =>
      unfold blockBody.go
      refine located_bind inferInstance fun t => ?_
      split
      · exact located_expect fun _ => located_modifyBlock f fun _ hk => hk
      · refine located_bind inferInstance fun s => ?_
        exact located_bind (located_modifyBlock f fun _ hk => hk) fun _ => ih

instance : Located file text (block f scope) := by
  unfold block
  refine located_current fun first => located_bind inferInstance fun b => ?_
  extract_lets jp
  have hjp : ∀ params, Located file text (jp params) := by
    intro params
    unfold jp
    refine located_bind (located_modifyBlock f fun _ hk => hk) fun _ => ?_
    refine located_expect fun _ => located_spanFrom fun span => ?_
    refine located_bind (located_modifyBlock f fun _ _ => .inr span.2) fun _ => ?_
    unfold blockBody
    infer_instance
  clear_value jp
  infer_instance

instance (n : Nat) : Located file text (blocks f n scope) := by
  induction n generalizing scope with
  | zero => unfold blocks; infer_instance
  | succ n ih => unfold blocks; infer_instance

instance (labels : List String) : Located file text (addBlocks f labels scope) := by
  induction labels generalizing scope with
  | nil => unfold addBlocks; infer_instance
  | cons label labels ih =>
      unfold addBlocks
      refine located_bind inferInstance fun p => located_bind ?_ fun _ => ih _
      refine located_modifyProgram fun _ hp => hp.modifyFunction fun _ hf => ?_
      exact ⟨hf.span, hf.blocks.push (.inl rfl)⟩

instance : Located file text localRole := by unfold localRole; infer_instance

instance (n : Nat) : Located file text (locals f n scope) := by
  induction n generalizing scope with
  | zero => unfold locals; infer_instance
  | succ n ih =>
      unfold locals
      refine located_current fun first => located_bind inferInstance fun role => ?_
      split
      · infer_instance
      · refine located_bind inferInstance fun x => located_expect fun _ => ?_
        refine located_spanFrom fun span => located_bind ?_ fun _ => ih _
        refine located_modifyProgram fun p hp => ?_
        have hp' : (p.modifyVariable x.2 fun v => { v with span := span.1 }).Placed _ :=
          hp.of_eq rfl rfl
        exact hp'.modifyFunction fun _ hf => ⟨hf.span, hf.blocks⟩

end

instance (f : FunctionId) : Located file text (functionBody f) := by
  unfold functionBody declareBlocks
  infer_instance

/-! ## Items -/

section

variable (m : ModuleId)

instance : Located file text optionalIndex := by unfold optionalIndex; infer_instance

/-- A member that is refused is refused at the place of its declaration. -/
theorem span_of_addMember_eq_error {p : Program} {id : StructId} {name : String} {t : Ty}
    {span : Span} {d : Diagnostic} (h : p.addMember id name t span = .error d) : d.span = span := by
  unfold Program.addMember at h
  extract_lets structs at h
  split at h
  · cases h
    unfold Program.containmentFault
    split <;> rfl
  · cases h

instance : Located file text (structItem m) := by
  unfold structItem
  refine located_bind inferInstance fun _ => located_current fun t => ?_
  refine located_bind inferInstance fun name => located_bind inferInstance fun p => ?_
  split
  · infer_instance
  · rename_i id _
    refine located_expect fun _ => ?_
    suffices Located file text (do
        let first ← current
        let ty ← type
        let name ← identifier
        let _ ← expect .semicolon
        let p ← lift ((← program).addMember id name ty (← spanFrom first))
        modifyProgram fun _ => p) from inferInstance
    refine located_current fun first => located_bind inferInstance fun t => ?_
    refine located_bind inferInstance fun name => located_expect fun _ => ?_
    refine ⟨locates_program.bind fun p hp => (located_spanFrom fun span => ?_).locates⟩
    refine located_lift (fun d hd => ?_) fun q hq => located_modifyProgram fun _ _ => ?_
    · rw [span_of_addMember_eq_error hd]
      exact span.2
    · rw [addMember_eq_ok hq]
      exact hp.of_eq rfl rfl

instance : Located file text endpointPath := by
  have hgo : ∀ n, Located file text (endpointPath.go n) := by
    intro n
    induction n with
    | zero => unfold endpointPath.go; infer_instance
    | succ n ih => unfold endpointPath.go; infer_instance
  unfold endpointPath
  infer_instance

instance : Located file text endpointDetails := by
  unfold endpointDetails
  refine located_bind inferInstance fun size => located_current fun t => ?_
  split <;> infer_instance

instance : Located file text (endpointItem m) := by
  unfold endpointItem
  refine located_current fun first => ?_
  extract_lets jp
  have hjp : ∀ direction, Located file text (jp direction) := by
    intro direction
    unfold jp
    refine located_bind inferInstance fun name => ?_
    extract_lets jp'
    have hjp' : ∀ x, Located file text (jp' x) := by
      intro x
      unfold jp'
      refine located_bind inferInstance fun exposed => located_bind inferInstance fun a => ?_
      refine located_expect fun _ => located_spanFrom fun span => ?_
      exact located_modifyProgram fun _ hp => hp.modifyModule fun _ hm =>
        hm.addEndpoint (.inr span.2)
    clear_value jp'
    infer_instance
  clear_value jp
  infer_instance

instance : Located file text (parameterItem m) := by
  unfold parameterItem
  refine located_current fun first => located_bind inferInstance fun _ => ?_
  refine located_bind inferInstance fun t => located_bind inferInstance fun name => ?_
  refine located_expect fun _ => located_spanFrom fun span => ?_
  exact located_bind (located_add fun _ hp => hp.addParameter _ _ _ _) inferInstance

instance : Located file text (stateItem m) := by
  unfold stateItem
  refine located_current fun first => ?_
  extract_lets jp
  have hjp : ∀ role, Located file text (jp role) := by
    intro role
    unfold jp
    refine located_bind inferInstance fun t => located_bind inferInstance fun name => ?_
    extract_lets jp'
    have hjp' : ∀ initial, Located file text (jp' initial) := by
      intro initial
      unfold jp'
      refine located_bind inferInstance fun a => located_expect fun _ => ?_
      refine located_spanFrom fun span => ?_
      exact located_bind (located_add fun _ hp => hp.addState _ _) inferInstance
    clear_value jp'
    infer_instance
  clear_value jp
  infer_instance

/-- What is wrong with a rate is reported where the rate stands. -/
theorem span_of_rate_eq_error {rate : Nat → ClockRatio} {value : Int} {span : Span} {d : Diagnostic}
    (h : (do return rate (← ClockRatio.check value span)) = Except.error d) : d.span = span := by
  unfold ClockRatio.check at h
  split at h
  · cases h
  · cases h
    rfl

instance : Located file text clockRatio := by
  unfold clockRatio
  refine located_current fun t => ?_
  extract_lets span
  have hlift : ∀ (rate : Nat → ClockRatio) value,
      Located file text (lift (do return rate (← ClockRatio.check value span))) := fun rate value =>
    (locates_lift fun d hd => span_of_rate_eq_error hd ▸ t.2).located
  refine located_bind inferInstance fun multiplied => ?_
  split
  · exact located_bind inferInstance fun _ => hlift (fun n => { multiplier := n }) _
  · refine located_bind inferInstance fun divided => ?_
    split
    · exact located_bind inferInstance fun _ => hlift (fun n => { divider := n }) _
    · infer_instance

instance : Located file text (nodeItem m) := by
  unfold nodeItem
  refine located_current fun first => located_bind inferInstance fun _ => ?_
  refine located_bind inferInstance fun name => located_expect fun _ => ?_
  refine located_bind inferInstance fun source => located_bind inferInstance fun size => ?_
  extract_lets jp
  have hjp : ∀ values, Located file text (jp values) := by
    intro values
    unfold jp
    refine located_bind inferInstance fun args => located_bind inferInstance fun clock => ?_
    refine located_expect fun _ => located_spanFrom fun span => ?_
    exact located_modifyProgram fun _ hp => hp.modifyModule fun _ hm => hm.addNode (.inr span.2)
  clear_value jp
  infer_instance

instance : Located file text (endpointRef m) := by
  unfold endpointRef
  refine located_current fun t => located_bind inferInstance fun first => ?_
  refine located_bind inferInstance fun dotted => ?_
  split
  · refine located_bind inferInstance fun p => ?_
    split <;> infer_instance
  · infer_instance

instance : Located file text interpolation := by
  unfold interpolation
  refine located_current fun t => located_bind inferInstance fun named => ?_
  split
  · split <;> infer_instance
  · infer_instance

instance : Located file text (connectionItem m) := by
  unfold connectionItem
  refine located_current fun first => located_bind inferInstance fun _ => ?_
  refine located_bind inferInstance fun interpolation => located_bind inferInstance fun source => ?_
  refine located_expect fun _ => ?_
  extract_lets jp
  have hjp : ∀ delay, Located file text (jp delay) := by
    intro delay
    unfold jp
    refine located_bind inferInstance fun dest => located_expect fun _ => ?_
    refine located_spanFrom fun span => ?_
    exact located_modifyProgram fun _ hp => hp.modifyModule fun _ hm =>
      hm.addConnection (.inr span.2)
  clear_value jp
  infer_instance

instance : Located file text functionParameter := by unfold functionParameter; infer_instance

/-- The body of a function starts at a place in the text. -/
theorem locates_functionItem :
    Locates file text (functionItem m) fun pending => ∀ b ∈ pending, b.start.Within file text := by
  unfold functionItem
  refine locates_current.bind fun first hfirst => locates_then inferInstance fun keyword => ?_
  refine locates_then inferInstance fun name => (locates_expect _).bind fun _ _ => ?_
  refine locates_then inferInstance fun parameters => (locates_expect _).bind fun _ _ => ?_
  refine locates_then inferInstance fun returns => locates_then inferInstance fun p => ?_
  extract_lets inProcessor kind
  clear_value kind
  refine locates_then inferInstance fun a => (locates_spanFrom hfirst).bind fun span hspan => ?_
  refine locates_then (located_add fun _ hp => hp.addFunction ⟨.inr hspan, Arena.all_empty⟩)
    fun id => ?_
  refine locates_then inferInstance fun ended => locates_ite (locates_pure nofun) ?_
  refine locates_cursor.bind fun start hstart => locates_then inferInstance fun _ => ?_
  exact locates_pure fun b hb => Option.mem_some.mp hb ▸ hstart

/-- An item fails within the text, and its body starts there. -/
theorem locates_item :
    Locates file text (item m) fun pending => ∀ b ∈ pending, b.start.Within file text := by
  unfold item
  refine locates_current.bind fun t _ => ?_
  have hnone : ∀ x : Parser Unit, Located file text x →
      Locates file text (x >>= fun _ => pure (none : Option PendingBody))
        fun pending => ∀ b ∈ pending, b.start.Within file text :=
    fun x hx => locates_then hx fun _ => locates_pure nofun
  split
  iterate 8 exact hnone _ inferInstance
  iterate 3 exact locates_functionItem m
  exact locates_expected _

/-- The items of a module fail within the text, and their bodies start there. -/
theorem locates_items (n : Nat) :
    Locates file text (items m n) fun bodies => ∀ b ∈ bodies, b.start.Within file text := by
  induction n with
  | zero => exact locates_expected _
  | succ n ih =>
      unfold items
      refine locates_then inferInstance fun closed =>
        locates_ite (locates_pure (List.forall_mem_nil _)) ?_
      refine (locates_item m).bind fun pending hpending => ih.bind fun bodies hbodies => ?_
      refine locates_pure fun b hb => ?_
      rcases List.mem_append.mp hb with hb | hb
      · exact hpending b (Option.mem_toList.mp hb)
      · exact hbodies b hb

/-! ## Modules -/

instance (n depth : Nat) : Located file text (structNames m n depth) := by
  induction n generalizing depth with
  | zero => unfold structNames; infer_instance
  | succ n ih =>
      unfold structNames
      refine located_current fun t => ?_
      split
      · infer_instance
      · infer_instance
      · infer_instance
      · refine located_bind inferInstance fun _ => ?_
        split
        · refine located_bind inferInstance fun name => located_spanFrom fun span => ?_
          exact located_bind (located_add fun _ hp => hp.addStruct m name span.1) fun _ => ih depth
        · exact ih depth

end

/-- The places of the annotations and the items of a module are places in the text. -/
def Outline.Within (file : FileId) (text : String) (o : Outline) : Prop :=
  o.annotations.Within file text ∧ o.body.Within file text

/-- The first pass over a module fails within the text, and the places that it keeps are there. -/
theorem locates_outline : Locates file text outline (·.Within file text) := by
  unfold outline
  refine locates_current.bind fun first hfirst => ?_
  split
  · exact locates_expected _
  · refine locates_then inferInstance fun _ => locates_then inferInstance fun name => ?_
    refine (locates_spanFrom hfirst).bind fun span hspan => ?_
    refine locates_then (located_add fun _ hp => hp.addModule _ name (.inl rfl)) fun id => ?_
    refine locates_then (located_modifyProgram fun _ hp => hp.modifyModule fun _ hm => ?_)
      fun _ => ?_
    · exact ⟨.inr hspan, hm.endpoints, hm.nodes, hm.connections⟩
    · refine locates_cursor.bind fun annotations hannotations => ?_
      extract_lets jp
      have hjp : ∀ r, Locates file text (jp r) (·.Within file text) := by
        intro r
        unfold jp
        refine (locates_expect _).bind fun _ _ => locates_cursor.bind fun body hbody => ?_
        refine locates_then inferInstance fun n => locates_then inferInstance fun _ => ?_
        exact locates_pure ⟨hannotations, hbody⟩
      clear_value jp
      refine locates_then inferInstance fun bracket => locates_ite ?_ (hjp _)
      exact locates_then inferInstance fun _ => hjp _

/-- The first pass fails within the text, and the places that it keeps are there. -/
theorem locates_outlines (n : Nat) :
    Locates file text (outlines n) fun l => ∀ o ∈ l, o.Within file text := by
  induction n with
  | zero => exact locates_pure (List.forall_mem_nil _)
  | succ n ih =>
      unfold outlines
      refine locates_then inferInstance fun atEnd =>
        locates_ite (locates_pure (List.forall_mem_nil _)) ?_
      refine locates_outline.bind fun o ho => ih.bind fun l hl => ?_
      exact locates_pure (List.forall_mem_cons.mpr ⟨ho, hl⟩)

/-- The second pass over a module fails within the text, and the bodies that it leaves start
there. -/
theorem locates_contents {o : Outline} (ho : o.Within file text) :
    Locates file text (contents o) fun bodies => ∀ b ∈ bodies, b.start.Within file text := by
  unfold contents
  refine locates_then (located_moveTo ho.1) fun _ => locates_then inferInstance fun a => ?_
  refine locates_then (located_modifyProgram fun _ hp => ?_) fun _ => ?_
  · exact hp.editModule (fun _ => rfl) (fun _ => rfl) (fun _ => rfl) fun _ => rfl
  · exact locates_then (located_moveTo ho.2) fun _ => locates_then inferInstance fun n =>
      locates_items o.id n

/-! ## Programs -/

/-- What does not fit is quoted from the start of the text. -/
instance (source : String) : Located file text (header source) := by
  unfold header
  refine located_current fun first => located_bind inferInstance fun hash => ?_
  extract_lets jp
  have hjp : ∀ valid, Located file text (jp valid) := by
    intro valid
    unfold jp
    split
    · infer_instance
    · refine located_spanFrom fun span => located_current fun t => ?_
      extract_lets
      infer_instance
  clear_value jp
  infer_instance

instance (source : String) : Located file text (wholeProgram source) := by
  unfold wholeProgram
  refine located_bind inferInstance fun _ => located_bind inferInstance fun n => ?_
  refine ⟨(locates_outlines n).bind fun modules hmodules => ?_⟩
  refine (locates_mapM fun o ho => locates_contents (hmodules o ho)).bind fun bodies hbodies => ?_
  refine (located_forM fun b hb => ?_).locates
  obtain ⟨l, hl, hb⟩ := List.mem_flatten.mp hb
  unfold body
  exact located_bind (located_moveTo (hbodies l hl b hb)) inferInstance

end Parser

variable {file : FileId} {text : String}

/-- The lexer's answer cuts the whole text. -/
theorem cutting_lex : Cutting file 0 text.toList (lex file text) :=
  cutting_lexFrom file 0 text.toList

/-- Reading starts at a place in the text. -/
theorem within_start {tokens : List Token} (h : lex file text = .ok tokens) :
    (Cursor.start file tokens).Within file text where
  before :=
    have hstart : Text.IsBoundary text 0 :=
      Text.isBoundary_of_toList_eq (List.nil_append _).symm
    ⟨rfl, Nat.le_refl 0, hstart, hstart⟩
  rest t ht := by
    have hpartition := cutting_lex.partition (List.nil_append _).symm rfl h
    obtain ⟨hfile, -, after, hbetween⟩ := hpartition.placed t ht
    exact .of_between hfile hbetween

/-- What is wrong with a text is reported at characters of it, and what is read from it stands
there. -/
theorem locates_parseFile (file : FileId) (text : String) :
    match parseFile file text with
    | .error d => d.span.Within file text
    | .ok p => p.Placed (Span.Fits file text) := by
  unfold parseFile
  cases htokens : lex file text with
  | error d =>
      obtain ⟨hfile, inside, after, hbetween⟩ :=
        cutting_lex.between_of_error (List.nil_append _).symm rfl htokens
      exact .of_between hfile hbetween
  | ok tokens =>
      have hread : Parser.Located file text (Parser.wholeProgram text) := inferInstance
      have hrun :=
        hread.locates ⟨.start file tokens, {}⟩ ⟨within_start htokens, Program.placed_empty⟩
      cases h : (Parser.wholeProgram text).run ⟨.start file tokens, {}⟩ with
      | error d =>
          rw [h] at hrun
          simp only [bind, Except.bind, h]
          exact hrun
      | ok r =>
          rw [h] at hrun
          simp only [bind, Except.bind, h]
          exact hrun.1.program

end SignalGraph.Heart

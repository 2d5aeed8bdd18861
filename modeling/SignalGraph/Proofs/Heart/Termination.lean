import SignalGraph.Proofs.Heart.Nesting
import SignalGraph.Proofs.Heart.Partition

/-!
# SignalGraph.Proofs.Heart.Termination

Parsing comes to an end (`parsing_terminates`).  In a text whose tokens end with their only end of
the text, every parser that is started at a token fails or ends at a token; those of types,
constants, expressions, statements, blocks and items end at a later one.  So do the rounds of every
loop, unless the loop is over.  The second and the third pass start at places that the passes before
them have recorded, and those are places of the text.
-/

namespace SignalGraph.Heart

/-! ## Places in the text -/

/-- The end of the text stands at the end of the tokens and nowhere else. -/
def EndsAtEof (tokens : List Token) : Prop :=
  ∃ init last, tokens = init ++ [last] ∧ last.kind = .eof ∧ ∀ t ∈ init, t.kind ≠ .eof

namespace Cursor

variable {tokens : List Token} {i : Nat} {c c' : Cursor}

/-- The place is before token `i`, which is at most the last one. -/
structure At (tokens : List Token) (i : Nat) (c : Cursor) : Prop where
  lt_length : i < tokens.length
  rest : c.rest = tokens.drop i

/-- The place is before one of the tokens. -/
def In (tokens : List Token) (c : Cursor) : Prop := ∃ i, c.At tokens i

/-- A position among tokens that end with the last one is followed by the end. -/
theorem At.ended (h : c.At tokens i) (htokens : EndsAtEof tokens) : c.Ended := by
  obtain ⟨init, last, rfl, hlast, -⟩ := htokens
  refine ⟨last, ?_, hlast⟩
  have hi : i ≤ init.length := by simpa [Nat.lt_succ_iff] using h.lt_length
  rw [h.rest, List.drop_append_of_le_length hi]
  exact List.mem_append_right _ (List.mem_singleton_self last)

/-- Passing tokens leads to a place further on. -/
theorem At.of_passed {ts : List Token} (h : c.At tokens i) (hpassed : c.Passed ts c')
    (hended : c'.Ended) : c'.At tokens (i + ts.length) := by
  have hrest : c'.rest = tokens.drop (i + ts.length) := by
    rw [← List.drop_drop, ← h.rest, hpassed.rest, List.drop_left]
  refine ⟨?_, hrest⟩
  obtain ⟨t, ht, -⟩ := hended
  rw [hrest] at ht
  refine Nat.lt_of_not_le fun hle => ?_
  rw [List.drop_eq_nil_of_le hle] at ht
  cases ht

end Cursor

namespace Parser

variable {α β σ : Type} {tokens : List Token}

/-- Started before a token of the text, the parser fails or ends before a token of the text, at
least as many tokens further on as its answer requires. -/
def Progresses (tokens : List Token) (least : α → Nat) (x : Parser α) : Prop :=
  ∀ s i, s.cursor.At tokens i → ∀ a s', x.run s = .ok (a, s') →
    ∃ j, i + least a ≤ j ∧ s'.cursor.At tokens j

/-- A parser that takes tokens moves on by as many. -/
theorem Takes.progresses {n : Nat} {x : Parser α} (hx : Takes n x) (htokens : EndsAtEof tokens) :
    Progresses tokens (fun _ => n) x := by
  intro s i h a s' hrun
  obtain ⟨ts, hts, hpassed, hended⟩ := hx.takesAt s (h.ended htokens) a s' hrun
  exact ⟨i + ts.length, Nat.add_le_add_left hts i, h.of_passed hpassed hended⟩

/-- A round that advances moves on unless it is the last one. -/
theorem Advances.progresses {x : Parser (Round σ α)} (hx : Advances x)
    (htokens : EndsAtEof tokens) : Progresses tokens Round.least x := by
  intro s i h r s' hrun
  obtain ⟨ts, hts, hpassed, hended⟩ := hx.advancesAt s (h.ended htokens) r s' hrun
  exact ⟨i + ts.length, Nat.add_le_add_left hts i, h.of_passed hpassed hended⟩

/-! ## The parsers -/

/-- One member of a struct. -/
def structMember (id : StructId) : Parser Unit := do
  let first ← current
  let ty ← type
  let name ← identifier
  let _ ← expect .semicolon
  let p ← lift ((← program).addMember id name ty (← spanFrom first))
  modifyProgram fun _ => p

/-- Reading a struct: its name, then its members, each of them added as it is read. -/
theorem structItem_eq (m : ModuleId) : structItem m = (do
    expectKeyword "struct"
    let t ← current
    let name ← identifier
    match (← program).findStruct? m name with
    | none => fail (.unknownName "struct" name) t.span
    | some id =>
      let _ ← expect .leftBrace
      untilClosed .rightBrace (structMember id)) := rfl

instance (id : StructId) : Takes 1 (structMember id) := by unfold structMember; infer_instance

/-- The parsers, each with the least number of tokens that it takes if it does not fail. -/
inductive Production : Nat → {α : Type} → Parser α → Prop
  | advance : Production 0 advance
  | eat (kind : TokenKind) : Production 0 (eat kind)
  | eatKeyword (word : String) : Production 0 (eatKeyword word)
  | expect {kind : TokenKind} (hkind : kind ≠ .eof) : Production 1 (expect kind)
  | expectKeyword (word : String) : Production 1 (expectKeyword word)
  | identifier : Production 1 identifier
  | natural : Production 1 natural
  | wide : Production 1 wide
  | untilClosed (close : TokenKind) (item : Parser Unit) [Takes 0 item] :
      Production 0 (untilClosed close item)
  | commaList {α : Type} (close : TokenKind) (item : Parser α) [Takes 0 item] :
      Production 0 (commaList close item)
  | skipBalanced (opening closing : TokenKind) : Production 0 (skipBalanced opening closing)
  | qualifiedName : Production 1 qualifiedName
  | arraySuffixes (n : Nat) (t : Ty) : Production 0 (arraySuffixes n t)
  | plainType : Production 1 plainType
  | type : Production 1 type
  | constantTo (n : Nat) : Production 1 (constantTo n)
  | constant : Production 1 constant
  | internedConstant : Production 1 internedConstant
  | property : Production 1 property
  | annotations : Production 0 annotations
  | functionRef : Production 1 functionRef
  | arguments (scope : Scope) (n : Nat) : Production 1 (arguments (exprTo scope n))
  | localVariable (scope : Scope) : Production 0 (localVariable scope)
  | castExpr (scope : Scope) (n : Nat) : Production 1 (castExpr (exprTo scope n))
  | pureCall (scope : Scope) (n : Nat) : Production 1 (pureCall (exprTo scope n))
  | processorProperty : Production 1 processorProperty
  | unaryExpr (scope : Scope) (n : Nat) (op : UnaryOp) :
      Production 1 (unaryExpr (exprTo scope n) op)
  | binaryExpr (scope : Scope) (n : Nat) (op : BinaryOp) :
      Production 1 (binaryExpr (exprTo scope n) op)
  | pathOrConstant : Production 1 pathOrConstant
  | wordExpr (scope : Scope) (n : Nat) : Production 1 (wordExpr (exprTo scope n))
  | primaryExpr (scope : Scope) (n : Nat) : Production 1 (primaryExpr scope (exprTo scope n))
  | indexed (scope : Scope) (n : Nat) (e : Expr) : Production 1 (indexed (exprTo scope n) e)
  | selections (scope : Scope) (n k : Nat) (e : Expr) :
      Production 0 (selections (exprTo scope n) k e)
  | exprTo (scope : Scope) (n : Nat) : Production 1 (exprTo scope n)
  | expr (scope : Scope) : Production 1 (expr scope)
  | call (scope : Scope) : Production 1 (call scope)
  | write (scope : Scope) : Production 1 (write scope)
  | store (scope : Scope) : Production 1 (store scope)
  | bareStatement (scope : Scope) : Production 0 (bareStatement scope)
  | statement (scope : Scope) : Production 1 (statement scope)
  | blockRef (scope : Scope) : Production 1 (blockRef scope)
  | branchTarget (scope : Scope) : Production 1 (branchTarget scope)
  | terminator (scope : Scope) : Production 0 (terminator scope)
  | declaredVariable (role : VariableRole) : Production 1 (declaredVariable role)
  | blockBody (scope : Scope) (f : FunctionId) (b : BlockId) : Production 0 (blockBody scope f b)
  | block (f : FunctionId) (scope : Scope) : Production 1 (block f scope)
  | blocks (f : FunctionId) (n : Nat) (scope : Scope) : Production 0 (blocks f n scope)
  | declareBlocks (f : FunctionId) (scope : Scope) : Production 0 (declareBlocks f scope)
  | localRole : Production 0 localRole
  | locals (f : FunctionId) (n : Nat) (scope : Scope) : Production 0 (locals f n scope)
  | functionBody (f : FunctionId) : Production 1 (functionBody f)
  | optionalIndex : Production 0 optionalIndex
  | structMember (id : StructId) : Production 1 (structMember id)
  | structItem (m : ModuleId) : Production 1 (structItem m)
  | endpointPath : Production 0 endpointPath
  | endpointDetails : Production 0 endpointDetails
  | endpointItem (m : ModuleId) : Production 1 (endpointItem m)
  | parameterItem (m : ModuleId) : Production 1 (parameterItem m)
  | stateItem (m : ModuleId) : Production 1 (stateItem m)
  | clockRatio : Production 0 clockRatio
  | nodeItem (m : ModuleId) : Production 1 (nodeItem m)
  | endpointRef (m : ModuleId) : Production 1 (endpointRef m)
  | interpolation : Production 0 interpolation
  | connectionItem (m : ModuleId) : Production 1 (connectionItem m)
  | functionParameter : Production 1 functionParameter
  | functionItem (m : ModuleId) : Production 1 (functionItem m)
  | item (m : ModuleId) : Production 1 (item m)
  | items (m : ModuleId) (n : Nat) : Production 0 (items m n)
  | structNames (m : ModuleId) (n depth : Nat) : Production 0 (structNames m n depth)
  | outline : Production 1 outline
  | outlines (n : Nat) : Production 0 (outlines n)
  | header (text : String) : Production 0 (header text)

/-- Every production takes as many tokens as it is listed with. -/
theorem Production.takes {n : Nat} {x : Parser α} (h : Production n x) : Takes n x := by
  cases h with
  | expect hkind => exact takes_expect hkind
  | _ => infer_instance

/-- The loops of the parsers: the least number of tokens that a round takes if it does not fail, one
round, and the loop with a bound on the number of rounds.  The rounds that need not take a token
only look whether the loop goes on. -/
inductive ParserLoop :
    Nat → {σ α : Type} → (σ → Parser (Round σ α)) → (Nat → σ → Parser α) → Prop
  | untilClosed {close : TokenKind} (hclose : close ≠ .eof) (item : Parser Unit) [Takes 1 item] :
      ParserLoop 1 (fun _ => untilClosedRound close item)
        (fun n (_ : Unit) => untilClosed.go close item n)
  | commaList {α : Type} {close : TokenKind} (hclose : close ≠ .eof) (item : Parser α)
      [Takes 0 item] :
      ParserLoop 1 (fun _ => commaRound close item) (fun n (_ : Unit) => commaList.go close item n)
  | skipBalanced (opening closing : TokenKind) :
      ParserLoop 1 (skipRound opening closing)
        (fun n depth => skipBalanced.go opening closing depth n)
  | qualifiedName : ParserLoop 0 nameRound (fun n name => qualifiedName.go name n)
  | arraySuffixes : ParserLoop 0 suffixRound arraySuffixes
  | selections (scope : Scope) (n : Nat) :
      ParserLoop 0 (selectionRound (exprTo scope n)) (selections (exprTo scope n))
  | endpointPath : ParserLoop 1 (fun _ => pathRound) (fun n (_ : Unit) => endpointPath.go n)
  | locals (f : FunctionId) : ParserLoop 0 (localRound f) (locals f)
  | blockBody (f : FunctionId) (scope : Scope) (b : BlockId) :
      ParserLoop 1 (fun _ => statementRound f scope b)
        (fun n (_ : Unit) => blockBody.go scope f b n)
  | blocks (f : FunctionId) : ParserLoop 1 (blockRound f) (blocks f)
  | items (m : ModuleId) : ParserLoop 1 (fun _ => itemRound m) (fun n (_ : Unit) => items m n)
  | structNames (m : ModuleId) : ParserLoop 1 (structNameRound m) (structNames m)
  | outlines : ParserLoop 0 (fun _ => outlineRound) (fun n (_ : Unit) => outlines n)

section

variable {n : Nat} {round : σ → Parser (Round σ α)} {loop : Nat → σ → Parser α}

/-- Every loop finishes. -/
theorem ParserLoop.finishes (h : ParserLoop n round loop) : Finishes round loop := by
  cases h with
  | untilClosed hclose item => exact untilClosed_finishes _
  | commaList hclose item => exact commaList_finishes _
  | skipBalanced opening closing => exact skipBalanced_finishes opening closing
  | qualifiedName => exact qualifiedName_finishes
  | arraySuffixes => exact arraySuffixes_finishes
  | selections scope n => exact selections_finishes _
  | endpointPath => exact endpointPath_finishes
  | locals f => exact locals_finishes f
  | blockBody f scope b => exact blockBody_finishes f scope b
  | blocks f => exact blocks_finishes f
  | items m => exact items_finishes m
  | structNames m => exact structNames_finishes m
  | outlines => exact outlines_finishes

/-- The rounds of every loop take as many tokens as it is listed with. -/
theorem ParserLoop.takes (h : ParserLoop n round loop) (a : σ) : Takes n (round a) := by
  cases h with
  | untilClosed hclose item => exact takes_untilClosedRound _ hclose
  | commaList hclose item => exact takes_commaRound _ hclose
  | qualifiedName => exact qualifiedName_finishes.takes a
  | arraySuffixes => exact arraySuffixes_finishes.takes a
  | selections scope n => exact (selections_finishes _).takes a
  | locals f => exact (locals_finishes f).takes a
  | outlines => exact outlines_finishes.takes a
  | _ => infer_instance

end

/-! ## Recorded places -/

section

variable {s s' : ParserState} {x : Parser α} {f : α → Parser β} {a : α} {b : β} {m : ModuleId}

/-- A parser that stays within the text. -/
theorem in_of_run [hx : Takes 0 x] (htokens : EndsAtEof tokens) (h : s.cursor.In tokens)
    (hrun : x.run s = .ok (a, s')) : s'.cursor.In tokens := by
  obtain ⟨i, hi⟩ := h
  obtain ⟨j, -, hj⟩ := hx.progresses htokens s i hi a s' hrun
  exact ⟨j, hj⟩

/-- After a parser the cursor is among the same tokens. -/
theorem in_of_run_bind [Takes 0 x] (htokens : EndsAtEof tokens) (h : s.cursor.In tokens)
    (hrun : (x >>= f).run s = .ok (b, s')) :
    ∃ a s₁, s₁.cursor.In tokens ∧ (f a).run s₁ = .ok (b, s') := by
  obtain ⟨a, s₁, hx, hf⟩ := run_bind_eq_ok.mp hrun
  exact ⟨a, s₁, in_of_run htokens h hx, hf⟩

/-- The places of a module are places in the text. -/
def Outline.In (tokens : List Token) (o : Outline) : Prop :=
  o.annotations.In tokens ∧ o.body.In tokens

/-- The cursors of an outline are among the tokens. -/
theorem outline_in (htokens : EndsAtEof tokens) {o : Outline} (h : s.cursor.In tokens)
    (hrun : outline.run s = .ok (o, s')) : o.In tokens := by
  unfold outline at hrun
  rw [run_current_bind] at hrun
  split at hrun
  · cases hrun
  · obtain ⟨_, s₁, h₁, hrun⟩ := in_of_run_bind htokens h hrun
    obtain ⟨name, s₂, h₂, hrun⟩ := in_of_run_bind htokens h₁ hrun
    obtain ⟨span, s₃, h₃, hrun⟩ := in_of_run_bind htokens h₂ hrun
    obtain ⟨id, s₄, h₄, hrun⟩ := in_of_run_bind htokens h₃ hrun
    obtain ⟨_, s₅, h₅, hrun⟩ := in_of_run_bind htokens h₄ hrun
    rw [run_cursor_bind, run_at_bind] at hrun
    extract_lets jp at hrun
    have hjp : ∀ s₆ r, s₆.cursor.In tokens → (jp r).run s₆ = .ok (o, s') → o.In tokens := by
      intro s₆ r h₆ hrun
      unfold jp at hrun
      obtain ⟨_, s₇, h₇, hrun⟩ := in_of_run_bind htokens h₆ hrun
      rw [run_cursor_bind] at hrun
      obtain ⟨n, s₈, -, hrun⟩ := in_of_run_bind htokens h₇ hrun
      obtain ⟨_, s₉, -, hrun⟩ := run_bind_eq_ok.mp hrun
      obtain ⟨rfl, -⟩ := run_pure_eq_ok.mp hrun
      exact ⟨h₅, h₇⟩
    clear_value jp
    split at hrun
    · obtain ⟨r, s₆, h₆, hrun⟩ := in_of_run_bind htokens h₅ hrun
      exact hjp s₆ r h₆ hrun
    · exact hjp s₅ _ h₅ hrun

/-- The cursors of all outlines are among the tokens, by induction on the fuel. -/
theorem outlines_in (htokens : EndsAtEof tokens) {n : Nat} {l : List Outline}
    (h : s.cursor.In tokens) (hrun : (outlines n).run s = .ok (l, s')) : ∀ o ∈ l, o.In tokens := by
  induction n generalizing s s' l with
  | zero =>
      obtain ⟨rfl, -⟩ := run_pure_eq_ok.mp hrun
      exact List.forall_mem_nil _
  | succ n ih =>
      rw [outlines, run_at_bind] at hrun
      split at hrun
      · obtain ⟨rfl, -⟩ := run_pure_eq_ok.mp hrun
        exact List.forall_mem_nil _
      · obtain ⟨o, s₁, ho, hrun⟩ := run_bind_eq_ok.mp hrun
        obtain ⟨os, s₂, hos, hrun⟩ := run_bind_eq_ok.mp hrun
        obtain ⟨rfl, -⟩ := run_pure_eq_ok.mp hrun
        have h₁ : s₁.cursor.In tokens := in_of_run htokens h ho
        exact List.forall_mem_cons.mpr ⟨outline_in htokens h ho, ih h₁ hos⟩

/-- The cursor of a body that is read later is among the tokens. -/
theorem functionItem_in (htokens : EndsAtEof tokens) {pending : Option PendingBody}
    (h : s.cursor.In tokens) (hrun : (functionItem m).run s = .ok (pending, s')) :
    ∀ b ∈ pending, b.start.In tokens := by
  unfold functionItem at hrun
  obtain ⟨first, s₁, h₁, hrun⟩ := in_of_run_bind htokens h hrun
  obtain ⟨keyword, s₂, h₂, hrun⟩ := in_of_run_bind htokens h₁ hrun
  obtain ⟨name, s₃, h₃, hrun⟩ := in_of_run_bind htokens h₂ hrun
  obtain ⟨_, s₄, h₄, hrun⟩ := in_of_run_bind htokens h₃ hrun
  obtain ⟨parameters, s₅, h₅, hrun⟩ := in_of_run_bind htokens h₄ hrun
  obtain ⟨_, s₆, h₆, hrun⟩ := in_of_run_bind htokens h₅ hrun
  obtain ⟨returns, s₇, h₇, hrun⟩ := in_of_run_bind htokens h₆ hrun
  obtain ⟨p, s₈, h₈, hrun⟩ := in_of_run_bind htokens h₇ hrun
  extract_lets inProcessor kind at hrun
  obtain ⟨annotations, s₉, h₉, hrun⟩ := in_of_run_bind htokens h₈ hrun
  obtain ⟨span, s₁₀, h₁₀, hrun⟩ := in_of_run_bind htokens h₉ hrun
  obtain ⟨id, s₁₁, h₁₁, hrun⟩ := in_of_run_bind htokens h₁₀ hrun
  obtain ⟨bodiless, s₁₂, h₁₂, hrun⟩ := in_of_run_bind htokens h₁₁ hrun
  split at hrun
  · obtain ⟨rfl, -⟩ := run_pure_eq_ok.mp hrun
    exact nofun
  · rw [run_cursor_bind] at hrun
    obtain ⟨_, s₁₃, -, hrun⟩ := run_bind_eq_ok.mp hrun
    obtain ⟨rfl, -⟩ := run_pure_eq_ok.mp hrun
    rintro b ⟨⟩
    exact h₁₂

/-- The cursor of a body that is read later is among the tokens, whatever the item. -/
theorem item_in (htokens : EndsAtEof tokens) {pending : Option PendingBody} (h : s.cursor.In tokens)
    (hrun : (item m).run s = .ok (pending, s')) : ∀ b ∈ pending, b.start.In tokens := by
  have hnone : ∀ x : Parser Unit, (do x; return none).run s = .ok (pending, s') →
      ∀ b ∈ pending, b.start.In tokens := by
    intro x hrun
    obtain ⟨_, s₁, -, hrun⟩ := run_bind_eq_ok.mp hrun
    obtain ⟨rfl, -⟩ := run_pure_eq_ok.mp hrun
    exact nofun
  unfold item at hrun
  rw [run_current_bind] at hrun
  split at hrun
  iterate 8 exact hnone _ hrun
  iterate 3 exact functionItem_in htokens h hrun
  cases hrun

/-- The cursors of all bodies of a module are among the tokens, by induction on the fuel. -/
theorem items_in (htokens : EndsAtEof tokens) {n : Nat} {l : List PendingBody}
    (h : s.cursor.In tokens) (hrun : (items m n).run s = .ok (l, s')) :
    ∀ b ∈ l, b.start.In tokens := by
  induction n generalizing s s' l with
  | zero => cases hrun
  | succ n ih =>
      obtain ⟨closed, s₁, h₁, hrun⟩ := in_of_run_bind htokens h hrun
      split at hrun
      · obtain ⟨rfl, -⟩ := run_pure_eq_ok.mp hrun
        exact List.forall_mem_nil _
      · obtain ⟨pending, s₂, hitem, hrun⟩ := run_bind_eq_ok.mp hrun
        obtain ⟨later, s₃, hlater, hrun⟩ := run_bind_eq_ok.mp hrun
        obtain ⟨rfl, -⟩ := run_pure_eq_ok.mp hrun
        intro b hb
        rcases List.mem_append.mp hb with hb | hb
        · exact item_in htokens h₁ hitem b (Option.mem_toList.mp hb)
        · exact ih (in_of_run htokens h₁ hitem) hlater b hb

end

/-! ## The passes -/

section

variable {s s' : ParserState}

/-- After the contents of a module all cursors are among the tokens. -/
theorem contents_in (htokens : EndsAtEof tokens) {o : Outline} {l : List PendingBody}
    (ho : o.In tokens) (hrun : (contents o).run s = .ok (l, s')) :
    s'.cursor.In tokens ∧ ∀ b ∈ l, b.start.In tokens := by
  unfold contents at hrun
  rw [run_moveTo_bind] at hrun
  obtain ⟨annotations, s₁, -, hrun⟩ := run_bind_eq_ok.mp hrun
  rw [run_modifyProgram_bind, run_moveTo_bind, run_bound_bind] at hrun
  exact ⟨in_of_run htokens ho.2 hrun, items_in htokens ho.2 hrun⟩

/-- After the contents of all modules all cursors are among the tokens. -/
theorem mapM_contents_in (htokens : EndsAtEof tokens) {modules : List Outline}
    {bodies : List (List PendingBody)} (hmodules : ∀ o ∈ modules, o.In tokens)
    (h : s.cursor.In tokens) (hrun : (modules.mapM contents).run s = .ok (bodies, s')) :
    s'.cursor.In tokens ∧ ∀ l ∈ bodies, ∀ b ∈ l, b.start.In tokens := by
  induction modules generalizing s s' bodies with
  | nil =>
      rw [List.mapM_nil] at hrun
      obtain ⟨rfl, rfl⟩ := run_pure_eq_ok.mp hrun
      exact ⟨h, List.forall_mem_nil _⟩
  | cons o modules ih =>
      obtain ⟨ho, hmodules⟩ := List.forall_mem_cons.mp hmodules
      rw [List.mapM_cons] at hrun
      obtain ⟨l, s₁, hl, hrun⟩ := run_bind_eq_ok.mp hrun
      obtain ⟨later, s₂, hlater, hrun⟩ := run_bind_eq_ok.mp hrun
      obtain ⟨rfl, rfl⟩ := run_pure_eq_ok.mp hrun
      obtain ⟨h₁, hbodies⟩ := contents_in htokens ho hl
      obtain ⟨h₂, hbodies'⟩ := ih hmodules h₁ hlater
      exact ⟨h₂, List.forall_mem_cons.mpr ⟨hbodies, hbodies'⟩⟩

/-- After a body the cursor is among the tokens. -/
theorem body_in (htokens : EndsAtEof tokens) {b : PendingBody} {a : Unit} (hb : b.start.In tokens)
    (hrun : (body b).run s = .ok (a, s')) : s'.cursor.In tokens := by
  unfold body at hrun
  rw [run_moveTo_bind] at hrun
  exact in_of_run htokens hb hrun

/-- After all bodies the cursor is among the tokens. -/
theorem forM_body_in (htokens : EndsAtEof tokens) {bodies : List PendingBody} {a : Unit}
    (hbodies : ∀ b ∈ bodies, b.start.In tokens) (h : s.cursor.In tokens)
    (hrun : (bodies.forM body).run s = .ok (a, s')) : s'.cursor.In tokens := by
  induction bodies generalizing s with
  | nil =>
      obtain ⟨-, rfl⟩ := run_pure_eq_ok.mp hrun
      exact h
  | cons b bodies ih =>
      obtain ⟨hb, hbodies⟩ := List.forall_mem_cons.mp hbodies
      obtain ⟨_, s₁, hbody, hrun⟩ := run_bind_eq_ok.mp hrun
      exact ih hbodies (body_in htokens hb hbody) hrun

/-- After a whole program the cursor is among the tokens. -/
theorem wholeProgram_in (htokens : EndsAtEof tokens) {text : String} {a : Unit}
    (h : s.cursor.In tokens) (hrun : (wholeProgram text).run s = .ok (a, s')) :
    s'.cursor.In tokens := by
  unfold wholeProgram at hrun
  obtain ⟨_, s₁, h₁, hrun⟩ := in_of_run_bind htokens h hrun
  rw [run_bound_bind] at hrun
  obtain ⟨modules, s₂, hmodules, hrun⟩ := run_bind_eq_ok.mp hrun
  obtain ⟨bodies, s₃, hbodies, hrun⟩ := run_bind_eq_ok.mp hrun
  have h₂ : s₂.cursor.In tokens := in_of_run htokens h₁ hmodules
  obtain ⟨h₃, hin⟩ := mapM_contents_in htokens (outlines_in htokens h₁ hmodules) h₂ hbodies
  refine forM_body_in htokens (fun b hb => ?_) h₃ hrun
  obtain ⟨l, hl, hb⟩ := List.mem_flatten.mp hb
  exact hin l hl b hb

end

/-- The later passes start before tokens of the text and end before tokens of the text. -/
structure PassesStay (tokens : List Token) : Prop where
  outlines : ∀ n s l s', s.cursor.In tokens → (outlines n).run s = .ok (l, s') →
    ∀ o ∈ l, o.In tokens
  contents : ∀ o s l s', o.In tokens → (contents o).run s = .ok (l, s') →
    s'.cursor.In tokens ∧ ∀ b ∈ l, b.start.In tokens
  body : ∀ b s a s', b.start.In tokens → (body b).run s = .ok (a, s') → s'.cursor.In tokens
  wholeProgram : ∀ text s a s', s.cursor.In tokens → (wholeProgram text).run s = .ok (a, s') →
    s'.cursor.In tokens

end Parser

/-! ## Every text -/

/-- What comes of parsing a text: it is no list of tokens, or a parser fails, or there is a program
and the parser has ended before a token of the text. -/
inductive ParseOutcome (file : FileId) (text : String) : Except Diagnostic Program → Prop
  | unlexed {d : Diagnostic} (hlex : lex file text = .error d) : ParseOutcome file text (.error d)
  | failed {tokens : List Token} {d : Diagnostic} (hlex : lex file text = .ok tokens)
      (htokens : EndsAtEof tokens)
      (hrun : (Parser.wholeProgram text).run ⟨.start file tokens, {}⟩ = .error d) :
      ParseOutcome file text (.error d)
  | parsed {tokens : List Token} {s : ParserState} (hlex : lex file text = .ok tokens)
      (htokens : EndsAtEof tokens)
      (hrun : (Parser.wholeProgram text).run ⟨.start file tokens, {}⟩ = .ok ((), s))
      (hend : s.cursor.In tokens) : ParseOutcome file text (.ok s.program)

/-- The lexer puts the end at the end and nowhere else. -/
theorem endsAtEof_of_lex {file : FileId} {text : String} {tokens : List Token}
    (h : lex file text = .ok tokens) : EndsAtEof tokens := by
  have hcutting : Cutting file 0 text.toList (lex file text) := cutting_lexFrom file 0 text.toList
  obtain ⟨init, rfl, hinit⟩ := (hcutting.partition (List.nil_append _).symm rfl h).ending
  exact ⟨init, _, rfl, rfl, hinit⟩

/-- Parsing starts at the first token. -/
theorem start_at (file : FileId) {tokens : List Token} (h : EndsAtEof tokens) :
    (Cursor.start file tokens).At tokens 0 := by
  obtain ⟨init, last, rfl, -⟩ := h
  exact ⟨by simp, rfl⟩

/-- Every text is parsed to a program or to an error. -/
theorem parseOutcome (file : FileId) (text : String) :
    ParseOutcome file text (parseFile file text) := by
  unfold parseFile
  cases hlex : lex file text with
  | error d => exact .unlexed hlex
  | ok tokens =>
      have htokens := endsAtEof_of_lex hlex
      cases hrun : (Parser.wholeProgram text).run ⟨.start file tokens, {}⟩ with
      | error d =>
          simp only [bind, Except.bind, hrun]
          exact .failed hlex htokens hrun
      | ok r =>
          simp only [bind, Except.bind, hrun]
          exact .parsed hlex htokens hrun
            (Parser.wholeProgram_in htokens ⟨0, start_at file htokens⟩ hrun)

/-- Parsers stay within the text and move on through it, loops and nesting come to an end with the
text, and so there is a program or a diagnostic for every text. -/
theorem parsing_terminates {tokens : List Token} (htokens : EndsAtEof tokens) :
    (∀ (α : Type) (n : Nat) (x : Parser α), Parser.Production n x →
      Parser.Progresses tokens (fun _ => n) x) ∧
    Parser.PassesStay tokens ∧
    (∀ (σ α : Type) (n : Nat) (round : σ → Parser (Parser.Round σ α)) (loop : Nat → σ → Parser α),
      Parser.ParserLoop n round loop →
        (∀ a, Parser.Progresses tokens (fun _ => n) (round a)) ∧
        (∀ a, Parser.Progresses tokens Parser.Round.least (round a)) ∧
        Parser.Bounded (Parser.roundThen round) loop) ∧
    Parser.Bounded Parser.constantStep (fun n _ => Parser.constantTo n) ∧
    (∀ scope, Parser.Bounded (Parser.exprStep scope) (fun n _ => Parser.exprTo scope n)) ∧
    ∀ file text, ParseOutcome file text (parseFile file text) := by
  refine ⟨fun _ _ _ hx => hx.takes.progresses htokens, ?_, fun _ _ _ _ _ hloop => ?_,
    Parser.constantTo_bounded, Parser.exprTo_bounded, parseOutcome⟩
  · exact ⟨fun _ _ _ _ => Parser.outlines_in htokens, fun _ _ _ _ => Parser.contents_in htokens,
      fun _ _ _ _ => Parser.body_in htokens, fun _ _ _ _ => Parser.wholeProgram_in htokens⟩
  · exact ⟨fun a => (hloop.takes a).progresses htokens,
      fun a => (hloop.finishes.advances a).progresses htokens, hloop.finishes.bounded⟩

/-- The tokens of `int32 ;`. -/
def typeThenSemicolon : List Token :=
  [⟨.identifier, "int32", ⟨⟨0⟩, 0, 5⟩⟩, ⟨.semicolon, ";", ⟨⟨0⟩, 6, 7⟩⟩, .eof ⟨0⟩ 7]

/-- The type of a short text is read, and the cursor moves on. -/
theorem parsing_terminates_type : EndsAtEof typeThenSemicolon ∧
    ∃ s', Parser.type.run ⟨.start ⟨0⟩ typeThenSemicolon, {}⟩ = .ok (.prim .int32, s') ∧
      ∃ j, 0 + 1 ≤ j ∧ s'.cursor.At typeThenSemicolon j := by
  have htokens : EndsAtEof typeThenSemicolon := ⟨typeThenSemicolon.dropLast, _, rfl, rfl, by decide⟩
  have hrun : Parser.type.run ⟨.start ⟨0⟩ typeThenSemicolon, {}⟩ =
      .ok (.prim .int32, ⟨Cursor.next (.start ⟨0⟩ typeThenSemicolon), {}⟩) := rfl
  exact ⟨htokens, _, hrun,
    (parsing_terminates htokens).1 _ 1 _ .type _ 0 (start_at _ htokens) _ _ hrun⟩

end SignalGraph.Heart

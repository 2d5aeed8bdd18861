import Mathlib.Data.List.Induction
import SignalGraph.Proofs.Heart.Bodies
import SignalGraph.Proofs.Heart.Following
import SignalGraph.Proofs.Heart.Labels

/-!
# SignalGraph.Proofs.Heart.WrittenBlocks

What the body of a function stores of the blocks that its text has.  `readBody` reads a body as the
parser does and also answers its blocks as they are written (`functionBody_eq`).  One block is
stored for every one of them, in their order (`hasBlocks_of_run_readBody`); if no label is repeated
then each is stored as it is written (`stored_of_nodup`).
-/

namespace SignalGraph

/-- Two changes of one entry are one change. -/
theorem Arena.modify_modify {e : Entity} {α : Type} (a : Arena e α) (h : Handle e) (f g : α → α) :
    (a.modify h f).modify h g = a.modify h (g ∘ f) := by
  refine Arena.ext_get? fun k => ?_
  simp only [Arena.get?_modify]
  split <;> simp [Function.comp_def]

/-- The functions are as they were. -/
def Program.SameFunctions (p q : Program) : Prop := q.functions = p.functions

namespace Program.SameFunctions

instance : IsPreorder Program SameFunctions where
  refl _ := rfl
  trans _ _ _ h h' := Eq.trans h' h

instance : AllowsVariables SameFunctions where
  intern _ _ := rfl
  internText _ _ := rfl
  addVariable _ _ := rfl

end Program.SameFunctions

namespace Heart.Parser

/-! ## Blocks as they are written -/

/-- A block as its text has it. -/
structure WrittenBlock where
  label : String
  parameters : List VariableId
  statements : List Statement
  terminator : Terminator
  span : Span

namespace WrittenBlock

/-- The block by itself. -/
def block (w : WrittenBlock) : Block :=
  { Block.ofName w.label with
    parameters := w.parameters
    statements := w.statements
    terminator := w.terminator
    span := w.span }

/-- A block after the text of another one was read into it. -/
def fill (w : WrittenBlock) (k : Block) : Block :=
  { k with
    parameters := k.parameters ++ w.parameters
    statements := k.statements ++ w.statements
    terminator := w.terminator
    span := w.span }

/-- What is stored of the blocks of a body.  Of those with one label only the last is filled, with
the text of them all; the others stay empty. -/
def stored (ws : List WrittenBlock) : List Block :=
  ws.mapIdx fun i w =>
    if (ws.drop (i + 1)).any (·.label == w.label) then .ofName w.label
    else (ws.filter (·.label == w.label)).foldl (fun k v => v.fill k) (.ofName w.label)

/-- A label that no other block has selects its own block. -/
theorem filter_label {ws : List WrittenBlock} (h : (ws.map (·.label)).Nodup) {w : WrittenBlock}
    (hw : w ∈ ws) : ws.filter (·.label == w.label) = [w] := by
  obtain ⟨before, after, rfl⟩ := List.append_of_mem hw
  rw [List.map_append, List.map_cons, List.nodup_append, List.nodup_cons] at h
  obtain ⟨-, ⟨hafter, -⟩, hbefore⟩ := h
  have hnone : ∀ l : List WrittenBlock, (∀ v ∈ l, v.label ≠ w.label) →
      l.filter (·.label == w.label) = [] := fun l hl =>
    List.filter_eq_nil_iff.mpr fun v hv => by simpa using hl v hv
  rw [List.filter_append, List.filter_cons_of_pos (by simp),
    hnone before fun v hv heq => hbefore _ (List.mem_map_of_mem hv) _ List.mem_cons_self heq,
    hnone after fun v hv heq => hafter (List.mem_map.mpr ⟨v, hv, heq⟩), List.nil_append]

/-- Blocks whose labels are distinct are stored as they are written. -/
theorem stored_of_nodup {ws : List WrittenBlock} (h : (ws.map (·.label)).Nodup) :
    stored ws = ws.map block := by
  refine List.ext_getElem (by simp [stored]) fun i hi hi' => ?_
  have hlt : i < ws.length := by simpa using hi'
  have hlater : (ws.drop (i + 1)).any (·.label == ws[i].label) = false := by
    rw [List.any_eq_false]
    intro w hw heq
    have hsplit : ((ws.take (i + 1) ++ ws.drop (i + 1)).map (·.label)).Nodup := by
      rwa [List.take_append_drop]
    rw [List.map_append, List.nodup_append] at hsplit
    have hi : ws[i] ∈ ws.take (i + 1) := List.mem_take_iff_getElem.mpr ⟨i, by omega, rfl⟩
    exact hsplit.2.2 _ (List.mem_map_of_mem hi) _ (List.mem_map_of_mem hw)
      (beq_iff_eq.mp heq).symm
  simp only [stored, List.getElem_mapIdx, List.getElem_map, hlater, Bool.false_eq_true, if_false,
    filter_label h (List.getElem_mem hlt), List.foldl_cons, List.foldl_nil]
  simp [fill, block, Block.ofName]

end WrittenBlock

/-! ## Reading with an account of it -/

/-- The statements of a block up to its terminator, with an account of them. -/
def readStatements (scope : Scope) (f : FunctionId) (b : BlockId) :
    Nat → Parser (List Statement × Terminator)
  | 0 => expected "an expression"
  | n + 1 => do
    match ← terminator scope with
    | some terminator =>
      let _ ← expect .semicolon
      modifyBlock f b fun k => { k with terminator }
      return ([], terminator)
    | none =>
      let s ← statement scope
      modifyBlock f b fun k => { k with statements := k.statements ++ [s] }
      let (statements, terminator) ← readStatements scope f b n
      return (s :: statements, terminator)

/-- The parameters of a block, in parentheses if there are any. -/
def blockParameters : Parser (List (String × VariableId)) := do
  if ← eat .leftParen then commaList .rightParen (declaredVariable .parameter) else return []

instance {R : Program → Program → Prop} [Program.AllowsVariables R] :
    Follows R blockParameters := by
  unfold blockParameters
  infer_instance

instance : Inline blockParameters := by unfold blockParameters; infer_instance

/-- One block, with an account of it. -/
def readBlock (f : FunctionId) (scope : Scope) : Parser (WrittenBlock × Scope) := do
  let first ← current
  let b ← blockRef scope
  let params ← blockParameters
  modifyBlock f b fun k => { k with parameters := k.parameters ++ params.map (·.2) }
  let _ ← expect .colon
  let span ← spanFrom first
  modifyBlock f b fun k => { k with span }
  let scope := { scope with vars := params.reverse ++ scope.vars }
  let (statements, terminator) ← readStatements scope f b (← bound)
  return (⟨first.text, params.map (·.2), statements, terminator, span⟩, scope)

/-- The blocks up to the brace that closes the body, with an account of them. -/
def readBlocks (f : FunctionId) : Nat → Scope → Parser (List WrittenBlock)
  | 0, _ => expected "block label"
  | n + 1, scope => do
    if ← eat .rightBrace then return []
    let (w, scope) ← readBlock f scope
    return w :: (← readBlocks f n scope)

/-- A body, with an account of its blocks. -/
def readBody (f : FunctionId) : Parser (List WrittenBlock) := do
  let p ← program
  let parameters := (p.functionAt f).parameters.map fun v => ((p.variableAt v).name, v)
  let _ ← expect .leftBrace
  let scope ← locals f (← bound) { vars := parameters.reverse }
  let scope ← declareBlocks f scope
  readBlocks f (← bound) scope

section

variable (scope : Scope) (f : FunctionId)

/-- Reading the statements of a block, without what is answered about them. -/
theorem blockBody_go_eq (b : BlockId) (n : Nat) :
    blockBody.go scope f b n = readStatements scope f b n >>= fun _ => pure () := by
  induction n with
  | zero => rfl
  | succ n ih =>
      rw [blockBody.go, readStatements, bind_assoc]
      refine bind_congr fun t => ?_
      cases t with
      | none => simp [ih]
      | some t => simp

/-- Reading a block, without what is answered about it. -/
theorem block_eq : block f scope = readBlock f scope >>= fun r => pure r.2 := by
  unfold block readBlock blockParameters
  simp only [bind_assoc]
  refine bind_congr fun first => bind_congr fun b => bind_congr fun opened => ?_
  cases opened <;>
    simp only [blockBody, blockBody_go_eq, bind_assoc, pure_bind, Bool.false_eq_true, if_true,
      if_false]

/-- Reading blocks, without what is answered about them. -/
theorem blocks_eq (n : Nat) : blocks f n scope = readBlocks f n scope >>= fun _ => pure () := by
  induction n generalizing scope with
  | zero => rfl
  | succ n ih =>
      rw [blocks, readBlocks, bind_assoc]
      refine bind_congr fun closed => ?_
      cases closed with
      | true => simp
      | false => simp [block_eq, ih]

/-- A body is read in the same way with and without an account of its blocks. -/
theorem functionBody_eq : functionBody f = readBody f >>= fun _ => pure () := by
  simp [functionBody, readBody, blocks_eq]

end

/-! ## What is stored -/

/-- The function is one of the program's and has these blocks. -/
structure HasBlocks (p : Program) (f : FunctionId) (stored : Arena .block Block) : Prop where
  inRange : f ∈ p.functions.handles
  blocks : (p.functionAt f).blocks = stored

namespace HasBlocks

variable {p q : Program} {f : FunctionId} {B : Arena .block Block}

/-- A function has its blocks as long as functions stay as they are. -/
theorem sameFunctions (h : HasBlocks p f B) (hq : p.SameFunctions q) : HasBlocks q f B := by
  have hfunctions : q.functions = p.functions := hq
  refine ⟨by rw [hfunctions]; exact h.inRange, ?_⟩
  rw [Program.functionAt, hfunctions]
  exact h.blocks

/-- A change of the function changes its blocks as it says. -/
theorem modifyFunction (h : HasBlocks p f B) {g : Function → Function}
    (k : Arena .block Block → Arena .block Block) (hg : ∀ fn, (g fn).blocks = k fn.blocks) :
    HasBlocks (p.modifyFunction f g) f (k B) := by
  refine ⟨?_, by rw [Program.functionAt_modifyFunction h.inRange, hg, h.blocks]⟩
  exact Arena.mem_handles_of_le h.inRange (by simp [Program.modifyFunction])

end HasBlocks

variable {s s' : ParserState} {α : Type}

/-- A parser that leaves functions as they are leaves the blocks. -/
theorem HasBlocks.run {f : FunctionId} {B : Arena .block Block} (h : HasBlocks s.program f B)
    {x : Parser α} [hx : Follows Program.SameFunctions x] {a : α} (hrun : x.run s = .ok (a, s')) :
    HasBlocks s'.program f B :=
  h.sameFunctions (hx.along s.program s.cursor a s' hrun).1

/-- Changing a block changes it in the table of the function. -/
theorem HasBlocks.run_modifyBlock {f : FunctionId} {B : Arena .block Block}
    (h : HasBlocks s.program f B) {b : BlockId} {change : Block → Block} {a : Unit}
    (hrun : (modifyBlock f b change).run s = .ok (a, s')) :
    HasBlocks s'.program f (B.modify b change) ∧ s'.cursor = s.cursor := by
  cases hrun
  exact ⟨h.modifyFunction (·.modify b change) fun _ => rfl, rfl⟩

section

variable {scope : Scope} {f : FunctionId} {B : Arena .block Block}

/-- A reference to a block is a label that is known. -/
theorem run_blockRef_eq_ok {b : BlockId} (h : (blockRef scope).run s = .ok (b, s')) :
    s.cursor.current.kind = .blockLabel ∧ scope.blocks.lookup s.cursor.current.text = some b ∧
      s' = { s with cursor := s.cursor.next } := by
  obtain ⟨t, s₁, ht, h⟩ := run_bind_eq_ok.mp h
  obtain ⟨hkind, rfl, rfl⟩ := run_expect_eq_ok ht
  split at h
  · next b' hlookup =>
    obtain ⟨rfl, rfl⟩ := run_pure_eq_ok.mp h
    exact ⟨hkind, hlookup, rfl⟩
  · exact (run_fail_ne_ok.mp h).elim

/-- The statements and the terminator that are read are stored in the block, by induction on the
fuel. -/
theorem hasBlocks_of_run_readStatements {b : BlockId} {n : Nat} {r : List Statement × Terminator}
    (h : (readStatements scope f b n).run s = .ok (r, s')) (hB : HasBlocks s.program f B) :
    HasBlocks s'.program f
        (B.modify b fun k => { k with statements := k.statements ++ r.1, terminator := r.2 }) ∧
      s'.cursor.labels = s.cursor.labels ∧ s'.cursor.AtBlock := by
  induction n generalizing s B r with
  | zero => cases h
  | succ n ih =>
      obtain ⟨t, s₁, ht, h⟩ := run_bind_eq_ok.mp h
      have hB₁ := hB.run ht
      have hlabels₁ := KeepsLabels.labels s t s₁ ht
      cases t with
      | some t =>
          obtain ⟨semicolon, s₂, hsemicolon, h⟩ := run_bind_eq_ok.mp h
          obtain ⟨_, s₃, hmodify, h⟩ := run_bind_eq_ok.mp h
          obtain ⟨rfl, rfl⟩ := run_pure_eq_ok.mp h
          obtain ⟨hB₃, hcursor⟩ := (hB₁.run hsemicolon).run_modifyBlock hmodify
          refine ⟨by simpa using hB₃, ?_, ?_⟩
          · rw [hcursor, KeepsLabels.labels s₁ semicolon s₂ hsemicolon, hlabels₁]
          · rw [hcursor]
            exact .inl (before_of_run_expect (by decide) hsemicolon)
      | none =>
          obtain ⟨a, s₂, ha, h⟩ := run_bind_eq_ok.mp h
          obtain ⟨_, s₃, hmodify, h⟩ := run_bind_eq_ok.mp h
          obtain ⟨r', s₄, hrest, h⟩ := run_bind_eq_ok.mp h
          obtain ⟨rfl, rfl⟩ := run_pure_eq_ok.mp h
          obtain ⟨hB₃, hcursor⟩ := (hB₁.run ha).run_modifyBlock hmodify
          obtain ⟨hB₄, hlabels₄, hat⟩ := ih hrest hB₃
          refine ⟨?_, ?_, hat⟩
          -- two changes of the block in a row are one
          · rw [Arena.modify_modify] at hB₄
            simpa [Function.comp_def, List.append_assoc] using hB₄
          · rw [hlabels₄, hcursor, KeepsLabels.labels s₁ a s₂ ha, hlabels₁]

/-- One block is read into the block of its label. -/
theorem hasBlocks_of_run_readBlock {w : WrittenBlock} {scope' : Scope}
    (h : (readBlock f scope).run s = .ok ((w, scope'), s')) (hB : HasBlocks s.program f B)
    (hat : s.cursor.AtBlock) :
    ∃ b, scope.blocks.lookup w.label = some b ∧ HasBlocks s'.program f (B.modify b w.fill) ∧
      s.cursor.labels = w.label :: s'.cursor.labels ∧ s'.cursor.AtBlock ∧
      scope'.blocks = scope.blocks := by
  obtain ⟨b, s₁, hb, h⟩ := run_bind_eq_ok.mp (run_current_bind ▸ h)
  obtain ⟨params, s₂, hparams, h⟩ := run_bind_eq_ok.mp h
  obtain ⟨_, s₃, hmodify₃, h⟩ := run_bind_eq_ok.mp h
  obtain ⟨colon, s₄, hcolon, h⟩ := run_bind_eq_ok.mp h
  obtain ⟨span, s₅, hspan, h⟩ := run_bind_eq_ok.mp h
  obtain ⟨_, s₆, hmodify₆, h⟩ := run_bind_eq_ok.mp h
  obtain ⟨r, s₇, hstatements, h⟩ := run_bind_eq_ok.mp (run_bound_bind ▸ h)
  obtain ⟨hw, rfl⟩ := run_pure_eq_ok.mp h
  obtain ⟨rfl, rfl⟩ := Prod.mk.inj hw
  have hB₂ := (hB.run hb).run hparams
  obtain ⟨hB₃, hcursor₃⟩ := hB₂.run_modifyBlock hmodify₃
  obtain ⟨hB₆, hcursor₆⟩ := ((hB₃.run hcolon).run hspan).run_modifyBlock hmodify₆
  obtain ⟨hB₇, hlabels₇, hat₇⟩ := hasBlocks_of_run_readStatements hstatements hB₆
  obtain ⟨hkind, hlookup, hcursor₁⟩ := run_blockRef_eq_ok hb
  refine ⟨b, hlookup, ?_, ?_, hat₇, rfl⟩
  · rw [Arena.modify_modify, Arena.modify_modify] at hB₇
    exact hB₇
  · rw [Cursor.labels_eq_cons hat hkind, hlabels₇, hcursor₆, KeepsLabels.labels s₄ span s₅ hspan,
      KeepsLabels.labels s₃ colon s₄ hcolon, hcursor₃, KeepsLabels.labels s₁ params s₂ hparams,
      hcursor₁]

/-- The blocks after more text was read into those that its labels lead to. -/
def fillAll (targets : List (String × BlockId)) (B : Arena .block Block) (ws : List WrittenBlock) :
    Arena .block Block :=
  ws.foldl (fun B w => (targets.lookup w.label).elim B fun b => B.modify b w.fill) B

/-- The blocks that are read are stored under their labels, by induction on the fuel. -/
theorem hasBlocks_of_run_readBlocks {n : Nat} {ws : List WrittenBlock}
    (h : (readBlocks f n scope).run s = .ok (ws, s')) (hB : HasBlocks s.program f B)
    (hat : s.cursor.AtBlock) :
    HasBlocks s'.program f (fillAll scope.blocks B ws) ∧
      s.cursor.labels = ws.map (·.label) := by
  induction n generalizing s scope B ws with
  | zero => cases h
  | succ n ih =>
      rw [readBlocks, run_eat_bind] at h
      split at h
      · next hclosed =>
        obtain ⟨rfl, rfl⟩ := run_pure_eq_ok.mp h
        exact ⟨hB, Cursor.labels_eq_nil hat hclosed⟩
      · obtain ⟨⟨w, scope'⟩, s₁, hw, h⟩ := run_bind_eq_ok.mp h
        obtain ⟨ws', s₂, hws, h⟩ := run_bind_eq_ok.mp h
        obtain ⟨rfl, rfl⟩ := run_pure_eq_ok.mp h
        obtain ⟨b, hlookup, hB₁, hlabels, hat₁, hblocks⟩ := hasBlocks_of_run_readBlock hw hB hat
        obtain ⟨hB₂, hrest⟩ := ih hws hB₁ hat₁
        refine ⟨?_, by rw [hlabels, hrest, List.map_cons]⟩
        rw [hblocks] at hB₂
        rw [fillAll, List.foldl_cons, hlookup]
        exact hB₂

/-- If no local variable follows, nothing is taken. -/
theorem eq_of_run_localRole_none (h : localRole.run s = .ok (none, s')) : s' = s := by
  unfold localRole at h
  rw [run_eatKeyword_bind] at h
  split at h
  · cases h
  · simp only [Bool.false_eq_true, if_false] at h
    rw [run_eatKeyword_bind] at h
    split at h
    · cases h
    · cases h
      rfl

/-- Reading local variables leaves blocks and labels as they are. -/
theorem hasBlocks_of_run_locals {n : Nat} {scope' : Scope}
    (h : (locals f n scope).run s = .ok (scope', s')) (hB : HasBlocks s.program f B)
    (hat : s.cursor.AtBlock) :
    HasBlocks s'.program f B ∧ s'.cursor.AtBlock ∧ scope'.blocks = scope.blocks := by
  induction n generalizing s scope with
  | zero =>
      obtain ⟨rfl, rfl⟩ := run_pure_eq_ok.mp h
      exact ⟨hB, hat, rfl⟩
  | succ n ih =>
      obtain ⟨role, s₁, hrole, h⟩ := run_bind_eq_ok.mp (run_current_bind ▸ h)
      cases role with
      | none =>
          obtain ⟨rfl, rfl⟩ := run_pure_eq_ok.mp h
          rw [eq_of_run_localRole_none hrole]
          exact ⟨hB, hat, rfl⟩
      | some role =>
          obtain ⟨x, s₂, hx, h⟩ := run_bind_eq_ok.mp h
          obtain ⟨semicolon, s₃, hsemicolon, h⟩ := run_bind_eq_ok.mp h
          obtain ⟨span, s₄, hspan, h⟩ := run_bind_eq_ok.mp h
          rw [run_modifyProgram_bind] at h
          have hB₄ := (((hB.run hrole).run hx).run hsemicolon).run hspan
          have hB₅ : HasBlocks (s₄.program.modifyVariable x.2 fun v => { v with span }) f B :=
            hB₄.sameFunctions rfl
          have hcursor : s₄.cursor = s₃.cursor := by cases hspan; rfl
          have hat₄ : s₄.cursor.AtBlock := by
            rw [hcursor]
            exact .inl (before_of_run_expect (by decide) hsemicolon)
          have hrest := ih h (hB₅.modifyFunction id fun _ => rfl) hat₄
          exact hrest

/-- One block is made for every label, and a label leads to the last block that has it. -/
theorem hasBlocks_of_run_addBlocks {labels : List String} {scope' : Scope}
    (h : (addBlocks f labels scope).run s = .ok (scope', s')) (hB : HasBlocks s.program f B) :
    HasBlocks s'.program f (.ofList (B.toList ++ labels.map .ofName)) ∧ s'.cursor = s.cursor ∧
      scope'.blocks = (labels.mapIdx fun i label => (label, ⟨B.size + i⟩)).reverse ++
        scope.blocks := by
  induction labels generalizing s scope B with
  | nil =>
      obtain ⟨rfl, rfl⟩ := run_pure_eq_ok.mp h
      exact ⟨by simpa using hB, rfl, by simp⟩
  | cons label labels ih =>
      rw [addBlocks, run_program_bind, run_modifyProgram_bind] at h
      obtain ⟨hB', hcursor, hscope⟩ :=
        ih h (hB.modifyFunction (·.push (.ofName label)) fun _ => rfl)
      refine ⟨by simpa using hB', hcursor, ?_⟩
      have hnext : B.next = ⟨B.size⟩ := rfl
      rw [hscope, hB.blocks]
      simp [hnext, List.mapIdx_cons, Nat.add_assoc, Nat.add_comm 1]

end

/-! ## What a label leads to -/

/-- A label leads to the last of the blocks that have it. -/
theorem lookup_targets {labels : List String} {label : String} {i : Nat} :
    (labels.mapIdx fun i label => (label, (⟨i⟩ : BlockId))).reverse.lookup label = some ⟨i⟩ ↔
      labels[i]? = some label ∧ label ∉ labels.drop (i + 1) := by
  induction labels using List.reverseRecOn with
  | nil => simp
  | append_singleton labels last ih =>
      rw [List.mapIdx_concat, List.reverse_append, List.reverse_singleton, List.singleton_append,
        List.lookup_cons]
      by_cases hlast : label = last
      -- the last block takes its label over from any earlier one
      · subst hlast
        simp only [BEq.rfl, Option.some.injEq, Handle.mk.injEq]
        constructor
        · rintro rfl
          simp
        · rintro ⟨hat, hlater⟩
          have hlt := (List.getElem?_eq_some_iff.mp hat).1
          by_contra hne
          have hle : i + 1 ≤ labels.length := by simp at hlt; omega
          rw [List.drop_append_of_le_length hle] at hlater
          exact hlater (by simp)
      · have hne : (label == last) = false := by simpa using hlast
        simp only [hne]
        rw [ih]
        rcases Nat.lt_trichotomy i labels.length with hlt | rfl | hgt
        · rw [List.getElem?_append_left hlt, List.drop_append_of_le_length hlt]
          simp [hlast]
        · simp [Ne.symm hlast]
        · have hnone : (labels ++ [last])[i]? = none :=
            List.getElem?_eq_none (by simp; omega)
          simp [hnone, Nat.le_of_lt hgt]

/-- A block is filled with what is written under labels that lead to it, one after the other. -/
theorem get?_fillAll (targets : List (String × BlockId)) (B : Arena .block Block)
    (ws : List WrittenBlock) (b : BlockId) :
    (fillAll targets B ws).get? b = (B.get? b).map fun k =>
      (ws.filter fun w => targets.lookup w.label == some b).foldl (fun k w => w.fill k) k := by
  induction ws generalizing B with
  | nil => simp [fillAll]
  | cons w ws ih =>
      have hstep : fillAll targets B (w :: ws) =
          fillAll targets ((targets.lookup w.label).elim B fun b => B.modify b w.fill) ws := rfl
      rw [hstep, ih]
      cases hlookup : targets.lookup w.label with
      | none => simp [hlookup]
      | some c =>
          by_cases hc : c = b
          · subst hc
            simp [hlookup, Arena.get?_modify_self, Function.comp_def]
          · simp [hlookup, Arena.get?_modify, hc]

/-- With labels that lead to the first blocks in order, the stored blocks are those that
`WrittenBlock.stored` gives. -/
theorem toList_fillAll (ws : List WrittenBlock) :
    (fillAll ((ws.map (·.label)).mapIdx fun i label => (label, ⟨i⟩)).reverse
      (.ofList ((ws.map (·.label)).map .ofName)) ws).toList = WrittenBlock.stored ws := by
  refine List.ext_getElem? fun i => ?_
  have hget := Arena.get?_eq_getElem? (fillAll ((ws.map (·.label)).mapIdx fun i label =>
    (label, ⟨i⟩)).reverse (.ofList ((ws.map (·.label)).map .ofName)) ws) ⟨i⟩
  rw [← hget, get?_fillAll, Arena.get?_eq_getElem?, Arena.toList_ofList, WrittenBlock.stored]
  simp only [List.getElem?_map, List.getElem?_mapIdx, Option.map_map]
  refine Option.map_congr fun w hw => ?_
  have hleads : ∀ v : WrittenBlock,
      (((ws.map (·.label)).mapIdx fun i label => (label, (⟨i⟩ : BlockId))).reverse.lookup v.label ==
        some ⟨i⟩) = (v.label == w.label && !(ws.drop (i + 1)).any (·.label == w.label)) := by
    intro v
    rw [Bool.eq_iff_iff, beq_iff_eq, lookup_targets, List.getElem?_map, hw]
    simp only [Option.map_some, Option.some.injEq, Bool.and_eq_true, beq_iff_eq, Bool.not_eq_true',
      List.any_eq_false, ← List.map_drop, List.mem_map, not_exists, not_and]
    constructor
    · rintro ⟨heq, hlater⟩
      exact ⟨heq.symm, heq ▸ hlater⟩
    · rintro ⟨heq, hlater⟩
      exact ⟨heq.symm, heq ▸ hlater⟩
  simp only [Function.comp_apply, hleads]
  cases (ws.drop (i + 1)).any (·.label == w.label) <;> simp

/-- What the body of a function without blocks stores of those that are read. -/
theorem hasBlocks_of_run_readBody {f : FunctionId} {ws : List WrittenBlock}
    (h : (readBody f).run s = .ok (ws, s')) (hf : HasBlocks s.program f ∅) :
    HasBlocks s'.program f (.ofList (WrittenBlock.stored ws)) := by
  unfold readBody at h
  rw [run_program_bind] at h
  obtain ⟨brace, s₁, hbrace, h⟩ := run_bind_eq_ok.mp h
  obtain ⟨scope₂, s₂, hlocals, h⟩ := run_bind_eq_ok.mp (run_bound_bind ▸ h)
  obtain ⟨scope₃, s₃, hdeclared, h⟩ := run_bind_eq_ok.mp h
  obtain ⟨hB₂, hat₂, hscope₂⟩ := hasBlocks_of_run_locals hlocals (hf.run hbrace)
    (.inr (before_of_run_expect (by decide) hbrace))
  unfold declareBlocks at hdeclared
  rw [run_cursor_bind] at hdeclared
  obtain ⟨hB₃, hcursor₃, hscope₃⟩ := hasBlocks_of_run_addBlocks hdeclared hB₂
  rw [run_bound_bind] at h
  obtain ⟨hB, hlabels⟩ := hasBlocks_of_run_readBlocks h hB₃ (by rwa [hcursor₃])
  have hlabels : Parser.blockLabels s₂.cursor.before.kind 0 s₂.cursor.rest = ws.map (·.label) := by
    rw [← hlabels, hcursor₃, Cursor.labels]
  have hsize : (∅ : Arena .block Block).size = 0 := rfl
  have hentries : (∅ : Arena .block Block).toList = [] := rfl
  rw [hscope₃, hscope₂, hlabels] at hB
  rw [← toList_fillAll, Arena.ofList_toList]
  simpa [hsize, hentries] using hB

end Heart.Parser

end SignalGraph

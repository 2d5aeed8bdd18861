import SignalGraph.Proofs.Heart.ThirdPass
import SignalGraph.Proofs.Heart.WrittenBlocks

/-!
# SignalGraph.Proofs.Heart.StoredBlocks

The blocks of all functions of a text (`parseFile_blocks`).  Before the third pass no function has
blocks and no two bodies belong to one function (`Declared`).  Reading a body fills in the blocks of
its function alone, so what one body stores is there at the end.
-/

namespace SignalGraph

namespace Program

/-- Functions may have been added, none of which has blocks. -/
def AddsFunctions (p q : Program) : Prop :=
  ∃ added, q.functions.toList = p.functions.toList ++ added ∧ ∀ fn ∈ added, fn.blocks = ∅

/-- The function keeps its blocks, and no function is added. -/
structure KeepsBlocks (f : FunctionId) (p q : Program) : Prop where
  size : q.functions.size = p.functions.size
  blocks : (q.functionAt f).blocks = (p.functionAt f).blocks

namespace AddsFunctions

variable {p q : Program}

/-- What keeps the functions adds none. -/
theorem of_functions (h : q.functions = p.functions) : p.AddsFunctions q :=
  ⟨[], by rw [h, List.append_nil], fun _ hfn => by cases hfn⟩

/-- Functions are added, never removed. -/
theorem size_le (h : p.AddsFunctions q) : p.functions.size ≤ q.functions.size := by
  obtain ⟨added, hadded, -⟩ := h
  rw [← Arena.length_toList, ← Arena.length_toList, hadded, List.length_append]
  exact Nat.le_add_right _ _

instance : IsPreorder Program AddsFunctions where
  refl _ := of_functions rfl
  trans p q r h h' := by
    obtain ⟨added, hadded, hblocks⟩ := h
    obtain ⟨added', hadded', hblocks'⟩ := h'
    refine ⟨added ++ added', by rw [hadded', hadded, List.append_assoc], fun fn hfn => ?_⟩
    exact (List.mem_append.mp hfn).elim (hblocks fn) (hblocks' fn)

instance : AllowsItems AddsFunctions where
  intern _ _ := of_functions rfl
  internText _ _ := of_functions rfl
  addVariable _ _ := of_functions rfl
  modifyModule _ _ _ _ _ _ := of_functions rfl
  modifyStruct _ _ _ _ := of_functions rfl

/-- A new function without blocks is such an addition. -/
theorem addFunction (p : Program) {f : Function} (hf : f.blocks = ∅) :
    p.AddsFunctions (p.addFunction f).2 :=
  ⟨[f], by simp [Program.addFunction, modifyModule], by simpa using hf⟩

end AddsFunctions

/-- A new function is there. -/
theorem lt_size_addFunction (p : Program) (f : Function) :
    (p.addFunction f).1.idx < (p.addFunction f).2.functions.size := by
  have hsize := Arena.size_push p.functions f
  exact Nat.lt_of_lt_of_eq (Nat.lt_succ_self p.functions.size) hsize.symm

end Program

namespace Heart.Parser

open Program

/-! ## The first two passes -/

section

variable {p q r : Program} {m : ModuleId} {l l' : List PendingBody}

/-- Functions without blocks were added, and those that wait for their bodies are among them, each
of them once. -/
structure Declared (p q : Program) (l : List PendingBody) : Prop where
  adds : p.AddsFunctions q
  added : ∀ b ∈ l, p.functions.size ≤ b.function.idx ∧ b.function.idx < q.functions.size
  nodup : (l.map (·.function)).Nodup

/-- No body, whatever functions are added. -/
theorem Declared.nil (h : p.AddsFunctions q) : Declared p q [] where
  adds := h
  added b hb := by cases hb
  nodup := List.nodup_nil

/-- The bodies of two parts are those of functions that the parts declare. -/
theorem Declared.append (h : Declared p q l) (h' : Declared q r l') : Declared p r (l ++ l') where
  adds := IsTrans.trans _ _ _ h.adds h'.adds
  added b hb := by
    rcases List.mem_append.mp hb with hb | hb
    · exact ⟨(h.added b hb).1, Nat.lt_of_lt_of_le (h.added b hb).2 h'.adds.size_le⟩
    · exact ⟨Nat.le_trans h.adds.size_le (h'.added b hb).1, (h'.added b hb).2⟩
  nodup := by
    rw [List.map_append, List.nodup_append]
    refine ⟨h.nodup, h'.nodup, ?_⟩
    intro f hf g hg heq
    obtain ⟨b, hb, rfl⟩ := List.mem_map.mp hf
    obtain ⟨c, hc, rfl⟩ := List.mem_map.mp hg
    have hlt := Nat.lt_of_lt_of_le (h.added b hb).2 (h'.added c hc).1
    rw [heq] at hlt
    exact Nat.lt_irrefl _ hlt

/-- A body that is left for later is that of the function whose head was read. -/
theorem declared_functionItem : Gives (functionItem m) p fun o q => Declared p q o.toList := by
  suffices Along AddsFunctions (functionItem m) p fun q o => Declared p q o.toList from
    this.mono fun _ _ h => h.2
  unfold functionItem
  refine along_then fun first => along_then fun keyword => along_then fun name =>
    along_then fun _ => ?_
  refine Along.bind (Follows.along inferInstance p) fun parameters q hq _ => along_then fun _ => ?_
  refine along_then fun returns => along_program ?_
  extract_lets inProcessor kind
  refine Along.bind (Follows.along inferInstance q) fun a r hr _ => along_then fun span => ?_
  have hadds := AddsFunctions.addFunction r
    (f := { name, owner := m, kind, returns, parameters, annotations := a, span }) rfl
  have hbefore : p.AddsFunctions r := IsTrans.trans _ _ _ hq hr
  have hafter := IsTrans.trans _ _ _ hbefore hadds
  refine along_add_bind hadds (along_then fun bodiless => along_ite (along_pure ?_) ?_)
  · exact .nil hafter
  · refine along_then fun start => along_then fun _ => along_pure ⟨hafter, ?_, by simp⟩
    intro b hb
    obtain rfl := List.mem_singleton.mp hb
    exact ⟨hbefore.size_le, lt_size_addFunction r _⟩

/-- A body that is left for later is that of a function, whatever the item. -/
theorem declared_item : Gives (item m) p fun o q => Declared p q o.toList := by
  have hnone : ∀ {x : Parser Unit}, Follows AddsFunctions x →
      Gives (do x; return none) p fun (o : Option PendingBody) q => Declared p q o.toList :=
    fun hx => Gives.bind (hx.along p) fun _ q hq => gives_pure (.nil hq.1)
  unfold item
  refine still_then fun t => ?_
  split
  · exact hnone inferInstance
  · exact hnone inferInstance
  · exact hnone inferInstance
  · exact hnone inferInstance
  · exact hnone inferInstance
  · exact hnone inferInstance
  · exact hnone inferInstance
  · exact hnone inferInstance
  · exact declared_functionItem
  · exact declared_functionItem
  · exact declared_functionItem
  · exact gives_expected _

/-- The bodies that are left for later are those of different functions, by induction on the
fuel. -/
theorem declared_items (n : Nat) : Gives (items m n) p fun l q => Declared p q l := by
  induction n generalizing p with
  | zero => exact gives_expected _
  | succ n ih =>
      unfold items
      refine still_then fun closed => gives_ite (gives_pure (.nil (refl p))) ?_
      refine declared_item.bind fun o q hq => ih.bind fun l r hr => gives_pure ?_
      exact hq.append hr

/-- The bodies of a module are those of functions that it declares. -/
theorem declared_contents (o : Outline) : Gives (contents o) p fun l q => Declared p q l := by
  unfold contents
  refine still_then fun _ => ?_
  refine Gives.bind (Follows.along (R := AddsFunctions) inferInstance p) fun a q hq => ?_
  have hmodify : Gives (modifyProgram (·.modifyModule o.id fun m => { m with annotations := a })) q
      fun _ r => q.AddsFunctions r := gives_modifyProgram (.of_functions rfl)
  refine hmodify.bind fun _ r hr => still_then fun _ => still_then fun n => ?_
  refine (declared_items n).mono fun l s hs => ?_
  simpa using (Declared.nil (IsTrans.trans _ _ _ hq.1 hr)).append hs

end

/-! ### Modules -/

instance (m : ModuleId) (n depth : Nat) : Follows SameFunctions (structNames m n depth) := by
  induction n generalizing depth with
  | zero => unfold structNames; infer_instance
  | succ n ih =>
      unfold structNames
      refine follows_bind inferInstance fun t => ?_
      split
      · infer_instance
      · infer_instance
      · infer_instance
      · refine follows_bind inferInstance fun _ => ?_
        have hadd : ∀ name span, Follows SameFunctions (add (·.addStruct m name span)) :=
          fun name span => follows_add fun p => .single rfl
        infer_instance

instance : Follows SameFunctions outline := by
  unfold outline
  refine follows_bind inferInstance fun first => ?_
  split
  · infer_instance
  · rename_i kind _
    refine follows_bind inferInstance fun _ => follows_bind inferInstance fun name => ?_
    refine follows_bind inferInstance fun span => ?_
    refine follows_bind (follows_add fun p => .single rfl) fun id => ?_
    refine follows_bind (follows_modifyProgram fun p => .single rfl) fun _ => ?_
    refine follows_bind inferInstance fun annotations => ?_
    extract_lets jp
    have hjp : ∀ r, Follows SameFunctions (jp r) := by
      intro r
      unfold jp
      infer_instance
    clear_value jp
    infer_instance

instance (n : Nat) : Follows SameFunctions (outlines n) := by
  induction n with
  | zero => unfold outlines; infer_instance
  | succ n ih => unfold outlines; infer_instance

/-- After the first passes the bodies are those of different functions without blocks. -/
theorem declared_firstPasses (text : String) (p : Program) :
    Gives (firstPasses text) p fun l q => Declared p q l := by
  unfold firstPasses
  refine still_then fun _ => still_then fun n => ?_
  refine Gives.bind (Follows.along (R := SameFunctions) inferInstance p) fun modules q hq => ?_
  have hq : Declared p q [] := .nil (.of_functions hq.1)
  refine (gives_mapM (J := fun ls r => Declared p r ls.flatten) (fun o _ ls r hr => ?_) hq).bind ?_
  · exact (declared_contents o).mono fun l t ht => by simpa using hr.append ht
  · exact fun ls r hr => gives_pure hr

/-! ## The third pass -/

instance (f : FunctionId) : IsPreorder Program (KeepsBlocks f) where
  refl _ := ⟨rfl, rfl⟩
  trans _ _ _ h h' := ⟨h'.size.trans h.size, h'.blocks.trans h.blocks⟩

/-- Reading the body of one function keeps the blocks of the others. -/
theorem allowsBody_keepsBlocks {f g : FunctionId} (hne : f ≠ g) : AllowsBody f (KeepsBlocks g) := by
  have hother : ∀ (p : Program) (change : Function → Function),
      KeepsBlocks g p (p.modifyFunction f change) := by
    refine fun p change => ⟨by simp [modifyFunction], ?_⟩
    rw [functionAt, modifyFunction, Arena.get_modify_of_ne (Ne.symm hne), functionAt]
  exact {
    intern := fun _ _ => ⟨rfl, rfl⟩
    internText := fun _ _ => ⟨rfl, rfl⟩
    addVariable := fun _ _ => ⟨rfl, rfl⟩
    modifySpan := fun _ _ _ => ⟨rfl, rfl⟩
    addLocal := fun _ _ => hother _ _
    addBlock := fun _ _ => hother _ _
    modifyBlock := fun _ _ _ _ => hother _ _ }

/-- A function has its blocks as long as they are kept. -/
theorem HasBlocks.keepsBlocks {p q : Program} {f : FunctionId} {B : Arena .block Block}
    (h : HasBlocks p f B) (hq : KeepsBlocks f p q) : HasBlocks q f B :=
  ⟨Arena.mem_handles_of_le h.inRange (Nat.le_of_eq hq.size.symm), hq.blocks.trans h.blocks⟩

variable {s s' : ParserState}

/-- Reading a body leaves the blocks of other functions alone. -/
theorem keepsBlocks_of_run_body {b : PendingBody} {f : FunctionId} {a : Unit}
    (h : (body b).run s = .ok (a, s')) (hne : b.function ≠ f) :
    KeepsBlocks f s.program s'.program := by
  have := allowsBody_keepsBlocks hne
  have hfollows : Follows (KeepsBlocks f) (body b) := by unfold body; infer_instance
  exact (hfollows.along s.program s.cursor a s' h).1

/-- A body is read in a state that has the blocks of earlier bodies, and what it stores stays. -/
structure StoredFrom (s₀ : ParserState) (p : Program) (b : PendingBody) (ws : List WrittenBlock) :
    Prop where
  read : ∃ t t', t.cursor = b.start ∧ s₀.program.FillsBodies t.program ∧
    (readBody b.function).run t = .ok (ws, t')
  stored : HasBlocks p b.function (.ofList (WrittenBlock.stored ws))

/-- After all bodies each function has the blocks of its own body. -/
theorem stored_of_run_bodies {bodies : List PendingBody} {a : Unit}
    (h : (bodies.forM body).run s = .ok (a, s')) (hnodup : (bodies.map (·.function)).Nodup)
    (hempty : ∀ b ∈ bodies, HasBlocks s.program b.function ∅) :
    (∀ f ∉ bodies.map (·.function), KeepsBlocks f s.program s'.program) ∧
      ∀ b ∈ bodies, ∃ ws, StoredFrom s s'.program b ws := by
  induction bodies generalizing s with
  | nil =>
      obtain ⟨-, rfl⟩ := run_pure_eq_ok.mp h
      exact ⟨fun f _ => refl s.program, fun b hb => by cases hb⟩
  | cons b bodies ih =>
      rw [List.forM_eq_forM, List.forM_cons] at h
      obtain ⟨_, s₁, hbody, h⟩ := run_bind_eq_ok.mp h
      rw [List.map_cons, List.nodup_cons] at hnodup
      obtain ⟨hb, hnodup⟩ := hnodup
      -- no other body is of the same function, so blocks once stored are left alone
      have hne : ∀ c ∈ bodies, b.function ≠ c.function :=
        fun c hc heq => hb (heq ▸ List.mem_map_of_mem hc)
      have hfollows : Follows FillsBodies (body b) := by unfold body; infer_instance
      have hfills := (hfollows.along s.program s.cursor () s₁ hbody).1
      have hempty₁ : ∀ c ∈ bodies, HasBlocks s₁.program c.function ∅ :=
        fun c hc => (hempty c (List.mem_cons_of_mem _ hc)).keepsBlocks
          (keepsBlocks_of_run_body hbody (hne c hc))
      obtain ⟨hkeeps, hstored⟩ := ih h hnodup hempty₁
      refine ⟨fun f hf => ?_, fun c hc => ?_⟩
      · rw [List.map_cons, List.mem_cons, not_or] at hf
        exact IsTrans.trans _ _ _ (keepsBlocks_of_run_body hbody (Ne.symm hf.1)) (hkeeps f hf.2)
      · rcases List.mem_cons.mp hc with rfl | hc
        · rw [body, run_moveTo_bind, functionBody_eq] at hbody
          obtain ⟨ws, s₂, hread, hbody⟩ := run_bind_eq_ok.mp hbody
          obtain ⟨-, rfl⟩ := run_pure_eq_ok.mp hbody
          have hfilled := hasBlocks_of_run_readBody hread (hempty c List.mem_cons_self)
          refine ⟨ws, ⟨⟨c.start, s.program⟩, s₂, rfl, refl s.program, hread⟩, ?_⟩
          exact hfilled.keepsBlocks (hkeeps c.function hb)
        · obtain ⟨ws, ⟨t, t', hstart, hfills', hread⟩, hlast⟩ := hstored c hc
          exact ⟨ws, ⟨t, t', hstart, IsTrans.trans _ _ _ hfills hfills', hread⟩, hlast⟩

end Heart.Parser

namespace Heart

open SignalGraph.Heart.Parser

/-- The blocks of every function of a text.  If no label is repeated in a body then its blocks are
stored as they are written; in any case there is one for each of them. -/
theorem parseFile_blocks {file : FileId} {text : String} {p : Program}
    (h : parseFile file text = .ok p) :
    ∃ tokens bodies s₀, lex file text = .ok tokens ∧
      (firstPasses text).run ⟨.start file tokens, {}⟩ = .ok (bodies, s₀) ∧
      (bodies.map (·.function)).Nodup ∧
      (∀ b ∈ bodies, b.function ∈ p.functions.handles ∧ ∃ s ws s', s.cursor = b.start ∧
        s₀.program.FillsBodies s.program ∧ (readBody b.function).run s = .ok (ws, s') ∧
        (p.functionAt b.function).blocks.toList = WrittenBlock.stored ws ∧
        ((ws.map (·.label)).Nodup →
          (p.functionAt b.function).blocks.toList = ws.map WrittenBlock.block)) ∧
      ∀ f ∈ p.functions.handles, f ∉ bodies.map (·.function) →
        (p.functionAt f).blocks.toList = [] := by
  obtain ⟨tokens, s', htokens, hrun, rfl⟩ := run_of_parseFile h
  rw [wholeProgram_eq] at hrun
  obtain ⟨bodies, s₀, hfirst, hrun⟩ := run_bind_eq_ok.mp hrun
  have hdeclared := declared_firstPasses text {} _ _ _ hfirst
  -- no function has blocks before the third pass
  have hempty : ∀ f ∈ s₀.program.functions.handles, HasBlocks s₀.program f ∅ := by
    obtain ⟨added, hadded, hblocks⟩ := hdeclared.adds
    intro f hf
    have hmem := Arena.get_mem_toList hf
    rw [hadded] at hmem
    exact ⟨hf, hblocks _ hmem⟩
  have hinRange : ∀ b ∈ bodies, b.function ∈ s₀.program.functions.handles :=
    fun b hb => Arena.mem_handles_iff.mpr (hdeclared.added b hb).2
  obtain ⟨hkeeps, hstored⟩ := stored_of_run_bodies hrun hdeclared.nodup
    fun b hb => hempty _ (hinRange b hb)
  refine ⟨tokens, bodies, s₀, htokens, hfirst, hdeclared.nodup, fun b hb => ?_,
    fun f hf hbodiless => ?_⟩
  · obtain ⟨ws, ⟨s, s'', hstart, hfills, hread⟩, hlast⟩ := hstored b hb
    have hblocks : (s'.program.functionAt b.function).blocks.toList = WrittenBlock.stored ws := by
      rw [hlast.blocks, Arena.toList_ofList]
    refine ⟨hlast.inRange, s, ws, s'', hstart, hfills, hread, hblocks, fun hnodup => ?_⟩
    rw [hblocks, WrittenBlock.stored_of_nodup hnodup]
  · have hkept := hkeeps f hbodiless
    have hf : f ∈ s₀.program.functions.handles :=
      Arena.mem_handles_of_le hf (Nat.le_of_eq hkept.size)
    rw [hkept.blocks, (hempty f hf).blocks]
    rfl

/-- A function of two blocks. -/
@[irreducible] def jumpText : String :=
  "#HEART 1\nnamespace N\n\x7b\n    function f () -> int32\n    \x7b\n        @a:\n" ++
  "            branch @b;\n        @b:\n            return 1;\n    \x7d\n\x7d\n"

@[irreducible] def jumpProgram : Program := (parse jumpText).toOption.getD {}

/-- `jumpText` is parsed to a function with two blocks. -/
theorem parse_jump : (parse jumpText).isOk ∧ jumpProgram.functions.size = 1 ∧
    (jumpProgram.functionAt ⟨0⟩).blocks.toList.map (·.name) = ["@a", "@b"] := by
  decide +kernel

/-- The blocks of `jumpText` are stored as they are written. -/
theorem parseFile_blocks_jump : parseFile ⟨0⟩ jumpText = .ok jumpProgram ∧
    jumpProgram.functions.size = 1 ∧
    (jumpProgram.functionAt ⟨0⟩).blocks.toList.map (·.name) = ["@a", "@b"] ∧
    ∃ bodies : List PendingBody, (bodies.map (·.function)).Nodup ∧
      (∀ b ∈ bodies, ∃ s ws s', s.cursor = b.start ∧ (readBody b.function).run s = .ok (ws, s') ∧
        (jumpProgram.functionAt b.function).blocks.toList = WrittenBlock.stored ws) ∧
      ∀ f ∈ jumpProgram.functions.handles, f ∉ bodies.map (·.function) →
        (jumpProgram.functionAt f).blocks.toList = [] := by
  obtain ⟨hread, hcount, hnames⟩ := parse_jump
  have hparse : parseFile ⟨0⟩ jumpText = .ok jumpProgram := by
    rw [jumpProgram]
    cases h : parseFile ⟨0⟩ jumpText with
    | error d => rw [parse, h] at hread; cases hread
    | ok p => rw [parse, h]; rfl
  obtain ⟨-, bodies, s₀, -, -, hnodup, hstored, hbodiless⟩ := parseFile_blocks hparse
  refine ⟨hparse, hcount, hnames, bodies, hnodup, fun b hb => ?_, hbodiless⟩
  obtain ⟨-, s, ws, s', hstart, -, hrun, hblocks, -⟩ := hstored b hb
  exact ⟨s, ws, s', hstart, hrun, hblocks⟩

/-- A function with two blocks of one label. -/
def repeatedText : String :=
  "#HEART 1\nnamespace N\n\x7b\n    function f () -> int32\n    \x7b\n        @a:\n" ++
  "            return 1;\n        @a:\n            return 2;\n    \x7d\n\x7d\n"

/-- The label is not refused, and the first of its blocks is stored without the value it returns. -/
theorem parse_repeated : (parse repeatedText).toOption.map (fun p =>
    (p.functionAt ⟨0⟩).blocks.toList.map fun k => (k.name, k.terminator matches .returnVoid)) =
      some [("@a", true), ("@a", false)] := by
  decide +kernel

end Heart

end SignalGraph

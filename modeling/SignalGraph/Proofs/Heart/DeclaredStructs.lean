import SignalGraph.Proofs.Heart.Outlines
import SignalGraph.Proofs.Heart.ParsedTidy
import SignalGraph.Proofs.Heart.ThirdPass

/-!
# SignalGraph.Proofs.Heart.DeclaredStructs

What the first two passes over a text make of its modules (`parseFile_structs`).  `readContents`
reads a module as the second pass does and also answers the tokens of its annotations and of its
items (`contents_eq`).  The first pass lists a struct for every word after `struct`, whatever item
the word stands in, and skips what stands in brackets after the name; the second pass reads the
items, and the annotations if the brackets are double.  So the two agree unless an item that
declares no struct has such a word, or the brackets are single.
-/

namespace SignalGraph

namespace Program

variable {p q : Program}

/-- The names of the structs and the annotations of all modules are kept. -/
structure KeepsHeads (p q : Program) : Prop where
  moduleCount : q.modules.size = p.modules.size
  structNames : ∀ m, q.structNames m = p.structNames m
  annotations : ∀ m, (q.moduleAt m).annotations = (p.moduleAt m).annotations

namespace KeepsHeads

instance : IsPreorder Program KeepsHeads where
  refl _ := ⟨rfl, fun _ => rfl, fun _ => rfl⟩
  trans _ _ _ h h' := ⟨h'.moduleCount.trans h.moduleCount,
    fun m => (h'.structNames m).trans (h.structNames m),
    fun m => (h'.annotations m).trans (h.annotations m)⟩

/-- What keeps modules and structs keeps the heads of modules. -/
theorem of_modules (hmodules : q.modules = p.modules) (hstructs : q.structs = p.structs) :
    p.KeepsHeads q where
  moduleCount := by rw [hmodules]
  structNames m := by simp only [Program.structNames, moduleAt, structAt, hmodules, hstructs]
  annotations m := by rw [moduleAt, moduleAt, hmodules]

/-- A change of a module keeps its head if it keeps its structs and annotations. -/
theorem modifyModule (p : Program) (k : ModuleId) {g : Module → Module}
    (hstructs : ∀ x, (g x).structs = x.structs)
    (hannotations : ∀ x, (g x).annotations = x.annotations) :
    p.KeepsHeads (p.modifyModule k g) where
  moduleCount := Arena.size_modify _ _ _
  structNames m := structNames_modifyModule p k m hstructs
  annotations m := KeepsOrder.moduleAt_modifyModule_eq Module.annotations p k m hannotations

instance : AllowsItems KeepsHeads where
  intern _ _ := .of_modules rfl rfl
  internText _ _ := .of_modules rfl rfl
  addVariable _ _ := .of_modules rfl rfl
  modifyModule p m _ hstructs _ hannotations := .modifyModule p m hstructs hannotations
  modifyStruct p id g hname := by
    refine ⟨rfl, fun m => List.map_congr_left fun k _ => ?_, fun _ => rfl⟩
    simp only [structAt, Arena.get, Arena.get?_modify]
    split
    · cases p.structs.get? k <;> simp [hname]
    · rfl

/-- A new function is no part of the head of a module. -/
theorem addFunction (p : Program) (f : Function) : p.KeepsHeads (p.addFunction f).2 :=
  IsTrans.trans (r := KeepsHeads) p { p with functions := p.functions.push f } _
    (.of_modules rfl rfl) (.modifyModule _ f.owner (fun _ => rfl) fun _ => rfl)

end KeepsHeads

end Program

namespace Heart.Parser

open Program

variable {s s' : ParserState} {p : Program} {m : ModuleId}

/-! ## The second pass -/

instance : Follows KeepsHeads (signature m) := by
  unfold signature
  refine follows_bind inferInstance fun first => follows_bind inferInstance fun keyword => ?_
  refine follows_bind inferInstance fun name => follows_bind inferInstance fun _ => ?_
  refine follows_bind inferInstance fun parameters => follows_bind inferInstance fun _ => ?_
  refine follows_bind inferInstance fun returns => follows_bind inferInstance fun q => ?_
  extract_lets inProcessor kind
  refine follows_bind inferInstance fun a => follows_bind inferInstance fun span => ?_
  exact follows_add fun p => .single (.addFunction p _)

instance : Follows KeepsHeads (functionItem m) := by rw [functionItem_eq]; infer_instance

instance : Follows KeepsHeads (item m) := by
  unfold item
  refine follows_bind inferInstance fun t => ?_
  split <;> infer_instance

instance (n : Nat) : Follows KeepsHeads (items m n) := by
  induction n with
  | zero => unfold items; infer_instance
  | succ n ih => unfold items; infer_instance

section

variable {α β : Type} {x : Parser α} {f : α → Parser β}

/-- The tokens that a parser passes, and its answer. -/
def passing (x : Parser α) : Parser (List Token × α) := do
  let before ← cursor
  let a ← x
  let after ← cursor
  return (before.rest.take (before.rest.length - after.rest.length), a)

/-- Noting the tokens that are passed changes nothing else. -/
theorem passing_bind : (passing x >>= fun r => f r.2) = x >>= f := by
  refine funext fun s => ?_
  show (passing x >>= fun r => f r.2).run s = (x >>= f).run s
  rw [passing, bind_assoc, run_cursor_bind, bind_assoc]
  simp only [bind_assoc]
  rw [StateT.run_bind, StateT.run_bind]
  rfl

/-- What is noted are the tokens that are passed. -/
theorem run_of_run_passing {ts : List Token} {a : α} (h : (passing x).run s = .ok ((ts, a), s')) :
    x.run s = .ok (a, s') ∧ ∀ us, s.cursor.Passed us s'.cursor → ts = us := by
  rw [passing, run_cursor_bind] at h
  obtain ⟨a', s₁, hx, h⟩ := run_bind_eq_ok.mp h
  rw [run_cursor_bind] at h
  obtain ⟨heq, rfl⟩ := run_pure_eq_ok.mp h
  obtain ⟨rfl, rfl⟩ := Prod.mk.inj heq
  refine ⟨hx, fun us hus => ?_⟩
  rw [hus.rest, List.length_append, Nat.add_sub_cancel, List.take_left]

end

/-- A module as its text has it. -/
structure WrittenModule where
  /-- The tokens of the annotations. -/
  head : List Token
  annotations : Annotations
  /-- The tokens of every item. -/
  items : List (List Token)
  bodies : List PendingBody

/-- The items of a module up to its closing brace, with an account of them. -/
def readItems (m : ModuleId) : Nat → Parser (List (List Token) × List PendingBody)
  | 0 => expected "a module item"
  | n + 1 => do
    if ← eat .rightBrace then return ([], [])
    let (ts, pending) ← passing (item m)
    let (rest, bodies) ← readItems m n
    return (ts :: rest, pending.toList ++ bodies)

/-- Reading items, without the tokens of each item. -/
theorem items_eq (m : ModuleId) (n : Nat) : items m n = readItems m n >>= fun r => pure r.2 := by
  induction n with
  | zero => rfl
  | succ n ih =>
      rw [items, readItems, bind_assoc]
      refine bind_congr fun closed => ?_
      cases closed with
      | true => simp
      | false =>
          rw [← passing_bind (x := item m)]
          simp [ih]

/-- Reading items with their tokens reads the items. -/
theorem run_items_of_run_readItems {n : Nat} {l : List (List Token)} {bodies : List PendingBody}
    (h : (readItems m n).run s = .ok ((l, bodies), s')) : (items m n).run s = .ok (bodies, s') := by
  rw [items_eq, run_bind_of_eq_ok h]
  rfl

/-- The annotations and the items of a module, with an account of them. -/
def readContents (o : Outline) : Parser WrittenModule := do
  moveTo o.annotations
  let (head, annotations) ← passing annotations
  modifyProgram (·.modifyModule o.id fun m => { m with annotations })
  moveTo o.body
  let (items, bodies) ← readItems o.id (← bound)
  return ⟨head, annotations, items, bodies⟩

/-- The second pass reads a module in the same way with and without an account of it. -/
theorem contents_eq (o : Outline) : contents o = readContents o >>= fun w => pure w.bodies := by
  rw [contents, readContents, bind_assoc]
  refine bind_congr fun _ => ?_
  rw [← passing_bind (x := annotations)]
  simp [items_eq]

/-- Reading the contents of modules, without the tokens of their items. -/
theorem mapM_contents_eq (os : List Outline) :
    os.mapM contents = os.mapM readContents >>= fun ws => pure (ws.map (·.bodies)) := by
  induction os with
  | nil => rfl
  | cons o os ih => simp [List.mapM_cons, contents_eq, ih]

/-! ### What is read -/

/-- What the second pass reads of a module: all of its body, and of its head the annotations. -/
structure WrittenModule.Covers (w : WrittenModule) (o : Outline) : Prop where
  body : ∃ brace rest, o.body.rest = w.items.flatten ++ brace :: rest ∧ brace.kind = .rightBrace
  items : ∀ ts ∈ w.items, IsItem ts ∧
    ∀ name, declaredStruct? ts = some name → structWords false 0 ts = [name]
  /-- The rest of the head is skipped; there is one exactly if the head starts with a single
  bracket. -/
  head : ∃ skipped brace, o.annotations.Passed (w.head ++ skipped ++ [brace]) o.body ∧
    brace.kind = .leftBrace ∧
    (skipped = [] ↔ (o.annotations.kindAt 0 = .leftBracket → o.annotations.kindAt 1 = .leftBracket))
  unannotated : w.head = [] → w.annotations = {}

/-- The tokens of a module body are those of its items, up to the closing brace. -/
theorem covers_of_run_readItems {n : Nat} {items : List (List Token)} {bodies : List PendingBody}
    (hs : s.cursor.Ended) (h : (readItems m n).run s = .ok ((items, bodies), s')) :
    (∃ brace rest, s.cursor.rest = items.flatten ++ brace :: rest ∧ brace.kind = .rightBrace) ∧
      ∀ ts ∈ items, IsItem ts ∧
        ∀ name, declaredStruct? ts = some name → structWords false 0 ts = [name] := by
  induction n generalizing s items bodies with
  | zero => cases h
  | succ n ih =>
      rw [readItems, run_eat_bind] at h
      split at h
      · next hclose =>
        obtain ⟨heq, rfl⟩ := run_pure_eq_ok.mp h
        obtain ⟨rfl, rfl⟩ := Prod.mk.inj heq
        exact ⟨⟨_, _, hs.rest, hclose⟩, List.forall_mem_nil _⟩
      · obtain ⟨⟨ts, pending⟩, s₁, hitem, h⟩ := run_bind_eq_ok.mp h
        obtain ⟨⟨items', bodies'⟩, s₂, hitems, h⟩ := run_bind_eq_ok.mp h
        obtain ⟨heq, rfl⟩ := run_pure_eq_ok.mp h
        obtain ⟨rfl, rfl⟩ := Prod.mk.inj heq
        obtain ⟨hrun, hpassing⟩ := run_of_run_passing hitem
        obtain ⟨us, hpassed, hus⟩ := isItem_of_run_item hs hrun
        obtain ⟨-, -, -, hs₁⟩ := Takes.takesAt (n := 0) s hs pending s₁ hrun
        obtain ⟨⟨brace, rest, hrest, hclose⟩, hmem⟩ := ih hs₁ hitems
        obtain rfl := hpassing us hpassed
        refine ⟨⟨brace, rest, ?_, hclose⟩, List.forall_mem_cons.mpr ⟨hus, hmem⟩⟩
        rw [hpassed.rest, hrest, List.flatten_cons, List.append_assoc]

/-- The tokens of a module are those of its annotations and its items. -/
theorem covers_of_run_readContents {o : Outline} {w : WrittenModule} (ho : Found p o)
    (hannotations : o.annotations.Ended) (hbody : o.body.Ended)
    (h : (readContents o).run s = .ok (w, s')) : w.Covers o := by
  rw [readContents, run_moveTo_bind] at h
  obtain ⟨⟨ts, a⟩, s₁, hrun, h⟩ := run_bind_eq_ok.mp h
  rw [run_modifyProgram_bind, run_moveTo_bind, run_bound_bind] at h
  obtain ⟨⟨items, bodies⟩, s₂, hitems, h⟩ := run_bind_eq_ok.mp h
  obtain ⟨rfl, rfl⟩ := run_pure_eq_ok.mp h
  obtain ⟨hcovered, hmem⟩ := covers_of_run_readItems hbody hitems
  obtain ⟨hread, hpassing⟩ := run_of_run_passing hrun
  obtain ⟨us, hpassed, -⟩ := Inline.inlineAt _ a s₁ hread
  obtain rfl := hpassing us hpassed
  obtain ⟨head, brace, hhead, hopen, hends⟩ := ho.head
  have hfirst : o.annotations.kindAt 0 = o.annotations.current.kind := by
    rw [Cursor.kindAt, hannotations.rest]
    rfl
  -- The brace is no bracket, so a head that starts with one is not empty.
  have hnonempty : ∀ l, o.annotations.current.kind = .leftBracket →
      o.annotations.rest = l ++ brace :: o.body.rest → l ≠ [] := by
    rintro l hkind hrest rfl
    rw [Cursor.current, hrest, List.nil_append, List.headD_cons, hopen] at hkind
    cases hkind
  have hrest : o.annotations.rest = head ++ brace :: o.body.rest := by simpa using hhead.rest
  have hends' := rest_of_run_annotations hread
  split at hends'
  · next hdouble =>
    rw [hfirst] at hdouble
    rw [if_pos hdouble.1, ← hends'] at hends
    have hpassed := hpassed.rest
    rw [← hends] at hpassed
    obtain rfl : ts = head := List.append_cancel_right (hpassed.symm.trans hrest)
    refine ⟨hcovered, hmem, ⟨[], brace, by simpa using hhead, hopen, by simp [hdouble.2]⟩,
      fun hempty => ?_⟩
    exact absurd hempty (hnonempty _ hdouble.1 hrest)
  · next hdouble =>
    obtain ⟨rfl, rfl⟩ := hends'
    obtain rfl := hpassing [] (.refl _)
    refine ⟨hcovered, hmem, ⟨head, brace, by simpa using hhead, hopen, ?_⟩, fun _ => rfl⟩
    rw [hfirst] at hdouble ⊢
    by_cases hkind : o.annotations.current.kind = .leftBracket
    · have hsecond : o.annotations.kindAt 1 ≠ .leftBracket :=
        fun hsecond => hdouble ⟨hkind, hsecond⟩
      simp [hnonempty head hkind hrest, hkind, hsecond]
    · rw [if_neg hkind] at hends
      simp [hends, hkind]

/-- What the second pass makes of the program: one module gets its annotations. -/
structure Annotated (p q : Program) (m : ModuleId) (a : Annotations) : Prop where
  moduleCount : q.modules.size = p.modules.size
  structNames : ∀ k, q.structNames k = p.structNames k
  self : (q.moduleAt m).annotations = a
  others : ∀ k ≠ m, (q.moduleAt k).annotations = (p.moduleAt k).annotations

/-- A module gets the annotations that stand at its head. -/
theorem annotated_of_run_readContents {o : Outline} {w : WrittenModule}
    (ho : o.id ∈ s.program.modules.handles) (h : (readContents o).run s = .ok (w, s')) :
    Annotated s.program s'.program o.id w.annotations := by
  rw [readContents, run_moveTo_bind] at h
  obtain ⟨⟨ts, a⟩, s₁, hrun, h⟩ := run_bind_eq_ok.mp h
  rw [run_modifyProgram_bind, run_moveTo_bind, run_bound_bind] at h
  obtain ⟨⟨items', bodies⟩, s₂, hitems, h⟩ := run_bind_eq_ok.mp h
  obtain ⟨rfl, rfl⟩ := run_pure_eq_ok.mp h
  have hfirst : s.program.KeepsHeads s₁.program :=
    (Follows.along (x := annotations) inferInstance _ _ _ _ (run_of_run_passing hrun).1).1
  have hlast := (Follows.along (R := KeepsHeads) (x := items o.id _) inferInstance _ _ _ _
    (run_items_of_run_readItems hitems)).1
  have ho₁ : o.id ∈ s₁.program.modules.handles :=
    Arena.mem_handles_of_le ho (Nat.le_of_eq hfirst.moduleCount.symm)
  refine ⟨?_, fun k => ?_, ?_, fun k hk => ?_⟩
  · rw [hlast.moduleCount, ← hfirst.moduleCount]
    exact Arena.size_modify _ _ _
  · rw [hlast.structNames, ← hfirst.structNames]
    exact Program.structNames_modifyModule _ _ k fun _ => rfl
  · rw [hlast.annotations]
    exact congrArg Module.annotations (Arena.get_modify_self ho₁ _)
  · rw [hlast.annotations, ← hfirst.annotations]
    exact congrArg Module.annotations (Arena.get_modify_of_ne hk _)

/-- The second pass over all modules. -/
theorem annotated_of_run_mapM {os : List Outline} {ws : List WrittenModule}
    (hos : ∀ o ∈ os, Found p o ∧ o.annotations.Ended ∧ o.body.Ended)
    (hnodup : (os.map (·.id)).Nodup) (hrange : ∀ o ∈ os, o.id ∈ s.program.modules.handles)
    (h : (os.mapM readContents).run s = .ok (ws, s')) :
    s'.program.modules.size = s.program.modules.size ∧
      (∀ k, s'.program.structNames k = s.program.structNames k) ∧
      (∀ k ∉ os.map (·.id), (s'.program.moduleAt k).annotations =
        (s.program.moduleAt k).annotations) ∧
      List.Forall₂ (fun o w => Found p o ∧ w.Covers o ∧
        (s'.program.moduleAt o.id).annotations = w.annotations) os ws := by
  induction os generalizing s ws with
  | nil =>
      rw [List.mapM_nil] at h
      obtain ⟨rfl, rfl⟩ := run_pure_eq_ok.mp h
      exact ⟨rfl, fun _ => rfl, fun _ _ => rfl, .nil⟩
  | cons o os ih =>
      rw [List.mapM_cons] at h
      obtain ⟨w, s₁, hw, h⟩ := run_bind_eq_ok.mp h
      obtain ⟨ws', s₂, hws, h⟩ := run_bind_eq_ok.mp h
      obtain ⟨rfl, rfl⟩ := run_pure_eq_ok.mp h
      obtain ⟨⟨hfound, hannotations, hbody⟩, hos⟩ := List.forall_mem_cons.mp hos
      obtain ⟨ho, hrange⟩ := List.forall_mem_cons.mp hrange
      rw [List.map_cons, List.nodup_cons] at hnodup
      -- reading one module changes its own annotations only, so those read before it stay
      have hone := annotated_of_run_readContents ho hw
      obtain ⟨hcount, hnames, hothers, hall⟩ := ih hos hnodup.2
        (fun o' ho' => Arena.mem_handles_of_le (hrange o' ho') (Nat.le_of_eq hone.moduleCount.symm))
          hws
      refine ⟨hcount.trans hone.moduleCount, fun k => (hnames k).trans (hone.structNames k),
        fun k hk => ?_,
        .cons ⟨hfound, covers_of_run_readContents hfound hannotations hbody hw, ?_⟩ hall⟩
      · rw [List.map_cons, List.mem_cons, not_or] at hk
        rw [hothers k hk.2, hone.others k hk.1]
      · rw [hothers o.id hnodup.1, hone.self]

end Heart.Parser

namespace Heart

open SignalGraph.Heart.Parser

/-- The first pass: modules and the names of their structs. -/
def firstPass (text : String) : Parser (List Outline) := do
  header text
  outlines (← bound)

/-- What a program keeps of a module, and what the second pass has read of it. -/
structure Kept (p : Program) (o : Outline) (w : WrittenModule) : Prop where
  covers : w.Covers o
  /-- A struct is listed for every word after `struct`. -/
  words : p.structNames o.id = structWords false 0 o.body.rest
  /-- They are the structs that the items declare unless another item has such a word. -/
  structs : p.structNames o.id = w.items.filterMap declaredStruct? ↔
    ∀ ts ∈ w.items, declaredStruct? ts = none → structWords false 0 ts = []
  annotations : (p.moduleAt o.id).annotations = w.annotations

/-- Every module of a text is kept as the two passes have read it. -/
theorem parseFile_structs {file : FileId} {text : String} {p : Program}
    (h : parseFile file text = .ok p) :
    ∃ tokens os s₀ ws s₁, lex file text = .ok tokens ∧
      (firstPass text).run ⟨.start file tokens, {}⟩ = .ok (os, s₀) ∧
      (os.mapM readContents).run s₀ = .ok (ws, s₁) ∧
      p.modules.handles = os.map (·.id) ∧ List.Forall₂ (Kept p) os ws := by
  obtain ⟨tokens, s', htokens, hrun, rfl⟩ := run_of_parseFile h
  have hends := endsAtEof_of_lex htokens
  have hstart := start_at file hends
  unfold wholeProgram at hrun
  simp only [mapM_contents_eq, bind_assoc, pure_bind] at hrun
  obtain ⟨_, ⟨c, p⟩, hheader, hrun⟩ := run_bind_eq_ok.mp hrun
  obtain rfl : p = {} := Still.still _ _ _ _ hheader
  rw [run_bound_bind] at hrun
  obtain ⟨os, s₀, hos, hrun⟩ := run_bind_eq_ok.mp hrun
  obtain ⟨ws, s₁, hws, hrun⟩ := run_bind_eq_ok.mp hrun
  have hfirst : (firstPass text).run ⟨.start file tokens, {}⟩ = .ok (os, s₀) := by
    rw [firstPass, run_bind_of_eq_ok hheader, run_bound_bind, hos]
  have hin : c.In tokens := in_of_run hends ⟨0, start_at file hends⟩ hheader
  have hended : ∀ {c : Cursor}, c.In tokens → c.Ended := fun ⟨_, hc⟩ => hc.ended hends
  -- the first pass: an outline for each module, at its place in the text
  have hfound := found_of_run_outlines (hended hin) hos
  have hplaces := outlines_in hends hin hos
  have hempty : Listing 0 0 {} := ⟨.empty, rfl, fun _ hid => by cases hid⟩
  obtain ⟨hids, hlisting⟩ := listing_outlines hempty _ _ _ _ hos
  have hhandles : s₀.program.modules.handles = os.map (·.id) := by
    have hmap : os.map (·.id) = (os.map (·.id.idx)).map Handle.mk := by simp
    have hsize : s₀.program.modules.items.size = os.length := hlisting.count.trans (Nat.zero_add _)
    rw [hmap, hids, Arena.handles, hsize, List.range_eq_range']
  -- the second pass: annotations and items of each module
  obtain ⟨hcount, hnames, -, hall⟩ := annotated_of_run_mapM
    (fun o ho => ⟨hfound o ho, hended (hplaces o ho).1, hended (hplaces o ho).2⟩)
    (hhandles ▸ Arena.nodup_handles _) (fun o ho => hhandles ▸ List.mem_map_of_mem ho) hws
  -- the third pass fills in bodies and keeps all of this
  have hfills : s₁.program.FillsBodies s'.program := by
    refine (along_forM (fun b _ r _ => ?_) _ _ _ hrun).1
    have hbody : Follows Program.FillsBodies (body b) := by unfold body; infer_instance
    exact hbody.along r
  have hkeeps : s₁.program.KeepsHeads s'.program := .of_modules hfills.modules hfills.structs
  refine ⟨tokens, os, s₀, ws, s₁, htokens, hfirst, hws, ?_, ?_⟩
  · rw [← hhandles]
    exact Arena.handles_eq_of_size (hkeeps.moduleCount.trans hcount)
  · refine hall.imp fun o w hw => ?_
    obtain ⟨hfound, hcovers, hannotations⟩ := hw
    have hwords : s'.program.structNames o.id = structWords false 0 o.body.rest := by
      rw [hkeeps.structNames, hnames, hfound.structs.names]
    obtain ⟨brace, rest, hbody, hclose⟩ := hcovers.body
    refine ⟨hcovers, hwords, ?_, (hkeeps.annotations _).trans hannotations⟩
    rw [hwords, hbody, structWords_flatten (fun ts hts => (hcovers.items ts hts).1) hclose]
    exact flatMap_words_eq_iff fun ts hts => (hcovers.items ts hts).2

/-- A processor with an annotation and a struct. -/
@[irreducible] def pointText : String :=
  "#HEART 1\nprocessor P [[main: true]]\n\x7b\n    struct S \x7b int32 x; \x7d\n" ++
  "    output out stream float32;\n\x7d\n"

@[irreducible] def pointProgram : Program := (parse pointText).toOption.getD {}

/-- `pointText` is parsed to a module with one struct and one annotation. -/
theorem parse_point : (parse pointText).isOk ∧ pointProgram.structNames ⟨0⟩ = ["S"] ∧
    (pointProgram.moduleAt ⟨0⟩).annotations.has "main" := by
  decide +kernel

/-- The struct that `pointText` declares is listed. -/
theorem parseFile_structs_point : parseFile ⟨0⟩ pointText = .ok pointProgram ∧
    pointProgram.structNames ⟨0⟩ = ["S"] ∧ (pointProgram.moduleAt ⟨0⟩).annotations.has "main" ∧
    ∃ os ws, pointProgram.modules.handles = os.map (·.id) ∧
      List.Forall₂ (Kept pointProgram) os ws := by
  obtain ⟨hread, hnames, hmain⟩ := parse_point
  have hparse : parseFile ⟨0⟩ pointText = .ok pointProgram := by
    rw [pointProgram]
    cases h : parseFile ⟨0⟩ pointText with
    | error d => rw [parse, h] at hread; cases hread
    | ok p => rw [parse, h]; rfl
  obtain ⟨-, os, -, ws, -, -, -, -, hids, hkept⟩ := parseFile_structs hparse
  exact ⟨hparse, hnames, hmain, os, ws, hids, hkept⟩

/-- What the second pass reads of the modules of a text. -/
def written (text : String) : Option (List WrittenModule) :=
  (lex ⟨0⟩ text).toOption.bind fun tokens =>
    ((firstPass text >>= (·.mapM readContents)).run ⟨.start ⟨0⟩ tokens, {}⟩).toOption.map (·.1)

/-- A processor whose input has the name `struct`, and no struct. -/
def phantomText : String :=
  "#HEART 1\nprocessor P\n\x7b\n    input struct event int32;\n" ++
  "    output out stream float32;\n\x7d\n"

/-- A struct is listed that no item declares. -/
theorem parse_phantom :
    (parse phantomText).toOption.map (·.structNames ⟨0⟩) = some ["event"] ∧
      (written phantomText).map (·.map (·.items.filterMap declaredStruct?)) = some [[]] := by
  decide +kernel

/-- A processor with a property in single brackets. -/
def bracketedText : String :=
  "#HEART 1\nprocessor P [main: true]\n\x7b\n    output out stream float32;\n\x7d\n"

/-- The property is skipped. -/
example :
    (parse bracketedText).toOption.map (fun p => (p.moduleAt ⟨0⟩).annotations) = some {} ∧
      (written bracketedText).map (·.map (·.head)) = some [[]] := by
  decide +kernel

end Heart

end SignalGraph

import SignalGraph.Proofs.Heart.Bodies

/-!
# SignalGraph.Proofs.Heart.Parsed

Every program that is read from a text is intact (`intact_parseFile`).  Each of the three passes
keeps the program intact and its entries in place, so the handles that one pass leaves for the next,
of modules and of functions whose bodies wait, are still in range there.
-/

namespace SignalGraph

/-- The program that parsing starts from is intact. -/
theorem Program.intact_empty : ({} : Program).Intact where
  wellFormed := {
    modules := fun _ hm => by cases hm
    nodes := fun _ hm => by cases hm
    structs := fun _ hr => by cases hr
    functions := fun _ hf => by cases hf
    vars := fun _ hv => by cases hv
    structOwner := fun _ hid => by cases hid
    functionOwner := fun _ hid => by cases hid
    structsListed := .nil
    functionsListed := .nil
    declaredOnce := .nil
    declaredInRange := fun _ hv => by cases hv }
  constants _ hv := by cases hv

namespace Heart

namespace Parser

variable {p : Program} {m : ModuleId}

/-! ## Modules -/

/-- The struct names of a module are declared in the first pass, by induction on the bound on the
tokens that are looked at. -/
theorem builds_structNames (hp : p.Intact) (hm : m ∈ p.modules.handles) (n depth : Nat) :
    Builds (structNames m n depth) p fun _ _ => True := by
  induction n generalizing p depth with
  | zero => exact along_expected _
  | succ n ih =>
      unfold structNames
      refine along_then fun t => ?_
      split
      · exact along_expected _
      · exact along_then fun _ => ih hp hm _
      · exact along_then fun _ => along_ite (along_pure trivial) (ih hp hm _)
      · refine along_then fun _ => along_ite ?_ (ih hp hm depth)
        refine along_then fun name => along_then fun span => ?_
        have hadds := Program.adds_addStruct hp.wellFormed hm name span
        refine along_add_bind hadds.enlarges (ih (hp.adds hadds) ?_ depth)
        exact Arena.mem_handles_of_le hm hadds.moduleCount

/-- The first pass over one module keeps the program intact, and the module is there. -/
theorem builds_outline (hp : p.Intact) :
    Builds outline p fun q o => o.id ∈ q.modules.handles := by
  unfold outline
  refine along_then fun first => ?_
  split
  · exact along_expected _
  · rename_i kind _
    refine along_then fun _ => along_then fun name => along_then fun span => ?_
    have hadded := p.adds_addModule kind name
    have hp := hp.adds hadded
    have hm : p.modules.next ∈ (p.addModule kind name).2.modules.handles := by
      simp [Program.addModule, Arena.handles_push]
    have hspan :=
      Program.adds_editModule hp.wellFormed hm (f := fun k => { k with span }) rfl rfl rfl
      rfl (hp.wellFormed.moduleAt hm).annotations (fun _ he => .inl he) (fun _ hn => .inl hn)
      (hp.wellFormed.wired hm)
    refine along_add_bind hadded.enlarges (along_modifyProgram_bind hspan.enlarges ?_)
    have hp := hp.adds hspan
    have hm := Arena.mem_handles_of_le hm hspan.moduleCount
    refine along_then fun annotations => ?_
    extract_lets jp
    -- what is left once the annotations have been skipped, if there are any
    have hjp : ∀ r, Builds (jp r)
        ((p.addModule kind name).2.modifyModule p.modules.next fun k => { k with span })
        fun q o => o.id ∈ q.modules.handles := by
      intro r
      unfold jp
      refine along_then fun _ => along_then fun body => along_then fun n => ?_
      refine Along.bind (builds_structNames hp hm n 0) fun _ q hq _ => along_pure ?_
      exact Arena.mem_handles_of_le hm hq.modules
    clear_value jp
    exact along_then fun bracket => along_ite (along_then fun _ => hjp _) (hjp _)

/-- The first pass keeps the program intact, and every module that it has found is there. -/
theorem builds_outlines (hp : p.Intact) (n : Nat) :
    Builds (outlines n) p fun q l => ∀ o ∈ l, o.id ∈ q.modules.handles := by
  induction n generalizing p with
  | zero => exact along_pure (by simp)
  | succ n ih =>
      unfold outlines
      refine along_then fun atEnd => along_ite (along_pure (by simp)) ?_
      refine Along.bind (builds_outline hp) fun o q hq ho => ?_
      refine Along.bind (ih (hq.intact hp)) fun l r hr hl => along_pure fun o' ho' => ?_
      rcases List.mem_cons.mp ho' with rfl | ho'
      · exact Arena.mem_handles_of_le ho hr.modules
      · exact hl o' ho'

/-- The second pass over one module keeps the program intact, and every function whose body is left
for later is there. -/
theorem builds_contents (hp : p.Intact) {o : Outline} (ho : o.id ∈ p.modules.handles) :
    Builds (contents o) p fun q l => ∀ b ∈ l, b.function ∈ q.functions.handles := by
  unfold contents
  refine along_then fun _ => (reads_annotations hp.wellFormed).build fun a q hq ha => ?_
  have hp := hq.intact hp
  have ho : o.id ∈ q.modules.handles := by rwa [hq.modules]
  have hedit := Program.adds_editModule hp.wellFormed ho
    (f := fun k => { k with annotations := a }) rfl rfl rfl rfl ha (fun _ he => .inl he)
    (fun _ hn => .inl hn) (hp.wellFormed.wired ho)
  refine along_modifyProgram_bind hedit.enlarges (along_then fun _ => along_then fun n => ?_)
  exact builds_items (hp.adds hedit) (Arena.mem_handles_of_le ho hedit.moduleCount) n

/-! ## Programs -/

instance (text : String) : Still (header text) := by
  unfold header
  refine still_bind inferInstance fun first => still_bind inferInstance fun hash => ?_
  extract_lets jp
  have hjp : ∀ valid, Still (jp valid) := by
    intro valid
    unfold jp
    split
    · infer_instance
    · refine still_bind inferInstance fun span => still_bind inferInstance fun t => ?_
      extract_lets
      infer_instance
  clear_value jp
  infer_instance

/-- The first two passes: all but the bodies of functions, which are still to be read. -/
def firstPasses (text : String) : Parser (List PendingBody) := do
  header text
  let modules ← outlines (← bound)
  let bodies ← modules.mapM contents
  return bodies.flatten

/-- Parsing is the first two passes, and then the third over the bodies that they have left. -/
theorem wholeProgram_eq (text : String) :
    wholeProgram text = firstPasses text >>= fun bodies => bodies.forM body := by
  simp [wholeProgram, firstPasses]

/-- The first two passes keep the program intact. -/
theorem builds_firstPasses (hp : p.Intact) (text : String) :
    Builds (firstPasses text) p fun q bodies => ∀ b ∈ bodies, b.function ∈ q.functions.handles := by
  unfold firstPasses
  refine along_then fun _ => along_then fun n => ?_
  refine Along.bind (builds_outlines hp n) fun outlines q hq houtlines => ?_
  have hcontents : Builds (outlines.mapM contents) q
      fun r bodies => ∀ l ∈ bodies, ∀ b ∈ l, b.function ∈ r.functions.handles := by
    refine along_mapM (fun r s l hs hl b hb => ?_) fun o ho r hr => ?_
    · exact Arena.mem_handles_of_le (hl b hb) hs.functions
    · refine builds_contents (hr.intact (hq.intact hp)) ?_
      exact Arena.mem_handles_of_le (houtlines o ho) hr.modules
  refine hcontents.bind fun bodies r hr hbodies => along_pure fun b hb => ?_
  obtain ⟨l, hl, hb⟩ := List.mem_flatten.mp hb
  exact hbodies l hl b hb

/-- All three passes keep the program intact. -/
theorem builds_wholeProgram (hp : p.Intact) (text : String) :
    Builds (wholeProgram text) p fun _ _ => True := by
  rw [wholeProgram_eq]
  refine Along.bind (builds_firstPasses hp text) fun bodies q hq hbodies => ?_
  refine along_forM fun b hb r hr => along_then fun _ => ?_
  refine builds_functionBody (hr.intact (hq.intact hp)) ?_
  exact Arena.mem_handles_of_le (hbodies b hb) hr.functions

end Parser

/-- What is read from a text is what the parser of whole programs leaves. -/
theorem run_of_parseFile {file : FileId} {text : String} {p : Program}
    (h : parseFile file text = .ok p) :
    ∃ tokens s, lex file text = .ok tokens ∧
      (Parser.wholeProgram text).run ⟨.start file tokens, {}⟩ = .ok ((), s) ∧ s.program = p := by
  unfold parseFile at h
  cases htokens : lex file text with
  | error d =>
      rw [htokens] at h
      cases h
  | ok tokens =>
      rw [htokens] at h
      cases hrun : (Parser.wholeProgram text).run ⟨.start file tokens, {}⟩ with
      | error d =>
          simp only [bind, Except.bind, hrun] at h
          cases h
      | ok x =>
          simp only [bind, Except.bind, hrun] at h
          cases h
          exact ⟨tokens, x.2, rfl, hrun, rfl⟩

/-- What the parser of whole programs leaves holds of what is read. -/
theorem of_parseFile {file : FileId} {text : String} {p : Program} {property : Program → Prop}
    (hgives : Parser.Gives (Parser.wholeProgram text) {} fun _ => property)
    (h : parseFile file text = .ok p) : property p := by
  obtain ⟨tokens, s, -, hrun, rfl⟩ := run_of_parseFile h
  exact hgives _ _ _ hrun

/-- A program that was parsed is intact: it is the empty one with what the parser has built. -/
theorem intact_parseFile {file : FileId} {text : String} {p : Program}
    (h : parseFile file text = .ok p) : p.Intact := by
  have hbuilt := Parser.builds_wholeProgram Program.intact_empty text
  exact of_parseFile (hbuilt.mono fun _ _ hq => hq.1.intact Program.intact_empty) h

/-- A successful parse, with the program read off it. -/
theorem parse_eq_ok {text : String} (h : (parse text).toOption.isSome) :
    parse text = .ok ((parse text).toOption.getD {}) := by
  cases hparse : parse text with
  | error d =>
      rw [hparse] at h
      cases h
  | ok p => rfl

end Heart

end SignalGraph

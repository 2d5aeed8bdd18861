import SignalGraph.Proofs.Heart.ParserSteps
import SignalGraph.Proofs.Heart.StructWords
import SignalGraph.Proofs.Program.Tidy

/-!
# SignalGraph.Proofs.Heart.Outlines

The first pass over a text.  Of each module it finds the structs, one for every word after `struct`,
and the place of the opening brace, which is right after the name or after a group in brackets
(`Found`).  What it finds of one module stays when it goes on to the next (`found_of_run_outlines`).
-/

namespace SignalGraph

/-! ## The structs of a module -/

namespace Program

/-- The names of the structs that a module lists. -/
def structNames (p : Program) (m : ModuleId) : List String :=
  (p.moduleAt m).structs.map fun id => (p.structAt id).name

/-- A change that keeps the structs of a module keeps their names. -/
theorem structNames_modifyModule (p : Program) (k m : ModuleId) {g : Module → Module}
    (hg : ∀ x, (g x).structs = x.structs) :
    (p.modifyModule k g).structNames m = p.structNames m := by
  rw [structNames, KeepsOrder.moduleAt_modifyModule_eq Module.structs p k m hg]
  rfl

/-- The module is one of the program's and lists structs of these names. -/
structure ListsStructs (p : Program) (m : ModuleId) (names : List String) : Prop where
  inRange : m ∈ p.modules.handles
  structs : ∀ id ∈ (p.moduleAt m).structs, id ∈ p.structs.handles
  names : p.structNames m = names

variable {p q : Program} {m k : ModuleId} {names : List String}

/-- A new module lists no structs. -/
theorem listsStructs_addModule (p : Program) (kind : ModuleKind) (name : String) :
    (p.addModule kind name).2.ListsStructs p.modules.next [] := by
  have hstructs : ((p.addModule kind name).2.moduleAt p.modules.next).structs = [] :=
    congrArg Module.structs (Arena.get_push_next p.modules _)
  refine ⟨?_, fun id hid => ?_, ?_⟩
  · rw [addModule, Arena.handles_push]
    simp
  · rw [hstructs] at hid
    cases hid
  · rw [structNames, hstructs, List.map_nil]

namespace ListsStructs

/-- Other modules keep their structs when one is added. -/
theorem addModule (h : p.ListsStructs m names) (kind : ModuleKind) (name : String) :
    (p.addModule kind name).2.ListsStructs m names := by
  have hsame : (p.addModule kind name).2.moduleAt m = p.moduleAt m :=
    Arena.get_push_of_mem h.inRange _
  refine ⟨?_, fun id hid => ?_, ?_⟩
  · rw [Program.addModule, Arena.handles_push]
    exact List.mem_append_left _ h.inRange
  · rw [hsame] at hid
    exact h.structs id hid
  · rw [structNames, hsame]
    exact h.names

/-- Modules keep their structs under a change that keeps the lists of them. -/
theorem modifyModule (h : p.ListsStructs m names) (k : ModuleId) {g : Module → Module}
    (hg : ∀ x, (g x).structs = x.structs) : (p.modifyModule k g).ListsStructs m names := by
  have hsame := KeepsOrder.moduleAt_modifyModule_eq Module.structs p k m hg
  refine ⟨?_, fun id hid => ?_, ?_⟩
  · rw [Program.modifyModule, Arena.handles_modify]
    exact h.inRange
  · rw [hsame] at hid
    exact h.structs id hid
  · rw [structNames_modifyModule p k m hg]
    exact h.names

/-- Entries of the struct table stay where they are. -/
theorem pushStruct (h : p.ListsStructs m names) (x : Structure) :
    { p with structs := p.structs.push x }.ListsStructs m names := by
  refine ⟨h.inRange, fun id hid => ?_, ?_⟩
  · rw [Arena.handles_push]
    exact List.mem_append_left _ (h.structs id hid)
  · rw [← h.names]
    refine List.map_congr_left fun id hid => ?_
    exact congrArg Structure.name (Arena.get_push_of_mem (h.structs id hid) x)

/-- A struct of another module does not matter. -/
theorem addStruct_of_ne (h : p.ListsStructs m names) (hk : m ≠ k) (name : String) (span : Span) :
    (p.addStruct k name span).2.ListsStructs m names := by
  have hpushed := h.pushStruct { name, owner := k, span }
  have hsame : (p.addStruct k name span).2.moduleAt m = p.moduleAt m := Arena.get_modify_of_ne hk _
  refine ⟨?_, fun id hid => ?_, ?_⟩
  · rw [addStruct, Program.modifyModule, Arena.handles_modify]
    exact h.inRange
  · rw [hsame] at hid
    exact hpushed.structs id hid
  · rw [structNames, hsame]
    exact hpushed.names

/-- A struct is listed after those that are there. -/
theorem addStruct (h : p.ListsStructs m names) (name : String) (span : Span) :
    (p.addStruct m name span).2.ListsStructs m (names ++ [name]) := by
  have hpushed := h.pushStruct { name, owner := m, span }
  have hsame : ((p.addStruct m name span).2.moduleAt m).structs =
      (p.moduleAt m).structs ++ [p.structs.next] :=
    congrArg Module.structs (Arena.get_modify_self h.inRange _)
  have hnew : (p.addStruct m name span).2.structAt p.structs.next = { name, owner := m, span } :=
    Arena.get_push_next p.structs _
  refine ⟨?_, fun id hid => ?_, ?_⟩
  · rw [Program.addStruct, Program.modifyModule, Arena.handles_modify]
    exact h.inRange
  · show id ∈ (p.structs.push { name, owner := m, span }).handles
    rw [hsame, List.mem_append, List.mem_singleton] at hid
    rcases hid with hid | rfl
    · exact hpushed.structs id hid
    · rw [Arena.handles_push]
      simp
  · rw [structNames, hsame, List.map_append, List.map_singleton, hnew]
    exact congrArg (· ++ [name]) hpushed.names

end ListsStructs

end Program

namespace Heart.Parser

open Program

variable {s s' : ParserState} {p : Program} {m k : ModuleId} {names : List String}

/-! ## The first pass -/

/-- What the first pass finds of a module: its structs, and the place of the opening brace, which is
right after the name or after a group in brackets. -/
structure Found (p : Program) (o : Outline) : Prop where
  structs : p.ListsStructs o.id (structWords false 0 o.body.rest)
  head : ∃ head brace, o.annotations.Passed (head ++ [brace]) o.body ∧ brace.kind = .leftBrace ∧
    if o.annotations.current.kind = .leftBracket then
      brace :: o.body.rest = o.annotations.next.afterBrackets 0
    else head = []

/-- A struct is listed for every word. -/
theorem listsStructs_of_run_structNames {n depth : Nat} {a : Unit} (hs : s.cursor.Ended)
    (h : (structNames m n depth).run s = .ok (a, s')) (hp : s.program.ListsStructs m names) :
    s'.program.ListsStructs m (names ++ structWords false depth s.cursor.rest) := by
  induction n generalizing s names depth with
  | zero => cases h
  | succ n ih =>
      -- one token is taken in every round; it is what the words are told from
      have hrest : ∀ {c : Cursor}, c.Ended → c.current.kind ≠ .eof →
          c.rest = c.current :: c.next.rest ∧ c.next.Ended := by
        intro c hc hkind
        obtain ⟨hpassed, hended⟩ := hc.passed_next hkind
        exact ⟨hpassed.rest, hended⟩
      rw [structNames, run_current_bind] at h
      split at h
      · cases h
      · next hopen =>
        obtain ⟨heq, hended⟩ := hrest hs (by simp [hopen])
        rw [run_advance_bind] at h
        rw [heq, structWords_open hopen]
        exact ih hended h hp
      · next hclose =>
        obtain ⟨heq, hended⟩ := hrest hs (by simp [hclose])
        rw [run_advance_bind] at h
        rw [heq, structWords, hclose]
        split at h
        · next hdepth =>
          obtain ⟨-, rfl⟩ := run_pure_eq_ok.mp h
          simpa [hdepth] using hp
        · next hdepth =>
          rw [if_neg hdepth]
          exact ih hended h hp
      · next heof hopen hclose =>
        obtain ⟨heq, hended⟩ := hrest hs heof
        rw [run_advance_bind] at h
        rw [heq]
        split at h
        · next hword =>
          simp only [Bool.and_eq_true, decide_eq_true_eq] at hword
          obtain ⟨⟨hkind, htext⟩, rfl⟩ := hword
          obtain ⟨name, s₁, hname, h⟩ := run_bind_eq_ok.mp h
          obtain ⟨hidentifier, rfl, rfl⟩ := run_identifier_eq_ok hname
          obtain ⟨span, s₂, hspan, h⟩ := run_bind_eq_ok.mp h
          cases hspan
          rw [run_add_bind] at h
          obtain ⟨heq', hended'⟩ := hrest hended (by rw [hidentifier]; decide)
          rw [heq', structWords_struct ⟨hkind, htext⟩ hidentifier, ← List.singleton_append,
            ← List.append_assoc]
          exact ih hended' h (hp.addStruct _ _)
        · next hword =>
          rw [structWords_other hopen hclose (by simpa [and_assoc] using hword)]
          exact ih hended h hp

/-- Declaring the structs of another module does not matter. -/
theorem gives_structNames_of_ne (hmk : m ≠ k) (hp : p.ListsStructs m names) (n depth : Nat) :
    Gives (structNames k n depth) p fun _ q => q.ListsStructs m names := by
  induction n generalizing p depth with
  | zero => exact gives_expected _
  | succ n ih =>
      unfold structNames
      refine still_then fun t => ?_
      split
      · exact gives_expected _
      · exact still_then fun _ => ih hp _
      · exact still_then fun _ => gives_ite (gives_pure hp) (ih hp _)
      · refine still_then fun _ => gives_ite ?_ (ih hp depth)
        refine still_then fun name => still_then fun span => ?_
        have hadd : Gives (add (·.addStruct k name span)) p fun _ q => q.ListsStructs m names :=
          gives_add (hp.addStruct_of_ne hmk name span)
        exact hadd.bind fun _ q hq => ih hq depth

/-- Another module leaves the structs of those before it alone. -/
theorem gives_outline (hp : p.ListsStructs m names) :
    Gives outline p fun _ q => q.ListsStructs m names := by
  unfold outline
  refine still_then fun first => ?_
  split
  · exact gives_expected _
  · rename_i kind _
    refine still_then fun _ => still_then fun name => still_then fun span => ?_
    have hadd : Gives (add (·.addModule kind name)) p fun id q =>
        id = p.modules.next ∧ q.ListsStructs m names := gives_add ⟨rfl, hp.addModule kind name⟩
    refine hadd.bind fun id q hnew => ?_
    obtain ⟨hid, hq⟩ := hnew
    have hne : m ≠ id := by
      rintro rfl
      exact Nat.lt_irrefl _ (hid ▸ Arena.mem_handles_iff.mp hp.inRange)
    have hspan : Gives (modifyProgram (·.modifyModule id fun m => { m with span })) q
        fun _ r => r.ListsStructs m names := gives_modifyProgram (hq.modifyModule id fun _ => rfl)
    refine hspan.bind fun _ r hr => still_then fun annotations => ?_
    extract_lets jp
    have hjp : ∀ y, Gives (jp y) r fun _ q => q.ListsStructs m names := by
      intro y
      unfold jp
      refine still_then fun _ => still_then fun body => still_then fun n => ?_
      exact (gives_structNames_of_ne hne hr n 0).bind fun _ q hq => gives_pure hq
    clear_value jp
    exact still_then fun bracket => gives_ite (still_then fun _ => hjp _) (hjp _)

/-- The first pass over another module keeps what was found of this one. -/
theorem Found.gives_outline {o : Outline} (h : Found p o) : Gives outline p fun _ q => Found q o :=
  (Parser.gives_outline h.structs).mono fun _ _ hq => ⟨hq, h.head⟩

/-- A module from the place after its name on. -/
def outlineFrom (m : ModuleId) : Parser Outline := do
  let annotations ← cursor
  if ← at_ .leftBracket then skipBalanced .leftBracket .rightBracket
  let _ ← expect .leftBrace
  let body ← cursor
  structNames m (← bound) 0
  return ⟨m, annotations, body⟩

/-- After its name, a module is found with its structs and its opening brace. -/
theorem found_of_run_outlineFrom {o : Outline} (hs : s.cursor.Ended)
    (hp : s.program.ListsStructs m []) (h : (outlineFrom m).run s = .ok (o, s')) :
    Found s'.program o := by
  rw [outlineFrom, run_cursor_bind, run_at_bind] at h
  extract_lets jp at h
  -- what is left once the annotations have been skipped, if there are any
  have hjp : ∀ c r head, s.cursor.Passed head c → c.Ended →
      (if s.cursor.current.kind = .leftBracket then c.rest = s.cursor.next.afterBrackets 0
        else head = []) →
      (jp r).run ⟨c, s.program⟩ = .ok (o, s') → Found s'.program o := by
    intro c r head hhead hc hends h
    unfold jp at h
    obtain ⟨brace, s₁, hbrace, h⟩ := run_bind_eq_ok.mp h
    obtain ⟨hopen, rfl, rfl⟩ := run_expect_eq_ok hbrace
    rw [run_cursor_bind, run_bound_bind] at h
    obtain ⟨_, s₂, hnames, h⟩ := run_bind_eq_ok.mp h
    obtain ⟨rfl, rfl⟩ := run_pure_eq_ok.mp h
    obtain ⟨hpassed, hended⟩ := hc.passed_next (by rw [hopen]; decide)
    refine ⟨listsStructs_of_run_structNames hended hnames hp, head, c.current, hhead.trans hpassed,
      hopen, ?_⟩
    rwa [hpassed.rest] at hends
  clear_value jp
  split at h
  · next hopen =>
    have hopen : s.cursor.current.kind = .leftBracket := of_decide_eq_true hopen
    obtain ⟨_, ⟨c, p⟩, hskipped, h⟩ := run_bind_eq_ok.mp h
    obtain rfl : p = s.program := Still.still s.program s.cursor _ _ hskipped
    obtain ⟨-, -, -, hc⟩ := Takes.takesAt (n := 0) s hs _ _ hskipped
    obtain ⟨-, ts, hts, hgroup⟩ := passed_of_run_skipBalanced (by decide) hs hskipped
    refine hjp c _ _ ((hs.passed_next (by simp [hopen])).1.trans hts) hc ?_ h
    rw [if_pos hopen, Cursor.afterBrackets, hts.rest, hgroup]
  · next hopen =>
    have hopen : s.cursor.current.kind ≠ .leftBracket := fun hkind => hopen (decide_eq_true hkind)
    exact hjp s.cursor _ [] (.refl _) hs (by rw [if_neg hopen]) h

/-- The first pass over a module finds it. -/
theorem found_of_run_outline {o : Outline} (hs : s.cursor.Ended) (h : outline.run s = .ok (o, s')) :
    Found s'.program o := by
  unfold outline at h
  rw [run_current_bind] at h
  split at h
  · cases h
  · rename_i kind hkind
    have hword := (Option.ite_none_right_eq_some.mp hkind).1
    rw [run_advance_bind] at h
    have hs₁ := (hs.passed_next (by simp [hword])).2
    obtain ⟨name, s₂, hname, h⟩ := run_bind_eq_ok.mp h
    obtain ⟨-, -, -, hs₂⟩ := Takes.takesAt (n := 0) _ hs₁ _ _ hname
    obtain ⟨span, s₃, hspan, h⟩ := run_bind_eq_ok.mp h
    have hsame : s₃ = s₂ := by cases hspan; rfl
    rw [hsame, run_add_bind, run_modifyProgram_bind] at h
    have hlisted :=
      (listsStructs_addModule s₂.program kind name).modifyModule s₂.program.modules.next
        (g := fun m => { m with span }) fun _ => rfl
    refine found_of_run_outlineFrom ?_ ?_ h
    · exact hs₂
    · exact hlisted

/-- What was found of a module stays through the rest of the first pass. -/
theorem gives_outlines_found {o : Outline} (h : Found p o) (n : Nat) :
    Gives (outlines n) p fun _ q => Found q o := by
  induction n generalizing p with
  | zero => exact gives_pure h
  | succ n ih =>
      unfold outlines
      refine still_then fun atEnd => gives_ite (gives_pure h) ?_
      exact h.gives_outline.bind fun _ q hq => (ih hq).bind fun _ r hr => gives_pure hr

/-- The first pass finds all modules, by induction on the bound on their number. -/
theorem found_of_run_outlines {n : Nat} {os : List Outline} (hs : s.cursor.Ended)
    (h : (outlines n).run s = .ok (os, s')) : ∀ o ∈ os, Found s'.program o := by
  induction n generalizing s os with
  | zero =>
      obtain ⟨rfl, -⟩ := run_pure_eq_ok.mp h
      exact List.forall_mem_nil _
  | succ n ih =>
      rw [outlines, run_at_bind] at h
      split at h
      · obtain ⟨rfl, -⟩ := run_pure_eq_ok.mp h
        exact List.forall_mem_nil _
      · obtain ⟨o, s₁, ho, h⟩ := run_bind_eq_ok.mp h
        obtain ⟨os', s₂, hos, h⟩ := run_bind_eq_ok.mp h
        obtain ⟨rfl, rfl⟩ := run_pure_eq_ok.mp h
        obtain ⟨-, -, -, hs₁⟩ := Takes.takesAt (n := 0) s hs o s₁ ho
        have hfound := gives_outlines_found (found_of_run_outline hs ho) n _ _ _ hos
        exact List.forall_mem_cons.mpr ⟨hfound, ih hs₁ hos⟩

end Heart.Parser

end SignalGraph

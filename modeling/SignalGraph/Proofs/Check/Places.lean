import SignalGraph.Check.Verify
import SignalGraph.Proofs.Heart.Located
import SignalGraph.Proofs.Link.Places

/-!
# SignalGraph.Proofs.Check.Places

Where faults of programs are reported.  Every rule reports what it finds where a module, an
endpoint, a node, a connection, a function or a block stands, or nowhere (`failsAt_check`).  So all
that is reported of a program that was read from a text, and of the text itself, stands at
characters of the text or nowhere, and can be shown with the text (`reported_in_text`).
-/

namespace SignalGraph.Check

variable {good : Span → Prop}

/-! ## Verdicts -/

/-- A refusal at a good place fails at a good place. -/
theorem failsAt_refuse {condition : Bool} {f : Fault} {span : Span} (h : good span) :
    FailsAt good (refuse condition f span) :=
  .ite (fun _ => failsAt_error h) fun _ => failsAt_ok _

/-- Checks that fail at good places do so one after the other. -/
theorem failsAt_each {α : Type} {check : α → Verdict} {l : List α}
    (h : ∀ a ∈ l, FailsAt good (check a)) : FailsAt good (each check l) := by
  induction l with
  | nil => exact failsAt_ok _
  | cons a l ih =>
      exact (h a List.mem_cons_self).bind fun _ _ => ih fun b hb => h b (List.mem_cons_of_mem a hb)

/-- A name that occurs twice is reported where it occurs again. -/
theorem failsAt_distinctly {α : Type} {name : α → String} {span : α → Span}
    {duplicate : String → Fault} {check : α → Verdict} {seen : List String} {l : List α}
    (hspan : ∀ a ∈ l, good (span a)) (h : ∀ a ∈ l, FailsAt good (check a)) :
    FailsAt good (distinctly name span duplicate check seen l) := by
  induction l generalizing seen with
  | nil => exact failsAt_ok _
  | cons a l ih =>
      refine (failsAt_refuse (hspan a List.mem_cons_self)).bind fun _ _ => ?_
      refine (h a List.mem_cons_self).bind fun _ _ => ih (fun b hb => ?_) fun b hb => ?_
      · exact hspan b (List.mem_cons_of_mem a hb)
      · exact h b (List.mem_cons_of_mem a hb)

variable {p : Program} {settings : Settings}

/-! ## Modules -/

/-- A bad size is reported where the array stands. -/
theorem failsAt_checkArraySize {name : String} {size : Option Nat} {span : Span} (h : good span) :
    FailsAt good (checkArraySize settings name size span) := by
  unfold checkArraySize
  split
  · exact failsAt_ok _
  · exact failsAt_refuse h

/-- Faults of an endpoint are reported where it stands. -/
theorem failsAt_checkEndpoint {e : Endpoint} (he : good e.span) :
    FailsAt good (checkEndpoint settings e) := by
  unfold checkEndpoint
  split
  · exact failsAt_error he
  · refine (failsAt_refuse he).bind fun _ _ => (failsAt_refuse he).bind fun _ _ => ?_
    exact failsAt_checkArraySize he

/-- Faults of a node are reported where it stands. -/
theorem failsAt_checkNode {n : Node} (hn : good n.span) :
    FailsAt good (checkNode p settings n) := by
  unfold checkNode
  refine (failsAt_checkArraySize hn).bind fun _ _ => ?_
  split
  · exact failsAt_error hn
  · exact failsAt_refuse hn

/-- A module without its parent is reported where it stands. -/
theorem failsAt_checkParent {id : ModuleId} {m : Module} (hm : good m.span) :
    FailsAt good (checkParent p id m) := by
  unfold checkParent
  split
  · exact failsAt_ok _
  · exact failsAt_refuse hm

/-- Faults of a module that runs are reported where it, its endpoints or its nodes stand. -/
theorem failsAt_checkRunnable {m : Module} (hm : m.Placed good) :
    FailsAt good (checkRunnable p settings m) := by
  refine .bind (failsAt_distinctly hm.endpoints fun e he => ?_) fun _ _ => .bind
    (failsAt_distinctly hm.nodes fun n hn => ?_) fun _ _ => failsAt_refuse hm.span
  · exact failsAt_checkEndpoint (hm.endpoints e he)
  · exact failsAt_checkNode (hm.nodes n hn)

/-- Faults of the main module are reported where it or its endpoints stand. -/
theorem failsAt_checkMain {m : Module} (hm : m.Placed good) : FailsAt good (checkMain m) := by
  refine .bind (failsAt_each fun e he => ?_) fun _ _ => failsAt_each fun e he => ?_
  · have he := hm.endpoints e (List.mem_of_mem_filter he)
    exact (failsAt_refuse he).bind fun _ _ => failsAt_refuse he
  · exact failsAt_refuse (hm.endpoints e (List.mem_of_mem_filter he))

/-- Faults of modules are reported where a module stands, or something that it holds. -/
theorem failsAt_checkModules (hp : p.Placed good) (hdummy : good .dummy) (main : Option ModuleId) :
    FailsAt good (checkModules p settings main) := by
  refine .bind (failsAt_distinctly ?_ ?_) fun _ _ => .bind (failsAt_each fun x hx => ?_)
    fun _ _ => ?_
  · exact fun x hx => (hp.modules.of_mem_entries hx).span
  · exact fun x hx => failsAt_checkParent (hp.modules.of_mem_entries hx).span
  · exact failsAt_checkRunnable (hp.modules.of_mem_entries (List.mem_of_mem_filter hx))
  · split
    · exact failsAt_ok _
    · next id => exact failsAt_checkMain (hp.moduleAt hdummy id)

/-! ## Functions -/

section

variable {id : FunctionId} {f : Function}

/-- Rules on functions fail at good places if they do for each function. -/
theorem failsAt_eachFunction (hp : p.Placed good) {check : FunctionId → Function → Verdict}
    (h : ∀ id f, f.Placed good → FailsAt good (check id f)) : FailsAt good (eachFunction p check) :=
  failsAt_each fun x hx => h x.1 x.2 (hp.functions.of_mem_entries hx)

/-- Faulty calls and advances are reported where the function or a block stands. -/
theorem failsAt_checkCalls (hf : f.Placed good) : FailsAt good (checkCalls p id f) := by
  unfold checkCalls
  extract_lets run jp
  have hjp : ∀ x, FailsAt good (jp x) := fun _ => failsAt_refuse hf.span
  clear_value jp
  refine (failsAt_refuse hf.span).bind fun _ _ => (failsAt_refuse hf.span).bind fun _ _ => ?_
  refine .ite (fun _ => ?_) fun _ => hjp _
  split
  · exact failsAt_error hf.span
  · exact hjp _

/-- A branch with the wrong values is reported where its block stands. -/
theorem failsAt_checkBranch {span : Span} (hspan : good span) (target : BlockId)
    (args : List Expr) : FailsAt good (checkBranch p id f span target args) := by
  unfold checkBranch
  split
  · exact failsAt_error hspan
  · exact (failsAt_refuse hspan).bind fun _ _ => failsAt_each fun _ _ => failsAt_refuse hspan

theorem failsAt_checkTerminator {b : Block} (hb : good b.span) :
    FailsAt good (checkTerminator p id f b) := by
  unfold checkTerminator
  split
  · exact failsAt_checkBranch hb _ _
  · refine (failsAt_refuse hb).bind fun _ _ => (failsAt_checkBranch hb _ _).bind fun _ _ => ?_
    exact failsAt_checkBranch hb _ _
  · exact failsAt_ok _
  · exact failsAt_ok _

/-- Faulty blocks are reported where they stand. -/
theorem failsAt_checkBlocks (hf : f.Placed good) : FailsAt good (checkBlocks p id f) := by
  have hrest : FailsAt good (do
      f.blocks.toList |> each (checkBlockParameters p)
      f.blocks.toList |> each (checkTerminator p id f)) := by
    refine .bind (failsAt_each fun b hb => failsAt_each fun _ _ => ?_) fun _ _ =>
      failsAt_each fun b hb => failsAt_checkTerminator (hf.blocks b hb)
    exact failsAt_refuse (hf.blocks b hb)
  unfold checkBlocks
  split
  · exact hrest
  · next entry rest hentry =>
    have hentry := hf.blocks entry (hentry ▸ List.mem_cons_self)
    exact (failsAt_refuse hentry).bind fun _ _ => hrest

/-! ## Reads and writes -/

section

variable {span : Span} (hspan : good span) (name : String)

include hspan

theorem failsAt_checkRead : FailsAt good (checkRead p id f span name) :=
  (failsAt_refuse hspan).bind fun _ _ => failsAt_refuse hspan

theorem failsAt_checkWriter (kind : EndpointKind) :
    FailsAt good (checkWriter p id f span name kind) := by
  cases kind <;> exact failsAt_refuse hspan

/-- A faulty element is reported where its statement stands. -/
theorem failsAt_checkElement (size : Option Nat) (element : Expr) :
    FailsAt good (checkElement p span name size element) := by
  unfold checkElement
  split
  · exact failsAt_error hspan
  · split
    · exact failsAt_refuse hspan
    · exact failsAt_ok _
  · exact failsAt_ok _

theorem failsAt_checkWrite (element : Option Expr) (value : Expr) :
    FailsAt good (checkWrite p id f span name element value) := by
  unfold checkWrite
  extract_lets m
  split
  · exact failsAt_error hspan
  · refine (failsAt_checkWriter hspan name _).bind fun _ _ => ?_
    refine (failsAt_each fun _ _ => failsAt_checkElement hspan name _ _).bind fun _ _ => ?_
    exact failsAt_refuse hspan

omit name in
/-- Faulty reads and writes are reported where their block stands. -/
theorem failsAt_checkStatement (s : Statement) : FailsAt good (checkStatement p id f span s) := by
  unfold checkStatement
  split
  · exact failsAt_checkRead hspan _
  · exact failsAt_checkWrite hspan _ _ _
  · exact failsAt_ok _

end

/-- Faulty reads and writes of a function are reported where its blocks stand. -/
theorem failsAt_checkStreams (hf : f.Placed good) : FailsAt good (checkStreams p id f) :=
  failsAt_each fun b hb => failsAt_each fun s _ => failsAt_checkStatement (hf.blocks b hb) s

end

/-! ## Calls and graphs -/

section

variable (hp : p.Placed good) (hdummy : good .dummy)

include hp

/-- An infinite loop is reported where its function stands. -/
theorem failsAt_checkInfiniteLoops : FailsAt good (Link.checkInfiniteLoops p) := by
  unfold Link.checkInfiniteLoops
  split
  · next id f hfind =>
    exact failsAt_error (hp.functions.of_mem_entries (List.mem_of_find?_eq_some hfind)).span
  · exact failsAt_ok _

include hdummy

/-- Recursion is reported where a function stands. -/
theorem failsAt_checkRecursion : FailsAt good (Link.checkRecursion p) := by
  unfold Link.checkRecursion
  split
  · exact failsAt_ok _
  · exact failsAt_error (hp.functionAt hdummy _).span

omit hp in
/-- A stack that is too small is reported nowhere. -/
theorem failsAt_checkStackSize (max : Nat) : FailsAt good (Link.checkStackSize p max) := by
  unfold Link.checkStackSize
  split
  · exact .ite (fun _ => failsAt_error hdummy) fun _ => failsAt_ok _
  · exact failsAt_ok _

omit hp in
/-- Feedback is reported where a connection stands. -/
theorem failsAt_checkFeedback {m : Module} (hm : m.Placed good) :
    FailsAt good (Link.checkFeedback m) := by
  unfold Link.checkFeedback
  split
  · exact failsAt_ok _
  · exact failsAt_error (hm.connections.get hdummy _)

end

section

variable {c : Connection} (hc : good c.span) (graph : ModuleId)

include hc

theorem failsAt_endOwner (r : EndpointRef) : FailsAt good (Link.endOwner p graph r c.span) := by
  unfold Link.endOwner
  extract_lets m
  split
  · exact failsAt_ok _
  · split
    · exact failsAt_error hc
    · split
      · exact failsAt_error hc
      · exact failsAt_ok _

/-- An end that leads nowhere is reported where its connection stands. -/
theorem failsAt_resolveEnd (r : EndpointRef) (side : Link.Side) :
    FailsAt good (Link.resolveEnd p graph r side c.span) := by
  refine (failsAt_endOwner hc graph r).bind fun x _ => ?_
  dsimp only
  split
  · exact failsAt_error hc
  · refine .ite (fun _ => failsAt_error hc) fun _ => ?_
    split
    · exact failsAt_error hc
    · split
      · exact failsAt_error hc
      · exact failsAt_ok _

theorem failsAt_checkDelay (max : Nat) : FailsAt good (Link.checkDelay c max) := by
  unfold Link.checkDelay
  split
  · exact failsAt_ok _
  · refine .ite (fun _ => failsAt_error hc) fun _ => ?_
    exact .ite (fun _ => failsAt_error hc) fun _ => failsAt_ok _

/-- A faulty connection is reported where it stands. -/
theorem failsAt_checkConnection : FailsAt good (Link.checkConnection p settings graph c) := by
  have hresolve : FailsAt good (Link.resolveConnection p graph c) := by
    refine (failsAt_resolveEnd hc graph _ _).bind fun _ _ => ?_
    refine (failsAt_resolveEnd hc graph _ _).bind fun _ _ => ?_
    dsimp only
    split
    · exact failsAt_error hc
    · exact failsAt_ok _
  exact hresolve.bind fun _ _ => (failsAt_checkDelay hc _).bind fun _ _ => failsAt_ok _

end

/-! ## Rules -/

/-- Every rule reports faults at good places if the program stands at good places. -/
theorem failsAt_check (hp : p.Placed good) (hdummy : good .dummy) (c : Context) (rule : Rule) :
    FailsAt good (rule.check p c) := by
  cases rule with
  | moduleStructure => exact failsAt_checkModules hp hdummy _
  | advanceAndStreamCalls => exact failsAt_eachFunction hp fun _ _ hf => failsAt_checkCalls hf
  | connections =>
      refine failsAt_each fun graph _ => failsAt_each fun w hw => ?_
      exact (failsAt_checkConnection ((hp.moduleAt hdummy graph).connections w hw) graph).bind
        fun _ _ => failsAt_ok _
  | recursionAndStack =>
      exact (failsAt_checkRecursion hp hdummy).bind fun _ _ => failsAt_checkStackSize hdummy _
  | infiniteLoops => exact failsAt_checkInfiniteLoops hp
  | blockParameters => exact failsAt_eachFunction hp fun _ _ hf => failsAt_checkBlocks hf
  | graphCycles =>
      exact failsAt_each fun graph _ => failsAt_checkFeedback hdummy (hp.moduleAt hdummy graph)
  | streamOperations => exact failsAt_eachFunction hp fun _ _ hf => failsAt_checkStreams hf
  | functionReturnTypes => exact failsAt_eachFunction hp fun _ _ hf => failsAt_refuse hf.span

/-- All rules one after the other report faults at good places. -/
theorem failsAt_checkProgram (hp : p.Placed good) (hdummy : good .dummy) (settings : Settings) :
    FailsAt good (checkProgram p settings) := by
  unfold checkProgram checkRules
  refine .bind ?_ fun c _ => failsAt_each fun rule _ => failsAt_check hp hdummy c rule
  unfold Context.ofProgram
  split
  · exact failsAt_error hdummy
  · exact failsAt_ok _

/-- The second step starts from where the first one ended, if that succeeded. -/
theorem failsAt_bind_apply {α β : Type} {x : Edit α} {f : α → Edit β}
    (hx : FailsAt good (x.apply p).1)
    (hf : ∀ a q, x.apply p = (.ok a, q) → FailsAt good ((f a).apply q).1) :
    FailsAt good ((x >>= f).apply p).1 := by
  rw [Edit.apply_bind]
  cases hrun : x.apply p with
  | mk outcome q =>
      rw [hrun] at hx
      cases outcome with
      | error d => exact failsAt_error (hx d rfl)
      | ok a => exact hf a q hrun

/-- What verifying an intact program reports it reports at a good place if the program has no
other. -/
theorem failsAt_verifyEdit (hp : p.Intact) (hplaced : p.Placed good) (hdummy : good .dummy)
    (settings : Settings) : FailsAt good ((verifyEdit settings).apply p).1 := by
  have hspecialise := Link.specialiseInstances_blames hdummy settings p ⟨hp, hplaced⟩
  refine failsAt_bind_apply hspecialise.2 fun _ q hq => ?_
  rw [hq] at hspecialise
  have hlink := Link.linkEndpoints_blames hdummy q hspecialise.1.2
  refine failsAt_bind_apply hlink.2 fun _ r hr => ?_
  rw [hr] at hlink
  rw [Edit.apply_program_bind]
  split
  · exact failsAt_ok _
  · next d hd => exact failsAt_error (failsAt_checkProgram hlink.1 hdummy settings d hd)

theorem good_of_linkAndVerify (hp : p.Intact) (hplaced : p.Placed good) (hdummy : good .dummy)
    {ds : List Diagnostic} (h : linkAndVerify p settings = .error ds) : ∀ d ∈ ds, good d.span := by
  have hfails := failsAt_verifyEdit hp hplaced hdummy settings
  unfold linkAndVerify at h
  split at h
  · cases h
  · next d q hrun =>
    cases h
    rw [hrun] at hfails
    exact List.forall_mem_singleton.mpr (hfails d rfl)

/-! ## Texts -/

/-- The diagnostic is reported of the text: either the text cannot be read, or what was read from it
cannot be verified under some settings. -/
inductive Reported (text : String) (d : Diagnostic) : Prop where
  | reading (h : Heart.parse text = .error d)
  | verifying {p : Program} {settings : Settings} {ds : List Diagnostic}
    (hp : Heart.parse text = .ok p) (hds : linkAndVerify p settings = .error ds) (hd : d ∈ ds)

/-- What is reported of a text can be shown with it. -/
theorem Reported.fits {text : String} {d : Diagnostic} (h : Reported text d) :
    d.span.Fits ⟨0⟩ text := by
  have hread := Heart.locates_parseFile ⟨0⟩ text
  cases h with
  | reading h =>
      rw [show Heart.parseFile ⟨0⟩ text = .error d from h] at hread
      exact .inr hread
  | @verifying p settings ds hp hds hd =>
      rw [show Heart.parseFile ⟨0⟩ text = .ok p from hp] at hread
      exact good_of_linkAndVerify (Heart.intact_parseFile hp) hread (.inl rfl) hds d hd

/-- All that is reported of a text of less than 2³² bytes stands nowhere or at characters of the
text, at offsets of 32 bits.  So it can be shown with that text, which is never cut inside a
character. -/
theorem reported_in_text {text : String} (hsize : text.utf8ByteSize < UInt32.size) {d : Diagnostic}
    (h : Reported text d) :
    (d.span.isDummy ∨ d.span.file = ⟨0⟩ ∧ d.span.start ≤ d.span.stop ∧
      d.span.stop ≤ text.utf8ByteSize ∧ d.span.stop < UInt32.size ∧
      Text.IsBoundary text d.span.start ∧ Text.IsBoundary text d.span.stop) ∧
    ∀ name colour, d.renderTerminal? (Sources.add {} name text).2 colour =
      some (d.renderTerminal colour (Sources.add {} name text).2) := by
  refine ⟨h.fits.imp_right fun hspan => ?_, fun name colour => ?_⟩
  · have hle := hspan.stop.le_size
    exact ⟨hspan.file_eq, hspan.start_le_stop, hle, Nat.lt_of_le_of_lt hle hsize, hspan.start,
      hspan.stop⟩
  · refine Diagnostic.renderTerminal?_eq (fun f hf => ?_) colour
    rcases h.fits with hdummy | hspan
    · have hfile : d.span.file = .dummy := by simpa [Span.isDummy] using hdummy
      rw [hfile] at hf
      simp [Sources.file?, Sources.add, FileId.dummy] at hf
    · rw [hspan.file_eq] at hf
      cases hf
      exact hspan.start

/-- A processor without outputs, after a comment with a character of two bytes. -/
def silentText : String := "#HEART 1\n// grün\nprocessor P \x7b input x stream float32; \x7d"

/-- The program of `silentText`. -/
def silent : Program := (Heart.parse silentText).toOption.getD {}

/-- A processor that breaks a rule is reported where it stands, after a comment with a character of
two bytes. -/
theorem reported_in_text_silent : silentText.utf8ByteSize < UInt32.size ∧
    ∃ d, Reported silentText d ∧ d.span = ⟨⟨0⟩, 18, 29⟩ ∧
    Text.IsBoundary silentText 18 ∧ Text.IsBoundary silentText 29 ∧
    d.renderTerminal? (Sources.add {} "silent" silentText).2 false =
      some (d.renderTerminal false (Sources.add {} "silent" silentText).2) := by
  obtain ⟨hsize, hparse, hrefused⟩ : silentText.utf8ByteSize < UInt32.size ∧
      (Heart.parse silentText).toOption.isSome ∧
      ((verifyEdit {}).apply silent).1.mapError (·.span) = .error ⟨⟨0⟩, 18, 29⟩ := by
    decide +kernel
  cases hrun : (verifyEdit {}).apply silent with
  | mk outcome q =>
      rw [hrun] at hrefused
      cases outcome with
      | ok _ => cases hrefused
      | error d =>
          have hverify : linkAndVerify silent {} = .error [d] := by rw [linkAndVerify, hrun]
          have hreported : Reported silentText d :=
            .verifying (Heart.parse_eq_ok hparse) hverify (List.mem_singleton_self d)
          have hspan : d.span = ⟨⟨0⟩, 18, 29⟩ := Except.error.inj hrefused
          obtain ⟨hplace, hshown⟩ := reported_in_text hsize hreported
          rw [hspan] at hplace
          rcases hplace with hdummy | ⟨-, -, -, -, hstart, hstop⟩
          · cases hdummy
          · exact ⟨hsize, d, hreported, hspan, hstart, hstop, hshown _ _⟩

end SignalGraph.Check

import SignalGraph.Proofs.Check.Verdicts

/-!
# SignalGraph.Proofs.Check.Initialisers

What runs while a processor is initialised: the initialisers and the functions that they call,
directly or through others, as long as no run or event function comes between (`DuringInit`).  In a
checked program none of these reads an endpoint, and none writes one but a helper that sends an
event.  The rules look at one body at a time, so a helper that sends an event may be called by an
initialiser; endpoints are left alone during initialisation exactly if no such helper is
(`checkProgram_duringInit_iff`).
-/

namespace SignalGraph

/-- Runs while a processor is initialised: an initialiser, or something that is called by what runs
then and is neither a run nor an event function. -/
inductive Program.DuringInit (p : Program) : FunctionId → Prop
  | initialiser {f : FunctionId} (hf : f ∈ p.functions.handles)
    (hkind : (p.functionAt f).kind = .userInit ∨ (p.functionAt f).kind = .systemInit) :
    DuringInit p f
  | call {f g : FunctionId} (hf : DuringInit p f) (hcall : g ∈ (p.functionAt f).callees)
    (hrun : (p.functionAt g).kind ≠ .run) (hevent : (p.functionAt g).kind ≠ .event) :
    DuringInit p g

/-- The function is none of those that the runtime calls. -/
def Function.IsHelper (f : Function) : Prop := f.kind = .normal ∨ f.kind = .intrinsic

/-- The name of an output for events. -/
def Module.SendsEvent (m : Module) (name : String) : Prop :=
  ∃ e, m.findOutput? name = some e ∧ (m.endpoints.get e).kind? = some .event

namespace Check

open Program

variable {p : Program} {settings : Settings} {id : FunctionId} {f : Function} {span : Span}
  {name : String}

/-! ## One statement -/

/-- Only run functions read. -/
theorem kind_of_checkRead (h : checkRead p id f span name = .ok ()) : f.kind = .run := by
  simp only [checkRead, verdict_bind_eq_ok, refuse_eq_ok_iff] at h
  simpa using h.2

/-- What is written outside run functions is an event, and not written by an initialiser. -/
theorem sendsEvent_of_checkWrite {element : Option Expr} {value : Expr}
    (h : checkWrite p id f span name element value = .ok ()) (hrun : f.kind ≠ .run) :
    (p.moduleAt f.owner).SendsEvent name ∧ f.kind ≠ .userInit ∧ f.kind ≠ .systemInit := by
  simp only [checkWrite] at h
  split at h
  · cases h
  · next d hd =>
    obtain ⟨hwriter, -⟩ := verdict_bind_eq_ok.mp h
    obtain ⟨e, he, hdetails⟩ := Option.bind_eq_some_iff.mp hd
    cases hkind : d.kind with
    | event =>
        rw [hkind, checkWriter, refuse_eq_ok_iff] at hwriter
        refine ⟨⟨e, he, ?_⟩, by simpa using hwriter⟩
        rw [Endpoint.kind?, hdetails, ← hkind]
        rfl
    | stream | value =>
        rw [hkind, checkWriter, refuse_eq_ok_iff] at hwriter
        exact absurd (by simpa using hwriter) hrun

/-- Outside run functions, checked statements touch endpoints only to send events. -/
theorem write_of_checkStatement {s : Statement} (h : checkStatement p id f span s = .ok ())
    (hrun : f.kind ≠ .run) (hs : usesEndpoint s) :
    (f.kind ≠ .userInit ∧ f.kind ≠ .systemInit) ∧ ∃ name element value,
      s = .write name element value ∧ (p.moduleAt f.owner).SendsEvent name := by
  cases s with
  | read target name => exact absurd (kind_of_checkRead h) hrun
  | write name element value =>
      obtain ⟨hevent, hinit⟩ := sendsEvent_of_checkWrite h hrun
      exact ⟨hinit, name, element, value, rfl, hevent⟩
  | assign _ _ | call _ _ _ | advance => cases hs

/-! ## Whole programs -/

/-- Every statement of a checked function has passed its own check. -/
theorem checkStatement_of_checkStreams (h : checkStreams p id f = .ok ()) {s : Statement}
    (hs : s ∈ f.statements) : ∃ span, checkStatement p id f span s = .ok () := by
  obtain ⟨b, hb, hs⟩ := List.mem_flatMap.mp hs
  exact ⟨b.span, each_eq_ok_iff.mp (each_eq_ok_iff.mp h b hb) s hs⟩

/-- No entry point of the runtime but initialisers runs during initialisation. -/
theorem DuringInit.kind_ne {f : FunctionId} (h : p.DuringInit f) :
    (p.functionAt f).kind ≠ .run ∧ (p.functionAt f).kind ≠ .event := by
  cases h with
  | initialiser _ hkind => rcases hkind with hkind | hkind <;> simp [hkind]
  | call _ _ hrun hevent => exact ⟨hrun, hevent⟩

/-- What a checked program does with endpoints during initialisation: helpers send events. -/
theorem sendsEvent_of_duringInit (h : checkProgram p settings = .ok ()) {f : FunctionId}
    (hf : p.DuringInit f) {s : Statement} (hs : s ∈ (p.functionAt f).statements)
    (huse : usesEndpoint s) :
    (p.functionAt f).IsHelper ∧ ∃ name element value, s = .write name element value ∧
      (p.moduleAt (p.functionAt f).owner).SendsEvent name := by
  obtain ⟨c, -, hrules⟩ := checkProgram_keeps h
  obtain ⟨hrun, hevent⟩ := DuringInit.kind_ne hf
  -- A handle out of range reads as a function without statements.
  obtain ⟨fn, hfn⟩ : ∃ fn, p.functions.get? f = some fn := by
    cases hget : p.functions.get? f with
    | some fn => exact ⟨fn, rfl⟩
    | none =>
        rw [functionAt, Arena.get, hget] at hs
        cases hs
  have hat : p.functionAt f = fn := Arena.get_eq_of_get? hfn
  have hstreams : checkStreams p f fn = .ok () :=
    each_eq_ok_iff.mp (hrules .streamOperations) (f, fn) (Arena.mem_entries_iff.mpr hfn)
  rw [hat] at hs hrun hevent ⊢
  obtain ⟨span, hstatement⟩ := checkStatement_of_checkStreams hstreams hs
  obtain ⟨⟨huser, hsystem⟩, hwrite⟩ := write_of_checkStatement hstatement hrun huse
  refine ⟨?_, hwrite⟩
  unfold Function.IsHelper
  cases hkind : fn.kind <;> simp_all

/-- During initialisation a checked program touches endpoints only where a helper sends an event, so
it leaves them alone exactly if no helper that runs then writes to an endpoint. -/
theorem checkProgram_duringInit_iff (h : checkProgram p settings = .ok ()) :
    (∀ f, p.DuringInit f → ∀ s ∈ (p.functionAt f).statements, usesEndpoint s →
      (p.functionAt f).IsHelper ∧ ∃ name element value, s = .write name element value ∧
        (p.moduleAt (p.functionAt f).owner).SendsEvent name) ∧
    ((∀ f, p.DuringInit f → ∀ s ∈ (p.functionAt f).statements, usesEndpoint s = false) ↔
      ∀ f, p.DuringInit f → (p.functionAt f).IsHelper → ∀ name element value,
        .write name element value ∉ (p.functionAt f).statements) := by
  refine ⟨fun f hf s hs huse => sendsEvent_of_duringInit h hf hs huse, fun hquiet => ?_,
    fun hquiet f hf s hs => ?_⟩
  · intro f hf _ name element value hs
    exact absurd (hquiet f hf _ hs) (by simp [usesEndpoint])
  · by_contra huse
    obtain ⟨hhelper, name, element, value, rfl, -⟩ :=
      sendsEvent_of_duringInit h hf hs (by simpa using huse)
    exact hquiet f hf hhelper name element value hs

/-- A processor whose initialiser calls a helper with the given statements. -/
def reporter (statements : List Statement) : Program where
  modules := ⟨#[{
    kind := .processor
    name := "P"
    endpoints := ⟨#[{
      name := "log"
      direction := .output
      details := some { kind := .event, types := [.int32] } }]⟩
    functions := [⟨0⟩, ⟨1⟩, ⟨2⟩] }]⟩
  functions := ⟨#[
    { name := "init"
      owner := ⟨0⟩
      kind := .userInit
      blocks := ⟨#[{ name := "@b", statements := [.call none ⟨1⟩ []] }]⟩ },
    { name := "report"
      owner := ⟨0⟩
      blocks := ⟨#[{ name := "@b", statements }]⟩ },
    { name := "run"
      owner := ⟨0⟩
      kind := .run
      blocks := ⟨#[{
        name := "@b"
        statements := [.advance]
        terminator := .branch ⟨0⟩ [] }]⟩ }]⟩
  constants := ⟨⟨#[.int32 1]⟩⟩

/-- The initialiser calls the helper. -/
theorem reporter_duringInit (statements : List Statement) :
    (reporter statements).DuringInit ⟨1⟩ := by
  have hinit : (reporter statements).DuringInit ⟨0⟩ :=
    .initialiser List.mem_cons_self (.inl rfl)
  exact .call hinit List.mem_cons_self nofun nofun

/-- The rules accept a helper that sends an event when the initialiser calls it. -/
theorem checkProgram_reporter_write :
    checkProgram (reporter [.write "log" none (.const ⟨0⟩)]) {} = .ok () ∧
      ∃ f, (reporter [.write "log" none (.const ⟨0⟩)]).DuringInit f ∧
        ∃ s ∈ ((reporter [.write "log" none (.const ⟨0⟩)]).functionAt f).statements,
          usesEndpoint s :=
  ⟨by decide +kernel, ⟨1⟩, reporter_duringInit _, _, List.mem_cons_self, rfl⟩

theorem checkProgram_duringInit_reporter :
    checkProgram (reporter [.write "log" none (.const ⟨0⟩)]) {} = .ok () ∧
      ((reporter [.write "log" none (.const ⟨0⟩)]).functionAt ⟨1⟩).IsHelper ∧
        ∃ name element value, Statement.write "log" none (.const ⟨0⟩) = .write name element value ∧
          ((reporter [.write "log" none (.const ⟨0⟩)]).moduleAt ⟨0⟩).SendsEvent name := by
  have hcheck : checkProgram (reporter [.write "log" none (.const ⟨0⟩)]) {} = .ok () := by
    decide +kernel
  exact ⟨hcheck,
    (checkProgram_duringInit_iff hcheck).1 _ (reporter_duringInit _) _ List.mem_cons_self rfl⟩

end Check

end SignalGraph

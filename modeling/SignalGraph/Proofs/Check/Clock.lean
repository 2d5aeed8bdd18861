import SignalGraph.Proofs.Check.Verdicts
import SignalGraph.Proofs.Link.Calls

/-!
# SignalGraph.Proofs.Check.Clock

Who moves the clock on.  The rule on advances and calls looks at one body at a time: an advance
stands in the run function of a processor, and what the runtime calls is otherwise called by system
initialisers alone.  Along a chain of calls this adds up from its end (`isProcessorRun_of_chain`):
whoever gets to an advance through calls is a system initialiser, and so is whoever calls it.
-/

namespace SignalGraph.Check

open Program

variable {p : Program} {c : Context} {f g : FunctionId} {fs : List FunctionId}

theorem advances_iff {fn : Function} : fn.advances ↔ .advance ∈ fn.statements := by
  have hadvance : ∀ s : Statement, s.isAdvance ↔ s = .advance := fun s => by
    cases s <;> simp [Statement.isAdvance]
  simp [Function.advances, Function.statements, Block.advances, hadvance]

/-! ## One function -/

/-- What the rule says about an advance in a function. -/
theorem isProcessorRun_of_checkCalls {fn : Function} (h : checkCalls p f fn = .ok ())
    (hadvance : .advance ∈ fn.statements) : isProcessorRun p fn := by
  simp only [checkCalls, verdict_bind_eq_ok, refuse_eq_ok_iff] at h
  obtain ⟨-, houtside, -⟩ := h
  simpa [advances_iff.mpr hadvance] using houtside

/-- What the rule says about the calls of a function. -/
theorem kind_of_checkCalls {fn : Function} (h : checkCalls p f fn = .ok ()) (hcall : fn.Calls g)
    (hentry : (p.functionAt g).kind.isEntryPoint) : fn.kind = .systemInit := by
  by_contra hkind
  simp only [checkCalls, verdict_bind_eq_ok, refuse_eq_ok_iff, if_pos hkind] at h
  obtain ⟨-, -, hcalls⟩ := h
  split at hcalls
  · cases hcalls
  · next hnone =>
    have hmem : g ∈ fn.distinctCallees := List.mem_eraseDups.mpr (Function.calls_iff.mp hcall)
    exact absurd hentry (List.find?_eq_none.mp hnone g hmem)

/-! ## One call -/

theorem checkCalls_of_check (h : Rule.check p c .advanceAndStreamCalls = .ok ()) {fn : Function}
    (hf : p.functions.get? f = some fn) : checkCalls p f fn = .ok () :=
  each_eq_ok_iff.mp h (f, fn) (Arena.mem_entries_iff.mpr hf)

/-- An advance stands in the run function of a processor. -/
theorem isProcessorRun_of_advance (h : Rule.check p c .advanceAndStreamCalls = .ok ())
    (hadvance : .advance ∈ (p.functionAt g).statements) : isProcessorRun p (p.functionAt g) := by
  cases hg : p.functions.get? g with
  | some fn =>
      rw [functionAt, Arena.get_eq_of_get? hg] at hadvance ⊢
      exact isProcessorRun_of_checkCalls (checkCalls_of_check h hg) hadvance
  | none =>
      -- A handle out of range reads as a function without statements.
      rw [functionAt, Arena.get, hg] at hadvance
      cases hadvance

/-- What the runtime calls is called by system initialisers only. -/
theorem systemInit_of_calls (h : Rule.check p c .advanceAndStreamCalls = .ok ())
    (hcall : p.Calls f g) (hentry : (p.functionAt g).kind.isEntryPoint) :
    (p.functionAt f).kind = .systemInit := by
  obtain ⟨fn, hf, hcall⟩ := hcall
  rw [functionAt, Arena.get_eq_of_get? hf]
  exact kind_of_checkCalls (checkCalls_of_check h hf) hcall hentry

/-! ## Chains of calls -/

/-- A system initialiser is called by the runtime too, so this goes on along a chain. -/
theorem systemInit_of_transGen (h : Rule.check p c .advanceAndStreamCalls = .ok ())
    (hcalls : Relation.TransGen p.Calls f g) (hentry : (p.functionAt g).kind.isEntryPoint) :
    (p.functionAt f).kind = .systemInit := by
  induction hcalls using Relation.TransGen.head_induction_on with
  | single hcall => exact systemInit_of_calls h hcall hentry
  | head hcall _ ih => exact systemInit_of_calls h hcall (by rw [ih]; rfl)

theorem transGen_of_isChain {r : FunctionId → FunctionId → Prop} (h : (fs ++ [g]).IsChain r)
    (hf : f ∈ fs) : Relation.TransGen r f g := by
  induction fs generalizing f with
  | nil => cases hf
  | cons e fs ih =>
      have hnext : ∃ d, Relation.ReflTransGen r d g ∧ r e d ∧ (fs ++ [g]).IsChain r := by
        cases fs with
        | nil =>
            obtain ⟨hstep, hrest⟩ := List.isChain_cons_cons.mp h
            exact ⟨g, .refl, hstep, hrest⟩
        | cons d fs =>
            obtain ⟨hstep, hrest⟩ := List.isChain_cons_cons.mp h
            exact ⟨d, (ih hrest List.mem_cons_self).to_reflTransGen, hstep, hrest⟩
      obtain ⟨d, hd, hstep, hrest⟩ := hnext
      rcases List.mem_cons.mp hf with rfl | hf
      · exact .head' hstep hd
      · exact ih hrest hf

/-- If calls lead to an advance, they end in the run function of a processor, and all functions on
the way there are system initialisers.  So a function of any other kind has no calls that lead to
one. -/
theorem isProcessorRun_of_chain (h : Rule.check p c .advanceAndStreamCalls = .ok ()) :
    (∀ fs g, (fs ++ [g]).IsChain p.Calls → .advance ∈ (p.functionAt g).statements →
      ((p.functionAt g).kind = .run ∧ (p.moduleAt (p.functionAt g).owner).isProcessor) ∧
        ∀ f ∈ fs, (p.functionAt f).kind = .systemInit) ∧
    ∀ f, (p.functionAt f).kind ≠ .systemInit →
      ¬ ∃ g, Relation.TransGen p.Calls f g ∧ .advance ∈ (p.functionAt g).statements := by
  have hrun : ∀ g, .advance ∈ (p.functionAt g).statements →
      (p.functionAt g).kind = .run ∧ (p.moduleAt (p.functionAt g).owner).isProcessor := by
    intro g hadvance
    have hrun := isProcessorRun_of_advance h hadvance
    rw [isProcessorRun, Bool.and_eq_true, decide_eq_true_eq] at hrun
    exact hrun.symm
  have hreach : ∀ f g, Relation.TransGen p.Calls f g → .advance ∈ (p.functionAt g).statements →
      (p.functionAt f).kind = .systemInit := fun f g hcalls hadvance =>
    systemInit_of_transGen h hcalls (by rw [(hrun g hadvance).1]; rfl)
  refine ⟨fun fs g hchain hadvance => ⟨hrun g hadvance, fun f hf => ?_⟩, fun f hf hex => ?_⟩
  · exact hreach f g (transGen_of_isChain hchain hf) hadvance
  · obtain ⟨g, hcalls, hadvance⟩ := hex
    exact hf (hreach f g hcalls hadvance)

/-- A processor with a system initialiser that calls another one in the condition of a branch, which
in turn calls the run function. -/
def starter : Program where
  modules := ⟨#[{ kind := .processor, name := "P", functions := [⟨0⟩, ⟨1⟩, ⟨2⟩] }]⟩
  functions := ⟨#[
    { name := "_init"
      kind := .systemInit
      blocks := ⟨#[{
        name := "@b"
        terminator := .branchIf (.unary .logicalNot (.pureCall ⟨1⟩ [])) ⟨1⟩ [] ⟨1⟩ [] },
        { name := "@c" }]⟩ },
    { name := "_init"
      kind := .systemInit
      returns := .bool
      blocks := ⟨#[{
        name := "@b"
        statements := [.call none ⟨2⟩ []]
        terminator := .returnValue (.const ⟨0⟩) }]⟩ },
    { name := "run"
      kind := .run
      blocks := ⟨#[{
        name := "@b"
        statements := [.advance]
        terminator := .branch ⟨0⟩ [] }]⟩ }]⟩
  constants := ⟨⟨#[.bool true]⟩⟩

theorem starter_isChain : ([⟨0⟩, ⟨1⟩] ++ [⟨2⟩] : List FunctionId).IsChain starter.Calls := by
  have hfirst : starter.Calls ⟨0⟩ ⟨1⟩ :=
    ⟨_, rfl, _, List.mem_cons_self, .inr (.inCondition (.inOperand (.self [])))⟩
  have hsecond : starter.Calls ⟨1⟩ ⟨2⟩ :=
    ⟨_, rfl, _, List.mem_cons_self, .inl ⟨_, List.mem_cons_self, .self none []⟩⟩
  simpa using ⟨hfirst, hsecond⟩

theorem isProcessorRun_of_chain_starter :
    Rule.check starter ⟨{}, none⟩ .advanceAndStreamCalls = .ok () ∧
      ((starter.functionAt ⟨2⟩).kind = .run ∧
        (starter.moduleAt (starter.functionAt ⟨2⟩).owner).isProcessor) ∧
      ∀ f ∈ ([⟨0⟩, ⟨1⟩] : List FunctionId), (starter.functionAt f).kind = .systemInit := by
  have hcheck : Rule.check starter ⟨{}, none⟩ .advanceAndStreamCalls = .ok () := by
    decide +kernel
  exact ⟨hcheck,
    (isProcessorRun_of_chain hcheck).1 _ _ starter_isChain List.mem_cons_self⟩

end SignalGraph.Check

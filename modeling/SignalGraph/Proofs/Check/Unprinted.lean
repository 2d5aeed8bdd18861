import SignalGraph.Heart.RoundTrip
import SignalGraph.Proofs.Check.Instances
import SignalGraph.Proofs.Heart.Parsed
import SignalGraph.Proofs.Link.StackNeeds

/-!
# SignalGraph.Proofs.Check.Unprinted

Locals that the text of a program does not show.  A function without blocks is written as a
declaration, whatever it declares, so its locals can be left out without a change to the text
(`Heart.print_withoutIdleLocals`).  They count for the call stack all the same: no local of a
verified program is larger than the stack (`Check.packedSize_le_of_verified`).  So a program can be
refused although what is read back from its text passes.  What else has to hold for the program
without those locals to pass is the subject of `SignalGraph.Proofs.Check.IdleLocals`.
-/

namespace SignalGraph

/-! ## Locals that are not written -/

/-- The function without its locals if it has no blocks to use them. -/
def Function.withoutIdleLocals (f : Function) : Function :=
  if f.hasBody then f else { f with locals := [] }

/-- What does not read the locals of a function reads the same without idle ones. -/
theorem Function.view_withoutIdleLocals {α : Type} {view : Function → α}
    (h : ∀ f, view { f with locals := [] } = view f) (f : Function) :
    view f.withoutIdleLocals = view f := by
  unfold withoutIdleLocals
  split
  · rfl
  · exact h f

@[simp] theorem Function.name_withoutIdleLocals :
    ∀ f : Function, f.withoutIdleLocals.name = f.name :=
  view_withoutIdleLocals fun _ => rfl

@[simp] theorem Function.owner_withoutIdleLocals :
    ∀ f : Function, f.withoutIdleLocals.owner = f.owner :=
  view_withoutIdleLocals fun _ => rfl

@[simp] theorem Function.span_withoutIdleLocals :
    ∀ f : Function, f.withoutIdleLocals.span = f.span :=
  view_withoutIdleLocals fun _ => rfl

namespace Program

/-- The program without the locals of functions that have no blocks. -/
def withoutIdleLocals (p : Program) : Program :=
  { p with functions := .ofList (p.functions.toList.map Function.withoutIdleLocals) }

/-- Functions are found under the same handles. -/
theorem get?_withoutIdleLocals (p : Program) (f : FunctionId) :
    p.withoutIdleLocals.functions.get? f =
      (p.functions.get? f).map Function.withoutIdleLocals := by
  rw [Arena.get?_eq_getElem?, Arena.get?_eq_getElem?, withoutIdleLocals, Arena.toList_ofList,
    List.getElem?_map]

/-- Each function is changed for itself. -/
theorem functionAt_withoutIdleLocals (p : Program) (f : FunctionId) :
    p.withoutIdleLocals.functionAt f = (p.functionAt f).withoutIdleLocals := by
  rw [functionAt, functionAt, Arena.get, Arena.get, get?_withoutIdleLocals]
  cases p.functions.get? f <;> rfl

/-- Functions keep their names. -/
theorem functionName_withoutIdleLocals (p : Program) (f : FunctionId) :
    p.withoutIdleLocals.functionName f = p.functionName f := by
  simp only [functionName, functionAt_withoutIdleLocals, Function.name_withoutIdleLocals,
    Function.owner_withoutIdleLocals]
  rfl

end Program

namespace Heart

/-! ## Texts that name functions -/

section

variable {p : Program} {functions : Arena .func Function}

mutual

/-- Values do not name functions. -/
theorem valueText_congr (v : Value) : valueText { p with functions } v = valueText p v := by
  cases v with
  | aggregate t vs =>
      rw [valueText, valueText, valueTexts_congr vs]
      rfl
  | string | zero =>
      rw [valueText, valueText]
      rfl
  | void | bool | int32 | int64 | float32 | float64 => rw [valueText, valueText]

/-- Lists of values do not name functions. -/
theorem valueTexts_congr (vs : List Value) :
    valueTexts { p with functions } vs = valueTexts p vs := by
  cases vs with
  | nil => simp only [valueTexts]
  | cons v vs => rw [valueTexts, valueTexts, valueText_congr v, valueTexts_congr vs]

end

/-- Constants do not name functions. -/
theorem constantText_congr (id : ConstantId) :
    constantText { p with functions } id = constantText p id :=
  valueText_congr (p.constantAt id)

/-- Annotations do not name functions. -/
theorem annotationsText_congr (a : Annotations) :
    annotationsText { p with functions } a = annotationsText p a := by
  simp only [annotationsText, constantText_congr]

mutual

/-- Of the functions of a program, the text of an expression shows names only. -/
theorem exprText_congr (h : ∀ f, Program.functionName { p with functions } f = p.functionName f)
    (e : Expr) : exprText { p with functions } e = exprText p e := by
  cases e with
  | var =>
      rw [exprText, exprText]
      rfl
  | property => rw [exprText, exprText]
  | const => rw [exprText, exprText, constantText_congr]
  | element e _ | member e _ | slice e _ _ | unary _ e =>
      rw [exprText, exprText, exprText_congr h e]
  | cast t e =>
      rw [exprText, exprText, exprText_congr h e]
      rfl
  | elementAt l r | binary _ l r => rw [exprText, exprText, exprText_congr h l, exprText_congr h r]
  | pureCall f args => rw [exprText, exprText, exprTexts_congr h args, h]

/-- Of the functions of a program, the text of arguments shows names only. -/
theorem exprTexts_congr (h : ∀ f, Program.functionName { p with functions } f = p.functionName f)
    (es : List Expr) : exprTexts { p with functions } es = exprTexts p es := by
  cases es with
  | nil => rw [exprTexts, exprTexts]
  | cons e es => rw [exprTexts, exprTexts, exprText_congr h e, exprTexts_congr h es]

end

section

variable (h : ∀ f, Program.functionName { p with functions } f = p.functionName f)

include h

/-- Of the functions of a program, the text of a statement shows names only. -/
theorem statementText_congr (s : Statement) :
    statementText { p with functions } s = statementText p s := by
  cases s with
  | assign target value =>
      simp only [statementText, exprText_congr h]
      rfl
  | call target f args =>
      cases target <;>
        simp only [statementText, callText, exprText_congr h, exprTexts_congr h, h]
  | read target _ => rw [statementText, statementText, exprText_congr h]
  | write _ element value => cases element <;> simp only [statementText, exprText_congr h]
  | advance => rfl

/-- Of the functions of a program, the text of a terminator shows names only. -/
theorem terminatorText_congr (f : Function) (t : Terminator) :
    terminatorText { p with functions } f t = terminatorText p f t := by
  cases t <;> simp only [terminatorText, targetText, exprText_congr h, exprTexts_congr h]

/-- Of the other functions of a program, the text of a function shows names only. -/
theorem functionText_congr (f : Function) :
    functionText { p with functions } f = functionText p f := by
  have hblock : blockText { p with functions } f = blockText p f := by
    funext b
    simp only [blockText, statementText_congr h, terminatorText_congr h]
    rfl
  simp only [functionText, hblock, annotationsText_congr]
  rfl

end

/-- Functions are written by their own texts, and in the texts of others by their names. -/
theorem print_congr (hname : ∀ f, Program.functionName { p with functions } f = p.functionName f)
    (htext : ∀ f, functionText p (functions.get f) = functionText p (p.functionAt f)) :
    print { p with functions } = print p := by
  have hmodule : moduleText { p with functions } = moduleText p := by
    funext m
    have hendpoint : endpointText { p with functions } = endpointText p := by
      funext e
      simp only [endpointText, annotationsText_congr]
      rfl
    have hstate : stateText { p with functions } = stateText p := by
      funext v
      simp only [stateText, annotationsText_congr, constantText_congr]
      rfl
    have hnode : nodeText { p with functions } = nodeText p := by
      funext n
      have hargs : constantText { p with functions } = constantText p := funext constantText_congr
      simp only [nodeText, hargs]
    have hfunction : ∀ f, functionText { p with functions } (functions.get f) =
        functionText p (p.functionAt f) := fun f => (functionText_congr hname _).trans (htext f)
    simp only [moduleText, Program.functionAt, hendpoint, hstate, hnode, hfunction,
      annotationsText_congr]
    rfl
  simp only [print, hmodule]

end

/-- A function without blocks is written without its locals. -/
theorem functionText_withoutIdleLocals (p : Program) (f : Function) :
    functionText p f.withoutIdleLocals = functionText p f := by
  unfold Function.withoutIdleLocals
  split
  · rfl
  · next hbody =>
    have hbare : ¬({ f with locals := [] } : Function).hasBody := hbody
    simp only [functionText, if_neg hbody, if_neg hbare]

/-- Locals of functions without blocks are not written. -/
theorem print_withoutIdleLocals (p : Program) : print p.withoutIdleLocals = print p := by
  refine print_congr p.functionName_withoutIdleLocals fun f => ?_
  have hget : p.withoutIdleLocals.functions.get f = (p.functionAt f).withoutIdleLocals :=
    p.functionAt_withoutIdleLocals f
  rw [Program.withoutIdleLocals] at hget
  rw [hget, functionText_withoutIdleLocals]

end Heart

/-! ## The call stack of a verified program -/

namespace Link

/-- Linking leaves all tables but the modules as they are. -/
theorem Changes.tables {p q : Program} (h : Changes p q) :
    q.structs = p.structs ∧ q.functions = p.functions ∧ q.vars = p.vars := by
  induction h with
  | refl => exact ⟨rfl, rfl, rfl⟩
  | tail _ hstep ih =>
      obtain ⟨id, f, -, rfl⟩ := hstep
      exact ih

end Link

namespace Check

open Program

variable {p q : Program} {settings : Settings}

/-- No frame is larger than the stack if the rule is kept. -/
theorem frameSize_le_of_rule {c : Context} (h : Rule.recursionAndStack.check p c = .ok ())
    (hlimit : c.settings.maxStackSize ≠ 0) {f : FunctionId} {fn : Function}
    (hf : p.functions.get? f = some fn) : p.frameSize fn ≤ c.settings.maxStackSize := by
  obtain ⟨hrecursion, hstack⟩ := verdict_bind_eq_ok.mp h
  have hnone : p.recursion? = none := by
    unfold Link.checkRecursion at hrecursion
    split at hrecursion
    · next hnone => exact hnone
    · cases hrecursion
  have hmax : p.maximumStack? = some (greatest (p.stackNeeds p.functions.size)) := by
    simp [maximumStack?, hnone]
  refine Nat.le_trans (frameSize_le_maximumStack hf hmax) ?_
  unfold Link.checkStackSize at hstack
  rw [hmax] at hstack
  by_contra hlarge
  simp [hlimit, Nat.not_le.mp hlarge] at hstack

/-- No parameter and no local of a verified program is larger than the stack. -/
theorem packedSize_le_of_verified (hp : p.WellFormed) (h : linkAndVerify p settings = .ok q)
    (hlimit : settings.maxStackSize ≠ 0) {f : FunctionId} (hf : f ∈ p.functions.handles)
    {v : VariableId} (hv : v ∈ (p.functionAt f).parameters ++ (p.functionAt f).locals) :
    (p.variableAt v).ty.packedSize p.structs ≤ settings.maxStackSize := by
  obtain ⟨p₁, hspecialise, hlink, -⟩ := linkAndVerify_eq_ok h
  obtain ⟨made, hmade⟩ := Link.specialised_of_apply hp hspecialise
  obtain ⟨hstructs, hfunctions, hvars⟩ :=
    Link.Changes.tables ((Link.linkEndpoints_moves p₁).of_apply hlink)
  obtain ⟨c, rfl, hrules⟩ := verified_keeps h
  have hfn : q.functions.get? f = some (p.functionAt f) := by
    rw [hfunctions]
    exact Arena.get?_of_isPrefix hmade.kept.functions
      (Arena.get?_eq_some_get (Arena.mem_handles_iff.mp hf))
  have hdeclared : v ∈ p.declared := by
    simp only [declared, List.mem_append, List.mem_flatMap]
    exact .inr (.inl ⟨f, hf, hv⟩)
  have hvariable : q.variableAt v = p.variableAt v := by
    rw [variableAt, hvars]
    exact hmade.kept.variableAt (hp.declaredInRange v hdeclared)
  calc (p.variableAt v).ty.packedSize p.structs
      ≤ (p.variableAt v).ty.packedSize q.structs := by
        rw [hstructs]
        exact Ty.packedSize_mono hmade.kept.structs _
    _ ≤ q.frameSize (p.functionAt f) := hvariable ▸ le_frameSize hv
    _ ≤ c.settings.maxStackSize := frameSize_le_of_rule (hrules .recursionAndStack) hlimit hfn

/-- So a program with a larger one is refused. -/
theorem linkAndVerify_of_large (hp : p.WellFormed) {f : FunctionId} (hf : f ∈ p.functions.handles)
    {v : VariableId} (hv : v ∈ (p.functionAt f).parameters ++ (p.functionAt f).locals)
    (hlimit : settings.maxStackSize ≠ 0)
    (hlarge : settings.maxStackSize < (p.variableAt v).ty.packedSize p.structs) :
    ∃ d, linkAndVerify p settings = .error [d] := by
  cases hverify : linkAndVerify p settings with
  | ok q =>
      have hle := packedSize_le_of_verified hp hverify hlimit hf hv
      exact absurd hlarge (Nat.not_lt.mpr hle)
  | error ds =>
      unfold linkAndVerify at hverify
      split at hverify
      · cases hverify
      · next d _ _ =>
        cases hverify
        exact ⟨d, rfl⟩

/-- A local of a function without blocks that is larger than the stack: the program is refused, but
its text is that of a program without the local. -/
theorem linkAndVerify_idle_local (hp : p.WellFormed) {f : FunctionId} (hf : f ∈ p.functions.handles)
    (hbody : (p.functionAt f).hasBody = false) {v : VariableId} (hv : v ∈ (p.functionAt f).locals)
    (hlimit : settings.maxStackSize ≠ 0)
    (hlarge : settings.maxStackSize < (p.variableAt v).ty.packedSize p.structs) :
    (∃ d, linkAndVerify p settings = .error [d]) ∧
      Heart.print p.withoutIdleLocals = Heart.print p ∧
      (p.withoutIdleLocals.functionAt f).locals = [] := by
  refine ⟨?_, Heart.print_withoutIdleLocals p, ?_⟩
  · exact linkAndVerify_of_large hp hf (List.mem_append_right _ hv) hlimit hlarge
  · rw [functionAt_withoutIdleLocals, Function.withoutIdleLocals, if_neg (by simp [hbody])]

/-- A function that declares a large local and has no blocks. -/
def idleText : String :=
  "#HEART 1\nnamespace N \x7b function f () -> void \x7b var float64[100] $x; \x7d \x7d"

/-- The program of `idleText`. -/
def idle : Program := (Heart.parse idleText).toOption.getD {}

/-- What is read back from the text of `idle`. -/
def idleAgain : Program := (Heart.parse (Heart.print idle)).toOption.getD {}

/-- Settings with a stack for two words. -/
def tightStack : Settings := { maxStackSize := 16 }

/-- The large local is refused, and what is read back from the text passes. -/
theorem linkAndVerify_idleText :
    Heart.parse idleText = .ok idle ∧
    Heart.parse (Heart.print idle) = .ok idleAgain ∧
    (∃ d, linkAndVerify idle tightStack = .error [d] ∧ d.code = ⟨.limit, 202⟩) ∧
    ∃ q, linkAndVerify idleAgain tightStack = .ok q := by
  obtain ⟨hparse, hagain, hrefused, hpassed⟩ : (Heart.parse idleText).toOption.isSome ∧
      (Heart.parse (Heart.print idle)).toOption.isSome ∧
      ((verifyEdit tightStack).apply idle).1.mapError (·.code) = .error ⟨.limit, 202⟩ ∧
      ((verifyEdit tightStack).apply idleAgain).1 = .ok () := by
    decide +kernel
  refine ⟨Heart.parse_eq_ok hparse, Heart.parse_eq_ok hagain, ?_, ?_⟩
  · unfold linkAndVerify
    split
    · next hrun =>
      rw [hrun] at hrefused
      cases hrefused
    · next d _ hrun =>
      rw [hrun] at hrefused
      exact ⟨d, rfl, Except.error.inj hrefused⟩
  · refine ⟨((verifyEdit tightStack).apply idleAgain).2, ?_⟩
    rw [linkAndVerify, ← Prod.eta ((verifyEdit tightStack).apply idleAgain), hpassed]

/-- `idle` has such a local: it is refused, and its text is that of a program without the local. -/
theorem linkAndVerify_idle_local_idle : idle.WellFormed ∧
    ⟨0⟩ ∈ (idle.functionAt ⟨0⟩).locals ∧ (∃ d, linkAndVerify idle tightStack = .error [d]) ∧
    Heart.print idle.withoutIdleLocals = Heart.print idle := by
  obtain ⟨hparse, hf, hbody, hv, hlarge⟩ : (Heart.parse idleText).toOption.isSome ∧
      ⟨0⟩ ∈ idle.functions.handles ∧ (idle.functionAt ⟨0⟩).hasBody = false ∧
      ⟨0⟩ ∈ (idle.functionAt ⟨0⟩).locals ∧
      tightStack.maxStackSize < (idle.variableAt ⟨0⟩).ty.packedSize idle.structs := by
    decide +kernel
  have hp : idle.WellFormed := (Heart.intact_parseFile (Heart.parse_eq_ok hparse)).wellFormed
  obtain ⟨hrefused, hprint, -⟩ := linkAndVerify_idle_local hp hf hbody hv (by decide) hlarge
  exact ⟨hp, hv, hrefused, hprint⟩

end Check

end SignalGraph

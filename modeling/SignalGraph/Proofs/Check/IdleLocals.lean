import SignalGraph.Proofs.Check.Unprinted
import SignalGraph.Proofs.Link.CallStack
import SignalGraph.Proofs.Link.Changes
import SignalGraph.Proofs.Link.FunctionsAside
import SignalGraph.Proofs.Link.Specialisation

/-!
# SignalGraph.Proofs.Check.IdleLocals

What leaving out the locals of functions without blocks does to the verdict.  All rules but the one
on the call stack judge both programs alike (`Check.Rule.check_withoutIdleLocals`), and the call
stack only gets smaller (`Program.maximumStack?_withoutIdleLocals`).  So a program that passes still
passes (`Check.linkAndVerify_withoutIdleLocals`), and one that is refused for the size of its stack
alone passes as soon as what is needed without those locals fits
(`Check.linkAndVerify_withoutIdleLocals_iff`), although the two have the same text
(`Check.linkAndVerify_for_idle_locals`).  This is about programs whose nodes supply no arguments, so
that specialising has nothing to copy.
-/

namespace SignalGraph

/-! ## What stays -/

namespace Program

variable (p : Program)

/-- The functions are listed under the same handles. -/
theorem entries_withoutIdleLocals : p.withoutIdleLocals.functions.entries =
    p.functions.entries.map fun x => (x.1, x.2.withoutIdleLocals) := by
  simp only [withoutIdleLocals, Arena.entries, Arena.ofList, Arena.toList, List.zipIdx_map,
    List.map_map]
  rfl

/-- The functions have the same handles. -/
theorem handles_withoutIdleLocals :
    p.withoutIdleLocals.functions.handles = p.functions.handles := by
  rw [← Arena.map_fst_entries, entries_withoutIdleLocals, List.map_map, ← Arena.map_fst_entries]
  rfl

/-- There are as many functions. -/
theorem size_withoutIdleLocals : p.withoutIdleLocals.functions.size = p.functions.size := by
  simp [withoutIdleLocals, Arena.size, Arena.ofList, Arena.toList]

/-- A function calls the same functions. -/
theorem callees_withoutIdleLocals : p.withoutIdleLocals.callees = p.callees := by
  funext f
  rw [callees, callees, get?_withoutIdleLocals, Option.map_map]
  refine congrArg (Option.getD · []) (Option.map_congr fun fn _ => ?_)
  exact Function.view_withoutIdleLocals (fun _ => rfl) fn

/-- The functions are of the same kinds. -/
theorem kind_withoutIdleLocals (f : FunctionId) :
    (p.withoutIdleLocals.functionAt f).kind = (p.functionAt f).kind := by
  have hkind : ∀ f : Function, f.withoutIdleLocals.kind = f.kind :=
    Function.view_withoutIdleLocals fun _ => rfl
  rw [functionAt_withoutIdleLocals, hkind]

/-- Functions keep their results, so expressions keep their types, by recursion on them. -/
theorem exprType_withoutIdleLocals : ∀ e : Expr, p.withoutIdleLocals.exprType e = p.exprType e
  | .var _ | .const _ | .cast _ _ | .unary .logicalNot _ | .property .id => rfl
  | .property .frequency | .property .period => rfl
  | .element e _ | .elementAt e _ | .slice e _ _
  | .unary .negate e | .unary .bitwiseNot e | .binary _ e _ => by
      simp only [exprType, exprType_withoutIdleLocals e]
  | .member e name => by
      simp only [exprType, exprType_withoutIdleLocals e]
      rfl
  | .pureCall f _ => by
      have hreturns : ∀ f : Function, f.withoutIdleLocals.returns = f.returns :=
        Function.view_withoutIdleLocals fun _ => rfl
      rw [exprType, exprType, functionAt_withoutIdleLocals, hreturns]

/-! ## The call stack -/

/-- The same functions call each other in turn. -/
theorem recursion?_withoutIdleLocals : p.withoutIdleLocals.recursion? = p.recursion? := by
  rw [recursion?, callees_withoutIdleLocals, handles_withoutIdleLocals, recursion?]

/-- A frame gets smaller: it loses the locals that are left out. -/
theorem frameSize_withoutIdleLocals_le (f : Function) :
    p.withoutIdleLocals.frameSize f.withoutIdleLocals ≤ p.frameSize f := by
  unfold Function.withoutIdleLocals
  split
  · exact Nat.le_refl _
  · simp only [frameSize, List.append_nil, List.foldl_append]
    exact Saturating.start_le_foldl (Saturating.foldl_le (Ty.packedSize_le _ _))

/-- The greatest of some needs grows with them. -/
theorem greatest_map_mono {α : Type} {l : List α} {a b : α → Nat} (h : ∀ x ∈ l, a x ≤ b x) :
    greatest (l.map a) ≤ greatest (l.map b) := by
  induction l with
  | nil => exact Nat.le_refl _
  | cons x l ih =>
      have hrest := ih fun y hy => h y (List.mem_cons_of_mem _ hy)
      have hfirst := h x List.mem_cons_self
      simp only [List.map_cons, greatest_cons]
      omega

/-- No function needs more than before, however deep the calls are. -/
theorem needOf_withoutIdleLocals_le (n : Nat) (f : FunctionId) :
    needOf (p.withoutIdleLocals.stackNeeds n) f ≤ needOf (p.stackNeeds n) f := by
  induction n generalizing f with
  | zero => simp [needOf, stackNeeds, withoutIdleLocals, Function.comp_def]
  | succ n ih =>
      by_cases hf : f ∈ p.functions.handles
      · rw [needOf_stackNeeds_succ (p.handles_withoutIdleLocals ▸ hf), needOf_stackNeeds_succ hf,
          functionAt_withoutIdleLocals, callees_withoutIdleLocals]
        exact Saturating.add_mono (p.frameSize_withoutIdleLocals_le _)
          (greatest_map_mono fun g _ => ih g)
      · -- a function that is not there needs nothing
        have hlength : (p.withoutIdleLocals.stackNeeds (n + 1)).length ≤ f.idx := by
          rw [length_stackNeeds, size_withoutIdleLocals]
          exact Nat.not_lt.mp (mt Arena.mem_handles_iff.mpr hf)
        rw [needOf, List.getElem?_eq_none hlength]
        exact Nat.zero_le _

/-- The greatest need does not grow either. -/
theorem maximumStack?_withoutIdleLocals {n : Nat}
    (h : p.withoutIdleLocals.maximumStack? = some n) : ∃ m, p.maximumStack? = some m ∧ n ≤ m := by
  unfold maximumStack? at h ⊢
  rw [recursion?_withoutIdleLocals] at h
  split at h
  · cases h
  · next hnone =>
    cases h
    refine ⟨_, if_neg hnone, ?_⟩
    rw [size_withoutIdleLocals, eq_map_needOf (p.length_stackNeeds p.functions.size),
      eq_map_needOf (length_stackNeeds p.withoutIdleLocals _), handles_withoutIdleLocals]
    exact greatest_map_mono fun f _ => p.needOf_withoutIdleLocals_le _ f

/-- What functions need does not depend on the modules. -/
theorem stackNeeds_congr (modules : Arena .mod Module) (n : Nat) :
    stackNeeds { p with modules } n = p.stackNeeds n := by
  induction n with
  | zero => rfl
  | succ n ih =>
      rw [stackNeeds, stackNeeds, ih]
      rfl

/-- The greatest need does not depend on the modules either. -/
theorem maximumStack?_congr (modules : Arena .mod Module) :
    maximumStack? { p with modules } = p.maximumStack? := by
  rw [maximumStack?, stackNeeds_congr]
  rfl

end Program

namespace Check

open Program

variable (p : Program)

/-- Functions are checked one by one, so it is enough that a check does not read their locals and
judges each of them alike in both programs. -/
theorem eachFunction_withoutIdleLocals {check check' : FunctionId → Function → Verdict}
    (hview : ∀ id f, check' id { f with locals := [] } = check' id f)
    (h : ∀ id f, check' id f = check id f) :
    eachFunction p.withoutIdleLocals check' = eachFunction p check := by
  unfold eachFunction
  rw [entries_withoutIdleLocals]
  induction p.functions.entries with
  | nil => rfl
  | cons x l ih =>
      obtain ⟨id, f⟩ := x
      have hfirst : check' id f.withoutIdleLocals = check id f :=
        (Function.view_withoutIdleLocals (hview id) f).trans (h id f)
      simp only [List.map_cons, each, hfirst, ih]

/-- The ends of blocks are judged alike: arguments have the same types. -/
theorem checkTerminator_withoutIdleLocals (id : FunctionId) (f : Function) (b : Block) :
    checkTerminator p.withoutIdleLocals id f b = checkTerminator p id f b := by
  simp only [checkTerminator, checkBranch, functionName_withoutIdleLocals,
    exprType_withoutIdleLocals]
  rfl

/-- Reads and writes are judged alike: what is written has the same type. -/
theorem checkStatement_withoutIdleLocals (id : FunctionId) (f : Function) (span : Span)
    (s : Statement) :
    checkStatement p.withoutIdleLocals id f span s = checkStatement p id f span s := by
  cases s with
  | read | write =>
      simp only [checkStatement, checkRead, checkWrite, checkWriter, functionName_withoutIdleLocals,
        exprType_withoutIdleLocals]
      rfl
  | _ => rfl

/-- The same function is the first that can neither return nor let time pass. -/
theorem checkInfiniteLoops_withoutIdleLocals :
    Link.checkInfiniteLoops p.withoutIdleLocals = Link.checkInfiniteLoops p := by
  have hloop : ∀ f : Function, f.withoutIdleLocals.hasInfiniteLoop = f.hasInfiniteLoop :=
    Function.view_withoutIdleLocals fun _ => rfl
  unfold Link.checkInfiniteLoops
  rw [entries_withoutIdleLocals, List.find?_map]
  simp only [Function.comp_def, hloop]
  cases p.functions.entries.find? (·.2.hasInfiniteLoop) with
  | none => rfl
  | some x =>
      simp only [Option.map_some, functionName_withoutIdleLocals, Function.span_withoutIdleLocals]

/-- Every rule but the one on the call stack judges a program as before. -/
theorem Rule.check_withoutIdleLocals (c : Context) {rule : Rule}
    (hrule : rule ≠ .recursionAndStack) : rule.check p.withoutIdleLocals c = rule.check p c := by
  cases rule with
  | moduleStructure => rfl
  | connections => rfl
  | graphCycles => rfl
  | recursionAndStack => exact absurd rfl hrule
  | infiniteLoops => exact checkInfiniteLoops_withoutIdleLocals p
  | advanceAndStreamCalls =>
      refine eachFunction_withoutIdleLocals p (fun _ _ => rfl) fun id f => ?_
      simp only [checkCalls, functionName_withoutIdleLocals, kind_withoutIdleLocals]
      rfl
  | blockParameters =>
      refine eachFunction_withoutIdleLocals p (fun _ _ => rfl) fun id f => ?_
      simp only [checkBlocks, functionName_withoutIdleLocals,
        funext (checkTerminator_withoutIdleLocals p id f)]
      rfl
  | streamOperations =>
      refine eachFunction_withoutIdleLocals p (fun _ _ => rfl) fun id f => ?_
      simp only [checkStreams, funext (checkStatement_withoutIdleLocals p id f _)]
  | functionReturnTypes =>
      refine eachFunction_withoutIdleLocals p (fun _ _ => rfl) fun id f => ?_
      simp only [checkReturnType, functionName_withoutIdleLocals]

/-- Recursion is reported alike. -/
theorem checkRecursion_withoutIdleLocals :
    Link.checkRecursion p.withoutIdleLocals = Link.checkRecursion p := by
  simp only [Link.checkRecursion, recursion?_withoutIdleLocals, functionAt_withoutIdleLocals,
    Function.span_withoutIdleLocals, show p.withoutIdleLocals.functionName = p.functionName from
      funext p.functionName_withoutIdleLocals]

variable {p} {settings : Settings}

/-- A stack without limit is never too small. -/
theorem checkStackSize_zero (p : Program) : Link.checkStackSize p 0 = .ok () := by
  unfold Link.checkStackSize
  cases p.maximumStack? <;> rfl

/-- What is needed fits, if it is bounded at all. -/
theorem checkStackSize_eq_ok_iff {limit : Nat} : Link.checkStackSize p limit = .ok () ↔
    ∀ n, p.maximumStack? = some n → limit ≠ 0 → n ≤ limit := by
  unfold Link.checkStackSize
  cases p.maximumStack? with
  | none => simp
  | some n =>
      by_cases hlimit : limit = 0
      · simp [hlimit]
      · by_cases hn : n ≤ limit
        · simp [hlimit, hn, Nat.not_lt.mpr hn]
        · simp [hlimit, hn, Nat.not_le.mp hn]

/-- The other rules do not look at the limit of the stack. -/
theorem Rule.check_unlimited (c : Context) {rule : Rule} (hrule : rule ≠ .recursionAndStack) :
    rule.check p { c with settings := { c.settings with maxStackSize := 0 } } = rule.check p c := by
  cases rule with
  | recursionAndStack => exact absurd rfl hrule
  | _ => rfl

/-- The rule on the call stack is that on recursion and a bound on what is needed. -/
theorem recursionAndStack_withoutIdleLocals_iff {c : Context} :
    Rule.recursionAndStack.check p.withoutIdleLocals c = .ok () ↔
      Rule.recursionAndStack.check p
          { c with settings := { c.settings with maxStackSize := 0 } } = .ok () ∧
        ∀ n, p.withoutIdleLocals.maximumStack? = some n → c.settings.maxStackSize ≠ 0 →
          n ≤ c.settings.maxStackSize := by
  simp only [Rule.check, verdict_bind_eq_ok, checkRecursion_withoutIdleLocals, checkStackSize_zero,
    checkStackSize_eq_ok_iff, and_true]

/-- A program without idle locals passes exactly if the program passes with a stack without limit
and what is needed without those locals fits. -/
theorem checkProgram_withoutIdleLocals_iff :
    checkProgram p.withoutIdleLocals settings = .ok () ↔
      checkProgram p { settings with maxStackSize := 0 } = .ok () ∧
        ∀ n, p.withoutIdleLocals.maximumStack? = some n → settings.maxStackSize ≠ 0 →
          n ≤ settings.maxStackSize := by
  -- the main module is found by its name, which neither change touches
  have hcontext : Context.ofProgram p.withoutIdleLocals settings = Context.ofProgram p settings :=
    rfl
  have hunlimited : Context.ofProgram p { settings with maxStackSize := 0 } =
      (Context.ofProgram p settings).map fun c =>
        { c with settings := { c.settings with maxStackSize := 0 } } := by
    unfold Context.ofProgram
    dsimp only
    split <;> rfl
  rw [checkProgram_eq_ok_iff, checkProgram_eq_ok_iff, hcontext, hunlimited]
  cases hc : Context.ofProgram p settings with
  | error d => simp [Except.map]
  | ok c =>
      have hsettings : c.settings = settings := by
        unfold Context.ofProgram at hc
        split at hc <;> cases hc
        rfl
      simp only [Except.map, Except.ok.injEq, exists_eq_left']
      subst hsettings
      constructor
      · intro h
        obtain ⟨hstack, hfits⟩ := recursionAndStack_withoutIdleLocals_iff.mp (h .recursionAndStack)
        refine ⟨fun rule => ?_, hfits⟩
        by_cases hrule : rule = .recursionAndStack
        · exact hrule ▸ hstack
        · rw [Rule.check_unlimited c hrule, ← Rule.check_withoutIdleLocals p c hrule]
          exact h rule
      · rintro ⟨h, hfits⟩ rule
        by_cases hrule : rule = .recursionAndStack
        · exact hrule ▸ recursionAndStack_withoutIdleLocals_iff.mpr ⟨h .recursionAndStack, hfits⟩
        · rw [Rule.check_withoutIdleLocals p c hrule, ← Rule.check_unlimited c hrule]
          exact h rule

/-- A program that passes also passes without idle locals. -/
theorem checkProgram_withoutIdleLocals (h : checkProgram p settings = .ok ()) :
    checkProgram p.withoutIdleLocals settings = .ok () := by
  obtain ⟨c, hc, hrules⟩ := checkProgram_eq_ok_iff.mp h
  refine checkProgram_eq_ok_iff.mpr ⟨c, hc, fun rule => ?_⟩
  by_cases hrule : rule = .recursionAndStack
  · subst hrule
    obtain ⟨hrecursion, hstack⟩ := verdict_bind_eq_ok.mp (hrules .recursionAndStack)
    refine verdict_bind_eq_ok.mpr ⟨(checkRecursion_withoutIdleLocals p).trans hrecursion, ?_⟩
    refine checkStackSize_eq_ok_iff.mpr fun n hn hlimit => ?_
    obtain ⟨m, hm, hle⟩ := p.maximumStack?_withoutIdleLocals hn
    exact hle.trans (checkStackSize_eq_ok_iff.mp hstack m hm hlimit)
  · exact (Rule.check_withoutIdleLocals p c hrule).trans (hrules rule)

end Check

namespace Link

variable {p q : Program} {settings : Settings}

/-- Where no node supplies arguments, there is nothing to specialise. -/
theorem specialiseInstances_of_unbound
    (h : ∀ id ∈ p.modules.handles, Unbound (p.moduleAt id)) :
    (specialiseInstances settings).apply p = (.ok (), p) := by
  have hwalk : ∀ fuel id made, (specialiseFrom settings fuel id made).apply p = (.ok (), p) := by
    intro fuel
    induction fuel with
    | zero => exact fun _ _ => rfl
    | succ fuel ih =>
        intro id made
        cases hm : p.modules.get? id with
        | none => exact apply_specialiseFrom_of_none hm _
        | some m =>
            have hid : id ∈ p.modules.handles :=
              Arena.mem_handles_iff.mpr (Arena.lt_size_of_get? hm)
            have hunbound : Unbound m := Arena.get_eq_of_get? hm ▸ h id hid
            have hnone : (if m.isGraph then pending m else []) = [] := by
              split
              · next hgraph => exact pending_eq_nil_iff.mpr (hunbound hgraph)
              · rfl
            rw [apply_specialiseFrom_of_some hm, hnone]
            exact ih _ _
  exact hwalk _ _ _

/-- Linking does the same without idle locals. -/
theorem linkEndpoints_withoutIdleLocals :
    linkEndpoints.apply p.withoutIdleLocals = (.ok (), q) ↔
      ∃ r, linkEndpoints.apply p = (.ok (), r) ∧ q = r.withoutIdleLocals := by
  have haside := linkEndpoints_aside p p.withoutIdleLocals.functions
  cases hrun : linkEndpoints.apply p with
  | mk outcome r =>
      rw [hrun] at haside
      have hlinked : linkEndpoints.apply p.withoutIdleLocals =
          (outcome, { r with functions := p.withoutIdleLocals.functions }) := haside
      rw [hlinked]
      cases outcome with
      | error d => simp
      | ok _ =>
          have hfunctions : r.functions = p.functions :=
            (Changes.tables ((linkEndpoints_moves p).of_apply hrun)).2.1
          have hsame : { r with functions := p.withoutIdleLocals.functions } =
              r.withoutIdleLocals := by
            simp only [Program.withoutIdleLocals, hfunctions]
          simp [hsame, eq_comm]

end Link

namespace Check

variable {p q : Program} {settings : Settings}

/-- A program whose nodes supply no arguments also passes without idle locals if it passes. -/
theorem linkAndVerify_withoutIdleLocals
    (hargs : ∀ id ∈ p.modules.handles, Link.Unbound (p.moduleAt id))
    (h : linkAndVerify p settings = .ok q) :
    linkAndVerify p.withoutIdleLocals settings = .ok q.withoutIdleLocals := by
  obtain ⟨p₁, hspecialise, hlink, hcheck⟩ := linkAndVerify_eq_ok_iff.mp h
  rw [Link.specialiseInstances_of_unbound hargs] at hspecialise
  cases hspecialise
  exact linkAndVerify_eq_ok_iff.mpr ⟨p.withoutIdleLocals, Link.specialiseInstances_of_unbound hargs,
    Link.linkEndpoints_withoutIdleLocals.mpr ⟨q, hlink, rfl⟩, checkProgram_withoutIdleLocals hcheck⟩

/-- A program whose nodes supply no arguments passes without idle locals exactly if it passes with a
stack without limit and what is needed without those locals fits. -/
theorem linkAndVerify_withoutIdleLocals_iff
    (hargs : ∀ id ∈ p.modules.handles, Link.Unbound (p.moduleAt id)) :
    linkAndVerify p.withoutIdleLocals settings = .ok q ↔
      (∃ r, linkAndVerify p { settings with maxStackSize := 0 } = .ok r ∧
        q = r.withoutIdleLocals) ∧
      ∀ n, p.withoutIdleLocals.maximumStack? = some n → settings.maxStackSize ≠ 0 →
        n ≤ settings.maxStackSize := by
  -- the modules, and with them the arguments, are the same without idle locals
  have hargs' : ∀ id ∈ p.withoutIdleLocals.modules.handles,
      Link.Unbound (p.withoutIdleLocals.moduleAt id) := hargs
  have hstack : ∀ {r}, Link.linkEndpoints.apply p = (.ok (), r) →
      r.withoutIdleLocals.maximumStack? = p.withoutIdleLocals.maximumStack? := by
    intro r hlink
    rw [← (Link.linkEndpoints_adds hlink).1]
    exact (Program.maximumStack?_congr r.withoutIdleLocals p.modules).symm
  simp only [linkAndVerify_eq_ok_iff, Link.specialiseInstances_of_unbound hargs,
    Link.specialiseInstances_of_unbound hargs', Prod.mk.injEq, true_and, exists_eq_left',
    Link.linkEndpoints_withoutIdleLocals]
  constructor
  · rintro ⟨⟨r, hlink, rfl⟩, hcheck⟩
    obtain ⟨hunlimited, hfits⟩ := checkProgram_withoutIdleLocals_iff.mp hcheck
    exact ⟨⟨r, ⟨hlink, hunlimited⟩, rfl⟩, hstack hlink ▸ hfits⟩
  · rintro ⟨⟨r, ⟨hlink, hunlimited⟩, rfl⟩, hfits⟩
    exact ⟨⟨r, hlink, rfl⟩,
      checkProgram_withoutIdleLocals_iff.mpr ⟨hunlimited, (hstack hlink).symm ▸ hfits⟩⟩

/-- If the stack is all that is wrong with a program, and a large local that its text does not show
is to blame, then the program is refused and its text is that of a program that passes. -/
theorem linkAndVerify_for_idle_locals (hp : p.WellFormed)
    (hargs : ∀ id ∈ p.modules.handles, Link.Unbound (p.moduleAt id))
    (hunlimited : linkAndVerify p { settings with maxStackSize := 0 } = .ok q)
    (hfits : ∀ n, p.withoutIdleLocals.maximumStack? = some n → n ≤ settings.maxStackSize)
    {f : FunctionId} (hf : f ∈ p.functions.handles) {v : VariableId}
    (hv : v ∈ (p.functionAt f).locals) (hlimit : settings.maxStackSize ≠ 0)
    (hlarge : settings.maxStackSize < (p.variableAt v).ty.packedSize p.structs) :
    (∃ d, linkAndVerify p settings = .error [d]) ∧
      linkAndVerify p.withoutIdleLocals settings = .ok q.withoutIdleLocals ∧
      Heart.print p.withoutIdleLocals = Heart.print p := by
  refine ⟨?_, ?_, Heart.print_withoutIdleLocals p⟩
  · exact linkAndVerify_of_large hp hf (List.mem_append_right _ hv) hlimit hlarge
  · exact (linkAndVerify_withoutIdleLocals_iff hargs).mpr
      ⟨⟨q, hunlimited, rfl⟩, fun n hn _ => hfits n hn⟩

end Check

end SignalGraph

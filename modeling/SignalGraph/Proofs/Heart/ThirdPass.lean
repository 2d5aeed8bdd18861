import SignalGraph.Proofs.Heart.FirstReadExpr
import SignalGraph.Proofs.Heart.Parsed
import SignalGraph.Proofs.Heart.RereadExpr

/-!
# SignalGraph.Proofs.Heart.ThirdPass

Expressions are read back from their text (`expr_exprText`).  The third pass over a text fills in
the bodies of functions and changes no item (`FillsBodies`), so in all of its states what is found
by a path belongs where the path says, and whatever is read as an expression there is readable.
-/

namespace SignalGraph

namespace Program

/-- Functions may have got local variables and blocks, and variables, constants and texts may have
been added; all else is as it was. -/
structure FillsBodies (p q : Program) : Prop where
  modules : q.modules = p.modules
  structs : q.structs = p.structs
  functions : ∀ f, q.functionAt f =
    { p.functionAt f with locals := (q.functionAt f).locals, blocks := (q.functionAt f).blocks }

namespace FillsBodies

variable {p q : Program}

/-- A program with the same modules, structs and functions has all bodies as they were. -/
theorem of_functions (hmodules : q.modules = p.modules) (hstructs : q.structs = p.structs)
    (hfunctions : q.functions = p.functions) : p.FillsBodies q :=
  ⟨hmodules, hstructs, fun f => by rw [functionAt, functionAt, hfunctions]⟩

/-- Filling the body of one function is filling bodies. -/
theorem modifyFunction (p : Program) (f : FunctionId) {g : Function → Function}
    (hg : ∀ fn, g fn = { fn with locals := (g fn).locals, blocks := (g fn).blocks }) :
    p.FillsBodies (p.modifyFunction f g) where
  modules := rfl
  structs := rfl
  functions id := by
    by_cases hid : id = f
    · subst hid
      by_cases hrange : id ∈ p.functions.handles
      · rw [functionAt_modifyFunction hrange]
        exact hg _
      · have hsame : p.functions.modify id g = p.functions :=
          Arena.modify_eq_self fun x hx =>
            absurd (Arena.mem_handles_iff.mpr (Arena.lt_size_of_get? hx)) hrange
        simp only [functionAt, Program.modifyFunction, hsame]
    · simp only [functionAt, Program.modifyFunction, Arena.get_modify_of_ne hid]

instance : IsPreorder Program FillsBodies where
  refl p := .of_functions rfl rfl rfl
  trans p q r h h' := {
    modules := h'.modules.trans h.modules
    structs := h'.structs.trans h.structs
    functions f := by rw [h'.functions, h.functions] }

instance (f : FunctionId) : AllowsBody f FillsBodies where
  intern _ _ := .of_functions rfl rfl rfl
  internText _ _ := .of_functions rfl rfl rfl
  addVariable _ _ := .of_functions rfl rfl rfl
  modifySpan _ _ _ := .of_functions rfl rfl rfl
  addLocal p _ := .modifyFunction p f fun _ => rfl
  addBlock p _ := .modifyFunction p f fun _ => rfl
  modifyBlock p _ _ _ := .modifyFunction p f fun _ => rfl

/-- Owners list what is theirs as before, since bodies are not looked at for that. -/
theorem listed (h : p.FillsBodies q) (hp : p.ListedByOwner) : q.ListedByOwner where
  structs := by
    simp only [moduleAt, structAt, h.modules, h.structs]
    exact hp.structs
  functions id hid f hf := by
    rw [moduleAt, h.modules] at hf
    rw [h.modules] at hid
    rw [h.functions]
    exact hp.functions id hid f hf
  vars := by
    have hvars : q.moduleVars = p.moduleVars := by
      funext id
      rw [moduleVars, moduleAt, h.modules]
      rfl
    rw [allModuleVars, hvars, h.modules]
    exact hp.vars

end FillsBodies

end Program

namespace Heart

open Program

/-- A state in the third pass over a text: the first two passes have succeeded, only bodies were
filled in since, and the place is one of the text. -/
structure InThirdPass (file : FileId) (text : String) (s : ParserState) : Prop where
  reached : ∃ tokens bodies s₀ ts, lex file text = .ok tokens ∧
    (Parser.firstPasses text).run ⟨.start file tokens, {}⟩ = .ok (bodies, s₀) ∧
    s₀.program.FillsBodies s.program ∧ (Cursor.start file tokens).Passed ts s.cursor

/-- In the third pass all names are declared, so that expressions can be read. -/
theorem InThirdPass.ready {file : FileId} {text : String} {s : ParserState} {scope : Parser.Scope}
    (h : InThirdPass file text s) (hscope : scope.Names s.program) : Parser.Ready scope s := by
  obtain ⟨tokens, bodies, s₀, ts, htokens, hrun, hfills, hpassed⟩ := h.reached
  have hbuilt := Parser.builds_firstPasses intact_empty text _ _ _ hrun
  have hintact := hbuilt.1.intact intact_empty
  exact ⟨hfills.listed hintact.wellFormed.listed, hscope,
    (Cursor.clean_start htokens).passed hpassed⟩

/-- Every expression that is read in the third pass is read back from its text, whatever file the
text stands in: all of the text is read, and nothing is added to the program. -/
theorem expr_exprText {file : FileId} {text : String} {s s' : ParserState} {scope : Parser.Scope}
    {e : Expr} (hs : InThirdPass file text s) (hscope : scope.Names s.program)
    (h : (Parser.expr scope).run s = .ok (e, s')) (hfloats : ExactFloats s'.program e)
    (file' : FileId) :
    ∃ tokens c, lex file' (exprText s'.program e) = .ok tokens ∧
      (Parser.expr scope).run ⟨.start file' tokens, s'.program⟩ = .ok (e, ⟨c, s'.program⟩) ∧
      c.rest.map Token.lexeme = [(.eof, "")] := by
  have hreadable := Parser.isReadableExpr_of_run (hs.ready hscope) h
  have hspelled := spelled_expr hreadable hfloats [] [] trivial lexesTo_nil
  rw [List.append_nil, List.append_nil] at hspelled
  obtain ⟨tokens, stop, htokens, hlexemes⟩ := hspelled file' 0
  have hstart : (Cursor.start file' (tokens ++ [.eof file' stop])).lexemes =
      exprLexemes s'.program e ++ [(.eof, "")] := by
    rw [Cursor.lexemes, Cursor.start, List.map_append, hlexemes]
    rfl
  have hends : Parser.ExprStops (.eof, "") := by simp [Parser.ExprStops, Parser.StartStops]
  obtain ⟨c, hc, hrun⟩ := Parser.yields_expr hreadable hfloats _ [] hends _ hstart
  exact ⟨_, c, htokens, hrun, hc⟩

/-! ## A product -/

/-- A function that scales the first element of its parameter. -/
@[irreducible] def scaleText : String :=
  "#HEART 1\nnamespace N\n\x7b\n    function f (float32[2] $x) -> float32\n    \x7b\n" ++
  "        @b:\n            return multiply ($x[0], float32[1] (1.5f)[0]);\n    \x7d\n\x7d\n"

@[irreducible] def scaleTokens : List Token := (lex ⟨0⟩ scaleText).toOption.getD []

/-- What the first two passes leave. -/
@[irreducible] def scaleProgram : Program :=
  ((Parser.firstPasses scaleText).run ⟨.start ⟨0⟩ scaleTokens, {}⟩).toOption.elim {} (·.2.program)

/-- The state before the product is read. -/
@[irreducible] def scaleState : ParserState :=
  ⟨⟨(scaleTokens.take 21).getLastD (.eof ⟨0⟩ 0), scaleTokens.drop 21⟩, scaleProgram⟩

def scaleScope : Parser.Scope := { vars := [("$x", ⟨0⟩)] }

/-- The product that is read, and the state after it. -/
@[irreducible] def scaleRead : Expr × ParserState :=
  ((Parser.expr scaleScope).run scaleState).toOption.getD (.const ⟨0⟩, scaleState)

/-- What the product and the state before it come to. -/
theorem scale_runs : (lex ⟨0⟩ scaleText).isOk ∧
    ((Parser.firstPasses scaleText).run ⟨.start ⟨0⟩ scaleTokens, {}⟩).isOk ∧
    scaleScope.Names scaleState.program ∧ ((Parser.expr scaleScope).run scaleState).isOk ∧
    (scaleRead.1.parts.all fun
      | .const c => (scaleRead.2.program.constantAt c).finiteFloats.all fun v => decide (Exact v)
      | _ => true) ∧
    exprText scaleRead.2.program scaleRead.1 = "multiply ($x[0], float32[1] (1.5f)[0])" := by
  decide +kernel

theorem inThirdPass_scale : InThirdPass ⟨0⟩ scaleText scaleState where
  reached := by
    obtain ⟨hlexed, hpassed, -⟩ := scale_runs
    have htokens : lex ⟨0⟩ scaleText = .ok scaleTokens := by
      rw [scaleTokens]
      cases hlex : lex ⟨0⟩ scaleText with
      | error d => rw [hlex] at hlexed; cases hlexed
      | ok tokens => rfl
    cases hrun : (Parser.firstPasses scaleText).run ⟨.start ⟨0⟩ scaleTokens, {}⟩ with
    | error d => rw [hrun] at hpassed; cases hpassed
    | ok r =>
        have hprogram : r.2.program = scaleProgram := by rw [scaleProgram, hrun]; rfl
        refine ⟨scaleTokens, r.1, r.2, scaleTokens.take 21, htokens, hrun, ?_, ?_, ?_⟩
        · rw [hprogram, scaleState]
          exact refl scaleProgram
        · rw [scaleState]
          exact (List.take_append_drop 21 scaleTokens).symm
        · rw [scaleState, Cursor.start]

theorem expr_exprText_scale : InThirdPass ⟨0⟩ scaleText scaleState ∧
    scaleScope.Names scaleState.program ∧
    (Parser.expr scaleScope).run scaleState = .ok scaleRead ∧
    ExactFloats scaleRead.2.program scaleRead.1 ∧
    exprText scaleRead.2.program scaleRead.1 = "multiply ($x[0], float32[1] (1.5f)[0])" ∧
    ∃ tokens c, lex ⟨1⟩ (exprText scaleRead.2.program scaleRead.1) = .ok tokens ∧
      (Parser.expr scaleScope).run ⟨.start ⟨1⟩ tokens, scaleRead.2.program⟩ =
        .ok (scaleRead.1, ⟨c, scaleRead.2.program⟩) ∧
      c.rest.map Token.lexeme = [(.eof, "")] := by
  obtain ⟨-, -, hnames, hread, hparts, htext⟩ := scale_runs
  have hrun : (Parser.expr scaleScope).run scaleState = .ok scaleRead := by
    rw [scaleRead]
    cases h : (Parser.expr scaleScope).run scaleState with
    | error d => rw [h] at hread; cases hread
    | ok r => rfl
  have hfloats : ExactFloats scaleRead.2.program scaleRead.1 := by
    intro c hc v hv
    exact of_decide_eq_true (List.all_eq_true.mp (List.all_eq_true.mp hparts _ hc) v hv)
  exact ⟨inThirdPass_scale, hnames, hrun, hfloats, htext,
    expr_exprText inThirdPass_scale hnames hrun hfloats ⟨1⟩⟩

end Heart

end SignalGraph

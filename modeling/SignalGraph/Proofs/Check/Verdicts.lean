import SignalGraph.Check.Verify
import SignalGraph.Proofs.Handle
import SignalGraph.Proofs.Program.Edit

/-!
# SignalGraph.Proofs.Check.Verdicts

What a passed check says.  A sequence of checks passes if every one of them does, so a verified
program keeps all rules (`verified_keeps`); for the rules on modules, connections and feedback it is
said here what keeping them means for a graph.
-/

namespace SignalGraph.Check

/-! ## Verdicts -/

theorem bind_eq_ok {ε α β : Type} {x : Except ε α} {f : α → Except ε β} {b : β} :
    (x >>= f) = .ok b ↔ ∃ a, x = .ok a ∧ f a = .ok b := by
  cases x <;> simp [bind, Except.bind]

/-- A check comes before what is left. -/
theorem verdict_bind_eq_ok {β : Type} {x : Verdict} {f : Unit → Except Diagnostic β} {b : β} :
    (x >>= f) = .ok b ↔ x = .ok () ∧ f () = .ok b := by
  cases x <;> simp [bind, Except.bind]

theorem refuse_eq_ok_iff {condition : Bool} {f : Fault} {span : Span} :
    refuse condition f span = .ok () ↔ condition = false := by
  cases condition <;> simp [refuse]

theorem each_eq_ok_iff {α : Type} {check : α → Verdict} {l : List α} :
    each check l = .ok () ↔ ∀ a ∈ l, check a = .ok () := by
  induction l with
  | nil => simp [each]
  | cons a l ih => simp [each, verdict_bind_eq_ok, ih]

/-- Items that are taken in order have distinct names, and each of them passes its own check. -/
theorem distinctly_eq_ok {α : Type} {name : α → String} {span : α → Span}
    {duplicate : String → Fault} {check : α → Verdict} {seen : List String} {l : List α}
    (h : distinctly name span duplicate check seen l = .ok ()) :
    (∀ a ∈ l, name a ∉ seen) ∧ (l.map name).Nodup ∧ ∀ a ∈ l, check a = .ok () := by
  induction l generalizing seen with
  | nil => simp
  | cons a l ih =>
      simp only [distinctly, verdict_bind_eq_ok, refuse_eq_ok_iff] at h
      obtain ⟨hfresh, hcheck, hrest⟩ := h
      obtain ⟨hseen, hnodup, hall⟩ := ih hrest
      have hfresh : name a ∉ seen := by simpa using hfresh
      refine ⟨?_, ?_, by simpa using ⟨hcheck, hall⟩⟩
      · intro b hb
        rcases List.mem_cons.mp hb with rfl | hb
        · exact hfresh
        · exact fun hmem => hseen b hb (List.mem_cons_of_mem _ hmem)
      · rw [List.map_cons, List.nodup_cons]
        refine ⟨fun hmem => ?_, hnodup⟩
        obtain ⟨b, hb, hname⟩ := List.mem_map.mp hmem
        exact hseen b hb (hname ▸ List.mem_cons_self)

/-! ## Rules -/

theorem mem_all (rule : Rule) : rule ∈ Rule.all := by cases rule <;> decide

/-- A program passes exactly if its main module is there and it keeps every rule. -/
theorem checkProgram_eq_ok_iff {p : Program} {settings : Settings} :
    checkProgram p settings = .ok () ↔ ∃ c, Context.ofProgram p settings = .ok c ∧
      ∀ rule : Rule, rule.check p c = .ok () := by
  simp only [checkProgram, checkRules, bind_eq_ok, each_eq_ok_iff]
  exact exists_congr fun c => and_congr_right fun _ =>
    ⟨fun h rule => h rule (mem_all rule), fun h rule _ => h rule⟩

/-- A checked program keeps every rule. -/
theorem checkProgram_keeps {p : Program} {settings : Settings}
    (h : checkProgram p settings = .ok ()) :
    ∃ c : Context, c.settings = settings ∧ ∀ rule : Rule, rule.check p c = .ok () := by
  obtain ⟨c, hc, hrules⟩ := checkProgram_eq_ok_iff.mp h
  refine ⟨c, ?_, hrules⟩
  unfold Context.ofProgram at hc
  split at hc
  · cases hc
  · cases hc
    rfl

/-- A verified program has been specialised, linked and checked. -/
theorem linkAndVerify_eq_ok {p p' : Program} {settings : Settings}
    (h : linkAndVerify p settings = .ok p') :
    ∃ p₁, (Link.specialiseInstances settings).apply p = (.ok (), p₁) ∧
      Link.linkEndpoints.apply p₁ = (.ok (), p') ∧ checkProgram p' settings = .ok () := by
  unfold linkAndVerify at h
  split at h
  · next q hrun =>
    cases h
    obtain ⟨_, p₁, hspecialise, hrun⟩ := Edit.apply_bind_eq_ok.mp hrun
    obtain ⟨_, p₂, hlink, hrun⟩ := Edit.apply_bind_eq_ok.mp hrun
    rw [Edit.apply_program_bind] at hrun
    cases hcheck : checkProgram p₂ settings with
    | error d => simp [hcheck] at hrun
    | ok _ =>
        have hsame : p₂ = p' := by simpa [hcheck] using hrun
        exact ⟨p₁, hspecialise, hsame ▸ hlink, hsame ▸ hcheck⟩
  · cases h

/-- A program is verified exactly if all three steps succeed. -/
theorem linkAndVerify_eq_ok_iff {p p' : Program} {settings : Settings} :
    linkAndVerify p settings = .ok p' ↔
      ∃ p₁, (Link.specialiseInstances settings).apply p = (.ok (), p₁) ∧
        Link.linkEndpoints.apply p₁ = (.ok (), p') ∧ checkProgram p' settings = .ok () := by
  refine ⟨linkAndVerify_eq_ok, ?_⟩
  rintro ⟨p₁, hspecialise, hlink, hcheck⟩
  have hrun : (verifyEdit settings).apply p = (.ok (), p') := by
    unfold verifyEdit
    refine Edit.apply_bind_eq_ok.mpr ⟨(), p₁, hspecialise, ?_⟩
    refine Edit.apply_bind_eq_ok.mpr ⟨(), p', hlink, ?_⟩
    rw [Edit.apply_program_bind, hcheck]
    rfl
  rw [linkAndVerify, hrun]

/-- A verified program keeps every rule. -/
theorem verified_keeps {p p' : Program} {settings : Settings}
    (h : linkAndVerify p settings = .ok p') :
    ∃ c : Context, c.settings = settings ∧ ∀ rule : Rule, rule.check p' c = .ok () := by
  obtain ⟨-, -, -, hcheck⟩ := linkAndVerify_eq_ok h
  exact checkProgram_keeps hcheck

/-- The endpoints of a module that runs have distinct names. -/
theorem checkModules_endpoints {p : Program} {settings : Settings} {main : Option ModuleId}
    (h : checkModules p settings main = .ok ()) {id : ModuleId} {m : Module}
    (hm : p.modules.get? id = some m) (hruns : m.isNamespace = false) :
    (m.endpoints.toList.map (·.name)).Nodup := by
  simp only [checkModules, verdict_bind_eq_ok] at h
  obtain ⟨-, hrunnable, -⟩ := h
  have hmem : (id, m) ∈ p.runnable :=
    List.mem_filter.mpr ⟨Arena.mem_entries_iff.mpr hm, by simp [hruns]⟩
  have hm := each_eq_ok_iff.mp hrunnable _ hmem
  simp only [checkRunnable, verdict_bind_eq_ok] at hm
  exact (distinctly_eq_ok hm.1).2.1

/-- Every connection of a graph resolves. -/
theorem connections_resolve {p : Program} {c : Context}
    (h : Rule.connections.check p c = .ok ()) {graph : ModuleId} (hgraph : graph ∈ p.graphs)
    {w : Connection} (hw : w ∈ (p.moduleAt graph).connections.toList) :
    ∃ r, Link.resolveConnection p graph w = .ok r := by
  have hgraph := each_eq_ok_iff.mp h graph hgraph
  have hw := each_eq_ok_iff.mp hgraph w hw
  simp only [Link.checkConnection, bind_eq_ok] at hw
  obtain ⟨_, ⟨r, hr, -⟩, -⟩ := hw
  exact ⟨r, hr⟩

theorem feedback?_eq_none {p : Program} {c : Context}
    (h : Rule.graphCycles.check p c = .ok ()) {graph : ModuleId} (hgraph : graph ∈ p.graphs) :
    Link.feedback? (p.moduleAt graph) = none := by
  have hgraph := each_eq_ok_iff.mp h graph hgraph
  unfold Link.checkFeedback at hgraph
  split at hgraph
  · next hnone => exact hnone
  · cases hgraph

end SignalGraph.Check

import SignalGraph.Check.Verify
import SignalGraph.Proofs.Heart.Parsed
import SignalGraph.Proofs.Link.Intactness
import SignalGraph.Proofs.Program.Consistent

/-!
# SignalGraph.Proofs.Check.Integrity

Programs are consistent all the way from their text to the end of the checks
(`consistent_throughout`): reading makes consistent programs, and specialising and linking keep them
consistent, whether they succeed or stop at an error.  So whatever a reader comes upon that starts
from a module and follows handles leads to an entry of its table.
-/

namespace SignalGraph

namespace Program

variable {p : Program}

/-- Entries that are found under handles in range. -/
theorem Consistent.expand (h : p.Consistent) {x y : Reference} (hx : x ∈ p.allMentions)
    (hy : y ∈ p.expand x) : p.Holds y := by
  have hholds := h.inRange x hx
  cases x with
  | const c =>
      rcases List.mem_cons.mp hy with rfl | hy
      · exact hholds
      · have hc : p.constantAt c ∈ p.constants.toList :=
          Arena.get_mem_toList (Arena.mem_handles_iff.mpr hholds)
        refine h.inRange y ?_
        simp only [allMentions, List.mem_append, List.mem_flatMap]
        exact .inr (.inr (.inr (.inr ⟨_, hc, hy⟩)))
  | mod _ | record _ | func _ | var _ | text _ | block _ =>
      rw [List.mem_singleton.mp hy]
      exact hholds

/-- All that a module refers to is there. -/
theorem Consistent.holds_references (h : p.Consistent) {id : ModuleId}
    (hid : id ∈ p.modules.handles) {x : Reference} (hx : x ∈ p.references id) : p.Holds x := by
  obtain ⟨y, hy, hx⟩ := List.mem_flatMap.mp hx
  refine h.expand ?_ hx
  have hwf := h.intact.wellFormed
  have hvars : ∀ v ∈ p.ownVars id, v ∈ p.vars.handles := by
    intro v hv
    refine Arena.mem_handles_iff.mpr (hwf.declaredInRange v ?_)
    simp only [ownVars, declared, allModuleVars, List.mem_append, List.mem_flatMap] at hv ⊢
    obtain hv | ⟨f, hf, hv⟩ | ⟨f, hf, hv⟩ := hv
    · exact .inl ⟨id, hid, hv⟩
    · exact .inr (.inl ⟨f, hwf.function_inRange hid hf, hv⟩)
    · exact .inr (.inr ⟨f, hwf.function_inRange hid hf, hv⟩)
  simp only [mentions, List.mem_append, List.mem_flatMap] at hy
  simp only [allMentions, List.mem_append, List.mem_flatMap]
  obtain hy | ⟨s, hs, hy⟩ | ⟨f, hf, hy⟩ | ⟨v, hv, hy⟩ := hy
  · exact .inl ⟨_, Arena.get_mem_toList hid, hy⟩
  · exact .inr (.inl ⟨_, Arena.get_mem_toList (hwf.struct_inRange hid hs), hy⟩)
  · exact .inr (.inr (.inl ⟨_, Arena.get_mem_toList (hwf.function_inRange hid hf), hy⟩))
  · exact .inr (.inr (.inr (.inl ⟨_, Arena.get_mem_toList (hvars v hv), hy⟩)))

end Program

namespace Check

open Program

theorem intact_verifyEdit {p : Program} (hp : p.Intact) (settings : Settings) :
    ((verifyEdit settings).apply p).2.Intact := by
  have hmoves : Edit.Moves (fun q r => q.Intact → r.Intact) (verifyEdit settings) p := by
    refine .bind (.single fun hp => Link.intact_specialiseInstances hp settings) fun _ q _ => ?_
    refine .bind (.single fun hq => Link.intact_linkEndpoints hq) fun _ r _ => .program_bind ?_
    split
    · exact Edit.moves_pure _
    · exact Edit.moves_throw _
  exact hmoves.keeps (fun _ _ h => h) hp

/-- Programs that are read are consistent; specialising, linking and verifying keep them so in every
outcome, and what is reached from a module of a consistent program is there. -/
theorem consistent_throughout :
    (∀ file text p, Heart.parseFile file text = .ok p → p.Consistent) ∧
    (∀ p : Program, p.Consistent → ∀ settings,
      ((Link.specialiseInstances settings).apply p).2.Consistent ∧
      (Link.linkEndpoints.apply p).2.Consistent ∧ ((verifyEdit settings).apply p).2.Consistent) ∧
    ∀ p : Program, p.Consistent → ∀ id ∈ p.modules.handles, ∀ x ∈ p.references id, p.Holds x := by
  refine ⟨fun file text p h => (Heart.intact_parseFile h).consistent, fun p hp settings => ?_, ?_⟩
  · have hp := hp.intact
    exact ⟨(Link.intact_specialiseInstances hp settings).consistent,
      (Link.intact_linkEndpoints hp).consistent, (intact_verifyEdit hp settings).consistent⟩
  · exact fun p hp id hid x hx => hp.holds_references hid hx

/-- A processor with a parameter, and a graph that supplies it. -/
def gainText : String :=
  "#HEART 1\n" ++
  "processor Gain \x7b output out stream int32; param int32 k; function run () -> void \x7b @b: " ++
  "write out Gain::k; advance; branch @b; \x7d \x7d " ++
  "graph Top \x7b output out stream int32; node n = Gain (3); connection n.out -> out; \x7d"

theorem consistent_throughout_gain : ∃ p, Heart.parseFile ⟨0⟩ gainText = .ok p ∧
    p.modules.size = 2 ∧ ((verifyEdit {}).apply p).2.Consistent ∧
    ∀ x ∈ p.references ⟨1⟩, p.Holds x := by
  have hsize : (Heart.parseFile ⟨0⟩ gainText).toOption.map (·.modules.size) = some 2 := by
    decide +kernel
  cases hparse : Heart.parseFile ⟨0⟩ gainText with
  | error d =>
      rw [hparse] at hsize
      cases hsize
  | ok p =>
      rw [hparse] at hsize
      have hsize : p.modules.size = 2 := Option.some.inj hsize
      have hp := consistent_throughout.1 _ _ p hparse
      have hid : ⟨1⟩ ∈ p.modules.handles := Arena.mem_handles_iff.mpr (by rw [hsize]; decide)
      exact ⟨p, rfl, hsize, (consistent_throughout.2.1 p hp {}).2.2,
        consistent_throughout.2.2 p hp ⟨1⟩ hid⟩

end Check

end SignalGraph

import SignalGraph.Proofs.Check.AlikeVerdicts
import SignalGraph.Proofs.Check.Integrity
import SignalGraph.Proofs.Heart.AlikeTexts
import SignalGraph.Proofs.Heart.ParsedTidy
import SignalGraph.Proofs.Link.AlikeLinking
import SignalGraph.Proofs.Link.AlikeSpecialising
import SignalGraph.Proofs.Link.Tidiness

/-!
# SignalGraph.Proofs.Check.Duplicates

A copy of a program cannot be told from the program (`duplicate_indistinguishable`).  The copy has
other names for variables, constants and texts, but it is alike: it prints the same, and
specialising, linking and checking do the same to both.
-/

namespace SignalGraph.Check

open Link Program

variable {p q : Program}

/-! ## Programs that come from a text -/

/-- The program was read from a text, and has perhaps been specialised and linked since. -/
inductive Obtained : Program → Prop
  | parsed {file : FileId} {text : String} {p : Program}
    (h : Heart.parseFile file text = .ok p) : Obtained p
  | specialised {settings : Settings} {p q : Program} (h : Obtained p)
    (hrun : (specialiseInstances settings).apply p = (.ok (), q)) : Obtained q
  | linked {p q : Program} (h : Obtained p) (hrun : linkEndpoints.apply p = (.ok (), q)) :
      Obtained q

/-- Every program that is obtained is intact and tidy. -/
theorem Obtained.tidy (h : Obtained p) : p.Intact ∧ p.Tidy := by
  induction h with
  | parsed h => exact ⟨Heart.intact_parseFile h, Heart.tidy_parseFile h⟩
  | @specialised settings p q _ hrun ih =>
      have hintact := intact_specialiseInstances ih.1 settings
      have htidy := tidy_specialiseInstances ih.1 ih.2 settings
      rw [hrun] at hintact htidy
      exact ⟨hintact, htidy⟩
  | @linked p q _ hrun ih =>
      have hintact := intact_linkEndpoints ih.1
      have htidy := tidy_linkEndpoints ih.2
      rw [hrun] at hintact htidy
      exact ⟨hintact, htidy⟩

/-! ## Copies -/

/-- Verifying ends in the same way for programs that are alike. -/
theorem agree_verifyEdit (h : Twins p q) (settings : Settings) :
    Edit.Agree (fun _ _ p' q' => Heart.print q' = Heart.print p') (verifyEdit settings)
      (verifyEdit settings) p q := by
  refine .bind (agree_specialiseInstances h settings) fun _ _ p₁ q₁ h₁ => ?_
  obtain ⟨V, halike⟩ := h₁.alike
  refine .bind (agree_linkEndpoints ⟨halike, rfl⟩) fun _ _ p₂ q₂ h₂ => .program_bind ?_
  rw [checkProgram_alike h₂.2.alike]
  split
  · exact Edit.agree_pure (Heart.print_alike h₂.2.alike)
  · exact Edit.agree_throw _

/-- A copy of a program that comes from a text can be made, is printed alike, and ends up alike when
it is verified: both programs are refused with the same single diagnostic, or both are verified and
the results are printed alike. -/
theorem duplicate_indistinguishable (h : Obtained p) :
    ∃ q, p.duplicate = .ok q ∧ Heart.print q = Heart.print p ∧ ∀ settings,
      (∃ d, linkAndVerify p settings = .error [d] ∧ linkAndVerify q settings = .error [d]) ∨
      ∃ p' q', linkAndVerify p settings = .ok p' ∧ linkAndVerify q settings = .ok q' ∧
        Heart.print q' = Heart.print p' := by
  obtain ⟨hintact, htidy⟩ := h.tidy
  obtain ⟨q, hq, hwf, halike⟩ := hintact.wellFormed.duplicate_twin htidy
  refine ⟨q, hq, Heart.print_alike halike, fun settings => ?_⟩
  have hagree := agree_verifyEdit ⟨hintact.wellFormed, hwf, _, halike⟩ settings
  unfold linkAndVerify
  obtain ⟨d, hp, hq⟩ | ⟨_, _, p', q', hp, hq, hprint⟩ := hagree.cases
  · rw [← Prod.eta ((verifyEdit settings).apply p), ← Prod.eta ((verifyEdit settings).apply q),
      hp, hq]
    exact .inl ⟨d, rfl, rfl⟩
  · rw [hp, hq]
    exact .inr ⟨p', q', rfl, rfl, hprint⟩

theorem duplicate_indistinguishable_gain : ∃ p, Obtained p ∧ p.modules.size = 3 ∧
    ∃ q, p.duplicate = .ok q ∧ Heart.print q = Heart.print p ∧ ∀ settings,
      (∃ d, linkAndVerify p settings = .error [d] ∧ linkAndVerify q settings = .error [d]) ∨
      ∃ p' q', linkAndVerify p settings = .ok p' ∧ linkAndVerify q settings = .ok q' ∧
        Heart.print q' = Heart.print p' := by
  have hruns : (Heart.parseFile ⟨0⟩ gainText).toOption.map (fun p =>
      let specialised := (specialiseInstances {}).apply p
      let linked := linkEndpoints.apply specialised.2
      (specialised.1, linked.1, linked.2.modules.size)) = some (.ok (), .ok (), 3) := by
    decide +kernel
  cases hparse : Heart.parseFile ⟨0⟩ gainText with
  | error d =>
      rw [hparse] at hruns
      cases hruns
  | ok p =>
      rw [hparse] at hruns
      obtain ⟨hspecialise, hlink, hsize⟩ :
          ((specialiseInstances {}).apply p).1 = .ok () ∧
          (linkEndpoints.apply ((specialiseInstances {}).apply p).2).1 = .ok () ∧
          (linkEndpoints.apply ((specialiseInstances {}).apply p).2).2.modules.size = 3 := by
        simpa [Except.toOption] using hruns
      have hobtained : Obtained (linkEndpoints.apply ((specialiseInstances {}).apply p).2).2 :=
        .linked (.specialised (.parsed hparse) (Prod.ext hspecialise rfl)) (Prod.ext hlink rfl)
      exact ⟨_, hobtained, hsize, duplicate_indistinguishable hobtained⟩

end SignalGraph.Check

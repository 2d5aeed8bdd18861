import SignalGraph.Proofs.Heart.Inline

/-!
# SignalGraph.Proofs.Heart.Labels

The labels of the blocks that are still to come (`Cursor.labels`).  What stands within a block marks
no boundary, or refers to a label where no block can start, so whatever is read there leaves these
labels as they are (`KeepsLabels`).
-/

namespace SignalGraph.Heart

/-! ## Places -/

namespace Cursor

variable {c c' : Cursor} {ts : List Token}

/-- The labels of the blocks of a body from a place on. -/
def labels (c : Cursor) : List String := Parser.blockLabels c.before.kind 0 c.rest

/-- A block can start here: a semicolon or the opening brace comes before. -/
def AtBlock (c : Cursor) : Prop := c.before.kind = .semicolon ∨ c.before.kind = .leftBrace

/-- After a step, the token before is the one that was there. -/
theorem before_next (h : c.current.kind ≠ .eof) : c.next.before = c.current := by
  unfold next
  split
  · next t rest hrest =>
    have ht : c.current = t := by simp [current, hrest]
    rw [if_neg (ht ▸ h), ht]
  · next hrest => simp [current, hrest]

/-- Tokens that mark no boundary start no block. -/
theorem blockLabels_inline (hts : ∀ t ∈ ts, t.kind.isInline) (before : Token) (rest : List Token) :
    Parser.blockLabels before.kind 0 (ts ++ rest) =
      Parser.blockLabels (ts.getLastD before).kind 0 rest := by
  induction ts generalizing before with
  | nil => rfl
  | cons t ts ih =>
      have ht := hts t (by simp)
      have hstep : Parser.blockLabels before.kind 0 (t :: (ts ++ rest)) =
          Parser.blockLabels t.kind 0 (ts ++ rest) := by
        rw [Parser.blockLabels]
        split <;> simp_all [TokenKind.isInline]
      rw [List.cons_append, hstep, ih fun u hu => hts u (List.mem_cons_of_mem _ hu)]
      cases ts <;> rfl

/-- Passing only such tokens leaves the labels to come as they are. -/
theorem Passed.labels (h : c.Passed ts c') (hts : ∀ t ∈ ts, t.kind.isInline) :
    c'.labels = c.labels := by
  rw [Cursor.labels, Cursor.labels, h.rest, blockLabels_inline hts, ← h.before]

/-- Passing anything but a brace, or a label where a block can start. -/
theorem labels_next (hopen : c.current.kind ≠ .leftBrace) (hclose : c.current.kind ≠ .rightBrace)
    (hlabel : c.current.kind = .blockLabel → ¬c.AtBlock) : c.next.labels = c.labels := by
  unfold next
  split
  · next t rest hrest =>
    have ht : c.current = t := by simp [current, hrest]
    rw [ht] at hopen hclose hlabel
    split
    · rfl
    · rw [labels, labels, hrest, Parser.blockLabels]
      split
      · contradiction
      · contradiction
      · next hkind =>
        have hbefore : ¬(c.before.kind = .semicolon ∨ c.before.kind = .leftBrace) := hlabel hkind
        simp [hbefore]
      · rfl
  · rfl

/-- A label where a block can start is the first of those to come. -/
theorem labels_eq_cons (hblock : c.AtBlock) (hkind : c.current.kind = .blockLabel) :
    c.labels = c.current.text :: c.next.labels := by
  cases hrest : c.rest with
  | nil =>
      have hcurrent : c.current = c.before := by simp [current, hrest]
      rcases hblock with hbefore | hbefore <;> simp [hcurrent, hbefore] at hkind
  | cons t rest =>
      have ht : c.current = t := by simp [current, hrest]
      rw [ht] at hkind
      have hnext : c.next = ⟨t, rest⟩ := by simp [next, hrest, hkind]
      have hbefore : c.before.kind = .semicolon ∨ c.before.kind = .leftBrace := hblock
      rw [ht, hnext, labels, labels, hrest, Parser.blockLabels, hkind]
      simp [hbefore]

/-- The closing brace ends the body. -/
theorem labels_eq_nil (hblock : c.AtBlock) (hkind : c.current.kind = .rightBrace) :
    c.labels = [] := by
  cases hrest : c.rest with
  | nil =>
      have hcurrent : c.current = c.before := by simp [current, hrest]
      rcases hblock with hbefore | hbefore <;> simp [hcurrent, hbefore] at hkind
  | cons t rest =>
      have ht : c.current = t := by simp [current, hrest]
      rw [ht] at hkind
      rw [labels, hrest, Parser.blockLabels, hkind]
      rfl

end Cursor

namespace Parser

variable {α β : Type} {x y : Parser α} {f : α → Parser β} {s s' : ParserState}

/-! ## Parsers -/

/-- The parser leaves the labels to come as they are.  This is found from its parts. -/
class KeepsLabels (x : Parser α) : Prop where
  labels : ∀ s a s', x.run s = .ok (a, s') → s'.cursor.labels = s.cursor.labels

instance (priority := low) [hx : Inline x] : KeepsLabels x where
  labels s a s' hrun := by
    obtain ⟨ts, hpassed, hinline⟩ := hx.inlineAt s a s' hrun
    exact hpassed.labels hinline

/-- Parsers that leave the labels do so one after the other. -/
theorem keepsLabels_bind (hx : KeepsLabels x) (hf : ∀ a, KeepsLabels (f a)) :
    KeepsLabels (x >>= f) where
  labels s b s'' hrun := by
    obtain ⟨a, s', ha, hb⟩ := run_bind_eq_ok.mp hrun
    rw [(hf a).labels s' b s'' hb, hx.labels s a s' ha]

instance [hx : KeepsLabels x] [hf : ∀ a, KeepsLabels (f a)] : KeepsLabels (x >>= f) :=
  keepsLabels_bind hx hf

instance : KeepsLabels (expect .semicolon) where
  labels s t s' hrun := by
    obtain ⟨hkind, -, rfl⟩ := run_expect_eq_ok hrun
    exact Cursor.labels_next (by simp [hkind]) (by simp [hkind]) (by simp [hkind])

instance (scope : Scope) : KeepsLabels (statement scope) := by unfold statement; infer_instance

/-- A token that was expected is the one before the place that is reached. -/
theorem before_of_run_expect {kind : TokenKind} {t : Token} (hkind : kind ≠ .eof)
    (h : (expect kind).run s = .ok (t, s')) : s'.cursor.before.kind = kind := by
  obtain ⟨hcurrent, -, rfl⟩ := run_expect_eq_ok h
  rw [Cursor.before_next (by rwa [hcurrent]), hcurrent]

/-- What a branch goes to stands where no block can start. -/
theorem labels_of_run_branchTarget {scope : Scope} {r : BlockId × List Expr}
    (hs : ¬s.cursor.AtBlock) (h : (branchTarget scope).run s = .ok (r, s')) :
    s'.cursor.labels = s.cursor.labels := by
  obtain ⟨b, s₁, hb, h⟩ := run_bind_eq_ok.mp h
  have hargs : s'.cursor.labels = s₁.cursor.labels := by
    refine KeepsLabels.labels (x := (do
      let args ← if ← at_ .leftParen then arguments (expr scope) else pure []
      return (b, args) : Parser _)) s₁ r s' h
  obtain ⟨t, s₂, ht, hb⟩ := run_bind_eq_ok.mp hb
  obtain ⟨hkind, rfl, rfl⟩ := run_expect_eq_ok ht
  have hsame : s₁.cursor = s.cursor.next := by
    split at hb
    · cases run_pure_eq_ok.mp hb |>.2
      rfl
    · exact (run_fail_ne_ok.mp hb).elim
  rw [hargs, hsame]
  exact Cursor.labels_next (by simp [hkind]) (by simp [hkind]) fun _ => hs

instance (scope : Scope) : KeepsLabels (terminator scope) where
  labels s r s' h := by
    unfold terminator at h
    rw [run_eatKeyword_bind] at h
    split at h
    · next hword =>
      obtain ⟨target, s₁, htarget, h⟩ := run_bind_eq_ok.mp h
      obtain ⟨-, rfl⟩ := run_pure_eq_ok.mp h
      have hbefore := Cursor.before_next (c := s.cursor) (by simp [hword.1])
      rw [labels_of_run_branchTarget (by simp [Cursor.AtBlock, hbefore, hword.1]) htarget]
      exact Cursor.labels_next (by simp [hword.1]) (by simp [hword.1]) (by simp [hword.1])
    · simp only [Bool.false_eq_true, if_false] at h
      rw [run_eatKeyword_bind] at h
      split at h
      · next hword =>
        obtain ⟨c, s₁, hc, h⟩ := run_bind_eq_ok.mp h
        obtain ⟨_, s₂, hquestion, h⟩ := run_bind_eq_ok.mp h
        obtain ⟨t, s₃, ht, h⟩ := run_bind_eq_ok.mp h
        obtain ⟨_, s₄, hcolon, h⟩ := run_bind_eq_ok.mp h
        obtain ⟨e, s₅, he, h⟩ := run_bind_eq_ok.mp h
        obtain ⟨-, rfl⟩ := run_pure_eq_ok.mp h
        have hthen := before_of_run_expect (by decide) hquestion
        have helse := before_of_run_expect (by decide) hcolon
        rw [labels_of_run_branchTarget (by simp [Cursor.AtBlock, helse]) he,
          KeepsLabels.labels s₃ _ s₄ hcolon,
          labels_of_run_branchTarget (by simp [Cursor.AtBlock, hthen]) ht,
          KeepsLabels.labels s₁ _ s₂ hquestion, KeepsLabels.labels _ c s₁ hc]
        exact Cursor.labels_next (by simp [hword.1]) (by simp [hword.1]) (by simp [hword.1])
      · simp only [Bool.false_eq_true, if_false] at h
        exact KeepsLabels.labels s r s' h

end Parser

end SignalGraph.Heart

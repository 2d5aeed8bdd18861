import SignalGraph.Proofs.Program.Edit

/-!
# SignalGraph.Proofs.Program.Agreement

Two edits side by side.  `Agree` says that two edits, each of its own program, end alike: both fail
with the same diagnostic, or both succeed with answers and programs that are related.  The rules
follow the steps that edits are made of.
-/

namespace SignalGraph.Edit

variable {α β γ δ : Type}

/-- Outcomes that are alike: the same failure, or answers and programs that are related. -/
inductive EndAlike (R : α → β → Program → Program → Prop) :
    Except Diagnostic α × Program → Except Diagnostic β × Program → Prop
  | ok {a b p q} (h : R a b p q) : EndAlike R (.ok a, p) (.ok b, q)
  | error (d p q) : EndAlike R (.error d, p) (.error d, q)

/-- Two edits, each of its own program, end alike. -/
def Agree (R : α → β → Program → Program → Prop) (x : Edit α) (y : Edit β) (p q : Program) :
    Prop :=
  EndAlike R (x.apply p) (y.apply q)

variable {R : α → β → Program → Program → Prop} {p q : Program}

/-- Answers that are related agree. -/
theorem agree_pure {a : α} {b : β} (h : R a b p q) :
    Agree R (pure a : Edit α) (pure b : Edit β) p q := .ok h

/-- The same failure agrees with itself. -/
theorem agree_throw (d : Diagnostic) : Agree R (throw d : Edit α) (throw d : Edit β) p q :=
  .error d p q

/-- What would come after a failure does not matter. -/
theorem agree_throw_bind (d : Diagnostic) (f : α → Edit γ) (g : β → Edit δ)
    {R : γ → δ → Program → Program → Prop} :
    Agree R (throw d >>= f) (throw d >>= g) p q := .error d p q

/-- What is there for both is answered by both. -/
theorem agree_require {d : Diagnostic} {o : Option α} {R : α → α → Program → Program → Prop}
    (h : ∀ a, o = some a → R a a p q) : Agree R (require d o) (require d o) p q := by
  cases o with
  | none => exact agree_throw d
  | some a => exact agree_pure (h a rfl)

/-- Changes of a module agree if they lead to related programs. -/
theorem agree_modifyModule {id : ModuleId} {f g : Module → Module}
    {R : Unit → Unit → Program → Program → Prop}
    (h : R () () (p.modifyModule id f) (q.modifyModule id g)) :
    Agree R (modifyModule id f) (modifyModule id g) p q := .ok h

/-- Edits that agree may be followed by edits that agree on whatever was answered. -/
theorem Agree.bind {x : Edit α} {y : Edit β} {f : α → Edit γ} {g : β → Edit δ}
    {S : γ → δ → Program → Program → Prop} (hx : Agree R x y p q)
    (hf : ∀ a b p' q', R a b p' q' → Agree S (f a) (g b) p' q') :
    Agree S (x >>= f) (y >>= g) p q := by
  unfold Agree at hx ⊢
  rw [apply_bind, apply_bind]
  generalize x.apply p = x' at hx
  generalize y.apply q = y' at hx
  cases hx with
  | ok h => exact hf _ _ _ _ h
  | error d p' q' => exact .error d p' q'

theorem Agree.program_bind {f g : Program → Edit α} {R : α → α → Program → Program → Prop}
    (h : Agree R (f p) (g q) p q) : Agree R (program >>= f) (program >>= g) p q := h

/-- Both edits take the same branch. -/
theorem Agree.ite {c : Prop} [Decidable c] {x x' : Edit α} {y y' : Edit β}
    (hx : c → Agree R x y p q) (hy : ¬ c → Agree R x' y' p q) :
    Agree R (if c then x else x') (if c then y else y') p q := by
  split
  · next h => exact hx h
  · next h => exact hy h

/-- Edits that agree fail with the same diagnostics, and if one succeeds, so does the other. -/
theorem Agree.cases {x : Edit α} {y : Edit β} (h : Agree R x y p q) :
    (∃ d, (x.apply p).1 = .error d ∧ (y.apply q).1 = .error d) ∨
      ∃ a b p' q', x.apply p = (.ok a, p') ∧ y.apply q = (.ok b, q') ∧ R a b p' q' := by
  unfold Agree at h
  generalize hx : x.apply p = x' at h
  generalize hy : y.apply q = y' at h
  cases h with
  | ok h => exact .inr ⟨_, _, _, _, rfl, rfl, h⟩
  | error d p' q' => exact .inl ⟨d, rfl, rfl⟩

end SignalGraph.Edit

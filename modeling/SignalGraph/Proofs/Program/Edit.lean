import Mathlib.Logic.Relation
import SignalGraph.Program.Edit

/-!
# SignalGraph.Proofs.Program.Edit

How edits run.  `apply` takes an edit to its outcome and the program it leaves; the equations here
push it through the steps that edits are made of, and `apply_bind_eq_ok` takes a successful edit
apart into its successful steps.

`Upholds` says what an edit keeps and which diagnostics it can end with; `Moves` follows an edit
through single changes of the program, also where it fails halfway.
-/

namespace SignalGraph.Edit

variable {α β : Type}

/-! ## Single steps -/

@[simp] theorem apply_pure (a : α) (p : Program) : (pure a : Edit α).apply p = (.ok a, p) := rfl

@[simp] theorem apply_throw (d : Diagnostic) (p : Program) :
    (throw d : Edit α).apply p = (.error d, p) := rfl

@[simp] theorem apply_program (p : Program) : program.apply p = (.ok p, p) := rfl

@[simp] theorem apply_modifyModule (id : ModuleId) (f : Module → Module) (p : Program) :
    (modifyModule id f).apply p = (.ok (), p.modifyModule id f) := rfl

/-! ## One step after another -/

/-- One edit after another: the second goes on from the program that the first leaves, unless that
failed. -/
theorem apply_bind (x : Edit α) (f : α → Edit β) (p : Program) :
    (x >>= f).apply p = match x.apply p with
      | (.ok a, q) => (f a).apply q
      | (.error d, q) => (.error d, q) := by
  simp only [apply, ExceptT.run_bind, StateT.run_bind]
  cases x.run.run p with
  | mk outcome q => cases outcome <;> rfl

@[simp] theorem apply_program_bind (f : Program → Edit β) (p : Program) :
    (program >>= f).apply p = (f p).apply p := rfl

/-- What would come after a failure does not matter. -/
theorem apply_throw_bind (d : Diagnostic) (f : α → Edit β) (p : Program) :
    (throw d >>= f : Edit β).apply p = (.error d, p) := rfl

@[simp] theorem apply_modifyModule_bind (id : ModuleId) (g : Module → Module) (f : Unit → Edit β)
    (p : Program) :
    (modifyModule id g >>= f).apply p = (f ()).apply (p.modifyModule id g) := rfl

/-- A successful edit in two steps: both steps succeed, the second from where the first ended. -/
theorem apply_bind_eq_ok {x : Edit α} {f : α → Edit β} {p r : Program} {b : β} :
    (x >>= f).apply p = (.ok b, r) ↔
      ∃ a q, x.apply p = (.ok a, q) ∧ (f a).apply q = (.ok b, r) := by
  rw [apply_bind]
  cases x.apply p with
  | mk outcome q =>
      cases outcome with
      | error d => simp
      | ok a =>
          constructor
          · exact fun h => ⟨a, q, rfl, h⟩
          · rintro ⟨a', q', heq, h⟩
            cases heq
            exact h

/-- Edits in two steps do the same if their first steps do, and their second ones do from there
on. -/
theorem apply_bind_congr {x y : Edit α} {f g : α → Edit β} {p : Program}
    (hxy : x.apply p = y.apply p)
    (hfg : ∀ a q, x.apply p = (.ok a, q) → (f a).apply q = (g a).apply q) :
    (x >>= f).apply p = (y >>= g).apply p := by
  rw [apply_bind, apply_bind, ← hxy]
  cases hx : x.apply p with
  | mk outcome q =>
      cases outcome with
      | error d => rfl
      | ok a => exact hfg a q hx

/-- A requirement changes nothing and gives what is there. -/
theorem apply_require_eq_ok {d : Diagnostic} {o : Option α} {p q : Program} {a : α} :
    (require d o).apply p = (.ok a, q) ↔ o = some a ∧ q = p := by
  cases o with
  | none => simp [require]
  | some a' =>
      simp only [require, apply_pure, Prod.mk.injEq, Except.ok.injEq, Option.some.injEq]
      exact and_congr_right fun _ => eq_comm

/-! ## Invariants and failures -/

/-- In programs of a kind the edit ends in a program of that kind, whether or not it succeeds, and
all diagnostics that it can end with have a property. -/
def Upholds (kind : Program → Prop) (property : Diagnostic → Prop) (x : Edit α) : Prop :=
  ∀ p, kind p → kind (x.apply p).2 ∧ ∀ d, (x.apply p).1 = .error d → property d

section

variable {kind : Program → Prop} {property : Diagnostic → Prop} {x y : Edit α} {f : α → Edit β}

/-- What is known of the failures may be weakened. -/
theorem Upholds.mono {property' : Diagnostic → Prop} (h : Upholds kind property x)
    (himp : ∀ d, property d → property' d) : Upholds kind property' x :=
  fun p hp => ⟨(h p hp).1, fun d hd => himp d ((h p hp).2 d hd)⟩

theorem upholds_pure (a : α) : Upholds kind property (pure a : Edit α) := fun _ hp => ⟨hp, nofun⟩

/-- A failure with the property. -/
theorem upholds_throw {d : Diagnostic} (hd : property d) :
    Upholds kind property (throw d : Edit α) := by
  refine fun p hp => ⟨hp, fun d' h => ?_⟩
  cases h
  exact hd

/-- What would come after a failure does not matter. -/
theorem upholds_throw_bind {d : Diagnostic} (hd : property d) (f : α → Edit β) :
    Upholds kind property (throw d >>= f) := upholds_throw hd

/-- A requirement fails with the property or changes nothing. -/
theorem upholds_require {d : Diagnostic} (hd : property d) (o : Option α) :
    Upholds kind property (require d o) := by
  cases o with
  | none => exact upholds_throw hd
  | some a => exact upholds_pure a

/-- A change of a module that keeps the kind of program. -/
theorem upholds_modifyModule {id : ModuleId} {g : Module → Module}
    (hg : ∀ p : Program, kind p → kind (p.modifyModule id g)) :
    Upholds kind property (modifyModule id g) := fun p hp => ⟨hg p hp, nofun⟩

/-- The second step starts from where the first one ended, if that succeeded. -/
theorem Upholds.bind_of_ok (hx : Upholds kind property x)
    (hf : ∀ a p q, kind p → x.apply p = (.ok a, q) → Upholds kind property (f a)) :
    Upholds kind property (x >>= f) := by
  intro p hp
  have hfirst := hx p hp
  rw [apply_bind]
  cases hrun : x.apply p with
  | mk outcome q =>
      rw [hrun] at hfirst
      cases outcome with
      | error d => exact ⟨hfirst.1, fun d' h => hfirst.2 d' (by cases h; rfl)⟩
      | ok a => exact hf a p q hp hrun q hfirst.1

/-- Edits that uphold do so one after the other. -/
theorem Upholds.bind (hx : Upholds kind property x) (hf : ∀ a, Upholds kind property (f a)) :
    Upholds kind property (x >>= f) := hx.bind_of_ok fun a _ _ _ _ => hf a

/-- Looking at a program of the kind may be used in what follows. -/
theorem Upholds.program_bind {f : Program → Edit β}
    (hf : ∀ p, kind p → Upholds kind property (f p)) : Upholds kind property (program >>= f) :=
  fun p hp => hf p hp p hp

/-- A first step that depends on the program it starts from. -/
theorem Upholds.program_bind_bind {x : Program → Edit α}
    (hx : ∀ p, kind p → kind ((x p).apply p).2 ∧ ∀ d, ((x p).apply p).1 = .error d → property d)
    (hf : ∀ a, Upholds kind property (f a)) :
    Upholds kind property (program >>= fun p => x p >>= f) := by
  have hfirst : Upholds kind property (program >>= x) := hx
  have hboth := hfirst.bind hf
  intro p hp
  have h := hboth p hp
  rwa [apply_bind, apply_program_bind, ← apply_bind] at h

/-- Both branches uphold. -/
theorem Upholds.ite {c : Prop} [Decidable c] (hx : Upholds kind property x)
    (hy : Upholds kind property y) : Upholds kind property (if c then x else y) := by
  split
  · exact hx
  · exact hy

/-- Edits for a list uphold if each of them does. -/
theorem upholds_forM {l : List α} {f : α → Edit Unit} (hf : ∀ a, Upholds kind property (f a)) :
    Upholds kind property (l.forM f) := by
  induction l with
  | nil => exact upholds_pure ()
  | cons a l ih =>
      rw [List.forM_eq_forM, List.forM_cons]
      exact (hf a).bind fun _ => ih

end

/-! ## Changes -/

/-- An edit takes a program through changes of the given kind, whether or not it succeeds. -/
def Moves (change : Program → Program → Prop) (x : Edit α) (p : Program) : Prop :=
  Relation.ReflTransGen change p (x.apply p).2

variable {change : Program → Program → Prop} {p : Program}

/-- An edit that moves along a relation leads along it, whether it succeeds or fails. -/
theorem Moves.of_apply {x : Edit α} {outcome : Except Diagnostic α} {q : Program}
    (h : Moves change x p) (hx : x.apply p = (outcome, q)) : Relation.ReflTransGen change p q := by
  unfold Moves at h
  rwa [hx] at h

/-- What every change keeps an edit keeps, whether or not it succeeds. -/
theorem Moves.keeps {x : Edit α} {K : Program → Prop} (h : Moves change x p)
    (hchange : ∀ p q, change p q → K p → K q) (hp : K p) : K (x.apply p).2 := by
  have hall : ∀ q, Relation.ReflTransGen change p q → K q := by
    intro q hq
    induction hq with
    | refl => exact hp
    | tail _ hstep ih => exact hchange _ _ hstep ih
  exact hall _ h

theorem moves_pure (a : α) : Moves change (pure a : Edit α) p := .refl

theorem moves_throw (d : Diagnostic) : Moves change (throw d : Edit α) p := .refl

theorem moves_require (d : Diagnostic) (o : Option α) : Moves change (require d o) p := by
  cases o with
  | none => exact moves_throw d
  | some a => exact moves_pure a

/-- A change of a module that lies in the relation. -/
theorem moves_modifyModule {id : ModuleId} {f : Module → Module}
    (h : change p (p.modifyModule id f)) : Moves change (modifyModule id f) p := .single h

/-- The second step starts from where the first one ended, if that succeeded. -/
theorem Moves.bind {x : Edit α} {f : α → Edit β} (hx : Moves change x p)
    (hf : ∀ a q, x.apply p = (.ok a, q) → Moves change (f a) q) : Moves change (x >>= f) p := by
  unfold Moves
  rw [apply_bind]
  cases hp : x.apply p with
  | mk outcome q =>
      have hq := hx.of_apply hp
      cases outcome with
      | error d => exact hq
      | ok a => exact hq.trans (hf a q hp)

/-- Looking at the program moves nothing. -/
theorem Moves.program_bind {f : Program → Edit β} (hf : Moves change (f p) p) :
    Moves change (program >>= f) p := hf

/-- Both branches move along the relation. -/
theorem Moves.ite {c : Prop} [Decidable c] {x y : Edit α} (hx : c → Moves change x p)
    (hy : ¬ c → Moves change y p) : Moves change (if c then x else y) p := by
  split
  · next h => exact hx h
  · next h => exact hy h

end SignalGraph.Edit

import SignalGraph.Program.Typing
import SignalGraph.Proofs.Program.Mentions
import SignalGraph.Ty.Cast

/-!
# SignalGraph.Proofs.Ty.Replacing

Types whose structs are replaced.  Replacing goes along with the selection of elements, and as long
as distinct structs are replaced by distinct ones, it does not change which values fit where
(`Ty.Replaced.castKind`).  A value fits only where all the structs of its type are expected
(`Ty.mentions_of_isSilent`).
-/

namespace SignalGraph

namespace Ty

/-- The second type is the first one with its structs replaced. -/
inductive Replaced (f : StructId → Option StructId) : Ty → Ty → Prop where
  | prim (p : Prim) : Replaced f (.prim p) (.prim p)
  | vector (p : Prim) (n : Nat) : Replaced f (.vector p n) (.vector p n)
  | string : Replaced f .string .string
  | struct {s s' : StructId} (h : f s = some s') : Replaced f (.struct s) (.struct s')
  | array {e e' : Ty} (n : Option Nat) (h : Replaced f e e') : Replaced f (.array e n) (.array e' n)
  | const {t t' : Ty} (h : Replaced f t t') : Replaced f (.const t) (.const t')
  | ref {t t' : Ty} (h : Replaced f t t') : Replaced f (.ref t) (.ref t')

variable {f : StructId → Option StructId} {t t' u u' : Ty}

/-- Renaming the structs of a type succeeds with exactly the types that have them replaced. -/
theorem mapStructs_eq_some_iff : t.mapStructs f = some t' ↔ Replaced f t t' := by
  constructor
  · intro h
    induction t generalizing t' with
    | struct s =>
        simp only [mapStructs, Option.bind_eq_bind, Option.bind_eq_some_iff] at h
        obtain ⟨s', hs, h⟩ := h
        cases h
        exact .struct hs
    | array e n ih =>
        simp only [mapStructs, Option.bind_eq_bind, Option.bind_eq_some_iff] at h
        obtain ⟨e', he, h⟩ := h
        cases h
        exact .array n (ih he)
    | const t ih =>
        simp only [mapStructs, Option.bind_eq_bind, Option.bind_eq_some_iff] at h
        obtain ⟨e', he, h⟩ := h
        cases h
        exact .const (ih he)
    | ref t ih =>
        simp only [mapStructs, Option.bind_eq_bind, Option.bind_eq_some_iff] at h
        obtain ⟨e', he, h⟩ := h
        cases h
        exact .ref (ih he)
    | prim p =>
        cases h
        exact .prim p
    | vector p n =>
        cases h
        exact .vector p n
    | string =>
        cases h
        exact .string
  · intro h
    induction h with
    | struct hs => simp [mapStructs, hs]
    | array _ _ ih | const _ ih | ref _ ih => simp [mapStructs, ih]
    | _ => rfl

namespace Replaced

/-! ## Selection -/

section

variable (h : Replaced f t t')

include h

/-- The structs of a type are replaced under a constant as they are in the type. -/
theorem unconst : Replaced f t.unconst t'.unconst := by
  cases h with
  | const h => exact h
  | _ => simpa [Ty.unconst] using by constructor <;> assumption

/-- The structs of a type are replaced under a reference as they are in the type. -/
theorem unreferenced : Replaced f t.unreferenced t'.unreferenced := by
  cases h with
  | ref h => exact h
  | _ => simpa [Ty.unreferenced] using by constructor <;> assumption

/-- The structs of a type are replaced under its qualifiers as they are in the type. -/
theorem unqualified : Replaced f t.unqualified t'.unqualified := h.unreferenced.unconst

/-- What kind of type it is does not depend on which structs it mentions. -/
theorem isReference : t'.isReference = t.isReference := by cases h <;> rfl

theorem isConst : t'.isConst = t.isConst := by
  have hu := h.unreferenced
  unfold Ty.isConst
  generalize t.unreferenced = a, t'.unreferenced = b at hu
  cases hu <;> rfl

theorem isVoid : t'.isVoid = t.isVoid := by
  have hu := h.unqualified
  unfold Ty.isVoid
  generalize t.unqualified = a, t'.unqualified = b at hu
  cases hu <;> rfl

/-- A type that stands for a single primitive value mentions no structs. -/
theorem scalarPrimitive? : t'.scalarPrimitive? = t.scalarPrimitive? := by
  have hu := h.unqualified
  unfold Ty.scalarPrimitive?
  generalize t.unqualified = a, t'.unqualified = b at hu
  cases hu <;> rfl

/-- The elements of a type have its structs replaced as well. -/
theorem elementType : Replaced f (Program.elementType t) (Program.elementType t') := by
  have hu := h.unqualified.unqualified
  unfold Program.elementType Ty.elementType?
  generalize t.unqualified.unqualified = a, t'.unqualified.unqualified = b at hu
  cases hu with
  | array n h => exact h
  | vector p n => exact .prim p
  | _ => exact .prim .void

/-- The slices of a type have its structs replaced as well. -/
theorem sliceType (start stop : Nat) :
    Replaced f (Program.sliceType t start stop) (Program.sliceType t' start stop) := by
  have hu := h.unqualified
  unfold Program.sliceType
  generalize t.unqualified = a, t'.unqualified = b at hu
  cases hu with
  | array n h => exact .array _ h
  | vector p n => exact .vector p _
  | _ => exact .prim .void

end

/-! ## Casts -/

section

variable (hf : ∀ ⦃s s' r⦄, f s = some r → f s' = some r → s = s')

include hf

/-- If different structs have different names, so have types. -/
theorem inj (h : Replaced f t t') (hu : Replaced f u t') : t = u := by
  induction h generalizing u with
  | struct hs =>
      cases hu with
      | struct hs' => rw [hf hs hs']
  | array n _ ih =>
      cases hu with
      | array _ hu => rw [ih hu]
  | const _ ih =>
      cases hu with
      | const hu => rw [ih hu]
  | ref _ ih =>
      cases hu with
      | ref hu => rw [ih hu]
  | _ =>
      cases hu
      rfl

omit hf in
/-- A type has one name at most. -/
theorem unique (h : Replaced f t t') (hu : Replaced f t u') : t' = u' := by
  rw [← mapStructs_eq_some_iff] at h hu
  exact Option.some.inj (h.symm.trans hu)

/-- Types are equal exactly if their names are. -/
theorem eq_iff (h : Replaced f t t') (hu : Replaced f u u') : t' = u' ↔ t = u := by
  constructor
  · rintro rfl
    exact h.inj hf hu
  · rintro rfl
    exact h.unique hu

/-- Casts between types that are no arrays are of the same kind for the names. -/
theorem castFlat (h : Replaced f t t') (hu : Replaced f u u') :
    Ty.castFlat t' u' = Ty.castFlat t u := by
  simp only [Ty.castFlat, h.eq_iff hf hu, h.isVoid, hu.isVoid, h.scalarPrimitive?,
    hu.scalarPrimitive?]
  cases h <;> cases hu <;> rfl

/-- Casts to arrays are of the same kind if casts to their elements are. -/
theorem castArray {cast cast' : Ty → CastKind} {e e' : Ty} (n : Option Nat)
    (hcast : ∀ {x x'}, Replaced f x x' → cast' x' = cast x) (he : Replaced f e e')
    (hu : Replaced f u u') : Ty.castArray cast' e' n u' = Ty.castArray cast e n u := by
  have harray := (Replaced.array n he).eq_iff hf hu
  simp only [Ty.castArray, harray, hu.isVoid, hcast hu]
  cases hu with
  | array m hx => simp only [hx.eq_iff hf he, hcast hx]
  | _ => rfl

/-- What fits where does not change. -/
theorem castKind (h : Replaced f t t') (hu : Replaced f u u') :
    Ty.castKind t' u' = Ty.castKind t u := by
  induction h generalizing u u' with
  | ref h _ => simp only [Ty.castKind, h.unconst.eq_iff hf hu.unqualified, h.isConst, hu.isConst]
  | array n h ih => exact castArray hf n ih h hu.unqualified
  | const h ih =>
      cases h with
      | array n h => exact ih hu
      | _ => simpa [Ty.castKind] using castFlat hf (by constructor <;> assumption) hu.unqualified
  | _ => exact castFlat hf (by constructor <;> assumption) hu.unqualified

/-- What can be cast without loss can be so under the new names, by recursion on the type. -/
theorem canSilentlyCast (h : Replaced f t t') (hu : Replaced f u u') :
    Ty.canSilentlyCast t' u' = Ty.canSilentlyCast t u := by
  rw [Ty.canSilentlyCast, Ty.canSilentlyCast, h.castKind hf hu]

end

end Replaced

/-! ## Structs of a value that fits -/

/-- A constant type mentions what the type does. -/
theorem mentions_unconst (t : Ty) : t.unconst.mentions = t.mentions := by cases t <;> rfl

/-- A reference mentions what the type does. -/
theorem mentions_unreferenced (t : Ty) : t.unreferenced.mentions = t.mentions := by cases t <;> rfl

/-- Qualifiers mention nothing. -/
theorem mentions_unqualified (t : Ty) : t.unqualified.mentions = t.mentions := by
  rw [unqualified, mentions_unconst, mentions_unreferenced]

/-- A type that stands for a single primitive value mentions nothing. -/
theorem mentions_of_scalarPrimitive? {p : Prim} (h : t.scalarPrimitive? = some p) :
    t.mentions = [] := by
  rw [← mentions_unqualified]
  unfold scalarPrimitive? at h
  split at h
  · next heq => rw [heq]; rfl
  · next heq => rw [heq]; rfl
  · cases h

/-- What is cast without loss mentions no structs that the target does not mention. -/
theorem mentions_of_castFlat (h : (castFlat t u).isSilent) : u.mentions ⊆ t.mentions := by
  unfold castFlat at h
  split at h
  · next heq => rw [heq]; exact List.Subset.refl _
  · split at h
    · cases h
    · split at h
      · next hs => rw [mentions_of_scalarPrimitive? hs]; exact List.nil_subset _
      · split at h
        · exact List.nil_subset _
        · cases hs : u.scalarPrimitive? with
          | none => simp [hs, CastKind.isSilent] at h
          | some p => rw [mentions_of_scalarPrimitive? hs]; exact List.nil_subset _
        · cases h

/-- What is cast to an array without loss mentions no structs that its elements do not mention. -/
theorem mentions_of_castArray {cast : Ty → CastKind} {e : Ty} {n : Option Nat}
    (hcast : ∀ {x}, (cast x).isSilent → x.mentions ⊆ e.mentions)
    (h : (castArray cast e n u).isSilent) : u.mentions ⊆ e.mentions := by
  have hfill : (if n.isSome && (cast u).isSilent then CastKind.valueToArray
      else .notPossible).isSilent → u.mentions ⊆ e.mentions := by
    intro h
    split at h
    · next hn => exact hcast (Bool.and_eq_true_iff.mp hn).2
    · cases h
  unfold castArray at h
  split at h
  · next heq => rw [← heq]; exact List.Subset.refl _
  · split at h
    · cases h
    · dsimp only at h
      split at h
      · next e' m _ _ =>
        split at h
        · next hsame =>
          have heq : e' = e := by simpa using (Bool.and_eq_true_iff.mp hsame).2
          rw [heq]
          exact List.Subset.refl _
        · split at h
          · refine hcast (x := e') ?_
            cases hk : cast e' <;> simp_all [CastKind.isSilent]
          · exact hfill h
      · exact hfill h

/-- A value fits only where all the structs of its type are expected. -/
theorem mentions_of_isSilent (h : (castKind t u).isSilent) : u.mentions ⊆ t.mentions := by
  rw [← mentions_unqualified u]
  induction t generalizing u with
  | ref t _ =>
      unfold castKind at h
      split at h
      · next hsame =>
        have heq : t.unconst = u.unqualified := by simpa using (Bool.and_eq_true_iff.mp hsame).1
        rw [← heq, mentions_unconst]
        exact List.Subset.refl _
      · cases h
  | array e n ih =>
      change _ ⊆ e.mentions
      refine mentions_of_castArray (fun {x} hx => ?_) h
      rw [← mentions_unqualified x]
      exact ih hx
  | const t ih =>
      cases t with
      | array e n => exact ih h
      | _ =>
          rw [← mentions_unconst (.const _)]
          exact mentions_of_castFlat h
  | _ => exact mentions_of_castFlat h

end Ty

end SignalGraph

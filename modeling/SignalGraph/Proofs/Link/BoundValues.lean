import SignalGraph.Proofs.Link.Specialisation
import SignalGraph.Proofs.Ty.Replacing

/-!
# SignalGraph.Proofs.Link.BoundValues

The types of the values that parameters are bound to.  An argument is accepted by its type but
converted by what it is, and one that is not converted is kept as it is.  So a parameter of a
primitive type may come to hold a value of another type: a zero, for one, is only ever converted to
an integer.

* `Value.Becomes` says which values become values of a primitive type;
* an accepted value is converted to the type exactly if it becomes one (`castTo?_getD_ty_iff`);
* so it is for every parameter that a run binds (`specialiseInstances_bound_iff`).
-/

namespace SignalGraph

/-- No number silently becomes one of the primitives that values are not converted to. -/
theorem Prim.ne_of_isSilent {k s : Prim} (h : (k.castKind s).isSilent)
    (hnumber : s.isInteger ∨ s.isFloat) : k ≠ .void ∧ k ≠ .fixed := by
  cases k with
  | void | fixed => cases s <;> first | exact absurd hnumber (by decide) | cases h
  | _ => exact ⟨nofun, nofun⟩

namespace Ty

/-- Primitives are cast as flat types the way they are cast at all. -/
theorem castFlat_prim (k s : Prim) :
    (castFlat (.prim k) (.prim s)).isSilent = (k.castKind s).isSilent := by
  cases k <;> cases s <;> rfl

/-- A type that is a primitive but for its qualifiers takes no primitives that it does not. -/
theorem isSilent_castKind {t : Ty} {k s : Prim} (ht : t.unqualified = .prim k)
    (h : t.canSilentlyCast (.prim s)) : (k.castKind s).isSilent := by
  unfold canSilentlyCast at h
  cases t with
  | ref target =>
      -- a reference binds to its own type only
      by_cases hks : k = s
      · simp [Prim.castKind, hks, CastKind.isSilent]
      · have hother : target.unconst ≠ prim s := fun heq =>
          hks (Ty.prim.inj (ht.symm.trans heq))
        rw [castKind, show (prim s).unqualified = prim s from rfl, if_neg (by simp [hother])] at h
        cases h
  | const inner =>
      obtain rfl : inner = .prim k := ht
      rw [← castFlat_prim]
      exact h
  | prim p =>
      cases ht
      rw [← castFlat_prim]
      exact h
  | _ => cases ht

end Ty

namespace Value

variable {v : Value} {t : Ty} {k : Prim}

/-- Whether a value becomes one of a primitive type where it is bound to a parameter of that type.
Numbers do; a zero of an integer type becomes an integer; anything else has to be of the type. -/
def Becomes (v : Value) (k : Prim) : Prop :=
  match v with
  | int32 _ | int64 _ | float32 _ | float64 _ => True
  | zero t => t = .prim k ∨ t.isInteger ∧ k.isInteger
  | v => v.ty = .prim k

instance : (v : Value) → (k : Prim) → Decidable (v.Becomes k)
  | int32 _, _ | int64 _, _ | float32 _, _ | float64 _, _ => isTrue trivial
  | zero t, k => inferInstanceAs (Decidable (t = .prim k ∨ t.isInteger ∧ k.isInteger))
  | void, k => inferInstanceAs (Decidable (Ty.void = .prim k))
  | bool _, k => inferInstanceAs (Decidable (Ty.bool = .prim k))
  | string _, k => inferInstanceAs (Decidable (Ty.string = .prim k))
  | aggregate t _, k => inferInstanceAs (Decidable (t = .prim k))

/-- A number can be cast to every primitive but `void` and `fixed`. -/
theorem castTo?_of_number {b : UInt64} (ht : t.unqualified = .prim k) (hb : v.asFloat64? = some b)
    (hvoid : k ≠ .void) (hfixed : k ≠ .fixed) : ∃ w, v.castTo? t = some w ∧ w.ty = .prim k := by
  unfold castTo?
  by_cases hty : v.ty = t.unqualified
  · exact ⟨v, if_pos hty, hty.trans ht⟩
  · have hinteger : ∃ n, (v.asInt64? <|> v.asFloat64?.map truncated) = some n := by
      cases hn : v.asInt64? with
      | none => exact ⟨truncated b, by simp [hb]⟩
      | some n => exact ⟨n, rfl⟩
    obtain ⟨n, hn⟩ := hinteger
    rw [if_neg hty, ht]
    cases k with
    | void => exact absurd rfl hvoid
    | fixed => exact absurd rfl hfixed
    | int32 => exact ⟨int32 n.toInt32, Option.map_eq_some_iff.mpr ⟨n, hn, rfl⟩, rfl⟩
    | int64 => exact ⟨int64 n, Option.map_eq_some_iff.mpr ⟨n, hn, rfl⟩, rfl⟩
    | bool => exact ⟨bool _, Option.map_eq_some_iff.mpr ⟨b, hb, rfl⟩, rfl⟩
    | float32 => exact ⟨float32 _, Option.map_eq_some_iff.mpr ⟨b, hb, rfl⟩, rfl⟩
    | float64 => exact ⟨float64 b, Option.map_eq_some_iff.mpr ⟨b, hb, rfl⟩, rfl⟩

/-- A zero becomes a value of the type, or stays as it is. -/
theorem castTo?_getD_of_zero {s : Ty} (ht : t.unqualified = .prim k) :
    (((zero s).castTo? t).getD (zero s)).ty = .prim k ↔ (zero s).Becomes k := by
  by_cases hinteger : s.isInteger
  · have hint : (zero s).asInt64? = some 0 := if_pos hinteger
    by_cases hty : s = .prim k
    · have hstays : (zero s).castTo? t = some (zero s) := if_pos (hty.trans ht.symm)
      rw [hstays]
      exact iff_of_true hty (.inl hty)
    · unfold castTo?
      rw [if_neg (ht ▸ hty), hint, ht]
      cases k with
      | int32 | int64 => exact iff_of_true rfl (.inr ⟨hinteger, rfl⟩)
      | _ =>
          -- only integers are read off a zero
          exact iff_of_false hty fun h => h.elim hty fun h => Bool.false_ne_true h.2
  · have hint : (zero s).asInt64? = none := if_neg hinteger
    rw [Link.castTo?_getD_of_not_number hint rfl]
    exact ⟨.inl, fun h => h.resolve_right fun h => hinteger h.1⟩

/-- A number that may be bound becomes a value of the type. -/
theorem castTo?_getD_of_number {b : UInt64} {s : Prim} (ht : t.unqualified = .prim k)
    (hb : v.asFloat64? = some b) (hs : v.ty = .prim s) (hnumber : s.isInteger ∨ s.isFloat)
    (hcast : t.canSilentlyCast v.ty) : ((v.castTo? t).getD v).ty = .prim k := by
  rw [hs] at hcast
  obtain ⟨hvoid, hfixed⟩ := Prim.ne_of_isSilent (Ty.isSilent_castKind ht hcast) hnumber
  obtain ⟨w, hw, hty⟩ := castTo?_of_number ht hb hvoid hfixed
  rw [hw]
  exact hty

/-- What an accepted value is converted to has the type asked for exactly if the value becomes
it. -/
theorem castTo?_getD_ty_iff (ht : t.unqualified = .prim k) (hcast : t.canSilentlyCast v.ty) :
    ((v.castTo? t).getD v).ty = .prim k ↔ v.Becomes k := by
  cases v with
  | int32 | int64 =>
      exact iff_of_true (castTo?_getD_of_number ht rfl rfl (.inl rfl) hcast) trivial
  | float32 | float64 =>
      exact iff_of_true (castTo?_getD_of_number ht rfl rfl (.inr rfl) hcast) trivial
  | zero s => exact castTo?_getD_of_zero ht
  | _ =>
      rw [Link.castTo?_getD_of_not_number rfl rfl]
      exact Iff.rfl

example : (int32 7).Becomes .float64 ∧ ¬ (zero .int32).Becomes .float64 ∧
    (zero (.const .int32)).Becomes .int32 ∧ ¬ (zero (.const .bool)).Becomes .bool := by decide

end Value

/-! ## Bound parameters -/

theorem exists_getElem?_of_forall₂ {α β : Type} {φ : α → β → Prop} {l : List α} {l' : List β}
    (h : List.Forall₂ φ l l') {i : Nat} {a : α} (ha : l[i]? = some a) :
    ∃ b, l'[i]? = some b ∧ φ a b := by
  obtain ⟨hlt, rfl⟩ := List.getElem?_eq_some_iff.mp ha
  have hlt' : i < l'.length := h.length_eq ▸ hlt
  exact ⟨l'[i], List.getElem?_eq_getElem hlt', h.get hlt hlt'⟩

namespace Link

open Program

variable {p q s : Program} {made : Specialisations} {settings : Settings}

/-- A parameter that has become the constant `v` of a copy.  If its type is a primitive, the
constant holds a value of that type exactly if the argument becomes one. -/
structure BoundParameter (s : Program) (param : VariableId) (arg : ConstantId) (q : Program)
    (v : VariableId) : Prop where
  role : (q.variableAt v).role = .constant
  holds : ∃ c value, (q.variableAt v).initial = some c ∧ q.constants.get? c = some value ∧
    ∀ k, (s.variableAt param).ty.unqualified = .prim k →
      (q.variableAt v).ty.unqualified = .prim k ∧
        (value.ty = .prim k ↔ (s.constantAt arg).Becomes k)

/-- A node that is accepted in `s`, and the copy it gets: there is an argument for each parameter of
its module, and the parameters have become the leading state of the copy. -/
structure BoundParameters (s : Program) (n : Node) (source : ModuleId) (q : Program)
    (copy : ModuleId) : Prop where
  found : s.findModule? n.source = some source
  length : (s.moduleAt source).parameters.length = n.args.length
  bound : ∀ (i : Nat) param arg, (s.moduleAt source).parameters[i]? = some param →
    n.args[i]? = some arg →
      ∃ v, (q.moduleAt copy).state[i]? = some v ∧ BoundParameter s param arg q v

/-- Types that differ in their structs only are the same primitives. -/
theorem unqualified_eq_prim_of_replaced {f : StructId → Option StructId} {t t' : Ty} {k : Prim}
    (h : Ty.Replaced f t t') (ht : t.unqualified = .prim k) : t'.unqualified = .prim k := by
  have hu := h.unqualified
  rw [ht] at hu
  generalize t'.unqualified = u at hu
  cases hu
  rfl

/-- A copy has its parameters bound to the values of the nodes that it was made for. -/
theorem Specialised.boundParameters (h : Specialised p made q) (hp : p.WellFormed)
    (hs : p.KeptUpToNodes s) {x : SpecialisationKey × ModuleId} (hx : x ∈ made) {n : Node}
    (hkey : specialisationKey s n = .ok x.1) : BoundParameters s n x.1.source q x.2 := by
  obtain ⟨hfound, hlength, hvalues⟩ := specialisationKey_eq_ok_iff.mp hkey
  obtain ⟨r, hcopy, -⟩ := h.copies x hx
  refine ⟨hfound, hlength, fun i param arg hparam harg => ?_⟩
  -- the value of the key at this place is the argument, converted
  have hzip : ((s.moduleAt x.1.source).parameters.zip n.args)[i]? = some (param, arg) :=
    List.getElem?_zip_eq_some.mpr ⟨hparam, harg⟩
  obtain ⟨value, hvalue, hbind⟩ := exists_getElem?_of_forall₂ hvalues hzip
  obtain ⟨hcast, rfl⟩ := boundValue_eq_ok_iff.mp hbind
  -- and the variable at this place in the copy holds that value
  rw [hs.moduleAt_parameters (h.sources x hx)] at hparam
  obtain ⟨_, hvalue', v, w, c, hv, hrename, hc, hnow⟩ :=
    exists_getElem?_of_forall₂ hcopy.parameters hparam
  cases hvalue.symm.trans hvalue'
  have hstate : ((p.moduleAt x.1.source).parameters ++ (p.moduleAt x.1.source).state).mapM
      r.onVariable = some (q.moduleAt x.2).state :=
    (Module.rename_eq_some_iff.mp hcopy.module).state
  obtain ⟨v', hv', hname⟩ := exists_getElem?_of_forall₂ (mapM_eq_some_iff_forall₂.mp hstate)
    (List.getElem?_append_left (List.getElem?_eq_some_iff.mp hparam).1 ▸ hparam)
  cases hv.symm.trans hname
  have hdeclared : param ∈ p.declared := List.mem_append_left _ (List.mem_flatMap.mpr
    ⟨x.1.source, h.sources x hx, List.mem_append_left _ (List.mem_of_getElem? hparam)⟩)
  have hvariable := hs.variableAt (hp.declaredInRange _ hdeclared)
  have hat : q.variableAt v = { w with role := .constant, initial := some c } :=
    Arena.get_eq_of_get? hnow
  refine ⟨v, hv', by rw [hat], c, _, by rw [hat], hc, fun k hk => ⟨?_, ?_⟩⟩
  · rw [hat]
    rw [hvariable] at hk
    exact unqualified_eq_prim_of_replaced
      (Ty.mapStructs_eq_some_iff.mp (Variable.rename_eq_some_iff.mp hrename).ty) hk
  · exact Value.castTo?_getD_ty_iff hk hcast

/-- Whatever the program had become when a node was accepted, the parameters of its module are
constants of the copy that the node gets.  A parameter of a primitive type holds a value of just
that type exactly if the argument for it becomes one; other arguments, such as the zero of an
integer type for a float, are accepted and keep a type of their own. -/
theorem specialiseInstances_bound_iff (hp : p.WellFormed)
    (h : (specialiseInstances settings).apply p = (.ok (), q)) :
    ∃ made, Specialised p made q ∧ ∀ x ∈ made, ∀ s n, p.KeptUpToNodes s →
      specialisationKey s n = .ok x.1 → BoundParameters s n x.1.source q x.2 := by
  obtain ⟨made, hmade⟩ := specialised_of_apply hp h
  exact ⟨made, hmade, fun x hx s n hs hkey => hmade.boundParameters hp hs hx hkey⟩

/-- A node that gives one value to both parameters of its processor. -/
def tunedNode : Node := { name := "osc", source := "Osc", args := [⟨0⟩, ⟨0⟩] }

/-- A graph that gives a value to a float and to an integer parameter. -/
def tuned (value : Value) : Program where
  modules := ⟨#[
    { kind := .processor, name := "Osc", parameters := [⟨0⟩, ⟨1⟩] },
    { kind := .graph, name := "Top", nodes := ⟨#[tunedNode]⟩ }]⟩
  vars := ⟨#[
    { name := "gain", ty := .float64, role := .constant },
    { name := "steps", ty := .int64, role := .constant }]⟩
  constants := ⟨⟨#[value]⟩⟩

/-- The values that the state of the third module holds, with the types of its variables. -/
def heldValues (q : Program) : List (Ty × Option Value) :=
  (q.moduleAt ⟨2⟩).state.map fun v =>
    ((q.variableAt v).ty, (q.variableAt v).initial.map q.constantAt)

/-- The zero of an integer type is accepted for a float, which then holds an integer. -/
theorem specialiseInstances_tuned_zero :
    ((specialiseInstances {}).apply (tuned (.zero .int32))).1 = .ok () ∧
    heldValues ((specialiseInstances {}).apply (tuned (.zero .int32))).2 =
      [(.float64, some (.zero .int32)), (.int64, some (.int64 0))] := by
  decide +kernel

theorem tuned_wellFormed : (tuned (.int32 7)).WellFormed where
  modules m hm := by
    obtain rfl | hm := List.mem_cons.mp hm
    · rfl
    · cases List.mem_singleton.mp hm
      rfl
  nodes := by decide
  structs := by decide
  functions _ hf := by cases hf
  vars := by decide
  structOwner := by decide
  functionOwner := by decide
  structsListed := by decide
  functionsListed := by decide
  declaredOnce := by decide
  declaredInRange := by decide

/-- A number becomes both. -/
theorem specialiseInstances_bound_tuned : ∃ q source copy,
    (specialiseInstances {}).apply (tuned (.int32 7)) = (.ok (), q) ∧
    BoundParameters (tuned (.int32 7)) tunedNode source q copy ∧
    heldValues q = [(.float64, some (.float64 0x401c000000000000)), (.int64, some (.int64 7))] := by
  have hok : ((specialiseInstances {}).apply (tuned (.int32 7))).1 = .ok () := by decide +kernel
  have hheld : heldValues ((specialiseInstances {}).apply (tuned (.int32 7))).2 =
      [(.float64, some (.float64 0x401c000000000000)), (.int64, some (.int64 7))] := by
    decide +kernel
  cases hrun : (specialiseInstances {}).apply (tuned (.int32 7)) with
  | mk outcome q =>
      rw [hrun] at hok hheld
      subst hok
      obtain ⟨made, hmade, hbound⟩ := specialiseInstances_bound_iff tuned_wellFormed hrun
      obtain ⟨n', -, hn⟩ := (hmade.nodes ⟨1⟩ (by decide)).get? (show
        ((tuned (.int32 7)).moduleAt ⟨1⟩).nodes.get? ⟨0⟩ = some tunedNode from rfl)
      rw [Rerouted, if_pos ⟨rfl, by decide⟩] at hn
      obtain ⟨key, copy, hkey, hmem, -⟩ := hn
      exact ⟨q, key.source, copy, rfl, hbound _ hmem _ _ (.refl _) hkey, hheld⟩

end Link

end SignalGraph

import SignalGraph.Program.Basic
import SignalGraph.Program.Rename
import SignalGraph.Proofs.Handle
import Mathlib.Data.List.Forall2

/-!
# SignalGraph.Proofs.Program.Renaming

Renaming the handles of a program.  A `Renaming` is partial: `x.rename r = some y` says that all
handles in `x` have new names, and that `y` is `x` with these.  So the identity on some handles
accepts what mentions no others.

Two facts are shown for every kind of syntax:

* a renaming that keeps all handles changes nothing (`rename_keeps`);
* if `x` becomes `x'` and also `y`, and `y` becomes `y'`, then `x'` becomes `y'`, provided that the
  handles do (`rename_commutes`).
-/

namespace SignalGraph

/-! ## Partial maps -/

/-- A partial map over a list succeeds exactly if it succeeds at every element. -/
theorem mapM_eq_some_iff_forall₂ {α β : Type} {f : α → Option β} {l : List α} {l' : List β} :
    l.mapM f = some l' ↔ List.Forall₂ (fun a b => f a = some b) l l' := by
  induction l generalizing l' with
  | nil => cases l' <;> simp
  | cons a l ih =>
      cases l' with
      | nil => simp [Option.bind_eq_some_iff]
      | cons b l' => simp [Option.bind_eq_some_iff, List.forall₂_cons, ih]

/-- If a partial map over a list succeeds, it is defined at every element. -/
theorem exists_of_mapM {α β : Type} {f : α → Option β} {l : List α} {l' : List β}
    (h : l.mapM f = some l') {a : α} (ha : a ∈ l) : ∃ b, f a = some b := by
  rw [mapM_eq_some_iff_forall₂] at h
  induction h with
  | nil => cases ha
  | @cons x y l l' hxy h ih =>
      cases ha with
      | head => exact ⟨y, hxy⟩
      | tail _ ha => exact ih ha

/-- The image of an element is in the image of the list. -/
theorem mem_of_mapM {α β : Type} {f : α → Option β} {l : List α} {l' : List β}
    (h : l.mapM f = some l') {a : α} {b : β} (ha : a ∈ l) (hab : f a = some b) : b ∈ l' := by
  rw [mapM_eq_some_iff_forall₂] at h
  induction h with
  | nil => cases ha
  | @cons x y l l' hxy h ih =>
      cases ha with
      | head =>
          cases hab.symm.trans hxy
          exact List.mem_cons_self
      | tail _ ha => exact List.mem_cons_of_mem _ (ih ha)

/-- What is in the image of a list is the image of an element. -/
theorem exists_mem_of_mapM {α β : Type} {f : α → Option β} {l : List α} {l' : List β}
    (h : l.mapM f = some l') {b : β} (hb : b ∈ l') : ∃ a ∈ l, f a = some b := by
  rw [mapM_eq_some_iff_forall₂] at h
  induction h with
  | nil => cases hb
  | @cons x y l l' hxy h ih =>
      cases hb with
      | head => exact ⟨x, List.mem_cons_self, hxy⟩
      | tail _ hb =>
          obtain ⟨a, ha, hab⟩ := ih hb
          exact ⟨a, List.mem_cons_of_mem _ ha, hab⟩

/-- A list that is mapped to itself is fixed element by element. -/
theorem eq_some_of_mapM_self {α : Type} {f : α → Option α} {l : List α} (h : l.mapM f = some l)
    {a : α} (ha : a ∈ l) : f a = some a := by
  have hall := List.forall₂_same.mp (mapM_eq_some_iff_forall₂.mp h)
  exact hall a ha

/-- Maps of two lists are put together. -/
theorem mapM_append_some {α β : Type} {f : α → Option β} {l₁ l₂ : List α} {r₁ r₂ : List β}
    (h₁ : l₁.mapM f = some r₁) (h₂ : l₂.mapM f = some r₂) :
    (l₁ ++ l₂).mapM f = some (r₁ ++ r₂) := by
  simp [h₁, h₂]

/-- The map of a list is continued by one element. -/
theorem mapM_concat {α β : Type} {f : α → Option β} {l : List α} {l' : List β} {a : α} {b : β}
    (h : l.mapM f = some l') (hab : f a = some b) : (l ++ [a]).mapM f = some (l' ++ [b]) := by
  simp [h, hab]

/-- A partial map that keeps everything. -/
def Keeps {α : Type} (f : α → Option α) : Prop := ∀ x, f x = some x

/-- The maps `a` and `d` on two sides of a square fit `b` and `c` on the other two. -/
def Commutes {α : Type} (a b c d : α → Option α) : Prop :=
  ∀ ⦃x x' y y'⦄, a x = some x' → b x = some y → c y = some y' → d x' = some y'

section

variable {α : Type} {a b c d f : α → Option α}

/-- A map that changes nothing changes no list. -/
theorem Keeps.mapM (h : Keeps f) : Keeps (α := List α) (·.mapM f) := by
  intro l
  induction l with
  | nil => rfl
  | cons x l ih => simp [h x, ih]

/-- A map that changes nothing changes no optional value. -/
theorem Keeps.optionMapM (h : Keeps f) : Keeps (α := Option α) (·.mapM f) := by
  intro o
  cases o with
  | none => rfl
  | some x => simp [h x]

/-- Squares of partial maps are squares over lists, element by element. -/
theorem Commutes.mapM (h : Commutes a b c d) :
    Commutes (α := List α) (·.mapM a) (·.mapM b) (·.mapM c) (·.mapM d) := by
  intro l l₁ l₂ l₃ h₁ h₂ h₃
  induction l generalizing l₁ l₂ l₃ with
  | nil =>
      simp at h₁ h₂
      subst h₁ h₂
      exact h₃
  | cons x l ih =>
      simp [Option.bind_eq_some_iff] at h₁ h₂
      obtain ⟨x₁, hx₁, l₁, hl₁, rfl⟩ := h₁
      obtain ⟨x₂, hx₂, l₂, hl₂, rfl⟩ := h₂
      simp [Option.bind_eq_some_iff] at h₃
      obtain ⟨x₃, hx₃, l₃, hl₃, rfl⟩ := h₃
      simp [h hx₁ hx₂ hx₃, ih hl₁ hl₂ hl₃]

/-- Squares of partial maps are squares over optional values. -/
theorem Commutes.optionMapM (h : Commutes a b c d) :
    Commutes (α := Option α) (·.mapM a) (·.mapM b) (·.mapM c) (·.mapM d) := by
  intro o o₁ o₂ o₃ h₁ h₂ h₃
  cases o with
  | none =>
      simp at h₁ h₂
      subst h₁ h₂
      exact h₃
  | some x =>
      simp at h₁ h₂
      obtain ⟨x₁, hx₁, rfl⟩ := h₁
      obtain ⟨x₂, hx₂, rfl⟩ := h₂
      simp at h₃
      obtain ⟨x₃, hx₃, rfl⟩ := h₃
      simp [h hx₁ hx₂ hx₃]

end

/-! ## Types, values and annotations -/

/-- A type keeps its structs if their names are kept. -/
theorem Ty.mapStructs_keeps {f : StructId → Option StructId} (h : Keeps f) :
    Keeps (Ty.mapStructs f) := by
  intro t
  induction t with
  | struct id => simp [mapStructs, h id]
  | array e n ih => simp [mapStructs, ih]
  | const t ih => simp [mapStructs, ih]
  | ref t ih => simp [mapStructs, ih]
  | _ => simp [mapStructs]

/-- Renaming the structs of a type by the sides of a square makes a square. -/
theorem Ty.mapStructs_commutes {a b c d : StructId → Option StructId} (h : Commutes a b c d) :
    Commutes (Ty.mapStructs a) (Ty.mapStructs b) (Ty.mapStructs c) (Ty.mapStructs d) := by
  intro t t₁ t₂ t₃ h₁ h₂ h₃
  induction t generalizing t₁ t₂ t₃ with
  | struct id =>
      simp [mapStructs, Option.bind_eq_some_iff] at h₁ h₂
      obtain ⟨s₁, hs₁, rfl⟩ := h₁
      obtain ⟨s₂, hs₂, rfl⟩ := h₂
      simp [mapStructs, Option.bind_eq_some_iff] at h₃
      obtain ⟨s₃, hs₃, rfl⟩ := h₃
      simp [mapStructs, h hs₁ hs₂ hs₃]
  | array _ _ ih | const _ ih | ref _ ih =>
      simp [mapStructs, Option.bind_eq_some_iff] at h₁ h₂
      obtain ⟨s₁, hs₁, rfl⟩ := h₁
      obtain ⟨s₂, hs₂, rfl⟩ := h₂
      simp [mapStructs, Option.bind_eq_some_iff] at h₃
      obtain ⟨s₃, hs₃, rfl⟩ := h₃
      simp [mapStructs, ih hs₁ hs₂ hs₃]
  | _ =>
      simp [mapStructs] at h₁ h₂
      subst h₁ h₂
      simpa [mapStructs] using h₃

/-- A type is replaced wherever its structs are. -/
theorem Ty.mapStructs_defined {a b : StructId → Option StructId}
    (h : ∀ s s', a s = some s' → ∃ s', b s = some s') :
    ∀ t t' : Ty, t.mapStructs a = some t' → ∃ t', t.mapStructs b = some t' := by
  intro t t' ht
  induction t generalizing t' with
  | struct id =>
      simp [mapStructs, Option.bind_eq_some_iff] at ht
      obtain ⟨s, hs, rfl⟩ := ht
      obtain ⟨s, hs⟩ := h id s hs
      exact ⟨.struct s, by simp [mapStructs, hs]⟩
  | array e n ih =>
      simp [mapStructs, Option.bind_eq_some_iff] at ht
      obtain ⟨t', ht', rfl⟩ := ht
      obtain ⟨new, hnew⟩ := ih t' ht'
      exact ⟨.array new n, by simp [mapStructs, hnew]⟩
  | const t ih =>
      simp [mapStructs, Option.bind_eq_some_iff] at ht
      obtain ⟨t', ht', rfl⟩ := ht
      obtain ⟨new, hnew⟩ := ih t' ht'
      exact ⟨.const new, by simp [mapStructs, hnew]⟩
  | ref t ih =>
      simp [mapStructs, Option.bind_eq_some_iff] at ht
      obtain ⟨t', ht', rfl⟩ := ht
      obtain ⟨new, hnew⟩ := ih t' ht'
      exact ⟨.ref new, by simp [mapStructs, hnew]⟩
  | _ => exact ⟨_, rfl⟩

mutual

/-- A value whose types and texts are kept is kept, by recursion on the value. -/
theorem Value.mapParts_keeps {onTy : Ty → Option Ty} {onText : TextId → Option TextId}
    (hty : Keeps onTy) (htext : Keeps onText) : ∀ v : Value, v.mapParts onTy onText = some v
  | .string id => by simp [mapParts, htext id]
  | .zero t => by simp [mapParts, hty t]
  | .aggregate t vs => by simp [mapParts, hty t, mapPartsList_keeps hty htext vs]
  | .void | .bool _ | .int32 _ | .int64 _ | .float32 _ | .float64 _ => by simp [mapParts]

/-- The elements of an aggregate are kept with it. -/
theorem Value.mapPartsList_keeps {onTy : Ty → Option Ty} {onText : TextId → Option TextId}
    (hty : Keeps onTy) (htext : Keeps onText) :
    ∀ vs : List Value, mapPartsList onTy onText vs = some vs
  | [] => by simp [mapPartsList]
  | v :: vs => by
      simp [mapPartsList, mapParts_keeps hty htext v, mapPartsList_keeps hty htext vs]

end

section

variable {a b c d : Ty → Option Ty} {a' b' c' d' : TextId → Option TextId}

mutual

/-- Squares of maps of types and of texts make a square of maps of values, by recursion on the
value. -/
theorem Value.mapParts_commutes (hty : Commutes a b c d) (htext : Commutes a' b' c' d') :
    Commutes (mapParts a a') (mapParts b b') (mapParts c c') (mapParts d d')
  | .string id, v₁, v₂, v₃, h₁, h₂, h₃ => by
      simp [mapParts, Option.bind_eq_some_iff] at h₁ h₂
      obtain ⟨s₁, hs₁, rfl⟩ := h₁
      obtain ⟨s₂, hs₂, rfl⟩ := h₂
      simp [mapParts, Option.bind_eq_some_iff] at h₃
      obtain ⟨s₃, hs₃, rfl⟩ := h₃
      simp [mapParts, htext hs₁ hs₂ hs₃]
  | .zero t, v₁, v₂, v₃, h₁, h₂, h₃ => by
      simp [mapParts, Option.bind_eq_some_iff] at h₁ h₂
      obtain ⟨s₁, hs₁, rfl⟩ := h₁
      obtain ⟨s₂, hs₂, rfl⟩ := h₂
      simp [mapParts, Option.bind_eq_some_iff] at h₃
      obtain ⟨s₃, hs₃, rfl⟩ := h₃
      simp [mapParts, hty hs₁ hs₂ hs₃]
  | .aggregate t vs, v₁, v₂, v₃, h₁, h₂, h₃ => by
      simp [mapParts, Option.bind_eq_some_iff] at h₁ h₂
      obtain ⟨s₁, hs₁, l₁, hl₁, rfl⟩ := h₁
      obtain ⟨s₂, hs₂, l₂, hl₂, rfl⟩ := h₂
      simp [mapParts, Option.bind_eq_some_iff] at h₃
      obtain ⟨s₃, hs₃, l₃, hl₃, rfl⟩ := h₃
      simp [mapParts, hty hs₁ hs₂ hs₃, mapPartsList_commutes hty htext vs hl₁ hl₂ hl₃]
  | .void, v₁, v₂, v₃, h₁, h₂, h₃ | .bool _, v₁, v₂, v₃, h₁, h₂, h₃
  | .int32 _, v₁, v₂, v₃, h₁, h₂, h₃ | .int64 _, v₁, v₂, v₃, h₁, h₂, h₃
  | .float32 _, v₁, v₂, v₃, h₁, h₂, h₃ | .float64 _, v₁, v₂, v₃, h₁, h₂, h₃ => by
      simp [mapParts] at h₁ h₂
      subst h₁ h₂
      simpa [mapParts] using h₃

/-- The square for the elements of an aggregate. -/
theorem Value.mapPartsList_commutes (hty : Commutes a b c d) (htext : Commutes a' b' c' d') :
    ∀ vs : List Value, ∀ {l₁ l₂ l₃}, mapPartsList a a' vs = some l₁ →
      mapPartsList b b' vs = some l₂ → mapPartsList c c' l₂ = some l₃ →
      mapPartsList d d' l₁ = some l₃
  | [], l₁, l₂, l₃, h₁, h₂, h₃ => by
      simp [mapPartsList] at h₁ h₂
      subst h₁ h₂
      simpa [mapPartsList] using h₃
  | v :: vs, l₁, l₂, l₃, h₁, h₂, h₃ => by
      simp [mapPartsList, Option.bind_eq_some_iff] at h₁ h₂
      obtain ⟨s₁, hs₁, l₁, hl₁, rfl⟩ := h₁
      obtain ⟨s₂, hs₂, l₂, hl₂, rfl⟩ := h₂
      simp [mapPartsList, Option.bind_eq_some_iff] at h₃
      obtain ⟨s₃, hs₃, l₃, hl₃, rfl⟩ := h₃
      simp [mapPartsList, mapParts_commutes hty htext hs₁ hs₂ hs₃,
        mapPartsList_commutes hty htext vs hl₁ hl₂ hl₃]

end

end

section

variable {a b : Ty → Option Ty} {onText : TextId → Option TextId}

mutual

/-- A value is replaced wherever its types are. -/
theorem Value.mapParts_defined (h : ∀ t t', a t = some t' → ∃ t', b t = some t') :
    ∀ v v' : Value, v.mapParts a onText = some v' → ∃ v', v.mapParts b onText = some v'
  | .string id, v', hv => ⟨v', hv⟩
  | .zero t, v', hv => by
      simp [mapParts, Option.bind_eq_some_iff] at hv
      obtain ⟨t', ht, rfl⟩ := hv
      obtain ⟨t', ht⟩ := h t t' ht
      exact ⟨.zero t', by simp [mapParts, ht]⟩
  | .aggregate t vs, v', hv => by
      simp [mapParts, Option.bind_eq_some_iff] at hv
      obtain ⟨t', ht, vs', hvs, rfl⟩ := hv
      obtain ⟨t', ht⟩ := h t t' ht
      obtain ⟨vs', hvs⟩ := mapPartsList_defined h vs vs' hvs
      exact ⟨.aggregate t' vs', by simp [mapParts, ht, hvs]⟩
  | .void, v', hv | .bool _, v', hv | .int32 _, v', hv | .int64 _, v', hv
  | .float32 _, v', hv | .float64 _, v', hv => ⟨v', hv⟩

/-- Where one map of types is defined and another one is too, elements that the first one maps the
second one maps as well. -/
theorem Value.mapPartsList_defined (h : ∀ t t', a t = some t' → ∃ t', b t = some t') :
    ∀ vs vs' : List Value, mapPartsList a onText vs = some vs' →
      ∃ vs', mapPartsList b onText vs = some vs'
  | [], vs', hvs => ⟨vs', hvs⟩
  | v :: vs, vs', hvs => by
      simp [mapPartsList, Option.bind_eq_some_iff] at hvs
      obtain ⟨v', hv, vs', hvs, rfl⟩ := hvs
      obtain ⟨v', hv⟩ := mapParts_defined h v v' hv
      obtain ⟨vs', hvs⟩ := mapPartsList_defined h vs vs' hvs
      exact ⟨v' :: vs', by simp [mapPartsList, hv, hvs]⟩

end

end

namespace Annotations

/-- A property with its constant replaced. -/
def mapProperty (f : ConstantId → Option ConstantId) (x : String × ConstantId) :
    Option (String × ConstantId) := (f x.2).map (x.1, ·)

/-- Annotations are renamed property by property. -/
theorem mapConstants_eq_some_iff {f : ConstantId → Option ConstantId} {a a' : Annotations} :
    a.mapConstants f = some a' ↔ a.properties.mapM (mapProperty f) = some a'.properties := by
  have hproperty : (fun x : String × ConstantId => (f x.2).bind fun c => some (x.1, c)) =
      mapProperty f := by
    funext x
    unfold mapProperty
    cases f x.2 <;> rfl
  cases a'
  simp [mapConstants, hproperty, Option.bind_eq_some_iff]

/-- Annotations whose constants are kept are kept. -/
theorem mapConstants_keeps {f : ConstantId → Option ConstantId} (h : Keeps f) :
    Keeps (mapConstants f) := by
  intro a
  have hpairs : Keeps (mapProperty f) := by
    intro x
    simp [mapProperty, h x.2]
  exact mapConstants_eq_some_iff.mpr (hpairs.mapM a.properties)

/-- Squares of maps of constants make squares of maps of annotations. -/
theorem mapConstants_commutes {a b c d : ConstantId → Option ConstantId} (h : Commutes a b c d) :
    Commutes (mapConstants a) (mapConstants b) (mapConstants c) (mapConstants d) := by
  have hpairs : Commutes (mapProperty a) (mapProperty b) (mapProperty c) (mapProperty d) := by
    rintro ⟨key, k⟩ x₁ x₂ x₃ h₁ h₂ h₃
    simp [mapProperty] at h₁ h₂
    obtain ⟨s₁, hs₁, rfl⟩ := h₁
    obtain ⟨s₂, hs₂, rfl⟩ := h₂
    simp [mapProperty] at h₃
    obtain ⟨s₃, hs₃, rfl⟩ := h₃
    simp [mapProperty, h hs₁ hs₂ hs₃]
  intro x x₁ x₂ x₃ h₁ h₂ h₃
  rw [mapConstants_eq_some_iff] at h₁ h₂ h₃ ⊢
  exact hpairs.mapM h₁ h₂ h₃

end Annotations

/-! ## Expressions and statements -/

/-- What happens to each kind of handle; `none` stands for a handle that must not occur. -/
structure Renaming where
  onModule : ModuleId → Option ModuleId
  onStruct : StructId → Option StructId
  onFunction : FunctionId → Option FunctionId
  onVariable : VariableId → Option VariableId
  onConstant : ConstantId → Option ConstantId
  onBlock : BlockId → Option BlockId

namespace Renaming

def onTy (r : Renaming) (t : Ty) : Option Ty := t.mapStructs r.onStruct

/-- The renaming of what occurs in function bodies. -/
def renamer (r : Renaming) : Renamer Option where
  onVariable := r.onVariable
  onConstant := r.onConstant
  onFunction := r.onFunction
  onTy := r.onTy
  onBlock := r.onBlock

/-- All handles are kept. -/
def identity : Renaming := ⟨some, some, some, some, some, some⟩

/-- Every kind of handle fits. -/
structure Square (a b c d : Renaming) : Prop where
  onModule : Commutes a.onModule b.onModule c.onModule d.onModule
  onStruct : Commutes a.onStruct b.onStruct c.onStruct d.onStruct
  onFunction : Commutes a.onFunction b.onFunction c.onFunction d.onFunction
  onVariable : Commutes a.onVariable b.onVariable c.onVariable d.onVariable
  onConstant : Commutes a.onConstant b.onConstant c.onConstant d.onConstant
  onBlock : Commutes a.onBlock b.onBlock c.onBlock d.onBlock

/-- A square of renamings is one on types. -/
theorem Square.onTy {a b c d : Renaming} (h : Square a b c d) :
    Commutes a.onTy b.onTy c.onTy d.onTy := Ty.mapStructs_commutes h.onStruct

section

variable (t : Ty)

/-- Expressions see of a renaming what it does to variables, constants, functions, types and
blocks. -/
@[simp] theorem onModule_identity : identity.onModule = some := rfl
@[simp] theorem onStruct_identity : identity.onStruct = some := rfl
@[simp] theorem onFunction_identity : identity.onFunction = some := rfl
@[simp] theorem onVariable_identity : identity.onVariable = some := rfl
@[simp] theorem onConstant_identity : identity.onConstant = some := rfl
@[simp] theorem onTy_identity : identity.onTy t = some t := Ty.mapStructs_keeps (fun _ => rfl) t
@[simp] theorem renamer_onVariable (r : Renaming) : r.renamer.onVariable = r.onVariable := rfl
@[simp] theorem renamer_onConstant (r : Renaming) : r.renamer.onConstant = r.onConstant := rfl
@[simp] theorem renamer_onFunction (r : Renaming) : r.renamer.onFunction = r.onFunction := rfl
@[simp] theorem renamer_onTy (r : Renaming) : r.renamer.onTy = r.onTy := rfl
@[simp] theorem renamer_onBlock (r : Renaming) : r.renamer.onBlock = r.onBlock := rfl
@[simp] theorem onBlock_identity : identity.onBlock = some := rfl

end

end Renaming

open Renaming

mutual

/-- The renaming that changes nothing leaves every expression as it is. -/
theorem Expr.rename_keeps : ∀ e : Expr, e.rename identity.renamer = some e
  | .var _ | .const _ | .property _ => by simp [Expr.rename]
  | .element e _ | .member e _ | .slice e _ _ | .unary _ e | .cast _ e => by
      simp [Expr.rename, Expr.rename_keeps e]
  | .elementAt l r | .binary _ l r => by
      simp [Expr.rename, Expr.rename_keeps l, Expr.rename_keeps r]
  | .pureCall f args => by simp [Expr.rename, Expr.renameList_keeps args]

/-- The arguments of a call are left as they are. -/
theorem Expr.renameList_keeps : ∀ es : List Expr, Expr.renameList identity.renamer es = some es
  | [] => by simp [Expr.renameList]
  | e :: es => by simp [Expr.renameList, Expr.rename_keeps e, Expr.renameList_keeps es]

end

/-- An optional expression is left as it is. -/
theorem Expr.renameOption_keeps (e : Option Expr) :
    Expr.renameOption identity.renamer e = some e := by
  cases e with
  | none => rfl
  | some e => simp [Expr.renameOption, Expr.rename_keeps]

/-- The renaming that changes nothing leaves every statement as it is. -/
theorem Statement.rename_keeps : Keeps (Statement.rename identity.renamer) := by
  intro s
  cases s <;>
    simp [Statement.rename, Expr.rename_keeps, Expr.renameOption_keeps, Expr.renameList_keeps]

/-- The renaming that changes nothing leaves every terminator as it is. -/
theorem Terminator.rename_keeps (t : Terminator) : t.rename identity.renamer = some t := by
  cases t <;> simp [Terminator.rename, Expr.rename_keeps, Expr.renameList_keeps]

section

variable {a b c d : Renaming}

mutual

/-- A square of renamings is one on expressions.  All other squares of code rest on this one, which
goes by recursion on the expression. -/
theorem Expr.rename_commutes (h : Square a b c d) : Commutes (Expr.rename a.renamer)
    (Expr.rename b.renamer) (Expr.rename c.renamer) (Expr.rename d.renamer)
  | .var v, v₁, v₂, v₃, h₁, h₂, h₃ => by
      simp [Expr.rename, Option.bind_eq_some_iff] at h₁ h₂
      obtain ⟨s₁, hs₁, rfl⟩ := h₁
      obtain ⟨s₂, hs₂, rfl⟩ := h₂
      simp [Expr.rename, Option.bind_eq_some_iff] at h₃
      obtain ⟨s₃, hs₃, rfl⟩ := h₃
      simp [Expr.rename, h.onVariable hs₁ hs₂ hs₃]
  | .const v, v₁, v₂, v₃, h₁, h₂, h₃ => by
      simp [Expr.rename, Option.bind_eq_some_iff] at h₁ h₂
      obtain ⟨s₁, hs₁, rfl⟩ := h₁
      obtain ⟨s₂, hs₂, rfl⟩ := h₂
      simp [Expr.rename, Option.bind_eq_some_iff] at h₃
      obtain ⟨s₃, hs₃, rfl⟩ := h₃
      simp [Expr.rename, h.onConstant hs₁ hs₂ hs₃]
  | .element e _, v₁, v₂, v₃, h₁, h₂, h₃ | .member e _, v₁, v₂, v₃, h₁, h₂, h₃
  | .slice e _ _, v₁, v₂, v₃, h₁, h₂, h₃ | .unary _ e, v₁, v₂, v₃, h₁, h₂, h₃ => by
      simp [Expr.rename, Option.bind_eq_some_iff] at h₁ h₂
      obtain ⟨s₁, hs₁, rfl⟩ := h₁
      obtain ⟨s₂, hs₂, rfl⟩ := h₂
      simp [Expr.rename, Option.bind_eq_some_iff] at h₃
      obtain ⟨s₃, hs₃, rfl⟩ := h₃
      simp [Expr.rename, Expr.rename_commutes h hs₁ hs₂ hs₃]
  | .elementAt e i, v₁, v₂, v₃, h₁, h₂, h₃ | .binary _ e i, v₁, v₂, v₃, h₁, h₂, h₃ => by
      simp [Expr.rename, Option.bind_eq_some_iff] at h₁ h₂
      obtain ⟨s₁, hs₁, t₁, ht₁, rfl⟩ := h₁
      obtain ⟨s₂, hs₂, t₂, ht₂, rfl⟩ := h₂
      simp [Expr.rename, Option.bind_eq_some_iff] at h₃
      obtain ⟨s₃, hs₃, t₃, ht₃, rfl⟩ := h₃
      simp [Expr.rename, Expr.rename_commutes h hs₁ hs₂ hs₃, Expr.rename_commutes h ht₁ ht₂ ht₃]
  | .cast t e, v₁, v₂, v₃, h₁, h₂, h₃ => by
      simp [Expr.rename, Option.bind_eq_some_iff] at h₁ h₂
      obtain ⟨s₁, hs₁, t₁, ht₁, rfl⟩ := h₁
      obtain ⟨s₂, hs₂, t₂, ht₂, rfl⟩ := h₂
      simp [Expr.rename, Option.bind_eq_some_iff] at h₃
      obtain ⟨s₃, hs₃, t₃, ht₃, rfl⟩ := h₃
      simp [Expr.rename, h.onTy hs₁ hs₂ hs₃, Expr.rename_commutes h ht₁ ht₂ ht₃]
  | .pureCall f args, v₁, v₂, v₃, h₁, h₂, h₃ => by
      simp [Expr.rename, Option.bind_eq_some_iff] at h₁ h₂
      obtain ⟨s₁, hs₁, t₁, ht₁, rfl⟩ := h₁
      obtain ⟨s₂, hs₂, t₂, ht₂, rfl⟩ := h₂
      simp [Expr.rename, Option.bind_eq_some_iff] at h₃
      obtain ⟨s₃, hs₃, t₃, ht₃, rfl⟩ := h₃
      simp [Expr.rename, h.onFunction hs₁ hs₂ hs₃, Expr.renameList_commutes h args ht₁ ht₂ ht₃]
  | .property _, v₁, v₂, v₃, h₁, h₂, h₃ => by
      simp [Expr.rename] at h₁ h₂
      subst h₁ h₂
      simpa [Expr.rename] using h₃

/-- The square for the arguments of a call. -/
theorem Expr.renameList_commutes (h : Square a b c d) : ∀ es : List Expr, ∀ {l₁ l₂ l₃},
    Expr.renameList a.renamer es = some l₁ → Expr.renameList b.renamer es = some l₂ →
      Expr.renameList c.renamer l₂ = some l₃ → Expr.renameList d.renamer l₁ = some l₃
  | [], l₁, l₂, l₃, h₁, h₂, h₃ => by
      simp [Expr.renameList] at h₁ h₂
      subst h₁ h₂
      simpa [Expr.renameList] using h₃
  | e :: es, l₁, l₂, l₃, h₁, h₂, h₃ => by
      simp [Expr.renameList, Option.bind_eq_some_iff] at h₁ h₂
      obtain ⟨s₁, hs₁, l₁, hl₁, rfl⟩ := h₁
      obtain ⟨s₂, hs₂, l₂, hl₂, rfl⟩ := h₂
      simp [Expr.renameList, Option.bind_eq_some_iff] at h₃
      obtain ⟨s₃, hs₃, l₃, hl₃, rfl⟩ := h₃
      simp [Expr.renameList, Expr.rename_commutes h hs₁ hs₂ hs₃,
        Expr.renameList_commutes h es hl₁ hl₂ hl₃]

end

/-- The square for an optional expression. -/
theorem Expr.renameOption_commutes (h : Square a b c d) : Commutes (Expr.renameOption a.renamer)
    (Expr.renameOption b.renamer) (Expr.renameOption c.renamer) (Expr.renameOption d.renamer) := by
  intro e e₁ e₂ e₃ h₁ h₂ h₃
  cases e with
  | none =>
      simp [Expr.renameOption] at h₁ h₂
      subst h₁ h₂
      simpa [Expr.renameOption] using h₃
  | some e =>
      simp [Expr.renameOption, Option.bind_eq_some_iff] at h₁ h₂
      obtain ⟨s₁, hs₁, rfl⟩ := h₁
      obtain ⟨s₂, hs₂, rfl⟩ := h₂
      simp [Expr.renameOption, Option.bind_eq_some_iff] at h₃
      obtain ⟨s₃, hs₃, rfl⟩ := h₃
      simp [Expr.renameOption, Expr.rename_commutes h hs₁ hs₂ hs₃]

/-- A square of renamings is one on statements. -/
theorem Statement.rename_commutes (h : Square a b c d) : Commutes (Statement.rename a.renamer)
    (Statement.rename b.renamer) (Statement.rename c.renamer) (Statement.rename d.renamer) := by
  intro e e₁ e₂ e₃ h₁ h₂ h₃
  cases e with
  | assign t v =>
      simp [Statement.rename, Option.bind_eq_some_iff] at h₁ h₂
      obtain ⟨s₁, hs₁, t₁, ht₁, rfl⟩ := h₁
      obtain ⟨s₂, hs₂, t₂, ht₂, rfl⟩ := h₂
      simp [Statement.rename, Option.bind_eq_some_iff] at h₃
      obtain ⟨s₃, hs₃, t₃, ht₃, rfl⟩ := h₃
      simp [Statement.rename, Expr.rename_commutes h hs₁ hs₂ hs₃,
        Expr.rename_commutes h ht₁ ht₂ ht₃]
  | call t f args =>
      simp [Statement.rename, Option.bind_eq_some_iff] at h₁ h₂
      obtain ⟨s₁, hs₁, f₁, hf₁, t₁, ht₁, rfl⟩ := h₁
      obtain ⟨s₂, hs₂, f₂, hf₂, t₂, ht₂, rfl⟩ := h₂
      simp [Statement.rename, Option.bind_eq_some_iff] at h₃
      obtain ⟨s₃, hs₃, f₃, hf₃, t₃, ht₃, rfl⟩ := h₃
      simp [Statement.rename, Expr.renameOption_commutes h hs₁ hs₂ hs₃,
        h.onFunction hf₁ hf₂ hf₃,        Expr.renameList_commutes h args ht₁ ht₂ ht₃]
  | read t endpoint =>
      simp [Statement.rename, Option.bind_eq_some_iff] at h₁ h₂
      obtain ⟨s₁, hs₁, rfl⟩ := h₁
      obtain ⟨s₂, hs₂, rfl⟩ := h₂
      simp [Statement.rename, Option.bind_eq_some_iff] at h₃
      obtain ⟨s₃, hs₃, rfl⟩ := h₃
      simp [Statement.rename, Expr.rename_commutes h hs₁ hs₂ hs₃]
  | write endpoint e v =>
      simp [Statement.rename, Option.bind_eq_some_iff] at h₁ h₂
      obtain ⟨s₁, hs₁, t₁, ht₁, rfl⟩ := h₁
      obtain ⟨s₂, hs₂, t₂, ht₂, rfl⟩ := h₂
      simp [Statement.rename, Option.bind_eq_some_iff] at h₃
      obtain ⟨s₃, hs₃, t₃, ht₃, rfl⟩ := h₃
      simp [Statement.rename, Expr.renameOption_commutes h hs₁ hs₂ hs₃,
        Expr.rename_commutes h ht₁ ht₂ ht₃]
  | advance =>
      simp [Statement.rename] at h₁ h₂
      subst h₁ h₂
      simpa [Statement.rename] using h₃

/-- A square of renamings is one on terminators. -/
theorem Terminator.rename_commutes (h : Square a b c d) : Commutes (Terminator.rename a.renamer)
    (Terminator.rename b.renamer) (Terminator.rename c.renamer) (Terminator.rename d.renamer) := by
  intro e e₁ e₂ e₃ h₁ h₂ h₃
  cases e with
  | branch t args =>
      simp [Terminator.rename, Option.bind_eq_some_iff] at h₁ h₂
      obtain ⟨s₁, hs₁, t₁, ht₁, rfl⟩ := h₁
      obtain ⟨s₂, hs₂, t₂, ht₂, rfl⟩ := h₂
      simp [Terminator.rename, Option.bind_eq_some_iff] at h₃
      obtain ⟨s₃, hs₃, t₃, ht₃, rfl⟩ := h₃
      simp [Terminator.rename, h.onBlock hs₁ hs₂ hs₃, Expr.renameList_commutes h args ht₁ ht₂ ht₃]
  | branchIf e t ts f fs =>
      simp [Terminator.rename, Option.bind_eq_some_iff] at h₁ h₂
      obtain ⟨e₁, he₁, s₁, hs₁, t₁, ht₁, u₁, hu₁, v₁, hv₁, rfl⟩ := h₁
      obtain ⟨e₂, he₂, s₂, hs₂, t₂, ht₂, u₂, hu₂, v₂, hv₂, rfl⟩ := h₂
      simp [Terminator.rename, Option.bind_eq_some_iff] at h₃
      obtain ⟨e₃, he₃, s₃, hs₃, t₃, ht₃, u₃, hu₃, v₃, hv₃, rfl⟩ := h₃
      simp [Terminator.rename, Expr.rename_commutes h he₁ he₂ he₃,
        h.onBlock hs₁ hs₂ hs₃, h.onBlock ht₁ ht₂ ht₃,
        Expr.renameList_commutes h ts hu₁ hu₂ hu₃, Expr.renameList_commutes h fs hv₁ hv₂ hv₃]
  | returnVoid =>
      simp [Terminator.rename] at h₁ h₂
      subst h₁ h₂
      simpa [Terminator.rename] using h₃
  | returnValue v =>
      simp [Terminator.rename, Option.bind_eq_some_iff] at h₁ h₂
      obtain ⟨s₁, hs₁, rfl⟩ := h₁
      obtain ⟨s₂, hs₂, rfl⟩ := h₂
      simp [Terminator.rename, Option.bind_eq_some_iff] at h₃
      obtain ⟨s₃, hs₃, rfl⟩ := h₃
      simp [Terminator.rename, Expr.rename_commutes h hs₁ hs₂ hs₃]

end

/-! ## Declarations -/

/-- Renames every entry of a table. -/
def Arena.rename {e : Entity} {α : Type} (f : α → Option α) (a : Arena e α) : Option (Arena e α) :=
  (a.toList.mapM f).map fun l => ⟨l.toArray⟩

def Variable.rename (r : Renaming) (v : Variable) : Option Variable := do
  let ty ← r.onTy v.ty
  let initial ← v.initial.mapM r.onConstant
  let annotations ← v.annotations.mapConstants r.onConstant
  return { v with ty, initial, annotations }

def Member.rename (r : Renaming) (m : Member) : Option Member := do
  return { m with ty := ← r.onTy m.ty }

def Structure.rename (r : Renaming) (s : Structure) : Option Structure := do
  let owner ← r.onModule s.owner
  let members ← s.members.mapM (Member.rename r)
  return { s with owner, members }

def EndpointDetails.rename (r : Renaming) (d : EndpointDetails) : Option EndpointDetails := do
  return { d with types := ← d.types.mapM r.onTy }

def Endpoint.rename (r : Renaming) (e : Endpoint) : Option Endpoint := do
  let details ← e.details.mapM (EndpointDetails.rename r)
  let annotations ← e.annotations.mapConstants r.onConstant
  return { e with details, annotations }

def Node.rename (r : Renaming) (n : Node) : Option Node := do
  return { n with args := ← n.args.mapM r.onConstant }

def Block.rename (r : Renaming) (b : Block) : Option Block := do
  let parameters ← b.parameters.mapM r.onVariable
  let statements ← b.statements.mapM (Statement.rename r.renamer)
  let terminator ← b.terminator.rename r.renamer
  return { b with parameters, statements, terminator }

def Function.rename (r : Renaming) (f : Function) : Option Function := do
  let owner ← r.onModule f.owner
  let returns ← r.onTy f.returns
  let parameters ← f.parameters.mapM r.onVariable
  let locals ← f.locals.mapM r.onVariable
  let blocks ← f.blocks.rename (Block.rename r)
  let annotations ← f.annotations.mapConstants r.onConstant
  return { f with owner, returns, parameters, locals, blocks, annotations }

/-- Renames all that a module holds; its own name stays. -/
def Module.rename (r : Renaming) (m : Module) : Option Module := do
  let annotations ← m.annotations.mapConstants r.onConstant
  let endpoints ← m.endpoints.rename (Endpoint.rename r)
  let nodes ← m.nodes.rename (Node.rename r)
  let structs ← m.structs.mapM r.onStruct
  let functions ← m.functions.mapM r.onFunction
  let state ← m.state.mapM r.onVariable
  let parameters ← m.parameters.mapM r.onVariable
  return { m with annotations, endpoints, nodes, structs, functions, state, parameters }

/-! What renaming does, part by part -/

/-- The second struct is the first one renamed. -/
structure Structure.Renames (r : Renaming) (s s' : Structure) : Prop where
  name : s'.name = s.name
  owner : r.onModule s.owner = some s'.owner
  members : s.members.mapM (Member.rename r) = some s'.members
  span : s'.span = s.span

/-- The second variable is the first one renamed. -/
structure Variable.Renames (r : Renaming) (v v' : Variable) : Prop where
  name : v'.name = v.name
  ty : r.onTy v.ty = some v'.ty
  role : v'.role = v.role
  initial : v.initial.mapM r.onConstant = some v'.initial
  annotations : v.annotations.mapConstants r.onConstant = some v'.annotations
  span : v'.span = v.span

/-- The second endpoint is the first one renamed. -/
structure Endpoint.Renames (r : Renaming) (e e' : Endpoint) : Prop where
  name : e'.name = e.name
  direction : e'.direction = e.direction
  details : e.details.mapM (EndpointDetails.rename r) = some e'.details
  annotations : e.annotations.mapConstants r.onConstant = some e'.annotations
  path : e'.path = e.path
  exposed : e'.exposed = e.exposed
  span : e'.span = e.span

/-- The second node is the first one renamed. -/
structure Node.Renames (r : Renaming) (n n' : Node) : Prop where
  name : n'.name = n.name
  source : n'.source = n.source
  args : n.args.mapM r.onConstant = some n'.args
  arraySize : n'.arraySize = n.arraySize
  clock : n'.clock = n.clock
  span : n'.span = n.span

/-- The second block is the first one renamed. -/
structure Block.Renames (r : Renaming) (b b' : Block) : Prop where
  name : b'.name = b.name
  parameters : b.parameters.mapM r.onVariable = some b'.parameters
  statements : b.statements.mapM (Statement.rename r.renamer) = some b'.statements
  terminator : b.terminator.rename r.renamer = some b'.terminator
  span : b'.span = b.span

/-- The second function is the first one renamed. -/
structure Function.Renames (r : Renaming) (f f' : Function) : Prop where
  name : f'.name = f.name
  owner : r.onModule f.owner = some f'.owner
  kind : f'.kind = f.kind
  returns : r.onTy f.returns = some f'.returns
  parameters : f.parameters.mapM r.onVariable = some f'.parameters
  locals : f.locals.mapM r.onVariable = some f'.locals
  blocks : f.blocks.rename (Block.rename r) = some f'.blocks
  annotations : f.annotations.mapConstants r.onConstant = some f'.annotations
  span : f'.span = f.span

/-- The second module is the first one renamed. -/
structure Module.Renames (r : Renaming) (m m' : Module) : Prop where
  kind : m'.kind = m.kind
  name : m'.name = m.name
  annotations : m.annotations.mapConstants r.onConstant = some m'.annotations
  endpoints : m.endpoints.rename (Endpoint.rename r) = some m'.endpoints
  nodes : m.nodes.rename (Node.rename r) = some m'.nodes
  connections : m'.connections = m.connections
  structs : m.structs.mapM r.onStruct = some m'.structs
  functions : m.functions.mapM r.onFunction = some m'.functions
  state : m.state.mapM r.onVariable = some m'.state
  parameters : m.parameters.mapM r.onVariable = some m'.parameters
  span : m'.span = m.span

section

variable {r : Renaming}

/-- Renaming a struct succeeds with exactly the structs whose parts are the renamed parts. -/
theorem Structure.rename_eq_some_iff {s s' : Structure} :
    s.rename r = some s' ↔ s.Renames r s' := by
  simp only [Structure.rename, Option.bind_eq_bind, Option.bind_eq_some_iff, Option.pure_def,
    Option.some.injEq]
  constructor
  · rintro ⟨owner, howner, members, hmembers, rfl⟩
    exact ⟨rfl, howner, hmembers, rfl⟩
  · rintro ⟨hname, howner, hmembers, hspan⟩
    exact ⟨_, howner, _, hmembers, by cases s'; simp_all⟩

/-- Renaming a variable succeeds with exactly the variables whose parts are the renamed parts. -/
theorem Variable.rename_eq_some_iff {v v' : Variable} :
    v.rename r = some v' ↔ v.Renames r v' := by
  simp only [Variable.rename, Option.bind_eq_bind, Option.bind_eq_some_iff, Option.pure_def,
    Option.some.injEq]
  constructor
  · rintro ⟨ty, hty, initial, hinitial, annotations, hannotations, rfl⟩
    exact ⟨rfl, hty, rfl, hinitial, hannotations, rfl⟩
  · rintro ⟨hname, hty, hrole, hinitial, hannotations, hspan⟩
    exact ⟨_, hty, _, hinitial, _, hannotations, by cases v'; simp_all⟩

/-- Renaming an endpoint succeeds with exactly the endpoints whose parts are the renamed parts. -/
theorem Endpoint.rename_eq_some_iff {e e' : Endpoint} :
    e.rename r = some e' ↔ e.Renames r e' := by
  simp only [Endpoint.rename, Option.bind_eq_bind, Option.bind_eq_some_iff, Option.pure_def,
    Option.some.injEq]
  constructor
  · rintro ⟨details, hdetails, annotations, hannotations, rfl⟩
    exact ⟨rfl, rfl, hdetails, hannotations, rfl, rfl, rfl⟩
  · rintro ⟨hname, hdirection, hdetails, hannotations, hpath, hexposed, hspan⟩
    exact ⟨_, hdetails, _, hannotations, by cases e'; simp_all⟩

/-- Renaming a node succeeds with exactly the nodes whose parts are the renamed parts. -/
theorem Node.rename_eq_some_iff {n n' : Node} : n.rename r = some n' ↔ n.Renames r n' := by
  simp only [Node.rename, Option.bind_eq_bind, Option.bind_eq_some_iff, Option.pure_def,
    Option.some.injEq]
  constructor
  · rintro ⟨args, hargs, rfl⟩
    exact ⟨rfl, rfl, hargs, rfl, rfl, rfl⟩
  · rintro ⟨hname, hsource, hargs, hsize, hclock, hspan⟩
    exact ⟨_, hargs, by cases n'; simp_all⟩

/-- Renaming a block succeeds with exactly the blocks whose parts are the renamed parts. -/
theorem Block.rename_eq_some_iff {b b' : Block} : b.rename r = some b' ↔ b.Renames r b' := by
  simp only [Block.rename, Option.bind_eq_bind, Option.bind_eq_some_iff, Option.pure_def,
    Option.some.injEq]
  constructor
  · rintro ⟨parameters, hparameters, statements, hstatements, terminator, hterminator, rfl⟩
    exact ⟨rfl, hparameters, hstatements, hterminator, rfl⟩
  · rintro ⟨hname, hparameters, hstatements, hterminator, hspan⟩
    exact ⟨_, hparameters, _, hstatements, _, hterminator, by cases b'; simp_all⟩

/-- Renaming a function succeeds with exactly the functions whose parts are the renamed parts. -/
theorem Function.rename_eq_some_iff {f f' : Function} :
    f.rename r = some f' ↔ f.Renames r f' := by
  simp only [Function.rename, Option.bind_eq_bind, Option.bind_eq_some_iff, Option.pure_def,
    Option.some.injEq]
  constructor
  · rintro ⟨_, howner, _, hreturns, _, hparameters, _, hlocals, _, hblocks, _, hannotations, rfl⟩
    exact ⟨rfl, howner, rfl, hreturns, hparameters, hlocals, hblocks, hannotations, rfl⟩
  · rintro ⟨hname, howner, hkind, hreturns, hparameters, hlocals, hblocks, hannotations, hspan⟩
    exact ⟨_, howner, _, hreturns, _, hparameters, _, hlocals, _, hblocks, _, hannotations,
      by cases f'; simp_all⟩

/-- Renaming a module succeeds with exactly the modules whose parts are the renamed parts. -/
theorem Module.rename_eq_some_iff {m m' : Module} : m.rename r = some m' ↔ m.Renames r m' := by
  simp only [Module.rename, Option.bind_eq_bind, Option.bind_eq_some_iff, Option.pure_def,
    Option.some.injEq]
  constructor
  · rintro ⟨_, hannotations, _, hendpoints, _, hnodes, _, hstructs, _, hfunctions, _, hstate, _,
      hparameters, rfl⟩
    exact ⟨rfl, rfl, hannotations, hendpoints, hnodes, rfl, hstructs, hfunctions, hstate,
      hparameters, rfl⟩
  · rintro ⟨hkind, hname, hannotations, hendpoints, hnodes, hconnections, hstructs, hfunctions,
      hstate, hparameters, hspan⟩
    exact ⟨_, hannotations, _, hendpoints, _, hnodes, _, hstructs, _, hfunctions, _, hstate, _,
      hparameters, by cases m'; simp_all⟩

end

/-- A table is renamed like its list. -/
theorem Arena.rename_eq_some_iff {e : Entity} {α : Type} {f : α → Option α} {a b : Arena e α} :
    a.rename f = some b ↔ a.toList.mapM f = some b.toList := by
  obtain ⟨items⟩ := b
  simp only [Arena.rename, Arena.toList, Option.map_eq_some_iff, Arena.mk.injEq]
  constructor
  · rintro ⟨l, hl, rfl⟩
    exact hl
  · exact fun h => ⟨items.toList, h, rfl⟩

/-- A map that changes no entry changes no table. -/
theorem Keeps.arena {e : Entity} {α : Type} {f : α → Option α} (h : Keeps f) (a : Arena e α) :
    a.rename f = some a := Arena.rename_eq_some_iff.mpr (h.mapM a.toList)

/-- Squares of maps of entries make squares of maps of tables. -/
theorem Commutes.arena {e : Entity} {α : Type} {a b c d : α → Option α} (h : Commutes a b c d) :
    Commutes (α := Arena e α) (Arena.rename a) (Arena.rename b) (Arena.rename c)
      (Arena.rename d) := by
  intro x x₁ x₂ x₃ h₁ h₂ h₃
  rw [Arena.rename_eq_some_iff] at h₁ h₂ h₃ ⊢
  exact h.mapM h₁ h₂ h₃

/-- A renamed table has as many entries. -/
theorem Arena.size_of_rename {e : Entity} {α : Type} {f : α → Option α} {a b : Arena e α}
    (h : a.rename f = some b) : b.size = a.size := by
  have hall := mapM_eq_some_iff_forall₂.mp (Arena.rename_eq_some_iff.mp h)
  rw [← Arena.length_toList, ← Arena.length_toList, hall.length_eq]

/-- A handle leads to the renamed entry in the renamed table. -/
theorem Arena.get?_of_rename {e : Entity} {α : Type} {f : α → Option α} {a b : Arena e α}
    (h : a.rename f = some b) (k : Handle e) : (a.get? k).mapM f = some (b.get? k) := by
  have hall := mapM_eq_some_iff_forall₂.mp (Arena.rename_eq_some_iff.mp h)
  rw [Arena.get?_eq_getElem?, Arena.get?_eq_getElem?]
  have hget : ∀ (l l' : List α) (i : Nat), List.Forall₂ (fun x y => f x = some y) l l' →
      l[i]?.mapM f = some l'[i]? := by
    intro l l' i hall
    induction hall generalizing i with
    | nil => rfl
    | cons hxy _ ih =>
        cases i with
        | zero => simp [hxy]
        | succ i => simpa using ih i
  exact hget _ _ k.idx hall

/-- The total lookup goes to the renamed entry as well, since the default is renamed to itself. -/
theorem Arena.get_of_rename {e : Entity} {α : Type} [Inhabited α] {f : α → Option α}
    (hdefault : f default = some default) {a b : Arena e α} (h : a.rename f = some b)
    (k : Handle e) : f (a.get k) = some (b.get k) := by
  have hget := Arena.get?_of_rename h k
  unfold Arena.get
  cases ha : a.get? k with
  | none =>
      rw [ha] at hget
      have hb : b.get? k = none := by simpa using hget.symm
      simpa [hb] using hdefault
  | some x =>
      rw [ha] at hget
      obtain ⟨y, hy, hb⟩ : ∃ y, f x = some y ∧ some y = b.get? k := by simpa using hget
      simp [← hb, hy]

/-- Renaming is continued when an entry and its renaming are added. -/
theorem Arena.rename_push {e : Entity} {α : Type} {f : α → Option α} {a b : Arena e α} {x y : α}
    (h : a.rename f = some b) (hxy : f x = some y) : (a.push x).rename f = some (b.push y) := by
  rw [Arena.rename_eq_some_iff] at h ⊢
  simpa using mapM_concat h hxy

@[simp] theorem Arena.rename_empty {e : Entity} {α : Type} (f : α → Option α) :
    (∅ : Arena e α).rename f = some ∅ := rfl

section

@[simp] theorem mapM_some {α : Type} (l : List α) : l.mapM some = some l :=
  Keeps.mapM (fun _ => rfl) l

@[simp] theorem optionMapM_some {α : Type} (o : Option α) : o.mapM some = some o :=
  Keeps.optionMapM (fun _ => rfl) o

@[simp] theorem mapConstants_some (a : Annotations) : a.mapConstants some = some a :=
  Annotations.mapConstants_keeps (fun _ => rfl) a

theorem onTy_identity_eq : identity.onTy = some := funext onTy_identity

/-- Declarations and modules are left as they are by the renaming that changes nothing, from the
inside out. -/
theorem Variable.rename_keeps : Keeps (Variable.rename identity) := by
  intro v
  simp [Variable.rename]

theorem Structure.rename_keeps : Keeps (Structure.rename identity) := by
  intro s
  have hmembers : Keeps (Member.rename identity) := fun m => by simp [Member.rename]
  simp [Structure.rename, hmembers.mapM s.members]

theorem EndpointDetails.rename_keeps : Keeps (EndpointDetails.rename identity) := by
  intro d
  simp [EndpointDetails.rename, onTy_identity_eq]

theorem Endpoint.rename_keeps : Keeps (Endpoint.rename identity) := by
  intro e
  simp [Endpoint.rename, EndpointDetails.rename_keeps.optionMapM e.details]

theorem Node.rename_keeps : Keeps (Node.rename identity) := by
  intro n
  simp [Node.rename]

theorem Block.rename_keeps : Keeps (Block.rename identity) := by
  intro b
  simp [Block.rename, Statement.rename_keeps.mapM b.statements, Terminator.rename_keeps]

theorem Function.rename_keeps : Keeps (Function.rename identity) := by
  intro f
  simp [Function.rename, Block.rename_keeps.arena f.blocks]

/-- The renaming that changes nothing leaves every module as it is. -/
theorem Module.rename_keeps : Keeps (Module.rename identity) := by
  intro m
  simp [Module.rename, Endpoint.rename_keeps.arena m.endpoints, Node.rename_keeps.arena m.nodes]

end

section

variable {a b c d : Renaming}

/-- Squares of renamings are squares on declarations and modules, from the inside out. -/
theorem Variable.rename_commutes (h : Square a b c d) :
    Commutes (rename a) (rename b) (rename c) (rename d) := by
  intro x x₁ x₂ x₃ h₁ h₂ h₃
  simp [Variable.rename, Option.bind_eq_some_iff] at h₁ h₂
  obtain ⟨t₁, ht₁, i₁, hi₁, k₁, hk₁, rfl⟩ := h₁
  obtain ⟨t₂, ht₂, i₂, hi₂, k₂, hk₂, rfl⟩ := h₂
  simp [Variable.rename, Option.bind_eq_some_iff] at h₃
  obtain ⟨t₃, ht₃, i₃, hi₃, k₃, hk₃, rfl⟩ := h₃
  simp [Variable.rename, h.onTy ht₁ ht₂ ht₃, h.onConstant.optionMapM hi₁ hi₂ hi₃,
    Annotations.mapConstants_commutes h.onConstant hk₁ hk₂ hk₃]

theorem Member.rename_commutes (h : Square a b c d) :
    Commutes (rename a) (rename b) (rename c) (rename d) := by
  intro x x₁ x₂ x₃ h₁ h₂ h₃
  simp [Member.rename, Option.bind_eq_some_iff] at h₁ h₂
  obtain ⟨t₁, ht₁, rfl⟩ := h₁
  obtain ⟨t₂, ht₂, rfl⟩ := h₂
  simp [Member.rename, Option.bind_eq_some_iff] at h₃
  obtain ⟨t₃, ht₃, rfl⟩ := h₃
  simp [Member.rename, h.onTy ht₁ ht₂ ht₃]

theorem Structure.rename_commutes (h : Square a b c d) :
    Commutes (rename a) (rename b) (rename c) (rename d) := by
  intro x x₁ x₂ x₃ h₁ h₂ h₃
  simp [Structure.rename, Option.bind_eq_some_iff] at h₁ h₂
  obtain ⟨o₁, ho₁, l₁, hl₁, rfl⟩ := h₁
  obtain ⟨o₂, ho₂, l₂, hl₂, rfl⟩ := h₂
  simp [Structure.rename, Option.bind_eq_some_iff] at h₃
  obtain ⟨o₃, ho₃, l₃, hl₃, rfl⟩ := h₃
  simp [Structure.rename, h.onModule ho₁ ho₂ ho₃, (Member.rename_commutes h).mapM hl₁ hl₂ hl₃]

theorem EndpointDetails.rename_commutes (h : Square a b c d) :
    Commutes (rename a) (rename b) (rename c) (rename d) := by
  intro x x₁ x₂ x₃ h₁ h₂ h₃
  simp [EndpointDetails.rename, Option.bind_eq_some_iff] at h₁ h₂
  obtain ⟨t₁, ht₁, rfl⟩ := h₁
  obtain ⟨t₂, ht₂, rfl⟩ := h₂
  simp [EndpointDetails.rename, Option.bind_eq_some_iff] at h₃
  obtain ⟨t₃, ht₃, rfl⟩ := h₃
  simp [EndpointDetails.rename, h.onTy.mapM ht₁ ht₂ ht₃]

theorem Endpoint.rename_commutes (h : Square a b c d) :
    Commutes (rename a) (rename b) (rename c) (rename d) := by
  intro x x₁ x₂ x₃ h₁ h₂ h₃
  simp [Endpoint.rename, Option.bind_eq_some_iff] at h₁ h₂
  obtain ⟨t₁, ht₁, k₁, hk₁, rfl⟩ := h₁
  obtain ⟨t₂, ht₂, k₂, hk₂, rfl⟩ := h₂
  simp [Endpoint.rename, Option.bind_eq_some_iff] at h₃
  obtain ⟨t₃, ht₃, k₃, hk₃, rfl⟩ := h₃
  simp [Endpoint.rename, (EndpointDetails.rename_commutes h).optionMapM ht₁ ht₂ ht₃,
    Annotations.mapConstants_commutes h.onConstant hk₁ hk₂ hk₃]

theorem Node.rename_commutes (h : Square a b c d) :
    Commutes (rename a) (rename b) (rename c) (rename d) := by
  intro x x₁ x₂ x₃ h₁ h₂ h₃
  simp [Node.rename, Option.bind_eq_some_iff] at h₁ h₂
  obtain ⟨k₁, hk₁, rfl⟩ := h₁
  obtain ⟨k₂, hk₂, rfl⟩ := h₂
  simp [Node.rename, Option.bind_eq_some_iff] at h₃
  obtain ⟨k₃, hk₃, rfl⟩ := h₃
  simp [Node.rename, h.onConstant.mapM hk₁ hk₂ hk₃]

theorem Block.rename_commutes (h : Square a b c d) :
    Commutes (rename a) (rename b) (rename c) (rename d) := by
  intro x x₁ x₂ x₃ h₁ h₂ h₃
  simp [Block.rename, Option.bind_eq_some_iff] at h₁ h₂
  obtain ⟨v₁, hv₁, s₁, hs₁, t₁, ht₁, rfl⟩ := h₁
  obtain ⟨v₂, hv₂, s₂, hs₂, t₂, ht₂, rfl⟩ := h₂
  simp [Block.rename, Option.bind_eq_some_iff] at h₃
  obtain ⟨v₃, hv₃, s₃, hs₃, t₃, ht₃, rfl⟩ := h₃
  simp [Block.rename, h.onVariable.mapM hv₁ hv₂ hv₃,
    (Statement.rename_commutes h).mapM hs₁ hs₂ hs₃, Terminator.rename_commutes h ht₁ ht₂ ht₃]

/-- A square of renamings is one on functions with their blocks. -/
theorem Function.rename_commutes (h : Square a b c d) :
    Commutes (rename a) (rename b) (rename c) (rename d) := by
  intro x x₁ x₂ x₃ h₁ h₂ h₃
  simp [Function.rename, Option.bind_eq_some_iff] at h₁ h₂
  obtain ⟨o₁, ho₁, t₁, ht₁, v₁, hv₁, l₁, hl₁, b₁, hb₁, k₁, hk₁, rfl⟩ := h₁
  obtain ⟨o₂, ho₂, t₂, ht₂, v₂, hv₂, l₂, hl₂, b₂, hb₂, k₂, hk₂, rfl⟩ := h₂
  simp [Function.rename, Option.bind_eq_some_iff] at h₃
  obtain ⟨o₃, ho₃, t₃, ht₃, v₃, hv₃, l₃, hl₃, b₃, hb₃, k₃, hk₃, rfl⟩ := h₃
  simp [Function.rename, h.onModule ho₁ ho₂ ho₃, h.onTy ht₁ ht₂ ht₃,
    h.onVariable.mapM hv₁ hv₂ hv₃, h.onVariable.mapM hl₁ hl₂ hl₃,
    (Block.rename_commutes h).arena hb₁ hb₂ hb₃,
    Annotations.mapConstants_commutes h.onConstant hk₁ hk₂ hk₃]

/-- A square of renamings is one on modules with all that they hold. -/
theorem Module.rename_commutes (h : Square a b c d) :
    Commutes (rename a) (rename b) (rename c) (rename d) := by
  intro x x₁ x₂ x₃ h₁ h₂ h₃
  simp [Module.rename, Option.bind_eq_some_iff] at h₁ h₂
  obtain ⟨k₁, hk₁, e₁, he₁, n₁, hn₁, s₁, hs₁, f₁, hf₁, v₁, hv₁, w₁, hw₁, rfl⟩ := h₁
  obtain ⟨k₂, hk₂, e₂, he₂, n₂, hn₂, s₂, hs₂, f₂, hf₂, v₂, hv₂, w₂, hw₂, rfl⟩ := h₂
  simp [Module.rename, Option.bind_eq_some_iff] at h₃
  obtain ⟨k₃, hk₃, e₃, he₃, n₃, hn₃, s₃, hs₃, f₃, hf₃, v₃, hv₃, w₃, hw₃, rfl⟩ := h₃
  simp [Module.rename, Annotations.mapConstants_commutes h.onConstant hk₁ hk₂ hk₃,
    (Endpoint.rename_commutes h).arena he₁ he₂ he₃, (Node.rename_commutes h).arena hn₁ hn₂ hn₃,
    h.onStruct.mapM hs₁ hs₂ hs₃, h.onFunction.mapM hf₁ hf₂ hf₃, h.onVariable.mapM hv₁ hv₂ hv₃,
    h.onVariable.mapM hw₁ hw₂ hw₃]

end

/-! ## Renamings that know more -/

/-- The second map answers as the first one does wherever that one answers. -/
def Extends {α : Type} (f g : α → Option α) : Prop := ∀ ⦃x y⦄, f x = some y → g x = some y

/-- What commutes with the identity on both other sides knows more. -/
theorem Commutes.extends {α : Type} {f g i : α → Option α} (h : Commutes i f i g) (hi : Keeps i) :
    Extends f g := fun x y hx => h (hi x) hx (hi y)

/-- One map extends another exactly as a square with two sides that change nothing says, so
extensions are obtained from squares. -/
theorem Extends.commutes {α : Type} {f g : α → Option α} (h : Extends f g) :
    Commutes some f some g := by
  intro x x' y y' hx hy hy'
  cases hx
  cases hy'
  exact h hy

/-- Where more structs have names, more types do, and those that had one keep it. -/
theorem Ty.mapStructs_extends {a b : StructId → Option StructId} (h : Extends a b) :
    Extends (mapStructs a) (mapStructs b) :=
  (mapStructs_commutes h.commutes).extends (mapStructs_keeps fun _ => rfl)

/-- Structs that keep their names leave types as they are. -/
theorem Ty.mapStructs_extends_some {a : StructId → Option StructId} (h : Extends a some) :
    Extends (mapStructs a) some := by
  intro t t' ht
  rw [← mapStructs_extends h ht]
  exact (mapStructs_keeps (fun _ => rfl) t).symm

/-- Where more types and texts have names, more values do, and those that had one keep it. -/
theorem Value.mapParts_extends {a b : Ty → Option Ty} {a' b' : TextId → Option TextId}
    (hty : Extends a b) (htext : Extends a' b') : Extends (mapParts a a') (mapParts b b') :=
  (mapParts_commutes hty.commutes htext.commutes).extends
    (mapParts_keeps (fun _ => rfl) (fun _ => rfl))

namespace Renaming

/-- The second renaming knows all names that the first one knows. -/
structure Le (r r' : Renaming) : Prop where
  onModule : Extends r.onModule r'.onModule
  onStruct : Extends r.onStruct r'.onStruct
  onFunction : Extends r.onFunction r'.onFunction
  onVariable : Extends r.onVariable r'.onVariable
  onConstant : Extends r.onConstant r'.onConstant
  onBlock : Extends r.onBlock r'.onBlock

/-- A renaming and a larger one make a square with the identity. -/
theorem Le.square {r r' : Renaming} (h : r.Le r') : Square identity r identity r' where
  onModule := h.onModule.commutes
  onStruct := h.onStruct.commutes
  onFunction := h.onFunction.commutes
  onVariable := h.onVariable.commutes
  onConstant := h.onConstant.commutes
  onBlock := h.onBlock.commutes

/-- What is renamed stays so by a renaming that knows more. -/
theorem Le.statement {r r' : Renaming} (h : r.Le r') :
    Extends (Statement.rename r.renamer) (Statement.rename r'.renamer) :=
  (Statement.rename_commutes h.square).extends Statement.rename_keeps

/-- A larger renaming treats a terminator as the smaller one does where that is defined. -/
theorem Le.terminator {r r' : Renaming} (h : r.Le r') :
    Extends (Terminator.rename r.renamer) (Terminator.rename r'.renamer) :=
  (Terminator.rename_commutes h.square).extends Terminator.rename_keeps

/-- A larger renaming treats annotations as the smaller one does where that is defined. -/
theorem Le.annotations {r r' : Renaming} (h : r.Le r') :
    Extends (Annotations.mapConstants r.onConstant) (Annotations.mapConstants r'.onConstant) :=
  (Annotations.mapConstants_commutes h.square.onConstant).extends mapConstants_some

/-- A larger renaming treats a variable as the smaller one does where that is defined. -/
theorem Le.variable {r r' : Renaming} (h : r.Le r') :
    Extends (Variable.rename r) (Variable.rename r') :=
  (Variable.rename_commutes h.square).extends Variable.rename_keeps

/-- A larger renaming treats a struct as the smaller one does where that is defined. -/
theorem Le.struct {r r' : Renaming} (h : r.Le r') :
    Extends (Structure.rename r) (Structure.rename r') :=
  (Structure.rename_commutes h.square).extends Structure.rename_keeps

/-- A larger renaming treats a function as the smaller one does where that is defined. -/
theorem Le.function {r r' : Renaming} (h : r.Le r') :
    Extends (Function.rename r) (Function.rename r') :=
  (Function.rename_commutes h.square).extends Function.rename_keeps

/-- A larger renaming treats a node as the smaller one does where that is defined. -/
theorem Le.node {r r' : Renaming} (h : r.Le r') : Extends (Node.rename r) (Node.rename r') :=
  (Node.rename_commutes h.square).extends Node.rename_keeps

/-- A larger renaming treats a module as the smaller one does where that is defined. -/
theorem Le.module {r r' : Renaming} (h : r.Le r') :
    Extends (Module.rename r) (Module.rename r') :=
  (Module.rename_commutes h.square).extends Module.rename_keeps

end Renaming

/-! ## Constants and texts of two programs -/

namespace Program

/-- The handle in `q` of a text of `p`. -/
def textTo (p q : Program) (id : TextId) : Option TextId := p.texts.get? id >>= q.texts.find?

/-- The handle in `q` of a constant of `p`, with its types renamed. -/
def constantTo (onTy : Ty → Option Ty) (p q : Program) (id : ConstantId) : Option ConstantId := do
  let value ← p.constants.get? id
  let renamed ← value.mapParts onTy (p.textTo q)
  q.constants.find? renamed

/-- If more types have names, more constants are found in the other program. -/
theorem constantTo_extends {onTy onTy' : Ty → Option Ty} (h : Extends onTy onTy') (p q : Program) :
    Extends (p.constantTo onTy q) (p.constantTo onTy' q) := by
  intro c c' hc
  simp only [constantTo, Option.bind_eq_bind, Option.bind_eq_some_iff] at hc ⊢
  obtain ⟨v, hv, v', hv', hfind⟩ := hc
  exact ⟨v, hv, v', Value.mapParts_extends h (fun _ _ hx => hx) hv', hfind⟩

/-- Constants and texts are only added, and texts only if they are new. -/
structure TablesGrow (p q : Program) : Prop where
  constants : p.constants.toList <+: q.constants.toList
  texts : p.texts.toList <+: q.texts.toList
  distinctTexts : p.texts.toList.Nodup → q.texts.toList.Nodup

namespace TablesGrow

variable {p q r : Program}

theorem refl (p : Program) : TablesGrow p p := ⟨List.prefix_refl _, List.prefix_refl _, id⟩

theorem trans (h : TablesGrow p q) (h' : TablesGrow q r) : TablesGrow p r :=
  ⟨h.constants.trans h'.constants, h.texts.trans h'.texts, h'.distinctTexts ∘ h.distinctTexts⟩

/-- Other tables do not matter. -/
theorem congr (h : TablesGrow p q) (hconstants : r.constants = q.constants)
    (htexts : r.texts = q.texts) : TablesGrow p r :=
  ⟨hconstants ▸ h.constants, htexts ▸ h.texts, htexts ▸ h.distinctTexts⟩

/-- A text that is found in a program is found in every one whose tables have grown. -/
theorem textTo (h : TablesGrow q r) (p : Program) : Extends (p.textTo q) (p.textTo r) := by
  intro t t' ht
  obtain ⟨text, htext, hfind⟩ := Option.bind_eq_some_iff.mp ht
  simp only [Program.textTo, htext, Option.bind_eq_bind, Option.bind_some]
  exact Arena.find?_of_isPrefix h.texts hfind

/-- A constant that is found in a program is found in every one whose tables have grown. -/
theorem constantTo (h : TablesGrow q r) (p : Program) (onTy : Ty → Option Ty) :
    Extends (p.constantTo onTy q) (p.constantTo onTy r) := by
  intro c c' hc
  simp only [Program.constantTo, Option.bind_eq_bind, Option.bind_eq_some_iff] at hc ⊢
  obtain ⟨v, hv, v', hv', hfind⟩ := hc
  exact ⟨v, hv, v', Value.mapParts_extends (fun _ _ hx => hx) (h.textTo p) hv',
    Arena.find?_of_isPrefix h.constants hfind⟩

end TablesGrow

end Program

end SignalGraph

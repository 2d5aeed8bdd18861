import SignalGraph.Proofs.Program.CopyApart
import SignalGraph.Proofs.Ty.Replacing

/-!
# SignalGraph.Proofs.Program.CopyTyping

The types of copied code.  The copy of an expression has the type of the expression, with the
structs of the module replaced by their copies, as far as this type comes from the module.  A type
that is read off something else, such as a function of another module, is kept: it may still mention
structs of the module, for which the copy has others (`CopiedApart.exprType`).
-/

namespace SignalGraph

/-! ## Expressions of functions -/

def Block.allExprs (b : Block) : List Expr :=
  b.statements.flatMap Statement.allExprs ++ b.terminator.allExprs

/-- All expressions of a body and their parts, in order. -/
def Function.allExprs (f : Function) : List Expr := f.blocks.toList.flatMap Block.allExprs

section

variable {r : Renaming}

mutual

/-- The parts of a renamed expression are its renamed parts. -/
theorem Expr.rename_parts : ∀ {e e' : Expr}, e.rename r.renamer = some e' →
    e.parts.mapM (Expr.rename r.renamer) = some e'.parts
  | .var _, e', h | .const _, e', h => by
      simp [Expr.rename, Option.bind_eq_some_iff] at h
      obtain ⟨x, hx, rfl⟩ := h
      simp [Expr.parts, Expr.rename, hx]
  | .property _, e', h => by
      cases h
      rfl
  | .element e _, e', h | .member e _, e', h | .slice e _ _, e', h | .unary _ e, e', h => by
      simp [Expr.rename, Option.bind_eq_some_iff] at h
      obtain ⟨x, hx, rfl⟩ := h
      simp [Expr.parts, Expr.rename, hx, Expr.rename_parts hx]
  | .cast t e, e', h => by
      simp [Expr.rename, Option.bind_eq_some_iff] at h
      obtain ⟨t', ht, x, hx, rfl⟩ := h
      simp [Expr.parts, Expr.rename, ht, hx, Expr.rename_parts hx]
  | .elementAt l y, e', h | .binary _ l y, e', h => by
      simp [Expr.rename, Option.bind_eq_some_iff] at h
      obtain ⟨l', hl, y', hy, rfl⟩ := h
      simp [Expr.parts, Expr.rename, hl, hy, Expr.rename_parts hl, Expr.rename_parts hy]
  | .pureCall f args, e', h => by
      simp [Expr.rename, Option.bind_eq_some_iff] at h
      obtain ⟨f', hf, args', hargs, rfl⟩ := h
      simp [Expr.parts, Expr.rename, hf, hargs, Expr.renameList_parts hargs]

/-- The parts of renamed arguments are the renamed parts. -/
theorem Expr.renameList_parts : ∀ {es es' : List Expr}, Expr.renameList r.renamer es = some es' →
    (Expr.partsList es).mapM (Expr.rename r.renamer) = some (Expr.partsList es')
  | [], es', h => by
      cases h
      rfl
  | e :: es, es', h => by
      simp [Expr.renameList, Option.bind_eq_some_iff] at h
      obtain ⟨x, hx, xs, hxs, rfl⟩ := h
      simp [Expr.partsList, Expr.rename_parts hx, Expr.renameList_parts hxs]

end

/-- Arguments are renamed one by one. -/
theorem Expr.renameList_eq_mapM (es : List Expr) :
    Expr.renameList r.renamer es = es.mapM (Expr.rename r.renamer) := by
  induction es with
  | nil => rfl
  | cons e es ih => simp [Expr.renameList, ih]

/-- Two lists of arguments are renamed together. -/
theorem Expr.renameList_append {es es' xs xs' : List Expr}
    (h : Expr.renameList r.renamer es = some es') (hx : Expr.renameList r.renamer xs = some xs') :
    Expr.renameList r.renamer (es ++ xs) = some (es' ++ xs') := by
  rw [Expr.renameList_eq_mapM] at *
  exact mapM_append_some h hx

/-- An optional expression is renamed like a list of at most one. -/
theorem Expr.renameOption_toList {e e' : Option Expr}
    (h : Expr.renameOption r.renamer e = some e') :
    Expr.renameList r.renamer e.toList = some e'.toList := by
  cases e with
  | none =>
      cases h
      rfl
  | some e =>
      simp [Expr.renameOption, Option.bind_eq_some_iff] at h
      obtain ⟨x, hx, rfl⟩ := h
      simp [Expr.renameList, hx]

/-- The expressions of a renamed statement are the renamed ones. -/
theorem Statement.rename_exprs {s s' : Statement} (h : s.rename r.renamer = some s') :
    Expr.renameList r.renamer s.exprs = some s'.exprs := by
  cases s with
  | assign t v =>
      simp [Statement.rename, Option.bind_eq_some_iff] at h
      obtain ⟨t', ht, v', hv, rfl⟩ := h
      simp [Statement.exprs, Expr.renameList, ht, hv]
  | call t f args =>
      simp [Statement.rename, Option.bind_eq_some_iff] at h
      obtain ⟨t', ht, f', -, args', hargs, rfl⟩ := h
      exact Expr.renameList_append (Expr.renameOption_toList ht) hargs
  | read t endpoint =>
      simp [Statement.rename, Option.bind_eq_some_iff] at h
      obtain ⟨t', ht, rfl⟩ := h
      simp [Statement.exprs, Expr.renameList, ht]
  | write endpoint e v =>
      simp [Statement.rename, Option.bind_eq_some_iff] at h
      obtain ⟨e', he, v', hv, rfl⟩ := h
      exact Expr.renameList_append (Expr.renameOption_toList he) (by simp [Expr.renameList, hv])
  | advance =>
      cases h
      rfl

/-- The expressions of a renamed terminator are the renamed ones. -/
theorem Terminator.rename_exprs {t t' : Terminator} (h : t.rename r.renamer = some t') :
    Expr.renameList r.renamer t.exprs = some t'.exprs := by
  cases t with
  | branch b args =>
      simp [Terminator.rename, Option.bind_eq_some_iff] at h
      obtain ⟨b', -, args', hargs, rfl⟩ := h
      exact hargs
  | branchIf c t ts f fs =>
      simp [Terminator.rename, Option.bind_eq_some_iff] at h
      obtain ⟨c', hc, t', -, f', -, ts', hts, fs', hfs, rfl⟩ := h
      simp [Terminator.exprs, Expr.renameList, hc, Expr.renameList_append hts hfs]
  | returnVoid =>
      cases h
      rfl
  | returnValue v =>
      simp [Terminator.rename, Option.bind_eq_some_iff] at h
      obtain ⟨v', hv, rfl⟩ := h
      simp [Terminator.exprs, Expr.renameList, hv]

/-- The expressions of a renamed block are the renamed ones. -/
theorem Block.Renames.allExprs {b b' : Block} (h : b.Renames r b') :
    b.allExprs.mapM (Expr.rename r.renamer) = some b'.allExprs :=
  mapM_append_some
    (mapM_flatMap_of_mapM h.statements fun _ _ _ hs =>
      Expr.renameList_parts (Statement.rename_exprs hs))
    (Expr.renameList_parts (Terminator.rename_exprs h.terminator))

/-- The expressions of a renamed function are its renamed expressions. -/
theorem Function.Renames.allExprs {f f' : Function} (h : f.Renames r f') :
    f.allExprs.mapM (Expr.rename r.renamer) = some f'.allExprs :=
  mapM_flatMap_of_mapM (Arena.rename_eq_some_iff.mp h.blocks) fun _ _ _ hb =>
    (Block.rename_eq_some_iff.mp hb).allExprs

/-- Labels are in no expression. -/
theorem Function.allExprs_labelled (f : Function) : f.labelled.allExprs = f.allExprs := by
  have hblock : (fun b : Block => b.labelled.allExprs) = Block.allExprs := rfl
  simp only [allExprs, labelled, Arena.toList_ofList, List.flatMap_map, hblock]

end

namespace Program

/-! ## Borrowed types -/

/-- Whether the type of an expression is read off something that the module does not own: a
variable, a function, or a struct of which the expression is a member. -/
def borrows (p : Program) (id : ModuleId) : Expr → Bool
  | .var v => !(p.ownVars id).contains v
  | .const _ | .cast _ _ | .property _ => false
  | .element e _ | .elementAt e _ | .slice e _ _ => p.borrows id e
  | .member e _ => p.borrows id e ||
    match (p.exprType e).unqualified with
    | .struct s => !(p.moduleAt id).structs.contains s
    | _ => false
  | .unary op e => op ≠ .logicalNot && p.borrows id e
  | .binary op l _ => !op.yieldsBool && p.borrows id l
  | .pureCall f _ => !(p.moduleAt id).functions.contains f

/-- Whether a copy of the expression keeps a struct of the module in its type. -/
def stale (p : Program) (id : ModuleId) (e : Expr) : Bool :=
  p.borrows id e && (p.moduleAt id).structs.any fun s =>
    (p.exprType e).mentions.contains (.record s)

/-- The type `t` becomes `t'` in a copy: it is kept, or its structs are replaced. -/
def TypeCopied (f : StructId → Option StructId) (kept : Bool) (t t' : Ty) : Prop :=
  ∃ u, Ty.Replaced f t u ∧ t' = if kept then t else u

section

variable {f : StructId → Option StructId} {kept : Bool} {t t' : Ty}

/-- What a selection does to types that are kept or replaced. -/
theorem TypeCopied.select {g : Ty → Ty} (h : TypeCopied f kept t t')
    (hg : ∀ {u}, Ty.Replaced f t u → Ty.Replaced f (g t) (g u)) :
    TypeCopied f kept (g t) (g t') := by
  obtain ⟨u, hu, rfl⟩ := h
  exact ⟨g u, hg hu, by cases kept <;> rfl⟩

/-- A primitive type is copied as itself. -/
theorem typeCopied_prim (kept : Bool) (x : Prim) : TypeCopied f kept (.prim x) (.prim x) :=
  ⟨_, .prim x, by cases kept <;> rfl⟩

end

/-- The types of all that `r` renames are kept if the module does not own it, and replaced if it
does.  Structs that stay in use keep their members. -/
structure CopiesTypes (p : Program) (id : ModuleId) (r : Renaming) (q : Program) : Prop where
  vars : ∀ v v', r.onVariable v = some v' → TypeCopied r.onStruct (!(p.ownVars id).contains v)
    (p.variableAt v).ty (q.variableAt v').ty
  constants : ∀ c c', r.onConstant c = some c' → TypeCopied r.onStruct false
    (p.constantAt c).ty (q.constantAt c').ty
  functions : ∀ f f', r.onFunction f = some f' →
    TypeCopied r.onStruct (!(p.moduleAt id).functions.contains f)
      (p.functionAt f).returns (q.functionAt f').returns
  members : ∀ s s' name, r.onStruct s = some s' →
    TypeCopied r.onStruct (!(p.moduleAt id).structs.contains s)
      (p.memberType (.struct s) name) (q.memberType (.struct s') name)
  kept : ∀ s s' name, r.onStruct s = some s' → TypeCopied r.onStruct true
    (p.memberType (.struct s) name) (q.memberType (.struct s) name)

/-- The copy of an expression has its type: a borrowed one is kept, any other has its structs
replaced. -/
theorem CopiesTypes.exprType {p q : Program} {id : ModuleId} {r : Renaming}
    (h : p.CopiesTypes id r q) : ∀ {e e' : Expr}, e.rename r.renamer = some e' →
      TypeCopied r.onStruct (p.borrows id e) (p.exprType e) (q.exprType e')
  | .var v, e', he => by
      simp [Expr.rename, Option.bind_eq_some_iff] at he
      obtain ⟨v', hv, rfl⟩ := he
      exact h.vars v v' hv
  | .const c, e', he => by
      simp [Expr.rename, Option.bind_eq_some_iff] at he
      obtain ⟨c', hc, rfl⟩ := he
      exact h.constants c c' hc
  | .property x, e', he => by
      cases he
      cases x <;> exact typeCopied_prim _ _
  -- a selection has a part of the type it selects from, so what is kept or replaced there is so
  -- here
  | .element e _, e', he => by
      simp [Expr.rename, Option.bind_eq_some_iff] at he
      obtain ⟨x, hx, rfl⟩ := he
      exact (h.exprType hx).select .elementType
  | .elementAt e _, e', he => by
      simp [Expr.rename, Option.bind_eq_some_iff] at he
      obtain ⟨x, hx, _, -, rfl⟩ := he
      exact (h.exprType hx).select .elementType
  | .slice e start stop, e', he => by
      simp [Expr.rename, Option.bind_eq_some_iff] at he
      obtain ⟨x, hx, rfl⟩ := he
      exact (h.exprType hx).select (g := (sliceType · start stop)) fun hu => hu.sliceType start stop
  -- a member's type comes from its struct: kept with a borrowed struct, replaced with an owned one
  | .member e name, e', he => by
      simp [Expr.rename, Option.bind_eq_some_iff] at he
      obtain ⟨x, hx, rfl⟩ := he
      obtain ⟨u, hu, hx⟩ := h.exprType hx
      have hqualified := hu.unqualified
      simp only [Program.exprType, hx, Program.borrows, memberType]
      cases p.borrows id e with
      | true =>
          simp only [if_true, Bool.true_or]
          generalize (p.exprType e).unqualified = a, u.unqualified = b at hqualified
          cases hqualified with
          | struct hs => exact h.kept _ _ name hs
          | _ => exact typeCopied_prim _ _
      | false =>
          simp only [Bool.false_eq_true, if_false, Bool.false_or]
          generalize (p.exprType e).unqualified = a, u.unqualified = b at hqualified
          cases hqualified with
          | struct hs => exact h.members _ _ name hs
          | _ => exact typeCopied_prim _ _
  -- the type of a cast is written in the expression itself, so it is always replaced
  | .cast t e, e', he => by
      simp [Expr.rename, Option.bind_eq_some_iff] at he
      obtain ⟨t', ht, x, -, rfl⟩ := he
      exact ⟨t', Ty.mapStructs_eq_some_iff.mp ht, rfl⟩
  | .unary op e, e', he => by
      simp [Expr.rename, Option.bind_eq_some_iff] at he
      obtain ⟨x, hx, rfl⟩ := he
      have htype := (h.exprType hx).select .unqualified
      cases op with
      | logicalNot => exact typeCopied_prim _ _
      | negate | bitwiseNot => exact htype
  | .binary op l y, e', he => by
      simp [Expr.rename, Option.bind_eq_some_iff] at he
      obtain ⟨l', hl, y', -, rfl⟩ := he
      have htype := (h.exprType hl).select .unqualified
      simp only [Program.exprType, Program.borrows]
      cases op.yieldsBool with
      | true => exact typeCopied_prim _ _
      | false => exact htype
  | .pureCall f args, e', he => by
      simp [Expr.rename, Option.bind_eq_some_iff] at he
      obtain ⟨f', hf, args', -, rfl⟩ := he
      exact h.functions f f' hf

end Program

/-! ## Copies within a program -/

/-- What `r` does to what `d` accepts. -/
def Renaming.restrict (r d : Renaming) : Renaming where
  onModule id := d.onModule id >>= r.onModule
  onStruct id := d.onStruct id >>= r.onStruct
  onFunction id := d.onFunction id >>= r.onFunction
  onVariable id := d.onVariable id >>= r.onVariable
  onConstant id := d.onConstant id >>= r.onConstant
  onBlock id := d.onBlock id >>= r.onBlock

/-- What a partial identity accepts is renamed as before. -/
theorem Renaming.restrict_square {r d : Renaming} (hd : d.Le .identity) :
    d.Square r .identity (r.restrict d) := by
  have hsquare : ∀ {e : Entity} {a b : Handle e → Option (Handle e)}, Extends a some →
      Commutes a b some fun x => a x >>= b := by
    intro e a b ha x x₁ x₂ x₃ h₁ h₂ h₃
    cases ha h₁
    cases h₃
    simp [h₁, h₂]
  exact ⟨hsquare hd.onModule, hsquare hd.onStruct, hsquare hd.onFunction, hsquare hd.onVariable,
    hsquare hd.onConstant, hsquare hd.onBlock⟩

/-- A restricted renaming is smaller. -/
theorem Renaming.restrict_le {r d : Renaming} (hd : d.Le .identity) : (r.restrict d).Le r := by
  have hle : ∀ {e : Entity} {a b : Handle e → Option (Handle e)}, Extends a some →
      Extends (fun x => a x >>= b) b := by
    intro e a b ha x y hxy
    obtain ⟨x', hx', hy⟩ := Option.bind_eq_some_iff.mp hxy
    cases ha hx'
    exact hy
  exact ⟨hle hd.onModule, hle hd.onStruct, hle hd.onFunction, hle hd.onVariable, hle hd.onConstant,
    hle hd.onBlock⟩

/-- A renamed member has the same name and the renamed type. -/
theorem Member.rename_eq_some_iff {r : Renaming} {m m' : Member} :
    m.rename r = some m' ↔ m'.name = m.name ∧ r.onTy m.ty = some m'.ty := by
  obtain ⟨x, t⟩ := m'
  cases h : r.onTy m.ty <;> simp [Member.rename, h, eq_comm]

/-- A type is kept if the structs that it mentions are. -/
theorem Ty.mapStructs_of_mentions {f : StructId → Option StructId} {t : Ty}
    (h : ∀ s, .record s ∈ t.mentions → f s = some s) : t.mapStructs f = some t := by
  induction t with
  | struct s => simp [mapStructs, h s (by simp [mentions])]
  | array _ _ ih | const _ ih | ref _ ih => simp [mapStructs, ih h]
  | _ => rfl

/-- A value that is renamed has a type that is. -/
theorem Value.mapParts_ty {f : StructId → Option StructId} {onText : TextId → Option TextId}
    {v v' : Value} (h : v.mapParts (Ty.mapStructs f) onText = some v') :
    Ty.Replaced f v.ty v'.ty := by
  cases v with
  | string id =>
      simp [mapParts, Option.bind_eq_some_iff] at h
      obtain ⟨s, -, rfl⟩ := h
      exact .string
  | zero t =>
      simp [mapParts, Option.bind_eq_some_iff] at h
      obtain ⟨t', ht, rfl⟩ := h
      exact Ty.mapStructs_eq_some_iff.mp ht
  | aggregate t vs =>
      simp [mapParts, Option.bind_eq_some_iff] at h
      obtain ⟨t', ht, vs', -, rfl⟩ := h
      exact Ty.mapStructs_eq_some_iff.mp ht
  | _ =>
      cases h
      exact .prim _

namespace Program

variable {p q : Program} {id : ModuleId} {name : String} {r : Renaming}

/-- The structs of the program and what they become. -/
def replacing (p : Program) (r : Renaming) (s : StructId) : Option StructId :=
  s.below p.structs.size >>= r.onStruct

/-- A scope changes nothing. -/
theorem scope_le_identity (p : Program) (f : Function) : (p.scope f).Le .identity :=
  Renaming.within_le_identity p.inRange_le_identity _ _

@[simp] theorem onStruct_restrict_scope (p : Program) (r : Renaming) (f : Function) :
    (r.restrict (p.scope f)).onStruct = p.replacing r := rfl

/-- All structs of the type are there. -/
abbrev TypeInRange (p : Program) (t : Ty) : Prop :=
  t.mapStructs (Handle.below p.structs.size) = some t

/-- A type whose structs are there is replaced as a whole. -/
theorem TypeInRange.replaced {t u : Ty} (h : p.TypeInRange t) (hu : r.onTy t = some u) :
    Ty.Replaced (p.replacing r) t u := by
  have hsquare : Commutes (Handle.below p.structs.size) r.onStruct some (p.replacing r) := by
    intro s s₁ s₂ s₃ h₁ h₂ h₃
    obtain ⟨hlt, rfl⟩ := Handle.below_eq_some_iff.mp h₁
    cases h₃
    simp [replacing, h₁, h₂]
  exact Ty.mapStructs_eq_some_iff.mp
    (Ty.mapStructs_commutes hsquare h hu (Ty.mapStructs_keeps (fun _ => rfl) u))

/-- A type with its structs replaced is the renamed type. -/
theorem onTy_of_replaced {t u : Ty} (h : Ty.Replaced (p.replacing r) t u) : r.onTy t = some u := by
  refine Ty.mapStructs_extends (fun s s' hs => ?_) (Ty.mapStructs_eq_some_iff.mpr h)
  obtain ⟨_, hlt, hs⟩ := Option.bind_eq_some_iff.mp hs
  rwa [(Handle.below_eq_some_iff.mp hlt).2]

/-- A type in range has its structs replaced. -/
theorem TypeInRange.replaces {t u : Ty} (h : p.TypeInRange t) (hu : r.onTy t = some u) :
    TypeCopied (p.replacing r) false t u := ⟨u, h.replaced hu, rfl⟩

/-- A type whose structs are all there is in range. -/
theorem typeInRange_of_replaced {t u : Ty}
    (h : Ty.Replaced (Handle.below p.structs.size) t u) : p.TypeInRange t := by
  have hmap := Ty.mapStructs_eq_some_iff.mpr h
  have hkept : t = u := Option.some.inj (Ty.mapStructs_extends_some
    (fun s s' hs => congrArg some (Handle.below_eq_some_iff.mp hs).2) hmap)
  rwa [← hkept] at hmap

/-- Members of structs have types in range. -/
theorem WellFormed.member_inRange (hp : p.WellFormed) {s : StructId} (hs : s.idx < p.structs.size)
    {m : Member} (hm : m ∈ (p.structAt s).members) : p.TypeInRange m.ty := by
  have hstruct := hp.structs _ (Arena.get_mem_toList (Arena.mem_handles_iff.mpr hs))
  have hmembers := (Structure.rename_eq_some_iff.mp hstruct).members
  exact (Member.rename_eq_some_iff.mp (eq_some_of_mapM_self hmembers hm)).2

/-- The type of the first member with a name. -/
theorem typeCopied_members {f : StructId → Option StructId} {kept : Bool} {l l' : List Member}
    (h : List.Forall₂ (fun m m' => m'.name = m.name ∧ TypeCopied f kept m.ty m'.ty) l l')
    (name : String) : TypeCopied f kept (((l.find? (·.name == name)).map (·.ty)).getD .void)
      (((l'.find? (·.name == name)).map (·.ty)).getD .void) := by
  induction h with
  | nil => exact typeCopied_prim _ _
  | @cons m m' l l' hm _ ih =>
      rw [List.find?_cons, List.find?_cons, hm.1]
      cases m.name == name with
      | true => exact hm.2
      | false => exact ih

namespace CopiedApart

variable (hp : p.WellFormed) (hc : p.CopiedApart id name r q)

include hc

/-- Every struct has a name in the copy. -/
theorem onStruct_defined (s : StructId) : ∃ s', r.onStruct s = some s' := by
  by_cases hs : p.Owns id (.record s)
  · obtain ⟨y, hy, -⟩ := hc.fresh _ hs
    obtain ⟨s', hs', -⟩ := Option.map_eq_some_iff.mp hy
    exact ⟨s', hs'⟩
  · exact ⟨s, hc.onStruct s hs⟩

/-- What is read off something outside the module keeps its type. -/
theorem keeps {t : Ty} (ht : p.TypeInRange t) : TypeCopied (p.replacing r) true t t := by
  obtain ⟨u, hu⟩ :=
    Ty.mapStructs_defined (b := r.onStruct) (fun s _ _ => hc.onStruct_defined s) t t ht
  exact ⟨u, ht.replaced hu, rfl⟩

include hp

/-- The members of a struct that stays in use keep their types. -/
theorem keeps_members {s : StructId} (hs : s.idx < p.structs.size) (x : String) :
    TypeCopied (p.replacing r) true (p.memberType (.struct s) x) (q.memberType (.struct s) x) := by
  have hsame : q.structAt s = p.structAt s :=
    Arena.get_eq_of_get? (Arena.get?_of_isPrefix hc.kept.structs (Arena.get?_eq_some_get hs))
  have hmembers : List.Forall₂
      (fun m m' : Member => m'.name = m.name ∧ TypeCopied (p.replacing r) true m.ty m'.ty)
      (p.structAt s).members (q.structAt s).members := by
    rw [hsame, List.forall₂_same]
    exact fun m hm => ⟨rfl, hc.keeps (hp.member_inRange hs hm)⟩
  exact typeCopied_members hmembers x

/-- In the scope of a function types are copied, or kept where they come from outside. -/
theorem copiesTypes (f : Function) : p.CopiesTypes id (r.restrict (p.scope f)) q where
  -- each name is either the module's own, with a copy, or from outside, and then unchanged
  vars v v' hv := by
    obtain ⟨w, hw, hv⟩ := Option.bind_eq_some_iff.mp hv
    obtain ⟨-, hw⟩ := Option.ite_none_right_eq_some.mp hw
    obtain ⟨hdeclared, rfl⟩ := Handle.among_eq_some_iff.mp hw
    have hrange : p.TypeInRange (p.variableAt v).ty :=
      (Variable.rename_eq_some_iff.mp (hp.variableAt hdeclared)).ty
    by_cases hown : v ∈ p.ownVars id
    · have htype := (Variable.rename_eq_some_iff.mp (hc.vars v v' hown hv)).ty
      simpa [hown] using hrange.replaces htype
    · cases (hc.onVariable v hown).symm.trans hv
      have hsame : q.variableAt v = p.variableAt v := Arena.get_eq_of_get?
        (Arena.get?_of_isPrefix hc.kept.vars
          (Arena.get?_eq_some_get (hp.declaredInRange v hdeclared)))
      rw [hsame]
      simpa [hown] using hc.keeps hrange
  constants c c' hcc := by
    obtain ⟨w, hw, hcc⟩ := Option.bind_eq_some_iff.mp hcc
    obtain ⟨rfl, v, v', hv, hv'⟩ := sound_eq_some_iff.mp hw
    -- a constant is never borrowed: its copy is its value with the structs replaced
    have hat : p.constantAt c = v := Arena.get_eq_of_get? hv
    have hrange : p.TypeInRange (p.constantAt c).ty :=
      hat ▸ typeInRange_of_replaced (Value.mapParts_ty hv')
    have hcopy := Value.mapParts_ty (hc.onConstant c c' hcc).1
    exact hrange.replaces (Ty.mapStructs_eq_some_iff.mpr hcopy)
  functions g g' hg := by
    obtain ⟨w, hw, hg⟩ := Option.bind_eq_some_iff.mp hg
    obtain ⟨hlt, rfl⟩ := Handle.below_eq_some_iff.mp hw
    have hrange : p.TypeInRange (p.functionAt g).returns :=
      (hp.functionAt (Arena.mem_handles_iff.mpr hlt)).returns
    by_cases hown : g ∈ (p.moduleAt id).functions
    · have hreturns := (Function.rename_eq_some_iff.mp (hc.functions g g' hown hg)).returns
      simpa [hown] using hrange.replaces hreturns
    · cases (hc.onFunction g hown).symm.trans hg
      have hsame : q.functionAt g = p.functionAt g := Arena.get_eq_of_get?
        (Arena.get?_of_isPrefix hc.kept.functions (Arena.get?_eq_some_get hlt))
      rw [hsame]
      simpa [hown] using hc.keeps hrange
  members s s' x hs := by
    obtain ⟨w, hw, hs⟩ := Option.bind_eq_some_iff.mp hs
    obtain ⟨hlt, rfl⟩ := Handle.below_eq_some_iff.mp hw
    by_cases hown : s ∈ (p.moduleAt id).structs
    · have hcopy := (Structure.rename_eq_some_iff.mp (hc.structs s s' hown hs)).members
      -- the members of a copied struct have the names of the original's, and replaced types
      have hmembers : List.Forall₂
          (fun m m' : Member => m'.name = m.name ∧ TypeCopied (p.replacing r) false m.ty m'.ty)
          (p.structAt s).members (q.structAt s').members := by
        have hrange : ∀ m ∈ (p.structAt s).members, p.TypeInRange m.ty :=
          fun _ hm => hp.member_inRange hlt hm
        refine ((List.forall₂_and_left _ _).mpr ⟨hrange, mapM_eq_some_iff_forall₂.mp hcopy⟩).imp ?_
        rintro m m' ⟨hm, hmm'⟩
        obtain ⟨hname, hty⟩ := Member.rename_eq_some_iff.mp hmm'
        exact ⟨hname, hm.replaces hty⟩
      rw [List.contains_iff_mem.mpr hown]
      exact typeCopied_members hmembers x
    · cases (hc.onStruct s hown).symm.trans hs
      simpa [hown] using keeps_members hp hc hlt x
  kept s s' x hs := by
    obtain ⟨w, hw, hs⟩ := Option.bind_eq_some_iff.mp hs
    obtain ⟨hlt, rfl⟩ := Handle.below_eq_some_iff.mp hw
    exact keeps_members hp hc hlt x

/-- A function and its copy, with what the function can mention. -/
theorem renames {f f' : FunctionId} (hf : p.Owns id (.func f)) (hf' : r.onFunction f = some f')
    (hrange : f ∈ p.functions.handles) :
    (p.functionAt f).labelled.Renames (r.restrict (p.scope (p.functionAt f)))
      (q.functionAt f') := by
  have hscope := Function.rename_labelled (hp.functions _ (Arena.get_mem_toList hrange))
  have hsquare := Renaming.restrict_square (r := r) (p.scope_le_identity (p.functionAt f))
  exact Function.rename_eq_some_iff.mp (Function.rename_commutes hsquare
    hscope (hc.functions f f' hf hf') (Function.rename_keeps _))

omit hp in
/-- The type of a copied expression, if the type of the expression is kept or replaced. -/
theorem type_of_typeCopied {e : Expr} {t' : Ty}
    (h : TypeCopied (p.replacing r) (p.borrows id e) (p.exprType e) t') :
    if p.stale id e then t' = p.exprType e else r.onTy (p.exprType e) = some t' := by
  obtain ⟨u, hu, rfl⟩ := h
  cases hborrows : p.borrows id e with
  | false => simpa [stale, hborrows] using onTy_of_replaced hu
  | true =>
      split
      · rfl
      · next hstale =>
        refine Ty.mapStructs_of_mentions fun s hs => hc.onStruct s fun hown => hstale ?_
        simp only [stale, hborrows, Bool.true_and, List.any_eq_true]
        exact ⟨s, hown, List.contains_iff_mem.mpr hs⟩

/-- The expressions of a copied function, one by one. -/
theorem allExprs {f f' : FunctionId} (hf : p.Owns id (.func f)) (hf' : r.onFunction f = some f')
    (hrange : f ∈ p.functions.handles) :
    List.Forall₂ (fun e e' => e.rename r.renamer = some e' ∧
        if p.stale id e then q.exprType e' = p.exprType e
        else r.onTy (p.exprType e) = some (q.exprType e'))
      (p.functionAt f).allExprs (q.functionAt f').allExprs := by
  have hexprs := (renames hp hc hf hf' hrange).allExprs
  rw [Function.allExprs_labelled, mapM_eq_some_iff_forall₂] at hexprs
  refine hexprs.imp fun e e' he => ⟨?_, ?_⟩
  · have hle := Renaming.restrict_le (r := r) (p.scope_le_identity (p.functionAt f))
    exact (Expr.rename_commutes hle.square).extends Expr.rename_keeps he
  · exact type_of_typeCopied hc ((copiesTypes hp hc (p.functionAt f)).exprType he)

end CopiedApart

end Program

end SignalGraph

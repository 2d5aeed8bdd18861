import SignalGraph.Proofs.Check.Verdicts
import SignalGraph.Proofs.Program.CopyTyping

/-!
# SignalGraph.Proofs.Check.CopiedBlocks

The rule on block parameters in copied functions.  A function whose branches pass what their targets
expect has a copy with the same property, unless a branch passes a value whose type still mentions a
struct of the module: the copied target expects the copy of the struct (`specialiseModule_types`).
-/

namespace SignalGraph

/-- What a branch passes to its target. -/
def Terminator.args : Terminator → List Expr
  | .branch _ args => args
  | .branchIf _ _ ts _ fs => ts ++ fs
  | .returnVoid | .returnValue _ => []

/-- What the branches of a function pass to blocks. -/
def Function.branchArgs (f : Function) : List Expr := f.blocks.toList.flatMap (·.terminator.args)

/-- The block of a copied function at the place of one of the function. -/
theorem Function.Renames.block {r : Renaming} {f f' : Function} (h : f.labelled.Renames r f')
    {k : BlockId} {b : Block} (hb : f.blocks.get? k = some b) :
    ∃ b', b.labelled.Renames r b' ∧ f'.blocks.get? k = some b' := by
  have hget := Arena.get?_of_rename h.blocks k
  rw [Arena.get?_eq_getElem?, labelled, Arena.toList_ofList, List.getElem?_map,
    ← Arena.get?_eq_getElem?, hb] at hget
  obtain ⟨b', hrename, hb'⟩ : ∃ b', b.labelled.rename r = some b' ∧ some b' = f'.blocks.get? k := by
    simpa using hget
  exact ⟨b', Block.rename_eq_some_iff.mp hrename, hb'.symm⟩

namespace Check

open Program

variable {p q : Program} {id : FunctionId} {f : Function}

/-! ## What the rule asks -/

/-- The values fit the parameters of the target, one by one. -/
def Fits (p : Program) (f : Function) (target : BlockId) (args : List Expr) : Prop :=
  ∃ b, f.blocks.get? target = some b ∧
    List.Forall₂ (fun v e => (p.variableAt v).ty.canSilentlyCast (p.exprType e)) b.parameters args

theorem checkBranch_eq_ok_iff {span : Span} {target : BlockId} {args : List Expr} :
    checkBranch p id f span target args = .ok () ↔ Fits p f target args := by
  unfold checkBranch Fits
  cases f.blocks.get? target with
  | none => simp
  | some b =>
      simp only [verdict_bind_eq_ok, refuse_eq_ok_iff, each_eq_ok_iff, List.forall₂_iff_zip]
      simp

/-- What the rule asks of the end of a block. -/
def EndsWell (p : Program) (f : Function) : Terminator → Prop
  | .branch target args => Fits p f target args
  | .branchIf _ ifTrue trueArgs ifFalse falseArgs =>
    (trueArgs = [] ∧ falseArgs = []) ∧ Fits p f ifTrue [] ∧ Fits p f ifFalse []
  | .returnVoid | .returnValue _ => True

theorem checkTerminator_eq_ok_iff {b : Block} :
    checkTerminator p id f b = .ok () ↔ EndsWell p f b.terminator := by
  unfold checkTerminator EndsWell
  cases b.terminator <;>
    simp [verdict_bind_eq_ok, refuse_eq_ok_iff, checkBranch_eq_ok_iff]

/-- What the rule asks of a block. -/
structure BlockKept (p : Program) (f : Function) (b : Block) : Prop where
  parameters : ∀ v ∈ b.parameters,
    (p.variableAt v).ty.isVoid = false ∧ (p.variableAt v).ty.isReference = false
  terminator : EndsWell p f b.terminator

theorem checkBlockParameters_eq_ok_iff {b : Block} : checkBlockParameters p b = .ok () ↔
    ∀ v ∈ b.parameters,
      (p.variableAt v).ty.isVoid = false ∧ (p.variableAt v).ty.isReference = false := by
  simp [checkBlockParameters, each_eq_ok_iff, refuse_eq_ok_iff]

theorem checkBlocks_eq_ok_iff : checkBlocks p id f = .ok () ↔
    (∀ b ∈ f.blocks.toList.head?, b.parameters = []) ∧ ∀ b ∈ f.blocks.toList, BlockKept p f b := by
  have hall : (∀ b ∈ f.blocks.toList, BlockKept p f b) ↔
      (f.blocks.toList |> each (checkBlockParameters p)) = .ok () ∧
        (f.blocks.toList |> each (checkTerminator p id f)) = .ok () := by
    simp only [each_eq_ok_iff, checkBlockParameters_eq_ok_iff, checkTerminator_eq_ok_iff]
    exact ⟨fun h => ⟨fun b hb => (h b hb).parameters, fun b hb => (h b hb).terminator⟩,
      fun h b hb => ⟨h.1 b hb, h.2 b hb⟩⟩
  rw [hall]
  unfold checkBlocks
  cases f.blocks.toList with
  | nil => simp [verdict_bind_eq_ok]
  | cons entry rest => simp [verdict_bind_eq_ok, refuse_eq_ok_iff]

/-! ## Copies -/

/-- Values of two lists that fit one by one, and what becomes of them. -/
theorem forall₂_iff_forall {α β γ δ : Type} {R : α → β → Prop} {A : α → γ → Prop}
    {B : β → δ → Prop} {S : γ → δ → Prop} {T : β → Prop} {l : List α} {m : List β} {l' : List γ}
    {m' : List δ} (h : List.Forall₂ R l m) (hl : List.Forall₂ A l l') (hm : List.Forall₂ B m m')
    (hiff : ∀ {x y x' y'}, R x y → A x x' → B y y' → (S x' y' ↔ T y)) :
    List.Forall₂ S l' m' ↔ ∀ y ∈ m, T y := by
  induction h generalizing l' m' with
  | nil =>
      cases hl
      cases hm
      simp
  | cons hxy _ ih =>
      cases hl with
      | cons hx hl =>
          cases hm with
          | cons hy hm => simp [hiff hxy hx hy, ih hl hm]

theorem forall_iff_of_forall₂ {α β : Type} {R : α → β → Prop} {S : β → Prop} {T : α → Prop}
    {l : List α} {l' : List β} (h : List.Forall₂ R l l')
    (hiff : ∀ x ∈ l, ∀ x', R x x' → (S x' ↔ T x)) : (∀ x' ∈ l', S x') ↔ ∀ x ∈ l, T x := by
  induction h with
  | nil => simp
  | cons hx _ ih =>
      have hrest := ih fun x hx => hiff x (List.mem_cons_of_mem _ hx)
      simp only [List.forall_mem_cons, hrest, hiff _ List.mem_cons_self _ hx]

end Check

namespace Program.CopiedApart

variable {p q : Program} {id : ModuleId} {name : String} {r : Renaming} (hp : p.WellFormed)
  (hid : id ∈ p.modules.handles) (hc : p.CopiedApart id name r q)

include hp hid hc

/-- The copy of a struct is new. -/
theorem not_owns {s s' : StructId} (hs : r.onStruct s = some s') : ¬ p.Owns id (.record s') := by
  intro hown
  have hlt := Arena.mem_handles_iff.mp (hp.struct_inRange hid hown)
  by_cases hs₀ : p.Owns id (.record s)
  · obtain ⟨y, hy, hnew⟩ := hc.fresh _ hs₀
    obtain rfl : .record s' = y := by simpa [Renaming.onReference, hs] using hy
    exact absurd hlt (Nat.not_lt.mpr hnew.1)
  · cases (hc.onStruct s hs₀).symm.trans hs
    exact hs₀ hown

omit hp hid in
/-- Distinct structs of the program have distinct names in the copy. -/
theorem replacing_inj ⦃s s' t : StructId⦄ (hs : p.replacing r s = some t)
    (hs' : p.replacing r s' = some t) : s = s' := by
  obtain ⟨_, hbelow, hs⟩ := Option.bind_eq_some_iff.mp hs
  obtain ⟨_, hbelow', hs'⟩ := Option.bind_eq_some_iff.mp hs'
  obtain ⟨hlt, rfl⟩ := Handle.below_eq_some_iff.mp hbelow
  obtain ⟨hlt', rfl⟩ := Handle.below_eq_some_iff.mp hbelow'
  -- a copy is not in range, and what is kept is
  have hnew : ∀ {a : StructId}, p.Owns id (.record a) → r.onStruct a = some t →
      p.structs.size ≤ t.idx := by
    intro a ha hat
    obtain ⟨y, hy, hnew⟩ := hc.fresh _ ha
    obtain rfl : .record t = y := by simpa [Renaming.onReference, hat] using hy
    exact hnew.1
  have hkept : ∀ {a : StructId}, ¬ p.Owns id (.record a) → r.onStruct a = some t → a = t := by
    intro a ha hat
    exact Option.some.inj ((hc.onStruct a ha).symm.trans hat)
  by_cases hown : p.Owns id (.record s) <;> by_cases hown' : p.Owns id (.record s')
  · have hsame := hc.injective (.record s) (.record s') (.record t) hown hown'
      (by simp [Renaming.onReference, hs]) (by simp [Renaming.onReference, hs'])
    exact Reference.record.inj hsame
  · have hle := hnew hown hs
    rw [← hkept hown' hs'] at hle
    exact absurd hlt' (Nat.not_lt.mpr hle)
  · have hle := hnew hown' hs'
    rw [← hkept hown hs] at hle
    exact absurd hlt (Nat.not_lt.mpr hle)
  · rw [hkept hown hs, hkept hown' hs']

/-- A value that fits a variable of the module: its copy fits the copy of the variable unless its
type is stale. -/
theorem canSilentlyCast_iff {t t' u' : Ty} {e : Expr} (ht : Ty.Replaced (p.replacing r) t t')
    (hu : TypeCopied (p.replacing r) (p.borrows id e) (p.exprType e) u')
    (hfits : t.canSilentlyCast (p.exprType e)) :
    t'.canSilentlyCast u' ↔ p.stale id e = false := by
  have hcases := type_of_typeCopied hc hu
  obtain ⟨u, hreplaced, -⟩ := hu
  cases hstale : p.stale id e with
  | false =>
      have hsame : u' = u := by
        have hu' : r.onTy (p.exprType e) = some u' := by simpa [hstale] using hcases
        exact Option.some.inj (hu'.symm.trans (onTy_of_replaced hreplaced))
      rw [hsame, ht.canSilentlyCast (replacing_inj hc) hreplaced]
      simpa using hfits
  | true =>
      have hkept : u' = p.exprType e := by simpa [hstale] using hcases
      obtain ⟨-, hmentions⟩ := Bool.and_eq_true_iff.mp hstale
      obtain ⟨s, hown, hs⟩ := List.any_eq_true.mp hmentions
      have hs : .record s ∈ u'.mentions := hkept ▸ List.contains_iff_mem.mp hs
      -- the copied variable mentions no struct of the module
      have hnot : ¬ t'.canSilentlyCast u' := by
        intro hcast
        have htracks := (Ty.mentions_tracks r some).mapM (onTy_of_replaced ht)
        obtain ⟨x, -, hx⟩ := exists_mem_of_mapM htracks (Ty.mentions_of_isSilent hcast hs)
        obtain ⟨s₀, -, hs₀⟩ := Renaming.onReference_eq_record.mp hx
        exact not_owns hp hid hc hs₀ hown
      simpa using hnot

section

variable {f f' : FunctionId} (hf : f ∈ (p.moduleAt id).functions)
  (hf' : r.onFunction f = some f')

include hf

omit hid in
theorem parameter_replaced {b : Block} (hb : b ∈ (p.functionAt f).blocks.toList) {v v' : VariableId}
    (hv : v ∈ b.parameters)
    (hv' : (r.restrict (p.scope (p.functionAt f))).onVariable v = some v') :
    Ty.Replaced (p.replacing r) (p.variableAt v).ty (q.variableAt v').ty := by
  have hown : v ∈ p.ownVars id := by
    refine List.mem_append_right _ (List.mem_append_right _ (List.mem_flatMap.mpr ⟨f, hf, ?_⟩))
    exact List.mem_flatMap.mpr ⟨b, hb, hv⟩
  obtain ⟨u, hu, htype⟩ := (copiesTypes hp hc (p.functionAt f)).vars v v' hv'
  rw [List.contains_iff_mem.mpr hown] at htype
  rw [htype]
  exact hu

include hf'

/-- Branches of a copy pass what is expected, unless a value is stale. -/
theorem fits_iff {target target' : BlockId} {args args' : List Expr}
    (htarget : (r.restrict (p.scope (p.functionAt f))).onBlock target = some target')
    (hargs : Expr.renameList (r.restrict (p.scope (p.functionAt f))).renamer args = some args')
    (h : Check.Fits p (p.functionAt f) target args) :
    Check.Fits q (q.functionAt f') target' args' ↔ ∀ e ∈ args, p.stale id e = false := by
  obtain ⟨b, hb, hfits⟩ := h
  obtain rfl : target' = target := by
    obtain ⟨k, hk, htarget⟩ := Option.bind_eq_some_iff.mp htarget
    cases (Option.ite_none_right_eq_some.mp hk).2
    exact Option.some.inj (htarget.symm.trans (hc.onBlock target))
  have hcopy := renames hp hc hf hf' (hp.function_inRange hid hf)
  obtain ⟨b', hrename, hb'⟩ := hcopy.block hb
  have hparams := mapM_eq_some_iff_forall₂.mp hrename.parameters
  rw [Expr.renameList_eq_mapM, mapM_eq_some_iff_forall₂] at hargs
  have hmem := Arena.mem_toList_iff.mpr ⟨target', hb⟩
  simp only [Check.Fits, hb', Option.some.injEq, exists_eq_left']
  refine Check.forall₂_iff_forall hfits
    ((List.forall₂_and_left _ _).mpr ⟨fun v hv => hv, hparams⟩) hargs ?_
  intro v e v' e' hcast hv he
  exact canSilentlyCast_iff hp hid hc (parameter_replaced hp hc hf hmem hv.1 hv.2)
    ((copiesTypes hp hc (p.functionAt f)).exprType he) hcast

/-- A block and its copy. -/
theorem blockKept_iff {b b' : Block} (hb : b ∈ (p.functionAt f).blocks.toList)
    (hb' : b.labelled.Renames (r.restrict (p.scope (p.functionAt f))) b')
    (h : Check.BlockKept p (p.functionAt f) b) :
    Check.BlockKept q (q.functionAt f') b' ↔ ∀ e ∈ b.terminator.args, p.stale id e = false := by
  -- replacing structs makes no type void or a reference, so parameters are never at fault
  have hparams : ∀ v' ∈ b'.parameters,
      (q.variableAt v').ty.isVoid = false ∧ (q.variableAt v').ty.isReference = false := by
    intro v' hv'
    obtain ⟨v, hv, hvv'⟩ := exists_mem_of_mapM hb'.parameters hv'
    have hreplaced := parameter_replaced hp hc hf hb hv hvv'
    rw [hreplaced.isVoid, hreplaced.isReference]
    exact h.parameters v hv
  -- only arguments of branches are compared with types, so only their types can be stale
  have hend : Check.EndsWell q (q.functionAt f') b'.terminator ↔
      ∀ e ∈ b.terminator.args, p.stale id e = false := by
    have hterminator : b.terminator.rename
      (r.restrict (p.scope (p.functionAt f))).renamer = some b'.terminator := hb'.terminator
    have hwell := h.terminator
    generalize b.terminator = t, b'.terminator = t' at hterminator hwell
    cases t with
    | branch target args =>
        simp [Terminator.rename, Option.bind_eq_some_iff] at hterminator
        obtain ⟨target', htarget, args', hargs, rfl⟩ := hterminator
        exact fits_iff hp hid hc hf hf' htarget hargs hwell
    | branchIf c ifTrue ts ifFalse fs =>
        simp [Terminator.rename, Option.bind_eq_some_iff] at hterminator
        obtain ⟨c', hcond, t, ht, g, hg, ts', hts, fs', hfs, rfl⟩ := hterminator
        obtain ⟨⟨rfl, rfl⟩, htrue, hfalse⟩ := hwell
        cases hts
        cases hfs
        have htrue := (fits_iff hp hid hc hf hf' ht rfl htrue).mpr (by simp)
        have hfalse := (fits_iff hp hid hc hf hf' hg rfl hfalse).mpr (by simp)
        simp [Check.EndsWell, Terminator.args, htrue, hfalse]
    | returnVoid =>
        cases hterminator
        simp [Check.EndsWell, Terminator.args]
    | returnValue v =>
        simp [Terminator.rename, Option.bind_eq_some_iff] at hterminator
        obtain ⟨v', -, rfl⟩ := hterminator
        simp [Check.EndsWell, Terminator.args]
  rw [← hend]
  exact ⟨fun h => h.terminator, fun h => ⟨hparams, h⟩⟩

/-- The copy of a function that keeps the rule keeps it too, unless a branch passes a stale
value. -/
theorem checkBlocks_iff (h : Check.checkBlocks p f (p.functionAt f) = .ok ()) :
    Check.checkBlocks q f' (q.functionAt f') = .ok () ↔
      ∀ e ∈ (p.functionAt f).branchArgs, p.stale id e = false := by
  have hcopy := renames hp hc hf hf' (hp.function_inRange hid hf)
  have hblocks := mapM_eq_some_iff_forall₂.mp (Arena.rename_eq_some_iff.mp hcopy.blocks)
  rw [Function.labelled, Arena.toList_ofList, List.forall₂_map_left_iff] at hblocks
  rw [Check.checkBlocks_eq_ok_iff] at h ⊢
  obtain ⟨hentry, hall⟩ := h
  have hcopies : (∀ b' ∈ (q.functionAt f').blocks.toList, Check.BlockKept q (q.functionAt f') b') ↔
      ∀ b ∈ (p.functionAt f).blocks.toList, ∀ e ∈ b.terminator.args, p.stale id e = false :=
    Check.forall_iff_of_forall₂ hblocks fun b hb b' hb' =>
      blockKept_iff hp hid hc hf hf' hb (Block.rename_eq_some_iff.mp hb') (hall b hb)
  have hentry' : ∀ b' ∈ (q.functionAt f').blocks.toList.head?, b'.parameters = [] := by
    generalize (p.functionAt f).blocks.toList = l, (q.functionAt f').blocks.toList = l' at *
    cases hblocks with
    | nil => simp
    | @cons b b' l l' hb _ =>
        have hparams := (Block.rename_eq_some_iff.mp hb).parameters
        have hnone : b.labelled.parameters = [] := hentry b rfl
        rw [hnone] at hparams
        rintro _ ⟨⟩
        exact (Option.some.inj hparams).symm
  rw [hcopies, and_iff_right hentry']
  simp [Function.branchArgs]
  exact ⟨fun h e b hb he => h b hb e he, fun h b hb e he => h e b hb he⟩

end

end Program.CopiedApart

namespace Check

open Program

/-- In the copy of a module every expression has its type, with the structs of the module replaced
by their copies, unless this type is read off something outside the module and mentions such a
struct; then it is kept.  The copy of a function that keeps the rule on block parameters keeps it
too exactly if no branch passes a value of the second kind. -/
theorem specialiseModule_types {p : Program} (h : p.WellFormed) {id : ModuleId}
    (hid : id ∈ p.modules.handles) (name : String) :
    ∃ q r, p.specialiseModule id name = (.ok ⟨p.modules.size⟩, q) ∧ p.CopiedApart id name r q ∧
      ∀ f ∈ (p.moduleAt id).functions, ∃ f' ∈ (q.moduleAt ⟨p.modules.size⟩).functions,
        r.onFunction f = some f' ∧
        List.Forall₂ (fun e e' => e.rename r.renamer = some e' ∧
            if p.stale id e then q.exprType e' = p.exprType e
            else r.onTy (p.exprType e) = some (q.exprType e'))
          (p.functionAt f).allExprs (q.functionAt f').allExprs ∧
        (checkBlocks p f (p.functionAt f) = .ok () →
          (checkBlocks q f' (q.functionAt f') = .ok () ↔
            ∀ e ∈ (p.functionAt f).branchArgs, p.stale id e = false)) := by
  obtain ⟨q, hrun, hcopied⟩ := h.specialiseModule_copied hid name
  have hc := h.copiedApart hid hcopied
  refine ⟨q, _, hrun, hc, fun f hf => ?_⟩
  have hmodule := Module.rename_eq_some_iff.mp hc.module
  obtain ⟨f', hf'⟩ := exists_of_mapM hmodule.functions hf
  exact ⟨f', mem_of_mapM hmodule.functions hf hf', hf',
    CopiedApart.allExprs h hc hf hf' (h.function_inRange hid hf),
    fun hkept => CopiedApart.checkBlocks_iff h hid hc hf hf' hkept⟩

/-- The branch of the processor passes a constant, so its copy keeps the rule. -/
theorem specialiseModule_types_borrowing : borrowing.WellFormed ∧
    ⟨1⟩ ∈ borrowing.modules.handles ∧
    ∃ q, borrowing.specialiseModule ⟨1⟩ "Q" = (.ok ⟨2⟩, q) ∧
      ∃ f' ∈ (q.moduleAt ⟨2⟩).functions, checkBlocks q f' (q.functionAt f') = .ok () := by
  have hid : (⟨1⟩ : ModuleId) ∈ borrowing.modules.handles := by decide
  obtain ⟨q, r, hrun, -, hfunctions⟩ := specialiseModule_types borrowing_wellFormed hid "Q"
  obtain ⟨f', hmem, -, -, hrule⟩ := hfunctions ⟨0⟩ (by decide)
  refine ⟨borrowing_wellFormed, hid, q, hrun, f', hmem, ?_⟩
  exact (hrule (by decide +kernel)).mpr fun e he => by
    cases List.mem_singleton.mp he
    rfl

/-- In `M` a branch passes what a function of `N` returns: a struct of `M`. -/
def lending : Program where
  modules := ⟨#[
    { kind := .nameSpace, name := "M", structs := [⟨0⟩], functions := [⟨0⟩] },
    { kind := .nameSpace, name := "N", functions := [⟨1⟩] }]⟩
  structs := ⟨#[{ name := "S", owner := ⟨0⟩, members := [⟨"a", .int32⟩] }]⟩
  functions := ⟨#[
    { name := "f"
      owner := ⟨0⟩
      blocks := ⟨#[
        { name := "@a", terminator := .branch ⟨1⟩ [.pureCall ⟨1⟩ []] },
        { name := "@b", parameters := [⟨0⟩] }]⟩ },
    { name := "make"
      owner := ⟨1⟩
      returns := .struct ⟨0⟩
      blocks := ⟨#[{ name := "@b", terminator := .returnValue (.const ⟨0⟩) }]⟩ }]⟩
  vars := ⟨#[{ name := "$x", ty := .struct ⟨0⟩, role := .parameter }]⟩
  constants := ⟨⟨#[.zero (.struct ⟨0⟩)]⟩⟩

theorem lending_wellFormed : lending.WellFormed where
  modules m hm := by
    obtain rfl | hm := List.mem_cons.mp hm
    · rfl
    · cases List.mem_singleton.mp hm
      rfl
  nodes := by decide
  structs := by decide
  functions f hf := by
    obtain rfl | hf := List.mem_cons.mp hf
    · rfl
    · cases List.mem_singleton.mp hf
      rfl
  vars := by decide
  structOwner := by decide
  functionOwner := by decide
  structsListed := by decide
  functionsListed := by decide
  declaredOnce := by decide
  declaredInRange := by decide

/-- The copied block expects the copy of the struct, but the function outside still returns the
struct. -/
theorem specialiseModule_lending : lending.WellFormed ∧
    checkBlocks lending ⟨0⟩ (lending.functionAt ⟨0⟩) = .ok () ∧
    ∃ q, lending.specialiseModule ⟨0⟩ "M2" = (.ok ⟨2⟩, q) ∧
      (q.moduleAt ⟨2⟩).structs = [⟨1⟩] ∧ (q.moduleAt ⟨2⟩).functions = [⟨2⟩] ∧
      (q.functionAt ⟨2⟩).branchArgs.map q.exprType = [.struct ⟨0⟩] ∧
      checkBlocks q ⟨2⟩ (q.functionAt ⟨2⟩) ≠ .ok () := by
  have hrun : (lending.specialiseModule ⟨0⟩ "M2").1 = .ok ⟨2⟩ := by decide +kernel
  refine ⟨lending_wellFormed,
    by decide +kernel, (lending.specialiseModule ⟨0⟩ "M2").2, ?_, ?_, ?_, ?_, ?_⟩
  · rw [← hrun]
  all_goals decide +kernel

end Check

end SignalGraph

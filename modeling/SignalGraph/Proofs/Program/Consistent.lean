import SignalGraph.Proofs.Program.Additions
import SignalGraph.Proofs.Program.CopyClosed

/-!
# SignalGraph.Proofs.Program.Consistent

Consistent programs: every handle that they contain leads to an entry, everything is listed once by
its owner, no variable is declared in two places, and function bodies mention only variables that
they can see.  These are the intact programs (`consistent_iff`): renaming by the identity on what is
there accepts a part exactly if it accepts all that the part mentions.
-/

namespace SignalGraph

/-! ## Which kinds of handles are mentioned -/

/-- Types mention structs only. -/
theorem Ty.mem_mentions {t : Ty} {x : Reference} (h : x ∈ t.mentions) : ∃ s, x = .record s := by
  induction t with
  | struct s => exact ⟨s, List.mem_singleton.mp h⟩
  | array t _ ih | const t ih | ref t ih => exact ih h
  | prim _ | vector _ _ | string => cases h

/-- Whatever is no struct is not mentioned by a type. -/
theorem Ty.not_mem_mentions {t : Ty} {x : Reference} (h : ∀ s, x ≠ .record s) : x ∉ t.mentions :=
  fun hx => (mem_mentions hx).elim h

mutual

/-- Expressions mention no blocks. -/
theorem Expr.block_not_mem_mentions (b : BlockId) : ∀ e : Expr, .block b ∉ e.mentions
  | .var v | .const c | .property _ => by simp [Expr.mentions]
  | .element e _ | .member e _ | .slice e _ _ | .unary _ e => by
      simpa [Expr.mentions] using block_not_mem_mentions b e
  | .elementAt l r | .binary _ l r => by
      simp [Expr.mentions, block_not_mem_mentions b l, block_not_mem_mentions b r]
  | .cast t e => by
      have ht : Reference.block b ∉ t.mentions := Ty.not_mem_mentions (by simp)
      simp [Expr.mentions, ht, block_not_mem_mentions b e]
  | .pureCall f args => by
      simp [Expr.mentions, block_not_mem_mentionsList b args]

/-- Expressions mention no blocks. -/
theorem Expr.block_not_mem_mentionsList (b : BlockId) :
    ∀ es : List Expr, .block b ∉ Expr.mentionsList es
  | [] => by simp [Expr.mentionsList]
  | e :: es => by
      simp [Expr.mentionsList, block_not_mem_mentions b e, block_not_mem_mentionsList b es]

end

/-- Statements mention no blocks. -/
theorem Statement.block_not_mem_mentions (b : BlockId) (s : Statement) : .block b ∉ s.mentions := by
  have hexpr := Expr.block_not_mem_mentions b
  have hlist := Expr.block_not_mem_mentionsList b
  cases s <;> simp [Statement.mentions, hexpr, hlist]

/-- A terminator mentions the blocks that it may lead to. -/
theorem Terminator.block_mem_mentions {b : BlockId} {t : Terminator} :
    .block b ∈ t.mentions ↔ b ∈ t.successors := by
  have hexpr := Expr.block_not_mem_mentions b
  have hlist := Expr.block_not_mem_mentionsList b
  cases t <;> simp [Terminator.mentions, Terminator.successors, hexpr, hlist]

/-- A struct mentions its owner and structs. -/
theorem Structure.mem_mentions {s : Structure} {x : Reference} (h : x ∈ s.mentions) :
    (∃ m, x = .mod m) ∨ ∃ t, x = .record t := by
  simp only [Structure.mentions, List.mem_cons, List.mem_flatMap] at h
  obtain rfl | ⟨m, -, hx⟩ := h
  · exact .inl ⟨_, rfl⟩
  · exact .inr (Ty.mem_mentions hx)

/-- A variable mentions structs and constants. -/
theorem Variable.mem_mentions {v : Variable} {x : Reference} (h : x ∈ v.mentions) :
    (∃ t, x = .record t) ∨ ∃ c, x = .const c := by
  simp only [Variable.mentions, Annotations.mentions, List.mem_append, List.mem_map] at h
  obtain hx | ⟨c, -, rfl⟩ | ⟨y, -, rfl⟩ := h
  · exact .inl (Ty.mem_mentions hx)
  · exact .inr ⟨c, rfl⟩
  · exact .inr ⟨y.2, rfl⟩

/-- What the code of a block mentions. -/
def Block.code (b : Block) : List Reference :=
  b.statements.flatMap Statement.mentions ++ b.terminator.mentions

/-- A module mentions the variables that it declares. -/
theorem Module.var_mem_mentions {m : Module} {v : VariableId} :
    .var v ∈ m.mentions ↔ v ∈ m.parameters ++ m.state := by
  have hty : ∀ t : Ty, Reference.var v ∉ t.mentions := fun t => Ty.not_mem_mentions (by simp)
  simp [Module.mentions, Annotations.mentions, Endpoint.mentions, Node.mentions, hty, or_comm]

/-- Modules mention no blocks. -/
theorem Module.block_not_mem_mentions {m : Module} (b : BlockId) : .block b ∉ m.mentions := by
  have hty : ∀ t : Ty, Reference.block b ∉ t.mentions := fun t => Ty.not_mem_mentions (by simp)
  simp [Module.mentions, Annotations.mentions, Endpoint.mentions, Node.mentions, hty]

/-- A function mentions the variables that it declares and those in its code. -/
theorem Function.var_mem_mentions {f : Function} {v : VariableId} :
    .var v ∈ f.mentions ↔ v ∈ f.declared ∨ ∃ b ∈ f.blocks.toList, .var v ∈ b.code := by
  have hty : Reference.var v ∉ f.returns.mentions := Ty.not_mem_mentions (by simp)
  simp only [Function.mentions, Function.declared, Block.mentions, Block.code, Annotations.mentions,
    List.mem_cons, List.mem_append, List.mem_flatMap, List.mem_map]
  grind

/-- A function mentions the blocks that its blocks may lead to. -/
theorem Function.block_mem_mentions {f : Function} {b : BlockId} :
    .block b ∈ f.mentions ↔ ∃ k ∈ f.blocks.toList, b ∈ k.terminator.successors := by
  have hty : Reference.block b ∉ f.returns.mentions := Ty.not_mem_mentions (by simp)
  simp [Function.mentions, Block.mentions, Annotations.mentions, hty,
    Statement.block_not_mem_mentions, Terminator.block_mem_mentions]

namespace Program

/-! ## Consistent programs -/

/-- The handle leads to an entry of its table.  Blocks are no entries of the program. -/
def Holds (p : Program) : Reference → Prop
  | .mod id => id.idx < p.modules.size
  | .record id => id.idx < p.structs.size
  | .func id => id.idx < p.functions.size
  | .var id => id.idx < p.vars.size
  | .const id => id.idx < p.constants.size
  | .text id => id.idx < p.texts.size
  | .block _ => True

/-- All handles that the entries of a program mention. -/
def allMentions (p : Program) : List Reference :=
  p.modules.toList.flatMap Module.mentions ++ (p.structs.toList.flatMap Structure.mentions ++
    (p.functions.toList.flatMap Function.mentions ++ (p.vars.toList.flatMap Variable.mentions ++
      p.constants.toList.flatMap Value.mentions)))

structure Consistent (p : Program) : Prop where
  /-- Every handle leads to an entry. -/
  inRange : ∀ x ∈ p.allMentions, p.Holds x
  /-- The ends of a connection are at nodes of the same module. -/
  nodes : ∀ m ∈ p.modules.toList, m.Wired
  /-- Branches go to blocks of the same function. -/
  targets : ∀ f ∈ p.functions.toList, ∀ k ∈ f.blocks.toList, ∀ b ∈ k.terminator.successors,
    b.idx < f.blocks.size
  /-- What the modules list, each with the module, are the structs, each with its owner. -/
  structs : (p.listing (·.structs)).Perm (p.structs.owners (·.owner))
  functions : (p.listing (·.functions)).Perm (p.functions.owners (·.owner))
  declaredOnce : p.declared.Nodup
  /-- Code mentions variables of modules and of its own function. -/
  visible : ∀ f ∈ p.functions.toList, ∀ k ∈ f.blocks.toList, ∀ v, .var v ∈ k.code →
    v ∈ p.visibleTo f

/-! ## From renaming to handles -/

section

variable {p : Program}

/-- The identity on what is there and on all blocks. -/
def everything (p : Program) : Renaming := { p.inRange with onBlock := some }

/-- What is in range is held by the program. -/
theorem inRange_le_everything (p : Program) : p.inRange.Le p.everything :=
  ⟨fun _ _ h => h, fun _ _ h => h, fun _ _ h => h, fun _ _ h => h, fun _ _ h => h,
    fun _ _ h => by cases h⟩

/-- What a function sees is held by the program or the function. -/
theorem scope_le_everything (p : Program) (f : Function) : (p.scope f).Le p.everything where
  onModule _ _ h := h
  onStruct _ _ h := h
  onFunction _ _ h := h
  onVariable _ _ h := (Option.ite_none_right_eq_some.mp h).2
  onConstant _ _ h := h
  onBlock _ _ h := (Option.ite_none_right_eq_some.mp h).2

/-- In a well-formed program a reference that some scope leaves as it is leads to an entry. -/
theorem WellFormed.holds (hp : p.WellFormed) {r : Renaming} (hr : r.Le p.everything) {x : Reference}
    (hx : r.onReference (CopySource.present p) x = some x) : p.Holds x := by
  cases x with
  | mod id =>
      obtain ⟨_, h, -⟩ := Option.map_eq_some_iff.mp hx
      exact (Handle.below_eq_some_iff.mp (hr.onModule h)).1
  | record id =>
      obtain ⟨_, h, -⟩ := Option.map_eq_some_iff.mp hx
      exact (Handle.below_eq_some_iff.mp (hr.onStruct h)).1
  | func id =>
      obtain ⟨_, h, -⟩ := Option.map_eq_some_iff.mp hx
      exact (Handle.below_eq_some_iff.mp (hr.onFunction h)).1
  | var v =>
      obtain ⟨_, h, -⟩ := Option.map_eq_some_iff.mp hx
      exact hp.declaredInRange v (Handle.among_eq_some_iff.mp (hr.onVariable h)).1
  | const c =>
      obtain ⟨_, h, -⟩ := Option.map_eq_some_iff.mp hx
      obtain ⟨-, v, -, hv, -⟩ := sound_eq_some_iff.mp (hr.onConstant h)
      exact Arena.lt_size_of_get? hv
  | text t =>
      obtain ⟨_, h, -⟩ := Option.map_eq_some_iff.mp hx
      obtain ⟨-, text, htext⟩ := present_eq_some_iff.mp h
      exact Arena.lt_size_of_get? htext
  | block b => trivial

/-- What a part mentions that is renamed to itself. -/
theorem onReference_of_mem {α : Type} {mentions : α → List Reference} {f : α → Option α}
    {g : Reference → Option Reference} (h : Tracks mentions f g) {a : α} (ha : f a = some a)
    {x : Reference} (hx : x ∈ mentions a) : g x = some x :=
  eq_some_of_mapM_self (h.mapM ha) hx

/-- An intact program is consistent: its scopes leave every reference as it is. -/
theorem Intact.consistent (hp : p.Intact) : p.Consistent := by
  have hwf := hp.wellFormed
  have hfunction : ∀ f ∈ p.functions.toList, ∀ x ∈ f.mentions,
      (p.scope f).onReference (CopySource.present p) x = some x :=
    fun f hf x hx => onReference_of_mem (Function.mentions_tracks _ _) (hwf.functions f hf) hx
  refine {
    inRange := fun x hx => ?_
    nodes := hwf.nodes
    targets := fun f hf k hk b hb => ?_
    structs := listing_perm_iff.mpr ⟨hwf.structOwner, hwf.structsListed⟩
    functions := listing_perm_iff.mpr ⟨hwf.functionOwner, hwf.functionsListed⟩
    declaredOnce := hwf.declaredOnce
    visible := fun f hf k hk v hv => ?_ }
  · simp only [allMentions, List.mem_append, List.mem_flatMap] at hx
    obtain ⟨m, hm, hx⟩ | ⟨s, hs, hx⟩ | ⟨f, hf, hx⟩ | ⟨v, hv, hx⟩ | ⟨v, hv, hx⟩ := hx
    · exact hwf.holds p.inRange_le_everything
        (onReference_of_mem (Module.mentions_tracks _ _) (hwf.modules m hm) hx)
    · exact hwf.holds p.inRange_le_everything
        (onReference_of_mem (Structure.mentions_tracks _ _) (hwf.structs s hs) hx)
    · exact hwf.holds (p.scope_le_everything f) (hfunction f hf x hx)
    · exact hwf.holds p.inRange_le_everything
        (onReference_of_mem (Variable.mentions_tracks _ _) (hwf.vars v hv) hx)
    · obtain ⟨v', hv'⟩ := hp.constants v hv
      cases eq_of_mapParts_inRange hv'
      have htracks := Value.mentions_tracks p.inRange (CopySource.present p)
      exact hwf.holds p.inRange_le_everything (onReference_of_mem htracks hv' hx)
  -- blocks and variables: their scope is read off from the identity that `scope` is
  · have hx := hfunction f hf _ (Function.block_mem_mentions.mpr ⟨k, hk, hb⟩)
    obtain ⟨_, h, -⟩ := Option.map_eq_some_iff.mp hx
    exact (scope_onBlock.mp h).1
  · have hx := hfunction f hf _ (Function.var_mem_mentions.mpr (.inr ⟨k, hk, hv⟩))
    obtain ⟨_, h, -⟩ := Option.map_eq_some_iff.mp hx
    exact (scope_onVariable.mp h).1

/-! ## From handles to renaming -/

/-- What all scopes share is in range. -/
theorem common_le_inRange (p : Program) : p.common.Le p.inRange where
  onModule _ _ h := h
  onStruct _ _ h := h
  onFunction _ _ h := h
  onVariable _ _ h := (Option.ite_none_right_eq_some.mp h).2
  onConstant _ _ h := h
  onBlock b _ h := by simp [common, Renaming.within] at h

/-- What all scopes share is seen by each function. -/
theorem common_le_scope (p : Program) (f : Function) : p.common.Le (p.scope f) where
  onModule _ _ h := h
  onStruct _ _ h := h
  onFunction _ _ h := h
  onVariable v _ h := by
    obtain ⟨hv, h⟩ := Option.ite_none_right_eq_some.mp h
    exact Option.ite_none_right_eq_some.mpr ⟨List.mem_append_left _ hv, h⟩
  onConstant _ _ h := h
  onBlock b _ h := by simp [common, Renaming.within] at h

/-- What a smaller renaming than one that changes nothing has a name for, it leaves as it is. -/
theorem eq_self_of_extends {α : Type} {f i : α → Option α} (h : Extends f i) (hi : Keeps i) {a : α}
    (ha : ∃ b, f a = some b) : f a = some a := by
  obtain ⟨b, hb⟩ := ha
  cases (hi a).symm.trans (h hb)
  exact hb

/-- All kinds of handles but variables and blocks are known if they lead to an entry. -/
theorem onReference_defined (hconstants : ∀ v ∈ p.constants.toList, SoundValue p v) {r : Renaming}
    (hle : p.common.Le r) {x : Reference} (hx : p.Holds x)
    (hvar : ∀ v, x = .var v → r.onVariable v = some v)
    (hblock : ∀ b, x = .block b → r.onBlock b = some b) :
    ∃ y, r.onReference (CopySource.present p) x = some y := by
  cases x with
  | mod id =>
      have hid := hle.onModule (Handle.below_eq_some_iff.mpr ⟨hx, rfl⟩)
      exact ⟨.mod id, by simp [Renaming.onReference, hid]⟩
  | record id =>
      have hid := hle.onStruct (Handle.below_eq_some_iff.mpr ⟨hx, rfl⟩)
      exact ⟨.record id, by simp [Renaming.onReference, hid]⟩
  | func id =>
      have hid := hle.onFunction (Handle.below_eq_some_iff.mpr ⟨hx, rfl⟩)
      exact ⟨.func id, by simp [Renaming.onReference, hid]⟩
  | var v => exact ⟨.var v, by simp [Renaming.onReference, hvar v rfl]⟩
  | const c =>
      have hget : p.constants.get? c = some (p.constantAt c) := Arena.get?_eq_some_get hx
      have hsound := hconstants _ (Arena.mem_toList_iff.mpr ⟨c, hget⟩)
      have hc := hle.onConstant (sound_iff.mpr ⟨_, hget, hsound⟩)
      exact ⟨.const c, by simp [Renaming.onReference, hc]⟩
  | text t =>
      have hget : p.texts.get? t = some (p.texts.entries.get t) := Arena.get?_eq_some_get hx
      have ht : CopySource.present p t = some t := present_eq_some_iff.mpr ⟨rfl, _, hget⟩
      exact ⟨.text t, by simp [Renaming.onReference, ht]⟩
  | block b => exact ⟨.block b, by simp [Renaming.onReference, hblock b rfl]⟩

/-- The constants of a consistent program are sound, those included that nothing mentions. -/
theorem Consistent.soundValue (h : p.Consistent) : ∀ v ∈ p.constants.toList, SoundValue p v := by
  intro v hv
  -- values mention structs and texts only, so nothing has to be known about other handles
  let r : Renaming := { Renaming.identity with onStruct := (·.below p.structs.size) }
  have htracks : Tracks Value.mentions (Value.mapParts r.onTy (CopySource.present p))
      (r.onReference (CopySource.present p)) := Value.mentions_tracks r _
  refine htracks.defined fun x hx => ?_
  have hholds : p.Holds x := h.inRange x (by
    simp only [allMentions, List.mem_append, List.mem_flatMap]
    exact .inr (.inr (.inr (.inr ⟨v, hv, hx⟩))))
  cases x with
  | record id =>
      have hid : id.below p.structs.size = some id := Handle.below_eq_some_iff.mpr ⟨hholds, rfl⟩
      exact ⟨.record id, by simp [Renaming.onReference, r, hid]⟩
  | text t =>
      have hget : p.texts.get? t = some (p.texts.entries.get t) := Arena.get?_eq_some_get hholds
      have ht : CopySource.present p t = some t := present_eq_some_iff.mpr ⟨rfl, _, hget⟩
      exact ⟨.text t, by simp [Renaming.onReference, ht]⟩
  | mod _ | func _ | var _ | const _ | block _ => exact ⟨_, rfl⟩

/-- A variable is declared by a module or by a function. -/
theorem mem_declared_iff {v : VariableId} : v ∈ p.declared ↔
    (∃ m ∈ p.modules.toList, v ∈ m.parameters ++ m.state) ∨
      ∃ f ∈ p.functions.toList, v ∈ f.declared := by
  rw [p.declared_perm.mem_iff, List.mem_append, allModuleVars_gather, allFunctionVars,
    ← Arena.map_get_handles, ← Arena.map_get_handles]
  simp [Arena.gather]

/-- A consistent program is intact: from references that lead to entries the scopes are put together
again. -/
theorem Consistent.intact (h : p.Consistent) : p.Intact := by
  have hconstants := h.soundValue
  have hidentity := p.inRange_le_identity
  have hstructs := listing_perm_iff.mp h.structs
  have hfunctions := listing_perm_iff.mp h.functions
  have hinRange := h.inRange
  simp only [allMentions, List.mem_append, List.mem_flatMap] at hinRange
  refine ⟨{
    modules := fun m hm => ?_
    nodes := h.nodes
    structs := fun s hs => ?_
    functions := fun f hf => ?_
    vars := fun v hv => ?_
    structOwner := hstructs.1
    functionOwner := hfunctions.1
    structsListed := hstructs.2
    functionsListed := hfunctions.2
    declaredOnce := h.declaredOnce
    declaredInRange := fun v hv => ?_ }, hconstants⟩
  -- for each kind of entry: renaming is the identity where it is defined, and it is defined since
  -- all mentions are
  · refine eq_self_of_extends hidentity.module Module.rename_keeps
      ((Module.mentions_tracks p.inRange (CopySource.present p)).defined fun x hx => ?_)
    refine onReference_defined hconstants p.common_le_inRange (hinRange x (.inl ⟨m, hm, hx⟩)) ?_ ?_
    · rintro v rfl
      have hv := mem_declared_iff.mpr (.inl ⟨m, hm, Module.var_mem_mentions.mp hx⟩)
      exact Handle.among_eq_some_iff.mpr ⟨hv, rfl⟩
    · rintro b rfl
      exact absurd hx (Module.block_not_mem_mentions b)
  · refine eq_self_of_extends hidentity.struct Structure.rename_keeps
      ((Structure.mentions_tracks p.inRange (CopySource.present p)).defined fun x hx => ?_)
    have hkind := Structure.mem_mentions hx
    refine onReference_defined hconstants p.common_le_inRange
      (hinRange x (.inr (.inl ⟨s, hs, hx⟩))) ?_ ?_
    · rintro v rfl
      simp at hkind
    · rintro b rfl
      simp at hkind
  · have hle := Renaming.within_le_identity hidentity (p.visibleTo f) f.blocks.size
    refine eq_self_of_extends hle.function Function.rename_keeps
      ((Function.mentions_tracks (p.scope f) (CopySource.present p)).defined fun x hx => ?_)
    refine onReference_defined hconstants (p.common_le_scope f)
      (hinRange x (.inr (.inr (.inl ⟨f, hf, hx⟩)))) ?_ ?_
    · rintro v rfl
      -- what a function mentions is declared by itself or by a module
      have hv : v ∈ p.visibleTo f := by
        rcases Function.var_mem_mentions.mp hx with hv | ⟨k, hk, hv⟩
        · exact List.mem_append_right _ hv
        · exact h.visible f hf k hk v hv
      refine scope_onVariable.mpr ⟨hv, ?_, rfl⟩
      rcases List.mem_append.mp hv with hv | hv
      · exact List.mem_append_left _ hv
      · exact mem_declared_iff.mpr (.inr ⟨f, hf, hv⟩)
    · rintro b rfl
      obtain ⟨k, hk, hb⟩ := Function.block_mem_mentions.mp hx
      exact scope_onBlock.mpr ⟨h.targets f hf k hk b hb, rfl⟩
  · refine eq_self_of_extends hidentity.variable Variable.rename_keeps
      ((Variable.mentions_tracks p.inRange (CopySource.present p)).defined fun x hx => ?_)
    have hkind := Variable.mem_mentions hx
    refine onReference_defined hconstants p.common_le_inRange
      (hinRange x (.inr (.inr (.inr (.inl ⟨v, hv, hx⟩))))) ?_ ?_
    · rintro v rfl
      simp at hkind
    · rintro b rfl
      simp at hkind
  -- a declared variable is mentioned where it is declared
  · rcases mem_declared_iff.mp hv with ⟨m, hm, hv⟩ | ⟨f, hf, hv⟩
    · exact hinRange (.var v) (.inl ⟨m, hm, Module.var_mem_mentions.mpr hv⟩)
    · exact hinRange (.var v) (.inr (.inr (.inl ⟨f, hf, Function.var_mem_mentions.mpr (.inl hv)⟩)))

/-- Consistency, which speaks of single references, is the invariant that the proofs use. -/
theorem consistent_iff : p.Consistent ↔ p.Intact := ⟨Consistent.intact, Intact.consistent⟩

end

end Program

end SignalGraph

import SignalGraph.Program.Copy
import SignalGraph.Proofs.Program.Renaming

/-!
# SignalGraph.Proofs.Program.Copying

How copying runs, and what it does to references.

* `Copy.Gives` says that a step of copying succeeds and what holds of its answer and of the state
  it leaves; there is one rule for each way to put steps together;
* `CopySource.names` is what the copies made so far do to handles;
* the steps that copy references answer what the renaming answers (`Expr.rename_gives` and the
  like).  All that they add to the destination are constants and texts (`Interned`).
-/

namespace SignalGraph

/-! ## Running a copy -/

namespace Copy

variable {α β : Type}

/-- The outcome of copying and the state it leaves. -/
def apply (x : Copy α) (s : CopyState) : Except InternalError α × CopyState := x.run.run s

/-- The step succeeds, with an answer and a state of which `post` holds. -/
def Gives (x : Copy α) (s : CopyState) (post : α → CopyState → Prop) : Prop :=
  ∃ a s', x.apply s = (.ok a, s') ∧ post a s'

variable {x : Copy α} {s : CopyState} {post : α → CopyState → Prop}

/-- What is answered at once holds of the state as it is. -/
theorem gives_pure {a : α} (h : post a s) : Gives (pure a) s post := ⟨a, s, rfl, h⟩

theorem gives_get {post : CopyState → CopyState → Prop} (h : post s s) : Gives get s post :=
  ⟨s, s, rfl, h⟩

/-- A change to the destination succeeds. -/
theorem gives_modifyDest {f : Program → Program} {post : Unit → CopyState → Prop}
    (h : post () { s with dest := f s.dest }) : Gives (modifyDest f) s post := ⟨(), _, rfl, h⟩

/-- Noting a copy succeeds. -/
theorem gives_modifyCopies {f : Copies → Copies} {post : Unit → CopyState → Prop}
    (h : post () { s with copies := f s.copies }) : Gives (modifyCopies f) s post := ⟨(), _, rfl, h⟩

/-- Adding to the destination succeeds with the handle of the new entry. -/
theorem gives_add {f : Program → α × Program}
    (h : post (f s.dest).1 { s with dest := (f s.dest).2 }) : Gives (add f) s post := ⟨_, _, rfl, h⟩

/-- What a copier gives, it gives under every weaker description. -/
theorem Gives.mono {post' : α → CopyState → Prop} (h : Gives x s post)
    (himp : ∀ a s', post a s' → post' a s') : Gives x s post' := by
  obtain ⟨a, s', hx, hpost⟩ := h
  exact ⟨a, s', hx, himp a s' hpost⟩

/-- One copier after another: the second runs in the state of the first, unless that failed. -/
theorem apply_bind (x : Copy α) (f : α → Copy β) (s : CopyState) :
    (x >>= f).apply s = match x.apply s with
      | (.ok a, s') => (f a).apply s'
      | (.error e, s') => (.error e, s') := by
  simp only [apply, ExceptT.run_bind, StateT.run_bind]
  cases x.run.run s with
  | mk outcome s' => cases outcome <;> rfl

theorem apply_get_bind (f : CopyState → Copy β) (s : CopyState) :
    ((get : Copy CopyState) >>= f).apply s = (f s).apply s := rfl

/-- Copiers that succeed one after the other succeed together. -/
theorem Gives.bind {f : α → Copy β} {post : β → CopyState → Prop}
    (h : Gives x s fun a s' => Gives (f a) s' post) : Gives (x >>= f) s post := by
  obtain ⟨a, s', hx, b, s'', hf, hpost⟩ := h
  refine ⟨b, s'', ?_, hpost⟩
  rw [apply_bind, hx]
  exact hf

/-- A loop with an invariant about what is done and what is left. -/
theorem gives_forM {f : α → Copy Unit} {l : List α} {I : List α → List α → CopyState → Prop}
    (hstep : ∀ done a rest, l = done ++ a :: rest → ∀ s, I done (a :: rest) s →
      Gives (f a) s fun _ s' => I (done ++ [a]) rest s')
    (h : I [] l s) : Gives (l.forM f) s fun _ s' => I l [] s' := by
  have hloop : ∀ rest done s, l = done ++ rest → I done rest s →
      Gives (rest.forM f) s fun _ s' => I l [] s' := by
    intro rest
    induction rest with
    | nil =>
        intro done s hl hI
        rw [hl, List.append_nil]
        exact gives_pure hI
    | cons a rest ih =>
        intro done s hl hI
        rw [List.forM_eq_forM, List.forM_cons]
        refine .bind ((hstep done a rest hl s hI).mono fun _ s' hI' => ?_)
        exact ih (done ++ [a]) s' (by simp [hl]) hI'
  exact hloop l [] s rfl h

/-- A loop with answers; the answers so far belong to what is done. -/
theorem gives_mapM {f : α → Copy β} {l : List α}
    {I : List α → List β → CopyState → Prop}
    (hstep : ∀ done a rest, l = done ++ a :: rest → ∀ bs s, I done bs s →
      Gives (f a) s fun b s' => I (done ++ [a]) (bs ++ [b]) s')
    (h : I [] [] s) : Gives (l.mapM f) s fun bs s' => I l bs s' := by
  have hloop : ∀ rest done bs s, l = done ++ rest → I done bs s →
      Gives (rest.mapM f) s fun bs' s' => I l (bs ++ bs') s' := by
    intro rest
    induction rest with
    | nil =>
        intro done bs s hl hI
        rw [List.mapM_nil]
        refine gives_pure ?_
        simpa [hl] using hI
    | cons a rest ih =>
        intro done bs s hl hI
        rw [List.mapM_cons]
        refine .bind ((hstep done a rest hl bs s hI).mono fun b s' hI' => ?_)
        refine .bind ((ih (done ++ [a]) (bs ++ [b]) s' (by simp [hl]) hI').mono ?_)
        intro bs' s'' hpost
        refine gives_pure ?_
        simpa using hpost
  simpa using hloop l [] [] s rfl h

end Copy

/-! ## Names of copies -/

namespace CopySource

open Copy

/-- What a list of copies does to a handle. -/
def known {e : Entity} (c : CopySource) (copies : List (Handle e × Handle e)) (id : Handle e) :
    Option (Handle e) :=
  match copies.lookup id with
  | some new => some new
  | none => if c.keepOutside then some id else none

/-- What the copies made so far do to types. -/
def onTy (c : CopySource) (k : Copies) (t : Ty) : Option Ty := t.mapStructs (c.known k.structs)

/-- What the copies made so far do to handles, with constants and texts that are in `dest`. -/
def names (c : CopySource) (k : Copies) (dest : Program) : Renaming where
  onModule := c.known k.modules
  onStruct := c.known k.structs
  onFunction := c.known k.functions
  onVariable := c.known k.vars
  onConstant := c.program.constantTo (c.onTy k) dest
  onBlock id := k.blocks.lookup id

variable {c : CopySource} {k : Copies} {s s' s'' : CopyState}

/-- When the tables of the destination grow, names that were found stay found. -/
theorem names_le {p q : Program} (h : p.TablesGrow q) : (c.names k p).Le (c.names k q) where
  onModule _ _ hx := hx
  onStruct _ _ hx := hx
  onFunction _ _ hx := hx
  onVariable _ _ hx := hx
  onConstant := h.constantTo c.program (c.onTy k)
  onBlock _ _ hx := hx

/-- A handle with a known name is renamed to it. -/
theorem gives_copyOf {e : Entity} {what : String} {name : Handle e → String}
    {copies : Copies → List (Handle e × Handle e)} {id b : Handle e}
    {post : Handle e → CopyState → Prop} (hknown : c.known (copies s.copies) id = some b)
    (h : post b s) : Gives (c.copyOf what name copies id) s post := by
  unfold copyOf
  refine .bind (gives_get ?_)
  unfold known at hknown
  cases hlookup : (copies s.copies).lookup id with
  | some new =>
      simp only [hlookup, Option.some.injEq] at hknown ⊢
      subst hknown
      exact gives_pure h
  | none =>
      simp only [hlookup, Option.ite_none_right_eq_some, Option.some.injEq] at hknown ⊢
      obtain ⟨hkeep, rfl⟩ := hknown
      rw [if_pos hkeep]
      exact gives_pure h

/-- A block with a copy is renamed to it. -/
theorem gives_blockOf {id b : BlockId} {post : BlockId → CopyState → Prop}
    (hnew : s.copies.blocks.lookup id = some b) (h : post b s) : Gives (blockOf id) s post := by
  unfold blockOf
  refine .bind (gives_get ?_)
  rw [hnew]
  exact gives_pure h

/-- A type whose structs have names is renamed as a whole. -/
theorem gives_tyOf {t t' : Ty} {post : Ty → CopyState → Prop}
    (ht : c.onTy s.copies t = some t') (h : post t' s) : Gives (c.tyOf t) s post := by
  unfold tyOf
  unfold onTy at ht
  induction t generalizing t' post with
  | struct id =>
      simp [Ty.mapStructs, Option.bind_eq_some_iff] at ht
      obtain ⟨id', hid, rfl⟩ := ht
      exact .bind (gives_copyOf hid (gives_pure h))
  | array _ _ ih | const _ ih | ref _ ih =>
      simp [Ty.mapStructs, Option.bind_eq_some_iff] at ht
      obtain ⟨t', ht', rfl⟩ := ht
      exact .bind (ih ht' (gives_pure h))
  | _ =>
      simp [Ty.mapStructs] at ht
      subst ht
      exact gives_pure h

/-! ## Steps that only intern -/

/-- Only constants and texts were added. -/
structure Interned (s s' : CopyState) : Prop where
  copies : s'.copies = s.copies
  dest : s'.dest = { s.dest with constants := s'.dest.constants, texts := s'.dest.texts }
  tables : s.dest.TablesGrow s'.dest

/-- Doing nothing interns nothing. -/
theorem Interned.refl (s : CopyState) : Interned s s := ⟨rfl, rfl, .refl _⟩

/-- Interning twice is interning. -/
theorem Interned.trans (h : Interned s s') (h' : Interned s' s'') : Interned s s'' where
  copies := h'.copies.trans h.copies
  dest := by rw [h'.dest, h.dest]
  tables := h.tables.trans h'.tables

/-- While the copies are `k`, the step interns what it needs and answers what `f` makes of the
destination in the end. -/
def Mirrors {α : Type} (k : Copies) (x : Copy α) (f : Program → Option α) : Prop :=
  ∀ s, s.copies = k → Gives x s fun a s' => Interned s s' ∧ f s'.dest = some a

/-- Answers stay as constants and texts are added. -/
def Stable {α : Type} (f : Program → Option α) : Prop :=
  ∀ ⦃p q⦄, p.TablesGrow q → ∀ a, f p = some a → f q = some a

section

variable {α β : Type} {x : Copy α} {f : Program → Option α}

/-- Answering at once mirrors the constant function. -/
theorem Mirrors.pure (a : α) : Mirrors k (pure a) fun _ => some a :=
  fun s _ => gives_pure ⟨.refl s, rfl⟩

/-- Mirrors are composed like the copiers they describe.  The first function must be stable, since
the second copier may intern more. -/
theorem Mirrors.bind {y : α → Copy β} {g : α → Program → Option β} (hx : Mirrors k x f)
    (hf : Stable f) (hy : ∀ a, (∃ d, f d = some a) → Mirrors k (y a) (g a)) :
    Mirrors k (x >>= y) fun d => f d >>= (g · d) := by
  intro s hs
  refine .bind ((hx s hs).mono ?_)
  rintro a s' ⟨hinterned, ha⟩
  refine (hy a ⟨_, ha⟩ s' (hinterned.copies.trans hs)).mono ?_
  rintro b s'' ⟨hinterned', hb⟩
  refine ⟨hinterned.trans hinterned', ?_⟩
  simp [hf hinterned'.tables a ha, hb]

/-- One step and what is made of its answer. -/
theorem Mirrors.map {y : α → β} (hx : Mirrors k x f) :
    Mirrors k (x >>= fun a => Pure.pure (y a)) fun d => f d >>= fun a => some (y a) := by
  intro s hs
  refine .bind ((hx s hs).mono ?_)
  rintro a s' ⟨hinterned, ha⟩
  exact gives_pure ⟨hinterned, by simp [ha]⟩

/-- A list is mirrored element by element. -/
theorem Mirrors.mapM {y : α → Copy β} {g : α → Program → Option β} {l : List α}
    (hg : ∀ a ∈ l, Stable (g a)) (hy : ∀ a ∈ l, Mirrors k (y a) (g a)) :
    Mirrors k (l.mapM y) fun d => l.mapM (g · d) := by
  induction l with
  | nil => exact Mirrors.pure []
  | cons a l ih =>
      have hhead := hy a List.mem_cons_self
      have htail := ih (fun b hb => hg b (List.mem_cons_of_mem _ hb))
        (fun b hb => hy b (List.mem_cons_of_mem _ hb))
      simp only [List.mapM_cons]
      exact hhead.bind (hg a List.mem_cons_self) fun b _ => htail.map

/-- A step that only looks at the copies. -/
theorem mirrors_of_answers {f : Copies → Option α} {a : α} (ha : f k = some a)
    (h : ∀ s post, f s.copies = some a → post a s → Gives x s post) :
    Mirrors k x fun _ => f k := by
  intro s hs
  subst hs
  exact h s _ ha ⟨.refl s, ha⟩

/-- What does not depend on the destination is stable. -/
theorem stable_fixed (o : Option α) : Stable fun _ => o := fun _ _ _ _ ha => ha

end

/-! ## Values -/

/-- Texts that the source has. -/
def present (p : Program) (id : TextId) : Option TextId := (p.texts.get? id).map fun _ => id

/-- A text of the source is interned in the destination under the name it then has there. -/
theorem textOf_mirrors {id id' : TextId} (h : present c.program id = some id') :
    Mirrors k (c.textOf id) fun d => c.program.textTo d id := by
  obtain ⟨text, htext, -⟩ := Option.map_eq_some_iff.mp h
  intro s _
  unfold textOf
  rw [htext]
  refine gives_add ⟨⟨rfl, rfl, ?_⟩, ?_⟩
  · exact ⟨List.prefix_refl _, Interner.prefix_intern _ _, fun h => Interner.nodup_intern h _⟩
  · simp only [Program.textTo, htext, Option.bind_eq_bind, Option.bind_some]
    exact Interner.find?_intern _ _

/-- A type is renamed by the names of its structs, whatever the destination holds. -/
theorem tyOf_follows {t t' : Ty} (h : c.onTy k t = some t') :
    Mirrors k (c.tyOf t) fun _ => c.onTy k t :=
  mirrors_of_answers (f := fun k => c.onTy k t) h fun _ _ => gives_tyOf

/-- A value that has a name keeps it when more is interned. -/
theorem stable_value (v : Value) : Stable fun d => v.mapParts (c.onTy k) (c.program.textTo d) :=
  fun _ _ h _ ha => Value.mapParts_extends (fun _ _ hx => hx) (h.textTo c.program) ha

mutual

/-- Copying a value renames its types and interns its texts, by recursion on the value. -/
theorem value_mirrors : ∀ {v v' : Value}, v.mapParts (c.onTy k) (present c.program) = some v' →
    Mirrors k (v.mapParts c.tyOf c.textOf) fun d => v.mapParts (c.onTy k) (c.program.textTo d)
  | .string id, v', h => by
      simp [Value.mapParts, Option.bind_eq_some_iff] at h
      obtain ⟨id', hid, rfl⟩ := h
      exact (textOf_mirrors hid).map
  | .zero t, v', h => by
      simp [Value.mapParts, Option.bind_eq_some_iff] at h
      obtain ⟨t', ht, rfl⟩ := h
      exact (tyOf_follows ht).map
  | .aggregate t vs, v', h => by
      simp [Value.mapParts, Option.bind_eq_some_iff] at h
      obtain ⟨t', ht, vs', hvs, rfl⟩ := h
      exact (tyOf_follows ht).bind (stable_fixed _) fun _ _ => (valueList_mirrors hvs).map
  | .void, v', h | .bool _, v', h | .int32 _, v', h | .int64 _, v', h
  | .float32 _, v', h | .float64 _, v', h => .pure _

/-- The elements of an aggregate are copied one after the other. -/
theorem valueList_mirrors : ∀ {vs vs' : List Value},
    Value.mapPartsList (c.onTy k) (present c.program) vs = some vs' →
    Mirrors k (Value.mapPartsList c.tyOf c.textOf vs)
      fun d => Value.mapPartsList (c.onTy k) (c.program.textTo d) vs
  | [], vs', h => .pure _
  | v :: vs, vs', h => by
      simp [Value.mapPartsList, Option.bind_eq_some_iff] at h
      obtain ⟨v', hv, vs', hvs, rfl⟩ := h
      exact (value_mirrors hv).bind (stable_value v) fun _ _ => (valueList_mirrors hvs).map

end

/-- The constant is in the source, and can be copied. -/
def Usable (c : CopySource) (k : Copies) (id : ConstantId) : Prop :=
  ∃ v v', c.program.constants.get? id = some v ∧
    v.mapParts (c.onTy k) (present c.program) = some v'

/-- A constant that can be copied is interned in the destination under the name it then has
there. -/
theorem constantOf_follows {id : ConstantId} (h : Usable c k id) :
    Mirrors k (c.constantOf id) fun d => c.program.constantTo (c.onTy k) d id := by
  obtain ⟨v, v', hv, hv'⟩ := h
  have hat : c.program.constantAt id = v := Arena.get_eq_of_get? hv
  intro s hs
  unfold constantOf
  rw [hat]
  refine .bind ((value_mirrors hv' s hs).mono ?_)
  rintro w s' ⟨hinterned, hw⟩
  refine gives_add ⟨hinterned.trans ⟨rfl, rfl, ?_⟩, ?_⟩
  · exact ⟨Interner.prefix_intern _ _, List.prefix_refl _, fun h => h⟩
  · have hparts : v.mapParts (c.onTy k) (c.program.textTo (s'.dest.intern w).2) = some w := hw
    simp only [Program.constantTo, hv, hparts, Option.bind_eq_bind, Option.bind_some]
    exact Interner.find?_intern _ _

/-! ## Expressions and statements -/

/-- All handles that a renaming accepts can be copied. -/
structure Covers (c : CopySource) (k : Copies) (d : Renaming) : Prop where
  onModule : ∀ id new, d.onModule id = some new → ∃ id', c.known k.modules id = some id'
  onStruct : ∀ id new, d.onStruct id = some new → ∃ id', c.known k.structs id = some id'
  onFunction : ∀ id new, d.onFunction id = some new → ∃ id', c.known k.functions id = some id'
  onVariable : ∀ id new, d.onVariable id = some new → ∃ id', c.known k.vars id = some id'
  onConstant : ∀ id new, d.onConstant id = some new → Usable c k id
  onBlock : ∀ id new, d.onBlock id = some new → ∃ id', k.blocks.lookup id = some id'

variable {d : Renaming}

/-- A type in scope has a name if its structs are covered. -/
theorem Covers.onTy (h : Covers c k d) {t t' : Ty} (ht : d.onTy t = some t') :
    ∃ t', c.onTy k t = some t' := Ty.mapStructs_defined h.onStruct t t' ht

@[simp] theorem renamer_onVariable : c.renamer.onVariable = c.variableOf := rfl
@[simp] theorem renamer_onConstant : c.renamer.onConstant = c.constantOf := rfl
@[simp] theorem renamer_onFunction : c.renamer.onFunction = c.functionOf := rfl
@[simp] theorem renamer_onTy : c.renamer.onTy = c.tyOf := rfl
@[simp] theorem renamer_onBlock : c.renamer.onBlock = blockOf := rfl

/-- Names of types do not depend on the destination. -/
theorem stable_ty (t : Ty) : Stable fun p => (c.names k p).onTy t := fun _ _ _ _ ha => ha

/-- The name of a constant stays when more is interned. -/
theorem stable_constant (id : ConstantId) : Stable fun p => (c.names k p).onConstant id :=
  fun _ _ h _ ha => (names_le h).onConstant ha

section

variable (h : Covers c k d)

include h

/-- A type in scope is copied to its name. -/
theorem tyOf_mirrors {t t' : Ty} (ht : d.onTy t = some t') :
    Mirrors k (c.tyOf t) fun p => (c.names k p).onTy t := by
  obtain ⟨t', ht'⟩ := h.onTy ht
  exact tyOf_follows ht'

/-- A variable in scope is copied to its name. -/
theorem variableOf_mirrors {v v' : VariableId} (hv : d.onVariable v = some v') :
    Mirrors k (c.variableOf v) fun p => (c.names k p).onVariable v := by
  obtain ⟨new, hnew⟩ := h.onVariable v v' hv
  exact mirrors_of_answers (f := fun k => c.known k.vars v) hnew fun _ _ hs => gives_copyOf hs

/-- A function in scope is copied to its name. -/
theorem functionOf_mirrors {f f' : FunctionId} (hf : d.onFunction f = some f') :
    Mirrors k (c.functionOf f) fun p => (c.names k p).onFunction f := by
  obtain ⟨new, hnew⟩ := h.onFunction f f' hf
  exact mirrors_of_answers (f := fun k => c.known k.functions f) hnew fun _ _ hs => gives_copyOf hs

/-- A block in scope is copied to its name. -/
theorem blockOf_mirrors {b b' : BlockId} (hb : d.onBlock b = some b') :
    Mirrors k (blockOf b) fun p => (c.names k p).onBlock b := by
  obtain ⟨new, hnew⟩ := h.onBlock b b' hb
  exact mirrors_of_answers (f := fun k => k.blocks.lookup b) hnew fun _ _ hs => gives_blockOf hs

/-- A constant in scope is copied to its name. -/
theorem constantOf_mirrors {id id' : ConstantId} (hid : d.onConstant id = some id') :
    Mirrors k (c.constantOf id) fun p => (c.names k p).onConstant id :=
  constantOf_follows (h.onConstant id id' hid)

/-- Annotations are copied constant by constant. -/
theorem annotationsOf_mirrors {a a' : Annotations} (ha : a.mapConstants d.onConstant = some a') :
    Mirrors k (c.annotationsOf a) fun p => a.mapConstants (c.names k p).onConstant := by
  have hall := Annotations.mapConstants_eq_some_iff.mp ha
  unfold annotationsOf Annotations.mapConstants
  refine Mirrors.map (Mirrors.mapM ?_ ?_)
  · rintro ⟨key, id⟩ - p q hgrow b hb
    obtain ⟨id', hid, hb⟩ := Option.bind_eq_some_iff.mp hb
    exact Option.bind_eq_some_iff.mpr ⟨id', stable_constant id hgrow id' hid, hb⟩
  · rintro ⟨key, id⟩ hx
    obtain ⟨y, hy⟩ := exists_of_mapM hall hx
    obtain ⟨id', hid, -⟩ := Option.map_eq_some_iff.mp hy
    exact (constantOf_mirrors h hid).map

end

/-- The renamed expression stays the same when more is interned, by recursion on the expression. -/
theorem stable_expr (e : Expr) : Stable fun p => e.rename (c.names k p).renamer :=
  fun _ _ h _ ha => (Expr.rename_commutes (names_le h).square).extends Expr.rename_keeps ha

/-- The renamed arguments of a call stay the same when more is interned. -/
theorem stable_exprs (es : List Expr) : Stable fun p => Expr.renameList (c.names k p).renamer es :=
  fun _ _ h _ ha => Expr.renameList_commutes (names_le h).square es (Expr.renameList_keeps _) ha
    (Expr.renameList_keeps _)

/-- A renamed optional expression stays the same when more is interned. -/
theorem stable_exprOption (e : Option Expr) :
    Stable fun p => Expr.renameOption (c.names k p).renamer e :=
  fun _ _ h _ ha => (Expr.renameOption_commutes (names_le h).square).extends
    Expr.renameOption_keeps ha

/-- The renamed statement stays the same when more is interned. -/
theorem stable_statement (s : Statement) : Stable fun p => s.rename (c.names k p).renamer :=
  fun _ _ h _ ha => (Statement.rename_commutes (names_le h).square).extends
    Statement.rename_keeps ha

mutual

/-- An expression in scope is copied to the expression with the new names, by recursion on it. -/
theorem expr_mirrors (h : Covers c k d) : ∀ {e e' : Expr}, e.rename d.renamer = some e' →
    Mirrors k (e.rename c.renamer) fun p => e.rename (c.names k p).renamer
  | .var v, e', he => by
      simp [Expr.rename, Option.bind_eq_some_iff] at he
      obtain ⟨v', hv, rfl⟩ := he
      exact (variableOf_mirrors h hv).map
  | .const id, e', he => by
      simp [Expr.rename, Option.bind_eq_some_iff] at he
      obtain ⟨id', hid, rfl⟩ := he
      exact (constantOf_mirrors h hid).map
  | .element e _, e', he | .member e _, e', he | .slice e _ _, e', he | .unary _ e, e', he => by
      simp [Expr.rename, Option.bind_eq_some_iff] at he
      obtain ⟨e₁, he₁, rfl⟩ := he
      exact (expr_mirrors h he₁).map
  | .elementAt l r, e', he | .binary _ l r, e', he => by
      simp [Expr.rename, Option.bind_eq_some_iff] at he
      obtain ⟨l', hl, r', hr, rfl⟩ := he
      exact (expr_mirrors h hl).bind (stable_expr l) fun _ _ => (expr_mirrors h hr).map
  | .cast t e, e', he => by
      simp [Expr.rename, Option.bind_eq_some_iff] at he
      obtain ⟨t', ht, e₁, he₁, rfl⟩ := he
      exact (tyOf_mirrors h ht).bind (stable_ty t) fun _ _ => (expr_mirrors h he₁).map
  | .pureCall f args, e', he => by
      simp [Expr.rename, Option.bind_eq_some_iff] at he
      obtain ⟨f', hf, args', hargs, rfl⟩ := he
      exact (functionOf_mirrors h hf).bind (stable_fixed _) fun _ _ => (exprs_mirrors h hargs).map
  | .property _, e', he => .pure _

/-- The arguments of a call are copied one after the other. -/
theorem exprs_mirrors (h : Covers c k d) : ∀ {es es' : List Expr},
    Expr.renameList d.renamer es = some es' →
    Mirrors k (Expr.renameList c.renamer es) fun p => Expr.renameList (c.names k p).renamer es
  | [], es', he => .pure _
  | e :: es, es', he => by
      simp [Expr.renameList, Option.bind_eq_some_iff] at he
      obtain ⟨e', he, es', hes, rfl⟩ := he
      exact (expr_mirrors h he).bind (stable_expr e) fun _ _ => (exprs_mirrors h hes).map

end

section

variable (h : Covers c k d)

include h

/-- An optional expression in scope is copied to its renaming. -/
theorem exprOption_mirrors {e e' : Option Expr} (he : Expr.renameOption d.renamer e = some e') :
    Mirrors k (Expr.renameOption c.renamer e)
      fun p => Expr.renameOption (c.names k p).renamer e := by
  cases e with
  | none => exact .pure _
  | some e =>
      simp [Expr.renameOption, Option.bind_eq_some_iff] at he
      obtain ⟨e', he, rfl⟩ := he
      exact (expr_mirrors h he).map

/-- A statement in scope is copied to the statement with the new names. -/
theorem statement_mirrors {s s' : Statement} (hs : s.rename d.renamer = some s') :
    Mirrors k (s.rename c.renamer) fun p => s.rename (c.names k p).renamer := by
  cases s with
  | assign t v =>
      simp [Statement.rename, Option.bind_eq_some_iff] at hs
      obtain ⟨t', ht, v', hv, rfl⟩ := hs
      exact (expr_mirrors h ht).bind (stable_expr t) fun _ _ => (expr_mirrors h hv).map
  | call t f args =>
      simp [Statement.rename, Option.bind_eq_some_iff] at hs
      obtain ⟨t', ht, f', hf, args', hargs, rfl⟩ := hs
      exact (exprOption_mirrors h ht).bind (stable_exprOption t) fun _ _ =>
        (functionOf_mirrors h hf).bind (stable_fixed _) fun _ _ => (exprs_mirrors h hargs).map
  | read t endpoint =>
      simp [Statement.rename, Option.bind_eq_some_iff] at hs
      obtain ⟨t', ht, rfl⟩ := hs
      exact (expr_mirrors h ht).map
  | write endpoint e v =>
      simp [Statement.rename, Option.bind_eq_some_iff] at hs
      obtain ⟨e', he, v', hv, rfl⟩ := hs
      exact (exprOption_mirrors h he).bind (stable_exprOption e) fun _ _ => (expr_mirrors h hv).map
  | advance => exact .pure _

/-- A terminator in scope is copied to the terminator with the new names. -/
theorem terminator_mirrors {t t' : Terminator} (ht : t.rename d.renamer = some t') :
    Mirrors k (t.rename c.renamer) fun p => t.rename (c.names k p).renamer := by
  cases t with
  | branch b args =>
      simp [Terminator.rename, Option.bind_eq_some_iff] at ht
      obtain ⟨b', hb, args', hargs, rfl⟩ := ht
      exact (blockOf_mirrors h hb).bind (stable_fixed _) fun _ _ => (exprs_mirrors h hargs).map
  | branchIf e b ts b' fs =>
      simp [Terminator.rename, Option.bind_eq_some_iff] at ht
      obtain ⟨e', he, t', ht, f', hf, ts', hts, fs', hfs, rfl⟩ := ht
      exact (expr_mirrors h he).bind (stable_expr e) fun _ _ =>
        (blockOf_mirrors h ht).bind (stable_fixed _) fun _ _ =>
        (blockOf_mirrors h hf).bind (stable_fixed _) fun _ _ =>
        (exprs_mirrors h hts).bind (stable_exprs ts) fun _ _ => (exprs_mirrors h hfs).map
  | returnVoid => exact .pure _
  | returnValue v =>
      simp [Terminator.rename, Option.bind_eq_some_iff] at ht
      obtain ⟨v', hv, rfl⟩ := ht
      exact (expr_mirrors h hv).map

end

/-! ## Declarations -/

/-- An optional part is mirrored if the part is. -/
theorem optionMapM_mirrors {α β : Type} {y : α → Copy β} {g : α → Program → Option β} {o : Option α}
    (hy : ∀ a ∈ o, Mirrors k (y a) (g a)) : Mirrors k (o.mapM y) fun p => o.mapM (g · p) := by
  cases o with
  | none => exact .pure _
  | some a =>
      intro s hs
      refine .bind ((hy a rfl s hs).mono ?_)
      rintro b s' ⟨hinterned, hb⟩
      exact gives_pure ⟨hinterned, by simp [hb]⟩

/-- An optional part is stable if the part is. -/
theorem stable_optionMapM {α β : Type} {g : α → Program → Option β} {o : Option α}
    (hg : ∀ a, Stable (g a)) : Stable fun p => o.mapM (g · p) := by
  cases o with
  | none => exact fun _ _ _ _ ha => ha
  | some a =>
      intro p q hgrow b hb
      obtain ⟨b', hb', rfl⟩ : ∃ b', g a p = some b' ∧ some b' = b := by simpa using hb
      simp [hg a hgrow b' hb']

/-- A list is stable if its elements are. -/
theorem stable_mapM {α β : Type} {g : α → Program → Option β} {l : List α}
    (hg : ∀ a, Stable (g a)) : Stable fun p => l.mapM (g · p) := by
  intro p q hgrow bs hbs
  rw [mapM_eq_some_iff_forall₂] at hbs ⊢
  exact hbs.imp fun a b hab => hg a hgrow b hab

/-- If a partial map over an optional part succeeds, it is defined at the part. -/
theorem exists_of_optionMapM {α β : Type} {f : α → Option β} {o : Option α} {o' : Option β}
    (h : o.mapM f = some o') {a : α} (ha : a ∈ o) : ∃ b, f a = some b := by
  cases ha
  obtain ⟨b, hb, -⟩ : ∃ b, f a = some b ∧ some b = o' := by simpa using h
  exact ⟨b, hb⟩

/-- A variable with its types and constants copied. -/
def copiedVariable (c : CopySource) (v : Variable) : Copy Variable := do
  let ty ← c.tyOf v.ty
  let initial ← v.initial.mapM c.constantOf
  let annotations ← c.annotationsOf v.annotations
  return { v with ty, initial, annotations }

/-- An endpoint with its types and constants copied. -/
def copiedEndpoint (c : CopySource) (e : Endpoint) : Copy Endpoint := do
  let details ← e.details.mapM fun d => return { d with types := ← d.types.mapM c.tyOf }
  let annotations ← c.annotationsOf e.annotations
  return { e with details, annotations }

/-- Copying a variable: its parts first, then the new entry, then the note of its name. -/
theorem copyVariable_eq (c : CopySource) (id : VariableId) : c.copyVariable id = (do
    let w ← c.copiedVariable (c.program.variableAt id)
    let new ← add (·.addVariable w)
    modifyCopies fun r => { r with vars := (id, new) :: r.vars }
    return new) := by
  simp [copyVariable, copiedVariable]

/-- Copying an endpoint: its parts first, then the new entry. -/
theorem copyEndpoint_eq (c : CopySource) (target : ModuleId) (e : Endpoint) :
    c.copyEndpoint target e = (do
      let e ← c.copiedEndpoint e
      modifyDest (·.modifyModule target (·.addEndpoint e))) := by
  simp [copyEndpoint, copiedEndpoint]

section

variable (h : Covers c k d)

include h

/-- The constants that a node supplies are copied one after the other. -/
theorem constants_mirrors {l l' : List ConstantId} (hl : l.mapM d.onConstant = some l') :
    Mirrors k (l.mapM c.constantOf) fun p => l.mapM (c.names k p).onConstant := by
  refine Mirrors.mapM (fun id _ => stable_constant id) fun id hid => ?_
  obtain ⟨id', hid'⟩ := exists_of_mapM hl hid
  exact constantOf_mirrors h hid'

/-- The types of an endpoint are copied one after the other. -/
theorem types_mirrors {l l' : List Ty} (hl : l.mapM d.onTy = some l') :
    Mirrors k (l.mapM c.tyOf) fun p => l.mapM (c.names k p).onTy := by
  refine Mirrors.mapM (fun t _ => stable_ty t) fun t ht => ?_
  obtain ⟨t', ht'⟩ := exists_of_mapM hl ht
  exact tyOf_mirrors h ht'

/-- The members of a struct are copied one after the other. -/
theorem members_mirrors {l l' : List Member} (hl : l.mapM (Member.rename d) = some l') :
    Mirrors k (l.mapM fun m => return { m with ty := ← c.tyOf m.ty })
      fun p => l.mapM (Member.rename (c.names k p)) := by
  refine Mirrors.mapM (fun m _ _ _ _ _ ha => ha) fun m hm => ?_
  obtain ⟨m', hm'⟩ := exists_of_mapM hl hm
  obtain ⟨t, ht, -⟩ := Option.bind_eq_some_iff.mp hm'
  exact (tyOf_mirrors h ht).map

/-- A variable is copied to the variable with the new names. -/
theorem variable_mirrors {v v' : Variable} (hv : v.rename d = some v') :
    Mirrors k (c.copiedVariable v) fun p => v.rename (c.names k p) := by
  have hv := Variable.rename_eq_some_iff.mp hv
  refine (tyOf_mirrors h hv.ty).bind (stable_ty v.ty) fun _ _ => ?_
  refine Mirrors.bind (optionMapM_mirrors fun id hid => ?_)
    (stable_optionMapM fun id => stable_constant id) fun _ _ => ?_
  · obtain ⟨id', hid'⟩ := exists_of_optionMapM hv.initial hid
    exact constantOf_mirrors h hid'
  · exact (annotationsOf_mirrors h hv.annotations).map

/-- An endpoint is copied to the endpoint with the new names. -/
theorem endpoint_mirrors {e e' : Endpoint} (he : e.rename d = some e') :
    Mirrors k (c.copiedEndpoint e) fun p => e.rename (c.names k p) := by
  have he := Endpoint.rename_eq_some_iff.mp he
  refine Mirrors.bind (g := fun details p => do
      let annotations ← e.annotations.mapConstants (c.names k p).onConstant
      return { e with details, annotations })
    (optionMapM_mirrors fun ds hds => ?_) (stable_optionMapM ?_) fun _ _ => ?_
  · obtain ⟨ds', hds'⟩ := exists_of_optionMapM he.details hds
    obtain ⟨types, htypes, -⟩ := Option.bind_eq_some_iff.mp hds'
    exact (types_mirrors h htypes).map
  · exact fun _ _ _ _ _ ha => ha
  · exact (annotationsOf_mirrors h he.annotations).map

end

end CopySource

end SignalGraph

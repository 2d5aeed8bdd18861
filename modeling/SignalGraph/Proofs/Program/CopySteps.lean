import SignalGraph.Proofs.Program.References

/-!
# SignalGraph.Proofs.Program.CopySteps

What holds after each step of copying that succeeds, whatever is copied.  `Ensures` says that a step
keeps an invariant and what is known of its answer.  `CopyLaws` lists what an invariant has to
allow; then the whole copy keeps it and has met all that the copied modules mention
(`CopyLaws.copyDeclared`).
-/

namespace SignalGraph

open CopySource

/-! ## Steps -/

namespace Copy

variable {α β : Type} {I : CopyState → Prop}

/-- Where the step succeeds it keeps `I`, and `Q` holds of its answer. -/
def Ensures (I : CopyState → Prop) (x : Copy α) (Q : α → Prop) : Prop :=
  ∀ s a s', I s → x.apply s = (.ok a, s') → I s' ∧ Q a

variable {Q : α → Prop} {R : β → Prop}

theorem ensures_pure {a : α} (h : Q a) : Ensures I (pure a) Q := by
  intro s b s' hs hrun
  cases hrun
  exact ⟨hs, h⟩

theorem ensures_get : Ensures I get I := by
  intro s b s' hs hrun
  cases hrun
  exact ⟨hs, hs⟩

/-- A copier that fails ensures everything. -/
theorem ensures_fail (detail : String) : Ensures I (fail detail : Copy α) Q := by
  intro s b s' hs hrun
  cases hrun

theorem ensures_modifyDest {f : Program → Program} {Q : Unit → Prop}
    (hI : ∀ s, I s → I { s with dest := f s.dest }) (h : Q ()) : Ensures I (modifyDest f) Q := by
  intro s b s' hs hrun
  cases hrun
  exact ⟨hI s hs, h⟩

theorem ensures_modifyCopies {f : Copies → Copies} {Q : Unit → Prop}
    (hI : ∀ s, I s → I { s with copies := f s.copies }) (h : Q ()) :
    Ensures I (modifyCopies f) Q := by
  intro s b s' hs hrun
  cases hrun
  exact ⟨hI s hs, h⟩

/-- An addition to the destination ensures what it is shown to keep and to answer. -/
theorem ensures_add {f : Program → α × Program}
    (hI : ∀ s, I s → I { s with dest := (f s.dest).2 }) (h : ∀ a, Q a) : Ensures I (add f) Q := by
  intro s b s' hs hrun
  cases hrun
  exact ⟨hI s hs, h _⟩

/-- What is ensured is ensured under every weaker condition. -/
theorem Ensures.mono {Q' : α → Prop} {x : Copy α} (h : Ensures I x Q) (himp : ∀ a, Q a → Q' a) :
    Ensures I x Q' := by
  intro s a s' hs hrun
  obtain ⟨hs', hQ⟩ := h s a s' hs hrun
  exact ⟨hs', himp a hQ⟩

/-- Copiers that keep an invariant keep it one after the other. -/
theorem Ensures.bind {x : Copy α} {f : α → Copy β} (hx : Ensures I x Q)
    (hf : ∀ a, Q a → Ensures I (f a) R) : Ensures I (x >>= f) R := by
  intro s b s'' hs hrun
  rw [apply_bind] at hrun
  cases hfirst : x.apply s with
  | mk outcome s' =>
      rw [hfirst] at hrun
      cases outcome with
      | error e => cases hrun
      | ok a =>
          obtain ⟨hs', hQ⟩ := hx s a s' hs hfirst
          exact hf a hQ s' b s'' hs' hrun

/-- Copying a list ensures for each element what copying it ensures. -/
theorem ensures_mapM {f : α → Copy β} {Q : α → β → Prop} {l : List α}
    (h : ∀ a ∈ l, Ensures I (f a) (Q a)) :
    Ensures I (l.mapM f) fun bs => List.Forall₂ Q l bs := by
  induction l with
  | nil => exact ensures_pure .nil
  | cons a l ih =>
      have htail := ih fun b hb => h b (List.mem_cons_of_mem _ hb)
      rw [List.mapM_cons]
      exact (h a List.mem_cons_self).bind fun b hb => htail.bind fun bs hbs =>
        ensures_pure (.cons hb hbs)

/-- Visiting a list ensures for each element what visiting it ensures. -/
theorem ensures_forM {f : α → Copy Unit} {Q : α → Prop} {l : List α}
    (h : ∀ a ∈ l, Ensures I (f a) fun _ => Q a) : Ensures I (l.forM f) fun _ => ∀ a ∈ l, Q a := by
  induction l with
  | nil => exact ensures_pure fun _ ha => by cases ha
  | cons a l ih =>
      have htail := ih fun b hb => h b (List.mem_cons_of_mem _ hb)
      rw [List.forM_eq_forM, List.forM_cons]
      exact (h a List.mem_cons_self).bind fun _ ha => htail.mono fun _ hl =>
        List.forall_mem_cons.mpr ⟨ha, hl⟩

/-- What is known of every element, whatever the answers. -/
theorem ensures_mapM_all {f : α → Copy β} {Q : α → Prop} {l : List α}
    (h : ∀ a ∈ l, Ensures I (f a) fun _ => Q a) :
    Ensures I (l.mapM f) fun _ => ∀ a ∈ l, Q a := by
  induction l with
  | nil => exact ensures_pure fun _ ha => by cases ha
  | cons a l ih =>
      have htail := ih fun b hb => h b (List.mem_cons_of_mem _ hb)
      rw [List.mapM_cons]
      exact (h a List.mem_cons_self).bind fun _ ha => htail.bind fun _ hl =>
        ensures_pure (List.forall_mem_cons.mpr ⟨ha, hl⟩)

end Copy

open Copy

/-! ## Types and values -/

section

variable {c : CopySource} {I : CopyState → Prop} {Met : Reference → Prop}

/-- Renaming a type meets its structs, if renaming a struct meets it. -/
theorem ensures_tyOf (hstruct : ∀ s, Ensures I (c.structOf s) fun _ => Met (.record s)) (t : Ty) :
    Ensures I (c.tyOf t) fun _ => ∀ r ∈ t.mentions, Met r := by
  unfold CopySource.tyOf
  induction t with
  | struct id =>
      exact (hstruct id).bind fun _ hid => ensures_pure (List.forall_mem_singleton.mpr hid)
  | array t _ ih | const t ih | ref t ih => exact ih.bind fun _ ht => ensures_pure ht
  | prim _ | vector _ _ | string => exact ensures_pure fun _ hr => by cases hr

/-- Interning a text changes no module, so it keeps the invariant. -/
theorem ensures_textOf (hdest : ∀ s q, q.modules = s.dest.modules → I s → I { s with dest := q })
    (id : TextId) : Ensures I (c.textOf id) fun _ => True := by
  unfold CopySource.textOf
  split
  · exact ensures_add (fun s => hdest s _ rfl) fun _ => trivial
  · exact ensures_fail _

mutual

/-- Copying a value meets what it mentions, by recursion on the value. -/
theorem ensures_value (hstruct : ∀ s, Ensures I (c.structOf s) fun _ => Met (.record s))
    (hdest : ∀ s q, q.modules = s.dest.modules → I s → I { s with dest := q })
    (hmet : ∀ t, Met (.text t)) : ∀ v : Value,
    Ensures I (v.mapParts c.tyOf c.textOf) fun _ => ∀ r ∈ v.mentions, Met r
  | .string id => (ensures_textOf hdest id).bind fun _ _ =>
      ensures_pure (List.forall_mem_singleton.mpr (hmet id))
  | .zero t => (ensures_tyOf hstruct t).bind fun _ ht => ensures_pure ht
  | .aggregate t vs => (ensures_tyOf hstruct t).bind fun _ ht =>
      (ensures_values hstruct hdest hmet vs).bind fun _ hvs =>
        ensures_pure (List.forall_mem_append.mpr ⟨ht, hvs⟩)
  | .void | .bool _ | .int32 _ | .int64 _ | .float32 _ | .float64 _ =>
      ensures_pure fun _ hr => by cases hr

/-- Copying the elements of an aggregate meets what they mention. -/
theorem ensures_values (hstruct : ∀ s, Ensures I (c.structOf s) fun _ => Met (.record s))
    (hdest : ∀ s q, q.modules = s.dest.modules → I s → I { s with dest := q })
    (hmet : ∀ t, Met (.text t)) : ∀ vs : List Value,
    Ensures I (Value.mapPartsList c.tyOf c.textOf vs) fun _ => ∀ r ∈ Value.mentionsList vs, Met r
  | [] => ensures_pure fun _ hr => by cases hr
  | v :: vs => (ensures_value hstruct hdest hmet v).bind fun _ hv =>
      (ensures_values hstruct hdest hmet vs).bind fun _ hvs =>
        ensures_pure (List.forall_mem_append.mpr ⟨hv, hvs⟩)

end

/-- An invariant that does not look at constants and texts. -/
theorem ensures_constantOf (hstruct : ∀ s, Ensures I (c.structOf s) fun _ => Met (.record s))
    (hdest : ∀ s q, q.modules = s.dest.modules → I s → I { s with dest := q })
    (hmet : ∀ t, Met (.text t)) (k : ConstantId) :
    Ensures I (c.constantOf k) fun _ => ∀ r ∈ (c.program.constantAt k).mentions, Met r :=
  (ensures_value hstruct hdest hmet _).bind fun _ hvalue =>
    ensures_add (fun s => hdest s _ rfl) fun _ => hvalue

end

/-! ## Laws -/

/-- What an invariant of copying has to allow.  `Met` is what a step shows of a reference that it
looks at, and `Target` what is known of the copies of the listed modules. -/
structure CopyLaws (c : CopySource) (ids : List ModuleId) (I : CopyState → Prop)
    (Met : Reference → Prop) (Target : ModuleId → Prop) : Prop where
  structOf : ∀ s, Ensures I (c.structOf s) fun _ => Met (.record s)
  functionOf : ∀ f, Ensures I (c.functionOf f) fun _ => Met (.func f)
  variableOf : ∀ v, Ensures I (c.variableOf v) fun _ => Met (.var v)
  moduleOf : ∀ id, Ensures I (c.moduleOf id) fun new => id ∈ ids → Target new
  constantOf : ∀ k, Ensures I (c.constantOf k) fun _ =>
    ∀ r ∈ (c.program.constantAt k).mentions, Met r
  met_const : ∀ k, (∀ r ∈ (c.program.constantAt k).mentions, Met r) → Met (.const k)
  met_block : ∀ b, Met (.block b)
  met_mod : ∀ m, Met (.mod m)
  met_own : ∀ id ∈ ids, ∀ r, c.program.Owns id r → Met r
  /-- The destination may change where it has no modules, constants or texts, and loses no
  struct. -/
  dest : ∀ s q, q.modules = s.dest.modules → q.constants = s.dest.constants →
    q.texts = s.dest.texts → s.dest.structs.size ≤ q.structs.size → I s → I { s with dest := q }
  /-- Copies of the listed modules may change, but for their names. -/
  target : ∀ s new f, Target new → (∀ m : Module, (f m).name = m.name) → I s →
    I { s with dest := s.dest.modifyModule new f }
  /-- Every module may list more structs and functions. -/
  listed : ∀ s id structs functions, I s → I { s with dest := s.dest.modifyModule id fun m =>
    { m with structs := m.structs ++ structs, functions := m.functions ++ functions } }
  declareStruct : ∀ s, ∀ id ∈ ids, ∀ x ∈ (c.program.moduleAt id).structs, ∀ owner name span, I s →
    I ⟨(s.dest.addStruct owner name span).2,
      { s.copies with structs := (x, s.dest.structs.next) :: s.copies.structs }⟩
  functions : ∀ s, ∀ id ∈ ids, ∀ x ∈ (c.program.moduleAt id).functions, ∀ new, I s →
    I { s with copies := { s.copies with functions := (x, new) :: s.copies.functions } }
  vars : ∀ s, ∀ id ∈ ids, ∀ x ∈ c.program.ownVars id, ∀ new, I s →
    I { s with copies := { s.copies with vars := (x, new) :: s.copies.vars } }
  blocks : ∀ s blocks, I s → I { s with copies := { s.copies with blocks } }
  nodes : ∀ s nodes, I s → I { s with copies := { s.copies with nodes } }

namespace CopyLaws

variable {c : CopySource} {ids : List ModuleId} {I : CopyState → Prop} {Met : Reference → Prop}
  {Target : ModuleId → Prop}

theorem blockOf (id : BlockId) : Ensures I (blockOf id) fun _ => True := by
  unfold CopySource.blockOf
  refine ensures_get.bind fun s _ => ?_
  split
  · exact ensures_pure trivial
  · exact ensures_fail _

variable (L : CopyLaws c ids I Met Target)

include L

theorem addFunction (s : CopyState) (f : Function) (hs : I s) :
    I { s with dest := (s.dest.addFunction f).2 } := by
  have hadded := L.dest s { s.dest with functions := s.dest.functions.push f } rfl rfl rfl
    (Nat.le_refl _) hs
  have hlisted := L.listed _ f.owner [] [s.dest.functions.next] hadded
  simpa [Program.addFunction] using hlisted

/-- Renaming a type meets the structs that it mentions. -/
theorem tyOf (t : Ty) : Ensures I (c.tyOf t) fun _ => ∀ r ∈ t.mentions, Met r :=
  ensures_tyOf L.structOf t

/-- Renaming a constant meets it, and what its value mentions. -/
theorem metConstant (k : ConstantId) : Ensures I (c.constantOf k) fun _ => Met (.const k) :=
  (L.constantOf k).mono fun _ hk => L.met_const k hk

/-- Copying annotations meets their constants. -/
theorem annotationsOf (a : Annotations) :
    Ensures I (c.annotationsOf a) fun _ => ∀ r ∈ a.mentions, Met r := by
  unfold CopySource.annotationsOf Annotations.mapConstants
  have hall := ensures_mapM_all (I := I) (l := a.properties)
    (f := fun x : String × ConstantId => return (x.1, ← c.constantOf x.2)) fun x _ =>
      (L.metConstant x.2).bind fun _ hx => ensures_pure hx
  exact hall.bind fun _ hall => ensures_pure (List.forall_mem_map.mpr hall)

/-! ## Expressions and statements -/

omit L in
mutual

/-- Copying an expression meets all that it mentions, by recursion on the expression. -/
theorem expr (L : CopyLaws c ids I Met Target) : ∀ e : Expr,
    Ensures I (e.rename c.renamer) fun _ => ∀ r ∈ e.mentions, Met r
  | .var v => (L.variableOf v).bind fun _ hv => ensures_pure (List.forall_mem_singleton.mpr hv)
  | .const k => (L.metConstant k).bind fun _ hk => ensures_pure (List.forall_mem_singleton.mpr hk)
  | .element e _ | .member e _ | .slice e _ _ | .unary _ e =>
      (L.expr e).bind fun _ he => ensures_pure he
  | .elementAt l r | .binary _ l r => (L.expr l).bind fun _ hl => (L.expr r).bind fun _ hr =>
      ensures_pure (List.forall_mem_append.mpr ⟨hl, hr⟩)
  | .cast t e => (L.tyOf t).bind fun _ ht => (L.expr e).bind fun _ he =>
      ensures_pure (List.forall_mem_append.mpr ⟨ht, he⟩)
  | .pureCall f args => (L.functionOf f).bind fun _ hf => (L.exprs args).bind fun _ hargs =>
      ensures_pure (List.forall_mem_cons.mpr ⟨hf, hargs⟩)
  | .property _ => ensures_pure fun _ hr => by cases hr

/-- Copying arguments meets all that they mention. -/
theorem exprs (L : CopyLaws c ids I Met Target) : ∀ es : List Expr,
    Ensures I (Expr.renameList c.renamer es) fun _ => ∀ r ∈ Expr.mentionsList es, Met r
  | [] => ensures_pure fun _ hr => by cases hr
  | e :: es => (L.expr e).bind fun _ he => (L.exprs es).bind fun _ hes =>
      ensures_pure (List.forall_mem_append.mpr ⟨he, hes⟩)

end

/-- Copying an optional expression meets all that it mentions. -/
theorem exprOption (e : Option Expr) : Ensures I (Expr.renameOption c.renamer e)
    fun _ => ∀ r ∈ e.toList.flatMap Expr.mentions, Met r := by
  cases e with
  | none => exact ensures_pure fun _ hr => by cases hr
  | some e => exact (L.expr e).bind fun _ he => ensures_pure (by simpa using he)

/-- Copying a statement meets all that it mentions. -/
theorem statement (s : Statement) :
    Ensures I (s.rename c.renamer) fun _ => ∀ r ∈ s.mentions, Met r := by
  cases s with
  | assign t v =>
      exact (L.expr t).bind fun _ ht => (L.expr v).bind fun _ hv =>
        ensures_pure (List.forall_mem_append.mpr ⟨ht, hv⟩)
  | call t f args =>
      exact (L.exprOption t).bind fun _ ht => (L.functionOf f).bind fun _ hf =>
        (L.exprs args).bind fun _ hargs => ensures_pure
          (List.forall_mem_append.mpr ⟨ht, List.forall_mem_cons.mpr ⟨hf, hargs⟩⟩)
  | read t _ => exact (L.expr t).bind fun _ ht => ensures_pure ht
  | write _ e v =>
      exact (L.exprOption e).bind fun _ he => (L.expr v).bind fun _ hv =>
        ensures_pure (List.forall_mem_append.mpr ⟨he, hv⟩)
  | advance => exact ensures_pure fun _ hr => by cases hr

/-- Copying a terminator meets all that it mentions. -/
theorem terminator (t : Terminator) :
    Ensures I (t.rename c.renamer) fun _ => ∀ r ∈ t.mentions, Met r := by
  cases t with
  | branch b args =>
      exact (blockOf b).bind fun _ _ => (L.exprs args).bind fun _ hargs =>
        ensures_pure (List.forall_mem_cons.mpr ⟨L.met_block b, hargs⟩)
  | branchIf e b ts b' fs =>
      refine (L.expr e).bind fun _ he => (blockOf b).bind fun _ _ => (blockOf b').bind fun _ _ =>
        (L.exprs ts).bind fun _ hts => (L.exprs fs).bind fun _ hfs => ensures_pure ?_
      exact List.forall_mem_append.mpr ⟨he, List.forall_mem_cons.mpr ⟨L.met_block b,
        List.forall_mem_cons.mpr ⟨L.met_block b', List.forall_mem_append.mpr ⟨hts, hfs⟩⟩⟩⟩
  | returnVoid => exact ensures_pure fun _ hr => by cases hr
  | returnValue v => exact (L.expr v).bind fun _ hv => ensures_pure hv

/-! ## Parts of modules -/

/-- Copying a variable of a listed module meets what the variable mentions. -/
theorem copyVariable {v : VariableId} {id : ModuleId} (hid : id ∈ ids)
    (hv : v ∈ c.program.ownVars id) :
    Ensures I (c.copyVariable v) fun _ => ∀ r ∈ (c.program.variableAt v).mentions, Met r := by
  have hinitial : Ensures I ((c.program.variableAt v).initial.mapM c.constantOf)
      fun _ => ∀ r ∈ (c.program.variableAt v).initial.toList.map .const, Met r := by
    cases (c.program.variableAt v).initial with
    | none => exact ensures_pure fun _ hr => by cases hr
    | some k =>
        exact (L.metConstant k).bind fun _ hk => ensures_pure (List.forall_mem_singleton.mpr hk)
  unfold CopySource.copyVariable
  refine (L.tyOf _).bind fun _ hty => hinitial.bind fun _ hinitial =>
    (L.annotationsOf _).bind fun _ hannotations =>
    (ensures_add (Q := fun _ => True) (fun s => L.dest s _ rfl rfl rfl (Nat.le_refl _))
      fun _ => trivial).bind fun new _ =>
    (ensures_modifyCopies (Q := fun _ => True) (fun s => L.vars s id hid v hv new) trivial).bind
      fun _ _ => ensures_pure ?_
  exact List.forall_mem_append.mpr ⟨hty, List.forall_mem_append.mpr ⟨hinitial, hannotations⟩⟩

/-- Copying variables of a listed module meets what they mention. -/
theorem copyVariables {l : List VariableId} {id : ModuleId} (hid : id ∈ ids)
    (hl : ∀ v ∈ l, v ∈ c.program.ownVars id) : Ensures I (l.mapM c.copyVariable)
      fun _ => ∀ v ∈ l, ∀ r ∈ (c.program.variableAt v).mentions, Met r :=
  ensures_mapM_all fun v hv => L.copyVariable hid (hl v hv)

/-- Copying the members of a struct meets what the struct mentions. -/
theorem copyMembers (s : StructId) :
    Ensures I (c.copyMembers s) fun _ => ∀ r ∈ (c.program.structAt s).mentions, Met r := by
  unfold CopySource.copyMembers
  have hmembers := ensures_mapM_all (I := I) (l := (c.program.structAt s).members)
    (f := fun m : Member => return { m with ty := ← c.tyOf m.ty }) fun m _ =>
      (L.tyOf m.ty).bind fun _ ht => ensures_pure ht
  refine hmembers.bind fun _ hmembers => (L.structOf s).bind fun _ _ =>
    ensures_modifyDest
      (fun s => L.dest s _ rfl rfl rfl (Nat.le_of_eq (Arena.size_modify _ _ _).symm)) ?_
  exact List.forall_mem_cons.mpr ⟨L.met_mod _, List.forall_mem_flatMap.mpr hmembers⟩

/-- Copying the variables of a listed module meets what they mention. -/
theorem copyModuleVariables {id : ModuleId} (hid : id ∈ ids) :
    Ensures I (c.copyModuleVariables id)
      fun _ => ∀ v ∈ c.program.moduleVars id, ∀ r ∈ (c.program.variableAt v).mentions, Met r := by
  have hstep : ∀ (l : List VariableId) (target : ModuleId) (f : VariableId → Module → Module),
      Target target → (∀ v m, (f v m).name = m.name) → (∀ v ∈ l, v ∈ c.program.moduleVars id) →
      Ensures I (l.forM fun v => do
        let new ← c.copyVariable v
        modifyDest (·.modifyModule target (f new)))
        fun _ => ∀ v ∈ l, ∀ r ∈ (c.program.variableAt v).mentions, Met r := by
    intro l target f htarget hname hl
    exact ensures_forM fun v hv =>
      (L.copyVariable hid (List.mem_append_left _ (hl v hv))).bind fun new hmet =>
        ensures_modifyDest (fun s => L.target s target _ htarget (hname new)) hmet
  unfold CopySource.copyModuleVariables
  refine (L.moduleOf id).bind fun target htarget =>
    (hstep _ target (fun new m => { m with parameters := m.parameters ++ [new] }) (htarget hid)
      (fun _ _ => rfl) fun _ hv => List.mem_append_left _ hv).bind fun _ hparameters =>
    (hstep _ target (fun new m => { m with state := m.state ++ [new] }) (htarget hid)
      (fun _ _ => rfl) fun _ hv => List.mem_append_right _ hv).mono fun _ hstate => ?_
  exact List.forall_mem_append.mpr ⟨hparameters, hstate⟩

section

variable {f : FunctionId} {id : ModuleId} (hid : id ∈ ids)
  (hf : f ∈ (c.program.moduleAt id).functions)

include hid hf

/-- Copying the signature of a function meets its types, its annotations and what its variables
mention. -/
theorem copySignature : Ensures I (c.copySignature f) fun _ =>
    (∀ r ∈ (c.program.functionAt f).returns.mentions, Met r) ∧
      (∀ r ∈ (c.program.functionAt f).annotations.mentions, Met r) ∧
      ∀ v ∈ c.program.signatureVars f, ∀ r ∈ (c.program.variableAt v).mentions, Met r := by
  have hown : ∀ v ∈ c.program.signatureVars f, v ∈ c.program.ownVars id := fun v hv =>
    List.mem_append_right _ (List.mem_append_left _ (List.mem_flatMap.mpr ⟨f, hf, hv⟩))
  unfold CopySource.copySignature
  refine (L.moduleOf _).bind fun owner _ => (L.tyOf _).bind fun _ hreturns =>
    (L.annotationsOf _).bind fun _ hannotations =>
    (L.copyVariables hid fun v hv => hown v (List.mem_append_left _ hv)).bind fun _ hparameters =>
    (L.copyVariables hid fun v hv => hown v (List.mem_append_right _ hv)).bind fun _ hlocals =>
    (ensures_add (Q := fun _ => True) (fun s => L.addFunction s _) fun _ => trivial).bind
      fun new _ => ensures_modifyCopies (fun s => L.functions s id hid f hf new) ?_
  exact ⟨hreturns, hannotations, List.forall_mem_append.mpr ⟨hparameters, hlocals⟩⟩

/-- Copying the blocks of a function meets what their parameters and their code mention. -/
theorem copyBody : Ensures I (c.copyBody f) fun _ =>
    (∀ v ∈ c.program.blockVars f, ∀ r ∈ (c.program.variableAt v).mentions, Met r) ∧
      ∀ b ∈ (c.program.functionAt f).blocks.toList,
        ∀ r ∈ b.statements.flatMap Statement.mentions ++ b.terminator.mentions, Met r := by
  have hown : ∀ v ∈ c.program.blockVars f, v ∈ c.program.ownVars id := fun v hv =>
    List.mem_append_right _ (List.mem_append_right _ (List.mem_flatMap.mpr ⟨f, hf, hv⟩))
  have hentries : ∀ {Q : Block → Prop}, (∀ x ∈ (c.program.functionAt f).blocks.entries, Q x.2) →
      ∀ b ∈ (c.program.functionAt f).blocks.toList, Q b := by
    intro Q hall b hb
    rw [← Arena.map_snd_entries] at hb
    obtain ⟨x, hx, rfl⟩ := List.mem_map.mp hb
    exact hall x hx
  have hblock : ∀ target, ∀ x ∈ (c.program.functionAt f).blocks.entries,
      Ensures I (c.copyBlock target x.1 x.2)
        fun _ => ∀ v ∈ x.2.parameters, ∀ r ∈ (c.program.variableAt v).mentions, Met r := by
    intro target x hx
    have hmem : x.2 ∈ (c.program.functionAt f).blocks.toList := by
      rw [← Arena.map_snd_entries]
      exact List.mem_map_of_mem hx
    unfold CopySource.copyBlock
    exact (L.copyVariables hid fun v hv => hown v (List.mem_flatMap.mpr ⟨x.2, hmem, hv⟩)).bind
      fun _ hparameters => ensures_get.bind fun _ _ =>
      (ensures_modifyDest (Q := fun _ => True)
        (fun s => L.dest s _ rfl rfl rfl (Nat.le_refl _)) trivial).bind fun _ _ =>
      ensures_modifyCopies (fun s => L.blocks s _) hparameters
  have hbody : ∀ (target : FunctionId) (x : BlockId × Block),
      Ensures I (c.copyBlockBody target x.1 x.2) fun _ =>
        ∀ r ∈ x.2.statements.flatMap Statement.mentions ++ x.2.terminator.mentions, Met r := by
    intro target x
    unfold CopySource.copyBlockBody
    exact (ensures_mapM_all fun s _ => L.statement s).bind fun _ hstatements =>
      (L.terminator x.2.terminator).bind fun _ hterminator => (blockOf x.1).bind fun _ _ =>
      ensures_modifyDest (fun s => L.dest s _ rfl rfl rfl (Nat.le_refl _))
        (List.forall_mem_append.mpr ⟨List.forall_mem_flatMap.mpr hstatements, hterminator⟩)
  unfold CopySource.copyBody
  refine (L.functionOf f).bind fun target _ =>
    (ensures_modifyCopies (Q := fun _ => True) (fun s => L.blocks s []) trivial).bind fun _ _ =>
    (ensures_forM (hblock target)).bind fun _ hparameters =>
    (ensures_forM fun x _ => hbody target x).mono fun _ hbodies => ?_
  exact ⟨List.forall_mem_flatMap.mpr (hentries hparameters), hentries hbodies⟩

end

/-- Copying an endpoint meets what it mentions. -/
theorem copyEndpoint {target : ModuleId} (htarget : Target target) (e : Endpoint) :
    Ensures I (c.copyEndpoint target e) fun _ => ∀ r ∈ e.mentions, Met r := by
  have hdetails : Ensures I
      (e.details.mapM fun d => return { d with types := ← d.types.mapM c.tyOf })
      fun _ => ∀ r ∈ e.details.toList.flatMap fun d => d.types.flatMap Ty.mentions, Met r := by
    cases e.details with
    | none => exact ensures_pure fun _ hr => by cases hr
    | some d =>
        refine ((ensures_mapM_all fun t _ => L.tyOf t).bind (R := fun _ => _) fun _ htypes =>
          ensures_pure htypes).bind fun _ htypes => ensures_pure ?_
        simpa using List.forall_mem_flatMap.mpr htypes
  unfold CopySource.copyEndpoint
  exact hdetails.bind fun _ hdetails => (L.annotationsOf _).bind fun _ hannotations =>
    ensures_modifyDest (fun s => L.target s target _ htarget (by intro _; rfl))
      (List.forall_mem_append.mpr ⟨hdetails, hannotations⟩)

/-- Copying a node meets the arguments that it supplies. -/
theorem copyNode {target : ModuleId} (htarget : Target target) (k : NodeId) (n : Node) :
    Ensures I (c.copyNode target k n) fun _ => ∀ r ∈ n.mentions, Met r := by
  unfold CopySource.copyNode
  exact (ensures_mapM_all fun k _ => L.metConstant k).bind fun _ hargs =>
    ensures_get.bind fun _ _ =>
    (ensures_modifyDest (Q := fun _ => True)
      (fun s => L.target s target _ htarget (by intro _; rfl)) trivial).bind fun _ _ =>
    ensures_modifyCopies (fun s => L.nodes s _) (List.forall_mem_map.mpr hargs)

theorem copyConnection {target : ModuleId} (htarget : Target target) (w : Connection) :
    Ensures I (CopySource.copyConnection target w) fun _ => True := by
  have hend : ∀ r : EndpointRef, Ensures I (endpointRefOf r) fun _ => True := by
    intro r
    unfold endpointRefOf
    split
    · exact ensures_pure trivial
    · refine ensures_get.bind fun s _ => ?_
      split
      · exact ensures_pure trivial
      · exact ensures_fail _
  unfold CopySource.copyConnection
  exact (hend _).bind fun _ _ => (hend _).bind fun _ _ =>
    ensures_modifyDest (fun s => L.target s target _ htarget (by intro _; rfl)) trivial

/-- Copying the contents of a listed module meets all that the module and its functions mention. -/
theorem copyContents {id : ModuleId} (hid : id ∈ ids) : Ensures I (c.copyContents id) fun _ =>
    ((∀ r ∈ (c.program.moduleAt id).annotations.mentions, Met r) ∧
      (∀ e ∈ (c.program.moduleAt id).endpoints.toList, ∀ r ∈ e.mentions, Met r) ∧
      ∀ n ∈ (c.program.moduleAt id).nodes.toList, ∀ r ∈ n.mentions, Met r) ∧
    ∀ f ∈ (c.program.moduleAt id).functions,
      (∀ v ∈ c.program.blockVars f, ∀ r ∈ (c.program.variableAt v).mentions, Met r) ∧
      ∀ b ∈ (c.program.functionAt f).blocks.toList,
        ∀ r ∈ b.statements.flatMap Statement.mentions ++ b.terminator.mentions, Met r := by
  unfold CopySource.copyContents
  refine (L.moduleOf id).bind fun target htarget => (L.annotationsOf _).bind fun _ hannotations =>
    (ensures_modifyDest (Q := fun _ => True)
      (fun s => L.target s target _ (htarget hid) (by intro _; rfl)) trivial).bind fun _ _ =>
    (ensures_forM fun e _ => L.copyEndpoint (htarget hid) e).bind fun _ hendpoints =>
    (ensures_modifyCopies (Q := fun _ => True) (fun s => L.nodes s []) trivial).bind fun _ _ =>
    (ensures_forM fun x _ => L.copyNode (htarget hid) x.1 x.2).bind fun _ hnodes =>
    (ensures_forM fun w _ => L.copyConnection (htarget hid) w).bind fun _ _ =>
    (ensures_forM fun f hf => L.copyBody hid hf).mono fun _ hbodies => ?_
  refine ⟨⟨hannotations, hendpoints, fun n hn => ?_⟩, hbodies⟩
  rw [← Arena.map_snd_entries] at hn
  obtain ⟨x, hx, rfl⟩ := List.mem_map.mp hn
  exact hnodes x hx

/-! ## Whole modules -/

theorem declareStructs {id : ModuleId} (hid : id ∈ ids) :
    Ensures I (c.declareStructs id) fun _ => True := by
  unfold CopySource.declareStructs
  refine (L.moduleOf id).bind fun target _ =>
    (ensures_forM (Q := fun _ => True) fun x hx => ?_).mono fun _ _ => trivial
  intro s _ s' hs hrun
  cases hrun
  exact ⟨L.declareStruct s id hid x hx _ _ _ hs, trivial⟩

end CopyLaws

/-- What is left of copying once the modules have been declared. -/
def CopySource.copyDeclared (c : CopySource) (ids : List ModuleId) : Copy (List ModuleId) := do
  ids.forM c.declareStructs
  ids.forM fun id => (c.program.moduleAt id).structs.forM c.copyMembers
  ids.forM c.copyModuleVariables
  ids.forM fun id => (c.program.moduleAt id).functions.forM c.copySignature
  ids.forM c.copyContents
  ids.mapM c.moduleOf

/-- Copying modules: declaring each of them, then copying what is declared. -/
theorem CopySource.copyModules_eq (c : CopySource) (newName : Option String)
    (ids : List ModuleId) : c.copyModules newName ids =
      (ids.forM (c.declareModule newName) >>= fun _ => c.copyDeclared ids) := rfl

/-- Copying that succeeds has looked at all that the modules mention, and answers their copies. -/
theorem CopyLaws.copyDeclared {c : CopySource} {ids : List ModuleId} {I : CopyState → Prop}
    {Met : Reference → Prop} {Target : ModuleId → Prop} (L : CopyLaws c ids I Met Target) :
    Ensures I (c.copyDeclared ids) fun new =>
      (∀ id ∈ ids, ∀ r ∈ c.program.mentions id, Met r) ∧
        List.Forall₂ (fun _ target => Target target) ids new := by
  unfold CopySource.copyDeclared
  refine (ensures_forM fun id hid => L.declareStructs hid).bind fun _ _ =>
    (ensures_forM fun id _ => ensures_forM fun s _ => L.copyMembers s).bind fun _ hstructs =>
    (ensures_forM fun id hid => L.copyModuleVariables hid).bind fun _ hvars =>
    (ensures_forM fun id hid => ensures_forM fun f hf => L.copySignature hid hf).bind
      fun _ hsignatures =>
    (ensures_forM fun id hid => L.copyContents hid).bind fun _ hcontents =>
    (ensures_mapM fun id hid => (L.moduleOf id).mono fun _ htarget => htarget hid).mono
      fun _ htargets => ⟨fun id hid => ?_, htargets⟩
  obtain ⟨⟨hannotations, hendpoints, hnodes⟩, hbodies⟩ := hcontents id hid
  have hown : ∀ v ∈ c.program.ownVars id, Met (.var v) := fun v hv =>
    L.met_own id hid (.var v) hv
  -- what a module mentions is met by the parts of the copying, or is its own
  have hmodule : ∀ r ∈ (c.program.moduleAt id).mentions, Met r := by
    simp only [Module.mentions, List.forall_mem_append, List.forall_mem_flatMap,
      List.forall_mem_map]
    refine ⟨hannotations, hendpoints, hnodes, fun s hs => L.met_own id hid (.record s) hs,
      fun f hf => L.met_own id hid (.func f) hf, fun v hv => ?_, fun v hv => ?_⟩
    · exact hown v (List.mem_append_left _ (List.mem_append_right _ hv))
    · exact hown v (List.mem_append_left _ (List.mem_append_left _ hv))
  have hfunction : ∀ f ∈ (c.program.moduleAt id).functions,
      ∀ r ∈ (c.program.functionAt f).mentions, Met r := by
    intro f hf
    obtain ⟨hreturns, hannotations, -⟩ := hsignatures id hid f hf
    have hsignature : ∀ v ∈ c.program.signatureVars f, Met (.var v) := fun v hv =>
      hown v (List.mem_append_right _ (List.mem_append_left _ (List.mem_flatMap.mpr ⟨f, hf, hv⟩)))
    refine List.forall_mem_cons.mpr ⟨L.met_mod _, ?_⟩
    simp only [List.forall_mem_append, List.forall_mem_flatMap, List.forall_mem_map]
    refine ⟨hreturns, fun v hv => hsignature v (List.mem_append_left _ hv),
      fun v hv => hsignature v (List.mem_append_right _ hv), fun b hb => ?_, hannotations⟩
    refine List.forall_mem_append.mpr ⟨List.forall_mem_map.mpr fun v hv => ?_,
      (hbodies f hf).2 b hb⟩
    exact hown v (List.mem_append_right _ (List.mem_append_right _
      (List.mem_flatMap.mpr ⟨f, hf, List.mem_flatMap.mpr ⟨b, hb, hv⟩⟩)))
  simp only [Program.mentions, List.forall_mem_append, List.forall_mem_flatMap]
  refine ⟨hmodule, hstructs id hid, hfunction, fun v hv => ?_⟩
  simp only [Program.ownVars, List.mem_append, List.mem_flatMap] at hv
  obtain hv | ⟨f, hf, hv⟩ | ⟨f, hf, hv⟩ := hv
  · exact hvars id hid v hv
  · exact (hsignatures id hid f hf).2.2 v hv
  · exact (hbodies f hf).1 v hv

end SignalGraph

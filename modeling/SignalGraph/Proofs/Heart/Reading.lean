import SignalGraph.Proofs.Heart.ParserSteps
import SignalGraph.Proofs.Program.Additions

/-!
# SignalGraph.Proofs.Heart.Reading

What is read into a program mentions only what is there: types, constants, annotations, expressions,
statements and terminators.  Reading these adds constants and texts to the program and nothing that
could be looked up (`Reads`), so what has been read stays right while more is read.

What an expression may mention depends on the function that it belongs to; `Readable` says that the
names in scope are names of what the function can see.
-/

namespace SignalGraph

/-! ## Look-ups -/

namespace Program

variable {p : Program}

/-- What a path leads to is an item of some module. -/
theorem byPath?_eq_some {α : Type} {find : ModuleId → String → Option α} {path : String} {a : α}
    (h : p.byPath? find path = some a) : ∃ id ∈ p.modules.handles, ∃ name, find id name =
      some a := by
  simp only [byPath?, Option.bind_eq_bind, Option.bind_eq_some_iff] at h
  obtain ⟨⟨owner, name⟩, -, id, hid, ha⟩ := h
  obtain ⟨m, hm, -⟩ := Arena.find?_eq_some_iff.mp hid
  exact ⟨id, Arena.mem_handles_iff.mpr (Arena.lt_size_of_get? hm), name, ha⟩

/-- Paths lead to structs in range. -/
theorem WellFormed.structByPath? (hp : p.WellFormed) {path : String} {s : StructId}
    (h : p.structByPath? path = some s) : p.inRange.onStruct s = some s := by
  obtain ⟨id, hid, name, hs⟩ := byPath?_eq_some h
  have hrange := hp.struct_inRange hid (List.mem_of_find?_eq_some hs)
  exact Handle.below_eq_some_iff.mpr ⟨Arena.mem_handles_iff.mp hrange, rfl⟩

/-- Paths lead to functions in range. -/
theorem WellFormed.functionByPath? (hp : p.WellFormed) {path : String} {f : FunctionId}
    (h : p.functionByPath? path = some f) : p.inRange.onFunction f = some f := by
  obtain ⟨id, hid, name, hf⟩ := byPath?_eq_some h
  have hrange := hp.function_inRange hid (List.mem_of_find?_eq_some hf)
  exact Handle.below_eq_some_iff.mpr ⟨Arena.mem_handles_iff.mp hrange, rfl⟩

/-- Paths lead to variables of modules only, never to those of functions. -/
theorem mem_allModuleVars_of_variableByPath? {path : String} {v : VariableId}
    (h : p.variableByPath? path = some v) : v ∈ p.allModuleVars := by
  obtain ⟨id, hid, name, hv⟩ := byPath?_eq_some h
  have hmem := List.mem_of_find?_eq_some hv
  exact List.mem_flatMap.mpr ⟨id, hid, by simpa [moduleVars, or_comm] using hmem⟩

end Program

/-- A larger renaming treats an expression as the smaller one does where that is defined. -/
theorem Renaming.Le.expr {r r' : Renaming} (h : r.Le r') :
    Extends (Expr.rename r.renamer) (Expr.rename r'.renamer) :=
  (Expr.rename_commutes h.square).extends Expr.rename_keeps

/-- Arguments are left as they are if each of them is. -/
theorem Expr.renameList_self {r : Renamer Option} {es : List Expr}
    (h : ∀ e ∈ es, e.rename r = some e) : Expr.renameList r es = some es := by
  induction es with
  | nil => rfl
  | cons e es ih =>
      have htail := ih fun e he => h e (List.mem_cons_of_mem _ he)
      simp [Expr.renameList, h e List.mem_cons_self, htail]

/-- Setting a property keeps the others. -/
theorem Annotations.mem_set {a : Annotations} {key : String} {value : ConstantId}
    {x : String × ConstantId} (hx : x ∈ (a.set key value).properties) :
    x ∈ a.properties ∨ x.2 = value := by
  have hgo : ∀ l, x ∈ Annotations.set.go key value l → x ∈ l ∨ x.2 = value := by
    intro l
    induction l with
    | nil =>
        intro hx
        simp only [Annotations.set.go, List.mem_singleton] at hx
        exact .inr (by rw [hx])
    | cons y l ih =>
        intro hx
        rw [Annotations.set.go] at hx
        split at hx <;> grind
  exact hgo a.properties hx

namespace Heart.Parser

variable {α β : Type}

/-- Where the parser succeeds, it has only collected constants, texts and variables, and `post`
holds. -/
abbrev Reads (x : Parser α) (p : Program) (post : Program → α → Prop) : Prop :=
  Along Program.Collects x p post

/-! ## Types -/

section

variable {p : Program}

instance : Still atArraySuffix := by unfold atArraySuffix; infer_instance

instance : Still localRole := by unfold localRole; infer_instance

section

variable {r : Renaming} {t : Ty} (h : r.onTy t = some t)

include h

/-- A type in range makes an array type in range. -/
theorem onTy_array (n : Option Nat) : r.onTy (.array t n) = some (.array t n) := by
  rw [Renaming.onTy] at h ⊢
  simp [Ty.mapStructs, h]

/-- A type in range stays in range when it becomes constant. -/
theorem onTy_const : r.onTy (.const t) = some (.const t) := by
  rw [Renaming.onTy] at h ⊢
  simp [Ty.mapStructs, h]

/-- A type in range stays in range when it becomes a reference. -/
theorem onTy_ref : r.onTy (.ref t) = some (.ref t) := by
  rw [Renaming.onTy] at h ⊢
  simp [Ty.mapStructs, h]

omit h in
/-- The type that a reference type in range refers to is in range. -/
theorem onTy_of_ref (h : r.onTy (.ref t) = some (.ref t)) : r.onTy t = some t := by
  simp only [Renaming.onTy, Ty.mapStructs, Option.bind_eq_bind, Option.bind_eq_some_iff] at h
  obtain ⟨t', ht, heq⟩ := h
  cases heq
  exact ht

/-- The constant form of a type in range is in range. -/
theorem onTy_asConst : r.onTy t.asConst = some t.asConst := by
  induction t with
  | ref t ih => exact onTy_ref (ih (onTy_of_ref h))
  | const t => exact h
  | prim _ | vector _ _ | array _ _ | struct _ | string => exact onTy_const h

/-- The reference form of a type in range is in range. -/
theorem onTy_asReference : r.onTy t.asReference = some t.asReference := by
  cases t with
  | ref t => exact h
  | _ => exact onTy_ref h

end

/-- A name of a type is read as a type in range. -/
theorem reads_plainType (hp : p.WellFormed) :
    Reads plainType p fun q t => q.inRange.onTy t = some t := by
  unfold plainType
  refine along_then fun t => along_ite (along_expected _) ?_
  split
  · refine along_then fun _ => along_then fun vector => along_ite ?_ (along_pure rfl)
    exact along_then fun lanes => along_then fun _ => along_pure rfl
  · refine along_ite (along_then fun _ => along_pure rfl) (along_then fun path => ?_)
    refine along_program ?_
    split
    · rename_i id hid
      have hs := hp.structByPath? hid
      exact along_pure (by simp [Renaming.onTy, Ty.mapStructs, hs])
    · exact along_fail _ _

/-- Array suffixes after a type in range make a type in range. -/
theorem reads_arraySuffixes {t : Ty} (h : p.inRange.onTy t = some t) (n : Nat) :
    Reads (arraySuffixes n t) p fun q t => q.inRange.onTy t = some t := by
  induction n generalizing t with
  | zero => exact along_pure h
  | succ n ih =>
      unfold arraySuffixes
      refine along_then fun more => along_ite ?_ (along_pure h)
      refine along_then fun _ => along_then fun empty => along_ite (ih (onTy_array h none)) ?_
      exact along_then fun length => along_then fun _ => ih (onTy_array h (some length))

/-- A written type is read as a type in range. -/
theorem reads_type (hp : p.WellFormed) : Reads type p fun q t => q.inRange.onTy t = some t := by
  unfold type
  refine along_then fun isConst => along_then fun n => ?_
  refine (reads_plainType hp).bind fun t q _ ht => ?_
  refine (reads_arraySuffixes ht n).bind fun t r _ ht => ?_
  have hconst : r.inRange.onTy (if isConst then t.asConst else t) =
      some (if isConst then t.asConst else t) := by
    split
    · exact onTy_asConst ht
    · exact ht
  exact along_then fun isRef => along_ite (along_pure (onTy_asReference hconst)) (along_pure hconst)

/-! ## Constants -/

/-- Integers mention nothing. -/
theorem soundValue_of_integerValue? {text : String} {v : Value} (h : integerValue? text = some v) :
    SoundValue p v := by
  unfold integerValue? at h
  split at h <;>
    (obtain ⟨n, -, rfl⟩ := Option.map_eq_some_iff.mp h
     exact ⟨_, rfl⟩)

/-- Floats mention nothing. -/
theorem soundValue_floatValue (text : String) : SoundValue p (floatValue text) := by
  unfold floatValue
  split <;> exact ⟨_, rfl⟩

/-- Named values mention nothing. -/
theorem soundValue_of_namedValue? {name : String} {v : Value} (h : namedValue? name = some v) :
    SoundValue p v := by
  unfold namedValue? at h
  split at h <;> cases h <;> exact ⟨_, rfl⟩

/-- A text that was just interned is there. -/
theorem soundValue_internText (text : String) :
    SoundValue (p.internText text).2 (.string (p.internText text).1) := by
  have hpresent : CopySource.present (p.internText text).2 (p.internText text).1 =
      some (p.internText text).1 :=
    Program.present_eq_some_iff.mpr ⟨rfl, text, Interner.get?_intern p.texts text⟩
  exact ⟨_, by simp only [Value.mapParts, hpresent]; rfl⟩

/-- An aggregate of sound values of a type in range is sound. -/
theorem soundValue_ofElements {t : Ty} {vs : List Value} (ht : p.inRange.onTy t = some t)
    (hvs : ∀ v ∈ vs, SoundValue p v) : SoundValue p (.ofElements t vs) := by
  unfold Value.ofElements
  split
  · have hzero : t.mapStructs (·.below p.structs.size) = some t := ht
    exact ⟨.zero t, by simp [Value.mapParts, hzero]⟩
  · exact soundValue_aggregate.mpr ⟨⟨t, ht⟩, hvs⟩

/-- A sound value stays sound while texts, constants and variables are collected. -/
theorem soundValue_collects (q r : Program) (v : Value) (h : q.Collects r) (hv : SoundValue q v) :
    SoundValue r v := h.soundValue hv

/-- If nested constants are read as sound values, so are the constants that they stand in. -/
theorem reads_constantWith (hp : p.WellFormed) {element : Parser Value}
    (helement : ∀ q, p.Collects q → Reads element q SoundValue) :
    Reads (constantWith element) p SoundValue := by
  unfold constantWith
  refine along_then fun t => ?_
  split
  · split
    · rename_i v hv
      exact along_then fun _ => along_pure (soundValue_of_integerValue? hv)
    · exact along_fail _ _
  · exact along_then fun _ => along_pure (soundValue_floatValue _)
  · have hadd : Reads (add (·.internText (unescape t.text))) p fun q id =>
      SoundValue q (.string id) :=
      along_add (.internText p _) (soundValue_internText _)
    exact hadd.bind fun id q _ hid => along_then fun _ => along_pure hid
  · refine along_then fun called => ?_
    extract_lets named
    -- named values are sound by themselves
    have hnamed : ∀ v, named = some v → SoundValue p v := by
      intro v hv
      simp only [named, Option.orElse_eq_orElse, Option.orElse_eq_or, Option.or_eq_some_iff] at hv
      rcases hv with hv | ⟨-, hv⟩
      · exact soundValue_of_namedValue? hv
      · obtain ⟨-, hvoid⟩ := Option.ite_none_right_eq_some.mp hv
        cases hvoid
        exact ⟨_, rfl⟩
    clear_value named
    split
    · rename_i v
      exact along_then fun _ => along_pure (hnamed v rfl)
    · refine (reads_type hp).bind fun t q hq ht => along_then fun _ => ?_
      have hlist : Reads (commaList .rightParen element) q fun q vs => ∀ v ∈ vs, SoundValue q v :=
        along_commaList soundValue_collects fun r hr => helement r (hq.trans hr)
      refine hlist.bind fun vs r hr hvs => along_pure (soundValue_ofElements ?_ hvs)
      exact Ty.mapStructs_extends hr.inRange_le.onStruct ht
  · exact along_expected _

/-- Constants of every depth of nesting are read as sound values, by induction on the depth. -/
theorem reads_constantTo (hp : p.WellFormed) (n : Nat) : Reads (constantTo n) p SoundValue := by
  induction n generalizing p with
  | zero => exact along_expected _
  | succ n ih => exact reads_constantWith hp fun q hq => ih (hq.wellFormed hp)

/-- A written constant is read as a sound value. -/
theorem reads_constant (hp : p.WellFormed) : Reads constant p SoundValue :=
  along_then fun n => reads_constantTo hp n

/-- A constant with a sound value can be mentioned. -/
theorem onConstant_intern {v : Value} (hv : SoundValue p v) :
    (p.intern v).2.inRange.onConstant (p.intern v).1 = some (p.intern v).1 := by
  refine Program.sound_iff.mpr ⟨v, Interner.get?_intern p.constants v, ?_⟩
  exact (Program.Collects.intern hv).soundValue hv

/-- A constant in code is interned, so its handle leads to a sound value. -/
theorem reads_internedConstant (hp : p.WellFormed) :
    Reads internedConstant p fun q c => q.inRange.onConstant c = some c := by
  refine (reads_constant hp).bind fun v q _ hv => ?_
  exact along_add (.intern hv) (onConstant_intern hv)

/-! ## Annotations -/

/-- The value of a property is interned, so its handle leads to a sound value. -/
theorem reads_property (hp : p.WellFormed) :
    Reads property p fun q x => q.inRange.onConstant x.2 = some x.2 := by
  unfold property
  refine along_then fun t => ?_
  extract_lets key jp
  have hjp : ∀ r, Reads (jp r) p fun q x => q.inRange.onConstant x.2 = some x.2 := by
    intro r
    unfold jp
    exact along_then fun _ => (reads_internedConstant hp).bind fun c q _ hc => along_pure hc
  clear_value jp
  exact along_then fun quoted => along_ite (hjp _) (along_then fun _ => hjp _)

/-- Properties that are set one after the other mention what each of them mentions. -/
theorem mapConstants_of_foldl {f : ConstantId → Option ConstantId} {l : List (String × ConstantId)}
    (h : ∀ x ∈ l, f x.2 = some x.2) :
    (l.foldl (fun a (key, value) => a.set key value) {} : Annotations).mapConstants f =
      some (l.foldl (fun a (key, value) => a.set key value) {}) := by
  suffices hall : ∀ a : Annotations, (∀ x ∈ a.properties, f x.2 = some x.2) →
      ∀ x ∈ (l.foldl (fun a (key, value) => a.set key value) a).properties, f x.2 = some x.2 by
    refine Annotations.mapConstants_eq_some_iff.mpr (mapM_self_of_forall fun x hx => ?_)
    simp [Annotations.mapProperty, hall {} (fun _ hx => by cases hx) x hx]
  induction l with
  | nil => exact fun a ha => ha
  | cons y l ih =>
      intro a ha
      refine ih (fun x hx => h x (List.mem_cons_of_mem _ hx)) _ fun x hx => ?_
      rcases Annotations.mem_set hx with hx | hx
      · exact ha x hx
      · rw [hx]
        exact h y List.mem_cons_self

/-- Annotations are read with constants that are there. -/
theorem reads_annotations (hp : p.WellFormed) :
    Reads annotations p fun q a => a.mapConstants q.inRange.onConstant = some a := by
  unfold annotations
  refine along_then fun first => along_then fun second => along_ite ?_ (along_pure rfl)
  refine along_then fun _ => along_then fun _ => ?_
  have hlist : Reads (commaList .rightBracket property) p
      fun q l => ∀ x ∈ l, q.inRange.onConstant x.2 = some x.2 :=
    along_commaList (fun _ _ _ h hx => h.inRange_le.onConstant hx)
      fun q hq => reads_property (hq.wellFormed hp)
  exact hlist.bind fun l q _ hl => along_then fun _ => along_pure (mapConstants_of_foldl hl)

end

/-! ## Expressions -/

/-- The names in scope are names of what is known. -/
structure Scope.Fits (scope : Scope) (r : Renaming) : Prop where
  vars : ∀ x ∈ scope.vars, r.onVariable x.2 = some x.2
  blocks : ∀ x ∈ scope.blocks, r.onBlock x.2 = some x.2

/-- A scope that fits some names fits all larger ones. -/
theorem Scope.Fits.mono {scope : Scope} {r r' : Renaming} (h : scope.Fits r) (hle : r.Le r') :
    scope.Fits r' where
  vars x hx := hle.onVariable (h.vars x hx)
  blocks x hx := hle.onBlock (h.blocks x hx)

/-- The body of a function can be read: names in scope are names of what the function can see. -/
structure Readable (p : Program) (f : Function) (scope : Scope) : Prop where
  wellFormed : p.WellFormed
  fits : scope.Fits (p.scope f)

/-- The expression mentions only what the function can see. -/
def SeenBy (f : Function) (p : Program) (e : Expr) : Prop := e.rename (p.scope f).renamer = some e

/-- What is found under a name is listed under it. -/
theorem mem_of_lookup {k : String} {l : List (String × α)} {a : α} (h : l.lookup k = some a) :
    (k, a) ∈ l := by
  induction l with
  | nil => cases h
  | cons x l ih =>
      obtain ⟨k', b⟩ := x
      rw [List.lookup_cons] at h
      split at h
      · rename_i hk
        cases h
        rw [eq_of_beq hk]
        exact List.mem_cons_self
      · exact List.mem_cons_of_mem _ (ih h)

section

variable {p q : Program} {f : Function} {scope : Scope}

/-- A function stays readable while texts, constants and variables are collected. -/
theorem Readable.collects (h : Readable p f scope) (hq : p.Collects q) : Readable q f scope :=
  ⟨hq.wellFormed h.wellFormed, h.fits.mono (hq.scope_le f)⟩

/-- What a function may mention, it may mention while texts, constants and variables are
collected. -/
theorem SeenBy.collects {e : Expr} (h : SeenBy f p e) (hq : p.Collects q) : SeenBy f q e :=
  (hq.scope_le f).expr h

/-- Every function sees the variables of all modules. -/
theorem onVariable_of_mem_allModuleVars {v : VariableId} (hv : v ∈ p.allModuleVars) :
    (p.scope f).onVariable v = some v :=
  Program.scope_onVariable.mpr
    ⟨List.mem_append_left _ hv, List.mem_append_left _ hv, rfl⟩

/-- A path of a function is read as a function in range. -/
theorem reads_functionRef (hp : p.WellFormed) :
    Reads functionRef p fun q g => (q.scope f).onFunction g = some g := by
  unfold functionRef
  refine along_then fun t => along_then fun path => along_program ?_
  split
  · rename_i g hg
    exact along_pure (hp.functionByPath? hg)
  · exact along_fail _ _

/-- A name with a dollar sign is read as a variable that the function sees. -/
theorem reads_localVariable (h : Readable p f scope) :
    Reads (localVariable scope) p (SeenBy f) := by
  unfold localVariable
  refine along_then fun t => ?_
  split
  · rename_i v hv
    have hseen := h.fits.vars _ (mem_of_lookup hv)
    exact along_then fun _ => along_pure (by simp [SeenBy, Expr.rename, hseen])
  · exact along_fail _ _

/-- A constant is read as an expression that every function may contain. -/
theorem reads_constExpr (hp : p.WellFormed) :
    Reads (return .const (← internedConstant)) p (SeenBy f) := by
  refine (reads_internedConstant hp).bind fun c q _ hc => along_pure ?_
  have hseen : (q.scope f).onConstant c = some c := hc
  simp [SeenBy, Expr.rename, hseen]

/-- A path is read as a variable of a module or a constant, and every function may mention
either. -/
theorem reads_pathOrConstant (hp : p.WellFormed) : Reads pathOrConstant p (SeenBy f) := by
  unfold pathOrConstant
  refine along_then fun here => along_then fun qualified => ?_
  extract_lets jp
  have hjp : ∀ found : Option VariableId, (∀ v, found = some v → v ∈ p.allModuleVars) →
      Reads (jp found) p (SeenBy f) := by
    intro found hfound
    unfold jp
    split
    · rename_i v
      have hseen := onVariable_of_mem_allModuleVars (f := f) (hfound v rfl)
      exact along_pure (by simp [SeenBy, Expr.rename, hseen])
    · exact along_then fun _ => reads_constExpr hp
  clear_value jp
  refine along_ite (along_then fun path => along_program ?_) ?_
  · rw [pure_bind]
    exact hjp _ fun v hv => Program.mem_allModuleVars_of_variableByPath? hv
  · rw [pure_bind]
    exact hjp none fun _ hv => by cases hv

section

variable {expr : Parser Expr} (hexpr : ∀ q, p.Collects q → Reads expr q (SeenBy f))

include hexpr

/-- Arguments are read as expressions that the function may contain if single expressions are. -/
theorem reads_arguments : Reads (arguments expr) p fun q es => ∀ e ∈ es, SeenBy f q e :=
  along_then fun _ => along_commaList (fun _ _ _ h he => he.collects h) hexpr

/-- A cast is read as an expression that the function may contain. -/
theorem reads_castExpr (hp : p.WellFormed) : Reads (castExpr expr) p (SeenBy f) := by
  unfold castExpr
  refine along_then fun _ => (reads_type hp).bind fun t q hq ht => along_then fun _ => ?_
  refine (hexpr q hq).bind fun e r hr he => along_then fun _ => along_pure ?_
  have hty : (r.scope f).onTy t = some t := Ty.mapStructs_extends hr.inRange_le.onStruct ht
  rw [SeenBy] at he ⊢
  simp [Expr.rename, hty, he]

/-- A call within an expression is read as one that the function may contain. -/
theorem reads_pureCall (hp : p.WellFormed) : Reads (pureCall expr) p (SeenBy f) := by
  unfold pureCall
  refine along_then fun _ => (reads_functionRef (f := f) hp).bind fun g q hq hg => ?_
  refine (reads_arguments fun r hr => hexpr r (hq.trans hr)).bind fun es r hr hes => along_pure ?_
  simp [SeenBy, Expr.rename, (hr.scope_le f).onFunction hg, Expr.renameList_self hes]

/-- A unary operation is read as an expression that the function may contain. -/
theorem reads_unaryExpr (op : UnaryOp) : Reads (unaryExpr expr op) p (SeenBy f) := by
  unfold unaryExpr
  refine along_then fun _ => along_then fun _ => (hexpr p (.refl p)).bind fun e q _ he => ?_
  rw [SeenBy] at he
  exact along_then fun _ => along_pure (by simp [SeenBy, Expr.rename, he])

/-- A binary operation is read as an expression that the function may contain. -/
theorem reads_binaryExpr (op : BinaryOp) : Reads (binaryExpr expr op) p (SeenBy f) := by
  unfold binaryExpr
  refine along_then fun _ => along_then fun _ => (hexpr p (.refl p)).bind fun e q hq he => ?_
  refine along_then fun _ => (hexpr q hq).bind fun e' r hr he' => along_then fun _ => along_pure ?_
  have hleft := he.collects hr
  rw [SeenBy] at hleft he'
  simp [SeenBy, Expr.rename, hleft, he']

omit hexpr in
/-- A property of the processor mentions nothing. -/
theorem reads_processorProperty : Reads processorProperty p (SeenBy f) := by
  unfold processorProperty
  refine along_then fun _ => along_then fun _ => along_then fun t => along_then fun name => ?_
  split
  · exact along_pure rfl
  · exact along_fail _ _

/-- What starts with a word is read as an expression that the function may contain. -/
theorem reads_wordExpr (hp : p.WellFormed) : Reads (wordExpr expr) p (SeenBy f) := by
  unfold wordExpr
  refine along_then fun t => along_then fun called => ?_
  refine along_ite (reads_castExpr hexpr hp) (along_ite (reads_pureCall hexpr hp) ?_)
  refine along_then fun dotted => along_ite reads_processorProperty ?_
  split
  · exact reads_unaryExpr hexpr _
  · exact reads_binaryExpr hexpr _
  · exact reads_pathOrConstant hp

/-- An expression without selections is read as one that the function may contain. -/
theorem reads_primaryExpr (h : Readable p f scope) :
    Reads (primaryExpr scope expr) p (SeenBy f) := by
  unfold primaryExpr
  refine along_then fun t => ?_
  split
  · exact reads_localVariable h
  · exact reads_wordExpr hexpr h.wellFormed
  · exact reads_constExpr h.wellFormed
  · exact reads_constExpr h.wellFormed
  · exact reads_constExpr h.wellFormed
  · exact along_expected _

/-- An index or a slice selects from an expression that the function may contain. -/
theorem reads_indexed {parent : Expr} (hparent : SeenBy f p parent) :
    Reads (indexed expr parent) p (SeenBy f) := by
  unfold indexed
  refine along_then fun _ => ?_
  extract_lets jp
  have hjp : ∀ q e, SeenBy f q e → Reads (jp e) q (SeenBy f) := by
    intro q e he
    unfold jp
    exact along_then fun _ => along_pure he
  clear_value jp
  rw [SeenBy] at hparent
  refine along_then fun number => along_then fun closed => ?_
  refine along_then fun number => along_then fun range => along_ite ?_ (along_ite ?_ ?_)
  · refine along_then fun i => ?_
    exact hjp p _ (by simp [SeenBy, Expr.rename, hparent])
  · refine along_then fun start => along_then fun _ => along_then fun stop => ?_
    exact hjp p _ (by simp [SeenBy, Expr.rename, hparent])
  · refine (hexpr p (.refl p)).bind fun e q hq he => ?_
    have hparent := (hq.scope_le f).expr hparent
    rw [SeenBy] at he
    exact hjp q _ (by simp [SeenBy, Expr.rename, hparent, he])

/-- Selections after an expression keep it one that the function may contain, by induction on their
number. -/
theorem reads_selections {e : Expr} (he : SeenBy f p e) (n : Nat) :
    Reads (selections expr n e) p (SeenBy f) := by
  induction n generalizing p e with
  | zero => exact along_pure he
  | succ n ih =>
      unfold selections
      refine along_then fun bracket => along_ite ?_ ?_
      · refine (reads_indexed hexpr he).bind fun e' q hq he' => ?_
        exact ih (fun r hr => hexpr r (hq.trans hr)) he'
      · refine along_then fun dot => along_then fun name => along_ite ?_ (along_pure he)
        refine along_then fun _ => along_then fun name => ih hexpr ?_
        rw [SeenBy] at he ⊢
        simp [Expr.rename, he]

end

/-- Expressions of every depth of nesting are read as ones that the function may contain, by
induction on the depth. -/
theorem reads_exprTo (h : Readable p f scope) (n : Nat) : Reads (exprTo scope n) p (SeenBy f) := by
  induction n generalizing p with
  | zero => exact along_expected _
  | succ n ih =>
      have hexpr : ∀ q, p.Collects q → Reads (exprTo scope n) q (SeenBy f) :=
        fun q hq => ih (h.collects hq)
      unfold exprTo
      refine (reads_primaryExpr hexpr h).bind fun e q hq he => along_then fun n => ?_
      exact reads_selections (fun r hr => hexpr r (hq.trans hr)) he n

/-- A written expression is read as one that the function may contain. -/
theorem reads_expr (h : Readable p f scope) : Reads (expr scope) p (SeenBy f) :=
  along_then fun n => reads_exprTo h n

/-! ## Statements -/

/-- A call is read with a function in range and arguments that the caller may contain. -/
theorem reads_call (h : Readable p f scope) : Reads (call scope) p
    fun q x => (q.scope f).onFunction x.1 = some x.1 ∧ ∀ e ∈ x.2, SeenBy f q e := by
  unfold call
  refine along_then fun _ => (reads_functionRef (f := f) h.wellFormed).bind fun g q hq hg => ?_
  refine (reads_arguments fun r hr => reads_expr (h.collects (hq.trans hr))).bind
    fun es r hr hes => ?_
  exact along_pure ⟨(hr.scope_le f).onFunction hg, hes⟩

/-- A write is read as a statement that the function may contain. -/
theorem reads_write (h : Readable p f scope) : Reads (write scope) p
    fun q s => s.rename (q.scope f).renamer = some s := by
  unfold write
  refine along_then fun endpoint => ?_
  extract_lets jp
  have hjp : ∀ q element, p.Collects q → (∀ e ∈ element, SeenBy f q e) →
      Reads (jp element) q fun q s => s.rename (q.scope f).renamer = some s := by
    intro q element hq helement
    unfold jp
    refine (reads_expr (h.collects hq)).bind fun e r hr he => along_pure ?_
    rw [SeenBy] at he
    cases element with
    | none => simp [Statement.rename, Expr.renameOption, he]
    | some index =>
        have hindex := (hr.scope_le f).expr (helement index rfl)
        simp [Statement.rename, Expr.renameOption, hindex, he]
  clear_value jp
  refine along_then fun bracket => along_ite ?_ ?_
  · refine (reads_expr h).bind fun e q hq he => along_then fun _ => ?_
    rw [pure_bind]
    exact hjp q _ hq (by simpa using he)
  · rw [pure_bind]
    exact hjp p none (.refl p) (by simp)

/-- An assignment, a read or a call with a target is read as a statement that the function may
contain. -/
theorem reads_store (h : Readable p f scope) : Reads (store scope) p
    fun q s => s.rename (q.scope f).renamer = some s := by
  unfold store
  refine along_then fun _ => (reads_expr h).bind fun t q hq ht => along_then fun _ => ?_
  refine along_then fun read => along_ite ?_ (along_then fun called => along_ite ?_ ?_)
  · rw [SeenBy] at ht
    exact along_then fun endpoint => along_pure (by simp [Statement.rename, ht])
  · refine (reads_call (h.collects hq)).bind fun x r hr hx => along_pure ?_
    have ht := (hr.scope_le f).expr ht
    simp [Statement.rename, Expr.renameOption, ht, hx.1, Expr.renameList_self hx.2]
  · refine (reads_expr (h.collects hq)).bind fun v r hr hv => along_pure ?_
    have ht := (hr.scope_le f).expr ht
    rw [SeenBy] at hv
    simp [Statement.rename, ht, hv]

/-- A written statement is read as one that the function may contain. -/
theorem reads_statement (h : Readable p f scope) : Reads (statement scope) p
    fun q s => s.rename (q.scope f).renamer = some s := by
  have hbare : Reads (bareStatement scope) p fun q s => s.rename (q.scope f).renamer = some s := by
    unfold bareStatement
    refine along_then fun advance => along_ite (along_pure rfl) ?_
    refine along_then fun called => along_ite ?_ ?_
    · refine (reads_call h).bind fun x q _ hx => along_pure ?_
      simp [Statement.rename, Expr.renameOption, hx.1, Expr.renameList_self hx.2]
    · exact along_then fun write => along_ite (reads_write h) (reads_store h)
  exact hbare.bind fun s q _ hs => along_then fun _ => along_pure hs

/-! ## Terminators -/

/-- A label in a branch is read as a block of the function. -/
theorem reads_blockRef (h : Readable p f scope) :
    Reads (blockRef scope) p fun q b => (q.scope f).onBlock b = some b := by
  unfold blockRef
  refine along_then fun t => ?_
  split
  · rename_i b hb
    exact along_pure (h.fits.blocks _ (mem_of_lookup hb))
  · exact along_fail _ _

/-- The target of a branch is read as a block of the function, with arguments that the function may
contain. -/
theorem reads_branchTarget (h : Readable p f scope) : Reads (branchTarget scope) p
    fun q x => (q.scope f).onBlock x.1 = some x.1 ∧ ∀ e ∈ x.2, SeenBy f q e := by
  unfold branchTarget
  refine (reads_blockRef h).bind fun b q hq hb => ?_
  extract_lets jp
  have hjp : ∀ r es, q.Collects r → (∀ e ∈ es, SeenBy f r e) → Reads (jp es) r
      fun q x => (q.scope f).onBlock x.1 = some x.1 ∧ ∀ e ∈ x.2, SeenBy f q e := by
    intro r es hr hes
    unfold jp
    exact along_pure ⟨(hr.scope_le f).onBlock hb, hes⟩
  clear_value jp
  refine along_then fun args => along_ite ?_ ?_
  · exact (reads_arguments fun r hr => reads_expr (h.collects (hq.trans hr))).bind
      fun es r hr hes => hjp r es hr hes
  · rw [pure_bind]
    exact hjp q [] (.refl q) fun _ he => by cases he

/-- A terminator, if there is one, is read as one that the function may contain. -/
theorem reads_terminator (h : Readable p f scope) : Reads (terminator scope) p
    fun q t => ∀ t' ∈ t, t'.rename (q.scope f).renamer = some t' := by
  unfold terminator
  refine along_then fun branch => along_ite ?_ (along_then fun branchIf => along_ite ?_ ?_)
  · refine (reads_branchTarget h).bind fun x q _ hx => along_pure ?_
    simp [Terminator.rename, hx.1, Expr.renameList_self hx.2]
  · refine (reads_expr h).bind fun c q hq hc => along_then fun _ => ?_
    refine (reads_branchTarget (h.collects hq)).bind fun x r hr hx => along_then fun _ => ?_
    refine (reads_branchTarget (h.collects (hq.trans hr))).bind fun y s hs hy => along_pure ?_
    have hc := ((hr.trans hs).scope_le f).expr hc
    have hargs := Expr.renameList_self fun e he => (hx.2 e he).collects hs
    simp [Terminator.rename, hc, (hs.scope_le f).onBlock hx.1, hargs, hy.1,
      Expr.renameList_self hy.2]
  · refine along_then fun returns => along_ite (along_then fun void => along_ite ?_ ?_) ?_
    · exact along_pure (by simp [Terminator.rename])
    · refine (reads_expr h).bind fun v q _ hv => along_pure ?_
      rw [SeenBy] at hv
      simp [Terminator.rename, hv]
    · exact along_pure (by simp)

end

end Heart.Parser

end SignalGraph

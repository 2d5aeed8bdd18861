import SignalGraph.Proofs.Program.Copying

/-!
# SignalGraph.Proofs.Program.CopyPlan

Where the copies go.  Copying adds to every table of the destination one entry for each thing that
is copied, in a fixed order, so the handles of all copies are known beforehand: a `CopyPlan` lists
what is to be copied, and `CopyPlan.naming` is what the whole copy does to handles.

`CopyPlan.At` describes the destination while copying goes on: every table is the old one, followed
by what has been copied so far with its handles replaced.
-/

namespace SignalGraph

/-! ## Tables that grow -/

section

variable {e : Entity} {α β : Type}

/-- The table is an old one followed by one entry for each item of a list. -/
def Appended (φ : β → α → Prop) (old : Arena e α) (l : List β) (now : Arena e α) : Prop :=
  ∃ new, now.toList = old.toList ++ new ∧ List.Forall₂ φ l new

/-- What is related to two lists in a row splits in two as well. -/
theorem forall₂_append_left_iff {φ : β → α → Prop} {l₁ l₂ : List β} {u : List α} :
    List.Forall₂ φ (l₁ ++ l₂) u ↔
      ∃ u₁ u₂, u = u₁ ++ u₂ ∧ List.Forall₂ φ l₁ u₁ ∧ List.Forall₂ φ l₂ u₂ := by
  constructor
  · intro h
    induction l₁ generalizing u with
    | nil => exact ⟨[], u, rfl, .nil, h⟩
    | cons b l₁ ih =>
        obtain ⟨x, u, hx, hrest, rfl⟩ := List.forall₂_cons_left_iff.mp h
        obtain ⟨u₁, u₂, rfl, h₁, h₂⟩ := ih hrest
        exact ⟨x :: u₁, u₂, rfl, .cons hx h₁, h₂⟩
  · rintro ⟨u₁, u₂, rfl, h₁, h₂⟩
    exact List.rel_append h₁ h₂

/-- Changing the element after a first part leaves that part and the rest. -/
theorem modify_append_cons (u v : List α) (x : α) (f : α → α) :
    (u ++ x :: v).modify u.length f = u ++ f x :: v := by
  induction u with
  | nil => rfl
  | cons y u ih => simpa using ih

namespace Appended

variable {φ ψ : β → α → Prop} {old now : Arena e α} {l l₁ l₂ : List β} {b b' : β}

/-- Nothing appended. -/
theorem refl : Appended φ old [] old := ⟨[], by simp, .nil⟩

/-- What is appended is appended under every weaker relation. -/
theorem mono (h : Appended φ old l now) (himp : ∀ b ∈ l, ∀ x, φ b x → ψ b x) :
    Appended ψ old l now := by
  obtain ⟨new, hnew, hall⟩ := h
  refine ⟨new, hnew, ?_⟩
  clear hnew
  induction hall with
  | nil => exact .nil
  | cons hx _ ih =>
      exact .cons (himp _ List.mem_cons_self _ hx)
        (ih fun b hb => himp b (List.mem_cons_of_mem _ hb))

/-- What is appended for the images is appended for the elements. -/
theorem of_map {γ : Type} {f : γ → β} {l : List γ} (h : Appended φ old (l.map f) now) :
    Appended (fun c x => φ (f c) x) old l now := by
  obtain ⟨new, hnew, hall⟩ := h
  exact ⟨new, hnew, List.forall₂_map_left_iff.mp hall⟩

/-- The table has grown by one entry for each element of the list. -/
theorem size (h : Appended φ old l now) : now.size = old.size + l.length := by
  obtain ⟨new, hnew, hall⟩ := h
  rw [← Arena.length_toList, ← Arena.length_toList, hnew, List.length_append, hall.length_eq]

/-- The next handle comes after one entry for each element of the list. -/
theorem next (h : Appended φ old l now) : now.next = ⟨old.size + l.length⟩ := by
  rw [← h.size]
  rfl

/-- One more element, one more entry. -/
theorem push (h : Appended φ old l now) {x : α} (hx : φ b x) :
    Appended φ old (l ++ [b]) (now.push x) := by
  obtain ⟨new, hnew, hall⟩ := h
  exact ⟨new ++ [x], by simp [hnew], List.rel_append hall (.cons hx .nil)⟩

/-- The entry of an element is found after the old ones and those of the elements before it. -/
theorem get? (h : Appended φ old (l₁ ++ b :: l₂) now) :
    ∃ x, now.get? ⟨old.size + l₁.length⟩ = some x ∧ φ b x := by
  obtain ⟨new, hnew, hall⟩ := h
  obtain ⟨u₁, u₂, rfl, h₁, h₂⟩ := forall₂_append_left_iff.mp hall
  obtain ⟨x, u₂, hx, -, rfl⟩ := List.forall₂_cons_left_iff.mp h₂
  refine ⟨x, ?_, hx⟩
  rw [Arena.get?_eq_getElem?, hnew, ← Arena.length_toList, h₁.length_eq]
  simp

/-- The entry of an element is found at its place in the list. -/
theorem get?_of_getElem? (h : Appended φ old l now) {i : Nat} (hi : l[i]? = some b) :
    ∃ x, now.get? ⟨old.size + i⟩ = some x ∧ φ b x := by
  obtain ⟨hlt, rfl⟩ := List.getElem?_eq_some_iff.mp hi
  have hsplit : l = l.take i ++ l[i] :: l.drop (i + 1) := by simp
  rw [hsplit] at h
  obtain ⟨x, hx, hφ⟩ := h.get?
  have hlength : (l.take i).length = i := by simp; omega
  rw [hlength] at hx
  exact ⟨x, hx, hφ⟩

/-- What is in the table is old, or it is the entry of an element. -/
theorem mem_toList (h : Appended φ old l now) {x : α} (hx : x ∈ now.toList) :
    x ∈ old.toList ∨ ∃ b ∈ l, φ b x := by
  obtain ⟨new, hnew, hall⟩ := h
  rw [hnew] at hx
  refine (List.mem_append.mp hx).imp_right fun hx' => ?_
  clear hnew hx
  induction hall with
  | nil => cases hx'
  | @cons b y l new hy _ ih =>
      cases hx' with
      | head => exact ⟨b, List.mem_cons_self, hy⟩
      | tail _ hx' =>
          obtain ⟨b', hb', hx⟩ := ih hx'
          exact ⟨b', List.mem_cons_of_mem _ hb', hx⟩

/-- What stood in the table stays there. -/
theorem get?_old (h : Appended φ old l now) {k : Handle e} {x : α} (hx : old.get? k = some x) :
    now.get? k = some x := by
  obtain ⟨new, hnew, -⟩ := h
  exact Arena.get?_of_isPrefix ⟨new, hnew.symm⟩ hx

/-- Old entries are unchanged. -/
theorem get_old [Inhabited α] (h : Appended φ old l now) {k : Handle e} (hk : k ∈ old.handles) :
    now.get k = old.get k :=
  Arena.get_eq_of_get? (h.get?_old (Arena.get?_eq_some_get (Arena.mem_handles_iff.mp hk)))

/-- The new entry of an element is related to it. -/
theorem get_new [Inhabited α] (h : Appended φ old (l₁ ++ b :: l₂) now) :
    φ b (now.get ⟨old.size + l₁.length⟩) := by
  obtain ⟨x, hx, hφ⟩ := h.get?
  rw [Arena.get_eq_of_get? hx]
  exact hφ

/-- The handles of the table are the old ones and new ones. -/
theorem mem_handles (h : Appended φ old l now) {k : Handle e} (hk : k ∈ now.handles) :
    k ∈ old.handles ∨ ∃ l₁ b l₂, l = l₁ ++ b :: l₂ ∧ k = ⟨old.size + l₁.length⟩ := by
  rw [Arena.mem_handles_iff, h.size] at hk
  by_cases hlt : k.idx < old.size
  · exact .inl (Arena.mem_handles_iff.mpr hlt)
  · have hi : k.idx - old.size < l.length := by omega
    refine .inr ⟨l.take (k.idx - old.size), l[k.idx - old.size], l.drop (k.idx - old.size + 1),
      ?_, ?_⟩
    · simp
    · have hlength : (l.take (k.idx - old.size)).length = k.idx - old.size := by simp; omega
      have hidx : old.size + (l.take (k.idx - old.size)).length = k.idx := by omega
      rw [hidx]

/-- Changing a new entry changes which element it stands for. -/
theorem modify (h : Appended φ old (l₁ ++ b :: l₂) now) {f : α → α}
    (hf : ∀ x, φ b x → φ b' (f x)) :
    Appended φ old (l₁ ++ b' :: l₂) (now.modify ⟨old.size + l₁.length⟩ f) := by
  obtain ⟨new, hnew, hall⟩ := h
  obtain ⟨u₁, u₂, rfl, h₁, h₂⟩ := forall₂_append_left_iff.mp hall
  obtain ⟨x, u₂, hx, hrest, rfl⟩ := List.forall₂_cons_left_iff.mp h₂
  refine ⟨u₁ ++ f x :: u₂, ?_, List.rel_append h₁ (.cons (hf x hx) hrest)⟩
  have hlist : (now.modify ⟨old.size + l₁.length⟩ f).toList =
      now.toList.modify (old.size + l₁.length) f := by
    simp [Arena.toList, Arena.modify]
  rw [hlist, hnew, ← Arena.length_toList, h₁.length_eq, ← List.append_assoc, ← List.append_assoc,
    ← List.length_append, modify_append_cons]

end Appended

end

/-! ## Handles of copies -/

section

variable {e : Entity}

/-- The handles that a table of the given size gives to new entries. -/
def assigned (start : Nat) (l : List (Handle e)) : List (Handle e × Handle e) :=
  (l.zipIdx start).map fun x => (x.1, ⟨x.2⟩)

variable {start : Nat} {l : List (Handle e)} {a b : Handle e}

/-- One more element is assigned the next handle. -/
theorem assigned_concat (start : Nat) (l : List (Handle e)) (a : Handle e) :
    assigned start (l ++ [a]) = assigned start l ++ [(a, ⟨start + l.length⟩)] := by
  simp [assigned, List.zipIdx_append]

/-- Handles are assigned to all elements of the list, in order. -/
theorem map_fst_assigned (start : Nat) (l : List (Handle e)) :
    (assigned start l).map (·.1) = l := by
  unfold assigned
  rw [List.map_map]
  exact List.zipIdx_map_fst start l

/-- An element is assigned the handle at its place. -/
theorem mem_assigned_iff :
    (a, b) ∈ assigned start l ↔ ∃ i, l[i]? = some a ∧ b = ⟨start + i⟩ := by
  simp only [assigned, List.mem_map, Prod.exists, Prod.mk.injEq]
  constructor
  · rintro ⟨a', i, hmem, rfl, rfl⟩
    obtain ⟨hle, hget⟩ := List.mk_mem_zipIdx_iff_le_and_getElem?_sub.mp hmem
    exact ⟨i - start, hget, by simp [Nat.add_sub_cancel' hle]⟩
  · rintro ⟨i, hget, rfl⟩
    exact ⟨a, start + i,
      List.mk_mem_zipIdx_iff_le_and_getElem?_sub.mpr ⟨by omega, by simpa using hget⟩,
      rfl, rfl⟩

/-- Looking up an element finds the handle at its place, if no element is listed twice. -/
theorem lookup_assigned_iff (hl : l.Nodup) :
    (assigned start l).reverse.lookup a = some b ↔ ∃ i, l[i]? = some a ∧ b = ⟨start + i⟩ := by
  rw [← mem_assigned_iff]
  constructor
  · intro h
    obtain ⟨l₁, l₂, heq, -⟩ := List.lookup_eq_some_iff.mp h
    rw [← List.mem_reverse, heq]
    simp
  · intro h
    obtain ⟨l₁, l₂, heq⟩ := List.append_of_mem (List.mem_reverse.mpr h)
    refine List.lookup_eq_some_iff.mpr ⟨l₁, l₂, heq, ?_⟩
    intro x hx
    have hnodup : ((assigned start l).reverse.map (·.1)).Nodup := by
      rw [List.map_reverse, map_fst_assigned]
      exact List.nodup_reverse.mpr hl
    rw [heq, List.map_append, List.map_cons] at hnodup
    have hne := (List.nodup_append.mp hnodup).2.2 x.1 (List.mem_map_of_mem hx) a List.mem_cons_self
    simpa using Ne.symm hne

/-- Nothing is found for what is not in the list. -/
theorem lookup_assigned_eq_none (ha : a ∉ l) : (assigned start l).reverse.lookup a = none := by
  rw [List.lookup_eq_none_iff]
  intro x hx
  have hmem : x.1 ∈ l := by
    rw [← map_fst_assigned start l]
    exact List.mem_map_of_mem (List.mem_reverse.mp hx)
  have hne : a ≠ x.1 := fun h => ha (h ▸ hmem)
  simpa using hne

end

/-! ## Plans -/

/-- What is to be copied, in the order in which it is added to the destination. -/
structure CopyPlan where
  source : CopySource
  /-- The destination before copying. -/
  base : Program
  modules : List ModuleId
  structs : List StructId
  functions : List FunctionId
  vars : List VariableId

namespace CopyPlan

/-- The copies once all is done. -/
def copies (P : CopyPlan) : Copies where
  modules := (assigned P.base.modules.size P.modules).reverse
  structs := (assigned P.base.structs.size P.structs).reverse
  functions := (assigned P.base.functions.size P.functions).reverse
  vars := (assigned P.base.vars.size P.vars).reverse

/-- What the whole copy does to handles, with constants and texts that are in `dest`.  Blocks keep
their places. -/
def naming (P : CopyPlan) (dest : Program) : Renaming :=
  { P.source.names P.copies dest with onBlock := some }

/-- Nothing is copied twice. -/
structure Distinct (P : CopyPlan) : Prop where
  modules : P.modules.Nodup
  structs : P.structs.Nodup
  functions : P.functions.Nodup
  vars : P.vars.Nodup

/-- The new name of an element is known: the handle at its place. -/
theorem known_assigned {e : Entity} (c : CopySource) {n : Nat} {l l₁ l₂ : List (Handle e)}
    {a : Handle e} (hl : l.Nodup) (hsplit : l = l₁ ++ a :: l₂) :
    c.known (assigned n l).reverse a = some ⟨n + l₁.length⟩ := by
  have hlookup : (assigned n l).reverse.lookup a = some ⟨n + l₁.length⟩ :=
    (lookup_assigned_iff hl).mpr ⟨l₁.length, by simp [hsplit], rfl⟩
  simp [CopySource.known, hlookup]

section

variable (P : CopyPlan) (p : Program)

@[simp] theorem naming_onModule :
    (P.naming p).onModule = P.source.known P.copies.modules := rfl

@[simp] theorem naming_onStruct :
    (P.naming p).onStruct = P.source.known P.copies.structs := rfl

@[simp] theorem naming_onFunction :
    (P.naming p).onFunction = P.source.known P.copies.functions := rfl

@[simp] theorem naming_onVariable :
    (P.naming p).onVariable = P.source.known P.copies.vars := rfl

@[simp] theorem naming_onBlock : (P.naming p).onBlock = some := rfl

end

section

variable {P : CopyPlan} (hP : P.Distinct)

include hP

/-- The new name of a planned module is the handle at its place after the modules of the
destination. -/
theorem known_module {id : ModuleId} {l₁ l₂ : List ModuleId} (h : P.modules = l₁ ++ id :: l₂) :
    P.source.known P.copies.modules id = some ⟨P.base.modules.size + l₁.length⟩ :=
  known_assigned P.source hP.modules h

/-- The new name of a planned struct. -/
theorem known_struct {id : StructId} {l₁ l₂ : List StructId} (h : P.structs = l₁ ++ id :: l₂) :
    P.source.known P.copies.structs id = some ⟨P.base.structs.size + l₁.length⟩ :=
  known_assigned P.source hP.structs h

/-- The new name of a planned function. -/
theorem known_function {id : FunctionId} {l₁ l₂ : List FunctionId}
    (h : P.functions = l₁ ++ id :: l₂) :
    P.source.known P.copies.functions id = some ⟨P.base.functions.size + l₁.length⟩ :=
  known_assigned P.source hP.functions h

/-- The new name of a planned variable. -/
theorem known_variable {id : VariableId} {l₁ l₂ : List VariableId} (h : P.vars = l₁ ++ id :: l₂) :
    P.source.known P.copies.vars id = some ⟨P.base.vars.size + l₁.length⟩ :=
  known_assigned P.source hP.vars h

end

/-- What has been copied, in the form in which it has been copied so far: every table is the old
one, followed by that with its handles replaced. -/
structure At (P : CopyPlan) (ms : List (ModuleId × Module)) (ss : List (StructId × Structure))
    (fs : List (FunctionId × Function)) (vs : List VariableId) (s : CopyState) : Prop where
  modules : Appended (fun x m => x.2.rename (P.naming s.dest) = some m) P.base.modules ms
    s.dest.modules
  structs : Appended (fun x r => x.2.rename (P.naming s.dest) = some r) P.base.structs ss
    s.dest.structs
  functions : Appended (fun x f => x.2.rename (P.naming s.dest) = some f) P.base.functions fs
    s.dest.functions
  vars : Appended (fun v w => (P.source.program.variableAt v).rename (P.naming s.dest) = some w)
    P.base.vars vs s.dest.vars
  moduleCopies : s.copies.modules = (assigned P.base.modules.size (ms.map (·.1))).reverse
  structCopies : s.copies.structs = (assigned P.base.structs.size (ss.map (·.1))).reverse
  functionCopies : s.copies.functions = (assigned P.base.functions.size (fs.map (·.1))).reverse
  variableCopies : s.copies.vars = (assigned P.base.vars.size vs).reverse
  tables : P.base.TablesGrow s.dest

section

variable {P : CopyPlan} {ms : List (ModuleId × Module)} {ss : List (StructId × Structure)}
  {fs : List (FunctionId × Function)} {vs : List VariableId} {s s' : CopyState}

/-- The names of the plan stay while the tables of the destination grow. -/
theorem naming_le {p q : Program} (h : p.TablesGrow q) : (P.naming p).Le (P.naming q) where
  onModule _ _ hx := hx
  onStruct _ _ hx := hx
  onFunction _ _ hx := hx
  onVariable _ _ hx := hx
  onConstant := (CopySource.names_le h).onConstant
  onBlock _ _ hx := hx

/-- Interning does not change which copies are made. -/
theorem At.interned (h : P.At ms ss fs vs s) (hs : CopySource.Interned s s') :
    P.At ms ss fs vs s' := by
  have hle := naming_le (P := P) hs.tables
  have hmodules : s'.dest.modules = s.dest.modules := by rw [hs.dest]
  have hstructs : s'.dest.structs = s.dest.structs := by rw [hs.dest]
  have hfunctions : s'.dest.functions = s.dest.functions := by rw [hs.dest]
  have hvars : s'.dest.vars = s.dest.vars := by rw [hs.dest]
  exact {
    modules := hmodules ▸ h.modules.mono fun _ _ _ hx => hle.module hx
    structs := hstructs ▸ h.structs.mono fun _ _ _ hx => hle.struct hx
    functions := hfunctions ▸ h.functions.mono fun _ _ _ hx => hle.function hx
    vars := hvars ▸ h.vars.mono fun _ _ _ hx => hle.variable hx
    moduleCopies := hs.copies ▸ h.moduleCopies
    structCopies := hs.copies ▸ h.structCopies
    functionCopies := hs.copies ▸ h.functionCopies
    variableCopies := hs.copies ▸ h.variableCopies
    tables := h.tables.trans hs.tables }

section

variable (h : P.At ms ss fs vs s)

include h

/-- One more module is copied. -/
theorem At.pushModule (id : ModuleId) {x m : Module}
    (hx : x.rename (P.naming s.dest) = some m) :
    P.At (ms ++ [(id, x)]) ss fs vs
      ⟨{ s.dest with modules := s.dest.modules.push m },
        { s.copies with modules := (id, s.dest.modules.next) :: s.copies.modules }⟩ :=
  { h with
    modules := h.modules.push hx
    moduleCopies := by simp [assigned_concat, h.moduleCopies, h.modules.next]
    tables := h.tables.congr rfl rfl }

/-- One more struct is copied. -/
theorem At.pushStruct (id : StructId) {x r : Structure}
    (hx : x.rename (P.naming s.dest) = some r) :
    P.At ms (ss ++ [(id, x)]) fs vs
      ⟨{ s.dest with structs := s.dest.structs.push r },
        { s.copies with structs := (id, s.dest.structs.next) :: s.copies.structs }⟩ :=
  { h with
    structs := h.structs.push hx
    structCopies := by simp [assigned_concat, h.structCopies, h.structs.next]
    tables := h.tables.congr rfl rfl }

/-- One more function is copied. -/
theorem At.pushFunction (id : FunctionId) {x f : Function}
    (hx : x.rename (P.naming s.dest) = some f) :
    P.At ms ss (fs ++ [(id, x)]) vs
      ⟨{ s.dest with functions := s.dest.functions.push f },
        { s.copies with functions := (id, s.dest.functions.next) :: s.copies.functions }⟩ :=
  { h with
    functions := h.functions.push hx
    functionCopies := by simp [assigned_concat, h.functionCopies, h.functions.next]
    tables := h.tables.congr rfl rfl }

/-- One more variable is copied. -/
theorem At.pushVariable {id : VariableId} {w : Variable}
    (hw : (P.source.program.variableAt id).rename (P.naming s.dest) = some w) :
    P.At ms ss fs (vs ++ [id])
      ⟨{ s.dest with vars := s.dest.vars.push w },
        { s.copies with vars := (id, s.dest.vars.next) :: s.copies.vars }⟩ :=
  { h with
    vars := h.vars.push hw
    variableCopies := by simp [assigned_concat, h.variableCopies, h.vars.next]
    tables := h.tables.congr rfl rfl }

end

/-- A copied module gets more of what its original has. -/
theorem At.modifyModule {l₁ l₂ : List (ModuleId × Module)} {id : ModuleId} {x y : Module}
    (h : P.At (l₁ ++ (id, x) :: l₂) ss fs vs s) {f : Module → Module}
    (hf : ∀ m, x.rename (P.naming s.dest) = some m → y.rename (P.naming s.dest) = some (f m)) :
    P.At (l₁ ++ (id, y) :: l₂) ss fs vs
      { s with dest := s.dest.modifyModule ⟨P.base.modules.size + l₁.length⟩ f } :=
  { h with
    modules := h.modules.modify hf
    moduleCopies := by simpa using h.moduleCopies
    tables := h.tables.congr rfl rfl }

/-- A copied struct gets more of what its original has. -/
theorem At.modifyStruct {l₁ l₂ : List (StructId × Structure)} {id : StructId} {x y : Structure}
    (h : P.At ms (l₁ ++ (id, x) :: l₂) fs vs s) {f : Structure → Structure}
    (hf : ∀ r, x.rename (P.naming s.dest) = some r → y.rename (P.naming s.dest) = some (f r)) :
    P.At ms (l₁ ++ (id, y) :: l₂) fs vs
      { s with dest := { s.dest with
        structs := s.dest.structs.modify ⟨P.base.structs.size + l₁.length⟩ f } } :=
  { h with
    structs := h.structs.modify hf
    structCopies := by simpa using h.structCopies
    tables := h.tables.congr rfl rfl }

/-- A copied function gets more of what its original has. -/
theorem At.modifyFunction {l₁ l₂ : List (FunctionId × Function)} {id : FunctionId}
    {x y : Function} (h : P.At ms ss (l₁ ++ (id, x) :: l₂) vs s) {f : Function → Function}
    (hf : ∀ g, x.rename (P.naming s.dest) = some g → y.rename (P.naming s.dest) = some (f g)) :
    P.At ms ss (l₁ ++ (id, y) :: l₂) vs
      { s with dest := s.dest.modifyFunction ⟨P.base.functions.size + l₁.length⟩ f } :=
  { h with
    functions := h.functions.modify hf
    functionCopies := by simpa using h.functionCopies
    tables := h.tables.congr rfl rfl }

end

end CopyPlan

end SignalGraph

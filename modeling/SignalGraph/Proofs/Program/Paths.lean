import Mathlib.Data.List.Pairwise
import SignalGraph.Heart.Print
import SignalGraph.Proofs.Link.Growth
import SignalGraph.Proofs.Program.WellFormed

/-!
# SignalGraph.Proofs.Program.Paths

Paths and what they lead to.  A path is cut at its last `::` (`splitPath?_path`).  In a well-formed
program the path by which a struct, a function or a module variable is found is cut into the names
of its module and its own (`ListedByOwner.splitPath?_of_structByPath?` and its like).
-/

namespace SignalGraph

/-! ## Paths -/

/-- The parts of a path make up the path, by induction along its characters. -/
theorem eq_of_splitPath?_go {after path : List Char} {owner name : String}
    (h : splitPath?.go after path = some (owner, name)) :
    path.reverse ++ after = owner.toList ++ ':' :: ':' :: name.toList := by
  fun_induction splitPath?.go after path with
  | case1 after before =>
      simp only [Option.some.injEq, Prod.mk.injEq] at h
      obtain ⟨rfl, rfl⟩ := h
      simp
  | case2 after c before _ ih => simpa using ih h
  | case3 => cases h

/-- A path is what it splits into. -/
theorem eq_of_splitPath? {path owner name : String} (h : splitPath? path = some (owner, name)) :
    path = owner ++ "::" ++ name := by
  have hgo := eq_of_splitPath?_go h
  apply String.toList_injective
  simpa using hgo

/-- The walk stops at the last double colon. -/
theorem splitPath?_go_append (after before : List Char) {cs : List Char} (h : ':' ∉ cs) :
    splitPath?.go after (cs ++ ':' :: ':' :: before) =
      some (String.ofList before.reverse, String.ofList (cs.reverse ++ after)) := by
  induction cs generalizing after with
  | nil => rfl
  | cons c cs ih =>
      rw [List.mem_cons, not_or] at h
      have hgo : splitPath?.go after (c :: (cs ++ ':' :: ':' :: before)) =
          splitPath?.go (c :: after) (cs ++ ':' :: ':' :: before) := by
        rw [splitPath?.go]
        intro _ hc
        exact absurd hc.symm h.1
      rw [List.cons_append, hgo, ih _ h.2]
      simp

/-- A path is cut before its last part. -/
theorem splitPath?_path {owner name : String} (h : ':' ∉ name.toList) :
    splitPath? (owner ++ "::" ++ name) = some (owner, name) := by
  have hname : ':' ∉ name.toList.reverse := by simpa using h
  have hgo := splitPath?_go_append [] owner.toList.reverse hname
  simpa [splitPath?] using hgo

/-- What has no colon is no path. -/
theorem splitPath?_eq_none {name : String} (h : ':' ∉ name.toList) : splitPath? name = none := by
  cases hsplit : splitPath? name with
  | none => rfl
  | some x =>
      rw [eq_of_splitPath? hsplit] at h
      simp at h

namespace Program

variable {p : Program}

/-- What is found by a path is found by a name in the module of the other name. -/
theorem byPath?_eq_some_iff {α : Type} {find : ModuleId → String → Option α} {path : String}
    {a : α} : p.byPath? find path = some a ↔ ∃ owner name m, splitPath? path = some (owner, name) ∧
      p.findModule? owner = some m ∧ find m name = some a := by
  simp only [byPath?, Option.bind_eq_bind, Option.bind_eq_some_iff, Prod.exists]
  constructor
  · rintro ⟨owner, name, hsplit, m, hm, ha⟩
    exact ⟨owner, name, m, hsplit, hm, ha⟩
  · rintro ⟨owner, name, m, hsplit, hm, ha⟩
    exact ⟨owner, name, hsplit, m, hm, ha⟩

/-- A module that is found is there. -/
theorem mem_handles_of_findModule? {name : String} {m : ModuleId}
    (h : p.findModule? name = some m) : m ∈ p.modules.handles := by
  obtain ⟨k, hk, -⟩ := Arena.find?_eq_some_iff.mp h
  exact Arena.mem_handles_iff.mpr (Arena.lt_size_of_get? hk)

/-! ## Owners -/

/-- What modules list belongs to them, and no variable is listed twice. -/
structure ListedByOwner (p : Program) : Prop where
  structs : ∀ id ∈ p.modules.handles, ∀ r ∈ (p.moduleAt id).structs, (p.structAt r).owner = id
  functions : ∀ id ∈ p.modules.handles, ∀ f ∈ (p.moduleAt id).functions, (p.functionAt f).owner = id
  vars : p.allModuleVars.Nodup

/-- In a well-formed program, owners list what is theirs. -/
theorem WellFormed.listed (h : p.WellFormed) : p.ListedByOwner where
  structs := h.structOwner
  functions := h.functionOwner
  vars := (List.nodup_append.mp h.declaredOnce).1

/-- A struct that is found by a path is found by its own. -/
theorem ListedByOwner.splitPath?_of_structByPath? (h : p.ListedByOwner) {path : String}
    {id : StructId} (hid : p.structByPath? path = some id) :
    splitPath? path = some ((p.moduleAt (p.structAt id).owner).name, (p.structAt id).name) := by
  obtain ⟨owner, name, m, hsplit, hm, hfind⟩ := byPath?_eq_some_iff.mp hid
  have hname : (p.structAt id).name = name := by simpa using List.find?_some hfind
  rw [h.structs m (mem_handles_of_findModule? hm) id (List.mem_of_find?_eq_some hfind),
    name_of_findModule? hm, hname, hsplit]

/-- A function that is found by a path is found by its own. -/
theorem ListedByOwner.splitPath?_of_functionByPath? (h : p.ListedByOwner) {path : String}
    {f : FunctionId} (hf : p.functionByPath? path = some f) :
    splitPath? path = some ((p.moduleAt (p.functionAt f).owner).name, (p.functionAt f).name) := by
  obtain ⟨owner, name, m, hsplit, hm, hfind⟩ := byPath?_eq_some_iff.mp hf
  have hname : (p.functionAt f).name = name := by simpa using List.find?_some hfind
  rw [h.functions m (mem_handles_of_findModule? hm) f (List.mem_of_find?_eq_some hfind),
    name_of_findModule? hm, hname, hsplit]

/-- The module that lists a variable. -/
theorem ListedByOwner.ownerOf? (h : p.ListedByOwner) {m : ModuleId} (hm : m ∈ p.modules.handles)
    {v : VariableId} (hv : v ∈ p.moduleVars m) : Heart.ownerOf? p v = some (p.moduleAt m) := by
  have hlists : ∀ k : Module, (k.state.contains v || k.parameters.contains v) = true ↔
      v ∈ k.parameters ++ k.state := by
    intro k
    simp [or_comm]
  cases howner : Heart.ownerOf? p v with
  | none =>
      have hnone := List.find?_eq_none.mp howner (p.moduleAt m)
        (List.mem_reverse.mpr (Arena.get_mem_toList hm))
      exact absurd ((hlists _).mpr hv) hnone
  | some k =>
      have hk := List.mem_of_find?_eq_some howner
      rw [List.mem_reverse, Arena.mem_toList_iff] at hk
      obtain ⟨id, hid⟩ := hk
      have hfound := (hlists k).mp (List.find?_some
        (p := fun m : Module => m.state.contains v || m.parameters.contains v) howner)
      have hat : p.moduleAt id = k := Arena.get_eq_of_get? hid
      have hsame : id = m := by
        by_contra hne
        have hpair := List.nodup_flatMap.mp h.vars |>.2
        have hrange := Arena.mem_handles_iff.mpr (Arena.lt_size_of_get? hid)
        have hsymm : Std.Symm (Function.onFun List.Disjoint p.moduleVars) :=
          ⟨fun _ _ h _ ha hb => h hb ha⟩
        have hdisjoint := hpair.forall hrange hm hne
        exact hdisjoint (by rw [moduleVars, hat]; exact hfound) hv
      rw [← hat, hsame]

/-- A variable of a module that is found by a path is found by its own. -/
theorem ListedByOwner.splitPath?_of_variableByPath? (h : p.ListedByOwner) {path : String}
    {v : VariableId} (hv : p.variableByPath? path = some v) : ∃ m, Heart.ownerOf? p v = some m ∧
      splitPath? path = some (m.name, (p.variableAt v).name) := by
  obtain ⟨owner, name, m, hsplit, hm, hfind⟩ := byPath?_eq_some_iff.mp hv
  have hname : (p.variableAt v).name = name := by simpa using List.find?_some hfind
  have hlisted : v ∈ p.moduleVars m := by
    have hmem := List.mem_of_find?_eq_some hfind
    rw [moduleVars, List.mem_append]
    exact (List.mem_append.mp hmem).symm
  refine ⟨p.moduleAt m, h.ownerOf? (mem_handles_of_findModule? hm) hlisted, ?_⟩
  rw [hname, name_of_findModule? hm, hsplit]

/-- Other variables belong to no module. -/
theorem ownerOf?_eq_none {v : VariableId} (hv : v ∉ p.allModuleVars) :
    Heart.ownerOf? p v = none := by
  refine List.find?_eq_none.mpr fun k hk hlists => hv ?_
  rw [List.mem_reverse, Arena.mem_toList_iff] at hk
  obtain ⟨id, hid⟩ := hk
  refine List.mem_flatMap.mpr ⟨id, Arena.mem_handles_iff.mpr (Arena.lt_size_of_get? hid), ?_⟩
  rw [moduleVars, moduleAt, Arena.get_eq_of_get? hid]
  simpa [or_comm] using hlists

end Program

end SignalGraph

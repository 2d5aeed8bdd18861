import Mathlib.Logic.Relation
import SignalGraph.Proofs.Handle
import SignalGraph.Ty.Structure

/-!
# SignalGraph.Proofs.Ty.Containment

Structs inside structs.  A struct contains another if a value of it holds a value of the other
inside itself, through arrays and `const` but not through references (`StructArena.Contains`); no
struct may contain itself in this way (`StructArena.Acyclic`).

* The search for a way back to a struct is exact: it finds one if and only if there is one
  (`structCycle?_eq_none_iff`).  It visits no struct twice, so the bound on its depth is never
  reached.
* In an acyclic table, what holds of a struct if it holds of those that it contains, holds of all
  (`StructArena.Acyclic.climb`), and as many steps as there are structs are enough.
* Only a cycle through the struct that is changed can be new
  (`StructArena.Acyclic.appendMember_iff`).
-/

namespace SignalGraph

/-! ## Containment -/

/-- A value of the type holds a value of the struct inside itself. -/
inductive Ty.Holds (s : StructId) : Ty → Prop
  | struct : Holds s (.struct s)
  | array {e : Ty} (n : Option Nat) (h : Holds s e) : Holds s (.array e n)
  | const {t : Ty} (h : Holds s t) : Holds s (.const t)

/-- What is listed as contained in a type is what it holds. -/
theorem Ty.mem_contained_iff {t : Ty} {s : StructId} : s ∈ t.contained ↔ t.Holds s := by
  induction t with
  | struct id =>
      rw [contained, List.mem_singleton]
      exact ⟨fun h => h ▸ .struct, fun | .struct => rfl⟩
  | array e n ih => exact ih.trans ⟨.array n, fun | .array _ h => h⟩
  | const t ih => exact ih.trans ⟨.const, fun | .const h => h⟩
  | _ => exact ⟨nofun, nofun⟩

namespace StructArena

/-- A value of the first struct holds a value of the second in one of its members. -/
def Contains (structs : StructArena) (s t : StructId) : Prop :=
  ∃ x, structs.get? s = some x ∧ ∃ m ∈ x.members, m.ty.Holds t

/-- No struct contains itself, not even through other structs. -/
def Acyclic (structs : StructArena) : Prop := ∀ s, ¬ Relation.TransGen structs.Contains s s

variable {structs : StructArena}

/-- A struct contains what its members hold. -/
theorem mem_contained_iff {x : Structure} {t : StructId} :
    t ∈ x.contained ↔ ∃ m ∈ x.members, m.ty.Holds t := by
  simp only [Structure.contained, List.mem_flatMap, Ty.mem_contained_iff]

/-- What a struct of the table contains is read off its entry. -/
theorem contains_iff_of_get? {s t : StructId} {x : Structure} (hx : structs.get? s = some x) :
    structs.Contains s t ↔ t ∈ x.contained := by
  rw [mem_contained_iff]
  exact ⟨fun ⟨_, hy, h⟩ => Option.some.inj (hx.symm.trans hy) ▸ h, fun h => ⟨x, hx, h⟩⟩

/-- An unknown struct contains nothing. -/
theorem not_contains_of_get? {s t : StructId} (hs : structs.get? s = none) :
    ¬ structs.Contains s t := fun ⟨_, hx, _⟩ => by simp [hs] at hx

/-- Only structs that are there contain anything. -/
theorem mem_handles_of_contains {s t : StructId} (h : structs.Contains s t) :
    s ∈ structs.handles := by
  obtain ⟨x, hx, -⟩ := h
  exact Arena.mem_handles_iff.mpr (Arena.lt_size_of_get? hx)

/-- Induction along containment, counting the steps.  The structs on the way to one are distinct, so
there are no more steps than structs. -/
theorem Acyclic.climb (h : structs.Acyclic) {motive : Nat → StructId → Prop}
    (unknown : ∀ n s, structs.get? s = none → motive n s)
    (known : ∀ n s x, structs.get? s = some x → (∀ t ∈ x.contained, motive n t) → motive (n + 1) s)
    (s : StructId) : motive structs.size s := by
  -- without cycles the structs on the way are distinct, which bounds the steps that are left
  have hway : ∀ n (path : List StructId) s, path.Nodup → path ⊆ structs.handles →
      (∀ u ∈ path, Relation.TransGen structs.Contains u s) → structs.size ≤ n + path.length →
      motive n s := by
    intro n
    induction n with
    | zero =>
        intro path s hnodup hpath hto hsize
        refine unknown 0 s ?_
        by_contra hsome
        obtain ⟨x, hx⟩ := Option.ne_none_iff_exists'.mp hsome
        have hlonger : (s :: path).length ≤ structs.size :=
          Arena.length_le_of_nodup (List.nodup_cons.mpr ⟨fun hmem => h s (hto s hmem), hnodup⟩)
            (List.cons_subset.mpr ⟨Arena.mem_handles_iff.mpr (Arena.lt_size_of_get? hx), hpath⟩)
        rw [List.length_cons] at hlonger
        omega
    | succ n ih =>
        intro path s hnodup hpath hto hsize
        cases hx : structs.get? s with
        | none => exact unknown _ s hx
        | some x =>
            refine known n s x hx fun t ht => ?_
            have hst : structs.Contains s t := (contains_iff_of_get? hx).mpr ht
            refine ih (s :: path) t ?_ ?_ ?_ ?_
            · exact List.nodup_cons.mpr ⟨fun hmem => h s (hto s hmem), hnodup⟩
            · exact List.cons_subset.mpr ⟨mem_handles_of_contains hst, hpath⟩
            · intro u hu
              rcases List.mem_cons.mp hu with rfl | hu
              · exact .single hst
              · exact (hto u hu).tail hst
            · rw [List.length_cons]
              omega
  exact hway structs.size [] s List.nodup_nil (List.nil_subset _) (by simp) (by simp)

end StructArena

/-! ## The search -/

section

variable {structs : StructArena} {target : StructId}

/-- Each struct contains the next, and the last one contains the target. -/
def LeadsTo (structs : StructArena) (target : StructId) : StructId → List StructId → Prop
  | s, [] => structs.Contains s target
  | s, t :: path => structs.Contains s t ∧ LeadsTo structs target t path

/-- A path that is found is a chain of containment. -/
theorem LeadsTo.transGen {s : StructId} {path : List StructId}
    (h : LeadsTo structs target s path) : Relation.TransGen structs.Contains s target := by
  induction path generalizing s with
  | nil => exact .single h
  | cons t path ih => exact .head h.1 (ih h.2)

/-- A path that is found among children leads on from their parent. -/
theorem searchChildren_found {search : StructId → List StructId → ContainmentSearch}
    (hsearch : ∀ child visited path, search child visited = .found path →
      LeadsTo structs target child path)
    {s : StructId} {children visited path : List StructId}
    (hchildren : ∀ child ∈ children, structs.Contains s child)
    (h : searchChildren search target children visited = .found path) :
    LeadsTo structs target s path := by
  induction children generalizing visited with
  | nil => cases h
  | cons child rest ih =>
      obtain ⟨hchild, hrest⟩ := List.forall_mem_cons.mp hchildren
      simp only [searchChildren] at h
      split at h
      · next heq =>
        cases h
        exact heq ▸ hchild
      · split at h
        · exact ih hrest h
        · split at h
          · next found =>
            cases h
            exact ⟨hchild, hsearch _ _ _ found⟩
          · exact ih hrest h

/-- What is found is a way to the target. -/
theorem searchStruct_found {n : Nat} {s : StructId} {visited path : List StructId}
    (h : searchStruct structs target n s visited = .found path) :
    LeadsTo structs target s path := by
  induction n generalizing s visited path with
  | zero => cases h
  | succ n ih =>
      simp only [searchStruct] at h
      split at h
      · cases h
      · next x hx =>
        exact searchChildren_found (fun _ _ _ => ih)
          (fun child hchild => (StructArena.contains_iff_of_get? hx).mpr hchild) h

/-- What is known of the structs that a fruitless search has visited: the new ones contain only
visited ones, and not the target. -/
structure Explored (structs : StructArena) (target : StructId) (visited visited' : List StructId) :
    Prop where
  kept : visited ⊆ visited'
  closed : ∀ s ∈ visited', s ∉ visited → ∀ t, structs.Contains s t → t ≠ target ∧ t ∈ visited'

theorem Explored.refl (visited : List StructId) : Explored structs target visited visited :=
  ⟨List.Subset.refl _, fun _ hs hnew => absurd hs hnew⟩

/-- What is explored twice is explored. -/
theorem Explored.trans {l₁ l₂ l₃ : List StructId} (h : Explored structs target l₁ l₂)
    (h' : Explored structs target l₂ l₃) : Explored structs target l₁ l₃ where
  kept := List.Subset.trans h.kept h'.kept
  closed s hs hnew t ht := by
    by_cases hmid : s ∈ l₂
    · obtain ⟨hne, hmem⟩ := h.closed s hmid hnew t ht
      exact ⟨hne, h'.kept hmem⟩
    · exact h'.closed s hs hmid t ht

/-- If no child leads to the target, nothing that was explored does. -/
theorem searchChildren_exhausted {search : StructId → List StructId → ContainmentSearch}
    {before : List StructId}
    (hsearch : ∀ child visited visited', before ⊆ visited → child ∉ visited →
      search child (child :: visited) = .exhausted visited' →
      Explored structs target (child :: visited) visited' ∧
        ∀ t, structs.Contains child t → t ≠ target ∧ t ∈ visited')
    {children visited visited' : List StructId} (hbefore : before ⊆ visited)
    (h : searchChildren search target children visited = .exhausted visited') :
    Explored structs target visited visited' ∧
      ∀ child ∈ children, child ≠ target ∧ child ∈ visited' := by
  induction children generalizing visited with
  | nil =>
      cases h
      exact ⟨.refl _, by simp⟩
  | cons child rest ih =>
      simp only [searchChildren] at h
      by_cases htarget : child = target
      · simp [htarget] at h
      · rw [if_neg htarget] at h
        by_cases hseen : child ∈ visited
        · rw [if_pos (List.contains_iff_mem.mpr hseen)] at h
          obtain ⟨hexplored, hrest⟩ := ih hbefore h
          exact ⟨hexplored, List.forall_mem_cons.mpr ⟨⟨htarget, hexplored.kept hseen⟩, hrest⟩⟩
        · rw [if_neg (mt List.contains_iff_mem.mp hseen)] at h
          cases hfind : search child (child :: visited) with
          | found path => simp [hfind] at h
          | exhausted mid =>
              simp only [hfind] at h
              obtain ⟨hmid, hcontained⟩ := hsearch child visited mid hbefore hseen hfind
              -- what is new after this child is the child itself or was explored from it
              have hchild : Explored structs target visited mid := by
                refine ⟨(List.cons_subset.mp hmid.kept).2, fun s hs hnew t ht => ?_⟩
                by_cases hs' : s = child
                · exact hcontained t (hs' ▸ ht)
                · exact hmid.closed s hs (by simp [hs', hnew]) t ht
              obtain ⟨hexplored, hrest⟩ := ih (List.Subset.trans hbefore hchild.kept) h
              refine ⟨hchild.trans hexplored, List.forall_mem_cons.mpr ⟨⟨htarget, ?_⟩, hrest⟩⟩
              exact hexplored.kept (hmid.kept List.mem_cons_self)

/-- A fruitless search has visited all that the struct contains.  The structs on the way to it are
distinct and visited, so the bound on the depth is never reached. -/
theorem searchStruct_exhausted {n : Nat} {s : StructId} {visited visited' way : List StructId}
    (h : searchStruct structs target n s visited = .exhausted visited') (hs : s ∈ visited)
    (hfresh : s ∉ way) (hnodup : way.Nodup) (hway : way ⊆ structs.handles) (hseen : way ⊆ visited)
    (hn : structs.size ≤ n + way.length) :
    Explored structs target visited visited' ∧
      ∀ t, structs.Contains s t → t ≠ target ∧ t ∈ visited' := by
  have hnodup' : (s :: way).Nodup := List.nodup_cons.mpr ⟨hfresh, hnodup⟩
  induction n generalizing s visited visited' way with
  | zero =>
      cases h
      refine ⟨.refl _, fun t ht => ?_⟩
      have hway' := List.cons_subset.mpr ⟨StructArena.mem_handles_of_contains ht, hway⟩
      have hlonger := Arena.length_le_of_nodup hnodup' hway'
      rw [List.length_cons] at hlonger
      omega
  | succ n ih =>
      simp only [searchStruct] at h
      cases hx : structs.get? s with
      | none =>
          simp only [hx] at h
          cases h
          exact ⟨.refl _, fun t ht => absurd ht (StructArena.not_contains_of_get? hx)⟩
      | some x =>
          simp only [hx] at h
          have hway' : s :: way ⊆ structs.handles :=
            List.cons_subset.mpr ⟨Arena.mem_handles_iff.mpr (Arena.lt_size_of_get? hx), hway⟩
          have hn' : structs.size ≤ n + (s :: way).length := by
            rw [List.length_cons]
            omega
          -- a child that was not visited is none of those on the way, so the way stays without
          -- repetition
          have hsearch : ∀ child visited visited', s :: way ⊆ visited → child ∉ visited →
              searchStruct structs target n child (child :: visited) = .exhausted visited' →
              Explored structs target (child :: visited) visited' ∧
                ∀ t, structs.Contains child t → t ≠ target ∧ t ∈ visited' := by
            intro child visited visited' hbefore hnew hchild
            have hfresh' : child ∉ s :: way := fun hmem => hnew (hbefore hmem)
            exact ih hchild List.mem_cons_self hfresh' hnodup' hway'
              (List.subset_cons_of_subset _ hbefore) hn' (List.nodup_cons.mpr ⟨hfresh', hnodup'⟩)
          obtain ⟨hexplored, hcontained⟩ :=
            searchChildren_exhausted hsearch (List.cons_subset.mpr ⟨hs, hseen⟩) h
          exact ⟨hexplored,
            fun t ht => hcontained t ((StructArena.contains_iff_of_get? hx).mp ht)⟩

/-- A way that is found starts with the struct and leads back to it. -/
theorem leadsTo_of_structCycle? {start : StructId} {cycle : List StructId}
    (h : structCycle? structs start = some cycle) :
    ∃ path, cycle = start :: path ∧ LeadsTo structs start start path := by
  unfold structCycle? at h
  split at h
  · next path hfound =>
    cases h
    exact ⟨path, rfl, searchStruct_found hfound⟩
  · cases h

/-- The search finds nothing if and only if the struct does not contain itself. -/
theorem structCycle?_eq_none_iff {start : StructId} :
    structCycle? structs start = none ↔ ¬ Relation.TransGen structs.Contains start start := by
  constructor
  · intro h
    unfold structCycle? at h
    split at h
    · cases h
    · next visited hsearch =>
      obtain ⟨hexplored, hstart⟩ := searchStruct_exhausted hsearch (List.mem_singleton_self _)
        List.not_mem_nil List.nodup_nil (List.nil_subset _) (List.nil_subset _) (by simp)
      have hall : ∀ s ∈ visited, ∀ t, structs.Contains s t → t ≠ start ∧ t ∈ visited := by
        intro s hs t ht
        by_cases heq : s = start
        · exact hstart t (heq ▸ ht)
        · exact hexplored.closed s hs (by simpa using heq) t ht
      have hreach : ∀ t, Relation.TransGen structs.Contains start t → t ≠ start ∧ t ∈ visited := by
        intro t ht
        induction ht with
        | single ht => exact hstart _ ht
        | tail _ ht ih => exact hall _ ih.2 _ ht
      exact fun hcycle => (hreach start hcycle).1 rfl
  · intro hfree
    cases hcycle : structCycle? structs start with
    | none => rfl
    | some cycle =>
        obtain ⟨path, -, hpath⟩ := leadsTo_of_structCycle? hcycle
        exact absurd hpath.transGen hfree

end

/-! ## Changes -/

namespace StructArena

variable {structs : StructArena}

/-- No struct contains itself exactly if the search finds no cycle from any. -/
theorem acyclic_iff_structCycle? :
    structs.Acyclic ↔ ∀ s ∈ structs.handles, structCycle? structs s = none := by
  simp only [Acyclic, structCycle?_eq_none_iff]
  refine ⟨fun h s _ => h s, fun h s hcycle => ?_⟩
  obtain ⟨t, ht, -⟩ := Relation.TransGen.head'_iff.mp hcycle
  exact h s (mem_handles_of_contains ht) hcycle

instance (structs : StructArena) : Decidable structs.Acyclic :=
  decidable_of_iff _ acyclic_iff_structCycle?.symm

/-- Without structs nothing contains itself. -/
theorem acyclic_empty : Acyclic ∅ := by
  intro s hcycle
  obtain ⟨t, ht, -⟩ := Relation.TransGen.head'_iff.mp hcycle
  exact not_contains_of_get? rfl ht

/-- A struct without members adds nothing to what is contained where. -/
theorem contains_push {x : Structure} (hx : x.members = []) :
    StructArena.Contains (structs.push x) = structs.Contains := by
  funext s t
  refine propext ?_
  simp only [Contains, Arena.get?_push]
  split
  · next hidx =>
    have hnone : structs.get? s = none := Arena.get?_eq_none_iff.mpr (Nat.le_of_eq hidx.symm)
    simp [hx, hnone]
  · rfl

/-- A struct without members contains nothing. -/
theorem Acyclic.push (h : structs.Acyclic) {x : Structure} (hx : x.members = []) :
    StructArena.Acyclic (structs.push x) := by
  rw [Acyclic, contains_push hx]
  exact h

/-- The table with one more member at the end of a struct. -/
def appendMember (structs : StructArena) (id : StructId) (m : Member) : StructArena :=
  structs.modify id fun s => { s with members := s.members ++ [m] }

/-- A new member adds what its type holds, and nothing else. -/
theorem contains_appendMember_iff {id s t : StructId} {m : Member} :
    (structs.appendMember id m).Contains s t ↔
      structs.Contains s t ∨ s = id ∧ id ∈ structs.handles ∧ m.ty.Holds t := by
  simp only [Contains, appendMember, Arena.get?_modify]
  by_cases hs : id = s
  · subst hs
    cases hx : structs.get? id with
    | none => simp [Arena.mem_handles_iff, Nat.not_lt.mpr (Arena.get?_eq_none_iff.mp hx)]
    | some x => simp [Arena.mem_handles_iff, Arena.lt_size_of_get? hx, or_and_right, exists_or]
  · simp [hs, Ne.symm hs]

/-- A path either keeps to the old steps or goes through the node that the new ones leave. -/
theorem transGen_through {α : Type} {r r' : α → α → Prop} {x : α}
    (hnew : ∀ a b, r' a b → r a b ∨ a = x) {a b : α} (h : Relation.TransGen r' a b) :
    Relation.TransGen r a b ∨ Relation.ReflTransGen r' a x ∧ Relation.TransGen r' x b := by
  induction h with
  | single hab =>
      rcases hnew _ _ hab with hold | rfl
      · exact .inl (.single hold)
      · exact .inr ⟨.refl, .single hab⟩
  | tail hac hcb ih =>
      rcases ih with hpath | ⟨hto, hfrom⟩
      · rcases hnew _ _ hcb with hold | rfl
        · exact .inl (hpath.tail hold)
        · exact .inr ⟨hac.to_reflTransGen, .single hcb⟩
      · exact .inr ⟨hto, hfrom.tail hcb⟩

/-- A member that is added to a struct can only make a cycle through that struct. -/
theorem Acyclic.appendMember_iff (h : structs.Acyclic) {id : StructId} {m : Member} :
    (structs.appendMember id m).Acyclic ↔ structCycle? (structs.appendMember id m) id = none := by
  rw [structCycle?_eq_none_iff]
  refine ⟨fun hfree => hfree id, fun hfree s hcycle => ?_⟩
  have hnew : ∀ a b, (structs.appendMember id m).Contains a b → structs.Contains a b ∨ a = id :=
    fun a b hab => (contains_appendMember_iff.mp hab).imp_right And.left
  rcases transGen_through hnew hcycle with hold | ⟨hto, hfrom⟩
  · exact h s hold
  · exact hfree (hfrom.trans_left hto)

end StructArena

end SignalGraph

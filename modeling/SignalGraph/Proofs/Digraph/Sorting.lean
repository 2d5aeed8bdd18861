import SignalGraph.Proofs.Digraph.Loops

/-!
# SignalGraph.Proofs.Digraph.Sorting

Topological sorts: a list of all nodes in which every edge leads forward, or nothing if the graph
has a cycle.  `SortsTopologically` is all that is known of one, so what follows from it holds
whatever order is chosen among the nodes that may stand in either order.

Main statements: a sorted list is ordered (`SortsTopologically.ordered`), and the depth-first search
for cycles yields a sort (`sortBySearch?_sorts`).
-/

namespace SignalGraph.Digraph

variable {α : Type}

/-- The edges of a graph whose edges have no labels. -/
abbrev plainEdges (next : α → List α) (x : α) : List (Unit × α) := (next x).map ((), ·)

/-- A plain edge leads where `next` does. -/
theorem mem_plainEdges_iff {next : α → List α} {x y : α} {label : Unit} :
    (label, y) ∈ plainEdges next x ↔ y ∈ next x := by simp

theorem edge_of_mem {next : α → List α} {x y : α} (h : y ∈ next x) :
    ((), y) ∈ plainEdges next x := mem_plainEdges_iff.mpr h

/-- The nodes are distinct, and every edge leads to one of them. -/
structure IsGraph (next : α → List α) (nodes : List α) : Prop where
  nodup : nodes.Nodup
  closed : ∀ x, next x ⊆ nodes

/-- A topological sort is given the nodes that each node has an edge to, and all nodes. -/
structure SortsTopologically (sort : (α → List α) → List α → Option (List α)) : Prop where
  /-- It fails exactly if some node can reach itself. -/
  eq_none_iff : ∀ {next nodes}, IsGraph next nodes →
    (sort next nodes = none ↔ ∃ x, Relation.TransGen (fun a b => b ∈ next a) x x)
  /-- Otherwise it lists the nodes, and no edge leads back. -/
  sorted : ∀ {next nodes order}, IsGraph next nodes → sort next nodes = some order →
    order.Perm nodes ∧ order.Pairwise fun x y => x ∉ next y

/-- Every node of a sorted list stands before the nodes that its edges lead to. -/
theorem SortsTopologically.ordered {sort : (α → List α) → List α → Option (List α)}
    (hsort : SortsTopologically sort) {next : α → List α} {nodes order : List α}
    (hgraph : IsGraph next nodes) (h : sort next nodes = some order) :
    Ordered (plainEdges next) order := by
  obtain ⟨hperm, hforward⟩ := hsort.sorted hgraph h
  have hloop : ∀ x, x ∉ next x := by
    intro x hself
    have hnone := (hsort.eq_none_iff hgraph).mpr ⟨x, .single hself⟩
    simp [h] at hnone
  -- the nodes before a part of the list are no targets of edges from the part
  have hpart : ∀ before part, order = before ++ part → Ordered (plainEdges next) part := by
    intro before part hsplit
    induction part generalizing before with
    | nil => trivial
    | cons x rest ih =>
        have hnodup : (before ++ x :: rest).Nodup := hsplit ▸ hperm.nodup_iff.mpr hgraph.nodup
        rw [hsplit] at hforward
        refine ⟨(List.nodup_cons.mp (List.nodup_append.mp hnodup).2.1).1, ?_, ?_⟩
        · intro label y he
          rw [mem_plainEdges_iff] at he
          have hy : y ∈ before ++ x :: rest := hsplit ▸ hperm.mem_iff.mpr (hgraph.closed x he)
          rcases List.mem_append.mp hy with hy | hy
          · exact absurd he ((List.pairwise_append.mp hforward).2.2 y hy x List.mem_cons_self)
          · rcases List.mem_cons.mp hy with rfl | hy
            · exact absurd he (hloop y)
            · exact hy
        · exact ih (before ++ [x]) (by simp [hsplit])
  exact hpart [] order rfl

/-- No edge leads back in an ordered list. -/
theorem Ordered.pairwise {next : α → List α} {order : List α}
    (h : Ordered (plainEdges next) order) : order.Pairwise fun x y => x ∉ next y := by
  induction order with
  | nil => exact .nil
  | cons x order ih =>
      refine List.pairwise_cons.mpr ⟨fun y hy hback => h.1 ?_, ih h.2.2⟩
      exact h.2.2.mem_of_edge hy (edge_of_mem hback)

/-! ## A sort -/

/-- Plain edges join what `next` joins. -/
theorem joins_plainEdges (next : α → List α) :
    Joins (plainEdges next) = fun a b => b ∈ next a := by
  funext a b
  exact propext ⟨fun ⟨_, he⟩ => mem_plainEdges_iff.mp he, fun h => ⟨(), edge_of_mem h⟩⟩

variable [BEq α]

/-- The nodes in the order in which the search for cycles leaves them. -/
def sortBySearch? (next : α → List α) (nodes : List α) : Option (List α) :=
  match searchAll (plainEdges next) (nodes.length + 1) nodes [] with
  | .cycle _ => none
  | .clear done => some (done.filter nodes.contains)

/-- The sort fails exactly if there is a cycle to be found. -/
theorem sortBySearch?_eq_none_iff {next : α → List α} {nodes : List α} :
    sortBySearch? next nodes = none ↔ findCycle? (plainEdges next) nodes ≠ none := by
  unfold sortBySearch? findCycle?
  cases searchAll (plainEdges next) (nodes.length + 1) nodes [] <;> simp

variable [LawfulBEq α]

/-- So sorting by search is a topological sort. -/
theorem sortBySearch?_sorts : SortsTopologically (sortBySearch? : (α → List α) → _) where
  eq_none_iff {next nodes} hgraph := by
    have hclosed : ∀ x label y, (label, y) ∈ plainEdges next x →
        y ∈ nodes ∨ plainEdges next y = [] :=
      fun x _ _ he => .inl (hgraph.closed x (mem_plainEdges_iff.mp he))
    rw [sortBySearch?_eq_none_iff, ne_eq, findCycle?_eq_none_iff hclosed, joins_plainEdges]
    simp
  sorted {next nodes order} hgraph h := by
    unfold sortBySearch? at h
    split at h
    · cases h
    · next done hsearch =>
      cases h
      have hclosed : ∀ x ∈ nodes, ∀ label y, (label, y) ∈ plainEdges next x → y ∈ nodes :=
        fun x _ _ _ he => hgraph.closed x (mem_plainEdges_iff.mp he)
      obtain ⟨hord, -, hall⟩ := searchAll_clear
        (fun x hx label y he => .inl (hclosed x hx label y he)) (fun _ hx => hx) hsearch trivial
      have hkept : Ordered (plainEdges next) (done.filter nodes.contains) :=
        hord.filter fun x hx label y he =>
          List.contains_iff_mem.mpr (hclosed x (List.contains_iff_mem.mp hx) label y he)
      refine ⟨(List.perm_ext_iff_of_nodup hkept.nodup hgraph.nodup).mpr fun x => ?_, hkept.pairwise⟩
      rw [List.mem_filter, List.contains_iff_mem]
      exact ⟨And.right, fun hx => ⟨hall hx, hx⟩⟩

end SignalGraph.Digraph

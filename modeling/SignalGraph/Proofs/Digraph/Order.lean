import Mathlib.Logic.Relation
import SignalGraph.Digraph.Cycle

/-!
# SignalGraph.Proofs.Digraph.Order

A depth-first search that meets no cycle leaves its nodes in order: every node is done after all
nodes that its edges lead to.  `Ordered` says so of a list of nodes, latest first.

Main statements: if `findCycle?` finds nothing, the nodes can be put into such an order
(`exists_ordered_of_clear`, `exists_ordered_of_findCycle?_eq_none`), so no path leads from a node
back to itself.

The search is layered as in the definition.  `Spared` is what one step keeps of the list of nodes
that are done; `followEdges`, `visit` and `searchAll` each keep it if the step below does.
-/

namespace SignalGraph.Digraph

variable {α β : Type} {edges : α → List (β × α)}

/-! ## Orders -/

/-- Every node of the list stands before the nodes that its edges lead to, and only once. -/
def Ordered (edges : α → List (β × α)) : List α → Prop
  | [] => True
  | x :: done => x ∉ done ∧ (∀ label y, (label, y) ∈ edges x → y ∈ done) ∧ Ordered edges done

theorem Ordered.nodup {done : List α} (h : Ordered edges done) : done.Nodup := by
  induction done with
  | nil => exact List.nodup_nil
  | cons x done ih => exact List.nodup_cons.mpr ⟨h.1, ih h.2.2⟩

/-- Edges stay inside an ordered list. -/
theorem Ordered.mem_of_edge {done : List α} (h : Ordered edges done) {x y : α} {label : β}
    (hx : x ∈ done) (he : (label, y) ∈ edges x) : y ∈ done := by
  induction done with
  | nil => exact absurd hx List.not_mem_nil
  | cons z done ih =>
      obtain ⟨-, hz, hdone⟩ := h
      rcases List.mem_cons.mp hx with rfl | hx
      · exact List.mem_cons_of_mem _ (hz label y he)
      · exact List.mem_cons_of_mem _ (ih hdone hx)

/-- A node with an edge to one of the first `n + 1` nodes is one of the first `n`. -/
theorem Ordered.mem_take_of_edge {done : List α} (h : Ordered edges done) {x y : α} {label : β}
    (hx : x ∈ done) (he : (label, y) ∈ edges x) {n : Nat} (hy : y ∈ done.take (n + 1)) :
    x ∈ done.take n := by
  induction done generalizing n with
  | nil => exact absurd hx List.not_mem_nil
  | cons z done ih =>
      obtain ⟨hz, hedges, hdone⟩ := h
      have hyz : y ≠ z := by
        rintro rfl
        rcases List.mem_cons.mp hx with rfl | hx
        · exact hz (hedges label x he)
        · exact hz (hdone.mem_of_edge hx he)
      have hy' : y ∈ done.take n := by
        rw [List.take_succ_cons] at hy
        exact (List.mem_cons.mp hy).resolve_left hyz
      -- the list below `z` is not empty, since it holds `y`
      cases n with
      | zero => simp at hy'
      | succ n =>
          rw [List.take_succ_cons]
          rcases List.mem_cons.mp hx with rfl | hx
          · exact List.mem_cons_self
          · exact List.mem_cons_of_mem _ (ih hdone hx hy')

/-- No path leads from a node of an ordered list back to it. -/
theorem Ordered.not_transGen_self {done : List α} (h : Ordered edges done) {x : α} (hx : x ∈ done) :
    ¬ Relation.TransGen (fun a b => ∃ label, (label, b) ∈ edges a) x x := by
  intro hcycle
  have hback : ∀ y, Relation.TransGen (fun a b => ∃ label, (label, b) ∈ edges a) x y →
      y ∈ done ∧ ∀ n, y ∈ done.take (n + 1) → x ∈ done.take n := by
    intro y hy
    induction hy with
    | single he =>
        obtain ⟨label, he⟩ := he
        exact ⟨h.mem_of_edge hx he, fun n hn => h.mem_take_of_edge hx he hn⟩
    | tail _ he ih =>
        obtain ⟨label, he⟩ := he
        refine ⟨h.mem_of_edge ih.1 he, fun n hn => ?_⟩
        have hb := h.mem_take_of_edge ih.1 he hn
        exact ih.2 n (List.take_subset_take_left done (Nat.le_succ n) hb)
  have hnever : ∀ n, x ∉ done.take n := by
    intro n
    induction n with
    | zero => simp
    | succ n ih => exact fun hn => ih ((hback x hcycle).2 n hn)
  exact hnever done.length (by simpa using hx)

/-- No node of an ordered list has an edge to itself. -/
theorem Ordered.not_edge_self {done : List α} (h : Ordered edges done) {x : α} {label : β}
    (hx : x ∈ done) : (label, x) ∉ edges x :=
  fun he => h.not_transGen_self hx (.single ⟨label, he⟩)

/-- The part of an order that edges do not leave is an order. -/
theorem Ordered.filter {done : List α} (h : Ordered edges done) {keep : α → Bool}
    (hkeep : ∀ x, keep x → ∀ label y, (label, y) ∈ edges x → keep y) :
    Ordered edges (done.filter keep) := by
  induction done with
  | nil => trivial
  | cons x done ih =>
      obtain ⟨hx, hedges, hdone⟩ := h
      cases hk : keep x with
      | false =>
          rw [List.filter_cons_of_neg (by simp [hk])]
          exact ih hdone
      | true =>
          rw [List.filter_cons_of_pos hk]
          refine ⟨fun hmem => hx (List.mem_filter.mp hmem).1, ?_, ih hdone⟩
          intro label y he
          exact List.mem_filter.mpr ⟨hedges label y he, hkeep x hk label y he⟩

/-! ## What the search keeps -/

/-- What a search adds to the nodes that are done: they stay ordered, none of the old ones is
lost, and none of the nodes on the stack is among the new ones. -/
structure Spared (edges : α → List (β × α)) (stack done done' : List α) : Prop where
  ordered : Ordered edges done'
  kept : done ⊆ done'
  apart : ∀ x ∈ stack, x ∉ done'

variable [BEq α] [LawfulBEq α]

/-- Following edges keeps what visiting their targets keeps, and all targets end up done. -/
theorem followEdges_clear {target : α → Prop} {stack : List α} {visit : List α → α → Outcome α β}
    (hvisit : ∀ done y done', visit done y = .clear done' → target y → y ∉ stack → y ∉ done →
      Ordered edges done → (∀ x ∈ stack, x ∉ done) →
      Spared edges stack done done' ∧ y ∈ done')
    {es : List (β × α)} (hes : ∀ label y, (label, y) ∈ es → target y) {done done' : List α}
    (h : followEdges visit stack es done = .clear done') (hord : Ordered edges done)
    (hapart : ∀ x ∈ stack, x ∉ done) :
    Spared edges stack done done' ∧ ∀ label y, (label, y) ∈ es → y ∈ done' := by
  induction es generalizing done with
  | nil =>
      simp only [followEdges, Outcome.clear.injEq] at h
      subst h
      exact ⟨⟨hord, fun _ hx => hx, hapart⟩, by simp⟩
  | cons edge es ih =>
      obtain ⟨label, y⟩ := edge
      have hes' : ∀ l z, (l, z) ∈ es → target z :=
        fun l z hz => hes l z (List.mem_cons_of_mem _ hz)
      -- it is enough to pass through some list that has the first target
      have hvia : ∀ mid, Spared edges stack done mid → y ∈ mid →
          followEdges visit stack es mid = .clear done' →
          Spared edges stack done done' ∧ ∀ l z, (l, z) ∈ (label, y) :: es → z ∈ done' := by
        intro mid hmid hymid hrest
        obtain ⟨hspared, htargets⟩ := ih hes' hrest hmid.ordered hmid.apart
        refine ⟨⟨hspared.ordered, fun x hx => hspared.kept (hmid.kept hx), hspared.apart⟩, ?_⟩
        intro l z hz
        rcases List.mem_cons.mp hz with heq | hz
        · cases heq
          exact hspared.kept hymid
        · exact htargets l z hz
      simp only [followEdges] at h
      by_cases hstack : y ∈ stack
      · simp [hstack] at h
      · simp only [List.contains_iff_mem, hstack, if_false] at h
        by_cases hdone : y ∈ done
        · simp only [hdone, if_true] at h
          exact hvia done ⟨hord, fun _ hx => hx, hapart⟩ hdone h
        · simp only [hdone, if_false] at h
          cases hv : visit done y with
          | cycle c => simp [hv] at h
          | clear mid =>
              simp only [hv] at h
              have hy : target y := hes label y List.mem_cons_self
              obtain ⟨hmid, hymid⟩ := hvisit done y mid hv hy hstack hdone hord hapart
              exact hvia mid hmid hymid h

section

variable {nodes : List α}
  (hclosed : ∀ x ∈ nodes, ∀ label y, (label, y) ∈ edges x → y ∈ nodes ∨ edges y = [])

include hclosed

/-- Visiting a node leaves it done.  The bound on the depth is never reached, since the nodes on
the stack are distinct nodes of the graph, and a node outside is left at once. -/
theorem visit_clear {n : Nat} {stack done done' : List α} {x : α}
    (h : visit edges n stack done x = .clear done') (hx : x ∈ nodes ∨ edges x = [])
    (hxstack : x ∉ stack) (hxdone : x ∉ done) (hnodup : stack.Nodup) (hsub : stack ⊆ nodes)
    (hlen : nodes.length < n + stack.length) (hord : Ordered edges done)
    (hapart : ∀ y ∈ stack, y ∉ done) :
    Spared edges stack done done' ∧ x ∈ done' := by
  induction n generalizing stack done done' x with
  | zero =>
      have := hnodup.length_le_of_subset hsub
      omega
  | succ n ih =>
      simp only [visit] at h
      cases hf : followEdges (visit edges n (x :: stack)) (x :: stack) (edges x) done with
      | cycle c => simp [hf] at h
      | clear mid =>
          simp only [hf, Outcome.clear.injEq] at h
          subst h
          have hapart' : ∀ y ∈ x :: stack, y ∉ done := by
            intro y hy
            rcases List.mem_cons.mp hy with rfl | hy
            · exact hxdone
            · exact hapart y hy
          -- the targets are visited with the node on the stack; a node outside of the graph has
          -- none
          have hbelow : Spared edges (x :: stack) done mid ∧
              ∀ label y, (label, y) ∈ edges x → y ∈ mid := by
            rcases hx with hx | hsink
            · have hnodup' : (x :: stack).Nodup := List.nodup_cons.mpr ⟨hxstack, hnodup⟩
              have hsub' : x :: stack ⊆ nodes := List.cons_subset.mpr ⟨hx, hsub⟩
              have hlen' : nodes.length < n + (x :: stack).length := by
                rw [List.length_cons]
                omega
              exact followEdges_clear
                (fun _ _ _ hv hy hys hyd ho ha => ih hv hy hys hyd hnodup' hsub' hlen' ho ha)
                (hclosed x hx) hf hord hapart'
            · rw [hsink, followEdges, Outcome.clear.injEq] at hf
              subst hf
              exact ⟨⟨hord, fun _ hy => hy, hapart'⟩, by simp [hsink]⟩
          obtain ⟨hmid, htargets⟩ := hbelow
          have hxmid : x ∉ mid := hmid.apart x List.mem_cons_self
          refine ⟨⟨⟨hxmid, htargets, hmid.ordered⟩, ?_, ?_⟩, List.mem_cons_self⟩
          · exact fun y hy => List.mem_cons_of_mem _ (hmid.kept hy)
          · intro y hy hmem
            rcases List.mem_cons.mp hmem with rfl | hmem
            · exact hxstack hy
            · exact hmid.apart y (List.mem_cons_of_mem _ hy) hmem

/-- Searching from all nodes of a list leaves them done. -/
theorem searchAll_clear {xs done done' : List α} (hxs : xs ⊆ nodes)
    (h : searchAll edges (nodes.length + 1) xs done = .clear done') (hord : Ordered edges done) :
    Ordered edges done' ∧ done ⊆ done' ∧ xs ⊆ done' := by
  induction xs generalizing done with
  | nil =>
      simp only [searchAll, Outcome.clear.injEq] at h
      subst h
      exact ⟨hord, fun _ hx => hx, List.nil_subset _⟩
  | cons x xs ih =>
      obtain ⟨hx, hxs⟩ := List.cons_subset.mp hxs
      simp only [searchAll] at h
      by_cases hdone : x ∈ done
      · simp only [List.contains_iff_mem, hdone, if_true] at h
        obtain ⟨hord', hkept, hall⟩ := ih hxs h hord
        exact ⟨hord', hkept, List.cons_subset.mpr ⟨hkept hdone, hall⟩⟩
      · simp only [List.contains_iff_mem, hdone, if_false] at h
        cases hv : visit edges (nodes.length + 1) [] done x with
        | cycle c => simp [hv] at h
        | clear mid =>
            simp only [hv] at h
            obtain ⟨hmid, hxmid⟩ := visit_clear hclosed hv (.inl hx) List.not_mem_nil hdone
              List.nodup_nil (List.nil_subset _) (by simp) hord (by simp)
            obtain ⟨hord', hkept, hall⟩ := ih hxs h hmid.ordered
            exact ⟨hord', fun y hy => hkept (hmid.kept hy),
              List.cons_subset.mpr ⟨hkept hxmid, hall⟩⟩

/-- If the search finds no cycle, all nodes stand in one order in which edges only lead
backwards.  Edges may lead to nodes outside the list that have no edges. -/
theorem exists_ordered_of_clear (h : findCycle? edges nodes = none) :
    ∃ done, Ordered edges done ∧ nodes ⊆ done := by
  rw [findCycle?] at h
  cases hs : searchAll edges (nodes.length + 1) nodes [] with
  | cycle c => simp [hs] at h
  | clear done =>
      obtain ⟨hord, -, hall⟩ := searchAll_clear hclosed (fun _ hx => hx) hs trivial
      exact ⟨done, hord, hall⟩

end

/-- If the search finds no cycle and no edge leads out of the nodes, the nodes stand in one order
in which edges only lead backwards. -/
theorem exists_ordered_of_findCycle?_eq_none {nodes : List α}
    (hclosed : ∀ x ∈ nodes, ∀ label y, (label, y) ∈ edges x → y ∈ nodes)
    (h : findCycle? edges nodes = none) :
    ∃ done, Ordered edges done ∧ ∀ x, x ∈ done ↔ x ∈ nodes := by
  obtain ⟨done, hord, hall⟩ := exists_ordered_of_clear
    (fun x hx label y he => .inl (hclosed x hx label y he)) h
  refine ⟨done.filter nodes.contains, hord.filter ?_, ?_⟩
  · intro x hx label y he
    exact List.contains_iff_mem.mpr (hclosed x (List.contains_iff_mem.mp hx) label y he)
  · intro x
    simp only [List.mem_filter, List.contains_iff_mem]
    exact ⟨And.right, fun hx => ⟨hall hx, hx⟩⟩

end SignalGraph.Digraph

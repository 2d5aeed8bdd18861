import Mathlib.Data.List.Chain
import Mathlib.Data.List.Induction
import Mathlib.Data.List.Nodup
import SignalGraph.Proofs.Digraph.Order

/-!
# SignalGraph.Proofs.Digraph.Loops

What a depth-first search finds is a cycle of the graph.  At every moment the stack is a trail: a
path that passes no node twice, its last node on top (`Trail`).  An edge from the top back to a node
on the stack makes the part of the trail from there a loop (`Trail.isLoop`).

Main statements: every cycle that is found is a loop (`isLoop_of_findCycle?`), and one is found if
and only if there is a node that can reach itself (`findCycle?_eq_none_iff`).
-/

namespace SignalGraph.Digraph

variable {α β : Type} {edges : α → List (β × α)}

/-- An edge leads from the first node to the second. -/
def Joins (edges : α → List (β × α)) (a b : α) : Prop := ∃ label, (label, b) ∈ edges a

/-- The nodes of the cycle are distinct, each is joined to the next, and the closing edge leads from
the last to the first. -/
structure Cycle.IsLoop (c : Cycle α β) (edges : α → List (β × α)) : Prop where
  nodup : c.nodes.Nodup
  joined : c.nodes.IsChain (Joins edges)
  closed : ∃ first last, c.nodes.head? = some first ∧ c.nodes.getLast? = some last ∧
    (c.closing, first) ∈ edges last

/-- A node can reach itself along edges if and only if it can in a relation that the edges stand for
where they stay. -/
theorem transGen_joins_self_iff {R : α → α → Prop} {inside : α → Prop}
    (hjoins : ∀ a b, R a b → Joins edges a b) (hinside : ∀ a b, Joins edges a b → inside b)
    (hR : ∀ a b, inside a → Joins edges a b → R a b) {a : α} :
    Relation.TransGen (Joins edges) a a ↔ Relation.TransGen R a a := by
  refine ⟨fun hcycle => ?_, Relation.TransGen.mono hjoins a a⟩
  have hstart : inside a := by
    obtain ⟨b, -, hlast⟩ := Relation.TransGen.tail'_iff.mp hcycle
    exact hinside b a hlast
  have hpath : ∀ b, Relation.TransGen (Joins edges) a b → Relation.TransGen R a b ∧ inside b := by
    intro b hb
    induction hb with
    | single he => exact ⟨.single (hR _ _ hstart he), hinside _ _ he⟩
    | tail _ he ih => exact ⟨ih.1.tail (hR _ _ ih.2 he), hinside _ _ he⟩
  exact (hpath a hcycle).1

namespace Cycle.IsLoop

variable {c : Cycle α β}

theorem ne_nil (h : c.IsLoop edges) : c.nodes ≠ [] := by
  obtain ⟨first, _, hfirst, -⟩ := h.closed
  intro hnil
  simp [hnil] at hfirst

/-- The first node of a loop can reach itself. -/
theorem transGen_head (h : c.IsLoop edges) {x : α} (hx : c.nodes.head? = some x) :
    Relation.TransGen (Joins edges) x x := by
  obtain ⟨first, last, hfirst, hlast, hclosing⟩ := h.closed
  obtain rfl : first = x := Option.some.inj (hfirst.symm.trans hx)
  have hpath : Relation.ReflTransGen (Joins edges) first last := by
    obtain ⟨rest, hrest⟩ := List.head?_eq_some_iff.mp hfirst
    have hjoined := h.joined
    rw [hrest] at hjoined hlast
    have hlast : (first :: rest).getLast (List.cons_ne_nil _ _) = last :=
      Option.some.inj ((List.getLast?_eq_some_getLast _).symm.trans hlast)
    exact hlast ▸ List.relationReflTransGen_of_exists_isChain_cons rest hjoined rfl
  exact .tail' hpath ⟨c.closing, hclosing⟩

theorem exists_transGen_self (h : c.IsLoop edges) :
    ∃ x, Relation.TransGen (Joins edges) x x := by
  obtain ⟨first, -, hfirst, -⟩ := h.closed
  exact ⟨first, h.transGen_head hfirst⟩

/-- An edge leads to each node of a loop. -/
theorem exists_joins (h : c.IsLoop edges) {x : α} (hx : x ∈ c.nodes) : ∃ a, Joins edges a x := by
  obtain ⟨before, after, hsplit⟩ := List.append_of_mem hx
  cases before using List.reverseRecOn with
  | nil =>
      obtain ⟨first, last, hfirst, -, hclosing⟩ := h.closed
      obtain rfl : x = first := by simpa [hsplit] using hfirst
      exact ⟨last, c.closing, hclosing⟩
  | append_singleton before a =>
      have hjoined := h.joined
      rw [hsplit, List.append_assoc, List.singleton_append] at hjoined
      exact ⟨a, (List.isChain_append_cons_cons.mp hjoined).2.1⟩

end Cycle.IsLoop

/-! ## The stack -/

/-- A stack with its top first: a path to the top that passes no node twice. -/
structure Trail (edges : α → List (β × α)) (stack : List α) : Prop where
  nodup : stack.Nodup
  joined : stack.IsChain fun upper lower => Joins edges lower upper

namespace Trail

theorem singleton (x : α) : Trail edges [x] := ⟨List.nodup_singleton x, .singleton x⟩

theorem push {x y : α} {stack : List α} (h : Trail edges (x :: stack)) (he : Joins edges x y)
    (hy : y ∉ x :: stack) : Trail edges (y :: x :: stack) :=
  ⟨List.nodup_cons.mpr ⟨hy, h.nodup⟩, List.isChain_cons_cons.mpr ⟨he, h.joined⟩⟩

end Trail

variable [BEq α] [LawfulBEq α]

/-- The part of a stack above a node on it, and that node, in the order in which they were
pushed. -/
theorem fromNode_eq_reverse {above below : List α} {y : α} (hy : y ∉ above) :
    fromNode (above ++ y :: below) y = (above ++ [y]).reverse := by
  have habove : ∀ x ∈ above, (x != y) = true := by
    intro x hx
    simp only [bne_iff_ne]
    rintro rfl
    exact hy hx
  simp [fromNode, List.takeWhile_append_of_pos habove]

/-- An edge from the top back to a node on the stack closes a loop. -/
theorem Trail.isLoop {x y : α} {stack : List α} {label : β} (h : Trail edges (x :: stack))
    (hy : y ∈ x :: stack) (he : (label, y) ∈ edges x) :
    (⟨fromNode (x :: stack) y, label⟩ : Cycle α β).IsLoop edges := by
  obtain ⟨above, below, hsplit⟩ := List.append_of_mem hy
  obtain ⟨hnodup, hjoined⟩ := h
  rw [hsplit] at hnodup hjoined
  have hfresh : y ∉ above := fun hmem => (List.nodup_append.mp hnodup).2.2 y hmem y (by simp) rfl
  have hcut : above ++ y :: below = (above ++ [y]) ++ below := by simp
  rw [hcut] at hnodup hjoined
  rw [hsplit, fromNode_eq_reverse hfresh]
  refine ⟨?_, ?_, y, x, ?_, ?_, he⟩
  · exact List.nodup_reverse.mpr (List.nodup_append.mp hnodup).1
  · exact List.isChain_reverse.mpr hjoined.left_of_append
  · simp
  · -- the last node of the loop is the top of the stack
    have htop : (above ++ [y]).head? = (x :: stack).head? := by
      rw [hsplit]
      cases above <;> rfl
    rw [List.getLast?_reverse, htop, List.head?_cons]

/-! ## The search -/

/-- If visiting the targets finds loops only, so does following the edges to them. -/
theorem followEdges_isLoop {x : α} {stack : List α} {visit : List α → α → Outcome α β}
    (hstack : Trail edges (x :: stack))
    (hvisit : ∀ done y c, visit done y = .cycle c → Trail edges (y :: x :: stack) → c.IsLoop edges)
    {es : List (β × α)} (hes : es ⊆ edges x) {done : List α} {c : Cycle α β}
    (h : followEdges visit (x :: stack) es done = .cycle c) : c.IsLoop edges := by
  induction es generalizing done with
  | nil => cases h
  | cons edge es ih =>
      obtain ⟨label, y⟩ := edge
      obtain ⟨he, hes⟩ := List.cons_subset.mp hes
      simp only [followEdges] at h
      by_cases hy : y ∈ x :: stack
      · rw [if_pos (List.contains_iff_mem.mpr hy)] at h
        cases h
        exact hstack.isLoop hy he
      · rw [if_neg (mt List.contains_iff_mem.mp hy)] at h
        split at h
        · exact ih hes h
        · split at h
          · next found hv =>
            cases h
            exact hvisit done y c hv (hstack.push ⟨label, he⟩ hy)
          · exact ih hes h

theorem visit_isLoop {n : Nat} {stack done : List α} {x : α} {c : Cycle α β}
    (hstack : Trail edges (x :: stack)) (h : visit edges n stack done x = .cycle c) :
    c.IsLoop edges := by
  induction n generalizing stack done x c with
  | zero => cases h
  | succ n ih =>
      simp only [visit] at h
      split at h
      · next found hfollow =>
        cases h
        exact followEdges_isLoop hstack (fun _ _ _ hv htrail => ih htrail hv)
          (fun _ he => he) hfollow
      · cases h

theorem searchAll_isLoop {n : Nat} {xs done : List α} {c : Cycle α β}
    (h : searchAll edges n xs done = .cycle c) : c.IsLoop edges := by
  induction xs generalizing done with
  | nil => cases h
  | cons x xs ih =>
      simp only [searchAll] at h
      split at h
      · exact ih h
      · split at h
        · next found hv =>
          cases h
          exact visit_isLoop (Trail.singleton x) hv
        · exact ih h

/-- A cycle that is found is one. -/
theorem isLoop_of_findCycle? {nodes : List α} {c : Cycle α β}
    (h : findCycle? edges nodes = some c) : c.IsLoop edges := by
  rw [findCycle?] at h
  split at h
  · next found hs =>
    cases h
    exact searchAll_isLoop hs
  · cases h

/-- The search finds nothing if and only if no node can reach itself.  Edges may lead to nodes that
are not listed, if these have no edges themselves. -/
theorem findCycle?_eq_none_iff {nodes : List α}
    (hclosed : ∀ x label y, (label, y) ∈ edges x → y ∈ nodes ∨ edges y = []) :
    findCycle? edges nodes = none ↔ ∀ x, ¬ Relation.TransGen (Joins edges) x x := by
  constructor
  · intro hnone x hcycle
    obtain ⟨done, hordered, hall⟩ :=
      exists_ordered_of_clear (fun x _ label y he => hclosed x label y he) hnone
    -- a node that can reach itself is the target of an edge, and has one
    have hx : x ∈ nodes := by
      obtain ⟨a, -, label, hin⟩ := Relation.TransGen.tail'_iff.mp hcycle
      obtain ⟨b, ⟨label', hout⟩, -⟩ := Relation.TransGen.head'_iff.mp hcycle
      refine (hclosed a label x hin).resolve_right fun hsink => ?_
      simp [hsink] at hout
    exact hordered.not_transGen_self (hall hx) hcycle
  · intro hacyclic
    cases hfind : findCycle? edges nodes with
    | none => rfl
    | some c =>
        obtain ⟨x, hx⟩ := (isLoop_of_findCycle? hfind).exists_transGen_self
        exact absurd hx (hacyclic x)

end SignalGraph.Digraph

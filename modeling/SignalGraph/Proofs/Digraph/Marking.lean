import SignalGraph.Proofs.Digraph.Order

/-!
# SignalGraph.Proofs.Digraph.Marking

A depth-first search that marks a node when it enters it, not when it leaves it.  A node on the
stack is marked as well, so the stack has to be looked at first; `Marks` is the relation between a
moment of such a search and what it ends with.  No number bounds its depth.

The search does what `findCycle?` does, which keeps the nodes on the stack apart from those that are
done: at corresponding moments the marked nodes are those that are done or on the stack (`Covers`).
So it always ends, and it ends with the node at which the first cycle is closed (`exists_marks`).
-/

namespace SignalGraph.Digraph

variable {α β : Type}

/-- What a search ends with, from a moment with the given stack and marks and nodes that are still
to be entered: the node that is met on the stack, or all marks.  Stacks have their top first. -/
inductive Marks (next : α → List α) : List α → List α → List α → Except α (List α) → Prop where
  | nil (stack marked : List α) : Marks next stack marked [] (.ok marked)
  | loop {stack marked xs : List α} {x : α} :
    x ∈ stack → Marks next stack marked (x :: xs) (.error x)
  | skip {stack marked xs : List α} {x : α} {r : Except α (List α)} :
    x ∉ stack → x ∈ marked → Marks next stack marked xs r → Marks next stack marked (x :: xs) r
  | fail {stack marked xs : List α} {x y : α} :
    x ∉ stack → x ∉ marked → Marks next (x :: stack) (x :: marked) (next x) (.error y) →
    Marks next stack marked (x :: xs) (.error y)
  | enter {stack marked marked' xs : List α} {x : α} {r : Except α (List α)} :
    x ∉ stack → x ∉ marked → Marks next (x :: stack) (x :: marked) (next x) (.ok marked') →
    Marks next stack marked' xs r → Marks next stack marked (x :: xs) r

/-- The node that was met on the stack. -/
def met? : Except α (List α) → Option α
  | .error x => some x
  | .ok _ => none

/-- A search ends in one way only. -/
theorem Marks.unique {next : α → List α} {stack marked xs : List α} {r r' : Except α (List α)}
    (h : Marks next stack marked xs r) (h' : Marks next stack marked xs r') : r = r' := by
  induction h generalizing r' with
  | nil =>
      cases h'
      rfl
  | loop hx =>
      cases h' with
      | loop => rfl
      | skip hx' => exact absurd hx hx'
      | fail hx' => exact absurd hx hx'
      | enter hx' => exact absurd hx hx'
  | skip hx hmarked _ ih =>
      cases h' with
      | loop hx' => exact absurd hx' hx
      | skip _ _ hrest => exact ih hrest
      | fail _ hmarked' => exact absurd hmarked hmarked'
      | enter _ hmarked' => exact absurd hmarked hmarked'
  | fail hx hmarked _ ih =>
      cases h' with
      | loop hx' => exact absurd hx' hx
      | skip _ hmarked' => exact absurd hmarked' hmarked
      | fail _ _ hinner => exact ih hinner
      | enter _ _ hinner => cases ih hinner
  | enter hx hmarked _ _ ihinner ih =>
      cases h' with
      | loop hx' => exact absurd hx' hx
      | skip _ hmarked' => exact absurd hmarked' hmarked
      | fail _ _ hinner => cases ihinner hinner
      | enter _ _ hinner hrest =>
          cases ihinner hinner
          exact ih hrest

/-! ## The same search with nodes that are done -/

/-- The marked nodes are those that are done or on the stack. -/
def Covers (stack done marked : List α) : Prop := ∀ x, x ∈ marked ↔ x ∈ done ∨ x ∈ stack

theorem Covers.push {stack done marked : List α} (h : Covers stack done marked) (x : α) :
    Covers (x :: stack) done (x :: marked) := by
  intro y
  rw [List.mem_cons, List.mem_cons, h y]
  exact or_left_comm

theorem Covers.pop {stack done marked : List α} {x : α} (h : Covers (x :: stack) done marked) :
    Covers stack (x :: done) marked := by
  intro y
  rw [h y, List.mem_cons, List.mem_cons]
  exact or_left_comm.trans or_assoc.symm

/-- Both searches have closed a cycle at the same node, or have passed the same nodes. -/
inductive Agree (stack : List α) : Outcome α β → Except α (List α) → Prop where
  | cycle {c : Cycle α β} {x : α} : c.nodes.head? = some x → Agree stack (.cycle c) (.error x)
  | clear {done marked : List α} :
    Covers stack done marked → Agree stack (.clear done) (.ok marked)

variable {edges : α → List (β × α)} {nodes : List α} [BEq α] [LawfulBEq α]

/-- If visiting the targets agrees with entering them, so does following the edges to them. -/
theorem followEdges_agree {next : α → List α} {stack : List α} {visit : List α → α → Outcome α β}
    (hvisit : ∀ done marked y, y ∈ nodes → y ∉ stack → y ∉ done → Covers stack done marked →
      ∃ r, Marks next (y :: stack) (y :: marked) (next y) r ∧ Agree stack (visit done y) r)
    {es : List (β × α)} (hes : ∀ label y, (label, y) ∈ es → y ∈ nodes) {done marked : List α}
    (h : Covers stack done marked) :
    ∃ r, Marks next stack marked (es.map Prod.snd) r ∧
      Agree stack (followEdges visit stack es done) r := by
  induction es generalizing done marked with
  | nil => exact ⟨_, .nil _ _, .clear h⟩
  | cons edge es ih =>
      obtain ⟨label, y⟩ := edge
      have hes' : ∀ l z, (l, z) ∈ es → z ∈ nodes :=
        fun l z hz => hes l z (List.mem_cons_of_mem _ hz)
      rw [List.map_cons]
      by_cases hstack : y ∈ stack
      · refine ⟨_, .loop hstack, ?_⟩
        rw [followEdges, if_pos (List.contains_iff_mem.mpr hstack)]
        exact .cycle rfl
      · rw [followEdges, if_neg (mt List.contains_iff_mem.mp hstack)]
        by_cases hdone : y ∈ done
        · obtain ⟨r, hr, hagree⟩ := ih hes' h
          rw [if_pos (List.contains_iff_mem.mpr hdone)]
          exact ⟨r, .skip hstack ((h y).mpr (.inl hdone)) hr, hagree⟩
        -- a new node is entered by both, and both go on with what it leaves
        · have hmarked : y ∉ marked := fun hy => ((h y).mp hy).elim hdone hstack
          obtain ⟨r, hr, hagree⟩ :=
            hvisit done marked y (hes label y List.mem_cons_self) hstack hdone h
          rw [if_neg (mt List.contains_iff_mem.mp hdone)]
          generalize visit done y = outcome at hagree
          cases hagree with
          | cycle hhead => exact ⟨_, .fail hstack hmarked hr, .cycle hhead⟩
          | clear hcovers =>
              obtain ⟨r', hr', hagree'⟩ := ih hes' hcovers
              exact ⟨r', .enter hstack hmarked hr hr', hagree'⟩

section

variable (hclosed : ∀ x ∈ nodes, ∀ label y, (label, y) ∈ edges x → y ∈ nodes)

include hclosed

/-- Visiting a node agrees with entering it.  The bound on the depth is never reached, since the
nodes on the stack are distinct nodes of the graph. -/
theorem visit_agree {n : Nat} {stack done marked : List α} {x : α} (hx : x ∈ nodes)
    (hstack : x ∉ stack) (hnodup : stack.Nodup) (hsub : stack ⊆ nodes)
    (hlen : nodes.length < n + stack.length) (h : Covers stack done marked) :
    ∃ r, Marks (fun x => (edges x).map Prod.snd) (x :: stack) (x :: marked)
      ((edges x).map Prod.snd) r ∧ Agree stack (visit edges n stack done x) r := by
  induction n generalizing stack done marked x with
  | zero =>
      have := hnodup.length_le_of_subset hsub
      omega
  | succ n ih =>
      have hlen' : nodes.length < n + (x :: stack).length := by
        rw [List.length_cons]
        omega
      obtain ⟨r, hr, hagree⟩ :
        ∃ r, Marks (fun x => (edges x).map Prod.snd) (x :: stack) (x :: marked)
          ((edges x).map Prod.snd) r ∧
          Agree (x :: stack)
            (followEdges (visit edges n (x :: stack)) (x :: stack) (edges x) done) r :=
        followEdges_agree
          (fun done marked y hy hys _ hcovers => ih hy hys (List.nodup_cons.mpr ⟨hstack, hnodup⟩)
            (List.cons_subset.mpr ⟨hx, hsub⟩) hlen' hcovers)
          (hclosed x hx) (h.push x)
      refine ⟨r, hr, ?_⟩
      rw [visit]
      generalize followEdges (visit edges n (x :: stack)) (x :: stack) (edges x) done = outcome
        at hagree
      cases hagree with
      | cycle hhead => exact .cycle hhead
      | clear hcovers => exact .clear hcovers.pop

theorem searchAll_agree {n : Nat} (hlen : nodes.length < n) {xs : List α} (hxs : xs ⊆ nodes)
    {done marked : List α} (h : Covers [] done marked) :
    ∃ r, Marks (fun x => (edges x).map Prod.snd) [] marked xs r ∧
      Agree [] (searchAll edges n xs done) r := by
  induction xs generalizing done marked with
  | nil => exact ⟨_, .nil _ _, .clear h⟩
  | cons x xs ih =>
      obtain ⟨hx, hxs⟩ := List.cons_subset.mp hxs
      by_cases hdone : x ∈ done
      · obtain ⟨r, hr, hagree⟩ := ih hxs h
        rw [searchAll, if_pos (List.contains_iff_mem.mpr hdone)]
        exact ⟨r, .skip List.not_mem_nil ((h x).mpr (.inl hdone)) hr, hagree⟩
      · have hmarked : x ∉ marked := fun hx => ((h x).mp hx).elim hdone List.not_mem_nil
        obtain ⟨r, hr, hagree⟩ := visit_agree hclosed hx List.not_mem_nil List.nodup_nil
          (List.nil_subset nodes) hlen h
        rw [searchAll, if_neg (mt List.contains_iff_mem.mp hdone)]
        generalize visit edges n [] done x = outcome at hagree
        cases hagree with
        | cycle hhead => exact ⟨_, .fail List.not_mem_nil hmarked hr, .cycle hhead⟩
        | clear hcovers =>
            obtain ⟨r', hr', hagree'⟩ := ih hxs hcovers
            exact ⟨r', .enter List.not_mem_nil hmarked hr hr', hagree'⟩

/-- The search from all nodes ends, and it meets on the stack the first node of the cycle that is
found. -/
theorem exists_marks : ∃ r, Marks (fun x => (edges x).map Prod.snd) [] [] nodes r ∧
    met? r = (findCycle? edges nodes).bind (·.nodes.head?) := by
  have hstart : Covers ([] : List α) [] [] := fun _ => by simp
  obtain ⟨r, hr, hagree⟩ := searchAll_agree hclosed (Nat.lt_succ_self nodes.length)
    (List.Subset.refl nodes) hstart
  refine ⟨r, hr, ?_⟩
  rw [findCycle?]
  generalize searchAll edges (nodes.length + 1) nodes [] = outcome at hagree
  cases hagree with
  | cycle hhead => exact hhead.symm
  | clear _ => rfl

end

end SignalGraph.Digraph

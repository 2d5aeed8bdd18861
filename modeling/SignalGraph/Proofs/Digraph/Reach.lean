import Mathlib.Data.List.Nodup
import Mathlib.Logic.Relation
import SignalGraph.Digraph.Reach

/-!
# SignalGraph.Proofs.Digraph.Reach

A breadth-first search returns the nodes that can be reached and no others (`mem_reachable_iff`).

`Frontier` is what holds before each node is taken off the queue: the successors of the nodes that
have been taken are all seen.  The bound on their number is enough, since a node joins the queue
only when it is seen for the first time.
-/

namespace SignalGraph.Digraph

variable {α : Type} [BEq α] [LawfulBEq α]

theorem nodup_eraseDups (l : List α) : l.eraseDups.Nodup := by
  induction hlen : l.length using Nat.strongRecOn generalizing l with
  | _ n ih =>
      subst hlen
      cases l with
      | nil => simp
      | cons x l =>
          have hshorter : (l.filter fun y => !y == x).length < (x :: l).length :=
            Nat.lt_succ_of_le (List.length_filter_le _ _)
          rw [List.eraseDups_cons, List.nodup_cons]
          exact ⟨by simp, ih _ hshorter _ rfl⟩

variable {successors : α → List α}

/-- The successors of a node that have not been seen, each once. -/
theorem mem_fresh_iff {x y : α} {seen : List α} :
    y ∈ ((successors x).filter (!seen.contains ·)).eraseDups ↔ y ∈ successors x ∧ y ∉ seen := by
  simp [List.mem_filter]

/-- The state of a search in a graph: the nodes in the queue have been seen, the successors of all
other nodes that have been seen have been seen too, and no node is counted twice. -/
structure Frontier (successors : α → List α) (nodes queue seen : List α) : Prop where
  queued : queue ⊆ seen
  expanded : ∀ x ∈ seen, x ∉ queue → successors x ⊆ seen
  nodup : seen.Nodup
  inside : seen ⊆ nodes

namespace Frontier

variable {nodes queue seen : List α} {x : α}

/-- Taking a node off the queue and adding its fresh successors keeps the invariant. -/
theorem step (h : Frontier successors nodes (x :: queue) seen)
    (hclosed : ∀ x ∈ nodes, successors x ⊆ nodes) :
    let fresh := ((successors x).filter (!seen.contains ·)).eraseDups
    Frontier successors nodes (queue ++ fresh) (seen ++ fresh) := by
  intro fresh
  have hx : x ∈ seen := h.queued List.mem_cons_self
  have hxseen : successors x ⊆ seen ++ fresh := by
    intro y hy
    by_cases hmem : y ∈ seen
    · exact List.mem_append_left _ hmem
    · exact List.mem_append_right _ (mem_fresh_iff.mpr ⟨hy, hmem⟩)
  refine ⟨?_, ?_, ?_, ?_⟩
  · refine List.append_subset.mpr ⟨fun y hy => ?_, List.subset_append_right _ _⟩
    exact List.mem_append_left _ (h.queued (List.mem_cons_of_mem _ hy))
  · intro y hy hqueue
    rw [List.mem_append, not_or] at hqueue
    have hyseen : y ∈ seen := (List.mem_append.mp hy).resolve_right hqueue.2
    by_cases hyx : y = x
    · exact hyx ▸ hxseen
    · have hold := h.expanded y hyseen (by simp [hyx, hqueue.1])
      exact fun z hz => List.mem_append_left _ (hold hz)
  · refine List.nodup_append.mpr ⟨h.nodup, nodup_eraseDups _, ?_⟩
    rintro y hy z hz rfl
    exact (mem_fresh_iff.mp hz).2 hy
  · refine List.append_subset.mpr ⟨h.inside, fun y hy => ?_⟩
    exact hclosed x (h.inside hx) (mem_fresh_iff.mp hy).1

/-- When the search ends with an empty queue, or has been given a step for every node that is queued
or yet unseen, what has been seen is closed under successors. -/
theorem closed {n : Nat} (h : Frontier successors nodes queue seen)
    (hclosed : ∀ x ∈ nodes, successors x ⊆ nodes)
    (hfuel : queue.length + (nodes.length - seen.length) ≤ n) :
    ∀ x ∈ explore successors n queue seen,
      successors x ⊆ explore successors n queue seen := by
  induction n generalizing queue seen with
  | zero =>
      have hqueue : queue = [] := List.eq_nil_of_length_eq_zero (by omega)
      subst hqueue
      exact fun x hx => h.expanded x hx List.not_mem_nil
  | succ n ih =>
      cases queue with
      | nil => exact fun x hx => h.expanded x hx List.not_mem_nil
      | cons x queue =>
          have hnext := h.step hclosed
          refine ih hnext ?_
          have hroom := hnext.nodup.length_le_of_subset hnext.inside
          simp only [List.length_append, List.length_cons] at hroom hfuel ⊢
          omega

end Frontier

omit [LawfulBEq α] in
/-- A search only adds to what has been seen. -/
theorem subset_explore (n : Nat) (queue seen : List α) :
    seen ⊆ explore successors n queue seen := by
  induction n generalizing queue seen with
  | zero => exact List.Subset.refl _
  | succ n ih =>
      cases queue with
      | nil => exact List.Subset.refl _
      | cons x queue => exact fun y hy => ih _ _ (List.mem_append_left _ hy)

/-- All that is seen can be reached, if all that has been seen and is queued can. -/
theorem reachable_of_mem_explore {reached : α → Prop}
    (hstep : ∀ x, reached x → ∀ y ∈ successors x, reached y) {n : Nat} {queue seen : List α}
    (hqueue : ∀ x ∈ queue, reached x) (hseen : ∀ x ∈ seen, reached x) :
    ∀ x ∈ explore successors n queue seen, reached x := by
  induction n generalizing queue seen with
  | zero => exact hseen
  | succ n ih =>
      cases queue with
      | nil => exact hseen
      | cons x queue =>
          obtain ⟨hx, hqueue⟩ := List.forall_mem_cons.mp hqueue
          have hfresh : ∀ y ∈ ((successors x).filter (!seen.contains ·)).eraseDups, reached y :=
            fun y hy => hstep x hx y (mem_fresh_iff.mp hy).1
          exact ih (List.forall_mem_append.mpr ⟨hqueue, hfresh⟩)
            (List.forall_mem_append.mpr ⟨hseen, hfresh⟩)

/-- A search in a graph of at most `size` nodes returns the nodes that paths from the start lead
to. -/
theorem mem_reachable_iff {nodes : List α} {size : Nat} {start x : α}
    (hclosed : ∀ x ∈ nodes, successors x ⊆ nodes) (hstart : start ∈ nodes)
    (hsize : nodes.length ≤ size) :
    x ∈ reachable successors size start ↔
      Relation.ReflTransGen (fun a b => b ∈ successors a) start x := by
  constructor
  · have hself : ∀ a ∈ [start], Relation.ReflTransGen (fun a b => b ∈ successors a) start a := by
      intro a ha
      rw [List.mem_singleton.mp ha]
    exact reachable_of_mem_explore (fun a ha b hb => ha.tail hb) hself hself x
  · have hinit : Frontier successors nodes [start] [start] :=
      ⟨List.Subset.refl _, fun y hy hqueue => absurd hy hqueue, List.nodup_singleton _,
        by simpa using hstart⟩
    have hpos : 0 < nodes.length := List.length_pos_of_mem hstart
    have hbound : [start].length + (nodes.length - [start].length) ≤ size := by
      rw [List.length_singleton]
      omega
    have hend := hinit.closed hclosed hbound
    intro hpath
    induction hpath with
    | refl => exact subset_explore size [start] [start] (List.mem_singleton_self start)
    | tail _ hedge ih => exact hend _ ih hedge

end SignalGraph.Digraph

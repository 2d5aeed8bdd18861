import SignalGraph.Proofs.Link.Worklist

/-!
# SignalGraph.Proofs.Link.Settling

How many turns linking takes.  If no graph contains itself and modules have distinct names, the
queue goes through the graphs in waves: a graph that is queued again holds a graph of the wave
before, so it comes earlier in the order of graphs (`exists_order`).  Each wave is shorter than the
one before, and the turns are at most a triangular number.

`Within` is the invariant: the queue is the rest of one wave followed by the beginning of the next,
and it counts the turns that may still come, twice.

The bound that linking sets itself grows with the number of endpoints instead.  So linking can give
up on a program that would settle (`linkEndpoints_gives_up_iff`); with few graphs for the number of
endpoints it cannot.
-/

namespace SignalGraph.Link

/-! ## Who is queued again -/

/-- What is queued again after a turn, if names are distinct: graphs that hold the graph. -/
theorem nested_of_mem_instantiatingGraphs {p : Program} {id parent : ModuleId}
    (hnames : (p.modules.toList.map (·.name)).Nodup) (hid : id ∈ p.graphs)
    (h : parent ∈ instantiatingGraphs p (p.moduleAt id).name) :
    parent ∈ p.graphs ∧ id ∈ nestedGraphs p parent := by
  obtain ⟨hlt, hgraph⟩ := Program.mem_graphs_iff.mp hid
  obtain ⟨⟨parent', m⟩, hmem, rfl⟩ := List.mem_map.mp h
  obtain ⟨hentry, hholds⟩ := List.mem_filter.mp hmem
  obtain ⟨hparent, hnode⟩ := Bool.and_eq_true_iff.mp hholds
  obtain ⟨n, hn, hsource⟩ := List.any_eq_true.mp hnode
  have hget : p.modules.get? parent' = some m := Arena.mem_entries_iff.mp hentry
  have hmodule : p.moduleAt parent' = m := Arena.get_eq_of_get? hget
  have hfind : p.findModule? n.source = some id := by
    rw [eq_of_beq hsource]
    refine Arena.find?_eq_some_iff.mpr ⟨p.moduleAt id, Arena.get?_eq_some_get hlt, by simp, ?_⟩
    intro k x hk hx hname
    have heq := Arena.handle_eq_of_nodup hnames hx (Arena.get?_eq_some_get hlt) (eq_of_beq hname)
    exact absurd (congrArg Handle.idx heq) (Nat.ne_of_lt hk)
  refine ⟨Program.mem_graphs_iff.mpr ⟨Arena.lt_size_of_get? hget, by rw [hmodule]; exact hparent⟩,
    List.mem_filter.mpr ⟨List.mem_filterMap.mpr ⟨n, ?_, hfind⟩, hgraph⟩⟩
  rw [hmodule]
  exact hn

theorem nodup_instantiatingGraphs (p : Program) (name : String) :
    (instantiatingGraphs p name).Nodup := by
  have hfilter : instantiatingGraphs p name = p.modules.handles.filter fun id =>
      (p.modules.get? id).any fun m => m.isGraph && m.nodes.toList.any (·.source == name) :=
    Arena.map_fst_filter_entries p.modules fun m =>
      m.isGraph && m.nodes.toList.any (·.source == name)
  rw [hfilter]
  exact p.modules.nodup_handles.filter _

/-! ## Waves -/

/-- The queue is the rest of one wave, among the first `n + 1` graphs of the order, and the
beginning of the next one, among the first `n`; `turns` is at least twice the turns that may still
come. -/
def Within (done queue : List ModuleId) (turns : Nat) : Prop :=
  ∃ n rest next, queue = rest ++ next ∧ rest.Nodup ∧ next.Nodup ∧ rest ⊆ done.take (n + 1) ∧
    next ⊆ done.take n ∧ 2 * rest.length + n * (n + 1) ≤ turns

theorem length_le_of_subset_take {l done : List ModuleId} {n : Nat} (hnodup : l.Nodup)
    (hsub : l ⊆ done.take n) : l.length ≤ n :=
  Nat.le_trans (hnodup.length_le_of_subset hsub) (List.length_take_le n done)

/-- A wave of `n + 1` graphs and all that come after it. -/
theorem wave_add (n : Nat) : 2 * (n + 1) + n * (n + 1) = (n + 1) * (n + 1 + 1) := by
  rw [← Nat.add_mul, Nat.add_comm 2 n, Nat.mul_comm]

/-- At least the graphs in the queue may still come. -/
theorem Within.length_le {done queue : List ModuleId} {turns : Nat} (h : Within done queue turns) :
    2 * queue.length ≤ turns := by
  obtain ⟨n, rest, next, rfl, -, hnodup, -, hsub, hturns⟩ := h
  have hlen : next.length ≤ n := length_le_of_subset_take hnodup hsub
  have hwave : 2 * n ≤ n * (n + 1) := by
    cases n with
    | zero => exact Nat.le_refl _
    | succ n =>
        rw [Nat.mul_comm]
        exact Nat.mul_le_mul_left _ (by omega)
  rw [List.length_append]
  omega

/-- All graphs of an order make a wave. -/
theorem Within.all {done queue : List ModuleId} (hnodup : queue.Nodup) (hsub : queue ⊆ done) :
    Within done queue (done.length * (done.length + 1)) := by
  cases hdone : done with
  | nil =>
      cases List.subset_nil.mp (hdone ▸ hsub)
      exact ⟨0, [], [], rfl, .nil, .nil, List.nil_subset _, List.nil_subset _, Nat.le_refl _⟩
  | cons id ids =>
      have hlen := hnodup.length_le_of_subset hsub
      rw [hdone] at hlen hsub
      refine ⟨ids.length, queue, [], by simp, hnodup, .nil, ?_, List.nil_subset _, ?_⟩
      · rw [← List.length_cons, List.take_length]
        exact hsub
      · rw [List.length_cons] at hlen ⊢
        calc
          2 * queue.length + ids.length * (ids.length + 1)
            ≤ 2 * (ids.length + 1) + ids.length * (ids.length + 1) := by omega
          _ = (ids.length + 1) * (ids.length + 1 + 1) := wave_add _

/-- The first graph of the queue can be taken to stand in the rest of a wave: if that is empty, the
next wave begins. -/
theorem Within.front {done queue : List ModuleId} {id : ModuleId} {turns : Nat}
    (h : Within done (id :: queue) turns) :
    ∃ n rest next, queue = rest ++ next ∧ (id :: rest).Nodup ∧ next.Nodup ∧
      id :: rest ⊆ done.take (n + 1) ∧ next ⊆ done.take n ∧
      2 * (rest.length + 1) + n * (n + 1) ≤ turns := by
  obtain ⟨n, rest, next, hqueue, hrest, hnext, hsub, hsub', hturns⟩ := h
  cases rest with
  | cons x rest =>
      obtain ⟨rfl, rfl⟩ := List.cons.inj hqueue
      exact ⟨n, rest, next, rfl, hrest, hnext, hsub, hsub', hturns⟩
  | nil =>
      rw [List.nil_append] at hqueue
      subst hqueue
      have hlen := length_le_of_subset_take hnext hsub'
      rw [List.length_cons] at hlen
      cases n with
      | zero => omega
      | succ n =>
          refine ⟨n, queue, [], by simp, hnext, .nil, hsub', List.nil_subset _, ?_⟩
          rw [List.length_nil, Nat.mul_zero, Nat.zero_add] at hturns
          calc
            2 * (queue.length + 1) + n * (n + 1)
              ≤ 2 * (n + 1) + n * (n + 1) := by omega
            _ = (n + 1) * (n + 1 + 1) := wave_add n
            _ ≤ turns := hturns

/-- A turn takes one graph off the wave; what it queues again belongs to the next wave. -/
theorem Within.requeue {done queue : List ModuleId} {t : Turn} {turns : Nat}
    (h : Within done (t.graph :: queue) turns)
    (hparents : ∀ n parent, t.graph ∈ done.take (n + 1) →
      parent ∈ instantiatingGraphs t.after (t.after.moduleAt t.graph).name →
      parent ∈ done.take n) :
    2 ≤ turns ∧ Within done (t.requeue queue) (turns - 2) := by
  obtain ⟨n, rest, next, rfl, hrest, hnext, hsub, hsub', hturns⟩ := h.front
  obtain ⟨hgraph, hsub⟩ := List.cons_subset.mp hsub
  -- what is queued again comes from the parents of the graph, which stand earlier in the order
  have hnew : ∀ parent ∈ t.requeue (rest ++ next), parent ∈ rest ++ next ∨ parent ∈ done.take n :=
    fun parent hparent => (Turn.mem_requeue.mp hparent).imp_right fun h =>
      hparents n parent hgraph h.2
  refine ⟨by omega, ?_⟩
  rw [Turn.requeue] at hnew ⊢
  generalize hagain : (if t.changed then instantiatingGraphs t.after (t.after.moduleAt t.graph).name
    else []) = parents at hnew ⊢
  have hnodup : parents.Nodup := by
    rw [← hagain]
    split
    · exact nodup_instantiatingGraphs _ _
    · exact List.nodup_nil
  refine ⟨n, rest, next ++ parents.filter (!(rest ++ next).contains ·), by simp,
    (List.nodup_cons.mp hrest).2, ?_, hsub, ?_, by omega⟩
  · refine List.nodup_append.mpr ⟨hnext, hnodup.filter _, ?_⟩
    rintro x hx y hy rfl
    have hout := (List.mem_filter.mp hy).2
    simp [hx] at hout
  · intro x hx
    rcases List.mem_append.mp hx with hx | hx
    · exact hsub' hx
    · have hout := (List.mem_filter.mp hx).2
      rcases hnew x (List.mem_append_right _ hx) with hin | hin
      · simp [List.mem_append.mp hin] at hout
      · exact hin

/-! ## Runs -/

/-- Turns and graphs still queued together stay within the invariant's count. -/
theorem Turns.length_le {p₀ p q : Program} {done queue queue' : List ModuleId} {ts : List Turn}
    {turns : Nat} (hnames : (p₀.modules.toList.map (·.name)).Nodup)
    (hord : Digraph.Ordered (fun id => (nestedGraphs p₀ id).map fun child => ((), child)) done)
    (hdone : ∀ id, id ∈ done ↔ id ∈ p₀.graphs) (hshape : p₀.SameShape p)
    (h : Turns p queue ts q queue') (hwithin : Within done queue turns) :
    2 * (ts.length + queue'.length) ≤ turns := by
  induction h generalizing turns with
  | nil p queue =>
      rw [List.length_nil, Nat.zero_add]
      exact hwithin.length_le
  | @cons p q queue queue' t ts hruns _ ih =>
      have hshape' := hshape.trans (linkGraph_links hruns).grown.sameShape
      have hparents : ∀ n parent, t.graph ∈ done.take (n + 1) →
          parent ∈ instantiatingGraphs t.after (t.after.moduleAt t.graph).name →
          parent ∈ done.take n := by
        intro n parent hgraph hparent
        rw [hshape'.instantiatingGraphs, hshape'.name] at hparent
        have hgraph' := (hdone t.graph).mp (List.mem_of_mem_take hgraph)
        obtain ⟨hparent, hnested⟩ := nested_of_mem_instantiatingGraphs hnames hgraph' hparent
        have hedge : ((), t.graph) ∈ (nestedGraphs p₀ parent).map fun child => ((), child) :=
          List.mem_map.mpr ⟨t.graph, hnested, rfl⟩
        exact hord.mem_take_of_edge ((hdone parent).mpr hparent) hedge hgraph
      obtain ⟨hturns, hwithin'⟩ := hwithin.requeue hparents
      have hrest := ih hshape' hwithin'
      rw [List.length_cons]
      omega

/-- If no graph contains itself, linking gives up exactly if a run that uses up its rounds leaves
graphs in the queue.  With distinct names a run has at most a triangular number of turns, so linking
settles whenever its bound allows for that many. -/
theorem linkEndpoints_gives_up_iff {p : Program} (hcheck : checkGraphRecursion p = .ok ()) :
    ((linkEndpoints.apply p).1 = .error (unsettled (roundLimit p)) ↔
      ∃ ts q queue, Turns p p.graphs ts q queue ∧ ts.length = roundLimit p ∧ queue ≠ []) ∧
    ((p.modules.toList.map (·.name)).Nodup →
      (∀ ts q queue, Turns p p.graphs ts q queue →
        2 * (ts.length + queue.length) ≤ p.graphs.length * (p.graphs.length + 1)) ∧
      (p.graphs.length * (p.graphs.length + 1) ≤ 2 * roundLimit p →
        (linkEndpoints.apply p).1 ≠ .error (unsettled (roundLimit p)))) := by
  have hgives : (linkEndpoints.apply p).1 = .error (unsettled (roundLimit p)) ↔
      ∃ ts q queue, Turns p p.graphs ts q queue ∧ ts.length = roundLimit p ∧ queue ≠ [] := by
    constructor
    · intro h
      obtain ⟨ts, queue, hrun⟩ := (linkEndpoints_eq_unsettled_iff hcheck).mp (Prod.ext h rfl)
      exact ⟨ts, _, queue, hrun⟩
    · rintro ⟨ts, q, queue, hrun⟩
      rw [(linkEndpoints_eq_unsettled_iff hcheck).mpr ⟨ts, queue, hrun⟩]
  refine ⟨hgives, fun hnames => ?_⟩
  -- in an order with children first, each turn is charged to a wave, and each wave is shorter
  have hbound : ∀ ts q queue, Turns p p.graphs ts q queue →
      2 * (ts.length + queue.length) ≤ p.graphs.length * (p.graphs.length + 1) := by
    intro ts q queue hturns
    obtain ⟨done, hord, hdone⟩ := exists_order hcheck
    have hlen : done.length = p.graphs.length := by
      refine Nat.le_antisymm ?_ ?_
      · exact hord.nodup.length_le_of_subset fun id => (hdone id).mp
      · exact p.nodup_graphs.length_le_of_subset fun id => (hdone id).mpr
    have hwithin := Within.all p.nodup_graphs fun id => (hdone id).mpr
    rw [hlen] at hwithin
    exact hturns.length_le hnames hord hdone (Program.Grown.refl p).sameShape hwithin
  refine ⟨hbound, ?_⟩
  intro hlimit h
  obtain ⟨ts, q, queue, hturns, hlen, hne⟩ := hgives.mp h
  have := hbound ts q queue hturns
  have := List.length_pos_iff.mpr hne
  omega

/-! ## A program on which linking gives up -/

/-- Six graphs, the topmost first, each of which holds all the graphs below it; the lowest one
holds a processor with one marked endpoint. -/
def stairs : Program where
  modules := ⟨#[
    graphOf "G6" [] [("n1", "G1"), ("n2", "G2"), ("n3", "G3"), ("n4", "G4"), ("n5", "G5")],
    graphOf "G5" [] [("n1", "G1"), ("n2", "G2"), ("n3", "G3"), ("n4", "G4")],
    graphOf "G4" [] [("n1", "G1"), ("n2", "G2"), ("n3", "G3")],
    graphOf "G3" [] [("n1", "G1"), ("n2", "G2")],
    graphOf "G2" [] [("n1", "G1")],
    graphOf "G1" [] [("p", "P")],
    sourceOf "P" {
      name := "log"
      direction := .output
      details := some { kind := .event, types := [.prim .int32] }
      exposed := true }]⟩

/-- The queue of `stairs` is given fourteen turns, and these do not empty it. -/
theorem run_stairs : checkGraphRecursion stairs = .ok () ∧ roundLimit stairs = 14 ∧
    (linkEndpoints.apply stairs).1 = .error (unsettled 14) := by
  decide +kernel

theorem linkEndpoints_stairs : checkGraphRecursion stairs = .ok () ∧
    (linkEndpoints.apply stairs).1 = .error (unsettled (roundLimit stairs)) := by
  obtain ⟨hcheck, hlimit, hfails⟩ := run_stairs
  exact ⟨hcheck, hlimit ▸ hfails⟩

theorem turns_stairs : ∃ ts q queue, Turns stairs stairs.graphs ts q queue ∧
    ts.length = roundLimit stairs ∧ queue ≠ [] := by
  obtain ⟨hcheck, hlimit, hfails⟩ := run_stairs
  exact (linkEndpoints_gives_up_iff hcheck).1.mp (hlimit ▸ hfails)

end SignalGraph.Link

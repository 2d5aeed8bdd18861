import SignalGraph.Heart.Print
import SignalGraph.Proofs.Link.Worklist

/-!
# SignalGraph.Proofs.Link.FixedPoint

When linking again does nothing.  A linked program has only resolved graphs, so the second run
hoists nothing; what it exposes is what the first run has missed.  `Settled` says that there is
nothing of the kind, and linking again leaves the program alone exactly then
(`linkEndpoints_again_iff`).

The first run misses an endpoint that is given by a path and gets resolved while another graph has
its turn: this does not count as a change of its own graph, so the graphs that hold that one are not
queued again.
-/

namespace SignalGraph.Link

/-- No node of a graph has an endpoint that is marked for exposure and resolved. -/
def Settled (p : Program) : Prop :=
  ∀ graph node child, Holds p graph node child →
    ∀ k e, (p.moduleAt child).endpoints.get? k = some e → e.exposed → e.details = none

/-! ## A settled program -/

/-- A turn of a resolved graph with nothing to expose does nothing. -/
theorem runs_of_settled {p : Program} {graph : ModuleId}
    (hresolved : (p.moduleAt graph).Resolved) (hsettled : Settled p)
    (hnodes : ∀ node, node.idx < (p.moduleAt graph).nodes.size →
      ∃ child, Holds p graph node child) :
    Turn.Runs ⟨graph, false, [], p⟩ p := by
  have hexpose : (exposeChildren graph).apply p = (.ok (false, []), p) := by
    rw [exposeChildren, Edit.apply_program_bind]
    refine exposeNodes_of_unmarked ?_
    intro node hnode
    obtain ⟨child, hholds⟩ := hnodes node (Arena.mem_handles_iff.mp hnode)
    exact ⟨child, hholds.source, hsettled graph node child hholds⟩
  rw [Turn.Runs, linkGraph, Edit.apply_bind, hoistEndpoints_of_resolved hresolved]
  dsimp only
  rw [Edit.apply_bind, hexpose]
  rfl

/-- If every turn does nothing, the run goes through the queue once. -/
theorem turns_of_runs {p : Program} {queue : List ModuleId}
    (h : ∀ graph ∈ queue, Turn.Runs ⟨graph, false, [], p⟩ p) :
    Turns p queue (queue.map fun graph => ⟨graph, false, [], p⟩) p [] := by
  induction queue with
  | nil => exact .nil _ _
  | cons graph queue ih =>
      have hrequeue : Turn.requeue ⟨graph, false, [], p⟩ queue = queue := List.append_nil queue
      refine .cons (h graph List.mem_cons_self) ?_
      rw [hrequeue]
      exact ih fun x hx => h x (List.mem_cons_of_mem _ hx)

/-- The bound on rounds allows every graph its turn. -/
theorem length_graphs_le_roundLimit (p : Program) : p.graphs.length ≤ roundLimit p := by
  have hwork : ∀ work : Nat, p.graphs.length ≤ (p.graphs.length + 1) * (work + 1) := fun work =>
    Nat.le_trans (Nat.le_succ _) (Nat.le_mul_of_pos_right _ (Nat.succ_pos work))
  exact hwork _

/-! ## Linking twice -/

variable {p p' q : Program} {ts : List Turn}

/-- The graphs of a linked program are resolved, and the modules of their nodes are known. -/
theorem graphs_of_linked (hturns : Turns p p.graphs ts q []) {places : List EndpointPlace}
    {graph : ModuleId} (hgraph : graph ∈ p.graphs) :
    ((unmark places q).moduleAt graph).Resolved ∧
      ∀ node, node.idx < (p.moduleAt graph).nodes.size → ∃ child, Holds p graph node child := by
  rcases hturns.turn_of_mem hgraph with ⟨t, ht, rfl⟩ | hnil
  · refine ⟨?_, fun node hnode => hturns.exists_holds ht hgraph hnode⟩
    intro k e he
    rw [get?_endpoints_unmark] at he
    obtain ⟨e', he', rfl⟩ := Option.map_eq_some_iff.mp he
    exact hturns.resolved_of_turn ht k e' he'
  · cases hnil

/-- A linked program with nothing left to expose is linked to itself. -/
theorem linkEndpoints_of_settled (h : linkEndpoints.apply p = (.ok (), p'))
    (hsettled : Settled p') : linkEndpoints.apply p' = (.ok (), p') := by
  obtain ⟨hcheck, ts, q, hturns, -, rfl⟩ := linkEndpoints_eq_ok_iff.mp h
  generalize hplaces : ts.flatMap (·.passed) = places at hsettled ⊢
  have hshape : p.SameShape (unmark places q) := hturns.grown.sameShape.trans (sameShape_unmark _ _)
  have hruns : ∀ graph ∈ (unmark places q).graphs,
      Turn.Runs ⟨graph, false, [], unmark places q⟩ (unmark places q) := by
    intro graph hgraph
    obtain ⟨hresolved, hnodes⟩ := graphs_of_linked hturns (hshape.graphs ▸ hgraph)
    refine runs_of_settled hresolved hsettled fun node hnode => ?_
    obtain ⟨child, hholds⟩ := hnodes node (by rw [← hshape.nodes]; exact hnode)
    exact ⟨child, hholds.sameShape hshape⟩
  refine linkEndpoints_eq_ok_iff.mpr ⟨hshape.checkGraphRecursion.trans hcheck, _, _,
    turns_of_runs hruns, ?_, ?_⟩
  · rw [List.length_map]
    exact length_graphs_le_roundLimit _
  · have hpassed : ((unmark places q).graphs.map fun graph =>
        (⟨graph, false, [], unmark places q⟩ : Turn)).flatMap (·.passed) = [] := by
      refine List.flatMap_eq_nil_iff.mpr ?_
      intro t ht
      obtain ⟨graph, -, rfl⟩ := List.mem_map.mp ht
      rfl
    rw [hpassed]
    rfl

/-- Linking takes the mark off whatever a graph is there to expose. -/
theorem settled_of_linkEndpoints (h : linkEndpoints.apply p = (.ok (), p)) : Settled p := by
  obtain ⟨hcheck, ts, q, hturns, -, heq⟩ := linkEndpoints_eq_ok_iff.mp h
  intro graph node child hholds k e he hexposed
  by_contra hdetails
  rcases hturns.turn_of_mem hholds.isGraph with ⟨t, ht, rfl⟩ | hnil
  · have hgrown := (hturns.grown_of_turn ht).1
    obtain ⟨e', he', hdetails', hgrown'⟩ :=
      hgrown.resolved he (Option.isSome_iff_ne_none.mpr hdetails)
    obtain ⟨hpassed, -⟩ := hturns.offers_of_turn ht hholds (hholds.ne hcheck) he'
      (hgrown'.exposed.trans hexposed) hdetails'
    have hcontains : (ts.flatMap (·.passed)).contains (child, k) :=
      List.contains_iff_mem.mpr (List.mem_flatMap.mpr ⟨t, ht, hpassed⟩)
    rw [heq, get?_endpoints_unmark, hcontains] at he
    obtain ⟨x, -, rfl⟩ := Option.map_eq_some_iff.mp he
    exact absurd hexposed (by simp)
  · cases hnil

/-- Linking a linked program again succeeds and leaves it as it is exactly if no graph is left with
an endpoint of a node to expose. -/
theorem linkEndpoints_again_iff (h : linkEndpoints.apply p = (.ok (), p')) :
    linkEndpoints.apply p' = (.ok (), p') ↔ Settled p' :=
  ⟨settled_of_linkEndpoints, linkEndpoints_of_settled h⟩

/-! ## A program that linking has to be run on twice -/

/-- `Top` reaches through `M` for the endpoint `x` of `C`, which is given by a path and marked.  It
does so after `M` had its turn, when `x` was not resolved, and before `C` has its own. -/
def relayed : Program where
  modules := ⟨#[
    graphOf "M" [] [("c", "C")],
    graphOf "Top"
      [{ name := "z", direction := .output, path := some [⟨"m", none⟩, ⟨"c", none⟩, ⟨"x", none⟩] }]
      [("m", "M")],
    graphOf "C"
      [{ name := "x", direction := .output, path := some [⟨"p", none⟩, ⟨"o", none⟩]
         exposed := true }]
      [("p", "P")],
    sourceOf "P" {
      name := "o"
      direction := .output
      details := some { kind := .stream, types := [.prim .float32] } }]⟩

theorem linkEndpoints_relayed : (linkEndpoints.apply relayed).1 = .ok () ∧
    Heart.print (linkEndpoints.apply (linkEndpoints.apply relayed).2).2 ≠
      Heart.print (linkEndpoints.apply relayed).2 := by
  decide +kernel

theorem not_settled_relayed : ¬ Settled (linkEndpoints.apply relayed).2 := by
  intro hsettled
  have hagain := (linkEndpoints_again_iff (Prod.ext (by decide +kernel) rfl)).mpr hsettled
  have htext := congrArg (fun result => Heart.print result.2) hagain
  revert htext
  decide +kernel

end SignalGraph.Link

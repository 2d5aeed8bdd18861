import SignalGraph.Proofs.Digraph.Marking
import SignalGraph.Proofs.Link.Failures
import SignalGraph.Proofs.Link.Worklist

/-!
# SignalGraph.Proofs.Link.Nesting

Graphs that contain themselves.  A graph nests another one if one of its nodes is an instance of it
(`Nests`); the check for recursive graphs fails exactly if some graph can reach itself that way.

Hoisting goes from a graph to the modules of its nodes and keeps the modules that wait on a stack.
As long as it passes only through graphs (`PassesOnlyGraphs`), the modules on the stack nest each
other in turn, so without recursion it meets none of them again (`hoistGraphs_spares`).  It passes
only through graphs if nothing else has endpoints to resolve (`OnlyGraphsOpen.passesOnlyGraphs`).
-/

namespace SignalGraph.Link

open Edit

variable {p q : Program} {a b : ModuleId}

/-! ## Graphs inside graphs -/

/-- A node of the first graph is an instance of the second. -/
def Nests (p : Program) (a b : ModuleId) : Prop :=
  ∃ node, Holds p a node b ∧ (p.moduleAt b).isGraph

/-- Only graphs nest, and only graphs are nested. -/
theorem Nests.mem_graphs (h : Nests p a b) : a ∈ p.graphs ∧ b ∈ p.graphs := by
  obtain ⟨node, hholds, hgraph⟩ := h
  exact ⟨hholds.isGraph, Program.mem_graphs_iff.mpr
    ⟨Program.lt_size_of_findModule? hholds.source, hgraph⟩⟩

/-- What is listed as nested is a graph. -/
theorem mem_graphs_of_mem_nestedGraphs (h : b ∈ nestedGraphs p a) : b ∈ p.graphs := by
  obtain ⟨hmem, hgraph⟩ := List.mem_filter.mp h
  obtain ⟨n, -, hfind⟩ := List.mem_filterMap.mp hmem
  exact Program.mem_graphs_iff.mpr ⟨Program.lt_size_of_findModule? hfind, hgraph⟩

/-- The graphs that are listed as nested are the nested ones. -/
theorem mem_nestedGraphs_iff (ha : a ∈ p.graphs) : b ∈ nestedGraphs p a ↔ Nests p a b := by
  constructor
  · intro h
    obtain ⟨hmem, hgraph⟩ := List.mem_filter.mp h
    obtain ⟨n, hn, hfind⟩ := List.mem_filterMap.mp hmem
    obtain ⟨node, hnode⟩ := Arena.mem_toList_iff.mp hn
    refine ⟨node, ⟨ha, Arena.lt_size_of_get? hnode, ?_⟩, hgraph⟩
    rw [Arena.get_eq_of_get? hnode]
    exact hfind
  · rintro ⟨node, hholds, hgraph⟩
    exact hholds.mem_nestedGraphs hgraph

/-- The edges of the search. -/
def nestingEdges (p : Program) (id : ModuleId) : List (Unit × ModuleId) :=
  (nestedGraphs p id).map ((), ·)

/-- The search goes from a graph to those that it nests. -/
theorem mem_nestingEdges_iff {label : Unit} :
    (label, b) ∈ nestingEdges p a ↔ b ∈ nestedGraphs p a := by
  rw [nestingEdges, List.mem_map]
  exact ⟨fun ⟨_, hmem, heq⟩ => by cases heq; exact hmem, fun hmem => ⟨b, hmem, rfl⟩⟩

/-- A graph is on a cycle of the search if and only if it can reach itself through nodes. -/
theorem transGen_nestingEdges_iff :
    Relation.TransGen (Digraph.Joins (nestingEdges p)) a a ↔ Relation.TransGen (Nests p) a a := by
  have hinside : ∀ a b, Digraph.Joins (nestingEdges p) a b → b ∈ p.graphs :=
    fun _ _ ⟨_, he⟩ => mem_graphs_of_mem_nestedGraphs (mem_nestingEdges_iff.mp he)
  refine Digraph.transGen_joins_self_iff ?_ hinside ?_
  · exact fun a b h => ⟨(), mem_nestingEdges_iff.mpr ((mem_nestedGraphs_iff h.mem_graphs.1).mpr h)⟩
  · exact fun a b ha ⟨_, he⟩ => (mem_nestedGraphs_iff ha).mp (mem_nestingEdges_iff.mp he)

/-- The check reports the first graph of the cycle that the search finds. -/
theorem checkGraphRecursion_eq (p : Program) : checkGraphRecursion p =
    match (Digraph.findCycle? (nestingEdges p) p.graphs).bind (·.nodes.head?) with
    | some id => .error (recursiveGraph p id)
    | none => .ok () := by
  have hcycle : graphRecursion? p =
      (Digraph.findCycle? (nestingEdges p) p.graphs).map (·.nodes) := rfl
  rw [checkGraphRecursion, hcycle]
  rcases Digraph.findCycle? (nestingEdges p) p.graphs with - | ⟨nodes, closing⟩
  · rfl
  · cases nodes <;> rfl

/-- Without recursion nothing is reported. -/
theorem checkGraphRecursion_of_none (h : graphRecursion? p = none) :
    checkGraphRecursion p = .ok () := by
  rw [checkGraphRecursion, h]

/-- With recursion the first graph is reported. -/
theorem checkGraphRecursion_of_some {id : ModuleId} {ids : List ModuleId}
    (h : graphRecursion? p = some (id :: ids)) :
    checkGraphRecursion p = .error (recursiveGraph p id) := by
  rw [checkGraphRecursion, h]

/-- What the check answers if a search that marks graphs when it enters them ends like this. -/
def recursionAnswer (p : Program) (r : Except ModuleId (List ModuleId)) : Except Diagnostic Unit :=
  match r with
  | .error id => .error (recursiveGraph p id)
  | .ok _ => .ok ()

/-- The check does what a search does that marks graphs when it enters them. -/
theorem checkGraphRecursion_marks (p : Program) :
    ∃ r, Digraph.Marks (nestedGraphs p) [] [] p.graphs r ∧
      checkGraphRecursion p = recursionAnswer p r := by
  have hclosed : ∀ a ∈ p.graphs, ∀ label b, (label, b) ∈ nestingEdges p a → b ∈ p.graphs :=
    fun _ _ _ _ he => mem_graphs_of_mem_nestedGraphs (mem_nestingEdges_iff.mp he)
  have hnext : (fun a => (nestingEdges p a).map Prod.snd) = nestedGraphs p := by
    funext a
    rw [nestingEdges, List.map_map]
    exact List.map_id _
  obtain ⟨r, hmarks, hmet⟩ := Digraph.exists_marks hclosed
  rw [hnext] at hmarks
  refine ⟨r, hmarks, ?_⟩
  rw [checkGraphRecursion_eq, ← hmet]
  cases r <;> rfl

/-- A graph that is reported nests itself, directly or through others. -/
theorem transGen_of_checkGraphRecursion {d : Diagnostic} (h : checkGraphRecursion p = .error d) :
    ∃ id, d = recursiveGraph p id ∧ Relation.TransGen (Nests p) id id := by
  rw [checkGraphRecursion_eq] at h
  split at h
  · next id hhead =>
    obtain ⟨c, hcycle, hid⟩ := Option.bind_eq_some_iff.mp hhead
    refine ⟨id, (Except.error.inj h).symm, transGen_nestingEdges_iff.mp ?_⟩
    exact (Digraph.isLoop_of_findCycle? hcycle).transGen_head hid
  · cases h

/-- Nothing is reported exactly if no graph nests itself. -/
theorem checkGraphRecursion_eq_ok_iff :
    checkGraphRecursion p = .ok () ↔ ∀ id, ¬ Relation.TransGen (Nests p) id id := by
  constructor
  · intro h id hcycle
    obtain ⟨done, hord, hdone⟩ := exists_order h
    obtain ⟨_, hnests, -⟩ := Relation.TransGen.head'_iff.mp hcycle
    exact hord.not_transGen_self ((hdone id).mpr hnests.mem_graphs.1)
      (transGen_nestingEdges_iff.mpr hcycle)
  · intro h
    cases hcheck : checkGraphRecursion p with
    | ok _ => rfl
    | error d =>
        obtain ⟨id, -, hcycle⟩ := transGen_of_checkGraphRecursion hcheck
        exact absurd hcycle (h id)

/-- There are no more graphs than modules. -/
theorem length_graphs_le (p : Program) : p.graphs.length ≤ p.modules.size :=
  Arena.length_le_of_nodup p.nodup_graphs fun _ hid =>
    Arena.mem_handles_iff.mpr (Program.mem_graphs_iff.mp hid).1

/-! ## Hoisting through graphs -/

/-- Resolves all endpoints of a module as `hoistModule` does, and leaves those of nested modules
that are no graphs to `elsewhere`. -/
def hoistGraphs (elsewhere : ModuleId → Edit Unit) : Nat → List ModuleId → ModuleId → Edit Bool
  | 0, _, id => do throw (recursiveGraph (← Edit.program) id)
  | n + 1, stack, id => do
    if stack.contains id then throw (recursiveGraph (← Edit.program) id)
    let hoistChild (child : ModuleId) : Edit Unit := do
      if ((← Edit.program).moduleAt child).isGraph then
        let _ ← hoistGraphs elsewhere n (id :: stack) child
      else elsewhere child
    hoistEach hoistChild id ((← Edit.program).moduleAt id).endpoints.size

/-- Hoisting comes to no nested module but graphs: it does the same whatever were to be done at
other modules. -/
def PassesOnlyGraphs (p : Program) (id : ModuleId) : Prop :=
  ∀ elsewhere, (hoistEndpoints id).apply p =
    (hoistGraphs elsewhere (p.modules.size + 1) [] id).apply p

/-- A diagnostic says of a graph that it contains itself. -/
def ReportsRecursion (d : Diagnostic) : Prop :=
  ∃ name span, d = (Fault.recursiveGraph name).diagnose span

/-- Recursive graphs are told apart from other faults by their code. -/
theorem not_reportsRecursion {f : Fault} (hf : ∀ name, f ≠ .recursiveGraph name) (span : Span) :
    ¬ ReportsRecursion (f.diagnose span) := by
  rintro ⟨_, _, heq⟩
  have hcode : f.code = ⟨.graph, 205⟩ := congrArg Diagnostic.code heq
  cases f with
  | recursiveGraph name => exact hf name rfl
  | _ => cases hcode

/-- Programs keep their shape, and no recursive graph is reported. -/
abbrev Spares {α : Type} (p : Program) (x : Edit α) : Prop :=
  Upholds p.SameShape (fun d => ¬ ReportsRecursion d) x

section

variable {hoistChild : ModuleId → Edit Unit} {id child : ModuleId}

/-- Adding an endpoint on the way reports no recursion. -/
theorem addIntermediate_spares (child : ModuleId) (nodeName : String) (e : Endpoint)
    (fullPath rest : List PathSegment) :
    Spares p (addIntermediate child nodeName e fullPath rest) := by
  refine .program_bind fun q _ => .ite ?_ (upholds_throw_bind (not_reportsRecursion (by nofun) _) _)
  refine (upholds_modifyModule fun q hq => ?_).bind fun _ => upholds_pure _
  exact hq.trans (q.sameShape_modifyModule child fun _ => rfl)

/-- Starting on a path reports no recursion. -/
theorem pathStart_spares (m : Module) (e : Endpoint) (first : PathSegment) :
    Spares p (pathStart m e first) := by
  refine (upholds_require (not_reportsRecursion (by nofun) _) _).bind fun node => ?_
  refine .ite (upholds_throw_bind (not_reportsRecursion (by nofun) _) _)
    (.program_bind fun _ _ => ?_)
  exact (upholds_require (not_reportsRecursion (by nofun) _) _).bind fun _ => upholds_pure _

/-- Looking at an inner endpoint reports recursion only if resolving the nested module does. -/
theorem innerEndpoint_spares (hchild : Spares p (hoistChild child)) (name : String) (e : Endpoint) :
    Spares p (innerEndpoint hoistChild child name e) := by
  refine .program_bind fun _ _ =>
    (upholds_require (not_reportsRecursion (by nofun) _) _).bind fun k => ?_
  have hrest : Spares p (do
      let inner := ((← Edit.program).moduleAt child).endpoints.get k
      let details ← Edit.require ((Fault.unresolvedEndpoint name).diagnose e.span) inner.details
      if details.arraySize.isSome then
        throw ((Fault.notYetImplemented "hoisting endpoint arrays").diagnose e.span)
      return (details, inner.annotations)) := by
    refine .program_bind fun _ _ =>
      (upholds_require (not_reportsRecursion (by nofun) _) _).bind fun _ => ?_
    exact .ite (upholds_throw_bind (not_reportsRecursion (by nofun) _) _) (upholds_pure _)
  exact .ite (hchild.bind fun _ => hrest) hrest

/-- Hoisting one endpoint of a graph reports no recursion if hoisting the modules of its nodes does
not. -/
theorem hoistEndpoint_spares (hid : id ∈ p.graphs)
    (hchild : ∀ node child, Holds p id node child → Spares p (hoistChild child))
    (endpoint : EndpointId) : Spares p (hoistEndpoint hoistChild id endpoint) := by
  refine .program_bind fun q hq => ?_
  dsimp only
  split
  · exact upholds_throw (not_reportsRecursion (by nofun) _)
  · exact upholds_throw (not_reportsRecursion (by nofun) _)
  · refine .ite (upholds_throw_bind (not_reportsRecursion (by nofun) _) _) ?_
    refine (pathStart_spares _ _ _).bind_of_ok fun ⟨node, child⟩ r _ hr hstart => ?_
    have hspares : Spares p (hoistChild child) := by
      obtain ⟨hnode, -, hsource, -⟩ := pathStart_eq_ok hstart
      obtain ⟨_, hget, -⟩ := Arena.find?_eq_some_iff.mp hnode
      rw [hq.nodes] at hget hsource
      rw [hr.findModule?] at hsource
      exact hchild node child ⟨hid, Arena.lt_size_of_get? hget, hsource⟩
    refine .ite ((upholds_pure _).bind fun inner => ?_)
      ((addIntermediate_spares _ _ _ _ _).bind fun inner => ?_)
    all_goals
      refine (innerEndpoint_spares hspares inner _).bind fun _ => ?_
      refine (upholds_modifyModule fun s hs => ?_).bind fun _ => upholds_modifyModule fun s hs => ?_
      · exact hs.trans (s.sameShape_modifyModule id fun _ => rfl)
      · exact hs.trans (s.sameShape_modifyModule id fun _ => rfl)

/-- Resolving the endpoints of a graph reports recursion only if resolving a nested module does. -/
theorem hoistEach_spares (hid : id ∈ p.graphs)
    (hchild : ∀ node child, Holds p id node child → Spares p (hoistChild child)) (n : Nat) :
    Spares p (hoistEach hoistChild id n) := by
  induction n with
  | zero => exact upholds_pure _
  | succ n ih =>
      refine .program_bind fun q _ => ?_
      split
      · exact upholds_pure _
      · exact (hoistEndpoint_spares hid hchild _).bind fun _ => ih.bind fun _ => upholds_pure _

/-- The modules on the stack reach the one that is hoisted, so it is none of them, and they are
distinct; hence the bound on the nesting is never reached either. -/
theorem hoistGraphs_spares {elsewhere : ModuleId → Edit Unit}
    (hacyclic : ∀ id, ¬ Relation.TransGen (Nests p) id id)
    (helse : ∀ child, Spares p (elsewhere child)) {n : Nat} {stack : List ModuleId}
    (hid : id ∈ p.graphs) (hreach : ∀ x ∈ stack, Relation.TransGen (Nests p) x id)
    (hnodup : stack.Nodup) (hsub : stack ⊆ p.graphs) (hlen : p.graphs.length < n + stack.length) :
    Spares p (hoistGraphs elsewhere n stack id) := by
  induction n generalizing stack id with
  | zero =>
      have := hnodup.length_le_of_subset hsub
      omega
  | succ n ih =>
      have hstack : id ∉ stack := fun hmem => hacyclic id (hreach id hmem)
      have hnot : ¬ stack.contains id = true := mt List.contains_iff_mem.mp hstack
      simp only [hoistGraphs, if_neg hnot]
      refine .program_bind fun q hq => hoistEach_spares hid (fun node child hholds => ?_) _
      refine .program_bind fun r hr => ?_
      split
      · next hgraph =>
        rw [hr.isGraph] at hgraph
        -- the child is nested in the graph, so the stack with the graph reaches it as well
        have hnests : Nests p id child := ⟨node, hholds, hgraph⟩
        refine (ih hnests.mem_graphs.2 ?_ ?_ ?_ ?_).bind fun _ => upholds_pure _
        · intro x hx
          rcases List.mem_cons.mp hx with rfl | hx
          · exact .single hnests
          · exact (hreach x hx).tail hnests
        · exact List.nodup_cons.mpr ⟨hstack, hnodup⟩
        · exact List.cons_subset.mpr ⟨hid, hsub⟩
        · rw [List.length_cons]
          omega
      · exact helse child

end

/-! ## Where hoisting comes -/

/-- All endpoints of modules that are no graphs are resolved. -/
def OnlyGraphsOpen (p : Program) : Prop := ∀ id, ¬ (p.moduleAt id).isGraph →
    (p.moduleAt id).Resolved

/-- Resolving endpoints opens none in a module that is no graph. -/
theorem OnlyGraphsOpen.of_hoists {stack : List ModuleId} (h : OnlyGraphsOpen p)
    (hhoists : Hoists stack p q) : OnlyGraphsOpen q := by
  intro id hid
  rw [hhoists.grown.sameShape.isGraph] at hid
  exact hhoists.resolved id (h id hid)

/-- The endpoint that is added to a nested graph does not touch other modules. -/
theorem OnlyGraphsOpen.modifyModule (h : OnlyGraphsOpen p) {id : ModuleId} {f : Module → Module}
    (hid : (p.moduleAt id).isGraph)
    (hf : ∀ m, { f m with endpoints := m.endpoints, connections := m.connections } = m) :
    OnlyGraphsOpen (p.modifyModule id f) := by
  intro k hk
  rw [(p.sameShape_modifyModule id hf).isGraph] at hk
  have hne : id ≠ k := by
    rintro rfl
    exact hk hid
  rw [Program.moduleAt_modifyModule_of_ne hne]
  exact h k hk

section

variable {hoistChild hoistChild' : ModuleId → Edit Unit} {id child : ModuleId}

/-- Ways to hoist nested modules that do the same at graphs. -/
def SameAtGraphs (hoistChild hoistChild' : ModuleId → Edit Unit) : Prop :=
  ∀ child p, OnlyGraphsOpen p → (p.moduleAt child).isGraph →
    (hoistChild child).apply p = (hoistChild' child).apply p

/-- Where only graphs have open endpoints, an inner endpoint depends on what is done to graphs
only. -/
theorem innerEndpoint_congr (hsame : SameAtGraphs hoistChild hoistChild') (hp : OnlyGraphsOpen p)
    (name : String) (e : Endpoint) : (innerEndpoint hoistChild child name e).apply p =
      (innerEndpoint hoistChild' child name e).apply p := by
  simp only [innerEndpoint, apply_program_bind]
  refine apply_bind_congr rfl fun k q hk => ?_
  obtain ⟨hfind, rfl⟩ := apply_require_eq_ok.mp hk
  split
  · next hunresolved =>
    have hgraph : (q.moduleAt child).isGraph := by
      by_contra hgraph
      obtain ⟨x, hx, -⟩ := Arena.find?_eq_some_iff.mp hfind
      have hdetails := hp child hgraph k x hx
      rw [Arena.get_eq_of_get? hx] at hunresolved
      simp [Endpoint.isUnresolved, Option.isSome_iff_ne_none.mp hdetails] at hunresolved
    exact apply_bind_congr (hsame child q hp hgraph) fun _ _ _ => rfl
  · rfl

/-- Where only graphs have open endpoints, resolving one depends on what is done to graphs only. -/
theorem hoistEndpoint_congr (hsame : SameAtGraphs hoistChild hoistChild') (hp : OnlyGraphsOpen p)
    (endpoint : EndpointId) : (hoistEndpoint hoistChild id endpoint).apply p =
      (hoistEndpoint hoistChild' id endpoint).apply p := by
  rw [hoistEndpoint, hoistEndpoint, apply_program_bind, apply_program_bind]
  dsimp only
  split
  · rfl
  · rfl
  · split
    · rw [apply_throw_bind, apply_throw_bind]
    · refine apply_bind_congr rfl fun start q hstart => ?_
      obtain ⟨node, child⟩ := start
      obtain ⟨-, -, -, rfl⟩ := pathStart_eq_ok hstart
      dsimp only
      split
      · refine apply_bind_congr rfl fun inner r hinner => ?_
        cases hinner
        exact apply_bind_congr (innerEndpoint_congr hsame hp _ _) fun _ _ _ => rfl
      · refine apply_bind_congr rfl fun inner r hinner => ?_
        obtain ⟨hgraph, -, hr⟩ := addIntermediate_eq_ok hinner
        have hopen : OnlyGraphsOpen r := by
          rw [hr]
          exact hp.modifyModule hgraph fun _ => rfl
        exact apply_bind_congr (innerEndpoint_congr hsame hopen _ _) fun _ _ _ => rfl

variable {stack : List ModuleId}

/-- Where only graphs have open endpoints, resolving them all depends on what is done to graphs
only. -/
theorem hoistEach_congr (hsame : SameAtGraphs hoistChild hoistChild')
    (hhoists : HoistsChild hoistChild (id :: stack)) (hid : id ∉ stack) (hp : OnlyGraphsOpen p)
    (n : Nat) : (hoistEach hoistChild id n).apply p = (hoistEach hoistChild' id n).apply p := by
  induction n generalizing p with
  | zero => rfl
  | succ n ih =>
      simp only [hoistEach, apply_program_bind]
      split
      · rfl
      · next endpoint hfind =>
        obtain ⟨e, he, hunresolved, -⟩ := Arena.find?_eq_some_iff.mp hfind
        refine apply_bind_congr (hoistEndpoint_congr hsame hp endpoint) fun _ q hq => ?_
        have hnone : e.details = none := by simpa [Endpoint.isUnresolved] using hunresolved
        have hstep := (hoistEndpoint_hoists hhoists hid he hnone hq).1
        exact apply_bind_congr (ih (hp.of_hoists hstep)) fun _ _ _ => rfl

/-- Where only graphs have open endpoints, hoisting comes to graphs only. -/
theorem hoistModule_eq_hoistGraphs (elsewhere : ModuleId → Edit Unit) (hp : OnlyGraphsOpen p)
    (n : Nat) (stack : List ModuleId) (id : ModuleId) :
    (hoistModule n stack id).apply p = (hoistGraphs elsewhere n stack id).apply p := by
  induction n generalizing stack id p with
  | zero => rw [hoistModule, hoistGraphs]
  | succ n ih =>
      simp only [hoistModule, hoistGraphs]
      split
      · rw [apply_program_bind, apply_throw_bind, apply_program_bind, apply_throw_bind]
      · next hstack =>
        rw [apply_program_bind, apply_program_bind]
        refine hoistEach_congr ?_ (hoistsChild_hoistModule n (id :: stack))
          (by simpa using hstack) hp _
        intro child q hq hgraph
        rw [apply_program_bind, if_pos hgraph]
        exact apply_bind_congr (ih hq (id :: stack) child) fun _ _ _ => rfl

end

/-- Where only graphs have open endpoints, resolving them passes through graphs only. -/
theorem OnlyGraphsOpen.passesOnlyGraphs (hp : OnlyGraphsOpen p) (id : ModuleId) :
    PassesOnlyGraphs p id := by
  intro elsewhere
  rw [hoistEndpoints, apply_program_bind]
  exact hoistModule_eq_hoistGraphs elsewhere hp _ _ _

/-! ## The check -/

/-- The check for recursive graphs is exact.  It answers what a search answers that marks graphs
when it enters them, which always ends; it fails if and only if a graph can reach itself through
graphs whose nodes are instances of the next, and the graph that it names is such a one.  If it
succeeds, then at any time while the shape of the program stays, hoisting that starts at a graph and
passes only through graphs reports no recursive graph. -/
theorem checkGraphRecursion_exact (p : Program) :
    (∃ r, Digraph.Marks (nestedGraphs p) [] [] p.graphs r) ∧
    (∀ r, Digraph.Marks (nestedGraphs p) [] [] p.graphs r →
      checkGraphRecursion p = recursionAnswer p r) ∧
    ((∃ d, checkGraphRecursion p = .error d) ↔ ∃ id, Relation.TransGen (Nests p) id id) ∧
    (∀ d, checkGraphRecursion p = .error d →
      ∃ id, d = recursiveGraph p id ∧ Relation.TransGen (Nests p) id id) ∧
    (checkGraphRecursion p = .ok () → ∀ q, p.SameShape q → ∀ id ∈ q.graphs, PassesOnlyGraphs q id →
      ∀ d, ((hoistEndpoints id).apply q).1 = .error d → ¬ ReportsRecursion d) := by
  obtain ⟨r, hmarks, hanswer⟩ := checkGraphRecursion_marks p
  refine ⟨⟨r, hmarks⟩, fun r' hmarks' => hmarks.unique hmarks' ▸ hanswer, ⟨?_, ?_⟩,
    fun _ => transGen_of_checkGraphRecursion, ?_⟩
  · rintro ⟨_, herror⟩
    obtain ⟨id, -, hcycle⟩ := transGen_of_checkGraphRecursion herror
    exact ⟨id, hcycle⟩
  · rintro ⟨id, hcycle⟩
    cases hcheck : checkGraphRecursion p with
    | ok _ => exact absurd hcycle (checkGraphRecursion_eq_ok_iff.mp hcheck id)
    | error d => exact ⟨d, rfl⟩
  · intro hcheck q hshape id hid hpasses d
    have hspares : Spares p (hoistGraphs (fun _ => pure ()) (q.modules.size + 1) [] id) := by
      refine hoistGraphs_spares (checkGraphRecursion_eq_ok_iff.mp hcheck)
        (fun _ => upholds_pure ()) ?_ (fun _ hx => absurd hx List.not_mem_nil) List.nodup_nil
        (List.nil_subset _) ?_
      · rwa [hshape.graphs] at hid
      · rw [← hshape.graphs]
        exact Nat.lt_succ_of_le (length_graphs_le q)
    rw [hpasses fun _ => pure ()]
    exact (hspares q hshape).2 d

/-- Two graphs that hold each other. -/
def crossed : Program where
  modules := ⟨#[graphOf "A" [] [("b", "B")], graphOf "B" [] [("a", "A")]]⟩

/-- A graph whose output is that of a processor two levels below. -/
def twoDeep : Program where
  modules := ⟨#[
    graphOf "Top" [{ name := "x", direction := .output, path := some [⟨"m", none⟩, ⟨"x", none⟩] }]
      [("m", "M")],
    graphOf "M" [{ name := "x", direction := .output, path := some [⟨"p", none⟩, ⟨"out", none⟩] }]
      [("p", "P")],
    sourceOf "P" {
      name := "out"
      direction := .output
      details := some { kind := .stream, types := [.float32] } }]⟩

/-- In `twoDeep` resolving passes through graphs only. -/
theorem passesOnlyGraphs_twoDeep : PassesOnlyGraphs twoDeep ⟨0⟩ := by
  have hdetails : ∀ m ∈ twoDeep.modules.toList, ¬ m.isGraph →
      ∀ e ∈ m.endpoints.toList, e.details.isSome := by decide
  have hopen : OnlyGraphsOpen twoDeep := by
    refine @Program.forall_moduleAt twoDeep (fun m => ¬ m.isGraph → m.Resolved) ?_ ?_
    · intro _ k e he
      cases he
    · exact fun m hm hgraph k e he => hdetails m hm hgraph e (Arena.mem_toList_iff.mpr ⟨k, he⟩)
  exact hopen.passesOnlyGraphs ⟨0⟩

/-- In `crossed` two graphs nest each other, and one of them is reported.  In `twoDeep` none
does. -/
theorem checkGraphRecursion_exact_crossed :
    (∃ id, checkGraphRecursion crossed = .error (recursiveGraph crossed id) ∧
      Relation.TransGen (Nests crossed) id id) ∧
    checkGraphRecursion twoDeep = .ok () ∧ PassesOnlyGraphs twoDeep ⟨0⟩ ∧
      ∀ d, ((hoistEndpoints ⟨0⟩).apply twoDeep).1 = .error d → ¬ ReportsRecursion d := by
  have hfound : graphRecursion? crossed = some [⟨0⟩, ⟨1⟩] := by
    simp only [graphRecursion?, nestedGraphs, Program.findModule?, Arena.find?_eq_findIdx?]
    rfl
  have hnone : graphRecursion? twoDeep = none := by
    simp only [graphRecursion?, nestedGraphs, Program.findModule?, Arena.find?_eq_findIdx?]
    rfl
  have hcrossed := checkGraphRecursion_of_some hfound
  have htwoDeep := checkGraphRecursion_of_none hnone
  obtain ⟨-, -, -, hnamed, -⟩ := checkGraphRecursion_exact crossed
  obtain ⟨-, -, -, -, hhoists⟩ := checkGraphRecursion_exact twoDeep
  obtain ⟨id, heq, hcycle⟩ := hnamed _ hcrossed
  exact ⟨⟨id, heq ▸ hcrossed, hcycle⟩, htwoDeep, passesOnlyGraphs_twoDeep,
    hhoists htwoDeep twoDeep (Program.Grown.refl _).sameShape ⟨0⟩ (by decide)
      passesOnlyGraphs_twoDeep⟩

end SignalGraph.Link

import SignalGraph.Proofs.Check.Verdicts
import SignalGraph.Proofs.Link.Changes
import SignalGraph.Proofs.Link.Specialisation

/-!
# SignalGraph.Proofs.Check.Instances

The parameters of the modules that a verified program instantiates.  A node that supplies arguments
supplies one for each parameter of its module.  A node that supplies none is passed over, whatever
its module asks for; so the instantiated modules of a verified program have no parameters left
exactly if no node of the program was of this kind (`linkAndVerify_unbound_iff`).
-/

namespace SignalGraph

open Program

theorem Arena.Pointwise.exists_of_get? {e : Entity} {α β : Type} {φ : α → β → Prop} {a : Arena e α}
    {b : Arena e β} (h : a.Pointwise φ b) {k : Handle e} {y : β} (hy : b.get? k = some y) :
    ∃ x, a.get? k = some x ∧ φ x y := by
  cases hx : a.get? k with
  | none =>
      have hlt := Arena.lt_size_of_get? hy
      have hle := Arena.get?_eq_none_iff.mp hx
      rw [h.size] at hlt
      omega
  | some x =>
      obtain ⟨y', hy', hφ⟩ := h.get? hx
      cases hy.symm.trans hy'
      exact ⟨x, rfl, hφ⟩

namespace Link

/-! ## Linking -/

theorem Change.parameters {p q : Program} (h : Change p q) (id : ModuleId) :
    (q.moduleAt id).parameters = (p.moduleAt id).parameters := by
  obtain ⟨id', f, hf, rfl⟩ := h
  rw [moduleAt_modifyModule]
  split
  · exact (congrArg Module.parameters (hf.rest (p.moduleAt id)) :)
  · rfl

theorem Changes.parameters {p q : Program} (h : Changes p q) (id : ModuleId) :
    (q.moduleAt id).parameters = (p.moduleAt id).parameters := by
  induction h with
  | refl => rfl
  | tail _ hstep ih => rw [hstep.parameters, ih]

/-! ## Specialising -/

/-- A node of a graph that comes from a node of another one: it names a copy, or has kept its source
and had no arguments. -/
theorem source_of_rerouted {made : Specialisations} {now : Program} {a : Arena .node Node}
    {graph : ModuleId} {r : Renaming} {keyed : Node → SpecialisationKey → Prop}
    (hnodes : a.Pointwise (Rerouted made now true r keyed) (now.moduleAt graph).nodes) {k : NodeId}
    {n' : Node} (hn' : (now.moduleAt graph).nodes.get? k = some n') :
    (∃ x ∈ made, n'.source = (now.moduleAt x.2).name) ∨
      ∃ n, a.get? k = some n ∧ n.args = [] ∧ n'.source = n.source := by
  obtain ⟨n, hn, hrerouted⟩ := hnodes.exists_of_get? hn'
  by_cases hargs : n.args = []
  · rw [Rerouted, if_neg (by simp [hargs])] at hrerouted
    exact .inr ⟨n, hn, hargs, (Node.rename_eq_some_iff.mp hrerouted).source⟩
  · rw [Rerouted, if_pos ⟨rfl, hargs⟩] at hrerouted
    obtain ⟨key, copy, -, hmem, rfl⟩ := hrerouted
    exact .inl ⟨_, hmem, rfl⟩

namespace Specialised

variable {old now : Program} {made : Specialisations} (h : Specialised old made now)

include h

theorem parameters_copy {x : SpecialisationKey × ModuleId} (hx : x ∈ made) :
    (now.moduleAt x.2).parameters = [] := by
  obtain ⟨r, hc, -⟩ := h.copies x hx
  have hparams := (Module.rename_eq_some_iff.mp hc.module).parameters
  exact (Option.some.inj hparams).symm

/-- A module that was there before has kept its parameters, and any other has none. -/
theorem parameters {id : ModuleId} (hid : id ∈ now.modules.handles) :
    (now.moduleAt id).parameters =
      if id ∈ old.modules.handles then (old.moduleAt id).parameters else [] := by
  split
  · next hmem => exact h.kept.moduleAt_parameters hmem
  · next hnew =>
    obtain ⟨x, hx, rfl⟩ := h.exists_of_not_mem hid hnew
    exact h.parameters_copy hx

theorem node_cases {graph : ModuleId} (hgraph : graph ∈ now.graphs) {k : NodeId} {n' : Node}
    (hn' : (now.moduleAt graph).nodes.get? k = some n') :
    (∃ x ∈ made, n'.source = (now.moduleAt x.2).name) ∨
      ∃ graph' ∈ old.graphs, ∃ n, (old.moduleAt graph').nodes.get? k = some n ∧
        n.args = [] ∧ n'.source = n.source := by
  obtain ⟨hlt, hkind⟩ := mem_graphs_iff.mp hgraph
  by_cases hmem : graph ∈ old.modules.handles
  · have hsame : (old.moduleAt graph).isGraph = true := by
      obtain ⟨nodes, hm⟩ := h.kept.moduleAt hmem
      rwa [hm] at hkind
    have hnodes := h.nodes graph hmem
    rw [hsame] at hnodes
    refine (source_of_rerouted hnodes hn').imp_right fun hold => ⟨graph, ?_, hold⟩
    exact mem_graphs_iff.mpr ⟨Arena.mem_handles_iff.mp hmem, hsame⟩
  · obtain ⟨x, hx, rfl⟩ := h.exists_of_not_mem (Arena.mem_handles_iff.mpr hlt) hmem
    obtain ⟨r, hc, hnodes⟩ := h.copies x hx
    have hsame : (old.moduleAt x.1.source).isGraph = true := by
      have hkinds : (now.moduleAt x.2).kind = (old.moduleAt x.1.source).kind :=
        (Module.rename_eq_some_iff.mp hc.module).kind
      rwa [Module.isGraph, hkinds] at hkind
    rw [hsame] at hnodes
    refine (source_of_rerouted hnodes hn').imp_right fun hold => ⟨x.1.source, ?_, hold⟩
    exact mem_graphs_iff.mpr ⟨Arena.mem_handles_iff.mp (h.sources x hx), hsame⟩

/-- A module keeps the name under which it was found. -/
theorem findModule? {name : String} {id : ModuleId} (hid : old.findModule? name = some id) :
    now.findModule? name = some id := by
  obtain ⟨m, hm, -⟩ := Arena.find?_eq_some_iff.mp hid
  exact (h.kept.findModule?_iff (Arena.mem_handles_iff.mpr (Arena.lt_size_of_get? hm))).mpr hid

/-- A node with arguments has one for each parameter. -/
theorem length_parameters {graph : ModuleId} {k : NodeId} {child : ModuleId}
    (hholds : Holds old graph k child) (hargs : ((old.moduleAt graph).nodes.get k).args ≠ []) :
    (old.moduleAt child).parameters.length = ((old.moduleAt graph).nodes.get k).args.length := by
  obtain ⟨hlt, hkind⟩ := mem_graphs_iff.mp hholds.isGraph
  have hnodes := h.nodes graph (Arena.mem_handles_iff.mpr hlt)
  obtain ⟨n', -, hrerouted⟩ := hnodes.get? (Arena.get?_eq_some_get hholds.inRange)
  rw [Rerouted, if_pos ⟨hkind, hargs⟩] at hrerouted
  obtain ⟨key, -, hkey, -⟩ := hrerouted
  obtain ⟨hfind, hlength, -⟩ := specialisationKey_eq_ok_iff.mp hkey
  cases hholds.source.symm.trans hfind
  exact hlength

/-- A node without arguments stays as it is. -/
theorem holds_of_args_eq_nil {graph : ModuleId} {k : NodeId} {child : ModuleId}
    (hholds : Holds old graph k child) (hargs : ((old.moduleAt graph).nodes.get k).args = []) :
    Holds now graph k child := by
  obtain ⟨hlt, hkind⟩ := mem_graphs_iff.mp hholds.isGraph
  have hmem := Arena.mem_handles_iff.mpr hlt
  have hnodes := h.nodes graph hmem
  obtain ⟨n', hn', hrerouted⟩ := hnodes.get? (Arena.get?_eq_some_get hholds.inRange)
  rw [Rerouted, if_neg (by simp [hargs]), Node.rename_keeps] at hrerouted
  cases hrerouted
  refine ⟨mem_graphs_iff.mpr ⟨Arena.mem_handles_iff.mp (h.kept.mem_handles hmem), ?_⟩,
    Arena.lt_size_of_get? hn', ?_⟩
  · obtain ⟨nodes, hm⟩ := h.kept.moduleAt hmem
    rw [hm]
    exact hkind
  · rw [Arena.get_eq_of_get? hn']
    exact h.findModule? hholds.source

/-- No instantiated module has parameters exactly if none had that a node left unsupplied. -/
theorem unbound_iff :
    (∀ graph k child, Holds now graph k child → (now.moduleAt child).parameters = []) ↔
      ∀ graph k child, Holds old graph k child → ((old.moduleAt graph).nodes.get k).args = [] →
        (old.moduleAt child).parameters = [] := by
  constructor
  · intro hnow graph k child hholds hargs
    obtain ⟨m, hm, -⟩ := Arena.find?_eq_some_iff.mp hholds.source
    have hchild := Arena.mem_handles_iff.mpr (Arena.lt_size_of_get? hm)
    rw [← h.kept.moduleAt_parameters hchild]
    exact hnow graph k child (h.holds_of_args_eq_nil hholds hargs)
  · intro hold graph k child hholds
    obtain ⟨m, hm, -⟩ := Arena.find?_eq_some_iff.mp hholds.source
    have hchild := Arena.mem_handles_iff.mpr (Arena.lt_size_of_get? hm)
    have hn' := Arena.get?_eq_some_get hholds.inRange
    -- a node refers to a copy, which has no parameters left, or still to what it referred to before
    obtain ⟨x, hx, hsource⟩ | ⟨graph', hgraph', n, hn, hargs, hsource⟩ :=
      h.node_cases hholds.isGraph hn'
    · have hfind := hholds.source
      rw [hsource, h.found x hx] at hfind
      cases hfind
      exact h.parameters_copy hx
    · rw [h.parameters hchild]
      split
      · next hmem =>
        have hfind := hholds.source
        rw [hsource, h.kept.findModule?_iff hmem] at hfind
        have hget := Arena.get_eq_of_get? hn
        refine hold graph' k child ⟨hgraph', Arena.lt_size_of_get? hn, ?_⟩ ?_
        · rw [hget]
          exact hfind
        · rw [hget]
          exact hargs
      · rfl

end Specialised

end Link

namespace Check

open Link

/-- The modules that the graphs of a verified program instantiate have no parameters left exactly if
no node of the program supplied nothing to a module with parameters.  Nodes that supply something
supply a value for each parameter, or else the program is refused. -/
theorem linkAndVerify_unbound_iff {p q : Program} {settings : Settings} (hp : p.WellFormed)
    (h : linkAndVerify p settings = .ok q) :
    (∀ graph k child, Holds p graph k child → ((p.moduleAt graph).nodes.get k).args ≠ [] →
      (p.moduleAt child).parameters.length = ((p.moduleAt graph).nodes.get k).args.length) ∧
    ((∀ graph k child, Holds q graph k child → (q.moduleAt child).parameters = []) ↔
      ∀ graph k child, Holds p graph k child → ((p.moduleAt graph).nodes.get k).args = [] →
        (p.moduleAt child).parameters = []) := by
  obtain ⟨p₁, hspecialise, hlink, -⟩ := linkAndVerify_eq_ok h
  obtain ⟨made, hmade⟩ := specialised_of_apply hp hspecialise
  have hchanges : Changes p₁ q := (linkEndpoints_moves p₁).of_apply hlink
  refine ⟨fun _ _ _ hholds hargs => hmade.length_parameters hholds hargs, ?_⟩
  rw [← hmade.unbound_iff]
  constructor
  · intro hq graph k child hholds
    rw [← hchanges.parameters]
    exact hq graph k child (hholds.sameShape hchanges.sameShape)
  · intro hp₁ graph k child hholds
    rw [hchanges.parameters]
    exact hp₁ graph k child (hholds.of_sameShape hchanges.sameShape)

/-- A graph with one node, which supplies `args` to a module with one parameter. -/
def voice (args : List ConstantId) : Program where
  modules := ⟨#[
    { kind := .processor
      name := "Osc"
      endpoints := ⟨#[out]⟩
      functions := [⟨0⟩]
      parameters := [⟨0⟩] },
    { kind := .graph
      name := "Top"
      endpoints := ⟨#[out]⟩
      nodes := ⟨#[{ name := "osc", source := "Osc", args }]⟩
      connections := ⟨#[{ source := ⟨some ⟨0⟩, "out", none⟩, dest := ⟨none, "out", none⟩ }]⟩ }]⟩
  functions := ⟨#[{
    name := "run"
    owner := ⟨0⟩
    kind := .run
    blocks := ⟨#[{
      name := "@b"
      statements := [.write "out" none (.var ⟨0⟩), .advance]
      terminator := .branch ⟨0⟩ [] }]⟩ }]⟩
  vars := ⟨#[{ name := "gain", ty := .float32, role := .constant }]⟩
  constants := ⟨⟨#[.float32 0]⟩⟩
where
  out : Endpoint :=
    { name := "out"
      direction := .output
      details := some { kind := .stream, types := [.float32] } }

/-- A node that supplies nothing is not refused, and its module keeps its parameter. -/
theorem linkAndVerify_voice_nil : ∃ q, linkAndVerify (voice []) {} = .ok q ∧
    Holds q ⟨1⟩ ⟨0⟩ ⟨0⟩ ∧ (q.moduleAt ⟨0⟩).parameters = [⟨0⟩] := by
  have hrun : ((verifyEdit {}).apply (voice [])).1 = .ok () := by decide +kernel
  refine ⟨((verifyEdit {}).apply (voice [])).2, ?_, ⟨?_, ?_, ?_⟩, ?_⟩
  · rw [linkAndVerify, ← Prod.eta ((verifyEdit {}).apply (voice [])), hrun]
  all_goals decide +kernel

theorem voice_wellFormed : (voice [⟨0⟩]).WellFormed where
  modules m hm := by
    obtain rfl | hm := List.mem_cons.mp hm
    · rfl
    · cases List.mem_singleton.mp hm
      rfl
  nodes := by decide
  structs := by decide
  functions f hf := by
    cases List.mem_singleton.mp hf
    rfl
  vars := by decide
  structOwner := by decide
  functionOwner := by decide
  structsListed := by decide
  functionsListed := by decide
  declaredOnce := by decide
  declaredInRange := by decide

theorem linkAndVerify_unbound_voice : ∃ q, (voice [⟨0⟩]).WellFormed ∧
    linkAndVerify (voice [⟨0⟩]) {} = .ok q ∧ Holds q ⟨1⟩ ⟨0⟩ ⟨2⟩ ∧
    ∀ graph k child, Holds q graph k child → (q.moduleAt child).parameters = [] := by
  have hrun : ((verifyEdit {}).apply (voice [⟨0⟩])).1 = .ok () := by decide +kernel
  have hverify : linkAndVerify (voice [⟨0⟩]) {} = .ok ((verifyEdit {}).apply (voice [⟨0⟩])).2 := by
    rw [linkAndVerify, ← Prod.eta ((verifyEdit {}).apply (voice [⟨0⟩])), hrun]
  refine ⟨_, voice_wellFormed, hverify, ⟨by decide +kernel, by decide +kernel, by decide +kernel⟩,
    ?_⟩
  rw [(linkAndVerify_unbound_iff voice_wellFormed hverify).2]
  intro graph k child hholds hargs
  obtain rfl : graph = ⟨1⟩ := List.mem_singleton.mp hholds.isGraph
  obtain ⟨k⟩ := k
  obtain rfl : k = 0 := Nat.lt_one_iff.mp hholds.inRange
  cases hargs

end Check

end SignalGraph

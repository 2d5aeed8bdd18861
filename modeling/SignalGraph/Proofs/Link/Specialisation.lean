import SignalGraph.Proofs.Link.Rerouting

/-!
# SignalGraph.Proofs.Link.Specialisation

Specialising all nodes of a program.  It ends, and if it succeeds no graph has a node with arguments
left: each such node names a copy of its module in which the parameters are constants, and two of
them name the same copy exactly if they had the same module and the same values
(`specialiseInstances_specialises`).

The loop walks a table that it is extending.  Each visit of a graph keeps `Extended` and leaves the
graph settled, and there are never more modules than the old ones and the copies allowed.  So far
the program may be any; what the copies are, and that all else is kept, is shown for well-formed
ones.
-/

namespace SignalGraph.Link

open Program

variable {settings : Settings} {old now next : Program} {made made' : Specialisations}

/-! ## The copy for one node -/

/-- The copy for a node has its key: it was made before, or it is made now. -/
theorem copyFor_eq_ok {n : Node} {copy : ModuleId}
    (h : (copyFor settings n made).apply now = (.ok (copy, made'), next)) :
    ∃ key, specialisationKey now n = .ok key ∧
      ((key, copy) ∈ made ∧ made' = made ∧ next = now ∨
        key ∉ made.map (·.1) ∧ made.length < settings.maxSpecialisations ∧
          (specialisedCopy key).apply now = (.ok copy, next) ∧ made' = (key, copy) :: made) := by
  unfold copyFor at h
  rw [Edit.apply_program_bind] at h
  cases hkey : specialisationKey now n with
  | error d =>
      rw [hkey] at h
      cases h
  | ok key =>
      rw [hkey] at h
      refine ⟨key, rfl, ?_⟩
      cases hlookup : made.lookup key with
      | some copy' =>
          simp only [hlookup] at h
          cases h
          obtain ⟨l₁, l₂, heq, -⟩ := List.lookup_eq_some_iff.mp hlookup
          exact .inl ⟨by simp [heq], rfl, rfl⟩
      | none =>
          simp only [hlookup] at h
          by_cases hlimit : settings.maxSpecialisations ≤ made.length
          · simp only [hlimit, if_true] at h
            cases h
          · simp only [hlimit, if_false] at h
            obtain ⟨copy', q, hrun, hrest⟩ := Edit.apply_bind_eq_ok.mp h
            cases hrest
            -- the key was looked up in vain, so no copy was made for it
            have hnew : key ∉ made.map (·.1) := by
              intro hmem
              obtain ⟨x, hx, rfl⟩ := List.mem_map.mp hmem
              have hne := List.lookup_eq_none_iff.mp hlookup x hx
              simp at hne
            exact .inr ⟨hnew, Nat.not_le.mp hlimit, hrun, rfl⟩

/-- A module with parameters is no copy. -/
theorem Progress.source_mem (h : Progress old made now) {n : Node} {key : SpecialisationKey}
    (hkey : specialisationKey now n = .ok key) (hargs : n.args ≠ []) :
    key.source ∈ old.modules.handles := by
  obtain ⟨hfind, hlength, -⟩ := specialisationKey_eq_ok_iff.mp hkey
  obtain ⟨m, hm, -⟩ := Arena.find?_eq_some_iff.mp hfind
  have hmem : key.source ∈ now.modules.handles :=
    Arena.mem_handles_iff.mpr (Arena.lt_size_of_get? hm)
  by_contra hnew
  obtain ⟨x, hx, hcopy⟩ := h.exists_of_not_mem hmem hnew
  obtain ⟨r, hc, -⟩ := h.copies x hx
  have hparams := (Module.rename_eq_some_iff.mp hc.module).parameters
  rw [hcopy] at hparams
  have hnil : (now.moduleAt key.source).parameters = [] := (Option.some.inj hparams).symm
  rw [hnil] at hlength
  exact hargs (List.length_eq_zero_iff.mp hlength.symm)

/-- Progress with a new copy, which leaves the key of the node as it is. -/
theorem Progress.specialisedCopy (h : Progress old made now) (hold : old.WellFormed)
    {graph : ModuleId} (hgraph : graph ∈ now.modules.handles) {k : NodeId} {n : Node}
    (hn : (now.moduleAt graph).nodes.get? k = some n) (hargs : n.args ≠ [])
    {key : SpecialisationKey} (hkey : specialisationKey now n = .ok key)
    (hnew : key ∉ made.map (·.1)) {copy : ModuleId}
    (hrun : (Link.specialisedCopy key).apply now = (.ok copy, next)) :
    Progress old ((key, copy) :: made) next ∧ specialisationKey next n = .ok key := by
  have hsource := h.source_mem hkey hargs
  have hsound := args_sound h.wellFormed hgraph hn
  obtain ⟨-, hlength, hvalues⟩ := specialisationKey_eq_ok_iff.mp hkey
  have hcount : (now.moduleAt key.source).parameters.length = key.values.length := by
    rw [← hvalues.length_eq, List.length_zip, hlength, Nat.min_self]
  have hall : ∀ value ∈ key.values, SoundValue now value := by
    intro value hvalue
    obtain ⟨x, hx, hbound⟩ := exists_of_forall₂ hvalues.flip hvalue
    exact boundValue_sound hbound (hsound _ (List.of_mem_zip hx).2)
  obtain ⟨r, q, hmakes, hmade⟩ := specialisedCopy_makes h.wellFormed
    (h.kept.mem_handles hsource) hcount hall
  cases hrun.symm.trans hmakes
  refine ⟨h.copy hold hmade hsource hnew, ?_⟩
  refine (specialisationKey_congr h.wellFormed (hmade.kept.keptUpToNodes hmade.tables)
    (h.kept.mem_handles hsource) fun c hc => ?_).mpr hkey
  exact lt_size_of_sound (hsound c hc)

/-- What holds on the way for every program: each copy is one more module with a name of its own.
More is known where the program was well-formed. -/
structure Extended (settings : Settings) (old : Program) (made : Specialisations) (now : Program) :
    Prop where
  size : now.modules.size = old.modules.size + made.length
  bounded : made.length ≤ settings.maxSpecialisations
  names : (old.modules.toList.map (·.name)).Nodup → (now.modules.toList.map (·.name)).Nodup
  progress : old.WellFormed → Progress old made now

/-- Making the copy for a node keeps what was made, and the node can be turned to it. -/
theorem Extended.copyFor (h : Extended settings old made now) {graph : ModuleId}
    (hgraph : graph ∈ now.modules.handles) {k : NodeId} {n : Node}
    (hn : (now.moduleAt graph).nodes.get? k = some n) (hargs : n.args ≠ []) {copy : ModuleId}
    (hrun : (Link.copyFor settings n made).apply now = (.ok (copy, made'), next)) :
    Extended settings old made' next ∧
      (∀ id ∈ now.modules.handles,
        id ∈ next.modules.handles ∧ (next.moduleAt id).outline = (now.moduleAt id).outline) ∧
      (old.WellFormed → ∃ key, (key, copy) ∈ made' ∧ specialisationKey next n = .ok key) := by
  obtain ⟨key, hkey, ⟨hmem, rfl, rfl⟩ | ⟨hnew, hlimit, hcopy, rfl⟩⟩ := copyFor_eq_ok hrun
  · exact ⟨h, fun _ hid => ⟨hid, rfl⟩, fun _ => ⟨key, hmem, hkey⟩⟩
  · have hgains := specialisedCopy_gains hcopy
    have hprogress := fun hold : old.WellFormed =>
      (h.progress hold).specialisedCopy hold hgraph hn hargs hkey hnew hcopy
    refine ⟨⟨?_, hlimit, fun hnames => ?_, fun hold => (hprogress hold).1⟩,
      fun _ hid => hgains.outline hid,
      fun hold => ⟨key, List.mem_cons_self, (hprogress hold).2⟩⟩
    · rw [hgains.size, h.size, List.length_cons, Nat.add_assoc]
    · rw [hgains.names]
      refine List.nodup_append.mpr ⟨h.names hnames, List.nodup_singleton _, ?_⟩
      rintro _ hmem _ hname rfl
      obtain ⟨m, hm, hname'⟩ := List.mem_map.mp (List.mem_singleton.mp hname ▸ hmem)
      obtain ⟨id, hid⟩ := Arena.mem_toList_iff.mp hm
      exact Arena.find?_eq_none_iff.mp (findModule?_specialisedName now _) id m hid
        (beq_iff_eq.mpr hname')

/-! ## One graph -/

/-- The nodes of a module that have arguments. -/
def pending (m : Module) : List NodeId := (m.nodes.entries.filter (!·.2.args.isEmpty)).map (·.1)

/-- The pending nodes are those that supply arguments. -/
theorem pending_eq (m : Module) : pending m =
    m.nodes.handles.filter fun k => (m.nodes.get? k).any (!·.args.isEmpty) :=
  Arena.map_fst_filter_entries m.nodes (!·.args.isEmpty)

/-- A pending node is there and supplies arguments. -/
theorem exists_of_pending {m : Module} {k : NodeId} (h : k ∈ pending m) :
    ∃ n, m.nodes.get? k = some n ∧ n.args ≠ [] := by
  rw [pending_eq, List.mem_filter] at h
  obtain ⟨n, hn, hargs⟩ := (Option.any_eq_true _ _).mp h.2
  exact ⟨n, hn, by simpa using hargs⟩

/-- Nothing is pending exactly if no node supplies arguments. -/
theorem pending_eq_nil_iff {m : Module} :
    pending m = [] ↔ ∀ n ∈ m.nodes.toList, n.args = [] := by
  constructor
  · intro h n hn
    by_contra hargs
    obtain ⟨k, hk⟩ := Arena.mem_toList_iff.mp hn
    have hmem : k ∈ pending m := by
      rw [pending_eq, List.mem_filter, Arena.mem_handles_iff]
      exact ⟨Arena.lt_size_of_get? hk, by simpa [hk] using hargs⟩
    rw [h] at hmem
    cases hmem
  · intro h
    refine List.eq_nil_iff_forall_not_mem.mpr fun k hk => ?_
    obtain ⟨n, hn, hargs⟩ := exists_of_pending hk
    exact hargs (h n (Arena.mem_toList_iff.mpr ⟨k, hn⟩))

/-- A node that is pointed to its copy is no longer pending. -/
theorem pending_point {m : Module} {k : NodeId} {rest : List NodeId} (h : pending m = k :: rest)
    (source : String) : pending { m with
      nodes := m.nodes.modify k fun n => { n with source, args := [] } } = rest := by
  have hnodup : (k :: rest).Nodup := by
    rw [← h, pending_eq]
    exact m.nodes.nodup_handles.filter _
  have hothers : pending { m with
      nodes := m.nodes.modify k fun n => { n with source, args := [] } } =
        (pending m).filter (· ≠ k) := by
    have hhandles : (m.nodes.modify k fun n => { n with source, args := [] }).handles =
        m.nodes.handles := Arena.handles_eq_of_size (Arena.size_modify _ _ _)
    simp only [pending_eq, hhandles, List.filter_filter]
    refine List.filter_congr fun j _ => ?_
    rw [Arena.get?_modify]
    by_cases hj : k = j
    · subst hj
      cases m.nodes.get? k <;> simp
    · simp [hj, Ne.symm hj]
  rw [hothers, h, List.filter_cons_of_neg (by simp)]
  refine List.filter_eq_self.mpr fun j hj => ?_
  have hne : j ≠ k := fun heq => (List.nodup_cons.mp hnodup).1 (heq ▸ hj)
  simpa using hne

/-- What is pending depends on the outline of a module only. -/
theorem pending_congr {m m' : Module} (h : m'.outline = m.outline) : pending m' = pending m := by
  rw [pending, show m'.nodes = m.nodes from congrArg (·.2.2) h]
  rfl

/-- Whether a module is a graph is part of its outline. -/
theorem isGraph_congr {m m' : Module} (h : m'.outline = m.outline) : m'.isGraph = m.isGraph := by
  rw [Module.isGraph, show m'.kind = m.kind from congrArg (·.1) h]
  rfl

/-- No node of the module is to be specialised. -/
def Unbound (m : Module) : Prop := m.isGraph → ∀ n ∈ m.nodes.toList, n.args = []

/-- Whether nodes leave parameters unbound is part of the outline. -/
theorem unbound_congr {m m' : Module} (h : m'.outline = m.outline) (hm : Unbound m) :
    Unbound m' := by
  rw [Unbound, isGraph_congr h, ← pending_eq_nil_iff, pending_congr h, pending_eq_nil_iff]
  exact hm

/-- What a visit of a module leaves: the module is settled, and the other modules have the same
outlines as before. -/
structure Visited (settings : Settings) (old : Program) (graph : ModuleId) (now : Program)
    (made' : Specialisations) (next : Program) : Prop where
  extended : Extended settings old made' next
  settled : Unbound (next.moduleAt graph)
  others : ∀ id ∈ now.modules.handles, id ≠ graph →
    id ∈ next.modules.handles ∧ (next.moduleAt id).outline = (now.moduleAt id).outline

/-- Pointing a node to its copy. -/
theorem Extended.point (h : Extended settings old made now) {graph : ModuleId}
    (hgraph : graph ∈ now.modules.handles) (hkind : (now.moduleAt graph).isGraph) {k : NodeId}
    {n : Node} (hn : (now.moduleAt graph).nodes.get? k = some n) (hargs : n.args ≠ [])
    {copy : ModuleId}
    (hkey : old.WellFormed → ∃ key, (key, copy) ∈ made ∧ specialisationKey now n = .ok key) :
    Extended settings old made (Progress.pointNode now graph k (now.moduleAt copy).name) where
  size := (Arena.size_modify _ _ _).trans h.size
  bounded := h.bounded
  names hnames := by
    rw [Progress.names_pointNode]
    exact h.names hnames
  progress hold := by
    obtain ⟨key, hmem, hkey⟩ := hkey hold
    exact (h.progress hold).point hold hgraph hkind hn hargs hkey hmem

/-- The pending nodes of a graph are turned to copies one after the other, by induction on the
list. -/
theorem specialiseNodes_visits {graph : ModuleId} {ids : List NodeId}
    (h : Extended settings old made now) (hgraph : graph ∈ now.modules.handles)
    (hkind : (now.moduleAt graph).isGraph) (hids : pending (now.moduleAt graph) = ids)
    (hrun : (specialiseNodes settings graph ids made).apply now = (.ok made', next)) :
    Visited settings old graph now made' next := by
  induction ids generalizing made now with
  | nil =>
      cases hrun
      exact ⟨h, fun _ => pending_eq_nil_iff.mp hids, fun id hid _ => ⟨hid, rfl⟩⟩
  | cons k ids ih =>
      obtain ⟨n, hn, hargs⟩ := exists_of_pending (hids ▸ List.mem_cons_self)
      rw [specialiseNodes, Edit.apply_program_bind,
        show (now.moduleAt graph).nodes.get k = n from Arena.get_eq_of_get? hn] at hrun
      obtain ⟨⟨copy, made₁⟩, q, hcopy, hrun⟩ := Edit.apply_bind_eq_ok.mp hrun
      obtain ⟨hq, hkept, hkey⟩ := h.copyFor hgraph hn hargs hcopy
      obtain ⟨hgraph₁, hsame⟩ := hkept graph hgraph
      rw [← isGraph_congr hsame] at hkind
      rw [← pending_congr hsame] at hids
      rw [← show (q.moduleAt graph).nodes = (now.moduleAt graph).nodes from
        congrArg (·.2.2) hsame] at hn
      -- the first pending node is pointed to its copy, which leaves one fewer pending
      have hpoint := hq.point hgraph₁ hkind hn hargs hkey
      have hself := Progress.moduleAt_pointNode q graph k (q.moduleAt copy).name hgraph₁
      have hhandles :=
        (Progress.reworked_pointNode q graph k (q.moduleAt copy).name hgraph₁).handles
      have hvisited := ih hpoint (hhandles ▸ hgraph₁) (by rw [hself]; exact hkind)
        (by rw [hself]; exact pending_point hids _) hrun
      refine { hvisited with others := fun id hid hne => ?_ }
      obtain ⟨hid₁, hid₂⟩ := hkept id hid
      obtain ⟨hnext, hmodule⟩ := hvisited.others id (hhandles ▸ hid₁) hne
      refine ⟨hnext, ?_⟩
      rw [hmodule, Progress.moduleAt_pointNode_of_ne q graph k _ hne, hid₂]

/-! ## The whole program -/

/-- What specialising leaves of every program. -/
structure Finished (settings : Settings) (old now : Program) : Prop where
  unbound : ∀ m ∈ now.modules.toList, m.isGraph → ∀ n ∈ m.nodes.toList, n.args = []
  bounded : now.modules.size ≤ old.modules.size + settings.maxSpecialisations
  names : (old.modules.toList.map (·.name)).Nodup → (now.modules.toList.map (·.name)).Nodup

/-- What specialising makes of a well-formed program, with the copies that are listed in `made`. -/
structure Specialised (old : Program) (made : Specialisations) (now : Program) : Prop
    extends CopiesAdded old made now where
  /-- Copies have one name if and only if they are for the same module and values. -/
  shared : ∀ x ∈ made, ∀ y ∈ made,
    (now.moduleAt x.2).name = (now.moduleAt y.2).name ↔ x.1 = y.1
  nodes : ∀ id ∈ old.modules.handles, (old.moduleAt id).nodes.Pointwise
    (Rerouted made now (old.moduleAt id).isGraph .identity (OldKey old)) (now.moduleAt id).nodes
  copies : ∀ x ∈ made, ∃ r, SpecialisedCopy old x.1 x.2 r now ∧
    (old.moduleAt x.1.source).nodes.Pointwise
      (Rerouted made now (old.moduleAt x.1.source).isGraph r (CopyKey old now r))
      (now.moduleAt x.2).nodes

/-- Once every module is settled, all is specialised. -/
theorem Progress.specialised (h : Progress old made now)
    (hsettled : ∀ id ∈ now.modules.handles, Unbound (now.moduleAt id)) :
    Specialised old made now := by
  -- a node that is underway has arrived once its module is settled
  have hdone : ∀ {graph : Bool} {r : Renaming} {keyed : Node → SpecialisationKey → Prop}
      {a : Arena .node Node} {id : ModuleId}, id ∈ now.modules.handles →
      (graph → (now.moduleAt id).isGraph) →
      a.Pointwise (Underway made now graph r keyed) (now.moduleAt id).nodes →
      a.Pointwise (Rerouted made now graph r keyed) (now.moduleAt id).nodes := by
    intro graph r keyed a id hid hkind hnodes
    refine ⟨hnodes.size, fun k n hn => ?_⟩
    obtain ⟨n', hn', hunder⟩ := hnodes.get? hn
    exact ⟨n', hn', hunder.rerouted fun hgraph =>
      hsettled id hid (hkind hgraph) n' (Arena.mem_toList_iff.mpr ⟨k, hn'⟩)⟩
  refine { h.toCopiesAdded with
    shared := fun x hx y hy => ⟨fun hname => ?_, fun hkey => ?_⟩
    nodes := fun id hid => ?_
    copies := fun x hx => ?_ }
  -- copies have distinct handles, and each is found by its own name
  · have hcopies : (made.map (·.2)).Nodup := by
      rw [h.handles, List.nodup_reverse]
      exact nodup_freshHandles _ _
    have hsame : x.2 = y.2 := by
      have hfound := h.found x hx
      rw [hname, h.found y hy] at hfound
      exact (Option.some.inj hfound).symm
    rw [List.inj_on_of_nodup_map hcopies hx hy hsame]
  · rw [List.inj_on_of_nodup_map h.keys hx hy hkey]
  · obtain ⟨nodes, hm⟩ := h.kept.moduleAt hid
    refine hdone (h.kept.mem_handles hid) (fun hgraph => ?_) (h.nodes id hid)
    rw [hm]
    exact hgraph
  · obtain ⟨r, hc, hnodes⟩ := h.copies x hx
    refine ⟨r, hc, hdone (h.mem_handles hx) (fun hgraph => ?_) hnodes⟩
    have hkind := (Module.rename_eq_some_iff.mp hc.module).kind
    simp only [Module.isGraph] at hgraph ⊢
    rw [show (now.moduleAt x.2).kind = _ from hkind]
    exact hgraph

/-- Past the last module nothing is done. -/
theorem apply_specialiseFrom_of_none {id : ModuleId} (h : now.modules.get? id = none)
    (fuel : Nat) : (specialiseFrom settings fuel id made).apply now = (.ok (), now) := by
  cases fuel with
  | zero => rfl
  | succ fuel =>
      rw [specialiseFrom, Edit.apply_program_bind, h]
      rfl

/-- A module is visited, then those after it, copies included. -/
theorem apply_specialiseFrom_of_some {id : ModuleId} {m : Module}
    (h : now.modules.get? id = some m) (fuel : Nat) :
    (specialiseFrom settings (fuel + 1) id made).apply now =
      (specialiseNodes settings id (if m.isGraph then pending m else []) made >>=
        specialiseFrom settings fuel ⟨id.idx + 1⟩).apply now := by
  rw [specialiseFrom, Edit.apply_program_bind, h]
  rfl

/-- A visit leaves no pending node in the module that was visited. -/
theorem visits {id : ModuleId} {m : Module} (h : Extended settings old made now)
    (hm : now.modules.get? id = some m)
    (hrun : (specialiseNodes settings id (if m.isGraph then pending m else []) made).apply now =
      (.ok made', next)) : Visited settings old id now made' next := by
  have hat : now.moduleAt id = m := Arena.get_eq_of_get? hm
  have hid : id ∈ now.modules.handles := Arena.mem_handles_iff.mpr (Arena.lt_size_of_get? hm)
  by_cases hkind : m.isGraph
  · rw [if_pos hkind] at hrun
    exact specialiseNodes_visits h hid (hat ▸ hkind) (congrArg pending hat) hrun
  · rw [if_neg hkind] at hrun
    cases hrun
    refine ⟨h, fun hgraph => ?_, fun k hk _ => ⟨hk, rfl⟩⟩
    exact absurd (hat ▸ hgraph) hkind

/-- Where the walk from a position leads: its length does not matter, and a success specialises. -/
def Walks (settings : Settings) (old : Program) (fuel : Nat) (id : ModuleId)
    (made : Specialisations) (now : Program) : Prop :=
  (∀ more, (specialiseFrom settings (fuel + more) id made).apply now =
    (specialiseFrom settings fuel id made).apply now) ∧
  ∀ next, (specialiseFrom settings fuel id made).apply now = (.ok (), next) →
    Finished settings old next ∧ (old.WellFormed → ∃ made', Specialised old made' next)

/-- The walk ends behind the last module. -/
theorem walks_of_none (h : Extended settings old made now) {id : ModuleId}
    (hbefore : ∀ k ∈ now.modules.handles, k.idx < id.idx → Unbound (now.moduleAt k))
    (hnone : now.modules.get? id = none) (fuel : Nat) : Walks settings old fuel id made now := by
  have hsettled : ∀ k ∈ now.modules.handles, Unbound (now.moduleAt k) := fun k hk =>
    hbefore k hk
      (Nat.lt_of_lt_of_le (Arena.mem_handles_iff.mp hk) (Arena.get?_eq_none_iff.mp hnone))
  refine ⟨fun more => ?_, fun next hrun => ?_⟩
  · rw [apply_specialiseFrom_of_none hnone, apply_specialiseFrom_of_none hnone]
  · rw [apply_specialiseFrom_of_none hnone] at hrun
    cases hrun
    refine ⟨⟨fun m hm => ?_, ?_, h.names⟩,
      fun hold => ⟨made, (h.progress hold).specialised hsettled⟩⟩
    · rw [← Arena.map_get_handles] at hm
      obtain ⟨k, hk, rfl⟩ := List.mem_map.mp hm
      exact hsettled k hk
    · rw [h.size]
      exact Nat.add_le_add_left h.bounded _

/-- The walk from a position on, where all modules before it are settled.  It reaches the end of the
table before the bound on its length. -/
theorem specialiseFrom_walks {fuel : Nat} {id : ModuleId} (h : Extended settings old made now)
    (hbefore : ∀ k ∈ now.modules.handles, k.idx < id.idx → Unbound (now.moduleAt k))
    (hfuel : old.modules.size + settings.maxSpecialisations ≤ id.idx + fuel) :
    Walks settings old fuel id made now := by
  induction fuel generalizing made now id with
  | zero =>
      have hsize := h.size
      have hbound := h.bounded
      exact walks_of_none h hbefore (Arena.get?_eq_none_iff.mpr (by omega)) 0
  | succ fuel ih =>
      cases hm : now.modules.get? id with
      | none => exact walks_of_none h hbefore hm _
      | some m =>
          unfold Walks
          simp only [Nat.add_right_comm fuel 1, apply_specialiseFrom_of_some hm, Edit.apply_bind]
          cases hrun : (specialiseNodes settings id (if m.isGraph then pending m else [])
              made).apply now with
          | mk outcome q =>
              cases outcome with
              | error d => exact ⟨fun _ => rfl, fun _ hrun => by cases hrun⟩
              | ok made₁ =>
                  -- one graph is settled, and the modules before it are left alone
                  have hvisit := visits h hm hrun
                  refine ih hvisit.extended (fun k hk hlt => ?_) ?_
                  · by_cases hkid : k = id
                    · rw [hkid]
                      exact hvisit.settled
                    · have hne : k.idx ≠ id.idx := fun heq =>
                        hkid (by cases k; cases id; exact congrArg _ heq)
                      have hlt : k.idx < id.idx := Nat.lt_of_le_of_ne (Nat.le_of_lt_succ hlt) hne
                      have hk : k ∈ now.modules.handles :=
                        Arena.mem_handles_iff.mpr (Nat.lt_trans hlt (Arena.lt_size_of_get? hm))
                      exact unbound_congr (hvisit.others k hk hkid).2 (hbefore k hk hlt)
                  · simp only
                    omega

/-- What a successful run makes of a well-formed program. -/
theorem specialised_of_apply {p q : Program} {settings : Settings} (hp : p.WellFormed)
    (h : (specialiseInstances settings).apply p = (.ok (), q)) :
    ∃ made, Specialised p made q := by
  have hwalk : Walks settings p (p.modules.size + settings.maxSpecialisations) ⟨0⟩ [] p :=
    specialiseFrom_walks ⟨rfl, Nat.zero_le _, id, .start⟩
      (fun _ _ hlt => absurd hlt (Nat.not_lt_zero _)) (Nat.le_of_eq (Nat.zero_add _).symm)
  exact (hwalk.2 q h).2 hp

/-- Specialising always comes to an end.  If it succeeds, no graph has a node with arguments left,
no more modules are added than the settings allow, and distinct names stay distinct.  Each node that
had arguments names a copy of its module in which the parameters are constants with the values bound
to them, the same copy for the same module and values and for these only, and all else in the
modules stays as it is. -/
theorem specialiseInstances_specialises (p : Program) (settings : Settings) :
    (∀ more, (specialiseFrom settings
        (p.modules.size + settings.maxSpecialisations + more) ⟨0⟩ []).apply p =
      (specialiseInstances settings).apply p) ∧
    ∀ q, (specialiseInstances settings).apply p = (.ok (), q) →
      Finished settings p q ∧ (p.WellFormed → ∃ made, Specialised p made q) :=
  specialiseFrom_walks ⟨rfl, Nat.zero_le _, id, .start⟩
    (fun _ _ hlt => absurd hlt (Nat.not_lt_zero _)) (Nat.le_of_eq (Nat.zero_add _).symm)

/-- A graph that specialises another graph, and a processor that both of them specialise alike. -/
def layered : Program where
  modules := ⟨#[
    { kind := .graph
      name := "G"
      nodes := ⟨#[{ name := "o", source := "Osc", args := [⟨1⟩] }]⟩
      parameters := [⟨0⟩] },
    { kind := .graph
      name := "Top"
      nodes := ⟨#[{ name := "g", source := "G", args := [⟨0⟩] },
        { name := "o", source := "Osc", args := [⟨1⟩] }]⟩ },
    { kind := .processor, name := "Osc", state := [⟨2⟩], parameters := [⟨1⟩] }]⟩
  vars := ⟨#[
    { name := "k", ty := .int32, role := .constant },
    { name := "gain", ty := .int64, role := .constant },
    { name := "phase", ty := .float64, role := .state }]⟩
  constants := ⟨⟨#[.int32 1, .int32 2]⟩⟩

/-- `layered` is well formed. -/
theorem layered_wellFormed : layered.WellFormed where
  modules m hm := by
    obtain rfl | hm := List.mem_cons.mp hm
    · rfl
    · obtain rfl | hm := List.mem_cons.mp hm
      · rfl
      · cases List.mem_singleton.mp hm
        rfl
  nodes := by decide
  structs := by decide
  functions _ hf := by cases hf
  vars := by decide
  structOwner := by decide
  functionOwner := by decide
  structsListed := by decide
  functionsListed := by decide
  declaredOnce := by decide
  declaredInRange := by decide

/-- Both graphs and the copy of the inner one share the copy of the processor. -/
theorem specialiseInstances_specialises_layered : ∃ made q,
    (specialiseInstances {}).apply layered = (.ok (), q) ∧ Finished {} layered q ∧
    Specialised layered made q ∧
    q.modules.toList.map (fun m => (m.name, m.nodes.toList.map (·.source))) =
      [("G", ["Osc_specialised_1"]), ("Top", ["G_specialised_1", "Osc_specialised_1"]), ("Osc", []),
        ("Osc_specialised_1", []), ("G_specialised_1", ["Osc_specialised_1"])] := by
  have hok : ((specialiseInstances {}).apply layered).1 = .ok () := by decide +kernel
  have hshape : ((specialiseInstances {}).apply layered).2.modules.toList.map
      (fun m => (m.name, m.nodes.toList.map (·.source))) =
      [("G", ["Osc_specialised_1"]), ("Top", ["G_specialised_1", "Osc_specialised_1"]), ("Osc", []),
        ("Osc_specialised_1", []), ("G_specialised_1", ["Osc_specialised_1"])] := by
    decide +kernel
  cases hrun : (specialiseInstances {}).apply layered with
  | mk outcome q =>
      rw [hrun] at hok hshape
      subst hok
      obtain ⟨hfinished, hspecialised⟩ := (specialiseInstances_specialises layered {}).2 q hrun
      obtain ⟨made, hmade⟩ := hspecialised layered_wellFormed
      exact ⟨made, q, rfl, hfinished, hmade, hshape⟩

end SignalGraph.Link

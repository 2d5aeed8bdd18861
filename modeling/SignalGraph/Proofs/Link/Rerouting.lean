import SignalGraph.Proofs.Link.SpecialisedCopies

/-!
# SignalGraph.Proofs.Link.Rerouting

What holds while copies are made and nodes are pointed to them (`Progress`): there is one copy for
each key, old modules have only had their nodes rerouted, and so have copies, compared with the
module that they copy.  Two changes keep this: a new copy (`Progress.copy`) and a node that is
pointed to its copy (`Progress.point`).
-/

namespace SignalGraph

/-! ## Tables of the same size -/

/-- Entries at the same place are related. -/
structure Arena.Pointwise {e : Entity} {α β : Type} (φ : α → β → Prop) (a : Arena e α)
    (b : Arena e β) : Prop where
  size : b.size = a.size
  get? : ∀ ⦃k x⦄, a.get? k = some x → ∃ y, b.get? k = some y ∧ φ x y

namespace Arena.Pointwise

variable {e : Entity} {α β : Type} {φ ψ : α → β → Prop} {a : Arena e α} {b : Arena e β}

/-- What holds entry by entry holds under every weaker relation. -/
theorem imp (h : a.Pointwise φ b) (himp : ∀ x y, φ x y → ψ x y) : a.Pointwise ψ b where
  size := h.size
  get? k x hx := by
    obtain ⟨y, hy, hφ⟩ := h.get? hx
    exact ⟨y, hy, himp x y hφ⟩

/-- One entry of the second table changes. -/
theorem modify (h : a.Pointwise φ b) {k : Handle e} {f : β → β}
    (hf : ∀ x y, a.get? k = some x → b.get? k = some y → φ x y → φ x (f y)) :
    a.Pointwise φ (b.modify k f) where
  size := (Arena.size_modify b k f).trans h.size
  get? j x hx := by
    obtain ⟨y, hy, hφ⟩ := h.get? hx
    rw [Arena.get?_modify]
    by_cases hj : k = j
    · subst hj
      rw [if_pos rfl, hy]
      exact ⟨f y, rfl, hf x y hx hy hφ⟩
    · rw [if_neg hj]
      exact ⟨y, hy, hφ⟩

end Arena.Pointwise

/-- A renamed table has the renamed entries, one by one. -/
theorem Arena.pointwise_of_rename {e : Entity} {α : Type} {f : α → Option α} {a b : Arena e α}
    (h : a.rename f = some b) : a.Pointwise (fun x y => f x = some y) b where
  size := Arena.size_of_rename h
  get? k x hx := by
    have hget := Arena.get?_of_rename h k
    rw [hx] at hget
    obtain ⟨y, hy, hb⟩ : ∃ y, f x = some y ∧ some y = b.get? k := by simpa using hget
    exact ⟨y, hb.symm, hy⟩

namespace Link

open Program

/-! ## Nodes -/

/-- What becomes of a node in the end: in a graph, a node with arguments names the copy for its key.
All else is as `r` renames it. -/
def Rerouted (made : Specialisations) (now : Program) (graph : Bool) (r : Renaming)
    (keyed : Node → SpecialisationKey → Prop) (n n' : Node) : Prop :=
  if graph ∧ n.args ≠ [] then ∃ key copy, keyed n key ∧ (key, copy) ∈ made ∧
    n' = { n with source := (now.moduleAt copy).name, args := [] }
  else n.rename r = some n'

/-- What may become of a node on the way. -/
def Underway (made : Specialisations) (now : Program) (graph : Bool) (r : Renaming)
    (keyed : Node → SpecialisationKey → Prop) (n n' : Node) : Prop :=
  n.rename r = some n' ∨ Rerouted made now graph r keyed n n'

/-- A renamed node supplies arguments if the node did. -/
theorem args_eq_nil_iff {r : Renaming} {n n' : Node} (h : n.rename r = some n') :
    n'.args = [] ↔ n.args = [] := by
  have hargs := (mapM_eq_some_iff_forall₂.mp (Node.rename_eq_some_iff.mp h).args).length_eq
  rw [← List.length_eq_zero_iff, ← List.length_eq_zero_iff, hargs]

/-- Nodes differ from their renamed form in their arguments only. -/
theorem pointed_eq {r : Renaming} {n n' : Node} (h : n.rename r = some n') (source : String) :
    { n' with source, args := [] } = { n with source, args := [] } := by
  have h := Node.rename_eq_some_iff.mp h
  simp [h.name, h.arraySize, h.clock, h.span]

namespace Underway

variable {made made' : Specialisations} {now next : Program} {graph : Bool} {r r' : Renaming}
  {keyed keyed' : Node → SpecialisationKey → Prop} {n n' : Node}

/-- A node that is underway stays so while more copies are made. -/
theorem mono (h : Underway made now graph r keyed n n') (hle : r.Le r')
    (hkeyed : ∀ x ∈ made, keyed n x.1 → keyed' n x.1) (hmade : made ⊆ made')
    (hnames : ∀ x ∈ made, (next.moduleAt x.2).name = (now.moduleAt x.2).name) :
    Underway made' next graph r' keyed' n n' := by
  rcases h with h | h
  · exact .inl (hle.node h)
  · by_cases hcond : graph ∧ n.args ≠ []
    · rw [Rerouted, if_pos hcond] at h
      obtain ⟨key, copy, hkey, hmem, rfl⟩ := h
      right
      rw [Rerouted, if_pos hcond]
      exact ⟨key, copy, hkeyed _ hmem hkey, hmade hmem, by rw [hnames _ hmem]⟩
    · rw [Rerouted, if_neg hcond] at h
      exact .inl (hle.node h)

/-- A node that still has arguments is pointed to the copy for its key. -/
theorem point (h : Underway made now graph r keyed n n') (hgraph : graph) (hargs : n'.args ≠ [])
    {key : SpecialisationKey} {copy : ModuleId} (hmem : (key, copy) ∈ made)
    (hkeyed : n.rename r = some n' → keyed n key) :
    Underway made now graph r keyed n
      { n' with source := (now.moduleAt copy).name, args := [] } := by
  have hrename : n.rename r = some n' := by
    rcases h with h | h
    · exact h
    · by_cases hcond : graph ∧ n.args ≠ []
      · rw [Rerouted, if_pos hcond] at h
        obtain ⟨_, _, -, -, rfl⟩ := h
        exact absurd rfl hargs
      · rwa [Rerouted, if_neg hcond] at h
  have hcond : graph ∧ n.args ≠ [] :=
    ⟨hgraph, fun hnil => hargs ((args_eq_nil_iff hrename).mpr hnil)⟩
  right
  rw [Rerouted, if_pos hcond, pointed_eq hrename]
  exact ⟨key, copy, hkeyed hrename, hmem, rfl⟩

/-- Once a graph has no arguments left, its nodes are rerouted. -/
theorem rerouted (h : Underway made now graph r keyed n n') (hdone : graph → n'.args = []) :
    Rerouted made now graph r keyed n n' := by
  rcases h with h | h
  · have hcond : ¬ (graph ∧ n.args ≠ []) := by
      rintro ⟨hgraph, hargs⟩
      exact hargs ((args_eq_nil_iff h).mp (hdone hgraph))
    rwa [Rerouted, if_neg hcond]
  · exact h

end Underway

/-! ## Progress -/

/-- The key of a node of an old module. -/
def OldKey (old : Program) (n : Node) (key : SpecialisationKey) : Prop :=
  specialisationKey old n = .ok key

/-- The key of a node of a copy: the one that the node had in the module itself, if that was
rerouted first, or else the one that the node has in the copy. -/
def CopyKey (old now : Program) (r : Renaming) (n : Node) (key : SpecialisationKey) : Prop :=
  specialisationKey old n = .ok key ∨
    ∃ n', n.rename r = some n' ∧ specialisationKey now n' = .ok key

/-- `now` is `old` with one copy for each key, and with other nodes in its modules. -/
structure CopiesAdded (old : Program) (made : Specialisations) (now : Program) : Prop where
  kept : old.KeptUpToNodes now
  size : now.modules.size = old.modules.size + made.length
  handles : made.map (·.2) = (freshHandles old.modules.size made.length).reverse
  keys : (made.map (·.1)).Nodup
  sources : ∀ x ∈ made, x.1.source ∈ old.modules.handles
  /-- A copy is found by its name. -/
  found : ∀ x ∈ made, now.findModule? (now.moduleAt x.2).name = some x.2

/-- Some copies have been made and some nodes rerouted. -/
structure Progress (old : Program) (made : Specialisations) (now : Program) : Prop
    extends CopiesAdded old made now where
  wellFormed : now.WellFormed
  nodes : ∀ id ∈ old.modules.handles, (old.moduleAt id).nodes.Pointwise
    (Underway made now (old.moduleAt id).isGraph .identity (OldKey old)) (now.moduleAt id).nodes
  copies : ∀ x ∈ made, ∃ r, SpecialisedCopy old x.1 x.2 r now ∧
    (old.moduleAt x.1.source).nodes.Pointwise
      (Underway made now (old.moduleAt x.1.source).isGraph r (CopyKey old now r))
      (now.moduleAt x.2).nodes

namespace CopiesAdded

variable {old now : Program} {made : Specialisations} (h : CopiesAdded old made now)

include h

/-- The copies that were made are there. -/
theorem mem_handles {x : SpecialisationKey × ModuleId} (hx : x ∈ made) :
    x.2 ∈ now.modules.handles := by
  have hmem : x.2 ∈ (freshHandles old.modules.size made.length).reverse := by
    rw [← h.handles]
    exact List.mem_map_of_mem hx
  rw [List.mem_reverse, mem_freshHandles_iff] at hmem
  rw [Arena.mem_handles_iff, h.size]
  exact hmem.2

/-- Every module that was not there before is a copy. -/
theorem exists_of_not_mem {id : ModuleId} (hid : id ∈ now.modules.handles)
    (hnew : id ∉ old.modules.handles) : ∃ x ∈ made, x.2 = id := by
  rw [Arena.mem_handles_iff, h.size] at hid
  rw [Arena.mem_handles_iff] at hnew
  have hmem : id ∈ made.map (·.2) := by
    rw [h.handles, List.mem_reverse, mem_freshHandles_iff]
    exact ⟨Nat.not_lt.mp hnew, hid⟩
  exact List.mem_map.mp hmem

end CopiesAdded

/-- At first no copies are made, and all nodes are as they were. -/
theorem Progress.start {p : Program} (h : p.WellFormed) : Progress p [] p where
  kept := .refl p
  size := rfl
  handles := rfl
  keys := List.nodup_nil
  sources _ hx := by cases hx
  found _ hx := by cases hx
  wellFormed := h
  nodes _ _ := ⟨rfl, fun _ n hn => ⟨n, hn, .inl (Node.rename_keeps n)⟩⟩
  copies _ hx := by cases hx

/-- The arguments of a node are constants of the program. -/
theorem args_sound {p : Program} (h : p.WellFormed) {id : ModuleId} (hid : id ∈ p.modules.handles)
    {k : NodeId} {n : Node} (hn : (p.moduleAt id).nodes.get? k = some n) :
    ∀ c ∈ n.args, p.sound c = some c := by
  intro c hc
  have hself := eq_some_of_mapM_self (Arena.rename_eq_some_iff.mp (h.moduleAt hid).nodes)
    (Arena.mem_toList_iff.mpr ⟨k, hn⟩)
  exact eq_some_of_mapM_self (Node.rename_eq_some_iff.mp hself).args hc

/-- A constant in use is there. -/
theorem lt_size_of_sound {p : Program} {c : ConstantId} (h : p.sound c = some c) :
    c.idx < p.constants.size := by
  obtain ⟨-, v, -, hv, -⟩ := sound_eq_some_iff.mp h
  exact Arena.lt_size_of_get? hv

namespace Progress

variable {old now next : Program} {made made' : Specialisations}

/-! ## What later programs keep -/

section

variable (h : Progress old made now) (hkept : now.KeptUpToNodes next)

include h hkept

/-- The copies keep their names. -/
theorem name_later {x : SpecialisationKey × ModuleId} (hx : x ∈ made) :
    (next.moduleAt x.2).name = (now.moduleAt x.2).name :=
  hkept.moduleAt_name (h.mem_handles hx)

/-- The copies are found by their names later on. -/
theorem found_later {x : SpecialisationKey × ModuleId} (hx : x ∈ made) :
    next.findModule? (next.moduleAt x.2).name = some x.2 := by
  rw [h.name_later hkept hx, hkept.findModule?_iff (h.mem_handles hx)]
  exact h.found x hx

/-- A copy is made for the same key later on. -/
theorem copyKey_later {x y : SpecialisationKey × ModuleId} (hy : y ∈ made) {r : Renaming}
    (hc : SpecialisedCopy old x.1 x.2 r now) {n : Node} (hkey : CopyKey old now r n y.1) :
    CopyKey old next (r.interning old next) n y.1 := by
  rcases hkey with hkey | ⟨n', hn', hkey⟩
  · exact .inl hkey
  · refine .inr ⟨n', (hc.interning_le hkept).node hn', ?_⟩
    have hsource := h.kept.mem_handles (h.sources y hy)
    refine (specialisationKey_congr h.wellFormed hkept hsource fun c' hc' => ?_).mpr hkey
    obtain ⟨c, -, hcc'⟩ := exists_mem_of_mapM (Node.rename_eq_some_iff.mp hn').args hc'
    rw [hc.names.onConstant] at hcc'
    simp only [constantTo, Option.bind_eq_bind, Option.bind_eq_some_iff] at hcc'
    obtain ⟨_, -, _, -, hfind⟩ := hcc'
    exact Arena.lt_size_of_get? (Interner.get?_of_find? hfind)

/-- The nodes of old modules stay underway. -/
theorem nodes_later (hmade : made ⊆ made') {id : ModuleId} (hid : id ∈ old.modules.handles) :
    (old.moduleAt id).nodes.Pointwise
      (Underway made' next (old.moduleAt id).isGraph .identity (OldKey old))
      (now.moduleAt id).nodes :=
  (h.nodes id hid).imp fun _ _ hn => hn.mono ⟨fun _ _ hx => hx, fun _ _ hx => hx,
    fun _ _ hx => hx, fun _ _ hx => hx, fun _ _ hx => hx, fun _ _ hx => hx⟩
    (fun _ _ hkey => hkey) hmade fun _ hx => h.name_later hkept hx

/-- The nodes of copies stay underway. -/
theorem copies_later (hmade : made ⊆ made') {x : SpecialisationKey × ModuleId} (hx : x ∈ made) :
    ∃ r, SpecialisedCopy old x.1 x.2 r next ∧ (old.moduleAt x.1.source).nodes.Pointwise
      (Underway made' next (old.moduleAt x.1.source).isGraph r (CopyKey old next r))
      (now.moduleAt x.2).nodes := by
  obtain ⟨r, hc, hnodes⟩ := h.copies x hx
  refine ⟨r.interning old next, hc.later hkept (h.mem_handles hx), ?_⟩
  exact hnodes.imp fun n n' hn => hn.mono (hc.interning_le hkept)
    (fun y hy => h.copyKey_later hkept hy hc) hmade fun y hy => h.name_later hkept hy

end

/-! ## A new copy -/

/-- One more fresh handle. -/
theorem freshHandles_succ {e : Entity} (start count : Nat) :
    (freshHandles start (count + 1) : List (Handle e)) =
      freshHandles start count ++ [⟨start + count⟩] := by
  simp [freshHandles, List.range_succ]

section

variable {key : SpecialisationKey} {r : Renaming} (hmade : CopyMade now key r next)

include hmade

/-- A new copy leaves the other modules as they are. -/
theorem moduleAt_of_copyMade {id : ModuleId} (hid : id ∈ now.modules.handles) :
    next.moduleAt id = now.moduleAt id :=
  Arena.get_eq_of_get? (Arena.get?_of_isPrefix hmade.kept.modules
    (Arena.get?_eq_some_get (Arena.mem_handles_iff.mp hid)))

/-- A new copy is found by its name, which no other module has. -/
theorem findModule?_of_copyMade :
    next.findModule? (next.moduleAt ⟨now.modules.size⟩).name = some ⟨now.modules.size⟩ := by
  have hlt : now.modules.size < next.modules.size := by
    rw [hmade.size]
    exact Nat.lt_succ_self _
  refine Arena.find?_eq_some_iff.mpr
    ⟨_, Arena.get?_eq_some_get (h := ⟨now.modules.size⟩) hlt, by simp [moduleAt], ?_⟩
  intro k m hk hm
  have hbefore := Arena.get?_eq_some_get hk
  cases (Arena.get?_of_isPrefix hmade.kept.modules hbefore).symm.trans hm
  exact Arena.find?_eq_none_iff.mp hmade.fresh k _ hbefore

/-- The nodes of a new copy are those of the module, as they are by now. -/
theorem copy_nodes (h : Progress old made now) (hold : old.WellFormed)
    (hsource : key.source ∈ old.modules.handles) (hmade' : made ⊆ made') :
    (old.moduleAt key.source).nodes.Pointwise
      (Underway made' next (old.moduleAt key.source).isGraph (r.interning old next)
        (CopyKey old next (r.interning old next)))
      (next.moduleAt ⟨now.modules.size⟩).nodes := by
  have hkept := hmade.kept.keptUpToNodes hmade.tables
  -- the copy holds the renamed nodes as of now, which were themselves as before or pointed to a
  -- copy
  have hnodes := Arena.pointwise_of_rename hmade.nodes
  have hbefore := h.nodes_later hkept hmade' hsource
  have hsquare := interning_square (q := next) old.inRange_le_identity rfl
    hmade.copy.names.onConstant h.kept.tables
  refine ⟨hnodes.size.trans hbefore.size, fun k n hn => ?_⟩
  obtain ⟨n₁, hn₁, hunder⟩ := hbefore.get? hn
  obtain ⟨n₂, hn₂, hrename⟩ := hnodes.get? hn₁
  refine ⟨n₂, hn₂, ?_⟩
  -- a node that still was as before is renamed with its arguments
  have hplain : n.rename .identity = some n₁ →
      Underway made' next (old.moduleAt key.source).isGraph (r.interning old next)
        (CopyKey old next (r.interning old next)) n n₂ := by
    intro hsame
    cases (Node.rename_keeps n).symm.trans hsame
    have hself := eq_some_of_mapM_self
      (Arena.rename_eq_some_iff.mp (hold.moduleAt hsource).nodes) (Arena.mem_toList_iff.mpr ⟨k, hn⟩)
    exact .inl (Node.rename_commutes hsquare hself hrename (Node.rename_keeps n₂))
  rcases hunder with hsame | hrerouted
  · exact hplain hsame
  -- a pointed node has no arguments left, so renaming leaves it as it is
  · by_cases hcond : (old.moduleAt key.source).isGraph ∧ n.args ≠ []
    · rw [Rerouted, if_pos hcond] at hrerouted
      obtain ⟨key', copy', hkey', hmem, rfl⟩ := hrerouted
      right
      rw [Rerouted, if_pos hcond]
      cases (Node.rename_of_args_nil rfl).symm.trans hrename
      exact ⟨key', copy', .inl hkey', hmem, rfl⟩
    · rw [Rerouted, if_neg hcond] at hrerouted
      exact hplain hrerouted

end

/-- A new copy is progress: its key is new, and its nodes are those of its source. -/
theorem copy (h : Progress old made now) (hold : old.WellFormed) {key : SpecialisationKey}
    {r : Renaming} (hmade : CopyMade now key r next) (hsource : key.source ∈ old.modules.handles)
    (hnew : key ∉ made.map (·.1)) :
    Progress old ((key, ⟨now.modules.size⟩) :: made) next := by
  have hkept := hmade.kept.keptUpToNodes hmade.tables
  have hsub : made ⊆ (key, ⟨now.modules.size⟩) :: made := List.subset_cons_self _ _
  refine {
    kept := h.kept.trans hkept
    size := ?_
    handles := ?_
    keys := List.nodup_cons.mpr ⟨hnew, h.keys⟩
    sources := fun x hx => ?_
    found := fun x hx => ?_
    wellFormed := hmade.wellFormed
    nodes := fun id hid => ?_
    copies := fun x hx => ?_ }
  · rw [hmade.size, h.size, List.length_cons, Nat.add_assoc]
  · rw [List.map_cons, h.handles, List.length_cons, freshHandles_succ, List.reverse_append, h.size]
    rfl
  · rcases List.mem_cons.mp hx with rfl | hx
    · exact hsource
    · exact h.sources x hx
  · rcases List.mem_cons.mp hx with rfl | hx
    · exact findModule?_of_copyMade hmade
    · exact h.found_later hkept hx
  · rw [moduleAt_of_copyMade hmade (h.kept.mem_handles hid)]
    exact h.nodes_later hkept hsub hid
  · rcases List.mem_cons.mp hx with rfl | hx
    · exact ⟨_, hmade.copy.of_kept h.kept hold hsource, copy_nodes hmade h hold hsource hsub⟩
    · rw [moduleAt_of_copyMade hmade (h.mem_handles hx)]
      exact h.copies_later hkept hsub hx

/-! ## A node that is pointed to its copy -/

/-- Points a node of a graph to a module and takes its arguments away. -/
def pointNode (p : Program) (graph : ModuleId) (k : NodeId) (source : String) : Program :=
  p.modifyModule graph fun m =>
    { m with nodes := m.nodes.modify k fun n => { n with source, args := [] } }

section

variable (p : Program) (graph : ModuleId) (k : NodeId) (source : String)

/-- Turning a node to a copy changes no other module. -/
theorem moduleAt_pointNode_of_ne {id : ModuleId} (hid : id ≠ graph) :
    (pointNode p graph k source).moduleAt id = p.moduleAt id := by
  simp only [pointNode, modifyModule, moduleAt, Arena.get, Arena.get?_modify,
    if_neg (Ne.symm hid)]

/-- Turning a node to a copy changes that node only. -/
theorem moduleAt_pointNode (hgraph : graph ∈ p.modules.handles) :
    (pointNode p graph k source).moduleAt graph = { p.moduleAt graph with
      nodes := (p.moduleAt graph).nodes.modify k fun n => { n with source, args := [] } } := by
  refine Arena.get_eq_of_get? ?_
  simp only [pointNode, modifyModule, Arena.get?_modify_self,
    Arena.get?_eq_some_get (Arena.mem_handles_iff.mp hgraph)]
  rfl

/-- Turning a node to a copy changes nothing but nodes. -/
theorem keptUpToNodes_pointNode : p.KeptUpToNodes (pointNode p graph k source) where
  modules id m hm := by
    simp only [pointNode, modifyModule, Arena.get?_modify, hm]
    by_cases hid : graph = id
    · rw [if_pos hid]
      exact ⟨_, rfl⟩
    · rw [if_neg hid]
      exact ⟨_, rfl⟩
  structs := List.prefix_refl _
  functions := List.prefix_refl _
  vars := List.prefix_refl _
  tables := (TablesGrow.refl p).congr rfl rfl

/-- Turning a node to a copy changes one node. -/
theorem reworked_pointNode (hgraph : graph ∈ p.modules.handles) :
    p.Reworked (pointNode p graph k source) where
  structs := rfl
  functions := rfl
  tables := (TablesGrow.refl p).congr rfl rfl
  moduleCount := Arena.size_modify _ _ _
  modules id _ := by
    by_cases hid : id = graph
    · rw [hid, moduleAt_pointNode p graph k source hgraph]
      refine { Module.Reworked.refl (p.moduleAt graph) with
        nodeCount := Arena.size_modify _ _ _
        nodes := fun n hn => ?_ }
      obtain ⟨j, hj⟩ := Arena.mem_toList_iff.mp hn
      simp only [Arena.get?_modify] at hj
      by_cases hjk : k = j
      · rw [if_pos hjk] at hj
        obtain ⟨n₀, -, rfl⟩ := Option.map_eq_some_iff.mp hj
        exact .inl rfl
      · rw [if_neg hjk] at hj
        exact .inr (Arena.mem_toList_iff.mpr ⟨j, hj⟩)
    · rw [moduleAt_pointNode_of_ne p graph k source hid]
      exact .refl _
  variableCount := rfl
  vars _ hv := .inl hv

/-- Turning a node to a copy keeps the names of modules. -/
theorem names_pointNode : (pointNode p graph k source).modules.toList.map (·.name) =
    p.modules.toList.map (·.name) := by
  refine Arena.map_toList_modify ?_ p.modules graph
  exact fun _ => rfl

end

section

variable {graph : ModuleId} {k : NodeId} {n : Node} {key : SpecialisationKey} {copy : ModuleId}

/-- Points a node with arguments to the copy for its key. -/
theorem point (h : Progress old made now) (hold : old.WellFormed)
    (hgraph : graph ∈ now.modules.handles) (hkind : (now.moduleAt graph).isGraph)
    (hn : (now.moduleAt graph).nodes.get? k = some n) (hargs : n.args ≠ [])
    (hkey : specialisationKey now n = .ok key) (hmem : (key, copy) ∈ made) :
    Progress old made (pointNode now graph k (now.moduleAt copy).name) := by
  have hkept := keptUpToNodes_pointNode now graph k (now.moduleAt copy).name
  have hself := moduleAt_pointNode now graph k (now.moduleAt copy).name hgraph
  have hother : ∀ id, id ≠ graph →
      (pointNode now graph k (now.moduleAt copy).name).moduleAt id = now.moduleAt id :=
    fun _ hid => moduleAt_pointNode_of_ne now graph k _ hid
  have hname := h.name_later hkept hmem
  have hsource := h.sources _ hmem
  have hgraphs : ∀ {m : Module} {nodes : Arena .node Node},
      now.moduleAt graph = { m with nodes } → m.isGraph := by
    intro m nodes hm
    rw [hm] at hkind
    exact hkind
  refine {
    kept := h.kept.trans hkept
    size := (Arena.size_modify _ _ _).trans h.size
    handles := h.handles
    keys := h.keys
    sources := h.sources
    found := fun x hx => h.found_later hkept hx
    wellFormed := h.wellFormed.of_reworked (reworked_pointNode now graph k _ hgraph)
    nodes := fun id hid => ?_
    copies := fun x hx => ?_ }
  · have hnodes := h.nodes_later hkept (List.Subset.refl made) hid
    by_cases hid' : id = graph
    · subst hid'
      obtain ⟨nodes, hm⟩ := h.kept.moduleAt hid
      rw [hself]
      refine hnodes.modify fun x y hx hy hunder => ?_
      cases hn.symm.trans hy
      have hpoint := hunder.point (hgraphs hm) hargs hmem fun hsame => ?_
      · rwa [hname] at hpoint
      · -- the node is as it was, so its key can be read in the old program
        cases (Node.rename_keeps x).symm.trans hsame
        refine (specialisationKey_congr hold h.kept hsource fun c hc => ?_).mp hkey
        exact lt_size_of_sound (args_sound hold hid hx c hc)
    · rw [hother id hid']
      exact hnodes
  · obtain ⟨r, hc, hnodes⟩ := h.copies_later hkept (List.Subset.refl made) hx
    refine ⟨r, hc, ?_⟩
    by_cases hx' : x.2 = graph
    · have hkind' : (old.moduleAt x.1.source).isGraph := by
        have hsame := (Module.rename_eq_some_iff.mp hc.module).kind
        rw [hx', hself] at hsame
        simp only [Module.isGraph] at hkind ⊢
        rw [← hsame]
        exact hkind
      rw [hx'] at hnodes ⊢
      rw [hself]
      refine hnodes.modify fun y z hy hz hunder => ?_
      cases hn.symm.trans hz
      have hpoint := hunder.point hkind' hargs hmem fun hrename => .inr ⟨n, hrename, ?_⟩
      · rwa [hname] at hpoint
      · refine (specialisationKey_congr h.wellFormed hkept (h.kept.mem_handles hsource)
          fun c hc => ?_).mpr hkey
        exact lt_size_of_sound (args_sound h.wellFormed hgraph hn c hc)
    · rw [hother x.2 hx']
      exact hnodes

end

end Progress

end Link

end SignalGraph

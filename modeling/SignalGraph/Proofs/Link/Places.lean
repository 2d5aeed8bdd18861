import SignalGraph.Proofs.Link.Failures
import SignalGraph.Proofs.Link.Intactness

/-!
# SignalGraph.Proofs.Link.Places

Where specialising reports its faults.  Copies stand where their originals stand, so specialising
keeps all places of an intact program good, and what it reports it reports at the place of a node
(`specialiseInstances_blames`).
-/

namespace SignalGraph

variable {good : Span → Prop}

/-! ## Copies -/

namespace Arena

variable {e : Entity} {α : Type} {P : α → Prop} {a b : Arena e α}

/-- Renamed entries stand where the entries do. -/
theorem All.rename (h : a.All P) {f : α → Option α} (hf : ∀ x y, f x = some y → P x → P y)
    (hb : a.rename f = some b) : b.All P := by
  intro y hy
  have hall := mapM_eq_some_iff_forall₂.mp (rename_eq_some_iff.mp hb)
  obtain ⟨x, hx, hxy⟩ := exists_of_forall₂ hall.flip hy
  exact hf x y hxy (h x hx)

/-- Old and new entries stand at good places. -/
theorem All.appended {β : Type} (h : a.All P) {φ : β → α → Prop} {l : List β}
    (hb : Appended φ a l b) (hφ : ∀ x y, φ x y → P y) : b.All P := by
  obtain ⟨new, hnew, hall⟩ := hb
  intro y hy
  rw [hnew, List.mem_append] at hy
  rcases hy with hy | hy
  · exact h y hy
  · obtain ⟨x, -, hxy⟩ := exists_of_forall₂ hall.flip hy
    exact hφ x y hxy

end Arena

/-- A renamed module stands where the module does. -/
theorem Module.Placed.rename {r : Renaming} {m m' : Module} (h : m.Placed good)
    (hm : m.Renames r m') : m'.Placed good where
  span := hm.span ▸ h.span
  endpoints := h.endpoints.rename
    (fun _ _ he hgood => (Endpoint.rename_eq_some_iff.mp he).span ▸ hgood) hm.endpoints
  nodes := h.nodes.rename
    (fun _ _ hn hgood => (Node.rename_eq_some_iff.mp hn).span ▸ hgood) hm.nodes
  connections := hm.connections ▸ h.connections

/-- A renamed function stands where the function does. -/
theorem Function.Placed.rename {r : Renaming} {f f' : Function} (h : f.Placed good)
    (hf : f.Renames r f') : f'.Placed good where
  span := hf.span ▸ h.span
  blocks :=
    h.blocks.rename (fun _ _ hb hgood => (Block.rename_eq_some_iff.mp hb).span ▸ hgood) hf.blocks

/-- Labels stand nowhere. -/
theorem Function.Placed.labelled {f : Function} (h : f.Placed good) : f.labelled.Placed good where
  span := h.span
  blocks b hb := by
    rw [Function.labelled, Arena.toList_ofList] at hb
    obtain ⟨b', hb', rfl⟩ := List.mem_map.mp hb
    exact h.blocks b' hb'

namespace Link

open Program

variable (hdummy : good .dummy)

include hdummy

/-- A module that is copied within its program. -/
theorem placed_of_copied {p q : Program} {id : ModuleId} {name : String} (h : p.Placed good)
    (hq : (p.specialisation id).Copied (some name) q) : q.Placed good where
  modules := h.modules.appended hq.modules fun m _ hm =>
    have hsource : (CopyPlan.retitled (some name) (p.moduleAt m)).Placed good :=
      let hm := h.moduleAt hdummy m
      ⟨hm.span, hm.endpoints, hm.nodes, hm.connections⟩
    hsource.rename (Module.rename_eq_some_iff.mp hm)
  functions := h.functions.appended hq.functions fun f _ hf =>
    (h.functionAt hdummy f).labelled.rename (Function.rename_eq_some_iff.mp hf)

/-- A specialised copy stands where its source does. -/
theorem placed_specialisedCopy {p : Program} (hp : p.WellFormed) (h : p.Placed good)
    {key : SpecialisationKey} (hsource : key.source ∈ p.modules.handles) :
    ((specialisedCopy key).apply p).2.Placed good := by
  obtain ⟨p', hcopy, hc⟩ := hp.specialiseModule_copied hsource
    (specialisedName p (p.moduleAt key.source).name)
  have h' := placed_of_copied hdummy h hc
  rw [specialisedCopy_eq_ok.mpr ⟨p', hcopy, apply_bindParameters _ key.values p'⟩]
  have hbinds := bindsAll ((p'.moduleAt ⟨p.modules.size⟩).parameters.zip key.values) p'
  have hbound := h'.of_eq hbinds.modules hbinds.functions
  exact hbound.editModule (fun _ => rfl) (fun _ => rfl) (fun _ => rfl) fun _ => rfl

/-- Specialising keeps everything at good places. -/
theorem SpecialisingStep.placed {p q : Program} (h : SpecialisingStep p q) (hp : p.Intact)
    (hplaced : p.Placed good) : q.Placed good := by
  cases h with
  | @copy graph k key hkey =>
      have hargs := node_args_sound hp.wellFormed graph k
      exact placed_specialisedCopy hdummy hp.wellFormed hplaced
        (keySound_of_specialisationKey hargs hkey).source
  | point graph k source =>
      exact hplaced.modifyModule fun _ hm => hm.modifyNode fun _ => rfl

/-! ## Faults -/

omit hdummy in
/-- An argument that does not fit is reported where its node stands. -/
theorem specialisationKey_failsAt (p : Program) {n : Node} (hn : good n.span) :
    FailsAt good (specialisationKey p n) := by
  unfold specialisationKey
  split
  · exact failsAt_error hn
  · refine .ite (fun _ => failsAt_error hn) fun _ => ?_
    refine .bind (failsAt_mapM fun x _ => ?_) fun values _ => failsAt_ok _
    exact .ite (fun _ => failsAt_ok _) fun _ => failsAt_error hn

variable {settings : Settings}

/-- A copy that cannot be made is reported where its node stands. -/
theorem copyFor_failsAt {p : Program} (hp : p.Intact) (h : p.Placed good) (graph : ModuleId)
    (k : NodeId) (made : Specialisations) :
    FailsAt good ((copyFor settings ((p.moduleAt graph).nodes.get k) made).apply p).1 := by
  have hn : good ((p.moduleAt graph).nodes.get k).span :=
    (h.moduleAt hdummy graph).nodes.get hdummy k
  unfold copyFor
  rw [Edit.apply_program_bind]
  cases hkey : specialisationKey p ((p.moduleAt graph).nodes.get k) with
  | error d => exact failsAt_error (specialisationKey_failsAt p hn d hkey)
  | ok key =>
      have hsound := keySound_of_specialisationKey (node_args_sound hp.wellFormed graph k) hkey
      obtain ⟨r, q, hrun, -⟩ := specialisedCopy_makes hp.wellFormed hsound.source hsound.length
        hsound.values
      dsimp only
      split
      · exact failsAt_ok _
      · split
        · exact failsAt_error hn
        · rw [Edit.apply_bind, hrun]
          exact failsAt_ok _

/-- Intact programs whose places are all good. -/
def Sited (good : Span → Prop) (p : Program) : Prop := p.Intact ∧ p.Placed good

/-- A step of specialising keeps an intact program at good places. -/
theorem SpecialisingStep.sited {p q : Program} (h : SpecialisingStep p q) (hp : Sited good p) :
    Sited good q := ⟨h.intact hp.1, h.placed hdummy hp.1 hp.2⟩

/-- Specialising the nodes of a graph is blamed on one of them. -/
theorem specialiseNodes_blames (graph : ModuleId) (ids : List NodeId) (made : Specialisations) :
    Edit.Upholds (Sited good) (good ·.span) (specialiseNodes settings graph ids made) := by
  induction ids generalizing made with
  | nil => exact Edit.upholds_pure _
  | cons k ids ih =>
      unfold specialiseNodes
      refine .program_bind_bind (fun p hp => ⟨?_, ?_⟩) fun x => .program_bind fun p _ => ?_
      · exact (copyFor_moves graph k made).keeps (fun _ _ hstep h => hstep.sited hdummy h) hp
      · exact copyFor_failsAt hdummy hp.1 hp.2 graph k made
      · refine .bind (Edit.upholds_modifyModule fun q hq => ?_) fun _ => ih x.2
        exact (SpecialisingStep.point graph k (p.moduleAt x.1).name).sited hdummy hq

/-- Specialising all modules is blamed on a node. -/
theorem specialiseFrom_blames (fuel : Nat) (id : ModuleId) (made : Specialisations) :
    Edit.Upholds (Sited good) (good ·.span) (specialiseFrom settings fuel id made) := by
  induction fuel generalizing id made with
  | zero => exact Edit.upholds_pure _
  | succ fuel ih =>
      unfold specialiseFrom
      refine .program_bind fun p _ => ?_
      split
      · exact Edit.upholds_pure _
      · exact (specialiseNodes_blames hdummy _ _ _).bind fun made => ih _ made

/-- Specialising keeps an intact program intact and its places good, and what it reports it reports
at a good place. -/
theorem specialiseInstances_blames (settings : Settings) :
    Edit.Upholds (Sited good) (good ·.span) (specialiseInstances settings) :=
  .program_bind fun _ _ => specialiseFrom_blames hdummy _ _ _

end Link

end SignalGraph

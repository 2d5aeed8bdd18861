import SignalGraph.Proofs.Link.Intactness
import SignalGraph.Proofs.Program.Tidy

/-!
# SignalGraph.Proofs.Link.Tidiness

Linking and specialising keep programs tidy, whether or not they succeed.  Linking changes endpoints
and connections only (`ModuleChange.rest`); specialising makes copies, which list their structs and
functions in order, and points nodes to them.
-/

namespace SignalGraph.Link

open Program

variable {p q : Program}

/-! ## Linking -/

/-- No step of linking reorders anything. -/
theorem Change.keepsOrder (h : Change p q) : p.KeepsOrder q := by
  obtain ⟨id, f, hf, rfl⟩ := h
  refine .modifyModule p id (fun m => ?_) fun m => ?_
  · exact (congrArg Module.structs (hf.rest m) :)
  · exact (congrArg Module.functions (hf.rest m) :)

/-- Linking keeps a program tidy in every outcome. -/
theorem tidy_linkEndpoints (hp : p.Tidy) : (linkEndpoints.apply p).2.Tidy :=
  (linkEndpoints_moves p).keeps (fun _ _ h ht => ht.keep h.keepsOrder) hp

/-! ## Specialising -/

/-- Binding parameters reorders nothing. -/
theorem keepsOrder_bindAll (l : List (VariableId × Value)) (p : Program) :
    p.KeepsOrder (bindAll l p) := by
  induction l generalizing p with
  | nil => exact .refl p
  | cons x l ih =>
      have hfirst := KeepsOrder.intern p x.2
      exact (hfirst.trans (.modifyVariable _ x.1 _)).trans (ih _)

/-- A specialised copy is tidy. -/
theorem tidy_specialisedCopy (hp : p.WellFormed) (ht : p.Tidy) {key : SpecialisationKey}
    (hsource : key.source ∈ p.modules.handles) : ((specialisedCopy key).apply p).2.Tidy := by
  obtain ⟨p', hcopy, hc⟩ := hp.specialiseModule_copied hsource
    (specialisedName p (p.moduleAt key.source).name)
  have ht' : p'.Tidy :=
    Tidy.copied (P := p.specialisation key.source) ht (hp.specialisation_ready hsource) hc
  rw [specialisedCopy_eq_ok.mpr ⟨p', hcopy, apply_bindParameters _ key.values p'⟩]
  have hbound := keepsOrder_bindAll ((p'.moduleAt ⟨p.modules.size⟩).parameters.zip key.values) p'
  exact ht'.keep (hbound.trans (.modifyModule _ _ (fun _ => rfl) fun _ => rfl))

/-- No step of specialising makes a program untidy. -/
theorem SpecialisingStep.tidy (h : SpecialisingStep p q) (hp : p.Intact) (ht : p.Tidy) :
    q.Tidy := by
  cases h with
  | @copy graph k key hkey =>
      have hargs := node_args_sound hp.wellFormed graph k
      exact tidy_specialisedCopy hp.wellFormed ht (keySound_of_specialisationKey hargs hkey).source
  | point graph k source => exact ht.keep (.modifyModule p graph (fun _ => rfl) fun _ => rfl)

/-- Specialising keeps an intact program tidy in every outcome. -/
theorem tidy_specialiseInstances (hp : p.Intact) (ht : p.Tidy) (settings : Settings) :
    ((specialiseInstances settings).apply p).2.Tidy := by
  have hboth := (specialiseInstances_moves settings p).keeps (K := fun p => p.Intact ∧ p.Tidy)
    (fun _ _ hstep h => ⟨hstep.intact h.1, hstep.tidy h.1 h.2⟩) ⟨hp, ht⟩
  exact hboth.2

end SignalGraph.Link

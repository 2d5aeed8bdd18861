import SignalGraph.Proofs.Program.CopySteps

/-!
# SignalGraph.Proofs.Program.CopyChecks

Copying into another program looks at every reference.  If it succeeds, no listed module refers to a
struct, function or variable that none of the listed modules owns (`copyModules_inside`).

A reference is only replaced by a copy that is there, and copies are only made of what the listed
modules own (`Bounded`), so every step that succeeds has met no foreign reference.
-/

namespace SignalGraph

open Copy CopySource

/-! ## Inside -/

namespace Program

/-- None of the references, nor what their constants mention, is foreign. -/
def Inside (p : Program) (ids : List ModuleId) (l : List Reference) : Prop :=
  ∀ r ∈ l.flatMap p.expand, ¬ p.Foreign ids r

variable {p : Program} {ids : List ModuleId} {l : List Reference} {r : Reference}

/-- References are inside if each of them is. -/
theorem inside_iff : p.Inside ids l ↔ ∀ r ∈ l, p.Inside ids [r] := by
  simp only [Inside, List.forall_mem_flatMap, List.forall_mem_singleton]

/-- A reference that stands for itself only is inside unless it is foreign. -/
theorem inside_of_not_foreign (h : ¬ p.Foreign ids r) (hr : p.expand r = [r]) :
    p.Inside ids [r] := by
  simpa [Inside, hr] using h

/-- What is inside is not foreign. -/
theorem Inside.not_foreign (h : p.Inside ids l) (hr : r ∈ l) : ¬ p.Foreign ids r := by
  refine h r (List.mem_flatMap.mpr ⟨r, hr, ?_⟩)
  cases r <;> simp [expand]

/-- A constant is inside if its value is. -/
theorem inside_const {c : ConstantId} (h : ∀ r ∈ (p.constantAt c).mentions, ¬ p.Foreign ids r) :
    p.Inside ids [.const c] := by
  have hc : ¬ p.Foreign ids (.const c) := id
  simpa [Inside, expand, hc] using h

/-- What one of the modules owns is inside. -/
theorem inside_of_owns {id : ModuleId} (hid : id ∈ ids) (hown : p.Owns id r) :
    p.Inside ids [r] := by
  cases r with
  | record s => exact inside_of_not_foreign (fun h => h id hid hown) rfl
  | func f => exact inside_of_not_foreign (fun h => h id hid hown) rfl
  | var v => exact inside_of_not_foreign (fun h => h id hid hown) rfl
  | mod _ | const _ | text _ | block _ => cases hown

end Program

open Program

/-! ## References -/

/-- Copies have only been made of what the listed modules own. -/
structure Bounded (p : Program) (ids : List ModuleId) (s : CopyState) : Prop where
  structs : ∀ x ∈ s.copies.structs, ∃ id ∈ ids, x.1 ∈ (p.moduleAt id).structs
  functions : ∀ x ∈ s.copies.functions, ∃ id ∈ ids, x.1 ∈ (p.moduleAt id).functions
  vars : ∀ x ∈ s.copies.vars, ∃ id ∈ ids, x.1 ∈ p.ownVars id

variable {p : Program} {ids : List ModuleId}

/-- A look-up that succeeds has found a copy that was made, since nothing outside is kept. -/
theorem ensures_copyOf {e : Entity} {what : String} {name : Handle e → String}
    {copies : Copies → List (Handle e × Handle e)} {id : Handle e} {Q : Prop}
    (hQ : ∀ s, Bounded p ids s → ∀ x ∈ copies s.copies, x.1 = id → Q) :
    Ensures (Bounded p ids) (copyOf ⟨p, false⟩ what name copies id) fun _ => Q := by
  intro s a s' hs h
  unfold copyOf at h
  rw [apply_get_bind] at h
  cases hlookup : (copies s.copies).lookup id with
  | none =>
      rw [hlookup] at h
      cases h
  | some new =>
      rw [hlookup] at h
      cases h
      obtain ⟨l₁, l₂, heq, -⟩ := List.lookup_eq_some_iff.mp hlookup
      exact ⟨hs, hQ _ hs (id, a) (by simp [heq]) rfl⟩

/-- A struct whose copy is found is inside. -/
theorem ensures_structOf (s : StructId) :
    Ensures (Bounded p ids) (structOf ⟨p, false⟩ s) fun _ => p.Inside ids [.record s] :=
  ensures_copyOf fun _ hs x hx hid => by
    obtain ⟨m, hm, hmem⟩ := hs.structs x hx
    exact inside_of_owns (r := .record s) hm (hid ▸ hmem)

/-- Copying where no copies of others are made meets nothing foreign. -/
theorem bounded_laws (p : Program) (ids : List ModuleId) :
    CopyLaws ⟨p, false⟩ ids (Bounded p ids) (fun r => p.Inside ids [r]) fun _ => True where
  structOf := ensures_structOf
  functionOf f := ensures_copyOf fun _ hs x hx hid => by
    obtain ⟨m, hm, hmem⟩ := hs.functions x hx
    exact inside_of_owns (r := .func f) hm (hid ▸ hmem)
  variableOf v := ensures_copyOf fun _ hs x hx hid => by
    obtain ⟨m, hm, hmem⟩ := hs.vars x hx
    exact inside_of_owns (r := .var v) hm (hid ▸ hmem)
  moduleOf _ := ensures_copyOf fun _ _ _ _ _ _ => trivial
  constantOf := ensures_constantOf ensures_structOf (fun _ _ _ hs => { hs with }) fun _ =>
    inside_of_not_foreign id rfl
  met_const _ h := inside_const fun r hr => (h r hr).not_foreign List.mem_cons_self
  met_block _ := inside_of_not_foreign id rfl
  met_mod _ := inside_of_not_foreign id rfl
  met_own _ hid _ hown := inside_of_owns hid hown
  dest _ _ _ _ _ _ hs := { hs with }
  target _ _ _ _ _ hs := { hs with }
  listed _ _ _ _ hs := { hs with }
  declareStruct _ id hid _ hx _ _ _ hs := { hs with
    structs := List.forall_mem_cons.mpr ⟨⟨id, hid, hx⟩, hs.structs⟩ }
  functions _ id hid _ hx _ hs := { hs with
    functions := List.forall_mem_cons.mpr ⟨⟨id, hid, hx⟩, hs.functions⟩ }
  vars _ id hid _ hx _ hs := { hs with
    vars := List.forall_mem_cons.mpr ⟨⟨id, hid, hx⟩, hs.vars⟩ }
  blocks _ _ hs := { hs with }
  nodes _ _ hs := { hs with }

/-- Copying that succeeds has met no foreign reference. -/
theorem copyModules_inside {newName : Option String} {dest : Program} {new : List ModuleId}
    {s : CopyState}
    (h : (copyModules ⟨p, false⟩ newName ids).apply { dest } = (.ok new, s)) :
    ∀ id ∈ ids, p.Inside ids (p.mentions id) := by
  have hdeclare : ∀ id ∈ ids,
      Ensures (Bounded p ids) (declareModule ⟨p, false⟩ newName id) fun _ => True := by
    intro id _
    unfold declareModule
    exact (ensures_add (Q := fun _ => True) (fun _ hs => { hs with }) fun _ => trivial).bind
      fun _ _ => (ensures_modifyDest (Q := fun _ => True) (fun _ hs => { hs with }) trivial).bind
      fun _ _ => ensures_modifyCopies (fun _ hs => { hs with }) trivial
  have hcopy : Ensures (Bounded p ids) (copyModules ⟨p, false⟩ newName ids) fun _ =>
      ∀ id ∈ ids, ∀ r ∈ p.mentions id, p.Inside ids [r] :=
    (ensures_forM hdeclare).bind fun _ _ => (bounded_laws p ids).copyDeclared.mono
      fun _ hmet => hmet.1
  have hstart : Bounded p ids { dest } := ⟨by simp, by simp, by simp⟩
  exact fun id hid => inside_iff.mpr ((hcopy _ _ _ hstart h).2 id hid)

end SignalGraph

import SignalGraph.Proofs.Program.Additions
import SignalGraph.Proofs.Program.CopyFrame

/-!
# SignalGraph.Proofs.Program.CopiedConstants

Copying a module within its program adds only constants that mention what is there, whether or not
they are in use in the end (`specialiseModule_constants`).  All structs that a copied constant can
mention have been declared before the constant is copied.
-/

namespace SignalGraph

open Copy CopySource

variable {p : Program} {s s' : CopyState}

/-- While a module of `p` is being copied within `p`. -/
structure Stocked (p : Program) (s : CopyState) : Prop where
  structs : p.structs.size ≤ s.dest.structs.size
  copies : ∀ x ∈ s.copies.structs, x.2.idx < s.dest.structs.size
  constants : ∀ v ∈ s.dest.constants.toList, SoundValue s.dest v

/-- Only texts were added. -/
structure TextsAdded (s s' : CopyState) : Prop where
  copies : s'.copies = s.copies
  dest : s'.dest = { s.dest with texts := s'.dest.texts }
  texts : s.dest.texts.toList <+: s'.dest.texts.toList

namespace TextsAdded

theorem refl (s : CopyState) : TextsAdded s s := ⟨rfl, rfl, List.prefix_refl _⟩

/-- Texts are added twice. -/
theorem trans {s'' : CopyState} (h : TextsAdded s s') (h' : TextsAdded s' s'') :
    TextsAdded s s'' where
  copies := h'.copies.trans h.copies
  dest := by rw [h'.dest, h.dest]
  texts := h.texts.trans h'.texts

/-- Adding texts adds no structs. -/
theorem structs (h : TextsAdded s s') : s'.dest.structs = s.dest.structs := by rw [h.dest]

/-- Values stay sound when texts are added. -/
theorem sound (h : TextsAdded s s') {v : Value} (hv : SoundValue s.dest v) : SoundValue s'.dest v :=
  hv.mono (Nat.le_of_eq (by rw [h.structs])) h.texts

/-- The destination keeps what it is stocked with when texts are added. -/
theorem stocked (h : TextsAdded s s') (hs : Stocked p s) : Stocked p s' where
  structs := by
    rw [h.structs]
    exact hs.structs
  copies := by
    rw [h.structs, h.copies]
    exact hs.copies
  constants v hv := by
    rw [h.dest] at hv
    exact h.sound (hs.constants v hv)

end TextsAdded

/-- Two copiers one after the other succeed if the first does and the second does in its state. -/
theorem apply_bind_eq_ok {α β : Type} {x : Copy α} {f : α → Copy β} {b : β} {s'' : CopyState} :
    (x >>= f).apply s = (.ok b, s'') ↔
      ∃ a s', x.apply s = (.ok a, s') ∧ (f a).apply s' = (.ok b, s'') := by
  rw [apply_bind]
  cases x.apply s with
  | mk outcome s' => cases outcome <;> simp

/-! ## Types and values -/

/-- A struct in range gets a name in range: its copy, or itself. -/
theorem structOf_inRange (hs : Stocked p s) {id new : StructId} (hid : id.idx < p.structs.size)
    (hrun : (structOf ⟨p, true⟩ id).apply s = (.ok new, s')) :
    s' = s ∧ new.idx < s.dest.structs.size := by
  unfold structOf copyOf at hrun
  rw [apply_get_bind] at hrun
  split at hrun
  · next new' hnew =>
    cases hrun
    obtain ⟨l₁, l₂, heq, -⟩ := List.lookup_eq_some_iff.mp hnew
    exact ⟨rfl, hs.copies (id, new) (by simp [heq])⟩
  · cases hrun
    exact ⟨rfl, Nat.lt_of_lt_of_le hid hs.structs⟩

/-- A type in range gets a name in range. -/
theorem tyOf_inRange (hs : Stocked p s) {t t' new : Ty}
    (ht : t.mapStructs (·.below p.structs.size) = some t')
    (hrun : (tyOf ⟨p, true⟩ t).apply s = (.ok new, s')) :
    s' = s ∧ new.mapStructs (·.below s.dest.structs.size) = some new := by
  unfold tyOf at hrun
  induction t generalizing t' new with
  | struct id =>
      obtain ⟨id', hid, -⟩ := Option.bind_eq_some_iff.mp ht
      obtain ⟨new', s₁, hnew, hrun⟩ := apply_bind_eq_ok.mp hrun
      cases hrun
      obtain ⟨hsame, hlt⟩ := structOf_inRange hs (Handle.below_eq_some_iff.mp hid).1 hnew
      refine ⟨hsame, ?_⟩
      simp [Ty.mapStructs, Handle.below_eq_some_iff.mpr ⟨hlt, rfl⟩]
  | array _ _ ih | const _ ih | ref _ ih =>
      obtain ⟨t', ht', -⟩ := Option.bind_eq_some_iff.mp ht
      obtain ⟨new', s₁, hnew, hrun⟩ := apply_bind_eq_ok.mp hrun
      cases hrun
      obtain ⟨hsame, hrange⟩ := ih ht' hnew
      exact ⟨hsame, by simp [Ty.mapStructs, hrange]⟩
  | prim _ | vector _ _ | string =>
      cases hrun
      exact ⟨rfl, rfl⟩

/-- A text gets a name that is there. -/
theorem textOf_inRange {id new : TextId} (hrun : (textOf ⟨p, true⟩ id).apply s = (.ok new, s')) :
    TextsAdded s s' ∧ present s'.dest new = some new := by
  unfold textOf at hrun
  split at hrun
  · next text _ =>
    cases hrun
    refine ⟨⟨rfl, rfl, Interner.prefix_intern _ _⟩, Program.present_eq_some_iff.mpr ⟨rfl, text, ?_⟩⟩
    exact Interner.get?_intern s.dest.texts text
  · cases hrun

mutual

/-- A sound value is copied to a sound value, by recursion on the value. -/
theorem value_inRange : ∀ {v new : Value} {s s' : CopyState}, Stocked p s → SoundValue p v →
    (v.mapParts (tyOf ⟨p, true⟩) (textOf ⟨p, true⟩)).apply s = (.ok new, s') →
    TextsAdded s s' ∧ SoundValue s'.dest new
  | .string id, new, s, s', hs, hv, hrun => by
      obtain ⟨new', s₁, hnew, hrun⟩ := apply_bind_eq_ok.mp hrun
      cases hrun
      obtain ⟨hadded, hpresent⟩ := textOf_inRange hnew
      exact ⟨hadded, .string new', by simp [Value.mapParts, hpresent]⟩
  | .zero t, new, s, s', hs, hv, hrun => by
      obtain ⟨_, hv⟩ := hv
      obtain ⟨t', ht, -⟩ := Option.bind_eq_some_iff.mp hv
      obtain ⟨new', s₁, hnew, hrun⟩ := apply_bind_eq_ok.mp hrun
      cases hrun
      obtain ⟨rfl, hrange⟩ := tyOf_inRange hs ht hnew
      exact ⟨.refl _, .zero new', by simp [Value.mapParts, hrange]⟩
  | .aggregate t vs, new, s, s', hs, hv, hrun => by
      obtain ⟨⟨t', ht⟩, hvs⟩ := soundValue_aggregate.mp hv
      obtain ⟨new', s₁, hnew, hrun⟩ := apply_bind_eq_ok.mp hrun
      obtain ⟨news, s₂, hnews, hrun⟩ := apply_bind_eq_ok.mp hrun
      cases hrun
      obtain ⟨rfl, hrange⟩ := tyOf_inRange hs ht hnew
      obtain ⟨hadded, hsound⟩ := values_inRange hs hvs hnews
      refine ⟨hadded, soundValue_aggregate.mpr ⟨⟨new', ?_⟩, hsound⟩⟩
      rw [hadded.structs]
      exact hrange
  | .void, new, s, s', hs, hv, hrun | .bool _, new, s, s', hs, hv, hrun
  | .int32 _, new, s, s', hs, hv, hrun | .int64 _, new, s, s', hs, hv, hrun
  | .float32 _, new, s, s', hs, hv, hrun | .float64 _, new, s, s', hs, hv, hrun => by
      cases hrun
      exact ⟨.refl s, _, rfl⟩

/-- Sound values are copied to sound values. -/
theorem values_inRange : ∀ {vs news : List Value} {s s' : CopyState}, Stocked p s →
    (∀ v ∈ vs, SoundValue p v) →
    (Value.mapPartsList (tyOf ⟨p, true⟩) (textOf ⟨p, true⟩) vs).apply s = (.ok news, s') →
    TextsAdded s s' ∧ ∀ v ∈ news, SoundValue s'.dest v
  | [], news, s, s', hs, hvs, hrun => by
      cases hrun
      exact ⟨.refl s, by simp⟩
  | v :: vs, news, s, s', hs, hvs, hrun => by
      obtain ⟨hv, hvs⟩ := List.forall_mem_cons.mp hvs
      obtain ⟨new, s₁, hnew, hrun⟩ := apply_bind_eq_ok.mp hrun
      obtain ⟨rest, s₂, hrest, hrun⟩ := apply_bind_eq_ok.mp hrun
      cases hrun
      obtain ⟨hadded, hsound⟩ := value_inRange hs hv hnew
      obtain ⟨hadded', hsounds⟩ := values_inRange (hadded.stocked hs) hvs hrest
      exact ⟨hadded.trans hadded', List.forall_mem_cons.mpr ⟨hadded'.sound hsound, hsounds⟩⟩

end

/-- The destination stays stocked when a sound value is interned. -/
theorem Stocked.intern (hs : Stocked p s) {v : Value} (hv : SoundValue s.dest v) :
    Stocked p { s with dest := (s.dest.intern v).2 } where
  structs := hs.structs
  copies := hs.copies
  constants w hw := by
    rcases Interner.mem_toList_intern hw with hw | rfl
    · exact hs.constants w hw
    · exact hv

/-! ## The whole copy -/

/-- Every step of copying keeps the destination stocked, so the laws of copying apply. -/
theorem stocked_laws (hp : ∀ v ∈ p.constants.toList, SoundValue p v) (ids : List ModuleId) :
    CopyLaws ⟨p, true⟩ ids (Stocked p) (fun _ => True) fun _ => True where
  structOf _ := ensures_copyOf_true _
  functionOf _ := ensures_copyOf_true _
  variableOf _ := ensures_copyOf_true _
  moduleOf _ := (ensures_copyOf_true _).mono fun _ _ _ => trivial
  constantOf k := by
    intro s new s' hs hrun
    -- a reference that leads nowhere reads as the default value, which is sound
    have hvalue : SoundValue p (p.constantAt k) := by
      by_cases hk : k.idx < p.constants.entries.size
      · exact hp _ (Arena.get_mem_toList (Arena.mem_handles_iff.mpr hk))
      · rw [Program.constantAt, Arena.get, Arena.get?_eq_none_iff.mpr (Nat.not_lt.mp hk)]
        exact ⟨_, rfl⟩
    obtain ⟨v, s₁, hv, hrun⟩ := apply_bind_eq_ok.mp hrun
    obtain ⟨hadded, hsound⟩ := value_inRange hs hvalue hv
    cases hrun
    exact ⟨(hadded.stocked hs).intern hsound, fun _ _ => trivial⟩
  met_const _ _ := trivial
  met_block _ := trivial
  met_mod _ := trivial
  met_own _ _ _ _ := trivial
  dest s q _ hconstants htexts hstructs hs := {
    structs := Nat.le_trans hs.structs hstructs
    copies := fun x hx => Nat.lt_of_lt_of_le (hs.copies x hx) hstructs
    constants := fun v hv => by
      rw [hconstants] at hv
      exact (hs.constants v hv).mono hstructs (htexts ▸ List.prefix_refl _) }
  target _ _ _ _ _ hs := ⟨hs.structs, hs.copies, hs.constants⟩
  listed _ _ _ _ hs := ⟨hs.structs, hs.copies, hs.constants⟩
  declareStruct s _ _ x _ owner name span hs := by
    have hsize : (s.dest.addStruct owner name span).2.structs.size = s.dest.structs.size + 1 :=
      Arena.size_push _ _
    have hle : s.dest.structs.size ≤ (s.dest.addStruct owner name span).2.structs.size := by omega
    refine ⟨Nat.le_trans hs.structs hle, List.forall_mem_cons.mpr ⟨?_, fun x hx => ?_⟩,
      fun v hv => ?_⟩
    · exact Nat.lt_of_lt_of_eq (Nat.lt_succ_self _) hsize.symm
    · exact Nat.lt_of_lt_of_le (hs.copies x hx) hle
    · exact (hs.constants v hv).mono hle (List.prefix_refl _)
  functions _ _ _ _ _ _ hs := ⟨hs.structs, hs.copies, hs.constants⟩
  vars _ _ _ _ _ _ hs := ⟨hs.structs, hs.copies, hs.constants⟩
  blocks _ _ hs := ⟨hs.structs, hs.copies, hs.constants⟩
  nodes _ _ hs := ⟨hs.structs, hs.copies, hs.constants⟩

/-- All constants of a program are sound after a module is copied within it, those included that
nothing mentions. -/
theorem specialiseModule_constants (hp : ∀ v ∈ p.constants.toList, SoundValue p v)
    {id new : ModuleId} {name : String} {q : Program}
    (h : p.specialiseModule id name = (.ok new, q)) : ∀ v ∈ q.constants.toList, SoundValue q v := by
  have hdeclare : Ensures (Stocked p) (declareModule ⟨p, true⟩ (some name) id) fun _ => True := by
    intro s _ s' hs hrun
    cases hrun
    exact ⟨⟨hs.structs, hs.copies, hs.constants⟩, trivial⟩
  have hcopy : Ensures (Stocked p) (copyModules ⟨p, true⟩ (some name) [id]) fun _ => True :=
    (ensures_forM fun x hx => List.mem_singleton.mp hx ▸ hdeclare).bind fun _ _ =>
      (stocked_laws hp [id]).copyDeclared.mono fun _ _ => trivial
  have hstart : Stocked p { dest := p } := ⟨Nat.le_refl _, (fun _ hx => by cases hx), hp⟩
  cases hend : (copyModules ⟨p, true⟩ (some name) [id]).run.run { dest := p } with
  | mk outcome s =>
      simp only [Program.specialiseModule, hend] at h
      split at h
      · cases h
        exact (hcopy _ _ _ hstart hend).1.constants
      · cases h
      · cases h

end SignalGraph

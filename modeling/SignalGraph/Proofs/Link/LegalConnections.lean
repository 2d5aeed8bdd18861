import Mathlib.Data.Finset.Prod
import SignalGraph.Proofs.Check.Verdicts
import SignalGraph.Proofs.Program.WellFormed

/-!
# SignalGraph.Proofs.Link.LegalConnections

Which connections are resolved: exactly the legal ones (`resolveConnection_eq_ok_iff`).  What is
legal is said here without reference to the way it is checked (`Legal`).  An end selects pairs of a
node and an element of the endpoint (`selectedPairs`), and the sizes of events are numbers of such
pairs.  Types of streams and values fit by a relation on types that looks through qualifiers
(`Ty.FramesFit`); one that compares them does not do (`not_resolves_only_scalarsFit`).
-/

namespace SignalGraph

/-! ## Frames of types -/

namespace Ty

/-- The types describe the same frames: as scalars, where a vector of one lane counts as one, as
arrays of one length whose elements do, or because they are the same.  Qualifiers are looked
through. -/
inductive SameFrames : Ty → Ty → Prop where
  | scalar {a b : Ty} {p : Prim} :
    a.scalarPrimitive? = some p → b.scalarPrimitive? = some p → SameFrames a b
  | array {a b e e' : Ty} {n : Option Nat} :
    a.unqualified = .array e n → b.unqualified = .array e' n → SameFrames e e' → SameFrames a b
  | same {a b : Ty} : a.unqualified = b.unqualified → SameFrames a b

/-- Under its qualifiers only these types are arrays. -/
theorem unqualified_ne_array {t : Ty} (hrefConst : ∀ e n, t ≠ .ref (.const (.array e n)))
    (href : ∀ e n, t ≠ .ref (.array e n)) (hconst : ∀ e n, t ≠ .const (.array e n))
    (hplain : ∀ e n, t ≠ .array e n) (e : Ty) (n : Option Nat) : t.unqualified ≠ .array e n := by
  intro h
  cases t with
  | ref t =>
      cases t with
      | const t =>
          obtain rfl : t = .array e n := h
          exact hrefConst e n rfl
      | array _ _ => exact href _ _ rfl
      | _ => cases h
  | const t =>
      obtain rfl : t = .array e n := h
      exact hconst e n rfl
  | array _ _ => exact hplain _ _ rfl
  | _ => cases h

/-- What a type is when qualifiers are looked through, one array at a time. -/
theorem frame_eq (t : Ty) : t.frame =
    match t.unqualified with
    | .array e n => .array e.frame n
    | .vector p 1 => .prim p
    | u => u := by
  fun_cases frame t with
  | case5 t _ _ _ _ p hvector =>
      rw [hvector]
      rfl
  | case6 t hrefConst href hconst hplain hvector =>
      split
      · next e n heq => exact absurd heq (unqualified_ne_array hrefConst href hconst hplain e n)
      · next p heq => exact (hvector p heq).elim
      · rfl
  | _ => rfl

/-- Under its qualifiers an array is an array of what its elements are. -/
theorem frame_of_array {t e : Ty} {n : Option Nat} (h : t.unqualified = .array e n) :
    t.frame = .array e.frame n := by
  rw [frame_eq, h]

/-- A single primitive value is that primitive. -/
theorem frame_of_scalar {t : Ty} {p : Prim} (h : t.scalarPrimitive? = some p) :
    t.frame = .prim p := by
  rw [scalarPrimitive?] at h
  rw [frame_eq]
  split at h
  · next heq =>
    rw [heq]
    cases h
    rfl
  · next heq =>
    rw [heq]
    cases h
    rfl
  · cases h

/-- A type is an array, a scalar, or something that is its own frame. -/
theorem frame_cases (t : Ty) : (∃ e n, t.unqualified = .array e n) ∨
    (∃ p, t.scalarPrimitive? = some p) ∨
    t.frame = t.unqualified ∧ (∀ e n, t.unqualified ≠ .array e n) ∧
      ∀ p, t.unqualified ≠ .prim p := by
  rw [frame_eq, scalarPrimitive?]
  generalize t.unqualified = u
  cases u with
  | prim p => exact .inr (.inl ⟨p, rfl⟩)
  | array e n => exact .inl ⟨e, n, rfl⟩
  | vector p n =>
      by_cases hn : n = 1
      · subst hn
        exact .inr (.inl ⟨p, rfl⟩)
      · refine .inr (.inr ⟨?_, nofun, nofun⟩)
        split <;> simp_all
  | _ => exact .inr (.inr ⟨rfl, nofun, nofun⟩)

/-- Types with equal frames, if the first is an array of which this is known for the elements. -/
theorem sameFrames_of_array {a b e : Ty} {n : Option Nat} (ha : a.unqualified = .array e n)
    (h : a.frame = b.frame) (ih : ∀ e', e.frame = e'.frame → SameFrames e e') : SameFrames a b := by
  rw [frame_of_array ha] at h
  rcases b.frame_cases with ⟨e', n', hb⟩ | ⟨p, hb⟩ | ⟨hb, harray, -⟩
  · rw [frame_of_array hb] at h
    injection h with helement hlength
    exact .array ha (hlength ▸ hb) (ih e' helement)
  · rw [frame_of_scalar hb] at h
    cases h
  · exact absurd (hb.symm.trans h.symm) (harray _ _)

/-- For types that are no arrays, to be alike is to have the same frame. -/
theorem sameFrames_of_not_array {a b : Ty} (ha : ∀ e n, a.unqualified ≠ .array e n)
    (h : a.frame = b.frame) : SameFrames a b := by
  rcases a.frame_cases with ⟨e, n, harray⟩ | ⟨p, hscalar⟩ | ⟨hframe, -, hprim⟩
  · exact absurd harray (ha e n)
  · rw [frame_of_scalar hscalar] at h
    rcases b.frame_cases with ⟨e', n', hb⟩ | ⟨p', hb⟩ | ⟨hb, -, hprim⟩
    · rw [frame_of_array hb] at h
      cases h
    · rw [frame_of_scalar hb] at h
      cases h
      exact .scalar hscalar hb
    · exact absurd (hb.symm.trans h.symm) (hprim p)
  · rw [hframe] at h
    rcases b.frame_cases with ⟨e', n', hb⟩ | ⟨p', hb⟩ | ⟨hb, -, -⟩
    · exact absurd (h.trans (frame_of_array hb)) (ha _ _)
    · exact absurd (h.trans (frame_of_scalar hb)) (hprim p')
    · exact .same (h.trans hb)

/-- The comparison of frames, by recursion on the type, is the relation. -/
theorem sameFrame_iff {a b : Ty} : a.sameFrame b ↔ SameFrames a b := by
  rw [sameFrame, beq_iff_eq]
  constructor
  · intro h
    induction a using frame.induct generalizing b with
    | case1 e n ih => exact sameFrames_of_array rfl h fun _ => ih
    | case2 e n ih => exact sameFrames_of_array rfl h fun _ => ih
    | case3 e n ih => exact sameFrames_of_array rfl h fun _ => ih
    | case4 e n ih => exact sameFrames_of_array rfl h fun _ => ih
    | case5 t _ _ _ _ p hvector => exact sameFrames_of_not_array (by simp [hvector]) h
    | case6 t hrefConst href hconst hplain _ =>
        exact sameFrames_of_not_array (unqualified_ne_array hrefConst href hconst hplain) h
  · intro h
    induction h with
    | scalar ha hb => rw [frame_of_scalar ha, frame_of_scalar hb]
    | array ha hb _ ih => rw [frame_of_array ha, frame_of_array hb, ih]
    | same h => rw [frame_eq, frame_eq, h]

/-- The type with vectors of one lane read as scalars at every array level, with its qualifiers. -/
def scalars : Ty → Ty
  | array e n => array e.scalars n
  | vector p 1 => prim p
  | t => t

/-- The second type is that of the elements of the first, which is an array of a fixed size. -/
def FixedArrayOf (array element : Ty) : Prop :=
  ∃ e n, array.unqualified = .array e (some n) ∧ SameFrames e element

/-- Frames of one type can become frames of the other: they are the same, or one is an array of the
other. -/
def FramesFit (a b : Ty) : Prop :=
  SameFrames a.unqualified b.unqualified ∨ FixedArrayOf a.unqualified b.unqualified ∨
    FixedArrayOf b.unqualified a.unqualified

end Ty

namespace Link

/-- An array of fixed size is seen under its qualifiers. -/
theorem isArrayOf_iff {array element : Ty} :
    isArrayOf array element ↔ array.FixedArrayOf element := by
  rw [isArrayOf, Bool.and_eq_true, Ty.isFixedSizeArray, Ty.elementType?, Ty.FixedArrayOf]
  constructor
  · rintro ⟨hfixed, helement⟩
    split at hfixed
    · next e n heq =>
      rw [heq] at helement
      exact ⟨e, n, heq, Ty.sameFrame_iff.mp helement⟩
    · cases hfixed
  · rintro ⟨e, n, heq, hsame⟩
    rw [heq]
    exact ⟨rfl, Ty.sameFrame_iff.mpr hsame⟩

/-- The comparison of frames up to arrays is the relation. -/
theorem framesFit_iff {a b : Ty} : framesFit a b ↔ a.FramesFit b := by
  simp only [framesFit, Bool.or_eq_true, Ty.sameFrame_iff, isArrayOf_iff, Ty.FramesFit, or_assoc]

/-! ## What an end selects -/

/-- The places of a dimension: all of them, or the one with the index. -/
def places (size : Nat) (index : Option Nat) : Finset Nat :=
  (Finset.range size).filter fun i => ∀ k ∈ index, i = k

@[simp] theorem card_places_none (size : Nat) : (places size none).card = size := by
  simp [places]

/-- One index selects one place. -/
theorem card_places_some {size k : Nat} (h : k < size) : (places size (some k)).card = 1 := by
  have hsingle : places size (some k) = {k} := by
    ext i
    simp only [places, Finset.mem_filter, Finset.mem_range, Option.mem_some_iff,
      Finset.mem_singleton, forall_eq']
    exact ⟨fun hi => hi.2, fun hi => ⟨hi ▸ h, hi⟩⟩
  rw [hsingle, Finset.card_singleton]

/-- The node that an end of a connection names, if it is not an end at the graph itself. -/
def endNode? (p : Program) (graph : ModuleId) (r : EndpointRef) : Option Node :=
  r.node.bind (p.moduleAt graph).nodes.get?

/-- An index counts nodes if the node is an array of nodes, otherwise elements of the endpoint. -/
def countsNodes (node : Option Node) : Bool := node.any (·.arraySize.isSome)

/-- The number of nodes that an end stands for; the graph itself counts as one. -/
def nodeCount : Option Node → Nat
  | none => 1
  | some n => n.arrayLength

/-- The size of the dimension that an index selects from. -/
def indexedSize (node : Option Node) (d : EndpointDetails) : Nat :=
  if countsNodes node then nodeCount node else d.arrayLength

def selectedNodes (node : Option Node) (index : Option Nat) : Finset Nat :=
  places (nodeCount node) (if countsNodes node then index else none)

def selectedElements (node : Option Node) (d : EndpointDetails) (index : Option Nat) : Finset Nat :=
  places d.arrayLength (if countsNodes node then none else index)

/-- The pairs of a node and an element of its endpoint that an end selects. -/
def selectedPairs (node : Option Node) (d : EndpointDetails) (index : Option Nat) :
    Finset (Nat × Nat) :=
  selectedNodes node index ×ˢ selectedElements node d index

/-- A selection is accepted if its index is in range, and counts the places that it selects. -/
theorem selection_eq_ok_iff {node : Option Node} {d : EndpointDetails} {index : Option Nat}
    {m n : Nat} :
    selection node d index = .ok (m, n) ↔ (∀ i ∈ index, i < indexedSize node d) ∧
      (selectedNodes node index).card = m ∧ (selectedElements node d index).card = n := by
  have hcount : (node.map Node.arrayLength).getD 1 = nodeCount node := by
    cases node <;> rfl
  cases index with
  | none =>
      simp only [selection, hcount, selectedNodes, selectedElements, ite_self, card_places_none,
        Except.ok.injEq, Prod.mk.injEq]
      exact (and_iff_right nofun).symm
  | some i =>
      have hindex : (∀ k ∈ some i, k < indexedSize node d) ↔ i < indexedSize node d := by simp
      have hrun : selection node d (some i) =
          if indexedSize node d ≤ i then .error (i, indexedSize node d)
          else if countsNodes node then .ok (1, d.arrayLength) else .ok (nodeCount node, 1) := by
        simp only [selection, hcount]
        rfl
      rw [hindex, hrun, selectedNodes, selectedElements]
      by_cases hlt : i < indexedSize node d
      · rw [if_neg (Nat.not_le.mpr hlt), and_iff_right hlt]
        cases hcounts : countsNodes node with
        | true =>
            have hnode : i < nodeCount node := by simpa [indexedSize, hcounts] using hlt
            simp [card_places_some hnode]
        | false =>
            have helement : i < d.arrayLength := by simpa [indexedSize, hcounts] using hlt
            simp [card_places_some helement]
      · rw [if_pos (Nat.not_lt.mp hlt)]
        simp [hlt]

/-! ## Ends -/

/-- A source is an input of the graph itself or an output of a node, a destination the other way
round. -/
def legalDirection : Side → Option NodeId → Direction
  | .source, none => .input
  | .source, some _ => .output
  | .destination, none => .output
  | .destination, some _ => .input

/-- An end names an endpoint of the module: of the graph itself, or of the module that its node is
an instance of. -/
def OwnedBy (p : Program) (graph : ModuleId) (r : EndpointRef) (owner : ModuleId) : Prop :=
  match r.node with
  | none => owner = graph
  | some id => ∃ n, (p.moduleAt graph).nodes.get? id = some n ∧ p.findModule? n.source = some owner

/-- The end stands at an endpoint with the given details, and selects as many nodes and elements as
it says. -/
structure EndAt (p : Program) (graph : ModuleId) (side : Side) (r : EndpointRef) (e : ResolvedEnd)
    (d : EndpointDetails) : Prop where
  node : e.node = r.node
  owner : OwnedBy p graph r e.owner
  endpoint : (p.moduleAt e.owner).findEndpoint? r.endpoint = some e.endpoint
  direction : ((p.moduleAt e.owner).endpoints.get e.endpoint).direction = legalDirection side r.node
  details : ((p.moduleAt e.owner).endpoints.get e.endpoint).details = some d
  index : ∀ i ∈ r.index, i < indexedSize (endNode? p graph r) d
  multiplicity : (selectedNodes (endNode? p graph r) r.index).card = e.multiplicity
  arraySize : (selectedElements (endNode? p graph r) d r.index).card = e.arraySize

variable {p : Program} {graph : ModuleId} {side : Side} {r : EndpointRef} {e : ResolvedEnd}
  {d : EndpointDetails} {span : Span}

/-- The fan of an end is the number of pairs of a node and an element that it selects. -/
theorem EndAt.fan_eq (h : EndAt p graph side r e d) :
    e.fan = (selectedPairs (endNode? p graph r) d r.index).card := by
  rw [ResolvedEnd.fan, ← h.multiplicity, ← h.arraySize, selectedPairs, Finset.card_product]

/-- The owner of an end is found if there is one. -/
theorem ownedBy_iff (span : Span) {owner : ModuleId} : OwnedBy p graph r owner ↔
    ∃ node, endOwner p graph r span = .ok (owner, node) := by
  simp only [OwnedBy, endOwner]
  cases r.node with
  | none => simp [eq_comm]
  | some id =>
      cases hn : (p.moduleAt graph).nodes.get? id with
      | none => simp [hn]
      | some n => cases hsource : p.findModule? n.source <;> simp [hn, hsource]

/-- The owner of an end is found with the node that it goes through. -/
theorem node_of_endOwner {owner : ModuleId} {node : Option (NodeId × Node)}
    (h : endOwner p graph r span = .ok (owner, node)) :
    node.map (·.1) = r.node ∧ node.map (·.2) = endNode? p graph r := by
  simp only [endOwner] at h
  rw [endNode?]
  split at h
  · next hnode =>
    cases h
    rw [hnode]
    exact ⟨rfl, rfl⟩
  · next id hnode =>
    split at h
    · cases h
    · next n hn =>
      split at h
      · cases h
      · cases h
        rw [hnode]
        exact ⟨rfl, hn.symm⟩

/-- Which direction can be used depends on whether the end is inside a node. -/
theorem usableDirection_eq (side : Side) (node : Option (NodeId × Node)) :
    usableDirection side node.isSome = legalDirection side (node.map (·.1)) := by
  cases side <;> cases node <;> rfl

/-- An end is accepted if it names an endpoint of its owner that can be used from there, with an
index in range. -/
theorem resolveEnd_eq_ok {owner : ModuleId} {node : Option (NodeId × Node)}
    (howner : endOwner p graph r span = .ok (owner, node)) :
    resolveEnd p graph r side span = .ok (e, d) ↔ e.owner = owner ∧ e.node = node.map (·.1) ∧
      (p.moduleAt owner).findEndpoint? r.endpoint = some e.endpoint ∧
      ((p.moduleAt owner).endpoints.get e.endpoint).direction = usableDirection side node.isSome ∧
      ((p.moduleAt owner).endpoints.get e.endpoint).details = some d ∧
      selection (node.map (·.2)) d r.index = .ok (e.multiplicity, e.arraySize) := by
  constructor
  · intro h
    simp only [resolveEnd, howner, Check.bind_eq_ok, Except.ok.injEq, exists_eq_left'] at h
    split at h
    · cases h
    · next k hk =>
      by_cases hdirection : ((p.moduleAt owner).endpoints.get k).direction =
          usableDirection side node.isSome
      · simp only [hdirection, ne_eq, not_true_eq_false, if_false] at h
        split at h
        · cases h
        · next details hdetails =>
          split at h
          · cases h
          · next hselection =>
            cases h
            exact ⟨rfl, rfl, hk, hdirection, hdetails, hselection⟩
      · simp [hdirection, bind, Except.bind, throw, throwThe, MonadExceptOf.throw] at h
  · obtain ⟨owner', k, node', m, n⟩ := e
    rintro ⟨rfl, rfl, hfind, hdirection, hdetails, hselection⟩
    simp [resolveEnd, howner, bind, Except.bind, pure, Except.pure, hfind, hdirection, hdetails,
      hselection]

/-- An end is accepted exactly if it is at an endpoint. -/
theorem resolveEnd_eq_ok_iff :
    resolveEnd p graph r side span = .ok (e, d) ↔ EndAt p graph side r e d := by
  constructor
  · intro h
    have hbind := h
    simp only [resolveEnd, Check.bind_eq_ok] at hbind
    obtain ⟨⟨owner, node⟩, howner, -⟩ := hbind
    obtain ⟨hnode, hnode'⟩ := node_of_endOwner howner
    obtain ⟨rfl, hresult, hfind, hdirection, hdetails, hselection⟩ := (resolveEnd_eq_ok howner).mp h
    rw [usableDirection_eq, hnode] at hdirection
    rw [hnode'] at hselection
    obtain ⟨hindex, hmultiplicity, hsize⟩ := selection_eq_ok_iff.mp hselection
    exact ⟨hresult.trans hnode, (ownedBy_iff span).mpr ⟨node, howner⟩, hfind, hdirection, hdetails,
      hindex, hmultiplicity, hsize⟩
  · intro h
    obtain ⟨node, howner⟩ := (ownedBy_iff span).mp h.owner
    obtain ⟨hnode, hnode'⟩ := node_of_endOwner howner
    refine (resolveEnd_eq_ok howner).mpr ⟨rfl, h.node.trans hnode.symm, h.endpoint, ?_,
      h.details, ?_⟩
    · rw [usableDirection_eq, hnode]
      exact h.direction
    · rw [hnode']
      exact selection_eq_ok_iff.mpr ⟨h.index, h.multiplicity, h.arraySize⟩

/-! ## Connections -/

/-- Endpoints with the given details can be joined, if so many elements are selected on their sides.
The relation says which types of streams and values fit. -/
def Joinable (fits : Ty → Ty → Prop) (source dest : EndpointDetails) (a b : Nat) : Prop :=
  source.kind = dest.kind ∧
    if source.kind = .event then
      (a = 1 ∨ b = 1 ∨ a = b) ∧ ∃ s ∈ source.types, ∃ d ∈ dest.types, d.canSilentlyCast s
    else ∃ s d, source.types = [s] ∧ dest.types = [d] ∧ fits s d

/-- The connection is legal, and these are its ends. -/
def Legal (fits : Ty → Ty → Prop) (p : Program) (graph : ModuleId) (c : Connection)
    (r : ResolvedConnection) : Prop :=
  ∃ s d, EndAt p graph .source c.source r.source s ∧ EndAt p graph .destination c.dest r.dest d ∧
    Joinable fits s d (selectedPairs (endNode? p graph c.source) s c.source.index).card
      (selectedPairs (endNode? p graph c.dest) d c.dest.index).card

/-- An endpoint has a single type if it lists one. -/
theorem singleType?_eq_some_iff {t : Ty} : d.singleType? = some t ↔ d.types = [t] := by
  rw [EndpointDetails.singleType?]
  split
  · next t' heq => simp [heq]
  · next hmany => exact ⟨nofun, fun h => (hmany t h).elim⟩

/-- Event types fit if some type of one end can be cast to some type of the other without loss. -/
theorem eventTypesFit_iff {s d : EndpointDetails} :
    eventTypesFit s d ↔ ∃ t ∈ s.types, ∃ u ∈ d.types, u.canSilentlyCast t := by
  simp only [eventTypesFit, List.any_eq_true]

/-- The kinds are compared first, and then what the kind asks for. -/
theorem mismatch?_eq_none_iff {sourceDesc destDesc : String} {source dest : ResolvedEnd}
    {s d : EndpointDetails} : mismatch? p sourceDesc destDesc source dest s d = none ↔
      Joinable Ty.FramesFit s d source.fan dest.fan := by
  rw [Joinable]
  by_cases hkind : s.kind = d.kind
  · rw [and_iff_right hkind, mismatch?, if_neg (not_not.mpr hkind)]
    by_cases hevent : s.kind = .event
    · rw [if_pos hevent, if_pos hevent, ← eventTypesFit_iff]
      have hsizes : (source.fan = 1 || dest.fan = 1 || source.fan = dest.fan) = true ↔
          source.fan = 1 ∨ dest.fan = 1 ∨ source.fan = dest.fan := by simp [or_assoc]
      rw [← hsizes]
      split
      · next h => simp [h]
      · next h => simp [h]
    · rw [if_neg hevent, if_neg hevent]
      simp only [← singleType?_eq_some_iff]
      split
      · next a b ha hb => simp [ha, hb, framesFit_iff]
      · next hmany => exact ⟨nofun, fun ⟨a, b, ha, hb, _⟩ => (hmany a b ha hb).elim⟩
  · simp [mismatch?, hkind]

/-- A connection is resolved if and only if it is legal, with the ends that it has then. -/
theorem resolveConnection_eq_ok_iff (p : Program) (graph : ModuleId) (c : Connection)
    (r : ResolvedConnection) :
    resolveConnection p graph c = .ok r ↔ Legal Ty.FramesFit p graph c r := by
  simp only [resolveConnection, Check.bind_eq_ok]
  constructor
  · rintro ⟨⟨source, s⟩, hsource, ⟨dest, d⟩, hdest, h⟩
    split at h
    · cases h
    · next hmatch =>
      cases h
      rw [resolveEnd_eq_ok_iff] at hsource hdest
      rw [mismatch?_eq_none_iff, hsource.fan_eq, hdest.fan_eq] at hmatch
      exact ⟨s, d, hsource, hdest, hmatch⟩
  · rintro ⟨s, d, hsource, hdest, hjoinable⟩
    rw [← hsource.fan_eq, ← hdest.fan_eq, ← mismatch?_eq_none_iff] at hjoinable
    refine ⟨_, resolveEnd_eq_ok_iff.mpr hsource, _, resolveEnd_eq_ok_iff.mpr hdest, ?_⟩
    rw [hjoinable]
    rfl

/-! ## Types that differ by a qualifier -/

/-- Types fit that are equal, or one an array of a fixed size of the other, once vectors of one lane
are read as scalars; qualifiers are compared. -/
def ScalarsFit (a b : Ty) : Prop :=
  a.scalars = b.scalars ∨ (∃ e n, a = .array e (some n) ∧ e.scalars = b.scalars) ∨
    ∃ e n, b = .array e (some n) ∧ e.scalars = a.scalars

/-- Two instances of a processor whose output, unlike its input, has a type marked as constant. -/
def constantOutput : Program where
  modules := ⟨#[
    { kind := .processor
      name := "P"
      endpoints := ⟨#[
        { name := "in", direction := .input
          details := some { kind := .stream, types := [.float32] } },
        { name := "out", direction := .output
          details := some { kind := .stream, types := [.const .float32] } }]⟩ },
    { kind := .graph
      name := "Top"
      nodes := ⟨#[{ name := "a", source := "P" }, { name := "b", source := "P" }]⟩
      connections := ⟨#[
        { source := { node := some ⟨0⟩, endpoint := "out" }
          dest := { node := some ⟨1⟩, endpoint := "in" } }]⟩ }]⟩

/-- `constantOutput` is well formed. -/
theorem constantOutput_wellFormed : constantOutput.WellFormed where
  modules m hm := by
    obtain rfl | hm := List.mem_cons.mp hm
    · rfl
    · cases List.mem_singleton.mp hm
      rfl
  nodes := by decide
  structs := by decide
  functions _ hf := by cases hf
  vars := by decide
  structOwner := by decide
  functionOwner := by decide
  structsListed := by decide
  functionsListed := by decide
  declaredOnce := by decide
  declaredInRange := by decide

/-- A connection between types that differ by `const` is resolved. -/
theorem not_resolves_only_scalarsFit : constantOutput.WellFormed ∧
    ∃ c ∈ (constantOutput.moduleAt ⟨1⟩).connections.toList,
      ¬ ∀ r, resolveConnection constantOutput ⟨1⟩ c = .ok r ↔
        Legal ScalarsFit constantOutput ⟨1⟩ c r := by
  refine ⟨constantOutput_wellFormed, _, List.mem_singleton_self _, fun hall => ?_⟩
  have hresolved : resolveConnection constantOutput ⟨1⟩
      { source := { node := some ⟨0⟩, endpoint := "out" }
        dest := { node := some ⟨1⟩, endpoint := "in" } } =
      .ok ⟨⟨⟨0⟩, ⟨1⟩, some ⟨0⟩, 1, 1⟩, ⟨⟨0⟩, ⟨0⟩, some ⟨1⟩, 1, 1⟩⟩ := by
    simp only [resolveConnection, resolveEnd, endOwner, Program.findModule?, Module.findEndpoint?,
      Arena.find?_eq_findIdx?]
    rfl
  obtain ⟨s, d, hsource, hdest, -, hfit⟩ := (hall _).mp hresolved
  obtain rfl : _ = s := Option.some.inj hsource.details
  obtain rfl : _ = d := Option.some.inj hdest.details
  rw [if_neg nofun] at hfit
  obtain ⟨t, u, ht, hu, hfit⟩ := hfit
  obtain rfl : .const .float32 = t := List.cons.inj ht |>.1
  obtain rfl : .float32 = u := List.cons.inj hu |>.1
  rcases hfit with hequal | ⟨e, n, harray, -⟩ | ⟨e, n, harray, -⟩
  · cases hequal
  · cases harray
  · cases harray

end Link

end SignalGraph

import Mathlib.Data.Set.Basic
import SignalGraph.Check.Rule
import SignalGraph.Proofs.Digraph.Reach
import SignalGraph.Proofs.Handle

/-!
# SignalGraph.Proofs.Check.Traps

What the rule on infinite loops promises.  A trap is a set of blocks that control cannot leave and
in which nothing returns or lets time pass.  The rule asks of every function that its entry lead to
a block that returns or advances (`checkInfiniteLoops_eq_ok_iff`); so the entry is in no trap, but a
branch may still lead into one, beside a way that returns.  The blocks from which control gets on
are exactly those that lead into no trap (`infiniteLoops_getsOn_iff`), and `trapdoor` has one that
does.
-/

namespace SignalGraph

namespace Function

variable (f : Function)

/-- Control may go from the first block to the second, which exists. -/
def Branches (a b : BlockId) : Prop :=
  ∃ x, f.blocks.get? a = some x ∧ b ∈ x.terminator.successors ∧ b ∈ f.blocks.handles

/-- Control may get from the first block to the second, in any number of branches. -/
def Leads (a b : BlockId) : Prop := Relation.ReflTransGen f.Branches a b

/-- The block returns, or lets time pass. -/
def Releases (a : BlockId) : Prop :=
  ∃ x, f.blocks.get? a = some x ∧ (x.terminator.isReturn ∨ Statement.advance ∈ x.statements)

/-- From the block control may get to one that returns or lets time pass. -/
def GetsOn (a : BlockId) : Prop := ∃ b, f.Leads a b ∧ f.Releases b

/-- Blocks that control cannot leave, and none of which returns or lets time pass. -/
structure Trap (region : Set BlockId) : Prop where
  closed : ∀ a ∈ region, ∀ b, f.Branches a b → b ∈ region
  stuck : ∀ a ∈ region, ¬ f.Releases a

variable {f}

/-! ## The search -/

theorem advances_iff {b : Block} : b.advances ↔ Statement.advance ∈ b.statements := by
  rw [Block.advances, List.any_eq_true]
  constructor
  · rintro ⟨s, hs, hadvance⟩
    cases s with
    | advance => exact hs
    | _ => cases hadvance
  · exact fun hs => ⟨_, hs, rfl⟩

/-- A block that exists is stuck if and only if it does not release. -/
theorem isStuckBlock_iff {a : BlockId} (ha : a ∈ f.blocks.handles) :
    f.isStuckBlock a ↔ ¬ f.Releases a := by
  have hget := Arena.get?_eq_some_get (Arena.mem_handles_iff.mp ha)
  simp [isStuckBlock, Releases, hget, ← advances_iff]

theorem mem_handles_of_isEntry {entry : BlockId} (h : f.entry? = some entry) :
    entry ∈ f.blocks.handles := by
  unfold entry? at h
  split at h
  · next hbody =>
    cases h
    have hsize : f.blocks.items.size ≠ 0 := by
      simpa [hasBody, Arena.isEmpty] using hbody
    exact Arena.mem_handles_iff.mpr (Nat.pos_of_ne_zero hsize)
  · cases h

theorem mem_handles_of_leads {a b : BlockId} (ha : a ∈ f.blocks.handles) (h : f.Leads a b) :
    b ∈ f.blocks.handles := by
  cases h with
  | refl => exact ha
  | tail _ hstep =>
      obtain ⟨_, -, -, hb⟩ := hstep
      exact hb

/-- The blocks that are searched are those to which control may get from the entry. -/
theorem mem_reachableBlocks_iff {entry b : BlockId} (hentry : f.entry? = some entry) :
    b ∈ f.reachableBlocks ↔ f.Leads entry b := by
  have hstart := mem_handles_of_isEntry hentry
  -- the search follows the branches that lead to blocks of the function
  have hstep : ∀ a ∈ f.blocks.handles, ∀ b,
      b ∈ ((f.blocks.get a).terminator.successors.filter fun b => (f.blocks.get? b).isSome) ↔
        f.Branches a b := by
    intro a ha b
    have hget := Arena.get?_eq_some_get (Arena.mem_handles_iff.mp ha)
    have hexists : (f.blocks.get? b).isSome ↔ b ∈ f.blocks.handles := by
      rw [Arena.mem_handles_iff, Option.isSome_iff_exists]
      exact ⟨fun ⟨_, hx⟩ => Arena.lt_size_of_get? hx, fun hlt => ⟨_, Arena.get?_eq_some_get hlt⟩⟩
    rw [List.mem_filter, hexists]
    exact ⟨fun h => ⟨_, hget, h⟩, fun ⟨x, hx, h⟩ => Option.some.inj (hget.symm.trans hx) ▸ h⟩
  have hclosed : ∀ a ∈ f.blocks.handles,
      ((f.blocks.get a).terminator.successors.filter fun b => (f.blocks.get? b).isSome) ⊆
        f.blocks.handles := by
    intro a ha b hb
    obtain ⟨_, -, -, hb⟩ := (hstep a ha b).mp hb
    exact hb
  have hsize : f.blocks.handles.length ≤ f.blocks.size := by simp [Arena.handles, Arena.size]
  rw [reachableBlocks, hentry]
  dsimp only
  rw [Digraph.mem_reachable_iff hclosed hstart hsize]
  constructor
  · intro h
    have hboth : f.Leads entry b ∧ b ∈ f.blocks.handles := by
      induction h with
      | refl => exact ⟨.refl, hstart⟩
      | tail _ hb ih =>
          have hbranch := (hstep _ ih.2 _).mp hb
          exact ⟨ih.1.tail hbranch, hclosed _ ih.2 hb⟩
    exact hboth.1
  · intro h
    induction h with
    | refl => exact .refl
    | tail hlead hbranch ih =>
        exact ih.tail ((hstep _ (mem_handles_of_leads hstart hlead) _).mpr hbranch)

/-- A function is refused if and only if its entry does not get on. -/
theorem hasInfiniteLoop_eq_false_iff :
    f.hasInfiniteLoop = false ↔ ∀ entry, f.entry? = some entry → f.GetsOn entry := by
  cases hentry : f.entry? with
  | none =>
      have hbody : f.hasBody = false := by simpa [ entry?] using hentry
      simp [hasInfiniteLoop, hbody]
  | some entry =>
      have hbody : f.hasBody = true := by
        unfold entry? at hentry
        split at hentry
        · assumption
        · cases hentry
      have hstart := mem_handles_of_isEntry hentry
      simp only [hasInfiniteLoop, hbody, Bool.true_and, Option.some.injEq, forall_eq', GetsOn]
      rw [← Bool.not_eq_true, List.all_eq_true, not_forall]
      simp only [Classical.not_imp, mem_reachableBlocks_iff hentry]
      refine exists_congr fun b => and_congr_right fun hb => ?_
      rw [isStuckBlock_iff (mem_handles_of_leads hstart hb), not_not]

/-! ## Traps -/

/-- A block in a trap does not get on. -/
theorem Trap.not_getsOn {region : Set BlockId} (h : f.Trap region) {a : BlockId}
    (ha : a ∈ region) : ¬ f.GetsOn a := by
  rintro ⟨b, hlead, hb⟩
  have hmem : b ∈ region := by
    clear hb
    induction hlead with
    | refl => exact ha
    | tail _ hstep ih => exact h.closed _ ih _ hstep
  exact h.stuck b hmem hb

/-- The blocks to which control may get from one that does not get on are a trap. -/
theorem trap_of_not_getsOn {a : BlockId} (h : ¬ f.GetsOn a) : f.Trap {b | f.Leads a b} where
  closed _ hb _ hstep := Relation.ReflTransGen.tail hb hstep
  stuck b hb hrelease := h ⟨b, hb, hrelease⟩

/-- A block does not get on if and only if it is in a trap. -/
theorem not_getsOn_iff {a : BlockId} : ¬ f.GetsOn a ↔ ∃ region, f.Trap region ∧ a ∈ region :=
  ⟨fun h => ⟨_, trap_of_not_getsOn h, .refl⟩, fun ⟨_, htrap, ha⟩ => htrap.not_getsOn ha⟩

end Function

namespace Check

/-! ## The rule -/

/-- The rule accepts a program if and only if every entry gets on. -/
theorem checkInfiniteLoops_eq_ok_iff {p : Program} :
    Link.checkInfiniteLoops p = .ok () ↔
      ∀ id f, p.functions.get? id = some f → ∀ entry, f.entry? = some entry → f.GetsOn entry := by
  have hnone : Link.checkInfiniteLoops p = .ok () ↔
      p.functions.entries.find? (·.2.hasInfiniteLoop) = none := by
    unfold Link.checkInfiniteLoops
    cases p.functions.entries.find? (·.2.hasInfiniteLoop) <;> simp
  rw [hnone, List.find?_eq_none, Prod.forall]
  refine forall_congr' fun id => forall_congr' fun f => ?_
  rw [Arena.mem_entries_iff, Bool.not_eq_true, Function.hasInfiniteLoop_eq_false_iff]

/-- In an accepted program every function gets on from its entry.  All blocks to which control may
get from the entries get on too, exactly if control never gets into a trap without the entry. -/
theorem infiniteLoops_getsOn_iff {p : Program} {c : Context}
    (h : Rule.check p c .infiniteLoops = .ok ()) :
    (∀ id f, p.functions.get? id = some f → ∀ entry, f.entry? = some entry → f.GetsOn entry) ∧
      ((∀ id f, p.functions.get? id = some f → ∀ entry, f.entry? = some entry →
          ∀ b, f.Leads entry b → f.GetsOn b) ↔
        ∀ id f, p.functions.get? id = some f → ∀ entry, f.entry? = some entry →
          ∀ region, f.Trap region → entry ∉ region → ∀ b ∈ region, ¬ f.Leads entry b) := by
  have haccepted := checkInfiniteLoops_eq_ok_iff.mp h
  refine ⟨haccepted, ?_, ?_⟩
  · intro hall id f hf entry hentry region htrap _ b hb hlead
    exact htrap.not_getsOn hb (hall id f hf entry hentry b hlead)
  · intro hclear id f hf entry hentry b hlead
    by_contra hstuck
    obtain ⟨region, htrap, hb⟩ := Function.not_getsOn_iff.mp hstuck
    -- the entry of an accepted function gets on, so it is in no trap
    have hout : entry ∉ region := fun hin => htrap.not_getsOn hin (haccepted id f hf entry hentry)
    exact hclear id f hf entry hentry region htrap hout b hb hlead

/-- A function whose entry branches to a block that returns, or else to one that branches to itself
after the given statements. -/
def trapdoor (statements : List Statement) : Program where
  modules := ⟨#[{ kind := .processor, name := "P", functions := [⟨0⟩] }]⟩
  functions := ⟨#[{
    name := "f"
    blocks := ⟨#[
      { name := "@a", terminator := .branchIf (.const ⟨0⟩) ⟨1⟩ [] ⟨2⟩ [] },
      { name := "@spin", statements := statements, terminator := .branch ⟨1⟩ [] },
      { name := "@done" }]⟩ }]⟩
  constants := ⟨⟨#[.bool true]⟩⟩

theorem infiniteLoops_getsOn_iff_trapdoor :
    Rule.check (trapdoor [.advance]) ⟨{}, none⟩ .infiniteLoops = .ok () ∧
      ∀ b, ((trapdoor [.advance]).functionAt ⟨0⟩).Leads ⟨0⟩ b →
        ((trapdoor [.advance]).functionAt ⟨0⟩).GetsOn b := by
  have hcheck : Rule.check (trapdoor [.advance]) ⟨{}, none⟩ .infiniteLoops = .ok () := by decide
  refine ⟨hcheck, (infiniteLoops_getsOn_iff hcheck).2.mpr ?_ ⟨0⟩ _ rfl ⟨0⟩ rfl⟩
  intro id f hf entry hentry region htrap hout b hb hlead
  cases List.mem_singleton.mp (Arena.mem_entries_iff.mpr hf)
  cases hentry
  -- the block that branches to itself advances
  have hreleases : b = ⟨0⟩ ∨ ((trapdoor [.advance]).functionAt ⟨0⟩).Releases b := by
    have hmem : b ∈ [⟨0⟩, ⟨1⟩, ⟨2⟩] := Function.mem_handles_of_leads (by decide) hlead
    simp only [List.mem_cons, List.not_mem_nil, or_false] at hmem
    obtain rfl | rfl | rfl := hmem
    · exact .inl rfl
    · exact .inr ⟨_, rfl, .inr List.mem_cons_self⟩
    · exact .inr ⟨_, rfl, .inl rfl⟩
  rcases hreleases with rfl | hreleases
  · exact hout hb
  · exact htrap.stuck b hb hreleases

/-- A way that returns beside an inescapable loop is enough for the rule. -/
theorem infiniteLoops_trapdoor :
    Rule.check (trapdoor []) ⟨{}, none⟩ .infiniteLoops = .ok () ∧
      ∃ f entry b, (trapdoor []).functions.get? ⟨0⟩ = some f ∧ f.entry? = some entry ∧
        f.Leads entry b ∧ ¬ f.GetsOn b := by
  refine ⟨by decide, _, ⟨0⟩, ⟨1⟩, rfl, rfl, .single ⟨_, rfl, by decide, by decide⟩, ?_⟩
  have htrap : ((trapdoor []).functionAt ⟨0⟩).Trap {⟨1⟩} := by
    constructor
    · rintro a rfl b ⟨x, hx, hb, -⟩
      cases hx
      exact List.mem_singleton.mp hb
    · rintro a rfl ⟨x, hx, hrelease⟩
      cases hx
      rcases hrelease with hreturn | hadvance
      · exact absurd hreturn (by decide)
      · exact List.not_mem_nil hadvance
  exact htrap.not_getsOn rfl

end Check

end SignalGraph

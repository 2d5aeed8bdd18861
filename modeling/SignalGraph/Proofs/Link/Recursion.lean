import SignalGraph.Proofs.Digraph.Loops
import SignalGraph.Proofs.Link.Calls

/-!
# SignalGraph.Proofs.Link.Recursion

Recursion is found exactly where there is some: the edges of the search are the calls of the program
(`Program.joins_callees_iff`), so the search finds functions that call each other in turn, and finds
some if any function can reach itself (`Program.recursion?_exact`).  A call may name a function that
does not exist; it leads nowhere.
-/

namespace SignalGraph.Program

/-- Distinct functions, each of which calls the next, and the last one the first. -/
structure RecursiveCalls (p : Program) (cycle : List FunctionId) : Prop where
  nodup : cycle.Nodup
  calls : cycle.IsChain p.Calls
  closed : ∃ first last, cycle.head? = some first ∧ cycle.getLast? = some last ∧ p.Calls last first

variable {p : Program}

/-- The edges from a function lead to those that it calls. -/
theorem mem_map_callees_iff {f g : FunctionId} {label : Unit} :
    (label, g) ∈ (p.callees f).map ((), ·) ↔ p.Calls f g := by
  rw [List.mem_map, ← mem_callees_iff]
  exact ⟨fun ⟨_, hmem, heq⟩ => by cases heq; exact hmem, fun hmem => ⟨g, hmem, rfl⟩⟩

/-- The edges of the search are the calls. -/
theorem joins_callees_iff {f g : FunctionId} :
    Digraph.Joins (fun f => (p.callees f).map ((), ·)) f g ↔ p.Calls f g :=
  ⟨fun ⟨_, he⟩ => mem_map_callees_iff.mp he, fun h => ⟨(), mem_map_callees_iff.mpr h⟩⟩

/-- So edges join what calls join. -/
theorem joins_callees (p : Program) :
    Digraph.Joins (fun f => (p.callees f).map ((), ·)) = p.Calls := by
  funext f g
  exact propext joins_callees_iff

/-- A function that does not exist calls none. -/
theorem callees_eq_nil {g : FunctionId} (hg : g ∉ p.functions.handles) : p.callees g = [] := by
  have hnone : p.functions.get? g = none := by
    rw [Arena.get?_eq_none_iff]
    exact Nat.not_lt.mp (mt Arena.mem_handles_iff.mpr hg)
  rw [callees, hnone]
  rfl

/-- The search for recursion is exact.  It finds some if and only if a function can reach itself by
one or more calls, and what it finds are functions that call each other in turn. -/
theorem recursion?_exact (p : Program) :
    (p.recursion?.isSome ↔ ∃ f, Relation.TransGen p.Calls f f) ∧
      ∀ cycle, p.recursion? = some cycle → cycle ≠ [] ∧ p.RecursiveCalls cycle := by
  constructor
  · have hclosed : ∀ f label g, (label, g) ∈ (p.callees f).map ((), ·) →
        g ∈ p.functions.handles ∨ (p.callees g).map (((), ·) : FunctionId → Unit × FunctionId) =
          [] := by
      intro f label g _
      by_cases hg : g ∈ p.functions.handles
      · exact .inl hg
      · exact .inr (by rw [callees_eq_nil hg, List.map_nil])
    have hnone := Digraph.findCycle?_eq_none_iff hclosed
    rw [joins_callees] at hnone
    rw [recursion?, Option.isSome_map, ← not_iff_not, Option.not_isSome_iff_eq_none, hnone,
      not_exists]
  · intro cycle hcycle
    obtain ⟨c, hc, rfl⟩ := Option.map_eq_some_iff.mp hcycle
    have hloop := Digraph.isLoop_of_findCycle? hc
    obtain ⟨first, last, hfirst, hlast, hclosing⟩ := hloop.closed
    refine ⟨hloop.ne_nil, hloop.nodup, joins_callees p ▸ hloop.joined, first, last, hfirst,
      hlast, ?_⟩
    exact mem_map_callees_iff.mp hclosing

/-- The first function calls one that does not exist and, in the argument of a branch, the second
one, which calls the first in an index. -/
def pingPong : Program where
  functions := ⟨#[
    { name := "ping"
      blocks := ⟨#[{
        name := "@a"
        statements := [.call none ⟨7⟩ []]
        terminator := .branch ⟨0⟩ [.unary .negate (.pureCall ⟨1⟩ [])] }]⟩ },
    { name := "pong"
      blocks := ⟨#[{
        name := "@a"
        statements := [.assign (.elementAt (.var ⟨0⟩) (.pureCall ⟨0⟩ [])) (.const ⟨0⟩)] }]⟩ }]⟩

theorem recursion?_exact_pingPong :
    pingPong.recursion? = some [⟨0⟩, ⟨1⟩] ∧ pingPong.RecursiveCalls [⟨0⟩, ⟨1⟩] := by
  have hfound : pingPong.recursion? = some [⟨0⟩, ⟨1⟩] := by decide
  exact ⟨hfound, ((recursion?_exact pingPong).2 _ hfound).2⟩

end SignalGraph.Program

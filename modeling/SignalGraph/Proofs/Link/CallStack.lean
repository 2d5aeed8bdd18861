import SignalGraph.Proofs.Digraph.Sorting
import SignalGraph.Proofs.Link.Recursion
import SignalGraph.Proofs.Link.StackNeeds

/-!
# SignalGraph.Proofs.Link.CallStack

The bound on the call stack is exact: it is the greatest total of frames along a chain of calls, as
far as 64 bits can tell, and there is none exactly for recursive programs
(`Program.maximumStack?_exact`).

What a function needs is settled by what the functions that it calls need (`Settled`).  In a program
without recursion that leaves no choice (`Settled.unique`), so rounds over all functions and one
pass along any topological order come to the same needs.  That these are maxima over chains is shown
along an order as well, once for a list of functions: the ones that a function calls, and at last
all.
-/

namespace SignalGraph

/-- A handle leads to the entry at its index. -/
theorem Arena.getElem?_entries {e : Entity} {α : Type} {a : Arena e α} {h : Handle e} {x : α}
    (hx : a.get? h = some x) : a.entries[h.idx]? = some (h, x) := by
  simp only [get?] at hx
  simp [entries, hx]

/-- There are as many entries as handles. -/
theorem Arena.length_entries {e : Entity} {α : Type} (a : Arena e α) :
    a.entries.length = a.size := by
  simp [entries, size]

namespace Program

variable {p : Program}

/-! ## Chains of calls -/

/-- Functions of the program, each of which calls the next. -/
structure CallChain (p : Program) (chain : List FunctionId) : Prop where
  ne_nil : chain ≠ []
  exist : ∀ f ∈ chain, f ∈ p.functions.handles
  calls : chain.IsChain p.Calls

/-- The bytes that the frames of some functions take together. -/
def framesSize (p : Program) : List FunctionId → Nat
  | [] => 0
  | f :: chain => p.frameSize (p.functionAt f) + p.framesSize chain

/-- The greatest total of frames along a chain of calls; zero if there are no functions. -/
structure DeepestCalls (p : Program) (bytes : Nat) : Prop where
  bounds : ∀ chain, p.CallChain chain → p.framesSize chain ≤ bytes
  reached : if p.functions.size = 0 then bytes = 0
    else ∃ chain, p.CallChain chain ∧ p.framesSize chain = bytes

/-- The greatest total of frames along a chain of calls from one of the given functions. -/
structure DeepestFrom (p : Program) (fs : List FunctionId) (bytes : Nat) : Prop where
  bounds : ∀ f ∈ fs, ∀ chain, (f :: chain).IsChain p.Calls → p.framesSize (f :: chain) ≤ bytes
  reached : fs = [] ∧ bytes = 0 ∨
    ∃ f ∈ fs, ∃ chain, (f :: chain).IsChain p.Calls ∧ p.framesSize (f :: chain) = bytes

namespace DeepestFrom

/-- Nobody called, no stack. -/
theorem nil : p.DeepestFrom [] 0 where
  bounds _ hf := by cases hf
  reached := .inl ⟨rfl, rfl⟩

/-- The deepest of several calls is the deepest of the first one and of the others. -/
theorem cons {f : FunctionId} {fs : List FunctionId} {a b : Nat} (hf : p.DeepestFrom [f] a)
    (hfs : p.DeepestFrom fs b) : p.DeepestFrom (f :: fs) (max a b) where
  bounds g hg chain hchain := by
    rcases List.mem_cons.mp hg with rfl | hg
    · exact Nat.le_trans (hf.bounds g List.mem_cons_self chain hchain) (Nat.le_max_left _ _)
    · exact Nat.le_trans (hfs.bounds g hg chain hchain) (Nat.le_max_right _ _)
  reached := by
    right
    obtain ⟨g, hg, chain, hchain, hsize⟩ := hf.reached.resolve_left (by simp)
    obtain rfl := List.mem_singleton.mp hg
    by_cases hle : b ≤ a
    · exact ⟨g, List.mem_cons_self, chain, hchain, by omega⟩
    · rcases hfs.reached with ⟨-, rfl⟩ | ⟨f', hf', chain', hchain', hsize'⟩
      · omega
      · exact ⟨f', List.mem_cons_of_mem _ hf', chain', hchain', by omega⟩

/-- A chain from a function is the function alone, or goes on with one that it calls. -/
theorem caller {f : FunctionId} {bytes : Nat} (h : p.DeepestFrom (p.callees f) bytes) :
    p.DeepestFrom [f] (p.frameSize (p.functionAt f) + bytes) where
  bounds g hg chain hchain := by
    obtain rfl := List.mem_singleton.mp hg
    cases chain with
    | nil => simp [framesSize]
    | cons callee chain =>
        obtain ⟨hcall, hrest⟩ := List.isChain_cons_cons.mp hchain
        exact Nat.add_le_add_left (h.bounds callee (mem_callees_iff.mpr hcall) chain hrest) _
  reached := by
    refine .inr ⟨f, List.mem_singleton_self f, ?_⟩
    rcases h.reached with ⟨-, rfl⟩ | ⟨callee, hcallee, chain, hchain, rfl⟩
    · exact ⟨[], .singleton f, rfl⟩
    · exact ⟨callee :: chain, List.isChain_cons_cons.mpr ⟨mem_callees_iff.mp hcallee, hchain⟩, rfl⟩

end DeepestFrom

/-! ## Needs -/

/-- What a list of needs says of a function. -/
def needOf (needs : List Nat) (f : FunctionId) : Nat := (needs[f.idx]?).getD 0

/-- The need of a function is its frame on top of the greatest need of what it calls. -/
def Settled (p : Program) (needs : List Nat) (f : FunctionId) : Prop :=
  needOf needs f = Saturating.add (p.frameSize (p.functionAt f))
    (greatest ((p.callees f).map (needOf needs)))

@[simp] theorem greatest_nil : greatest [] = 0 := rfl

@[simp] theorem greatest_cons (n : Nat) (sizes : List Nat) :
    greatest (n :: sizes) = max n (greatest sizes) := by
  simp only [greatest, List.foldl_cons, Nat.max_comm 0 n]
  exact List.foldl_assoc

/-- The greatest need among functions whose needs are the deepest chains from them. -/
theorem deepestFrom_of_needs {needs : List Nat} (fs : List FunctionId)
    (h : ∀ f ∈ fs, ∃ bytes, p.DeepestFrom [f] bytes ∧ needOf needs f = min bytes Saturating.limit) :
    ∃ bytes, p.DeepestFrom fs bytes ∧
      greatest (fs.map (needOf needs)) = min bytes Saturating.limit := by
  induction fs with
  | nil => exact ⟨0, .nil, by simp⟩
  | cons f fs ih =>
      obtain ⟨a, ha, hneed⟩ := h f List.mem_cons_self
      obtain ⟨b, hb, hrest⟩ := ih fun g hg => h g (List.mem_cons_of_mem _ hg)
      refine ⟨max a b, ha.cons hb, ?_⟩
      rw [List.map_cons, greatest_cons, hneed, hrest]
      omega

/-- The calls of the program as edges. -/
abbrev callEdges (p : Program) : FunctionId → List (Unit × FunctionId) :=
  Digraph.plainEdges p.callees

/-- In a topological order callees come after their caller. -/
theorem mem_of_ordered_cons {f : FunctionId} {order : List FunctionId}
    (h : Digraph.Ordered p.callEdges (f :: order)) {g : FunctionId} (hg : g ∈ p.callees f) :
    g ∈ order := h.2.1 () g (Digraph.edge_of_mem hg)

/-- Along an order, settled needs are the deepest chains. -/
theorem Settled.deepest {needs : List Nat} {order : List FunctionId}
    (hord : Digraph.Ordered p.callEdges order) (h : ∀ f ∈ order, p.Settled needs f) :
    ∀ f ∈ order, ∃ bytes, p.DeepestFrom [f] bytes ∧
      needOf needs f = min bytes Saturating.limit := by
  induction order with
  | nil => exact fun _ hf => by cases hf
  | cons f order ih =>
      have hrest := ih hord.2.2 fun g hg => h g (List.mem_cons_of_mem _ hg)
      intro g hg
      rcases List.mem_cons.mp hg with rfl | hg
      · obtain ⟨bytes, hdeepest, hgreatest⟩ := deepestFrom_of_needs (p.callees g)
          fun callee hcallee => hrest callee (mem_of_ordered_cons hord hcallee)
        refine ⟨_, hdeepest.caller, ?_⟩
        rw [h g List.mem_cons_self, hgreatest]
        unfold Saturating.add
        omega
      · exact hrest g hg

/-- Along an order, there is only one way to settle the needs. -/
theorem Settled.unique {needs needs' : List Nat} {order : List FunctionId}
    (hord : Digraph.Ordered p.callEdges order) (h : ∀ f ∈ order, p.Settled needs f)
    (h' : ∀ f ∈ order, p.Settled needs' f) : ∀ f ∈ order, needOf needs f = needOf needs' f := by
  induction order with
  | nil => exact fun _ hf => by cases hf
  | cons f order ih =>
      have hrest := ih hord.2.2 (fun g hg => h g (List.mem_cons_of_mem _ hg))
        fun g hg => h' g (List.mem_cons_of_mem _ hg)
      intro g hg
      rcases List.mem_cons.mp hg with rfl | hg
      · have hcallees : (p.callees g).map (needOf needs) = (p.callees g).map (needOf needs') :=
          List.map_congr_left fun callee hcallee => hrest callee (mem_of_ordered_cons hord hcallee)
        rw [h g List.mem_cons_self, h' g List.mem_cons_self, hcallees]
      · exact hrest g hg

/-! ## Rounds over all functions -/

/-- There is one need for each function. -/
theorem length_stackNeeds (p : Program) (n : Nat) : (p.stackNeeds n).length = p.functions.size := by
  cases n with
  | zero => rw [stackNeeds, List.length_map, Arena.length_toList]
  | succ n => rw [stackNeeds, List.length_map, Arena.length_entries]

/-- One more step of depth: the frame of the function and the largest need of what it calls. -/
theorem needOf_stackNeeds_succ {f : FunctionId} (hf : f ∈ p.functions.handles) (n : Nat) :
    needOf (p.stackNeeds (n + 1)) f = Saturating.add (p.frameSize (p.functionAt f))
      (greatest ((p.callees f).map (needOf (p.stackNeeds n)))) := by
  have hentry := Arena.getElem?_entries (Arena.get?_eq_some_get (Arena.mem_handles_iff.mp hf))
  rw [needOf, stackNeeds, List.getElem?_map, hentry]
  rfl

/-- After as many rounds as an order is long, nothing changes any more. -/
theorem needOf_stackNeeds_stable {order : List FunctionId}
    (hord : Digraph.Ordered p.callEdges order) (hall : ∀ f ∈ order, f ∈ p.functions.handles)
    {n : Nat} (hn : order.length ≤ n) :
    ∀ f ∈ order, needOf (p.stackNeeds (n + 1)) f = needOf (p.stackNeeds n) f := by
  induction order generalizing n with
  | nil => exact fun _ hf => by cases hf
  | cons f order ih =>
      have hrest :=
        fun {n} hn => ih hord.2.2 (fun g hg => hall g (List.mem_cons_of_mem _ hg)) (n := n) hn
      obtain ⟨n, rfl⟩ := Nat.exists_eq_succ_of_ne_zero (Nat.ne_zero_of_lt hn)
      rw [List.length_cons, Nat.succ_le_succ_iff] at hn
      intro g hg
      rcases List.mem_cons.mp hg with rfl | hg
      · have hcallees : (p.callees g).map (needOf (p.stackNeeds (n + 1))) =
            (p.callees g).map (needOf (p.stackNeeds n)) :=
          List.map_congr_left fun callee hcallee =>
            hrest hn callee (mem_of_ordered_cons hord hcallee)
        have hg := hall g List.mem_cons_self
        rw [needOf_stackNeeds_succ hg, needOf_stackNeeds_succ hg, hcallees]
      · exact hrest (Nat.le_succ_of_le hn) g hg

/-- After as many steps as there are functions the needs no longer change, by induction along the
order. -/
theorem settled_stackNeeds {order : List FunctionId} (hord : Digraph.Ordered p.callEdges order)
    (hall : ∀ f, f ∈ order ↔ f ∈ p.functions.handles) :
    ∀ f ∈ order, p.Settled (p.stackNeeds p.functions.size) f := by
  have hlength : order.length ≤ p.functions.size :=
    Arena.length_le_of_nodup hord.nodup fun f hf => (hall f).mp hf
  intro f hf
  rw [Settled, ← needOf_stackNeeds_succ ((hall f).mp hf)]
  exact (needOf_stackNeeds_stable hord (fun f hf => (hall f).mp hf) hlength f hf).symm

/-! ## One pass along an order -/

/-- The pass settles the callees before the caller. -/
theorem stackNeedsAlong_cons (p : Program) (f : FunctionId) (order : List FunctionId) :
    p.stackNeedsAlong (f :: order) = p.settleNeed (p.stackNeedsAlong order) f := by
  simp [stackNeedsAlong]

/-- The pass has one need for each function. -/
theorem length_stackNeedsAlong (p : Program) (order : List FunctionId) :
    (p.stackNeedsAlong order).length = p.functions.size := by
  induction order with
  | nil => simp [stackNeedsAlong, Arena.length_toList]
  | cons f order ih => rw [stackNeedsAlong_cons, settleNeed, List.length_set, ih]

/-- Settling one function leaves the others. -/
theorem needOf_settleNeed_of_ne {needs : List Nat} {f g : FunctionId} (hne : f ≠ g) :
    needOf (p.settleNeed needs f) g = needOf needs g := by
  have hidx : f.idx ≠ g.idx := fun heq => hne (by cases f; cases g; exact congrArg _ heq)
  simp [needOf, settleNeed, hidx]

/-- Each function is settled in its turn, and later turns leave it and what it calls alone. -/
theorem settled_stackNeedsAlong {order : List FunctionId}
    (hord : Digraph.Ordered p.callEdges order) (hall : ∀ f ∈ order, f ∈ p.functions.handles) :
    ∀ f ∈ order, p.Settled (p.stackNeedsAlong order) f := by
  induction order with
  | nil => exact fun _ hf => by cases hf
  | cons f order ih =>
      have hrest := ih hord.2.2 fun g hg => hall g (List.mem_cons_of_mem _ hg)
      have hsame : ∀ g ∈ order, needOf (p.stackNeedsAlong (f :: order)) g =
          needOf (p.stackNeedsAlong order) g := by
        intro g hg
        rw [stackNeedsAlong_cons]
        exact needOf_settleNeed_of_ne fun heq => hord.1 (heq ▸ hg)
      -- the callees stand behind their callers in the order, so their needs are fixed before
      have hcallees : ∀ g ∈ f :: order,
          (p.callees g).map (needOf (p.stackNeedsAlong (f :: order))) =
            (p.callees g).map (needOf (p.stackNeedsAlong order)) := by
        intro g hg
        refine List.map_congr_left fun callee hcallee => hsame callee ?_
        rcases List.mem_cons.mp hg with rfl | hg
        · exact mem_of_ordered_cons hord hcallee
        · exact hord.2.2.mem_of_edge hg (Digraph.edge_of_mem hcallee)
      intro g hg
      rw [Settled, hcallees g hg]
      rcases List.mem_cons.mp hg with rfl | hg
      · have hlt : g.idx < (p.stackNeedsAlong order).length := by
          rw [length_stackNeedsAlong]
          exact Arena.mem_handles_iff.mp (hall g List.mem_cons_self)
        rw [stackNeedsAlong_cons, needOf, settleNeed, List.getElem?_set_self hlt]
        rfl
      · rw [hsame g hg]
        exact hrest g hg

/-! ## The bound -/

/-- A list of needs is the list of the need of each function. -/
theorem eq_map_needOf {needs : List Nat} (h : needs.length = p.functions.size) :
    needs = p.functions.handles.map (needOf needs) := by
  refine List.ext_getElem (by simp [h, Arena.handles, Arena.size]) fun i hi _ => ?_
  simp [Arena.handles, needOf, hi]

/-- No recursion is found exactly if no function reaches itself. -/
theorem recursion?_eq_none_iff (hgraph : Digraph.IsGraph p.callees p.functions.handles) :
    p.recursion? = none ↔ ∀ f, ¬ Relation.TransGen (fun f g => g ∈ p.callees f) f f := by
  have hclosed : ∀ f label g, (label, g) ∈ p.callEdges f →
      g ∈ p.functions.handles ∨ p.callEdges g = [] :=
    fun f _ _ he => .inl (hgraph.closed f (Digraph.mem_plainEdges_iff.mp he))
  rw [recursion?, Option.map_eq_none_iff, Digraph.findCycle?_eq_none_iff hclosed,
    Digraph.joins_plainEdges]

/-- Without recursion, callers can be put before the functions that they call. -/
theorem exists_ordered_functions (hgraph : Digraph.IsGraph p.callees p.functions.handles)
    (h : p.recursion? = none) :
    ∃ order, Digraph.Ordered p.callEdges order ∧ ∀ f, f ∈ order ↔ f ∈ p.functions.handles :=
  Digraph.exists_ordered_of_findCycle?_eq_none
    (fun f _ _ _ he => hgraph.closed f (Digraph.mem_plainEdges_iff.mp he))
    (Option.map_eq_none_iff.mp h)

/-- One pass along an order does what rounds over all functions do. -/
theorem stackNeedsAlong_eq {order : List FunctionId} (hord : Digraph.Ordered p.callEdges order)
    (hall : ∀ f, f ∈ order ↔ f ∈ p.functions.handles) :
    p.stackNeedsAlong order = p.stackNeeds p.functions.size := by
  rw [eq_map_needOf (p.length_stackNeedsAlong order), eq_map_needOf (p.length_stackNeeds _)]
  refine List.map_congr_left fun f hf => ?_
  exact Settled.unique hord (settled_stackNeedsAlong hord fun f hf => (hall f).mp hf)
    (settled_stackNeeds hord hall) f ((hall f).mpr hf)

/-- In a program, a chain from one of all functions is a chain of calls. -/
theorem DeepestFrom.deepestCalls (hgraph : Digraph.IsGraph p.callees p.functions.handles)
    {bytes : Nat} (h : p.DeepestFrom p.functions.handles bytes) : p.DeepestCalls bytes where
  bounds chain hchain := by
    cases chain with
    | nil => exact Nat.zero_le _
    | cons f chain => exact h.bounds f (hchain.exist f List.mem_cons_self) chain hchain.calls
  reached := by
    rcases h.reached with ⟨hnone, rfl⟩ | ⟨f, hf, chain, hchain, hsize⟩
    · have hempty : p.functions.size = 0 := by
        simpa [Arena.handles, Arena.size] using congrArg List.length hnone
      simp [hempty]
    · have hsome : p.functions.size ≠ 0 := Nat.ne_zero_of_lt (Arena.mem_handles_iff.mp hf)
      rw [if_neg hsome]
      refine ⟨f :: chain, ⟨List.cons_ne_nil _ _, ?_, hchain⟩, hsize⟩
      clear hsize
      induction chain generalizing f with
      | nil => simpa using hf
      | cons g chain ih =>
          obtain ⟨hcall, hrest⟩ := List.isChain_cons_cons.mp hchain
          have hg := hgraph.closed f (mem_callees_iff.mpr hcall)
          exact List.forall_mem_cons.mpr ⟨hf, ih g hg hrest⟩

/-- What is computed is the deepest chain of calls, cut off at the limit. -/
theorem maximumStack?_deepest (hgraph : Digraph.IsGraph p.callees p.functions.handles) {n : Nat}
    (hn : p.maximumStack? = some n) :
    ∃ bytes, p.DeepestCalls bytes ∧ n = min bytes Saturating.limit := by
  unfold maximumStack? at hn
  split at hn
  · cases hn
  · next hnone =>
    cases hn
    obtain ⟨order, hord, hall⟩ :=
      exists_ordered_functions hgraph (Option.not_isSome_iff_eq_none.mp hnone)
    obtain ⟨bytes, hbytes, hgreatest⟩ := deepestFrom_of_needs p.functions.handles
      fun f hf => Settled.deepest hord (settled_stackNeeds hord hall) f ((hall f).mpr hf)
    rw [← eq_map_needOf (p.length_stackNeeds _)] at hgreatest
    exact ⟨bytes, hbytes.deepestCalls hgraph, hgreatest⟩

/-- Along any topological order the same is computed. -/
theorem maximumStackAlong?_eq (hgraph : Digraph.IsGraph p.callees p.functions.handles)
    {sort : (FunctionId → List FunctionId) → List FunctionId → Option (List FunctionId)}
    (hsort : Digraph.SortsTopologically sort) : p.maximumStackAlong? sort = p.maximumStack? := by
  have hnone : sort p.callees p.functions.handles = none ↔ p.recursion? ≠ none := by
    rw [hsort.eq_none_iff hgraph, ne_eq, recursion?_eq_none_iff hgraph]
    simp
  unfold maximumStackAlong? maximumStack?
  cases horder : sort p.callees p.functions.handles with
  | none =>
      have hsome : p.recursion?.isSome := Option.isSome_iff_ne_none.mpr (hnone.mp horder)
      rw [Option.map_none, if_pos hsome]
  | some order =>
      have hfree : ¬ p.recursion?.isSome := by
        rw [Option.isSome_iff_ne_none, ← hnone, horder]
        exact Option.some_ne_none order
      have hall : ∀ f, f ∈ order ↔ f ∈ p.functions.handles :=
        fun f => (hsort.sorted hgraph horder).1.mem_iff
      rw [Option.map_some, if_neg hfree, stackNeedsAlong_eq (hsort.ordered hgraph horder) hall]

/-- The bound on the stack is exact.  There is none if and only if the search for recursion finds
some; otherwise it is the greatest total of frames along a chain of calls, or the greatest 64-bit
word if that is less.  Any topological sort leads to it.  So a program without recursion is always
compared with a limit other than zero, and accepted exactly if the bound is within the limit. -/
theorem maximumStack?_exact (p : Program)
    (hcalls : ∀ f g, p.Calls f g → g ∈ p.functions.handles)
    {sort : (FunctionId → List FunctionId) → List FunctionId → Option (List FunctionId)}
    (hsort : Digraph.SortsTopologically sort) :
    p.maximumStackAlong? sort = p.maximumStack? ∧
      (p.maximumStackAlong? sort = none ↔ p.recursion?.isSome) ∧
      (∀ n, p.maximumStackAlong? sort = some n →
        ∃ bytes, p.DeepestCalls bytes ∧ n = min bytes Saturating.limit) ∧
      (Link.checkRecursion p = .ok () → ∀ max, max ≠ 0 →
        ∃ n, p.maximumStackAlong? sort = some n ∧
          (Link.checkStackSize p max = .ok () ↔ n ≤ max)) := by
  have hgraph : Digraph.IsGraph p.callees p.functions.handles :=
    ⟨p.functions.nodup_handles, fun f g hg => hcalls f g (mem_callees_iff.mp hg)⟩
  rw [maximumStackAlong?_eq hgraph hsort]
  refine ⟨rfl, ?_, fun n => maximumStack?_deepest hgraph, fun hrec max hmax => ?_⟩
  · cases hrec : p.recursion? <;> simp [maximumStack?, hrec]
  · have hnone : p.recursion? = none := by
      unfold Link.checkRecursion at hrec
      split at hrec
      · assumption
      · cases hrec
    have hbound : p.maximumStack? = some (greatest (p.stackNeeds p.functions.size)) := by
      simp [maximumStack?, hnone]
    refine ⟨_, hbound, ?_⟩
    simp [Link.checkStackSize, hbound, hmax]

/-- The first function calls the other two, and the last one calls the second as well. -/
def sharing : Program where
  functions := ⟨#[
    { name := "mix"
      returns := .float32
      locals := [⟨0⟩]
      blocks := ⟨#[{
        name := "@a"
        statements := [.call none ⟨1⟩ []]
        terminator := .returnValue (.pureCall ⟨2⟩ []) }]⟩ },
    { name := "gain", returns := .float64 },
    { name := "shape"
      returns := .int32
      blocks := ⟨#[{ name := "@a", terminator := .returnValue (.pureCall ⟨1⟩ []) }]⟩ }]⟩
  vars := ⟨#[{ name := "$buffer", ty := .array .float32 (some 16), role := .mutableLocal }]⟩

/-- The deepest chain goes through all three functions. -/
theorem maximumStack?_exact_sharing :
    sharing.maximumStackAlong? Digraph.sortBySearch? = some 80 ∧
      (∃ bytes, sharing.DeepestCalls bytes ∧ 80 = min bytes Saturating.limit) ∧
      Link.checkStackSize sharing 80 = .ok () ∧ Link.checkStackSize sharing 79 ≠ .ok () := by
  have hcalls : ∀ f g, sharing.Calls f g → g ∈ sharing.functions.handles := by
    have hall : ∀ f ∈ sharing.functions.handles, ∀ g ∈ sharing.callees f,
        g ∈ sharing.functions.handles := by decide
    intro f g hcall
    rw [← mem_callees_iff] at hcall
    by_cases hf : f ∈ sharing.functions.handles
    · exact hall f hf g hcall
    · rw [callees_eq_nil hf] at hcall
      cases hcall
  have hfound : sharing.maximumStackAlong? Digraph.sortBySearch? = some 80 := by decide
  obtain ⟨-, -, hdeepest, hlimit⟩ :=
    maximumStack?_exact sharing hcalls Digraph.sortBySearch?_sorts
  have hfree : Link.checkRecursion sharing = .ok () := by decide
  refine ⟨hfound, hdeepest 80 hfound, ?_, ?_⟩
  · obtain ⟨n, hn, hverdict⟩ := hlimit hfree 80 (by decide)
    exact hverdict.mpr (Nat.le_of_eq (Option.some.inj (hn.symm.trans hfound)))
  · obtain ⟨n, hn, hverdict⟩ := hlimit hfree 79 (by decide)
    obtain rfl : n = 80 := Option.some.inj (hn.symm.trans hfound)
    exact fun hok => absurd (hverdict.mp hok) (by decide)

end Program

end SignalGraph

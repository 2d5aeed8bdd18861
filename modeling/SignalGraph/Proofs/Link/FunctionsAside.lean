import SignalGraph.Link.Endpoints
import SignalGraph.Proofs.Program.Edit

/-!
# SignalGraph.Proofs.Link.FunctionsAside

Linking looks at modules and never at functions: in a program with other functions it succeeds or
fails in the same way, and leaves those functions there (`linkEndpoints_aside`).
-/

namespace SignalGraph

namespace Edit

variable {α β : Type}

/-- An edit that neither reads nor changes the functions of a program. -/
def LeavesAside (x : Edit α) : Prop :=
  ∀ (p : Program) (functions : Arena .func Function),
    x.apply { p with functions } = ((x.apply p).1, { (x.apply p).2 with functions })

theorem aside_pure (a : α) : LeavesAside (pure a : Edit α) := fun _ _ => rfl

theorem aside_throw (d : Diagnostic) : LeavesAside (throw d : Edit α) := fun _ _ => rfl

/-- Changing a module is a matter of modules. -/
theorem aside_modifyModule (id : ModuleId) (f : Module → Module) :
    LeavesAside (modifyModule id f) := fun _ _ => rfl

/-- What is required does not come from the program. -/
theorem aside_require (d : Diagnostic) (o : Option α) : LeavesAside (require d o) := by
  cases o with
  | none => exact aside_throw d
  | some a => exact aside_pure a

/-- One edit after the other. -/
theorem LeavesAside.bind {x : Edit α} {f : α → Edit β} (hx : LeavesAside x)
    (hf : ∀ a, LeavesAside (f a)) : LeavesAside (x >>= f) := by
  intro p functions
  rw [apply_bind, apply_bind, hx p functions]
  cases hrun : x.apply p with
  | mk outcome q =>
      cases outcome with
      | error d => rfl
      | ok a => exact hf a q functions

/-- What comes after a look at the program must read the same with other functions. -/
theorem LeavesAside.program_bind {f : Program → Edit β}
    (hread : ∀ (p : Program) (functions : Arena .func Function), f { p with functions } = f p)
    (hf : ∀ p, LeavesAside (f p)) : LeavesAside (program >>= f) := by
  intro p functions
  rw [apply_program_bind, apply_program_bind, hread]
  exact hf p p functions

/-- A choice that does not depend on the program. -/
theorem LeavesAside.ite {c : Prop} [Decidable c] {x y : Edit α} (hx : LeavesAside x)
    (hy : LeavesAside y) : LeavesAside (if c then x else y) := by
  split
  · exact hx
  · exact hy

/-- One edit for each member of a list. -/
theorem aside_forM {f : α → Edit Unit} (hf : ∀ a, LeavesAside (f a)) (l : List α) :
    LeavesAside (l.forM f) := by
  induction l with
  | nil => exact aside_pure _
  | cons a l ih => exact (hf a).bind fun _ => ih

end Edit

namespace Link

open Edit

/-! ## Hoisting -/

/-- The endpoints that are added between are named and placed by modules. -/
theorem addIntermediate_aside (child : ModuleId) (nodeName : String) (e : Endpoint)
    (fullPath rest : List PathSegment) :
    LeavesAside (addIntermediate child nodeName e fullPath rest) := by
  unfold addIntermediate
  refine .program_bind (fun _ _ => rfl) fun p => .ite ?_ ((aside_throw _).bind fun _ => ?_)
  · exact (aside_modifyModule _ _).bind fun _ => aside_pure _
  · exact (aside_modifyModule _ _).bind fun _ => aside_pure _

/-- A path starts at a node, which leads to a module. -/
theorem pathStart_aside (m : Module) (e : Endpoint) (first : PathSegment) :
    LeavesAside (pathStart m e first) := by
  unfold pathStart
  refine (aside_require _ _).bind fun node => .ite ((aside_throw _).bind fun _ => ?_) ?_
  · exact .program_bind (fun _ _ => rfl) fun p => (aside_require _ _).bind fun _ => aside_pure _
  · exact .program_bind (fun _ _ => rfl) fun p => (aside_require _ _).bind fun _ => aside_pure _

section

variable {hoistChild : ModuleId → Edit Unit} (hchild : ∀ child, LeavesAside (hoistChild child))

include hchild

theorem innerEndpoint_aside (child : ModuleId) (name : String) (e : Endpoint) :
    LeavesAside (innerEndpoint hoistChild child name e) := by
  unfold innerEndpoint
  refine .program_bind (fun _ _ => rfl) fun p => (aside_require _ _).bind fun id =>
    .ite ((hchild child).bind fun _ => ?_) ?_
  all_goals
    refine .program_bind (fun _ _ => rfl) fun q => (aside_require _ _).bind fun details =>
      .ite ?_ (aside_pure _)
    exact (aside_throw _).bind fun _ => aside_pure _

theorem hoistEndpoint_aside (id : ModuleId) (endpoint : EndpointId) :
    LeavesAside (hoistEndpoint hoistChild id endpoint) := by
  unfold hoistEndpoint
  refine .program_bind (fun _ _ => rfl) fun p => ?_
  dsimp only
  split
  · exact aside_throw _
  · exact aside_throw _
  · next first second deeper _ =>
    refine .ite ((aside_throw _).bind fun _ => ?_) ?_
    all_goals
      refine (pathStart_aside _ _ _).bind fun (node, child) => ?_
      refine .ite ((aside_pure _).bind fun inner => ?_)
        ((addIntermediate_aside _ _ _ _ _).bind fun inner => ?_)
      all_goals
        refine (innerEndpoint_aside hchild _ _ _).bind fun (details, annotations) => ?_
        exact (aside_modifyModule _ _).bind fun _ => aside_modifyModule _ _

/-- The endpoints of a graph are hoisted one by one, by induction on the bound on their number. -/
theorem hoistEach_aside (id : ModuleId) (n : Nat) : LeavesAside (hoistEach hoistChild id n) := by
  induction n with
  | zero => exact aside_pure _
  | succ n ih =>
      unfold hoistEach
      refine .program_bind (fun _ _ => rfl) fun p => ?_
      split
      · exact aside_pure _
      · exact (hoistEndpoint_aside hchild _ _).bind fun _ => ih.bind fun _ => aside_pure _

end

/-- Hoisting goes down into nested graphs, by induction on the bound on their nesting. -/
theorem hoistModule_aside (n : Nat) (stack : List ModuleId) (id : ModuleId) :
    LeavesAside (hoistModule n stack id) := by
  induction n generalizing stack id with
  | zero => exact .program_bind (fun _ _ => rfl) fun p => aside_throw _
  | succ n ih =>
      have hchild : ∀ child, LeavesAside (do let _ ← hoistModule n (id :: stack) child) :=
        fun child => (ih _ child).bind fun _ => aside_pure _
      unfold hoistModule
      refine .ite (.program_bind (fun _ _ => rfl) fun p => (aside_throw _).bind fun _ => ?_) ?_
      · exact .program_bind (fun _ _ => rfl) fun q => hoistEach_aside hchild _ _
      · exact .program_bind (fun _ _ => rfl) fun q => hoistEach_aside hchild _ _

theorem hoistEndpoints_aside (id : ModuleId) : LeavesAside (hoistEndpoints id) :=
  .program_bind (fun _ _ => rfl) fun _ => hoistModule_aside _ _ _

/-! ## Exposure -/

theorem mergeExposed_aside (graph : ModuleId) (node : NodeId) (e : Endpoint) :
    LeavesAside (mergeExposed graph node e) := by
  unfold mergeExposed
  split
  · exact aside_pure _
  · refine .program_bind (fun _ _ => rfl) fun p => ?_
    dsimp only
    split
    · exact (aside_modifyModule _ _).bind fun _ => aside_pure _
    · split
      · exact aside_throw _
      · exact aside_pure _
      · exact (aside_modifyModule _ _).bind fun _ => aside_pure _

/-- The endpoints of a child are exposed one by one. -/
theorem exposeEndpoints_aside (graph : ModuleId) (node : NodeId) (es : List Endpoint) :
    LeavesAside (exposeEndpoints graph node es) := by
  induction es with
  | nil => exact aside_pure _
  | cons e es ih =>
      unfold exposeEndpoints
      refine .program_bind (fun _ _ => rfl) fun p => .ite ((aside_throw _).bind fun _ => ?_) ?_
      all_goals
        refine (mergeExposed_aside _ _ _).bind fun changed => (aside_modifyModule _ _).bind fun _ =>
          ih.bind fun _ => aside_pure _

/-- The children of a graph are taken one by one. -/
theorem exposeNodes_aside (graph : ModuleId) (nodes : List NodeId) :
    LeavesAside (exposeNodes graph nodes) := by
  induction nodes with
  | nil => exact aside_pure _
  | cons node nodes ih =>
      unfold exposeNodes
      refine .program_bind (fun _ _ => rfl) fun p => (aside_require _ _).bind fun child => ?_
      exact (exposeEndpoints_aside _ _ _).bind fun changed => ih.bind fun _ => aside_pure _

/-! ## Linking -/

theorem linkGraph_aside (graph : ModuleId) : LeavesAside (linkGraph graph) := by
  unfold linkGraph
  refine (hoistEndpoints_aside graph).bind fun hoisted => ?_
  have hexpose : LeavesAside (exposeChildren graph) :=
    .program_bind (fun _ _ => rfl) fun p => exposeNodes_aside _ _
  exact hexpose.bind fun _ => aside_pure _

/-- The queue is worked off turn by turn, by induction on the bound on turns. -/
theorem linkQueue_aside (limit n : Nat) (queue : List ModuleId) :
    LeavesAside (linkQueue limit n queue) := by
  induction n generalizing queue with
  | zero =>
      cases queue with
      | nil => exact aside_pure _
      | cons graph queue => exact aside_throw _
  | succ n ih =>
      cases queue with
      | nil => exact aside_pure _
      | cons graph queue =>
          unfold linkQueue
          refine (linkGraph_aside graph).bind fun (changed, passed) => ?_
          exact .program_bind (fun _ _ => rfl) fun p => (ih _).bind fun _ => aside_pure _

/-- Linking leaves functions aside: with others in their place it comes to the same end, and those
are still there. -/
theorem linkEndpoints_aside : LeavesAside linkEndpoints := by
  unfold linkEndpoints
  refine .program_bind (fun _ _ => rfl) fun p => ?_
  split
  · exact aside_throw _
  · exact (linkQueue_aside _ _ _).bind fun passed => aside_forM (fun _ => aside_modifyModule _ _) _

end Link

end SignalGraph

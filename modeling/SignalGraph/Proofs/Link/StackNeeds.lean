import SignalGraph.Link.CallGraph
import SignalGraph.Proofs.Handle

/-!
# SignalGraph.Proofs.Link.StackNeeds

Lower bounds on the call stack.  Every variable that a function takes or declares counts
(`le_frameSize`), and every function counts, whether or not it is called
(`frameSize_le_maximumStack`).  Structs that are added to a program make no type smaller
(`packedSize_mono`).
-/

namespace SignalGraph

/-! ## Sums that stop -/

namespace Saturating

/-- Saturating sums grow with their terms. -/
theorem add_mono {a a' b b' : Nat} (ha : a ≤ a') (hb : b ≤ b') : add a b ≤ add a' b' := by
  unfold add
  omega

/-- Saturating products grow with their first factor. -/
theorem mul_mono {a a' : Nat} (h : a ≤ a') (n : Nat) : mul a n ≤ mul a' n := by
  have hmul := Nat.mul_le_mul_right n h
  unfold mul
  omega

/-- A saturating sum is at least its first term, if that is within the limit. -/
theorem le_add_right {a : Nat} (b : Nat) (h : a ≤ limit) : a ≤ add a b := by
  unfold add
  omega

/-- A saturating sum is at least its second term, if that is within the limit. -/
theorem le_add_left {b : Nat} (a : Nat) (h : b ≤ limit) : b ≤ add a b := by
  unfold add
  omega

section

variable {α : Type} {f g : α → Nat} {l : List α}

/-- A running sum stays within the limit. -/
theorem foldl_le {start : Nat} (h : start ≤ limit) :
    l.foldl (fun total a => add total (f a)) start ≤ limit := by
  induction l generalizing start with
  | nil => exact h
  | cons a l ih => exact ih (add_le _ _)

/-- A running sum grows with its terms. -/
theorem foldl_mono {start start' : Nat} (h : start ≤ start') (hfg : ∀ a ∈ l, f a ≤ g a) :
    l.foldl (fun total a => add total (f a)) start ≤
      l.foldl (fun total a => add total (g a)) start' := by
  induction l generalizing start start' with
  | nil => exact h
  | cons a l ih =>
      refine ih (add_mono h (hfg a List.mem_cons_self)) fun b hb => ?_
      exact hfg b (List.mem_cons_of_mem _ hb)

/-- A running sum never falls below where it starts. -/
theorem start_le_foldl {start : Nat} (h : start ≤ limit) :
    start ≤ l.foldl (fun total a => add total (f a)) start := by
  induction l generalizing start with
  | nil => exact Nat.le_refl _
  | cons a l ih => exact Nat.le_trans (le_add_right _ h) (ih (add_le _ _))

/-- No summand is greater than the sum. -/
theorem le_foldl {start : Nat} {a : α} (ha : a ∈ l) (hf : f a ≤ limit) :
    f a ≤ l.foldl (fun total a => add total (f a)) start := by
  induction l generalizing start with
  | nil => cases ha
  | cons b l ih =>
      rcases List.mem_cons.mp ha with rfl | ha
      · exact Nat.le_trans (le_add_left _ hf) (start_le_foldl (add_le _ _))
      · exact ih ha

end

end Saturating

/-! ## Sizes of types -/

section

variable {structs structs' : StructArena}

/-- The size of a type is within the limit if the sizes of structs are. -/
theorem Ty.sizeWith_le {size : StructId → Nat} (h : ∀ id, size id ≤ Saturating.limit) (t : Ty) :
    t.sizeWith size ≤ Saturating.limit := by
  have hword : 8 ≤ Saturating.limit := by decide
  induction t with
  | prim p =>
      have hprim : p.size ≤ 8 := by cases p <;> decide
      exact Nat.le_trans hprim hword
  | vector p n => exact Saturating.mul_le _ _
  | array e n _ =>
      cases n with
      | none => exact hword
      | some n => exact Saturating.mul_le _ _
  | struct id => exact h id
  | string | ref _ => exact hword
  | const t ih => exact ih

/-- The size of a type grows with the sizes of structs. -/
theorem Ty.sizeWith_mono {size size' : StructId → Nat} (h : ∀ id, size id ≤ size' id) (t : Ty) :
    t.sizeWith size ≤ t.sizeWith size' := by
  induction t with
  | prim _ | vector _ _ | string | ref _ => exact Nat.le_refl _
  | array e n ih =>
      cases n with
      | none => exact Nat.le_refl _
      | some n => exact Saturating.mul_mono ih n
  | struct id => exact h id
  | const t ih => exact ih

/-- The size of a struct is within the limit, at every depth. -/
theorem structSize_le (structs : StructArena) (n : Nat) (id : StructId) :
    structSize structs n id ≤ Saturating.limit := by
  cases n with
  | zero => exact Nat.zero_le _
  | succ n =>
      unfold structSize
      split
      · exact Nat.zero_le _
      · exact Saturating.foldl_le (Nat.zero_le _)

/-- The size of a struct grows with the depth and with the table. -/
theorem structSize_mono (h : structs.toList <+: structs'.toList) {n n' : Nat} (hn : n ≤ n')
    (id : StructId) : structSize structs n id ≤ structSize structs' n' id := by
  induction n generalizing n' id with
  | zero => exact Nat.zero_le _
  | succ n ih =>
      obtain ⟨k, rfl⟩ := Nat.exists_eq_succ_of_ne_zero (Nat.ne_zero_of_lt hn)
      unfold structSize
      cases hs : structs.get? id with
      | none => exact Nat.zero_le _
      | some s =>
          rw [Arena.get?_of_isPrefix h hs]
          refine Saturating.foldl_mono (Nat.le_refl _) fun m _ => Ty.sizeWith_mono (fun id => ?_) _
          exact ih (Nat.le_of_succ_le_succ hn) id

/-- The size of a type is within the limit. -/
theorem Ty.packedSize_le (structs : StructArena) (t : Ty) :
    t.packedSize structs ≤ Saturating.limit :=
  Ty.sizeWith_le (structSize_le structs _) t

/-- The size of a type grows with the table of structs. -/
theorem Ty.packedSize_mono (h : structs.toList <+: structs'.toList) (t : Ty) :
    t.packedSize structs ≤ t.packedSize structs' := by
  refine Ty.sizeWith_mono (structSize_mono h ?_) t
  have hlength := h.length_le
  rwa [Arena.length_toList, Arena.length_toList] at hlength

end

/-! ## Frames -/

namespace Program

variable {p : Program}

/-- The size of a frame is within the limit. -/
theorem frameSize_le (p : Program) (f : Function) : p.frameSize f ≤ Saturating.limit :=
  Saturating.foldl_le (Ty.packedSize_le _ _)

/-- A frame has room for each of its variables. -/
theorem le_frameSize {f : Function} {v : VariableId} (hv : v ∈ f.parameters ++ f.locals) :
    (p.variableAt v).ty.packedSize p.structs ≤ p.frameSize f :=
  Saturating.le_foldl (f := fun v => (p.variableAt v).ty.packedSize p.structs) hv
    (Ty.packedSize_le _ _)

/-- The greatest of some numbers is at least each of them. -/
theorem le_greatest {sizes : List Nat} {n : Nat} (hn : n ∈ sizes) : n ≤ greatest sizes := by
  have hstart : ∀ (l : List Nat) start, start ≤ l.foldl max start := by
    intro l
    induction l with
    | nil => exact fun _ => Nat.le_refl _
    | cons a l ih => exact fun start => Nat.le_trans (Nat.le_max_left _ _) (ih _)
  obtain ⟨l₁, l₂, rfl⟩ := List.append_of_mem hn
  rw [greatest, List.foldl_append, List.foldl_cons]
  exact Nat.le_trans (Nat.le_max_right _ _) (hstart l₂ _)

/-- A function needs its frame, whatever it calls. -/
theorem frameSize_le_maximumStack {f : FunctionId} {fn : Function}
    (hf : p.functions.get? f = some fn) {n : Nat} (hn : p.maximumStack? = some n) :
    p.frameSize fn ≤ n := by
  obtain ⟨k, hk⟩ := Nat.exists_eq_succ_of_ne_zero (Nat.ne_zero_of_lt (Arena.lt_size_of_get? hf))
  unfold maximumStack? at hn
  split at hn
  · cases hn
  · cases hn
    rw [hk]
    have hneed : Saturating.add (p.frameSize fn)
        (greatest ((p.callees f).map fun g => ((p.stackNeeds k)[g.idx]?).getD 0)) ∈
          p.stackNeeds k.succ :=
      List.mem_map.mpr ⟨(f, fn), Arena.mem_entries_iff.mpr hf, rfl⟩
    exact Nat.le_trans (Saturating.le_add_right _ (p.frameSize_le fn)) (le_greatest hneed)

end Program

end SignalGraph

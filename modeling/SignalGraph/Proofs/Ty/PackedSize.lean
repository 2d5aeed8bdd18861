import SignalGraph.Proofs.Ty.Containment

/-!
# SignalGraph.Proofs.Ty.PackedSize

Packed sizes are exact as far as 64 bits go.  `Ty.Measures` says that the recursion over a type and
the structs in it comes to an end with a number, for any way of adding and multiplying: with natural
numbers it is the size in bytes, with sums and products that stop it is what is computed.

If no struct contains itself, both recursions end for every type, each with one number, and the
second number is the first one or else the limit (`Ty.packedSize_exact`).  A part that is too large
stays so in every sum, and in every product but one with zero, which is zero either way.
-/

namespace SignalGraph

/-- Measuring a type comes to an end with a number. -/
inductive Ty.Measures (add mul : Nat → Nat → Nat) (structs : StructArena) : Ty → Nat → Prop
  | prim (p : Prim) : Measures add mul structs (.prim p) p.size
  | vector (p : Prim) (lanes : Nat) : Measures add mul structs (.vector p lanes) (mul p.size lanes)
  | array {e : Ty} {size : Nat} (length : Nat) (h : Measures add mul structs e size) :
      Measures add mul structs (.array e (some length)) (mul size length)
  | view (e : Ty) : Measures add mul structs (.array e none) 8
  | struct {id : StructId} {s : Structure} (size : Ty → Nat) (hs : structs.get? id = some s)
      (h : ∀ m ∈ s.members, Measures add mul structs m.ty (size m.ty)) :
      Measures add mul structs (.struct id)
        (s.members.foldl (fun total m => add total (size m.ty)) 0)
  | unknown {id : StructId} (hs : structs.get? id = none) : Measures add mul structs (.struct id) 0
  | string : Measures add mul structs .string 8
  | const {t : Ty} {size : Nat} (h : Measures add mul structs t size) :
      Measures add mul structs (.const t) size
  | ref (t : Ty) : Measures add mul structs (.ref t) 8

/-- The number of bytes that a value of a type takes. -/
abbrev Ty.Occupies (structs : StructArena) : Ty → Nat → Prop := Ty.Measures (· + ·) (· * ·) structs

variable {structs : StructArena}

/-! ## Measuring -/

section

variable {add mul : Nat → Nat → Nat}

/-- There is at most one number. -/
theorem Ty.Measures.unique {t : Ty} {m n : Nat} (h : t.Measures add mul structs m)
    (h' : t.Measures add mul structs n) : m = n := by
  induction h generalizing n with
  | array length _ ih =>
      cases h' with
      | array _ h' => rw [ih h']
  | struct size hs _ ih =>
      cases h' with
      | struct size' hs' h' =>
          cases hs.symm.trans hs'
          refine List.foldl_ext _ _ _ fun total m hm => ?_
          rw [ih m hm (h' m hm)]
      | unknown hs' => simp [hs] at hs'
  | unknown hs =>
      cases h' with
      | struct _ hs' => simp [hs] at hs'
      | unknown => rfl
  | const _ ih =>
      cases h' with
      | const h' => exact ih h'
  | prim | vector | view | string | ref =>
      cases h'
      rfl

/-- Measuring a type ends if it ends for the structs in it. -/
theorem Ty.exists_measures {t : Ty}
    (h : ∀ s ∈ t.contained, ∃ n, (Ty.struct s).Measures add mul structs n) :
    ∃ n, t.Measures add mul structs n := by
  induction t with
  | prim p => exact ⟨_, .prim p⟩
  | vector p lanes => exact ⟨_, .vector p lanes⟩
  | array e length ih =>
      cases length with
      | none => exact ⟨_, .view e⟩
      | some length =>
          obtain ⟨n, hn⟩ := ih h
          exact ⟨_, .array length hn⟩
  | struct id => exact h id (List.mem_singleton_self id)
  | string => exact ⟨_, .string⟩
  | const t ih =>
      obtain ⟨n, hn⟩ := ih h
      exact ⟨n, .const hn⟩
  | ref t => exact ⟨_, .ref t⟩

/-- If no struct contains itself, measuring a struct ends. -/
theorem StructArena.Acyclic.exists_measures (h : structs.Acyclic) (add mul : Nat → Nat → Nat)
    (id : StructId) : ∃ n, (Ty.struct id).Measures add mul structs n := by
  refine h.climb (motive := fun _ id => ∃ n, (Ty.struct id).Measures add mul structs n)
    (fun _ id hid => ⟨0, .unknown hid⟩) (fun _ id s hs ih => ?_) id
  have hmembers : ∀ m ∈ s.members, ∃ n, m.ty.Measures add mul structs n := fun m hm =>
    Ty.exists_measures fun t ht => ih t (List.mem_flatMap.mpr ⟨m, hm, ht⟩)
  classical
  let size (t : Ty) : Nat := if h : ∃ n, t.Measures add mul structs n then h.choose else 0
  refine ⟨_, .struct size hs fun m hm => ?_⟩
  have hsome := hmembers m hm
  simpa [size, hsome] using hsome.choose_spec

end

/-! ## What is computed -/

theorem Ty.measures_sizeWith {size : StructId → Nat} {t : Ty}
    (h : ∀ s ∈ t.contained,
      (Ty.struct s).Measures Saturating.add Saturating.mul structs (size s)) :
    t.Measures Saturating.add Saturating.mul structs (t.sizeWith size) := by
  induction t with
  | prim p => exact .prim p
  | vector p lanes => exact .vector p lanes
  | array e length ih =>
      cases length with
      | none => exact .view e
      | some length => exact .array length (ih h)
  | struct id => exact h id (List.mem_singleton_self id)
  | string => exact .string
  | const t ih => exact .const (ih h)
  | ref t => exact .ref t

/-- The packed size is what measuring with sums and products that stop ends with: no chain of
structs is longer than the bound of the recursion. -/
theorem Ty.measures_packedSize (h : structs.Acyclic) (t : Ty) :
    t.Measures Saturating.add Saturating.mul structs (t.packedSize structs) := by
  refine Ty.measures_sizeWith fun s _ => ?_
  refine h.climb
    (motive := fun n id => (Ty.struct id).Measures Saturating.add Saturating.mul structs
      (structSize structs n id)) (fun n id hid => ?_) (fun n id s hs ih => ?_) s
  · have hzero : structSize structs n id = 0 := by cases n <;> simp [structSize, hid]
    exact hzero ▸ .unknown hid
  · simp only [structSize, hs]
    refine .struct (fun t => t.sizeWith (structSize structs n)) hs fun m hm => ?_
    exact Ty.measures_sizeWith fun t ht => ih t (List.mem_flatMap.mpr ⟨m, hm, ht⟩)

/-! ## Sums and products that stop -/

namespace Saturating

theorem add_min (a b : Nat) : add (min a limit) (min b limit) = min (a + b) limit := by
  unfold add
  omega

/-- A factor that has stopped makes the product stop, unless the other factor is zero. -/
theorem mul_min (a n : Nat) : mul (min a limit) n = min (a * n) limit := by
  unfold mul
  rcases Nat.eq_zero_or_pos n with rfl | hn
  · simp
  · rcases Nat.le_total a limit with ha | ha
    · rw [Nat.min_eq_left ha]
    · have hlimit : limit ≤ limit * n := Nat.le_mul_of_pos_right _ hn
      have hmul : limit * n ≤ a * n := Nat.mul_le_mul_right n ha
      rw [Nat.min_eq_right ha]
      omega

theorem foldl_min {α : Type} (f : α → Nat) (l : List α) (start : Nat) :
    l.foldl (fun total a => add total (min (f a) limit)) (min start limit) =
      min (l.foldl (fun total a => total + f a) start) limit := by
  induction l generalizing start with
  | nil => rfl
  | cons a l ih => rw [List.foldl_cons, List.foldl_cons, add_min, ih]

end Saturating

/-- Where measuring with natural numbers ends, so does measuring with sums and products that stop,
with the same number or else the limit. -/
theorem Ty.Occupies.saturates {t : Ty} {bytes : Nat} (h : t.Occupies structs bytes) :
    t.Measures Saturating.add Saturating.mul structs (min bytes Saturating.limit) := by
  have hword : min 8 Saturating.limit = 8 := by decide
  induction h with
  | prim p =>
      have hprim : min p.size Saturating.limit = p.size := by cases p <;> decide
      rw [hprim]
      exact .prim p
  | vector p lanes => exact .vector p lanes
  | array length _ ih =>
      rw [← Saturating.mul_min]
      exact .array length ih
  | view e => exact hword ▸ .view e
  | struct size hs _ ih =>
      have hsum := Saturating.foldl_min (fun m : Member => size m.ty) (‹Structure›).members 0
      rw [← hsum]
      exact .struct (fun t => min (size t) Saturating.limit) hs ih
  | unknown hs => exact .unknown hs
  | string => exact hword ▸ .string
  | const _ ih => exact .const ih
  | ref t => exact hword ▸ .ref t

/-- If no struct contains itself, the packed size of every type is its size in bytes, or the
greatest 64-bit word if that is less.  Measuring the type ends with the packed size and with nothing
else, and there is exactly one number of bytes that values of the type take. -/
theorem Ty.packedSize_exact (h : structs.Acyclic) (t : Ty) :
    (∀ size, t.Measures Saturating.add Saturating.mul structs size ↔ size = t.packedSize structs) ∧
      ∃ bytes, (∀ n, t.Occupies structs n ↔ n = bytes) ∧
        t.packedSize structs = min bytes Saturating.limit := by
  have hpacked := Ty.measures_packedSize h t
  have hends : ∃ bytes, t.Occupies structs bytes :=
    Ty.exists_measures fun s _ => h.exists_measures (· + ·) (· * ·) s
  obtain ⟨bytes, hbytes⟩ := hends
  refine ⟨fun size => ⟨fun hsize => hsize.unique hpacked, fun heq => heq ▸ hpacked⟩, bytes,
    fun n => ⟨fun hn => hn.unique hbytes, fun heq => heq ▸ hbytes⟩, ?_⟩
  exact hpacked.unique (Ty.Occupies.saturates hbytes)

/-- The first struct holds more bytes than a word can count, the second one none of the first but a
reference to itself. -/
def hugeAndNone : StructArena := ⟨#[
  { name := "Huge"
    members := [⟨"gain", .float32⟩,
      ⟨"frames", .array (.array .float64 (some 4294967295)) (some 4294967295)⟩] },
  { name := "Few"
    members := [⟨"none", .array (.struct ⟨0⟩) (some 0)⟩, ⟨"next", .ref (.struct ⟨1⟩)⟩,
      ⟨"lanes", .const (.vector .int32 4)⟩, ⟨"later", .struct ⟨7⟩⟩] }]⟩

/-- What has stopped at the limit still counts nothing if there are none of it. -/
theorem Ty.packedSize_exact_few :
    hugeAndNone.Acyclic ∧ (Ty.struct ⟨0⟩).packedSize hugeAndNone = Saturating.limit ∧
      (Ty.struct ⟨1⟩).packedSize hugeAndNone = 24 ∧ (Ty.struct ⟨1⟩).Occupies hugeAndNone 24 := by
  have hacyclic : hugeAndNone.Acyclic := by decide
  have hsize : (Ty.struct ⟨1⟩).packedSize hugeAndNone = 24 := by decide
  refine ⟨hacyclic, by decide, hsize, ?_⟩
  obtain ⟨-, bytes, hbytes, hexact⟩ := Ty.packedSize_exact hacyclic (.struct ⟨1⟩)
  have hlimit : Saturating.limit = 18446744073709551615 := rfl
  exact (hbytes 24).mpr (by omega)

end SignalGraph

import Mathlib.Data.List.Nodup
import SignalGraph.Handle

/-!
# SignalGraph.Proofs.Handle

More about arenas: reading through changes, looking entries up, and the list of entries.
-/

namespace SignalGraph.Arena

variable {e : Entity} {α : Type}

/-! ## Reading -/

/-- A handle leads to an entry if its index is in range, and then to the one at that index. -/
theorem get?_eq_some_iff {a : Arena e α} {h : Handle e} {x : α} :
    a.get? h = some x ↔ ∃ hlt : h.idx < a.items.size, a.items[h.idx] = x := by
  simp only [get?]
  exact Array.getElem?_eq_some_iff

/-- Only handles in range lead anywhere. -/
theorem lt_size_of_get? {a : Arena e α} {h : Handle e} {x : α} (hx : a.get? h = some x) :
    h.idx < a.size := (get?_eq_some_iff.mp hx).1

/-- Only handles out of range lead nowhere. -/
theorem get?_eq_none_iff {a : Arena e α} {h : Handle e} : a.get? h = none ↔ a.size ≤ h.idx := by
  simp [get?, size]

/-- An entry that is found is what the total lookup gives. -/
theorem get_eq_of_get? [Inhabited α] {a : Arena e α} {h : Handle e} {x : α}
    (hx : a.get? h = some x) : a.get h = x := by
  simp [get, hx]

/-- In range the total lookup gives the entry, not the default. -/
theorem get?_eq_some_get [Inhabited α] {a : Arena e α} {h : Handle e} (hlt : h.idx < a.size) :
    a.get? h = some (a.get h) := by
  cases hx : a.get? h with
  | none => exact absurd hlt (Nat.not_lt.mpr (get?_eq_none_iff.mp hx))
  | some x => rw [get_eq_of_get? hx]

/-- Adding an entry makes one more handle lead somewhere and changes no other. -/
theorem get?_push (a : Arena e α) (x : α) (h : Handle e) :
    (a.push x).get? h = if h.idx = a.size then some x else a.get? h := by
  by_cases hh : h.idx = a.size
  · rw [if_pos hh]
    simp only [size] at hh
    simp [get?, push, hh]
  · rw [if_neg hh]
    simp only [size] at hh
    simp [get?, push, Array.getElem?_push, hh]

/-- An entry is still found when another one is added. -/
theorem get?_push_of_get? {a : Arena e α} {h : Handle e} {x : α} (y : α) (hx : a.get? h = some x) :
    (a.push y).get? h = some x := by
  rw [get?_push_of_lt a y h (lt_size_of_get? hx), hx]

/-- A change is seen under the handle that it was made at and under no other. -/
theorem get?_modify (a : Arena e α) (h k : Handle e) (f : α → α) :
    (a.modify h f).get? k = if h = k then (a.get? k).map f else a.get? k := by
  by_cases hk : h = k
  · subst hk
    rw [if_pos rfl, get?_modify_self]
  · rw [if_neg hk, get?_modify_of_ne]
    exact fun hidx => hk (by cases h; cases k; cases hidx; rfl)

/-- Tables that answer all handles alike are the same. -/
theorem ext_get? {a b : Arena e α} (h : ∀ k, a.get? k = b.get? k) : a = b := by
  cases a with
  | mk xs =>
      cases b with
      | mk ys =>
          have hxy : xs = ys := Array.ext_getElem? fun i => h ⟨i⟩
          rw [hxy]

/-- Changes that agree on the entry make the same table. -/
theorem modify_congr {a : Arena e α} {h : Handle e} {f g : α → α}
    (hfg : ∀ x, a.get? h = some x → f x = g x) : a.modify h f = a.modify h g := by
  apply ext_get?
  intro k
  rw [get?_modify, get?_modify]
  by_cases hk : h = k
  · subst hk
    cases hx : a.get? h with
    | none => simp
    | some x => simp [hfg x hx]
  · rw [if_neg hk, if_neg hk]

/-- A change that does nothing to the entry does nothing to the table. -/
theorem modify_eq_self {a : Arena e α} {h : Handle e} {f : α → α}
    (hf : ∀ x, a.get? h = some x → f x = x) : a.modify h f = a := by
  apply ext_get?
  intro k
  rw [get?_modify]
  by_cases hk : h = k
  · subst hk
    cases hx : a.get? h with
    | none => simp
    | some x => simp [hf x hx]
  · rw [if_neg hk]

/-- A view of the entries that a change does not show in. -/
theorem map_toList_modify {β : Type} {view : α → β} {f : α → α} (hf : ∀ x, view (f x) = view x)
    (a : Arena e α) (h : Handle e) : (a.modify h f).toList.map view = a.toList.map view := by
  apply List.ext_getElem?
  intro i
  simp only [toList, modify, List.getElem?_map, Array.getElem?_toList, Array.getElem?_modify]
  split
  · cases a.items[i]? <;> simp [hf]
  · rfl

/-! ## Entries -/

/-- The entries of a table are the pairs of a handle and what it leads to. -/
theorem mem_entries_iff {a : Arena e α} {h : Handle e} {x : α} :
    (h, x) ∈ a.entries ↔ a.get? h = some x := by
  simp only [entries, get?, List.mem_map, Prod.exists]
  constructor
  · rintro ⟨y, i, hmem, heq⟩
    obtain ⟨rfl, rfl⟩ := Prod.mk.injEq .. ▸ heq
    rw [List.mem_zipIdx_iff_getElem?] at hmem
    simpa using hmem
  · intro hx
    refine ⟨x, h.idx, ?_, rfl⟩
    rw [List.mem_zipIdx_iff_getElem?]
    simpa using hx

/-- Without their handles the entries are the list of the table. -/
theorem map_snd_entries (a : Arena e α) : a.entries.map (·.2) = a.toList := by
  simp [entries, toList, List.map_map, Function.comp_def]

/-- Without what they hold the entries are the handles of the table. -/
theorem map_fst_entries (a : Arena e α) : a.entries.map (·.1) = a.handles := by
  have hsnd : a.items.toList.zipIdx.map Prod.snd = List.range a.items.size := by
    simp [List.range_eq_range']
  rw [handles, ← hsnd, entries, List.map_map, List.map_map]
  rfl

/-- No handle is listed twice. -/
theorem nodup_handles (a : Arena e α) : a.handles.Nodup :=
  List.nodup_range.map fun _ _ h => Handle.mk.inj h

/-- Distinct handles of an arena are no more than it has entries. -/
theorem length_le_of_nodup {a : Arena e α} {l : List (Handle e)} (hnodup : l.Nodup)
    (hl : l ⊆ a.handles) : l.length ≤ a.size := by
  have hle := hnodup.length_le_of_subset hl
  rwa [handles, List.length_map, List.length_range] at hle

/-- What a table lists is what some handle leads to. -/
theorem mem_toList_iff {a : Arena e α} {x : α} : x ∈ a.toList ↔ ∃ h, a.get? h = some x := by
  rw [← map_snd_entries, List.mem_map]
  constructor
  · rintro ⟨⟨h, y⟩, hmem, rfl⟩
    exact ⟨h, mem_entries_iff.mp hmem⟩
  · rintro ⟨h, hx⟩
    exact ⟨(h, x), mem_entries_iff.mpr hx, rfl⟩

/-- Entries of distinct names are told apart by them. -/
theorem handle_eq_of_nodup {β : Type} {a : Arena e α} {f : α → β} (hnodup : (a.toList.map f).Nodup)
    {h k : Handle e} {x y : α} (hx : a.get? h = some x) (hy : a.get? k = some y)
    (heq : f x = f y) : h = k := by
  obtain ⟨hh, rfl⟩ := get?_eq_some_iff.mp hx
  obtain ⟨hk, rfl⟩ := get?_eq_some_iff.mp hy
  have hh' : h.idx < (a.toList.map f).length := by simpa [toList] using hh
  have hk' : k.idx < (a.toList.map f).length := by simpa [toList] using hk
  have helem : (a.toList.map f)[h.idx] = (a.toList.map f)[k.idx] := by simpa [toList] using heq
  have hidx : h.idx = k.idx := hnodup.getElem_inj_iff.mp helem
  cases h
  cases k
  exact congrArg _ hidx

/-- The handles of a table are those in range. -/
theorem mem_handles_iff {a : Arena e α} {h : Handle e} : h ∈ a.handles ↔ h.idx < a.size := by
  simp only [handles, List.mem_map, List.mem_range, size]
  constructor
  · rintro ⟨i, hi, rfl⟩
    exact hi
  · exact fun hi => ⟨h.idx, hi, rfl⟩

/-- The handles of the entries with a property. -/
theorem map_fst_filter_entries (a : Arena e α) (p : α → Bool) :
    (a.entries.filter fun x => p x.2).map (·.1) =
      a.handles.filter fun h => (a.get? h).any p := by
  rw [← map_fst_entries, List.filter_map]
  congr 1
  apply List.filter_congr
  intro (h, x) hmem
  simp [mem_entries_iff.mp hmem]

/-! ## Looking up -/

/-- Looking for an entry in the list of all entries. -/
theorem find?_eq_findIdx? (a : Arena e α) (p : α → Bool) :
    a.find? p = (a.toList.findIdx? p).map (⟨·⟩) := by
  rw [find?, toList, ← List.findIdx?_toArray, Array.toArray_toList]

/-- A search finds the first entry that satisfies the condition. -/
theorem find?_eq_some_iff {a : Arena e α} {p : α → Bool} {h : Handle e} :
    a.find? p = some h ↔ ∃ x, a.get? h = some x ∧ p x ∧
      ∀ k y, k.idx < h.idx → a.get? k = some y → ¬ p y := by
  simp only [find?, Option.map_eq_some_iff, Array.findIdx?_eq_some_iff_getElem]
  constructor
  · rintro ⟨i, ⟨hi, hp, hbefore⟩, rfl⟩
    refine ⟨a.items[i], get?_eq_some_iff.mpr ⟨hi, rfl⟩, hp, ?_⟩
    intro k y hk hy
    obtain ⟨hlt, rfl⟩ := get?_eq_some_iff.mp hy
    exact hbefore k.idx hk
  · rintro ⟨x, hx, hp, hbefore⟩
    obtain ⟨hlt, rfl⟩ := get?_eq_some_iff.mp hx
    refine ⟨h.idx, ⟨hlt, hp, ?_⟩, rfl⟩
    intro j hj
    exact hbefore ⟨j⟩ _ hj (get?_eq_some_iff.mpr ⟨Nat.lt_trans hj hlt, rfl⟩)

/-- A search fails exactly if no entry satisfies the condition. -/
theorem find?_eq_none_iff {a : Arena e α} {p : α → Bool} :
    a.find? p = none ↔ ∀ h x, a.get? h = some x → ¬ p x := by
  simp only [find?, Option.map_eq_none_iff, Array.findIdx?_eq_none_iff]
  constructor
  · intro hall h x hx
    obtain ⟨hlt, rfl⟩ := get?_eq_some_iff.mp hx
    simp [hall _ (Array.getElem_mem hlt)]
  · intro hall x hx
    obtain ⟨i, hi, rfl⟩ := Array.mem_iff_getElem.mp hx
    simpa using hall ⟨i⟩ _ (get?_eq_some_iff.mpr ⟨hi, rfl⟩)

/-! ## Arenas of the same size -/

section Congr

variable {β : Type} {a : Arena e α} {b : Arena e β} {p : α → Bool} {q : β → Bool}
  (hsize : a.size = b.size) (hpq : ∀ h x y, a.get? h = some x → b.get? h = some y → p x = q y)

include hsize hpq

/-- Tables that agree entry by entry on a condition agree on it at every handle. -/
theorem any_get?_congr (h : Handle e) : (a.get? h).any p = (b.get? h).any q := by
  cases ha : a.get? h with
  | none =>
      have hb : b.get? h = none := get?_eq_none_iff.mpr (hsize ▸ get?_eq_none_iff.mp ha)
      rw [hb]
      rfl
  | some x =>
      cases hb : b.get? h with
      | none =>
          have := lt_size_of_get? ha
          have := get?_eq_none_iff.mp hb
          omega
      | some y => simpa using hpq h x y ha hb

/-- Tables that agree entry by entry on a condition have the same handles of entries that satisfy
it. -/
theorem map_fst_filter_entries_congr :
    (a.entries.filter fun x => p x.2).map (·.1) =
      (b.entries.filter fun y => q y.2).map (·.1) := by
  rw [map_fst_filter_entries, map_fst_filter_entries]
  have hhandles : a.handles = b.handles := by
    simp only [size] at hsize
    simp only [handles, hsize]
  rw [hhandles]
  exact List.filter_congr fun h _ => any_get?_congr hsize hpq h

/-- Tables that agree entry by entry on a condition find the same handle. -/
theorem find?_congr : a.find? p = b.find? q := by
  have hany := any_get?_congr hsize hpq
  -- both sides are the first handle whose entry has the property
  have hfind : ∀ {γ : Type} (c : Arena e γ) (r : γ → Bool) (h : Handle e),
      c.find? r = some h ↔ (c.get? h).any r ∧ ∀ k, k.idx < h.idx → ¬ (c.get? k).any r := by
    intro γ c r h
    rw [find?_eq_some_iff]
    constructor
    · rintro ⟨x, hx, hr, hbefore⟩
      refine ⟨by simpa [hx] using hr, ?_⟩
      intro k hk hany
      obtain ⟨y, hy, hry⟩ := (Option.any_eq_true _ _).mp hany
      exact hbefore k y hk hy hry
    · rintro ⟨hany, hbefore⟩
      obtain ⟨x, hx, hr⟩ := (Option.any_eq_true _ _).mp hany
      refine ⟨x, hx, hr, ?_⟩
      intro k y hk hy hry
      exact hbefore k hk (by simpa [hy] using hry)
  apply Option.ext
  intro h
  rw [hfind, hfind]
  simp only [hany]

end Congr

/-- Changing the entry that was just added is the same as adding the changed one. -/
theorem modify_push_next (a : Arena e α) (x : α) (f : α → α) :
    (a.push x).modify a.next f = a.push (f x) := by
  refine ext_get? fun k => ?_
  rw [get?_modify, get?_push, get?_push]
  by_cases hk : a.next = k
  · have hidx : k.idx = a.size := by rw [← hk]; rfl
    rw [if_pos hk, if_pos hidx, if_pos hidx]
    rfl
  · have hidx : k.idx ≠ a.size := fun h => hk (by cases k; exact congrArg Handle.mk h.symm)
    rw [if_neg hk, if_neg hidx, if_neg hidx]

/-! ## Arenas and lists -/

/-- The arena with the given entries. -/
def ofList (l : List α) : Arena e α := ⟨l.toArray⟩

@[simp] theorem toList_ofList (l : List α) : (ofList l : Arena e α).toList = l := rfl

@[simp] theorem ofList_toList (a : Arena e α) : ofList a.toList = a := rfl

@[simp] theorem ofList_nil : (ofList [] : Arena e α) = ∅ := rfl

/-- Adding an entry at the end of a list is adding it to the table. -/
theorem ofList_concat (l : List α) (x : α) :
    (ofList (l ++ [x]) : Arena e α) = (ofList l).push x := by
  simp [ofList, push]

/-- Entries stand at the places that their handles name. -/
theorem handle_of_entries_split {a : Arena e α} {done rest : List (Handle e × α)} {h : Handle e}
    {x : α} (hsplit : a.entries = done ++ (h, x) :: rest) : h = ⟨done.length⟩ := by
  have hget : a.handles[done.length]? = some h := by
    rw [← map_fst_entries, hsplit]
    simp
  simp only [handles, List.getElem?_map, Option.map_eq_some_iff] at hget
  obtain ⟨i, hi, rfl⟩ := hget
  obtain ⟨_, hi⟩ := List.getElem?_eq_some_iff.mp hi
  rw [← hi, List.getElem_range]

/-- Looking up all handles in order lists the table. -/
theorem map_get_handles [Inhabited α] (a : Arena e α) : a.handles.map a.get = a.toList := by
  rw [← map_fst_entries, ← map_snd_entries, List.map_map]
  refine List.map_congr_left fun x hx => ?_
  exact get_eq_of_get? (mem_entries_iff.mp hx)

/-- What a handle in range leads to is in the list of the table. -/
theorem get_mem_toList [Inhabited α] {a : Arena e α} {h : Handle e} (hh : h ∈ a.handles) :
    a.get h ∈ a.toList := by
  rw [← map_get_handles]
  exact List.mem_map_of_mem hh

/-! ## Arenas that begin alike -/

/-- A handle leads to the list element at its index. -/
theorem get?_eq_getElem? (a : Arena e α) (h : Handle e) : a.get? h = a.toList[h.idx]? := by
  simp [get?, toList]

theorem length_toList (a : Arena e α) : a.toList.length = a.size := by
  simp [toList, size]

/-- A table that continues another one has all its entries under the same handles. -/
theorem get?_of_isPrefix {a b : Arena e α} (hab : a.toList <+: b.toList) {h : Handle e} {x : α}
    (hx : a.get? h = some x) : b.get? h = some x := by
  rw [get?_eq_getElem?] at hx ⊢
  obtain ⟨more, hmore⟩ := hab
  rw [← hmore, List.getElem?_append_left, hx]
  exact (List.getElem?_eq_some_iff.mp hx).1

/-- What is found first in a table is found first in every table that continues it. -/
theorem find?_of_isPrefix {a b : Arena e α} (hab : a.toList <+: b.toList) {p : α → Bool}
    {h : Handle e} (hh : a.find? p = some h) : b.find? p = some h := by
  obtain ⟨x, hx, hp, hbefore⟩ := find?_eq_some_iff.mp hh
  refine find?_eq_some_iff.mpr ⟨x, get?_of_isPrefix hab hx, hp, ?_⟩
  intro k y hk hy
  -- whatever stands before the entry stands there in both
  have hlt : k.idx < a.items.size := Nat.lt_trans hk (lt_size_of_get? hx)
  have hold : a.get? k = some a.items[k.idx] := get?_eq_some_iff.mpr ⟨hlt, rfl⟩
  cases hy.symm.trans (get?_of_isPrefix hab hold)
  exact hbefore k _ hk hold

/-! ## Fresh names -/

/-- Decimal numerals are different for different numbers. -/
theorem eq_of_toString_eq {i j : Nat} (h : toString i = toString j) : i = j := by
  have hdigits : Nat.toDigits 10 i = Nat.toDigits 10 j := by
    rw [← Nat.toList_repr, ← Nat.toList_repr]
    exact congrArg String.toList h
  have hvalue := congrArg (Nat.ofDigitChars 10 · 0) hdigits
  simpa only [Nat.ofDigitChars_toDigits (by decide : 1 < 10) (by decide : 10 ≤ 10)] using hvalue

/-- Of more names than there are entries, one is free. -/
theorem exists_free_name {a : Arena e α} (view : α → String) {names : List String}
    (hnames : names.Nodup) (hlen : a.size < names.length) :
    ∃ name, names.find? (fun name => (a.find? (view · == name)).isNone) = some name := by
  by_contra hnone
  have hnone := Option.eq_none_iff_forall_ne_some.mpr fun name h => hnone ⟨name, h⟩
  have hsub : names ⊆ a.toList.map view := by
    intro name hname
    have hsome := List.find?_eq_none.mp hnone name hname
    obtain ⟨h, hh⟩ := Option.ne_none_iff_exists'.mp (by simpa using hsome)
    obtain ⟨x, hx, hmatch, -⟩ := find?_eq_some_iff.mp hh
    exact List.mem_map.mpr ⟨x, mem_toList_iff.mpr ⟨h, hx⟩, eq_of_beq hmatch⟩
  have hle := hnames.length_le_of_subset hsub
  rw [List.length_map, length_toList] at hle
  omega

end SignalGraph.Arena

namespace SignalGraph.Interner

variable {e : Entity} {α : Type} [BEq α] [LawfulBEq α]

/-! ## Tables of distinct entries -/

/-- What an interner finds for a value leads to that value. -/
theorem get?_of_find? {t : Interner e α} {x : α} {h : Handle e} (hh : t.find? x = some h) :
    t.get? h = some x := by
  obtain ⟨y, hy, hxy, -⟩ := Arena.find?_eq_some_iff.mp hh
  cases eq_of_beq hxy
  exact hy

/-- An entry is found where it was added. -/
theorem find?_intern (t : Interner e α) (x : α) : (t.intern x).2.find? x = some (t.intern x).1 := by
  unfold intern
  split
  · next h hh => exact hh
  · next hnone =>
    refine Arena.find?_eq_some_iff.mpr ⟨x, Arena.get?_push_next _ _, beq_self_eq_true x, ?_⟩
    intro k y hk hy
    have hold : t.entries.get? k = some y := (Arena.get?_push_of_lt _ _ _ hk).symm.trans hy
    exact Arena.find?_eq_none_iff.mp hnone k y hold

/-- The handle that interning answers leads to the value. -/
theorem get?_intern (t : Interner e α) (x : α) : (t.intern x).2.get? (t.intern x).1 = some x :=
  get?_of_find? (find?_intern t x)

omit [LawfulBEq α] in
/-- Interning moves nothing: it leaves the table alone or adds to its end. -/
theorem prefix_intern (t : Interner e α) (x : α) : t.toList <+: (t.intern x).2.toList := by
  unfold intern
  split
  · exact List.prefix_refl _
  · simp [toList]

/-- Interning keeps the values of a table distinct. -/
theorem nodup_intern {t : Interner e α} (h : t.toList.Nodup) (x : α) :
    (t.intern x).2.toList.Nodup := by
  unfold intern
  split
  · exact h
  · next hnone =>
    simp only [toList, Arena.toList_push]
    refine List.nodup_append.mpr ⟨h, List.nodup_singleton _, ?_⟩
    rintro a ha b hb rfl
    rw [List.mem_singleton.mp hb] at ha
    obtain ⟨k, hk⟩ := Arena.mem_toList_iff.mp ha
    exact Arena.find?_eq_none_iff.mp hnone k x hk (beq_self_eq_true x)

/-- Distinct entries keep their handles as the table grows. -/
theorem find?_of_isPrefix {t u : Interner e α} (htu : t.toList <+: u.toList) (ht : t.toList.Nodup)
    {h : Handle e} {x : α} (hx : t.get? h = some x) : u.find? x = some h := by
  refine Arena.find?_of_isPrefix htu (Arena.find?_eq_some_iff.mpr ⟨x, hx, beq_self_eq_true x, ?_⟩)
  intro k y hk hy hyx
  cases eq_of_beq hyx
  have hnodup : (t.entries.toList.map id).Nodup := by
    rw [List.map_id]
    exact ht
  rw [Arena.handle_eq_of_nodup hnodup hy hx rfl] at hk
  exact Nat.lt_irrefl _ hk

end SignalGraph.Interner

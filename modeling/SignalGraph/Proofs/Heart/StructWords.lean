import SignalGraph.Proofs.Heart.Groups
import SignalGraph.Proofs.Heart.Termination

/-!
# SignalGraph.Proofs.Heart.StructWords

The words after `struct` in a module body (`structWords`), which are what the first pass looks for,
and the items that the second pass reads.  An item is a run of tokens that mark no boundary, up to a
semicolon or up to a group in braces (`IsItem`), so the words of a body are those of its items, one
after another (`structWords_flatten`).  An item that declares a struct has one word, the name
(`structWords_of_declaredStruct?`).
-/

namespace SignalGraph.Heart

/-! ## Words -/

/-- The words after `struct` in a module body, up to the brace that closes the body; what stands in
inner braces does not count.  The flag says whether `struct` has just been passed. -/
def structWords : Bool → Nat → List Token → List String
  | _, _, [] => []
  | named, depth, t :: rest =>
    match t.kind with
    | .leftBrace => structWords false (depth + 1) rest
    | .rightBrace => if depth = 0 then [] else structWords false (depth - 1) rest
    | .identifier =>
      if named then t.text :: structWords false depth rest
      else structWords (t.text = "struct" && depth = 0) depth rest
    | _ => structWords false depth rest

section

variable {t u : Token} {ts us : List Token} {depth : Nat}

theorem structWords_open (h : t.kind = .leftBrace) (named : Bool) (rest : List Token) :
    structWords named depth (t :: rest) = structWords false (depth + 1) rest := by
  rw [structWords, h]

theorem structWords_close (h : t.kind = .rightBrace) (rest : List Token) :
    structWords false 0 (t :: rest) = [] := by
  rw [structWords, h]
  rfl

theorem structWords_struct (h : t.kind = .identifier ∧ t.text = "struct")
    (hu : u.kind = .identifier) (rest : List Token) :
    structWords false 0 (t :: u :: rest) = u.text :: structWords false 0 rest := by
  rw [structWords, h.1]
  simp [h.2, structWords, hu]

/-- A token that neither is a brace nor starts a declaration. -/
theorem structWords_other (hopen : t.kind ≠ .leftBrace) (hclose : t.kind ≠ .rightBrace)
    (hstruct : ¬(t.kind = .identifier ∧ t.text = "struct" ∧ depth = 0)) (rest : List Token) :
    structWords false depth (t :: rest) = structWords false depth rest := by
  rw [structWords]
  split
  · contradiction
  · contradiction
  · next hkind =>
    have hword : (decide (t.text = "struct") && decide (depth = 0)) = false := by
      simpa [hkind] using hstruct
    rw [if_neg (by simp), hword]
  · rfl

/-- A group in braces has no words. -/
theorem structWords_group (depth : Nat) (l : List Token) :
    structWords false (depth + 1) l =
      structWords false 0 (afterGroup .leftBrace .rightBrace depth l) := by
  induction l generalizing depth with
  | nil => rfl
  | cons t rest ih =>
      rw [afterGroup]
      split
      · next hopen => rw [structWords_open hopen, ih]
      · next hopen =>
        split
        · next hclose =>
          cases depth with
          | zero => simp [structWords, hclose]
          | succ depth => simp [structWords, hclose, ih]
        · next hclose => rw [structWords_other hopen hclose (by simp), ih]

/-- Up to a token that is no word. -/
theorem structWords_inline (hts : ∀ t ∈ ts, t.kind.isInline) (hu : u.kind ≠ .identifier)
    (named : Bool) (rest : List Token) :
    structWords named 0 (ts ++ u :: rest) =
      structWords named 0 ts ++ structWords false 0 (u :: rest) := by
  induction ts generalizing named with
  | nil =>
      rw [List.nil_append, structWords, structWords]
      split <;> simp_all [structWords]
  | cons t ts ih =>
      have ht := hts t List.mem_cons_self
      have ih := ih fun v hv => hts v (List.mem_cons_of_mem _ hv)
      rw [List.cons_append, structWords, structWords]
      split
      · next hkind => simp [hkind, TokenKind.isInline] at ht
      · next hkind => simp [hkind, TokenKind.isInline] at ht
      · split
        · rw [ih, List.cons_append]
        · rw [ih]
      · rw [ih]

end

/-! ## Items -/

/-- Tokens that mark no boundary, and after them a semicolon or a group in braces. -/
def IsItem (ts : List Token) : Prop :=
  ∃ us t vs, ts = us ++ t :: vs ∧ (∀ u ∈ us, u.kind.isInline) ∧
    (t.kind = .semicolon ∧ vs = [] ∨
      t.kind = .leftBrace ∧ ∀ rest, afterGroup .leftBrace .rightBrace 0 (vs ++ rest) = rest)

/-- The name of the struct that an item declares, if it does. -/
def declaredStruct? : List Token → Option String
  | t :: name :: _ => if t.text = "struct" then some name.text else none
  | _ => none

namespace IsItem

variable {ts : List Token}

/-- The words of an item end with it. -/
theorem structWords_append (h : IsItem ts) (rest : List Token) :
    structWords false 0 (ts ++ rest) = structWords false 0 ts ++ structWords false 0 rest := by
  obtain ⟨us, t, vs, rfl, hus, ⟨ht, rfl⟩ | ⟨ht, hvs⟩⟩ := h
  · rw [List.append_assoc, List.cons_append, structWords_inline hus (by simp [ht]),
      structWords_inline hus (by simp [ht])]
    simp [structWords, ht]
  · have hgroup : ∀ rest, structWords false 0 (t :: (vs ++ rest)) = structWords false 0 rest := by
      intro rest
      rw [structWords_open ht, structWords_group, hvs]
    have hempty := hgroup []
    rw [List.append_nil] at hempty
    rw [List.append_assoc, List.cons_append, structWords_inline hus (by simp [ht]), hgroup,
      structWords_inline hus (by simp [ht]), hempty]
    simp [structWords]

end IsItem

/-- The words of a body are those of its items. -/
theorem structWords_flatten {items : List (List Token)} (hitems : ∀ ts ∈ items, IsItem ts)
    {t : Token} (ht : t.kind = .rightBrace) (rest : List Token) :
    structWords false 0 (items.flatten ++ t :: rest) = items.flatMap (structWords false 0) := by
  induction items with
  | nil => exact structWords_close ht rest
  | cons ts items ih =>
      rw [List.flatten_cons, List.append_assoc, (hitems ts List.mem_cons_self).structWords_append,
        ih fun us hus => hitems us (List.mem_cons_of_mem _ hus), List.flatMap_cons]

/-- If every declaration has its name as its only word, then the words are the names of the declared
structs exactly if no other item has a word. -/
theorem flatMap_words_eq_iff {items : List (List Token)}
    (hdeclared : ∀ ts ∈ items, ∀ name, declaredStruct? ts = some name →
      structWords false 0 ts = [name]) :
    items.flatMap (structWords false 0) = items.filterMap declaredStruct? ↔
      ∀ ts ∈ items, declaredStruct? ts = none → structWords false 0 ts = [] := by
  -- there are at least as many words as declarations, so a further word makes the lists differ
  have hle : ∀ l : List (List Token), l ⊆ items →
      (l.filterMap declaredStruct?).length ≤ (l.flatMap (structWords false 0)).length := by
    intro l hl
    induction l with
    | nil => exact Nat.le_refl 0
    | cons ts l ih =>
        have ih := ih (List.subset_of_cons_subset hl)
        rw [List.flatMap_cons, List.length_append]
        cases hts : declaredStruct? ts with
        | none => rw [List.filterMap_cons_none hts]; omega
        | some name =>
            rw [List.filterMap_cons_some hts, hdeclared ts (hl List.mem_cons_self) name hts]
            simp only [List.length_cons, List.length_nil]
            omega
  induction items with
  | nil => simp
  | cons ts items ih =>
      have ih := ih (fun us hus => hdeclared us (List.mem_cons_of_mem _ hus))
        fun l hl => hle l (List.subset_cons_of_subset _ hl)
      rw [List.flatMap_cons, List.forall_mem_cons]
      cases hts : declaredStruct? ts with
      | some name =>
          rw [List.filterMap_cons_some hts, hdeclared ts List.mem_cons_self name hts]
          simpa using ih
      | none =>
          rw [List.filterMap_cons_none hts]
          constructor
          · intro heq
            have hlength := congrArg List.length heq
            rw [List.length_append] at hlength
            have hitems := hle items (List.subset_cons_self _ _)
            have hwords : structWords false 0 ts = [] := List.length_eq_zero_iff.mp (by omega)
            refine ⟨fun _ => hwords, ih.mp ?_⟩
            rwa [hwords, List.nil_append] at heq
          · rintro ⟨hwords, hitems⟩
            rw [hwords rfl, List.nil_append]
            exact ih.mpr hitems

namespace Parser

variable {α β : Type} {x y : Parser α} {f : α → Parser β} {s s' : ParserState} {m : ModuleId}

/-! ## Sentences -/

/-- The parser passes tokens that mark no boundary and then a semicolon.  This is found from its
parts. -/
class Sentence (x : Parser α) : Prop where
  passed : ∀ s a s', s.cursor.Ended → x.run s = .ok (a, s') →
    ∃ ts t, s.cursor.Passed (ts ++ [t]) s'.cursor ∧ (∀ u ∈ ts, u.kind.isInline) ∧
      t.kind = .semicolon

theorem sentence_bind (hx : Inline x) (hf : ∀ a, Sentence (f a)) : Sentence (x >>= f) where
  passed s b s'' hs h := by
    obtain ⟨a, s', ha, hb⟩ := run_bind_eq_ok.mp h
    obtain ⟨us, hus, hinline⟩ := hx.inlineAt s a s' ha
    obtain ⟨-, -, -, hended⟩ := (hx.inlineAt s).takesAt hs a s' ha
    obtain ⟨ts, t, hts, hinline', ht⟩ := (hf a).passed s' b s'' hended hb
    refine ⟨us ++ ts, t, by simpa using hus.trans hts, fun u hu => ?_, ht⟩
    exact (List.mem_append.mp hu).elim (hinline u) (hinline' u)

instance [hx : Inline x] [hf : ∀ a, Sentence (f a)] : Sentence (x >>= f) := sentence_bind hx hf

instance {b : Prop} [Decidable b] [hx : Sentence x] [hy : Sentence y] :
    Sentence (if b then x else y) := by
  split
  · exact hx
  · exact hy

instance {f : Token → Parser β} [hf : ∀ t, Unmoved (f t)] : Sentence (expect .semicolon >>= f) where
  passed s b s'' hs h := by
    obtain ⟨t, s', ht, hb⟩ := run_bind_eq_ok.mp h
    obtain ⟨hkind, -, rfl⟩ := run_expect_eq_ok ht
    refine ⟨[], s.cursor.current, ?_, by simp, hkind⟩
    rw [(hf t).cursor _ b s'' hb]
    exact (hs.passed_next (by simp [hkind])).1

instance (id : StructId) : Sentence (structMember id) := by unfold structMember; infer_instance

instance : Sentence (endpointItem m) := by
  unfold endpointItem
  refine sentence_bind inferInstance fun first => ?_
  extract_lets jp
  have hjp : ∀ direction, Sentence (jp direction) := by
    intro direction
    unfold jp
    refine sentence_bind inferInstance fun name => ?_
    extract_lets jp'
    have hjp' : ∀ details, Sentence (jp' details) := by
      intro details
      unfold jp'
      infer_instance
    clear_value jp'
    infer_instance
  clear_value jp
  infer_instance

instance : Sentence (parameterItem m) := by unfold parameterItem; infer_instance

instance : Sentence (stateItem m) := by
  unfold stateItem
  refine sentence_bind inferInstance fun first => ?_
  extract_lets jp
  have hjp : ∀ role, Sentence (jp role) := by
    intro role
    unfold jp
    refine sentence_bind inferInstance fun t => sentence_bind inferInstance fun name => ?_
    extract_lets jp'
    have hjp' : ∀ initial, Sentence (jp' initial) := by
      intro initial
      unfold jp'
      infer_instance
    clear_value jp'
    infer_instance
  clear_value jp
  infer_instance

instance : Sentence (nodeItem m) := by
  unfold nodeItem
  refine sentence_bind inferInstance fun first => sentence_bind inferInstance fun _ => ?_
  refine sentence_bind inferInstance fun name => sentence_bind inferInstance fun _ => ?_
  refine sentence_bind inferInstance fun source => sentence_bind inferInstance fun size => ?_
  extract_lets jp
  have hjp : ∀ values, Sentence (jp values) := by
    intro values
    unfold jp
    infer_instance
  clear_value jp
  infer_instance

instance : Sentence (connectionItem m) := by
  unfold connectionItem
  refine sentence_bind inferInstance fun first => sentence_bind inferInstance fun _ => ?_
  refine sentence_bind inferInstance fun kind => sentence_bind inferInstance fun source => ?_
  refine sentence_bind inferInstance fun _ => ?_
  extract_lets jp
  have hjp : ∀ delay, Sentence (jp delay) := by
    intro delay
    unfold jp
    infer_instance
  clear_value jp
  infer_instance

/-! ## Items that are read -/

variable {a : Unit}

/-- Sentences up to a closing brace stand inside a group. -/
theorem afterGroup_of_run_untilClosed {x : Parser Unit} [hx : Sentence x] [htakes : Takes 0 x]
    (hs : s.cursor.Ended) (h : (untilClosed .rightBrace x).run s = .ok (a, s')) :
    ∃ ts, s.cursor.Passed ts s'.cursor ∧ ∀ rest, afterGroup .leftBrace .rightBrace 0 (ts ++ rest) =
      rest := by
  -- tokens inside a sentence are no braces, so the group goes on over them
  have hinline : ∀ us : List Token, (∀ u ∈ us, u.kind.isInline) → ∀ rest,
      afterGroup .leftBrace .rightBrace 0 (us ++ rest) =
        afterGroup .leftBrace .rightBrace 0 rest := by
    intro us hus rest
    induction us with
    | nil => rfl
    | cons u us ih =>
        have hu := hus u List.mem_cons_self
        have hopen : u.kind ≠ .leftBrace := by rintro hkind; simp [hkind, TokenKind.isInline] at hu
        have hclose : u.kind ≠ .rightBrace := by
          rintro hkind; simp [hkind, TokenKind.isInline] at hu
        rw [List.cons_append, afterGroup, if_neg hopen, if_neg hclose,
          ih fun v hv => hus v (List.mem_cons_of_mem _ hv)]
  have hgo : ∀ n s, s.cursor.Ended → (untilClosed.go .rightBrace x n).run s = .ok (a, s') →
      ∃ ts, s.cursor.Passed ts s'.cursor ∧
        ∀ rest, afterGroup .leftBrace .rightBrace 0 (ts ++ rest) = rest := by
    intro n
    induction n with
    | zero => exact fun s _ h => by cases h
    | succ n ih =>
        intro s hs h
        rw [untilClosed.go, run_eat_bind] at h
        split at h
        · next hclose =>
          obtain ⟨-, rfl⟩ := run_pure_eq_ok.mp h
          refine ⟨_, (hs.passed_next (by simp [hclose])).1, fun rest => ?_⟩
          simp [afterGroup, hclose]
        · obtain ⟨_, s₁, hmember, h⟩ := run_bind_eq_ok.mp h
          obtain ⟨us, t, hus, hinline', ht⟩ := hx.passed s _ s₁ hs hmember
          obtain ⟨-, -, -, hended⟩ := htakes.takesAt s hs _ s₁ hmember
          obtain ⟨ts, hts, hrest⟩ := ih s₁ hended h
          refine ⟨_, hus.trans hts, fun rest => ?_⟩
          rw [List.append_assoc, List.append_assoc, hinline us hinline', List.singleton_append,
            afterGroup, if_neg (by simp [ht]), if_neg (by simp [ht]), hrest]
  rw [untilClosed, run_bound_bind] at h
  exact hgo _ s hs h

/-- A struct is an item whose only word is its name. -/
theorem isItem_of_run_structItem (hs : s.cursor.Ended) (h : (structItem m).run s = .ok (a, s')) :
    ∃ ts, s.cursor.Passed ts s'.cursor ∧ IsItem ts ∧
      ∃ name, declaredStruct? ts = some name ∧ structWords false 0 ts = [name] := by
  rw [structItem_eq] at h
  obtain ⟨_, s₁, hword, h⟩ := run_bind_eq_ok.mp h
  rw [expectKeyword, run_eatKeyword_bind] at hword
  split at hword
  · next hstruct =>
    obtain ⟨-, rfl⟩ := run_pure_eq_ok.mp hword
    rw [run_current_bind] at h
    obtain ⟨name, s₂, hname, h⟩ := run_bind_eq_ok.mp h
    obtain ⟨hword, -, rfl⟩ := run_identifier_eq_ok hname
    have hword : s.cursor.next.current.kind = .identifier := hword
    rw [run_program_bind] at h
    split at h
    · exact (run_fail_ne_ok.mp h).elim
    · obtain ⟨brace, s₃, hbrace, h⟩ := run_bind_eq_ok.mp h
      obtain ⟨hopen, -, rfl⟩ := run_expect_eq_ok hbrace
      have hopen : s.cursor.next.next.current.kind = .leftBrace := hopen
      -- the tokens of the item: its word, its name, the opening brace and the group behind it
      obtain ⟨h₁, hended₁⟩ := hs.passed_next (by simp [hstruct.1])
      obtain ⟨h₂, hended₂⟩ := hended₁.passed_next (by simp [hword])
      obtain ⟨h₃, hended₃⟩ := hended₂.passed_next (by simp [hopen])
      obtain ⟨ts, hts, hgroup⟩ := afterGroup_of_run_untilClosed hended₃ h
      refine ⟨_, h₁.trans (h₂.trans (h₃.trans hts)), ?_, s.cursor.next.current.text, ?_, ?_⟩
      · refine ⟨[s.cursor.current, s.cursor.next.current], s.cursor.next.next.current, ts, rfl, ?_,
          .inr ⟨hopen, hgroup⟩⟩
        simp [hstruct.1, hword, TokenKind.isInline]
      · simp [declaredStruct?, hstruct.2]
      · have hempty := hgroup []
        rw [List.append_nil] at hempty
        simp only [List.singleton_append]
        rw [structWords_struct hstruct hword, structWords_open hopen, structWords_group, hempty,
          structWords]
  · cases hword

theorem isItem_of_sentence {x : Parser Unit} [hx : Sentence x] (hs : s.cursor.Ended)
    (h : x.run s = .ok (a, s')) : ∃ ts, s.cursor.Passed ts s'.cursor ∧ IsItem ts := by
  obtain ⟨us, t, hpassed, hus, ht⟩ := hx.passed s a s' hs h
  exact ⟨_, hpassed, us, t, [], rfl, hus, .inl ⟨ht, rfl⟩⟩

/-- The signature of a function. -/
def signature (m : ModuleId) : Parser FunctionId := do
  let first ← current
  let keyword ← identifier
  let name ← identifier
  let _ ← expect .leftParen
  let parameters ← commaList .rightParen functionParameter
  let _ ← expect .arrow
  let returns ← type
  let inProcessor := ((← program).moduleAt m).isProcessor
  let kind : FunctionKind :=
    if keyword = "event" then .event
    else if keyword = "intrinsic" then .intrinsic
    else if inProcessor then .ofProcessorFunction name
    else .normal
  let annotations ← annotations
  let span ← spanFrom first
  add (·.addFunction { name, owner := m, kind, returns, parameters, annotations, span })

theorem functionItem_eq : functionItem m = signature m >>= fun id => (do
    if ← eat .semicolon then return none
    let start ← cursor
    skipBalanced .leftBrace .rightBrace
    return some ⟨id, start⟩) := by
  simp [functionItem, signature]

instance : Inline (signature m) := by unfold signature; infer_instance

theorem isItem_of_run_functionItem {pending : Option PendingBody} (hs : s.cursor.Ended)
    (h : (functionItem m).run s = .ok (pending, s')) :
    ∃ ts, s.cursor.Passed ts s'.cursor ∧ IsItem ts := by
  rw [functionItem_eq] at h
  obtain ⟨id, s₁, hsignature, h⟩ := run_bind_eq_ok.mp h
  obtain ⟨us, hus, hinline⟩ := Inline.inlineAt s id s₁ hsignature
  obtain ⟨-, -, -, hended⟩ := (Inline.inlineAt s).takesAt hs id s₁ hsignature
  rw [run_eat_bind] at h
  split at h
  · next hsemicolon =>
    obtain ⟨-, rfl⟩ := run_pure_eq_ok.mp h
    exact ⟨_, hus.trans (hended.passed_next (by simp [hsemicolon])).1, us, _, [], rfl, hinline,
      .inl ⟨hsemicolon, rfl⟩⟩
  · rw [if_neg (by simp), run_cursor_bind] at h
    obtain ⟨_, s₂, hskipped, h⟩ := run_bind_eq_ok.mp h
    obtain ⟨-, rfl⟩ := run_pure_eq_ok.mp h
    obtain ⟨hbrace, ts, hts, hgroup⟩ := passed_of_run_skipBalanced (by decide) hended hskipped
    exact ⟨_, hus.trans ((hended.passed_next (by simp [hbrace])).1.trans hts), us, _, ts, rfl,
      hinline, .inr ⟨hbrace, hgroup⟩⟩

/-- Whatever is read as an item is one, and if it declares a struct then its only word is the
name. -/
theorem isItem_of_run_item {pending : Option PendingBody} (hs : s.cursor.Ended)
    (h : (item m).run s = .ok (pending, s')) :
    ∃ ts, s.cursor.Passed ts s'.cursor ∧ IsItem ts ∧
      ∀ name, declaredStruct? ts = some name → structWords false 0 ts = [name] := by
  -- only items that start with the word for structs declare one
  have hother : s.cursor.current.text ≠ "struct" →
      (∃ ts, s.cursor.Passed ts s'.cursor ∧ IsItem ts) →
      ∃ ts, s.cursor.Passed ts s'.cursor ∧ IsItem ts ∧
        ∀ name, declaredStruct? ts = some name → structWords false 0 ts = [name] := by
    rintro htext ⟨ts, hts, hitem⟩
    refine ⟨ts, hts, hitem, fun name hname => ?_⟩
    unfold declaredStruct? at hname
    split at hname
    · next t u us =>
      have ht : s.cursor.current = t := by simp [Cursor.current, hts.rest]
      rw [if_neg (ht ▸ htext)] at hname
      cases hname
    · cases hname
  have hsentence : ∀ {x : Parser Unit} [Sentence x], s.cursor.current.text ≠ "struct" →
      (do x; return none).run s = .ok (pending, s') →
      ∃ ts, s.cursor.Passed ts s'.cursor ∧ IsItem ts ∧
        ∀ name, declaredStruct? ts = some name → structWords false 0 ts = [name] := by
    intro x hx htext h
    obtain ⟨_, s₁, hrun, h⟩ := run_bind_eq_ok.mp h
    obtain ⟨-, rfl⟩ := run_pure_eq_ok.mp h
    exact hother htext (isItem_of_sentence hs hrun)
  rw [item, run_current_bind] at h
  split at h
  · next htext =>
    obtain ⟨_, s₁, hrun, h⟩ := run_bind_eq_ok.mp h
    obtain ⟨-, rfl⟩ := run_pure_eq_ok.mp h
    obtain ⟨ts, hts, hitem, name, hdeclared, hwords⟩ := isItem_of_run_structItem hs hrun
    refine ⟨ts, hts, hitem, fun name' hname' => ?_⟩
    rw [hdeclared] at hname'
    rw [hwords, Option.some.inj hname']
  · next htext => exact hsentence (by simp [htext]) h
  · next htext => exact hsentence (by simp [htext]) h
  · next htext => exact hsentence (by simp [htext]) h
  · next htext => exact hsentence (by simp [htext]) h
  · next htext => exact hsentence (by simp [htext]) h
  · next htext => exact hsentence (by simp [htext]) h
  · next htext => exact hsentence (by simp [htext]) h
  · next htext => exact hother (by simp [htext]) (isItem_of_run_functionItem hs h)
  · next htext => exact hother (by simp [htext]) (isItem_of_run_functionItem hs h)
  · next htext => exact hother (by simp [htext]) (isItem_of_run_functionItem hs h)
  · cases h

end Parser

end SignalGraph.Heart

import SignalGraph.Proofs.Heart.Progress

/-!
# SignalGraph.Proofs.Heart.Groups

Where groups of brackets end.  `afterGroup` counts brackets, and so does `skipBalanced`
(`passed_of_run_skipBalanced`).  Constants and properties hold brackets in pairs only, so a group
ends at the same place before and after one of them is read (`KeepsBrackets`).  An annotation that
is read therefore ends where its brackets are balanced (`rest_of_run_annotations`).
-/

namespace SignalGraph.Heart

/-! ## Counting -/

/-- The tokens after the end of a group, from inside of it, where `depth` groups within it are
open. -/
def afterGroup (opening closing : TokenKind) : Nat → List Token → List Token
  | _, [] => []
  | depth, t :: rest =>
    if t.kind = opening then afterGroup opening closing (depth + 1) rest
    else if t.kind = closing then
      if depth = 0 then rest else afterGroup opening closing (depth - 1) rest
    else afterGroup opening closing depth rest

namespace Cursor

variable {c : Cursor}

/-- The tokens after the end of a group in square brackets. -/
def afterBrackets (c : Cursor) (depth : Nat) : List Token :=
  afterGroup .leftBracket .rightBracket depth c.rest

/-- A token that is no bracket is passed at the same depth. -/
theorem afterBrackets_next (hopen : c.current.kind ≠ .leftBracket)
    (hclose : c.current.kind ≠ .rightBracket) (depth : Nat) :
    c.next.afterBrackets depth = c.afterBrackets depth := by
  unfold next
  split
  · next t rest hrest =>
    have ht : c.current = t := by simp [current, hrest]
    split
    · rfl
    · rw [afterBrackets, afterBrackets, hrest, afterGroup, if_neg (ht ▸ hopen),
        if_neg (ht ▸ hclose)]
  · rfl

/-- An opening bracket goes one deeper. -/
theorem afterBrackets_open (h : c.current.kind = .leftBracket) (depth : Nat) :
    c.next.afterBrackets (depth + 1) = c.afterBrackets depth := by
  cases hrest : c.rest with
  | nil => simp [afterBrackets, next, hrest, afterGroup]
  | cons t rest =>
      have ht : t.kind = .leftBracket := by simpa [current, hrest] using h
      simp [afterBrackets, next, hrest, afterGroup, ht]

/-- A closing bracket comes back one. -/
theorem afterBrackets_close (h : c.current.kind = .rightBracket) (depth : Nat) :
    c.next.afterBrackets depth = c.afterBrackets (depth + 1) := by
  cases hrest : c.rest with
  | nil => simp [afterBrackets, next, hrest, afterGroup]
  | cons t rest =>
      have ht : t.kind = .rightBracket := by simpa [current, hrest] using h
      simp [afterBrackets, next, hrest, afterGroup, ht]

/-- The bracket that ends the group. -/
theorem rest_next_of_close (h : c.current.kind = .rightBracket) :
    c.next.rest = c.afterBrackets 0 := by
  cases hrest : c.rest with
  | nil => simp [afterBrackets, next, hrest, afterGroup]
  | cons t rest =>
      have ht : t.kind = .rightBracket := by simpa [current, hrest] using h
      simp [afterBrackets, next, hrest, afterGroup, ht]

end Cursor

namespace Parser

variable {α β : Type} {x y : Parser α} {f : α → Parser β} {s s' : ParserState} {kind : TokenKind}

/-! ## Skipping -/

section

variable {opening closing : TokenKind} {a : Unit}

/-- From inside a group, skipping ends where the group does. -/
theorem passed_of_run_skipBalanced_go {depth n : Nat} (hs : s.cursor.Ended)
    (h : (skipBalanced.go opening closing depth n).run s = .ok (a, s')) :
    ∃ ts, s.cursor.Passed ts s'.cursor ∧ ∀ rest, afterGroup opening closing depth (ts ++ rest) =
      rest := by
  induction n generalizing depth s with
  | zero => cases h
  | succ n ih =>
      -- one token is passed over, and the rest is skipped at the depth that it leaves
      have hthen : ∀ depth', s.cursor.current.kind ≠ .eof →
          (skipBalanced.go opening closing depth' n).run { s with cursor := s.cursor.next } =
            .ok (a, s') →
          (∀ rest, afterGroup opening closing depth (s.cursor.current :: rest) =
            afterGroup opening closing depth' rest) →
          ∃ ts, s.cursor.Passed ts s'.cursor ∧
            ∀ rest, afterGroup opening closing depth (ts ++ rest) = rest := by
        intro depth' heof h hstep
        obtain ⟨hpassed, hended⟩ := hs.passed_next heof
        obtain ⟨ts, hts, hrest⟩ := ih hended h
        exact ⟨_, hpassed.trans hts, fun rest => (hstep _).trans (hrest rest)⟩
      rw [skipBalanced.go, run_current_bind] at h
      extract_lets kind jp at h
      split at h
      · cases h
      · next heof =>
        unfold jp at h
        rw [run_advance_bind] at h
        split at h
        · next hopen => exact hthen _ heof h fun rest => by rw [afterGroup, if_pos hopen]
        · next hopen =>
          split at h
          · next hclose =>
            split at h
            · next hdepth =>
              obtain ⟨-, rfl⟩ := run_pure_eq_ok.mp h
              refine ⟨_, (hs.passed_next heof).1, fun rest => ?_⟩
              rw [List.singleton_append, afterGroup, if_neg hopen, if_pos hclose, if_pos hdepth]
            · next hdepth =>
              exact hthen _ heof h fun rest => by
                rw [afterGroup, if_neg hopen, if_pos hclose, if_neg hdepth]
          · next hclose =>
            exact hthen _ heof h fun rest => by rw [afterGroup, if_neg hopen, if_neg hclose]

/-- A group that is skipped, after its opening token. -/
theorem passed_of_run_skipBalanced (hopening : opening ≠ .eof) (hs : s.cursor.Ended)
    (h : (skipBalanced opening closing).run s = .ok (a, s')) :
    s.cursor.current.kind = opening ∧
      ∃ ts, s.cursor.next.Passed ts s'.cursor ∧ ∀ rest, afterGroup opening closing 0 (ts ++ rest) =
        rest := by
  obtain ⟨t, s₁, ht, h⟩ := run_bind_eq_ok.mp h
  obtain ⟨hkind, -, rfl⟩ := run_expect_eq_ok ht
  rw [run_bound_bind] at h
  have hended := (hs.passed_next (hkind ▸ hopening)).2
  exact ⟨hkind, passed_of_run_skipBalanced_go hended h⟩

end

/-! ## Parsers that stay where they are -/

/-- The parser does not move.  This is found from its parts. -/
class Unmoved (x : Parser α) : Prop where
  cursor : ∀ s a s', x.run s = .ok (a, s') → s'.cursor = s.cursor

instance (a : α) : Unmoved (pure a) := ⟨fun _ _ _ h => by cases h; rfl⟩

instance [hx : Unmoved x] [hf : ∀ a, Unmoved (f a)] : Unmoved (x >>= f) where
  cursor s b s'' h := by
    obtain ⟨a, s', ha, hb⟩ := run_bind_eq_ok.mp h
    rw [(hf a).cursor s' b s'' hb, hx.cursor s a s' ha]

instance {b : Prop} [Decidable b] [hx : Unmoved x] [hy : Unmoved y] :
    Unmoved (if b then x else y) := by
  split
  · exact hx
  · exact hy

instance (fault : Fault) (span : Span) : Unmoved (fail fault span : Parser α) :=
  ⟨fun _ _ _ h => (run_fail_ne_ok.mp h).elim⟩

instance : Unmoved cursor := ⟨fun _ _ _ h => by cases h; rfl⟩

instance : Unmoved program := ⟨fun _ _ _ h => by cases h; rfl⟩

instance (change : Program → Program) : Unmoved (modifyProgram change) :=
  ⟨fun _ _ _ h => by cases h; rfl⟩

instance (change : Program → α × Program) : Unmoved (add change) := ⟨fun _ _ _ h => by cases h; rfl⟩

instance (r : Except Diagnostic α) : Unmoved (lift r) := by
  refine ⟨fun s a s' h => ?_⟩
  cases r with
  | error d => cases h
  | ok b =>
      cases h
      rfl

instance : Unmoved current := by unfold current; infer_instance

instance (n : Nat) : Unmoved (kindAt n) := by unfold kindAt; infer_instance

instance : Unmoved (at_ kind) := by unfold at_; infer_instance

instance : Unmoved (nextIs kind) := by unfold nextIs; infer_instance

instance : Unmoved bound := by unfold bound; infer_instance

instance (what : String) : Unmoved (expected what : Parser α) := by unfold expected; infer_instance

instance (first : Token) : Unmoved (spanFrom first) := by unfold spanFrom; infer_instance

/-! ## Parsers that pass brackets in pairs -/

/-- A group in square brackets ends where it did before.  This is found from the parts of the
parser. -/
class KeepsBrackets (x : Parser α) : Prop where
  after : ∀ s a s', x.run s = .ok (a, s') →
    ∀ depth, s'.cursor.afterBrackets depth = s.cursor.afterBrackets depth

instance (priority := low) [hx : Unmoved x] : KeepsBrackets x :=
  ⟨fun s a s' h depth => by rw [hx.cursor s a s' h]⟩

/-- Parsers that keep within their group do so one after the other. -/
theorem keepsBrackets_bind (hx : KeepsBrackets x) (hf : ∀ a, KeepsBrackets (f a)) :
    KeepsBrackets (x >>= f) where
  after s b s'' h depth := by
    obtain ⟨a, s', ha, hb⟩ := run_bind_eq_ok.mp h
    rw [(hf a).after s' b s'' hb, hx.after s a s' ha]

instance [hx : KeepsBrackets x] [hf : ∀ a, KeepsBrackets (f a)] : KeepsBrackets (x >>= f) :=
  keepsBrackets_bind hx hf

instance {b : Prop} [Decidable b] [hx : KeepsBrackets x] [hy : KeepsBrackets y] :
    KeepsBrackets (if b then x else y) := by
  split
  · exact hx
  · exact hy

theorem keepsBrackets_eat (hopen : kind ≠ .leftBracket) (hclose : kind ≠ .rightBracket) :
    KeepsBrackets (eat kind) where
  after s a s' h depth := by
    rw [run_eat] at h
    split at h
    · next hkind =>
      cases h
      exact Cursor.afterBrackets_next (hkind ▸ hopen) (hkind ▸ hclose) depth
    · cases h
      rfl

theorem keepsBrackets_expect (hopen : kind ≠ .leftBracket) (hclose : kind ≠ .rightBracket) :
    KeepsBrackets (expect kind) where
  after s t s' h depth := by
    obtain ⟨hkind, -, rfl⟩ := run_expect_eq_ok h
    exact Cursor.afterBrackets_next (hkind ▸ hopen) (hkind ▸ hclose) depth

instance : KeepsBrackets (eat .rightParen) := keepsBrackets_eat (by decide) (by decide)
instance : KeepsBrackets (eat .less) := keepsBrackets_eat (by decide) (by decide)
instance : KeepsBrackets (eat .ampersand) := keepsBrackets_eat (by decide) (by decide)
instance : KeepsBrackets (eat .stringLiteral) := keepsBrackets_eat (by decide) (by decide)
instance : KeepsBrackets (expect .identifier) := keepsBrackets_expect (by decide) (by decide)
instance : KeepsBrackets (expect .integer) := keepsBrackets_expect (by decide) (by decide)
instance : KeepsBrackets (expect .leftParen) := keepsBrackets_expect (by decide) (by decide)
instance : KeepsBrackets (expect .greater) := keepsBrackets_expect (by decide) (by decide)
instance : KeepsBrackets (expect .comma) := keepsBrackets_expect (by decide) (by decide)
instance : KeepsBrackets (expect .colon) := keepsBrackets_expect (by decide) (by decide)

instance : KeepsBrackets identifier := by unfold identifier; infer_instance

/-- Advancing past a token that is no bracket. -/
theorem after_of_run_advance {g : Unit → Parser β} [hg : KeepsBrackets (g ())] {b : β}
    (h : (advance >>= g).run s = .ok (b, s')) (hopen : s.cursor.current.kind ≠ .leftBracket)
    (hclose : s.cursor.current.kind ≠ .rightBracket) (depth : Nat) :
    s'.cursor.afterBrackets depth = s.cursor.afterBrackets depth := by
  rw [run_advance_bind] at h
  exact (hg.after _ b s' h depth).trans (Cursor.afterBrackets_next hopen hclose depth)

instance (word : String) : KeepsBrackets (eatKeyword word) where
  after s a s' h depth := by
    rw [← bind_pure (eatKeyword word), run_eatKeyword_bind] at h
    split at h
    · next hword =>
      obtain ⟨-, rfl⟩ := run_pure_eq_ok.mp h
      exact Cursor.afterBrackets_next (by simp [hword.1]) (by simp [hword.1]) depth
    · obtain ⟨-, rfl⟩ := run_pure_eq_ok.mp h
      rfl

instance : KeepsBrackets natural := by
  refine keepsBrackets_bind inferInstance fun t => ?_
  extract_lets jp
  have hjp : ∀ r, KeepsBrackets (jp r) := by
    intro r
    unfold jp
    split <;> infer_instance
  clear_value jp
  infer_instance

instance (close : TokenKind) [KeepsBrackets x] [KeepsBrackets (eat close)] :
    KeepsBrackets (commaList close x) := by
  have hgo : ∀ n, KeepsBrackets (commaList.go close x n) := by
    intro n
    induction n with
    | zero => unfold commaList.go; infer_instance
    | succ n ih => unfold commaList.go; infer_instance
  unfold commaList
  infer_instance

/-- A list in square brackets ends the group that its bracket has opened. -/
theorem after_of_run_commaList [hx : KeepsBrackets x] {l : List α}
    (h : (commaList .rightBracket x).run s = .ok (l, s')) (depth : Nat) :
    s'.cursor.afterBrackets depth = s.cursor.afterBrackets (depth + 1) := by
  have hgo : ∀ n s l, (commaList.go .rightBracket x n).run s = .ok (l, s') →
      s'.cursor.afterBrackets depth = s.cursor.afterBrackets (depth + 1) := by
    intro n
    induction n with
    | zero => exact fun s l h => by cases h
    | succ n ih =>
        intro s l h
        obtain ⟨a, s₁, ha, h⟩ := run_bind_eq_ok.mp h
        rw [← hx.after s a s₁ ha]
        rw [run_eat_bind] at h
        split at h
        · next hclose =>
          obtain ⟨-, rfl⟩ := run_pure_eq_ok.mp h
          exact Cursor.afterBrackets_close hclose depth
        · obtain ⟨comma, s₂, hcomma, h⟩ := run_bind_eq_ok.mp h
          obtain ⟨l', s₃, hl, h⟩ := run_bind_eq_ok.mp h
          obtain ⟨-, rfl⟩ := run_pure_eq_ok.mp h
          rw [ih s₂ l' hl, KeepsBrackets.after s₁ comma s₂ hcomma]
  rw [commaList, run_eat_bind] at h
  split at h
  · next hclose =>
    obtain ⟨-, rfl⟩ := run_pure_eq_ok.mp h
    exact Cursor.afterBrackets_close hclose depth
  · exact hgo _ s l h

/-! ## Types, constants and annotations -/

instance (name : String) (n : Nat) : KeepsBrackets (qualifiedName.go name n) := by
  induction n generalizing name with
  | zero => unfold qualifiedName.go; infer_instance
  | succ n ih =>
      refine ⟨fun s path s' h => ?_⟩
      rw [qualifiedName.go, run_at_bind, run_nextIs_bind] at h
      split at h
      · next hkind =>
        simp only [Bool.and_eq_true, decide_eq_true_eq] at hkind
        exact after_of_run_advance h (by simp [hkind.1]) (by simp [hkind.1])
      · exact KeepsBrackets.after s path s' h

instance : KeepsBrackets qualifiedName := by unfold qualifiedName; infer_instance

instance (n : Nat) (t : Ty) : KeepsBrackets (arraySuffixes n t) := by
  induction n generalizing t with
  | zero => unfold arraySuffixes; infer_instance
  | succ n ih =>
      refine ⟨fun s u s' h depth => ?_⟩
      rw [arraySuffixes, run_atArraySuffix_bind] at h
      split at h
      · next hsuffix =>
        simp only [Bool.and_eq_true, decide_eq_true_eq] at hsuffix
        have hopen := kind_current_of_kindAt hsuffix.1 (by decide)
        rw [← Cursor.afterBrackets_open hopen]
        rw [run_advance_bind, run_eat_bind] at h
        split at h
        · next hclose =>
          rw [(ih _).after _ u s' h depth]
          exact Cursor.afterBrackets_close hclose depth
        · obtain ⟨length, s₁, hlength, h⟩ := run_bind_eq_ok.mp h
          obtain ⟨bracket, s₂, hbracket, h⟩ := run_bind_eq_ok.mp h
          obtain ⟨hclose, -, rfl⟩ := run_expect_eq_ok hbracket
          rw [(ih _).after _ u s' h depth, Cursor.afterBrackets_close hclose,
            KeepsBrackets.after _ length s₁ hlength]
      · obtain ⟨-, rfl⟩ := run_pure_eq_ok.mp h
        rfl

instance : KeepsBrackets plainType := by
  refine ⟨fun s t s' h depth => ?_⟩
  rw [plainType, run_current_bind] at h
  split at h
  · exact KeepsBrackets.after s t s' h depth
  · next hkind =>
    have hkind : s.cursor.current.kind = .identifier := Decidable.not_not.mp hkind
    split at h
    · exact after_of_run_advance h (by simp [hkind]) (by simp [hkind]) depth
    · split at h
      · exact after_of_run_advance h (by simp [hkind]) (by simp [hkind]) depth
      · obtain ⟨path, s₁, hpath, h⟩ := run_bind_eq_ok.mp h
        rw [run_program_bind] at h
        rw [← KeepsBrackets.after s path s₁ hpath]
        split at h
        · exact KeepsBrackets.after s₁ t s' h depth
        · exact KeepsBrackets.after s₁ t s' h depth

instance : KeepsBrackets type := by unfold type; infer_instance

instance {element : Parser Value} [KeepsBrackets element] :
    KeepsBrackets (constantWith element) := by
  refine ⟨fun s v s' h => ?_⟩
  rw [constantWith, run_current_bind] at h
  split at h
  · next hkind =>
    split at h
    · exact after_of_run_advance h (by simp [hkind]) (by simp [hkind])
    · exact KeepsBrackets.after s v s' h
  · next hkind => exact after_of_run_advance h (by simp [hkind]) (by simp [hkind])
  · next hkind =>
    rw [run_add_bind] at h
    have hadvanced := after_of_run_advance h (by simp [hkind]) (by simp [hkind])
    exact hadvanced
  · next hkind =>
    rw [run_nextIs_bind] at h
    extract_lets named at h
    clear_value named
    split at h
    · exact after_of_run_advance h (by simp [hkind]) (by simp [hkind])
    · exact KeepsBrackets.after s v s' h
  · exact KeepsBrackets.after s v s' h

instance (n : Nat) : KeepsBrackets (constantTo n) := by
  induction n with
  | zero => unfold constantTo; infer_instance
  | succ n ih => unfold constantTo; infer_instance

instance : KeepsBrackets internedConstant := by
  unfold internedConstant constant
  infer_instance

instance : KeepsBrackets property := by
  unfold property
  refine keepsBrackets_bind inferInstance fun t => ?_
  extract_lets key jp
  have hjp : ∀ r, KeepsBrackets (jp r) := by
    intro r
    unfold jp
    infer_instance
  clear_value jp
  infer_instance

/-- Properties in double brackets end where the brackets are balanced; without them nothing is
read. -/
theorem rest_of_run_annotations {a : Annotations} (h : annotations.run s = .ok (a, s')) :
    if s.cursor.kindAt 0 = .leftBracket ∧ s.cursor.kindAt 1 = .leftBracket then
      s'.cursor.rest = s.cursor.next.afterBrackets 0
    else a = {} ∧ s' = s := by
  rw [annotations, run_kindAt_bind, run_kindAt_bind] at h
  split at h
  · next hopen =>
    simp only [Bool.and_eq_true, decide_eq_true_eq] at hopen
    have hfirst := kind_current_of_kindAt hopen.1 (by decide)
    have hsecond := kind_current_next hopen.2 (by decide) (by simp [hfirst])
    rw [if_pos hopen]
    rw [run_advance_bind, run_advance_bind] at h
    obtain ⟨properties, s₁, hproperties, h⟩ := run_bind_eq_ok.mp h
    obtain ⟨bracket, s₂, hbracket, h⟩ := run_bind_eq_ok.mp h
    obtain ⟨-, rfl⟩ := run_pure_eq_ok.mp h
    obtain ⟨hclose, -, rfl⟩ := run_expect_eq_ok hbracket
    rw [Cursor.rest_next_of_close hclose, after_of_run_commaList hproperties]
    exact Cursor.afterBrackets_open hsecond 0
  · next hopen =>
    simp only [Bool.and_eq_true, decide_eq_true_eq] at hopen
    obtain ⟨rfl, rfl⟩ := run_pure_eq_ok.mp h
    rw [if_neg hopen]
    exact ⟨rfl, rfl⟩

end Parser

end SignalGraph.Heart

import SignalGraph.Heart.Parse
import Mathlib.Order.Defs.Unbundled

/-!
# SignalGraph.Proofs.Heart.ParserSteps

What parsers make of the program.  `Gives` says what holds of the answer and of the program where a
parser succeeds, wherever in the text it starts; there is a rule for each way to put parsers
together.  `Still` says that a parser leaves the program alone, as do all that only move through the
text; `Along` says that a parser changes the program in certain ways only.
-/

namespace SignalGraph.Heart.Parser

variable {α β : Type}

/-- Where the parser succeeds, `post` holds of its answer and of the program that it leaves. -/
def Gives (x : Parser α) (p : Program) (post : α → Program → Prop) : Prop :=
  ∀ c a s, x.run ⟨c, p⟩ = .ok (a, s) → post a s.program

section

variable {x y : Parser α} {f : α → Parser β} {p : Program} {post : β → Program → Prop}
  {mid : α → Program → Prop}

theorem gives_pure {a : α} (h : mid a p) : Gives (pure a) p mid := by
  intro c b s hrun
  cases hrun
  exact h

/-- A parser that fails gives everything. -/
theorem gives_throw (d : Diagnostic) : Gives (throw d) p mid := by
  intro c b s hrun
  cases hrun

/-- Parsers one after the other: the second starts from what the first gives. -/
theorem Gives.bind (hx : Gives x p mid) (hf : ∀ a q, mid a q → Gives (f a) q post) :
    Gives (x >>= f) p post := by
  intro c b s hrun
  rw [StateT.run_bind] at hrun
  cases hfirst : x.run ⟨c, p⟩ with
  | error d =>
      rw [hfirst] at hrun
      cases hrun
  | ok y =>
      rw [hfirst] at hrun
      exact hf y.1 y.2.program (hx c y.1 y.2 hfirst) y.2.cursor b s hrun

/-- What is given is given under every weaker description. -/
theorem Gives.mono {mid' : α → Program → Prop} (h : Gives x p mid)
    (himp : ∀ a q, mid a q → mid' a q) : Gives x p mid' :=
  fun c a s hrun => himp a s.program (h c a s hrun)

/-- Both branches give it. -/
theorem gives_ite {b : Prop} [Decidable b] (hx : Gives x p mid) (hy : Gives y p mid) :
    Gives (if b then x else y) p mid := by
  split
  · exact hx
  · exact hy

/-- A result that is put into the parser gives what it answers. -/
theorem gives_lift {r : Except Diagnostic α} (h : ∀ a, r = .ok a → mid a p) :
    Gives (lift r) p mid := by
  intro c a s hrun
  cases r with
  | error d => cases hrun
  | ok b =>
      cases hrun
      exact h a rfl

theorem gives_expected (what : String) : Gives (expected what) p mid := by
  intro c a s hrun
  cases hrun

theorem gives_fail (f : Fault) (span : Span) : Gives (fail f span) p mid := gives_throw _

theorem gives_program {post : Program → Program → Prop} (h : post p p) : Gives program p post := by
  intro c a s hrun
  cases hrun
  exact h

/-- A change gives the changed program. -/
theorem gives_modifyProgram {g : Program → Program} {post : Unit → Program → Prop}
    (h : post () (g p)) : Gives (modifyProgram g) p post := by
  intro c a s hrun
  cases hrun
  exact h

/-- An addition gives the new handle and the larger program. -/
theorem gives_add {g : Program → α × Program} (h : mid (g p).1 (g p).2) :
    Gives (add g) p mid := by
  intro c a s hrun
  cases hrun
  exact h

end

/-! ## Parsers that leave the program alone -/

/-- The parser leaves the program alone.  This is found from the parts of a parser. -/
class Still (x : Parser α) : Prop where
  still : ∀ p, Gives x p fun _ q => q = p

section

variable {x y : Parser α} {f : α → Parser β} {p : Program} {post : β → Program → Prop}

/-- A parser that adds nothing may come first. -/
theorem still_then [hx : Still x] (hf : ∀ a, Gives (f a) p post) : Gives (x >>= f) p post :=
  (hx.still p).bind fun a _ hq => hq ▸ hf a

/-- A parser that adds nothing gives the program as it was. -/
theorem still_gives [hx : Still x] {mid : α → Program → Prop} (h : ∀ a, mid a p) : Gives x p mid :=
  (hx.still p).mono fun a _ hq => hq ▸ h a

instance (a : α) : Still (pure a) := ⟨fun _ => gives_pure rfl⟩

/-- Parsers that add nothing add nothing one after the other. -/
theorem still_bind (hx : Still x) (hf : ∀ a, Still (f a)) : Still (x >>= f) :=
  ⟨fun p => still_then fun a => (hf a).still p⟩

instance [hx : Still x] [hf : ∀ a, Still (f a)] : Still (x >>= f) := still_bind hx hf

instance {b : Prop} [Decidable b] [hx : Still x] [hy : Still y] : Still (if b then x else y) :=
  ⟨fun p => gives_ite (hx.still p) (hy.still p)⟩

instance (f : Fault) (span : Span) : Still (fail f span : Parser α) := ⟨fun _ => gives_throw _⟩

instance (r : Except Diagnostic α) : Still (lift r) := ⟨fun _ => gives_lift fun _ _ => rfl⟩

instance : Still cursor := ⟨fun _ _ _ _ hrun => by cases hrun; rfl⟩

instance (c : Cursor) : Still (moveTo c) := ⟨fun _ _ _ _ hrun => by cases hrun; rfl⟩

instance : Still advance := ⟨fun _ _ _ _ hrun => by cases hrun; rfl⟩

instance : Still program := ⟨fun _ => gives_program rfl⟩

instance : Still current := by unfold current; infer_instance

instance (n : Nat) : Still (kindAt n) := by unfold kindAt; infer_instance

instance (kind : TokenKind) : Still (at_ kind) := by unfold at_; infer_instance

instance (kind : TokenKind) : Still (nextIs kind) := by unfold nextIs; infer_instance

instance (word : String) : Still (atKeyword word) := by unfold atKeyword; infer_instance

instance : Still bound := by unfold bound; infer_instance

instance (what : String) : Still (expected what : Parser α) := by unfold expected; infer_instance

instance (kind : TokenKind) : Still (eat kind) := by unfold eat; infer_instance

instance (word : String) : Still (eatKeyword word) := by unfold eatKeyword; infer_instance

instance (kind : TokenKind) : Still (expect kind) := by unfold expect; infer_instance

instance (word : String) : Still (expectKeyword word) := by unfold expectKeyword; infer_instance

instance : Still identifier := by unfold identifier; infer_instance

instance (first : Token) : Still (spanFrom first) := by unfold spanFrom; infer_instance

instance : Still natural := by
  refine still_bind inferInstance fun t => ?_
  extract_lets jp
  have hjp : ∀ r, Still (jp r) := by
    intro r
    unfold jp
    split <;> infer_instance
  clear_value jp
  infer_instance

instance : Still wide := by
  refine still_bind inferInstance fun t => ?_
  split <;> infer_instance

instance (opening closing : TokenKind) (depth n : Nat) :
    Still (skipBalanced.go opening closing depth n) := by
  induction n generalizing depth with
  | zero => unfold skipBalanced.go; infer_instance
  | succ n ih => unfold skipBalanced.go; infer_instance

instance (opening closing : TokenKind) : Still (skipBalanced opening closing) := by
  unfold skipBalanced
  infer_instance

instance (name : String) (n : Nat) : Still (qualifiedName.go name n) := by
  induction n generalizing name with
  | zero => unfold qualifiedName.go; infer_instance
  | succ n ih => unfold qualifiedName.go; infer_instance

instance : Still qualifiedName := by unfold qualifiedName; infer_instance

end

/-! ## Loops -/

section

variable {p : Program} {close : TokenKind}

/-- Items up to a closing token keep every invariant that one item keeps. -/
theorem gives_untilClosed {item : Parser Unit} {J : Program → Prop}
    (hitem : ∀ p, J p → Gives item p fun _ q => J q) (h : J p) :
    Gives (untilClosed close item) p fun _ q => J q := by
  have hgo : ∀ n p, J p → Gives (untilClosed.go close item n) p fun _ q => J q := by
    intro n
    induction n with
    | zero => exact fun p h => still_gives (x := expected _) fun _ => h
    | succ n ih =>
        intro p h
        unfold untilClosed.go
        refine still_then fun closed => gives_ite (gives_pure h) ?_
        exact (hitem p h).bind fun _ q hq => ih q hq
  unfold untilClosed
  exact still_then fun n => hgo n p h

/-- What every item adds to, the whole list does. -/
theorem gives_commaList {item : Parser α} {J : List α → Program → Prop}
    (hitem : ∀ l p, J l p → Gives item p fun a q => J (l ++ [a]) q) (h : J [] p) :
    Gives (commaList close item) p J := by
  have hgo : ∀ n l p, J l p → Gives (commaList.go close item n) p fun l' q => J (l ++ l') q := by
    intro n
    induction n with
    | zero => exact fun l p h => gives_expected _
    | succ n ih =>
        intro l p h
        unfold commaList.go
        refine (hitem l p h).bind fun a q hq => still_then fun closed =>
          gives_ite (gives_pure hq) ?_
        refine still_then fun _ => (ih (l ++ [a]) q hq).bind fun l' r hr => gives_pure ?_
        simpa using hr
  unfold commaList
  exact still_then fun closed => gives_ite (gives_pure h) (still_then fun n => hgo n [] p h)

/-- Parsers for a list keep every invariant of the results so far that one of them keeps. -/
theorem gives_mapM {f : α → Parser β} {l : List α} {J : List β → Program → Prop}
    (hf : ∀ a ∈ l, ∀ bs p, J bs p → Gives (f a) p fun b q => J (bs ++ [b]) q) (h : J [] p) :
    Gives (l.mapM f) p J := by
  have hloop : ∀ rest bs p, rest ⊆ l → J bs p →
      Gives (rest.mapM f) p fun bs' q => J (bs ++ bs') q := by
    intro rest
    induction rest with
    | nil =>
        intro bs p _ h
        rw [List.mapM_nil]
        exact gives_pure (by simpa using h)
    | cons a rest ih =>
        intro bs p hsub h
        rw [List.mapM_cons]
        refine (hf a (hsub List.mem_cons_self) bs p h).bind fun b q hq => ?_
        refine (ih (bs ++ [b]) q (List.subset_of_cons_subset hsub) hq).bind fun bs' r hr => ?_
        exact gives_pure (by simpa using hr)
  exact hloop l [] p (List.Subset.refl l) h

/-- Parsers for a list keep every invariant that one of them keeps. -/
theorem gives_forM {f : α → Parser Unit} {l : List α} {J : Program → Prop}
    (hf : ∀ a ∈ l, ∀ p, J p → Gives (f a) p fun _ q => J q) (h : J p) :
    Gives (l.forM f) p fun _ q => J q := by
  induction l generalizing p with
  | nil => exact gives_pure h
  | cons a l ih =>
      rw [List.forM_eq_forM, List.forM_cons]
      refine (hf a List.mem_cons_self p h).bind fun _ q hq => ?_
      exact ih (fun b hb => hf b (List.mem_cons_of_mem _ hb)) hq

end

/-! ## Kinds of changes -/

/-- Where the parser succeeds, the program has changed along `R`, and `post` holds. -/
def Along (R : Program → Program → Prop) (x : Parser α) (p : Program)
    (post : Program → α → Prop) : Prop :=
  Gives x p fun a q => R p q ∧ post q a

section

variable {R : Program → Program → Prop} {x y : Parser α} {f : α → Parser β} {p : Program}
  {mid : Program → α → Prop} {post : Program → β → Prop}

theorem along_expected (what : String) : Along R (expected what) p mid := gives_expected what

/-- A parser that fails changes nothing. -/
theorem along_fail (fault : Fault) (span : Span) : Along R (fail fault span) p mid :=
  gives_fail fault span

/-- Both branches change the program along the relation. -/
theorem along_ite {b : Prop} [Decidable b] (hx : Along R x p mid) (hy : Along R y p mid) :
    Along R (if b then x else y) p mid := gives_ite hx hy

/-- A parser that adds nothing may come first. -/
theorem along_then [Still x] (hf : ∀ a, Along R (f a) p post) : Along R (x >>= f) p post :=
  still_then hf

/-- An addition is a change along the relation if it is one to the program. -/
theorem along_add {g : Program → α × Program} (hchange : R p (g p).2) (h : mid (g p).2 (g p).1) :
    Along R (add g) p mid := gives_add ⟨hchange, h⟩

/-- A change of the program that lies in the relation. -/
theorem along_modifyProgram {g : Program → Program} {post : Program → Unit → Prop}
    (hchange : R p (g p)) (h : post (g p) ()) : Along R (modifyProgram g) p post :=
  gives_modifyProgram ⟨hchange, h⟩

/-- A result that is put into the parser changes nothing. -/
theorem along_lift {r : Except Diagnostic α} (h : ∀ a, r = .ok a → Along R (f a) p post) :
    Along R (lift r >>= f) p post := by
  have hlift : Gives (lift r) p fun a q => r = .ok a ∧ q = p := gives_lift fun a ha => ⟨ha, rfl⟩
  refine hlift.bind fun a q hq => ?_
  rw [hq.2]
  exact h a hq.1

/-- Looking at the program changes nothing. -/
theorem along_program {f : Program → Parser β} (hf : Along R (f p) p post) :
    Along R (program >>= f) p post := by
  have hread : Gives program p fun a q => a = p ∧ q = p := gives_program ⟨rfl, rfl⟩
  refine hread.bind fun a q hq => ?_
  rw [hq.1, hq.2]
  exact hf

variable [IsPreorder Program R]

/-- Answering changes nothing. -/
theorem along_pure {a : α} (h : mid p a) : Along R (pure a) p mid := gives_pure ⟨refl p, h⟩

/-- An addition, and what follows it. -/
theorem along_add_bind {g : Program → α × Program} (hchange : R p (g p).2)
    (hf : Along R (f (g p).1) (g p).2 post) : Along R (add g >>= f) p post := by
  have hadd : Gives (add g) p fun a q => a = (g p).1 ∧ q = (g p).2 := gives_add ⟨rfl, rfl⟩
  refine hadd.bind fun a q hq => ?_
  rw [hq.1, hq.2]
  exact hf.mono fun b r hr => ⟨IsTrans.trans _ _ _ hchange hr.1, hr.2⟩

/-- A change of the program, and what follows it. -/
theorem along_modifyProgram_bind {g : Program → Program} {f : Unit → Parser β} (hchange : R p (g p))
    (hf : Along R (f ()) (g p) post) : Along R (modifyProgram g >>= f) p post := by
  have hmodify : Gives (modifyProgram g) p fun _ q => q = g p := gives_modifyProgram rfl
  refine hmodify.bind fun _ q hq => ?_
  rw [hq]
  exact hf.mono fun b r hr => ⟨IsTrans.trans _ _ _ hchange hr.1, hr.2⟩

/-- First changes of one kind, then changes of a kind that includes it. -/
theorem Along.bind_of_imp {S : Program → Program → Prop} (hx : Along S x p mid)
    (himp : ∀ q, S p q → R p q) (hf : ∀ a q, S p q → mid q a → Along R (f a) q post) :
    Along R (x >>= f) p post := by
  refine Gives.bind hx fun a q hq => (hf a q hq.1 hq.2).mono fun b r hr => ?_
  exact ⟨IsTrans.trans _ _ _ (himp q hq.1) hr.1, hr.2⟩

/-- Changes along a transitive relation are put together. -/
theorem Along.bind (hx : Along R x p mid)
    (hf : ∀ a q, R p q → mid q a → Along R (f a) q post) : Along R (x >>= f) p post :=
  hx.bind_of_imp (fun _ h => h) hf

/-- Items up to a closing token change the program along the relation if each of them does. -/
theorem along_untilClosed {close : TokenKind} {item : Parser Unit}
    (hitem : ∀ q, R p q → Along R item q fun _ _ => True) :
    Along R (untilClosed close item) p fun _ _ => True := by
  refine (gives_untilClosed (J := R p) (fun q hq => ?_) (refl p)).mono fun _ _ hq => ⟨hq, trivial⟩
  exact (hitem q hq).mono fun _ r hr => IsTrans.trans _ _ _ hq hr.1

/-- Parts between commas change the program along the relation if each of them does, and what is
known of each of them stays known. -/
theorem along_commaList {close : TokenKind} (hmono : ∀ q r a, R q r → mid q a → mid r a)
    (hx : ∀ q, R p q → Along R x q mid) :
    Along R (commaList close x) p fun q l => ∀ a ∈ l, mid q a := by
  refine gives_commaList (J := fun l q => R p q ∧ ∀ a ∈ l, mid q a) (fun l q hq => ?_)
    ⟨refl p, fun _ ha => by cases ha⟩
  refine (hx q hq.1).mono fun a r hr => ⟨IsTrans.trans _ _ _ hq.1 hr.1, fun b hb => ?_⟩
  rcases List.mem_append.mp hb with hb | hb
  · exact hmono q r b hr.1 (hq.2 b hb)
  · rw [List.mem_singleton.mp hb]
    exact hr.2

/-- Parsers for a list change the program along the relation if each of them does, and what is known
of each result stays known. -/
theorem along_mapM {l : List α} (hmono : ∀ q r b, R q r → post q b → post r b)
    (hf : ∀ a ∈ l, ∀ q, R p q → Along R (f a) q post) :
    Along R (l.mapM f) p fun q bs => ∀ b ∈ bs, post q b := by
  refine gives_mapM (J := fun bs q => R p q ∧ ∀ b ∈ bs, post q b) (fun a ha bs q hq => ?_)
    ⟨refl p, fun _ hb => by cases hb⟩
  refine (hf a ha q hq.1).mono fun b r hr => ⟨IsTrans.trans _ _ _ hq.1 hr.1, fun c hc => ?_⟩
  rcases List.mem_append.mp hc with hc | hc
  · exact hmono q r c hr.1 (hq.2 c hc)
  · rw [List.mem_singleton.mp hc]
    exact hr.2

/-- Parsers for a list change the program along the relation if each of them does. -/
theorem along_forM {f : α → Parser Unit} {l : List α}
    (hf : ∀ a ∈ l, ∀ q, R p q → Along R (f a) q fun _ _ => True) :
    Along R (l.forM f) p fun _ _ => True := by
  refine (gives_forM (J := R p) (fun a ha q hq => ?_) (refl p)).mono fun _ _ hq => ⟨hq, trivial⟩
  exact (hf a ha q hq).mono fun _ r hr => IsTrans.trans _ _ _ hq hr.1

end

end SignalGraph.Heart.Parser

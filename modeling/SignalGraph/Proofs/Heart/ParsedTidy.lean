import SignalGraph.Proofs.Heart.Following
import SignalGraph.Proofs.Heart.Parsed
import SignalGraph.Proofs.Program.Tidy

/-!
# SignalGraph.Proofs.Heart.ParsedTidy

Every program that is read from a text is tidy (`tidy_parseFile`).  Most parsers keep the order of
what the modules list, which is found from their parts (`Follows KeepsOrder`).  The others list
more: the first pass adds modules and their structs, the second adds functions, each pass module by
module, so what is listed is always listed last.
-/

namespace SignalGraph.Heart.Parser

open Program

variable {α β : Type}

/-! ## Parsers that keep the order -/

instance : AllowsVariables KeepsOrder where
  intern := .intern
  internText := .internText
  addVariable := .addVariable

instance : AllowsItems KeepsOrder where
  modifyModule p m _ hstructs hfunctions _ := .modifyModule p m hstructs hfunctions
  modifyStruct p id _ _ := .modifyStruct p id _

instance (f : FunctionId) : AllowsBody f KeepsOrder where
  modifySpan p v _ := .modifyVariable p v _
  addLocal p _ := .modifyFunction p f fun _ hfn => by
    have hblocks := Function.labelled_eq_self_iff.mp hfn
    exact Function.labelled_eq_self_iff.mpr hblocks
  addBlock p label := .modifyFunction p f fun fn hfn => by
    rw [Function.labelled_eq_self_iff] at hfn ⊢
    intro k hk
    rw [Arena.toList_push, List.mem_append, List.mem_singleton] at hk
    rcases hk with hk | rfl
    · exact hfn k hk
    · exact blockLabel_blockLabel label
  modifyBlock p b change hchange := .modifyFunction p f fun fn hfn => by
    rw [Function.labelled_eq_self_iff] at hfn ⊢
    intro k hk
    rcases Arena.mem_toList_modify hk with hk | ⟨hb, rfl⟩
    · exact hfn k hk
    · rw [hchange]
      exact hfn _ (Arena.get_mem_toList hb)

section

variable {p : Program} {m : ModuleId}

/-! ## Functions -/

/-- The program is tidy and has `n` modules, of which at most the first `k` list functions. -/
structure Listing (n k : Nat) (p : Program) : Prop where
  tidy : p.Tidy
  count : p.modules.size = n
  rest : p.ListsNoneFrom (·.functions) k

variable {n k : Nat}

/-- A parser that keeps the order of things keeps a listing. -/
theorem Listing.orderly {x : Parser α} [hx : Follows KeepsOrder x] (h : Listing n k p) :
    Gives x p fun _ => Listing n k := by
  refine (hx.along p).mono fun _ q ⟨hq, _⟩ => ⟨h.tidy.keep hq, hq.moduleCount.trans h.count, ?_⟩
  exact h.rest.keep hq.moduleCount fun id _ => hq.functionLists id

theorem listing_add {g : Program → α × Program} (h : Listing n k (g p).2) :
    Gives (add g) p fun _ => Listing n k := gives_add h

/-- The module that is being read may list one more function at its end. -/
theorem Listing.addFunction (h : Listing n (m.idx + 1) p) (hm : m.idx < n) {f : Function}
    (howner : f.owner = m) (hblocks : f.blocks = ∅) :
    Listing n (m.idx + 1) (p.addFunction f).2 where
  tidy := by
    subst howner
    refine h.tidy.addFunction (Arena.mem_handles_iff.mpr (h.count ▸ hm)) h.rest ?_
    refine Function.labelled_eq_self_iff.mpr fun b hb => ?_
    rw [hblocks] at hb
    cases hb
  count := (Arena.size_modify _ _ _).trans h.count
  rest := by
    refine h.rest.keep (Arena.size_modify _ _ _) fun id hid => ?_
    have hne : id ≠ f.owner := by
      rintro rfl
      rw [howner] at hid
      exact Nat.not_succ_le_self _ hid
    exact congrArg Module.functions (Arena.get_modify_of_ne hne _)

/-- Reading the head of a function adds one at the end of the module's list. -/
theorem listing_functionItem (h : Listing n (m.idx + 1) p) (hm : m.idx < n) :
    Gives (functionItem m) p fun _ => Listing n (m.idx + 1) := by
  unfold functionItem
  refine still_then fun first => still_then fun keyword => still_then fun name =>
    still_then fun _ => ?_
  refine h.orderly.bind fun parameters p h => still_then fun _ => ?_
  refine h.orderly.bind fun returns p h => still_then fun q => ?_
  extract_lets inProcessor kind
  refine h.orderly.bind fun a p h => still_then fun span => ?_
  refine (listing_add ?_).bind fun id p h => still_gives fun _ => h
  exact h.addFunction hm rfl rfl

/-- Every item of a module keeps the listing. -/
theorem listing_item (h : Listing n (m.idx + 1) p) (hm : m.idx < n) :
    Gives (item m) p fun _ => Listing n (m.idx + 1) := by
  unfold item
  refine still_then fun t => ?_
  split
  iterate 8 exact h.orderly
  iterate 3 exact listing_functionItem h hm
  exact gives_expected _

/-- All items of a module keep the listing. -/
theorem listing_items (h : Listing n (m.idx + 1) p) (hm : m.idx < n) (bound : Nat) :
    Gives (items m bound) p fun _ => Listing n (m.idx + 1) := by
  induction bound generalizing p with
  | zero => exact gives_expected _
  | succ bound ih =>
      unfold items
      refine still_then fun closed => gives_ite (gives_pure h) ?_
      refine (listing_item h hm).bind fun pending p h => (ih h).bind fun rest p h => gives_pure h

/-! ## Modules -/

/-- The structs of the newest module. -/
theorem listing_structNames (h : Listing n 0 p) (hm : n = m.idx + 1) (bound depth : Nat) :
    Gives (structNames m bound depth) p fun _ => Listing n 0 := by
  induction bound generalizing p depth with
  | zero => exact gives_expected _
  | succ bound ih =>
      unfold structNames
      refine still_then fun t => ?_
      split
      · exact gives_expected _
      · exact still_then fun _ => ih h _
      · exact still_then fun _ => gives_ite (gives_pure h) (ih h _)
      · refine still_then fun _ => gives_ite ?_ (ih h depth)
        refine still_then fun name => still_then fun span => ?_
        refine (listing_add ?_).bind fun _ p h => ih h depth
        have hrange : m ∈ p.modules.handles := by
          rw [Arena.mem_handles_iff, h.count, hm]
          exact Nat.lt_succ_self _
        refine ⟨h.tidy.addStruct hrange (fun id hid hle => ?_) name span,
          (Arena.size_modify _ _ _).trans h.count, ?_⟩
        · have hlt := Arena.mem_handles_iff.mp hid
          rw [h.count, hm] at hlt
          exact absurd hle (Nat.not_le.mpr hlt)
        · refine h.rest.keep (Arena.size_modify _ _ _) fun id _ => ?_
          exact KeepsOrder.moduleAt_modifyModule_eq Module.functions _ m id fun _ => rfl

/-- The newest module. -/
theorem listing_outline (h : Listing n 0 p) :
    Gives outline p fun o q => o.id.idx = n ∧ Listing (n + 1) 0 q := by
  unfold outline
  refine still_then fun first => ?_
  split
  · exact gives_expected _
  · rename_i kind _
    refine still_then fun _ => still_then fun name => still_then fun span => ?_
    -- the new module lists nothing, and those before it list what they did
    have hadded : Listing (n + 1) 0 (p.addModule kind name).2 := by
      refine ⟨h.tidy.addModule kind name, ?_, fun id hid hle => ?_⟩
      · exact (Arena.size_push _ _).trans (congrArg (· + 1) h.count)
      · have hid : id ∈ (p.modules.push { kind, name }).handles := hid
        rw [Arena.handles_push, List.mem_append, List.mem_singleton] at hid
        rcases hid with hid | rfl
        · refine Eq.trans ?_ (h.rest id hid hle)
          exact congrArg Module.functions (Arena.get_push_of_mem hid _)
        · exact congrArg Module.functions (Arena.get_push_next p.modules _)
    have hid : p.modules.next.idx = n := h.count
    have hadd : Gives (add (·.addModule kind name)) p fun id q =>
        id.idx = n ∧ Listing (n + 1) 0 q :=
      gives_add ⟨hid, hadded⟩
    refine hadd.bind fun id p hp => ?_
    obtain ⟨hid, h⟩ := hp
    have hspan : Follows KeepsOrder (modifyProgram (·.modifyModule id fun m => { m with span })) :=
      follows_modifyModule (fun _ => rfl) (fun _ => rfl) fun _ => rfl
    refine h.orderly.bind fun _ p h => still_then fun annotations => ?_
    extract_lets jp
    -- what is left once the annotations have been skipped, if there are any
    have hjp : ∀ r, Gives (jp r) p fun o q => o.id.idx = n ∧ Listing (n + 1) 0 q := by
      intro r
      unfold jp
      refine still_then fun _ => still_then fun body => still_then fun bound => ?_
      refine (listing_structNames h (by rw [hid]) bound 0).bind fun _ q h => ?_
      exact gives_pure ⟨hid, h⟩
    clear_value jp
    exact still_then fun bracket => gives_ite (still_then fun _ => hjp _) (hjp _)

/-- The first pass adds modules one after the other and lists no functions. -/
theorem listing_outlines (h : Listing n 0 p) (bound : Nat) :
    Gives (outlines bound) p fun l q =>
      l.map (·.id.idx) = List.range' n l.length ∧ Listing (n + l.length) 0 q := by
  induction bound generalizing n p with
  | zero => exact gives_pure ⟨rfl, h⟩
  | succ bound ih =>
      unfold outlines
      refine still_then fun atEnd => gives_ite (gives_pure ⟨rfl, h⟩) ?_
      refine (listing_outline h).bind fun o q hq => (ih hq.2).bind fun l r hr => ?_
      obtain ⟨ho, -⟩ := hq
      obtain ⟨hl, hr⟩ := hr
      refine gives_pure ⟨?_, ?_⟩
      · rw [List.map_cons, ho, hl]
        rfl
      · rwa [List.length_cons, Nat.add_comm l.length, ← Nat.add_assoc]

/-- The second pass over a module moves the listing on to the next one. -/
theorem listing_contents {o : Outline} (h : Listing n o.id.idx p) (ho : o.id.idx < n) :
    Gives (contents o) p fun _ => Listing n (o.id.idx + 1) := by
  have h : Listing n (o.id.idx + 1) p :=
    ⟨h.tidy, h.count, fun id hid hle => h.rest id hid (Nat.le_of_succ_le hle)⟩
  unfold contents
  refine still_then fun _ => h.orderly.bind fun a p h => ?_
  have hannotated : Follows KeepsOrder (modifyProgram
      (·.modifyModule o.id fun m => { m with annotations := a })) :=
    follows_modifyProgram fun p => .single (.modifyModule p o.id (fun _ => rfl) fun _ => rfl)
  exact h.orderly.bind fun _ p h => still_then fun _ => still_then fun bound =>
    listing_items h ho bound

/-- The second pass takes the modules in the order in which they were added. -/
theorem listing_allContents {l : List Outline} (h : Listing n k p)
    (hl : l.map (·.id.idx) = List.range' k l.length) (hcount : k + l.length ≤ n) :
    Gives (l.mapM contents) p fun _ => Listing n (k + l.length) := by
  induction l generalizing k p with
  | nil =>
      rw [List.mapM_nil]
      exact gives_pure h
  | cons o l ih =>
      rw [List.length_cons] at hl hcount
      obtain ⟨rfl, hl⟩ : o.id.idx = k ∧ l.map (·.id.idx) = List.range' (k + 1) l.length := by
        simpa [List.range'_succ] using hl
      rw [List.mapM_cons]
      refine (listing_contents h (by omega)).bind fun b q hq => ?_
      refine (ih hq hl (by omega)).bind fun bs r hr => gives_pure ?_
      rwa [List.length_cons, Nat.add_comm l.length, ← Nat.add_assoc]

end

/-! ## Programs -/

/-- The third pass only fills bodies, so the program stays as tidy as the first two leave it. -/
theorem tidy_wholeProgram (text : String) : Gives (wholeProgram text) {} fun _ => Tidy := by
  have hempty : Listing 0 0 {} := ⟨.empty, rfl, fun _ hid => by cases hid⟩
  unfold wholeProgram
  refine still_then fun _ => still_then fun bound => ?_
  refine (listing_outlines hempty bound).bind fun outlines p ⟨hids, h⟩ => ?_
  have h : Listing outlines.length 0 p := Nat.zero_add outlines.length ▸ h
  refine (listing_allContents h hids (Nat.le_of_eq (Nat.zero_add _))).bind fun bodies q hq => ?_
  refine gives_forM (J := Tidy) (fun b _ r hr => ?_) hq.tidy
  have hbody : Follows KeepsOrder (body b) := by unfold body; infer_instance
  exact (hbody.along r).mono fun _ _ hs => hr.keep hs.1

end SignalGraph.Heart.Parser

namespace SignalGraph.Heart

/-- Every program that is read from a text is tidy. -/
theorem tidy_parseFile {file : FileId} {text : String} {p : Program}
    (h : parseFile file text = .ok p) : p.Tidy := of_parseFile (Parser.tidy_wholeProgram text) h

end SignalGraph.Heart

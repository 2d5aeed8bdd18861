import SignalGraph.Proofs.Heart.Lexed
import SignalGraph.Proofs.Heart.RawBytes

/-!
# SignalGraph.Proofs.Heart.Partition

Lexing cuts a text into tokens and what stands between them (`lex_partition`): token after token, no
two of them overlapping, each of them whole characters, and nothing but blanks and comments left
over.  The lexer's answer is described first as a cutting of the characters (`cutting_lexFrom`);
what it says about places in the text is read off that by induction.
-/

namespace SignalGraph

namespace Text

/-! ## Places in a text -/

/-- The length in bytes is that of the string of the characters. -/
theorem byteLength_eq (cs : List Char) : byteLength cs = (String.ofList cs).utf8ByteSize := by
  induction cs with
  | nil => rfl
  | cons c cs ih =>
      have hcons : String.ofList (c :: cs) = String.singleton c ++ String.ofList cs := by
        rw [String.singleton_eq_ofList, ← String.ofList_append, List.singleton_append]
      rw [byteLength, ih, hcons, String.utf8ByteSize_append, String.utf8ByteSize_singleton]

theorem byteLength_toList (s : String) : byteLength s.toList = s.utf8ByteSize := by
  rw [byteLength_eq, String.ofList_toList]

/-- Characters take at least one byte. -/
theorem byteLength_pos {cs : List Char} (h : cs ≠ []) : 0 < byteLength cs := by
  cases cs with
  | nil => exact absurd rfl h
  | cons c cs => exact Nat.lt_of_lt_of_le c.utf8Size_pos (Nat.le_add_right _ _)

/-- The byte offset falls between two characters of the text or at one of its ends. -/
def IsBoundary (text : String) (offset : Nat) : Prop := (String.Pos.Raw.mk offset).IsValid text

/-- Boundaries lie within the text. -/
theorem IsBoundary.le_size {text : String} {offset : Nat} (h : IsBoundary text offset) :
    offset ≤ text.utf8ByteSize := h.le_utf8ByteSize

/-- Between two parts of a text there is a boundary. -/
theorem isBoundary_of_toList_eq {text : String} {before after : List Char}
    (h : text.toList = before ++ after) : IsBoundary text (byteLength before) := by
  refine String.Pos.Raw.isValid_iff_exists_append.mpr ⟨.ofList before, .ofList after, ?_, ?_⟩
  · rw [← String.ofList_append, ← h, String.ofList_toList]
  · rw [byteLength_eq]
    rfl

/-- The text has the characters `inside` from byte `start` up to byte `stop`, and then `after`. -/
def Between (text : String) (start stop : Nat) (inside after : List Char) : Prop :=
  ∃ before, text.toList = before ++ (inside ++ after) ∧ byteLength before = start ∧
    start + byteLength inside = stop

namespace Between

variable {text : String} {start stop : Nat} {inside after : List Char}

/-- Characters between two places start at a boundary. -/
theorem isBoundary_start (h : Between text start stop inside after) : IsBoundary text start := by
  obtain ⟨before, htext, rfl, -⟩ := h
  exact isBoundary_of_toList_eq htext

/-- Characters between two places end at a boundary. -/
theorem isBoundary_stop (h : Between text start stop inside after) : IsBoundary text stop := by
  obtain ⟨before, htext, rfl, rfl⟩ := h
  rw [← byteLength_append]
  exact isBoundary_of_toList_eq (by rw [htext, List.append_assoc])

/-- What is between two places does not end before it starts. -/
theorem start_le_stop (h : Between text start stop inside after) : start ≤ stop := by
  obtain ⟨before, -, -, rfl⟩ := h
  exact Nat.le_add_right _ _

end Between

end Text

namespace Heart

open Text

/-! ## Between tokens -/

/-- Blanks and comments, as they may stand before the characters `after`.  A comment goes on to the
end of its line: it holds no line break, and only a line break may follow it. -/
inductive Trivia (after : List Char) : List Char → Prop
  | nil : Trivia after []
  | blank {c : Char} {cs : List Char} (hc : isBlank c) (h : Trivia after cs) :
      Trivia after (c :: cs)
  | comment {body cs : List Char} (hbody : '\n' ∉ body)
    (hline : ∀ c ∈ (cs ++ after).head?, c = '\n') (h : Trivia after cs) :
    Trivia after ('/' :: '/' :: body ++ cs)

/-- The rest of a comment and then more trivia. -/
def CommentThenTrivia (after cs : List Char) : Prop :=
  ∃ body rest, cs = body ++ rest ∧ '\n' ∉ body ∧ (∀ c ∈ (rest ++ after).head?, c = '\n') ∧
    Trivia after rest

/-- A comment takes every character up to the line break. -/
theorem commentThenTrivia_cons {after cs : List Char} {c : Char} (hc : c ≠ '\n')
    (h : CommentThenTrivia after cs) : CommentThenTrivia after (c :: cs) := by
  obtain ⟨body, rest, rfl, hbody, hline, hrest⟩ := h
  exact ⟨c :: body, rest, rfl, by simp [hbody, hc.symm], hline, hrest⟩

/-- What starts with two slashes and goes on as a comment is trivia. -/
theorem trivia_of_slashes {after cs : List Char} (h : CommentThenTrivia after ('/' :: cs)) :
    Trivia after ('/' :: '/' :: cs) := by
  obtain ⟨body, rest, hcs, hbody, hline, hrest⟩ := h
  cases body with
  | nil =>
      obtain rfl : rest = '/' :: cs := hcs.symm
      exact absurd (hline '/' rfl) (by decide)
  | cons d body =>
      obtain ⟨rfl, rfl⟩ := List.cons.inj hcs
      exact .comment (fun h => hbody (List.mem_cons_of_mem _ h)) hline hrest

/-- What is split off is trivia; inside of a comment that goes for what follows the comment. -/
theorem trivia_splitTrivia (cs : List Char) :
    Trivia (splitTrivia false cs).2 (splitTrivia false cs).1 ∧
      CommentThenTrivia (splitTrivia true cs).2 (splitTrivia true cs).1 := by
  induction cs with
  | nil => exact ⟨.nil, [], [], rfl, nofun, nofun, .nil⟩
  | cons c cs ih =>
      obtain ⟨houtside, hinside⟩ := ih
      constructor
      -- outside of comments: a blank, or the first slash of a comment, or the end of the trivia
      · rw [splitTrivia]
        split
        · next hskip =>
          cases hcomment : c == '/' && cs.head? == some '/' with
          | false =>
              have hblank : isBlank c := by simpa [hcomment] using hskip
              exact .blank hblank houtside
          | true =>
              obtain ⟨hc, hhead⟩ := Bool.and_eq_true_iff.mp hcomment
              obtain rfl := eq_of_beq hc
              obtain ⟨ds, rfl⟩ : ∃ ds, cs = '/' :: ds := by
                cases cs with
                | nil => simp at hhead
                | cons d ds => exact ⟨ds, by simpa using hhead⟩
              exact trivia_of_slashes hinside
        · exact .nil
      · rw [splitTrivia]
        by_cases hc : c = '\n'
        · subst hc
          exact ⟨[], _, rfl, nofun, fun d hd => (Option.some.inj hd).symm,
            .blank (by decide) houtside⟩
        · rw [bne_iff_ne.mpr hc]
          exact commentThenTrivia_cons hc hinside

/-! ## Cutting -/

/-- Characters from a byte offset on are cut: what stands before the next token is taken off, and
then either a token, or characters that are none, or there is nothing left. -/
inductive Cutting (file : FileId) : Nat → List Char → Except Diagnostic (List Token) → Prop
  | done {n : Nat} {gap : List Char} (hgap : Trivia [] gap) :
    Cutting file n gap (.ok [.eof file (n + byteLength gap)])
  | fault {n : Nat} {gap lexeme rest : List Char} {d : Diagnostic}
    (hgap : Trivia (lexeme ++ rest) gap)
    (hspan : d.span = ⟨file, n + byteLength gap, n + byteLength gap + byteLength lexeme⟩) :
    Cutting file n (gap ++ (lexeme ++ rest)) (.error d)
  | token {n : Nat} {gap lexeme rest : List Char} {kind : TokenKind}
    {r : Except Diagnostic (List Token)} (hgap : Trivia (lexeme ++ rest) gap) (hne : lexeme ≠ [])
    (hkind : kind ≠ .eof) (h : Cutting file (n + byteLength gap + byteLength lexeme) rest r) :
    Cutting file n (gap ++ (lexeme ++ rest))
      (r.map (⟨kind, String.ofList lexeme,
        ⟨file, n + byteLength gap, n + byteLength gap + byteLength lexeme⟩⟩ :: ·))

/-- No character is scanned as the end. -/
theorem kind_ne_eof_of_scan {c : Char} {cs : List Char} {kind : TokenKind}
    (h : (scan c cs).1 = .ok kind) : kind ≠ .eof := by
  have hnumber : ∀ ds, (scanNumber ds).1 ≠ .eof := by
    intro ds
    rcases scanNumber_kind ds with hkind | hkind <;> simp [hkind]
  have hsymbol : ∀ {k}, symbol? c = some k → k ≠ .eof := by
    intro k hk
    unfold symbol? at hk
    split at hk <;> cases hk <;> simp
  rintro rfl
  unfold scan at h
  simp only at h
  split at h
  · split at h
    · cases h
    · split at h <;> cases h
  · split at h
    · split at h <;> cases h
    · split at h
      · exact hnumber _ (Except.ok.inj h)
      · split at h
        · cases h
        · split at h
          · cases h
          · split at h
            · exact hnumber _ (Except.ok.inj h)
            · split at h
              · cases h
              · split at h
                · next k hk => exact hsymbol hk (Except.ok.inj h)
                · cases h

/-- The lexer's answer cuts the characters. -/
theorem cutting_lexFrom (file : FileId) (n : Nat) (cs : List Char) :
    Cutting file n cs (lexFrom file n cs) := by
  induction hlength : cs.length using Nat.strongRecOn generalizing n cs with
  | ind length ih =>
      have hcs := splitTrivia_append false cs
      have hgap := (trivia_splitTrivia cs).1
      rw [lexFrom_eq]
      generalize (splitTrivia false cs).1 = gap at hcs hgap
      -- after the gap the text ends, or one token follows and then a shorter text
      cases hrest : (splitTrivia false cs).2 with
      | nil =>
          rw [hrest, List.append_nil] at hcs
          rw [hrest] at hgap
          subst hcs
          exact .done hgap
      | cons c rest =>
          rw [hrest] at hcs hgap
          have hlexeme :
            c :: rest = (c :: rest.take (scan c rest).2) ++ rest.drop (scan c rest).2 := by
            rw [List.cons_append, List.take_append_drop]
          have hcut :
            cs = gap ++ ((c :: rest.take (scan c rest).2) ++ rest.drop (scan c rest).2) := by
            rw [← hlexeme, hcs]
          rw [hlexeme] at hgap
          rw [hcut, lexRest]
          cases hkind : (scan c rest).1 with
          | error fault => exact .fault hgap rfl
          | ok kind =>
              refine .token hgap (List.cons_ne_nil _ _) (kind_ne_eof_of_scan hkind) ?_
              refine ih _ ?_ _ _ rfl
              rw [← hlength, ← hcs, List.length_append, List.length_cons, List.length_drop]
              omega

/-! ## What a cutting says about the text -/

/-- From byte `n` on, the text consists of the tokens and what stands between them. -/
structure Partition (file : FileId) (text : String) (n : Nat) (tokens : List Token) : Prop where
  /-- Only the last token is the end of the text; it is empty and stands there. -/
  ending : ∃ init, tokens = init ++ [.eof file text.utf8ByteSize] ∧ ∀ t ∈ init, t.kind ≠ .eof
  /-- Every token stops before all later ones start. -/
  ordered : tokens.Pairwise fun t u => t.span.stop ≤ u.span.start
  nonempty : ∀ t ∈ tokens, t.kind ≠ .eof → t.span.start < t.span.stop
  /-- Every token stands where its span says. -/
  placed : ∀ t ∈ tokens, t.span.file = file ∧ n ≤ t.span.start ∧
    ∃ after, Between text t.span.start t.span.stop t.text.toList after
  /-- From the end of a token to the start of the next, and before the first one, there are only
  blanks and comments. -/
  gaps : ∀ gap ∈ (n :: tokens.map (·.span.stop)).zip (tokens.map (·.span.start)),
    ∃ inside after, Between text gap.1 gap.2 inside after ∧ Trivia after inside

section

variable {file : FileId} {text : String} {n start stop : Nat} {before gap lexeme rest : List Char}
  {kind : TokenKind} {tokens : List Token}

/-- At the end of the text only blanks and comments are left. -/
theorem Partition.done (htext : text.toList = before ++ gap) (hn : byteLength before = n)
    (hgap : Trivia [] gap) : Partition file text n [.eof file (n + byteLength gap)] where
  ending := by
    have hsize : n + byteLength gap = text.utf8ByteSize := by
      rw [← byteLength_toList, htext, byteLength_append, hn]
    exact ⟨[], by rw [hsize, List.nil_append], nofun⟩
  ordered := List.pairwise_singleton _ _
  nonempty t ht hkind := by
    obtain rfl := List.mem_singleton.mp ht
    exact absurd rfl hkind
  placed t ht := by
    obtain rfl := List.mem_singleton.mp ht
    refine ⟨rfl, Nat.le_add_right _ _, [], before ++ gap, ?_, ?_, rfl⟩
    · rw [htext]
      exact (List.append_nil _).symm
    · rw [byteLength_append, hn]
      rfl
  gaps g hg := by
    obtain rfl := List.mem_singleton.mp hg
    exact ⟨gap, [], ⟨before, by rw [htext, List.append_nil], hn, rfl⟩, hgap⟩

/-- Blanks and comments, then a token, then the rest. -/
theorem Partition.cons (htext : text.toList = before ++ (gap ++ (lexeme ++ rest)))
    (hn : byteLength before = n) (hgap : Trivia (lexeme ++ rest) gap) (hne : lexeme ≠ [])
    (hkind : kind ≠ .eof) (hstart : n + byteLength gap = start)
    (hstop : start + byteLength lexeme = stop) (h : Partition file text stop tokens) :
    Partition file text n (⟨kind, String.ofList lexeme, ⟨file, start, stop⟩⟩ :: tokens) := by
  have hn_le : n ≤ start := hstart ▸ Nat.le_add_right _ _
  have hlt : start < stop := hstop ▸ Nat.lt_add_of_pos_right (byteLength_pos hne)
  refine ⟨?_, ?_, ?_, ?_, ?_⟩
  · obtain ⟨init, rfl, hinit⟩ := h.ending
    exact ⟨_ :: init, rfl, List.forall_mem_cons.mpr ⟨hkind, hinit⟩⟩
  · exact List.pairwise_cons.mpr ⟨fun u hu => (h.placed u hu).2.1, h.ordered⟩
  · exact List.forall_mem_cons.mpr ⟨fun _ => hlt, h.nonempty⟩
  · refine List.forall_mem_cons.mpr ⟨⟨rfl, hn_le, rest, before ++ gap, ?_, ?_, ?_⟩, fun u hu => ?_⟩
    · rw [htext, String.toList_ofList, List.append_assoc]
    · rw [byteLength_append, hn, hstart]
    · rw [String.toList_ofList, hstop]
    · obtain ⟨hfile, hle, hplaced⟩ := h.placed u hu
      exact ⟨hfile, by omega, hplaced⟩
  · refine List.forall_mem_cons.mpr ⟨?_, h.gaps⟩
    exact ⟨gap, lexeme ++ rest, ⟨before, htext, hn, hstart⟩, hgap⟩

end

/-- What the lexer cuts off piece by piece is a partition of the text. -/
theorem Cutting.partition {file : FileId} {text : String} {n : Nat} {before cs : List Char}
    {tokens : List Token} {r : Except Diagnostic (List Token)} (h : Cutting file n cs r)
    (htext : text.toList = before ++ cs) (hn : byteLength before = n) (hr : r = .ok tokens) :
    Partition file text n tokens := by
  induction h generalizing before tokens with
  | done hgap =>
      obtain rfl := Except.ok.inj hr
      exact .done htext hn hgap
  | fault => cases hr
  | @token n gap lexeme rest kind r hgap hne hkind _ ih =>
      cases r with
      | error d => cases hr
      | ok tokens' =>
          obtain rfl := Except.ok.inj hr
          have htext' : text.toList = before ++ gap ++ lexeme ++ rest := by simp [htext]
          exact .cons htext hn hgap hne hkind rfl rfl (ih htext' (by simp [hn, Nat.add_assoc]) rfl)

/-- A fault is reported for characters of the text. -/
theorem Cutting.between_of_error {file : FileId} {text : String} {n : Nat} {before cs : List Char}
    {d : Diagnostic} {r : Except Diagnostic (List Token)} (h : Cutting file n cs r)
    (htext : text.toList = before ++ cs) (hn : byteLength before = n) (hr : r = .error d) :
    d.span.file = file ∧ ∃ inside after, Between text d.span.start d.span.stop inside after := by
  induction h generalizing before with
  | done => cases hr
  | @fault n gap lexeme rest d' hgap hspan =>
      obtain rfl := Except.error.inj hr
      rw [hspan]
      refine ⟨rfl, lexeme, rest, before ++ gap, ?_, ?_, rfl⟩
      · rw [htext, List.append_assoc]
      · rw [byteLength_append, hn]
  | @token n gap lexeme rest kind r hgap hne hkind _ ih =>
      cases r with
      | ok tokens => cases hr
      | error d' =>
          obtain rfl := Except.error.inj hr
          have htext' : text.toList = before ++ gap ++ lexeme ++ rest := by simp [htext]
          exact ih htext' (by simp [hn, Nat.add_assoc]) rfl

/-- Lexing partitions the text: its tokens stand one after the other, only the last one is the end
of the text, and between them there are blanks and comments only.  All places that the tokens or a
fault name are places between characters of the text, also if the lexer walks over the bytes of the
text and does not know where its characters start. -/
theorem lex_partition (file : FileId) (text : String) :
    (∀ tokens, lex file text = .ok tokens → Partition file text 0 tokens ∧
      ∀ t ∈ tokens, IsBoundary text t.span.start ∧ IsBoundary text t.span.stop) ∧
    (∀ d, lex file text = .error d → d.span.file = file ∧ d.span.start ≤ d.span.stop ∧
      d.span.stop ≤ text.utf8ByteSize ∧ IsBoundary text d.span.start ∧
      IsBoundary text d.span.stop) ∧
    lexBytes file text.toUTF8.data.toList =
      (lex file text).map (List.map fun t => (t.kind, t.span)) := by
  have hcutting : Cutting file 0 text.toList (lex file text) := cutting_lexFrom file 0 text.toList
  have htext : text.toList = [] ++ text.toList := rfl
  refine ⟨fun tokens h => ?_, fun d h => ?_, lexBytes_utf8 file text⟩
  · have hpartition := hcutting.partition htext rfl h
    refine ⟨hpartition, fun t ht => ?_⟩
    obtain ⟨-, -, after, hbetween⟩ := hpartition.placed t ht
    exact ⟨hbetween.isBoundary_start, hbetween.isBoundary_stop⟩
  · obtain ⟨hfile, inside, after, hbetween⟩ := hcutting.between_of_error htext rfl h
    exact ⟨hfile, hbetween.start_le_stop, hbetween.isBoundary_stop.le_size,
      hbetween.isBoundary_start, hbetween.isBoundary_stop⟩

end Heart

end SignalGraph

import Mathlib.Data.List.Induction
import SignalGraph.Proofs.Heart.RawBytes
import SignalGraph.Proofs.Source.Excerpts

/-!
# SignalGraph.Proofs.Source.Lines

Line numbers, columns and line texts agree.  A line number comes from a search by halves in a table
of line starts, a line text from a walk over the text in both directions from an offset.  Both are
compared with the bytes before the offset and with the pieces of the text between its line breaks
(`SourceFile.lineCol_lineText_exact`).

* `getElem?_splitOn`: the piece around a place of a list, by the number of separators before it;
* `SourceFile.lineCol_fst` and `SourceFile.lineCol_snd`: line and column, read off the bytes before
  an offset;
* `binarySearch_cutsAt`: where a search by halves in an ascending table ends;
* `SourceFile.lineCol?_eq`: the search in the table, in 32-bit numbers, gives the same line and
  column.
-/

namespace SignalGraph

/-! ## Pieces of a list -/

section

variable {α : Type} [BEq α]

/-- There is one more part than separators. -/
theorem length_splitOn (a : α) (l : List α) : (l.splitOn a).length = l.count a + 1 := by
  induction l with
  | nil => simp
  | cons x l ih =>
      rw [List.splitOn_cons_eq_if_modifyHead, List.count_cons]
      split
      · rw [List.length_cons, ih]
      · rw [List.length_modifyHead, ih, Nat.add_zero]

/-- The first piece ends before the first separator. -/
theorem head?_splitOn (a : α) (l : List α) :
    (l.splitOn a).head? = some (l.takeWhile (· != a)) := by
  induction l with
  | nil => simp
  | cons x l ih =>
      rw [List.splitOn_cons_eq_if_modifyHead]
      cases hx : x == a with
      | true => simp [bne, hx]
      | false => simp [bne, hx, ih]

variable [LawfulBEq α]

/-- A part without the separator is taken as a whole. -/
theorem takeWhile_ne_append {a : α} {l : List α} (ha : a ∉ l) (after : List α) :
    (l ++ after).takeWhile (· != a) = l ++ after.takeWhile (· != a) :=
  List.takeWhile_append_of_pos fun _ hx => bne_iff_ne.mpr fun heq => ha (heq ▸ hx)

/-- The piece around a place goes from the last separator before it to the first one after it, and
as many pieces come before it as separators. -/
theorem getElem?_splitOn (a : α) (before after : List α) :
    ((before ++ after).splitOn a)[before.count a]? =
      some ((before.reverse.takeWhile (· != a)).reverse ++ after.takeWhile (· != a)) := by
  by_cases ha : a ∈ before.reverse
  · -- the last separator before the place ends a list of whole pieces
    obtain ⟨last, front, hsplit, hlast⟩ := List.eq_append_cons_of_mem ha
    have hbefore : before = front.reverse ++ a :: last.reverse := by
      rw [← List.reverse_reverse before, hsplit]
      simp
    have hpiece : before.reverse.takeWhile (· != a) = last := by
      rw [hsplit, takeWhile_ne_append hlast]
      simp
    have hcount : before.count a = (front.reverse.splitOn a).length := by
      have hnone : last.reverse.count a = 0 := by
        rw [List.count_reverse]
        exact List.count_eq_zero.mpr hlast
      rw [hbefore, List.count_append, List.count_cons_self, hnone, length_splitOn]
    rw [hpiece, hcount, hbefore, List.append_assoc, List.cons_append, List.splitOn_append_cons_self,
      List.getElem?_append_right (Nat.le_refl _), Nat.sub_self, ← List.head?_eq_getElem?,
      head?_splitOn, takeWhile_ne_append (by simpa using hlast)]
  · have hnone : before.count a = 0 := List.count_eq_zero.mpr (by simpa using ha)
    have hall := takeWhile_ne_append ha []
    rw [List.append_nil, List.takeWhile_nil, List.append_nil] at hall
    rw [hnone, hall, List.reverse_reverse, ← List.head?_eq_getElem?, head?_splitOn,
      takeWhile_ne_append (by simpa using ha)]

end

namespace Text

/-! ## Line breaks among bytes -/

/-- The byte that ends a line. -/
def newline : UInt8 := 10

/-- A line break has a byte of its own: it is no byte of any other character. -/
theorem newline_not_mem {c : Char} (h : c ≠ '\n') : newline ∉ String.utf8EncodeChar c := by
  intro hmem
  by_cases hc : IsAscii c
  · rw [String.utf8EncodeChar_eq_singleton hc.utf8Size, List.mem_singleton] at hmem
    refine h (Char.toNat_inj.mp ?_)
    have hbyte : newline.toNat = c.val.toNat % 2 ^ 8 := by rw [hmem, UInt32.toNat_toUInt8]
    have hsmall : c.val.toNat < 2 ^ 8 := Nat.lt_trans hc (by decide)
    rw [Nat.mod_eq_of_lt hsmall] at hbyte
    exact hbyte.symm
  · have hlatin : '\n' ∈ latin (String.utf8EncodeChar c) := List.mem_map.mpr ⟨newline, hmem, rfl⟩
    exact not_isAscii_of_mem_utf8EncodeChar hc _ hlatin (by decide)

/-- A line break is one byte. -/
theorem utf8_cons_newline (cs : List Char) : utf8 ('\n' :: cs) = newline :: utf8 cs := rfl

/-- There are as many line breaks as bytes with that value: no byte of a longer character has it. -/
theorem count_newline_utf8 (cs : List Char) : (utf8 cs).count newline = cs.count '\n' := by
  induction cs with
  | nil => rfl
  | cons c cs ih =>
      by_cases hc : c = '\n'
      · rw [hc, utf8_cons_newline, List.count_cons_self, List.count_cons_self, ih]
      · rw [utf8_cons, List.count_append, List.count_eq_zero.mpr (newline_not_mem hc),
          List.count_cons_of_ne (by simpa using hc), ih, Nat.zero_add]

/-- The offsets after the line breaks of a list of bytes that starts at offset `n`. -/
def breakEnds (n : Nat) (bs : List UInt8) : List Nat :=
  (bs.zipIdx n).filterMap fun (b, i) => if b = newline then some (i + 1) else none

@[simp] theorem breakEnds_nil (n : Nat) : breakEnds n [] = [] := rfl

/-- The places after line breaks, byte by byte. -/
theorem breakEnds_cons (n : Nat) (b : UInt8) (bs : List UInt8) :
    breakEnds n (b :: bs) =
      if b = newline then (n + 1) :: breakEnds (n + 1) bs else breakEnds (n + 1) bs := by
  rw [breakEnds, List.zipIdx_cons, List.filterMap_cons]
  split <;> simp_all [breakEnds]

/-- The places after line breaks in two parts of a text. -/
theorem breakEnds_append (n : Nat) (bs bs' : List UInt8) :
    breakEnds n (bs ++ bs') = breakEnds n bs ++ breakEnds (n + bs.length) bs' := by
  rw [breakEnds, List.zipIdx_append, List.filterMap_append]
  rfl

/-- No line break, no place after one. -/
theorem breakEnds_of_not_mem {bs : List UInt8} (h : newline ∉ bs) (n : Nat) :
    breakEnds n bs = [] := by
  induction bs generalizing n with
  | nil => rfl
  | cons b bs ih =>
      rw [List.mem_cons, not_or] at h
      rw [breakEnds_cons, if_neg (Ne.symm h.1)]
      exact ih h.2 _

/-- There is one place for each line break. -/
theorem length_breakEnds (n : Nat) (bs : List UInt8) :
    (breakEnds n bs).length = bs.count newline := by
  induction bs generalizing n with
  | nil => rfl
  | cons b bs ih =>
      rw [breakEnds_cons, List.count_cons]
      split
      · next hb => simp [hb, ih]
      · next hb => simp [hb, ih]

/-- A place after a line break lies after the start and not past the end. -/
theorem bounds_of_mem_breakEnds {n k : Nat} {bs : List UInt8} (hk : k ∈ breakEnds n bs) :
    n < k ∧ k ≤ n + bs.length := by
  induction bs generalizing n with
  | nil => cases hk
  | cons b bs ih =>
      have hrest : k ∈ breakEnds (n + 1) bs → n < k ∧ k ≤ n + (b :: bs).length := by
        intro hk
        have := ih hk
        rw [List.length_cons]
        omega
      rw [breakEnds_cons] at hk
      split at hk
      · rcases List.mem_cons.mp hk with rfl | hk
        · rw [List.length_cons]
          omega
        · exact hrest hk
      · exact hrest hk

/-- The places after line breaks come in order. -/
theorem pairwise_breakEnds (n : Nat) (bs : List UInt8) : (breakEnds n bs).Pairwise (· < ·) := by
  induction bs generalizing n with
  | nil => exact .nil
  | cons b bs ih =>
      rw [breakEnds_cons]
      split
      · exact .cons (fun k hk => (bounds_of_mem_breakEnds hk).1) (ih _)
      · exact ih _

/-- The line breaks that end at or before an offset are those of the bytes before it. -/
theorem filter_breakEnds (n offset : Nat) (bs : List UInt8) :
    (breakEnds n bs).filter (· ≤ offset) = breakEnds n (bs.take (offset - n)) := by
  induction bs generalizing n with
  | nil => simp
  | cons b bs ih =>
      rcases Nat.lt_or_ge n offset with hlt | hge
      · have hstep : offset - n = offset - (n + 1) + 1 := by omega
        rw [hstep, List.take_succ_cons, breakEnds_cons, breakEnds_cons, ← ih]
        split
        · rw [List.filter_cons_of_pos (by simpa using Nat.succ_le_of_lt hlt)]
        · rfl
      · have hstep : offset - n = 0 := by omega
        have hrest : (breakEnds (n + 1) bs).filter (· ≤ offset) = [] := by
          rw [ih, show offset - (n + 1) = 0 by omega, List.take_zero]
          rfl
        rw [hstep, List.take_zero, breakEnds_cons]
        split
        · rw [List.filter_cons_of_neg (by simpa using Nat.lt_succ_of_le hge), hrest]
          rfl
        · exact hrest

/-- The bytes after the last line break are those from where it ends. -/
theorem getLastD_breakEnds (n : Nat) (bs : List UInt8) :
    (n :: breakEnds n bs).getLastD 0 + (bs.reverse.takeWhile (· != newline)).length =
      n + bs.length := by
  induction bs using List.reverseRecOn with
  | nil => rfl
  | append_singleton bs b ih =>
      rw [breakEnds_append, breakEnds_cons, breakEnds_nil, List.reverse_append, List.length_append]
      by_cases hb : b = newline
      · rw [if_pos hb, ← List.cons_append, List.getLastD_concat]
        simp [hb, Nat.add_assoc]
      · have hlast : (b :: bs.reverse).takeWhile (· != newline) =
            b :: bs.reverse.takeWhile (· != newline) :=
          List.takeWhile_cons_of_pos (bne_iff_ne.mpr hb)
        rw [if_neg hb, List.append_nil, List.reverse_singleton, List.singleton_append, hlast,
          List.length_cons, List.length_singleton]
        omega

/-- The table of line starts is made of the places after line breaks. -/
theorem nextLineStarts_eq (n : Nat) (cs : List Char) :
    SourceFile.nextLineStarts n cs = breakEnds n (utf8 cs) := by
  induction cs generalizing n with
  | nil => rfl
  | cons c cs ih =>
      rw [SourceFile.nextLineStarts]
      split
      · next hc => rw [hc, utf8_cons_newline, breakEnds_cons, if_pos rfl, ih]
      · next hc =>
        rw [utf8_cons, breakEnds_append, breakEnds_of_not_mem (newline_not_mem hc),
          String.length_utf8EncodeChar, List.nil_append, ih]

/-- Past the end a split takes everything. -/
theorem splitBytes_of_byteLength_le {cs : List Char} {n : Nat} (h : byteLength cs ≤ n) :
    splitBytes n cs = (cs, []) := by
  induction cs generalizing n with
  | nil => rfl
  | cons c cs ih =>
      rw [byteLength] at h
      rw [splitBytes, if_pos (by omega), ih (by omega)]

end Text

namespace SourceFile

open Text

/-- The bytes of the text. -/
def bytes (f : SourceFile) : List UInt8 := f.content.toUTF8.data.toList

/-- The lines of the text: the pieces between its line breaks. -/
def lines (f : SourceFile) : List String := (f.content.toList.splitOn '\n').map String.ofList

variable (f : SourceFile)

theorem bytes_eq : f.bytes = utf8 f.content.toList := by
  rw [bytes, String.toUTF8_eq_toByteArray, ← String.utf8Encode_toList, List.utf8Encode,
    List.data_toByteArray]
  rfl

theorem length_bytes : f.bytes.length = f.content.utf8ByteSize := by
  rw [bytes_eq, length_utf8, byteLength_toList]

/-- The first line starts at the first byte, and one line after each line break. -/
theorem lineStarts_eq : f.lineStarts = 0 :: breakEnds 0 f.bytes := by
  rw [lineStarts, nextLineStarts_eq, bytes_eq]

/-- The lines that start at or before an offset: the first one, and one after each line break among
the bytes before it. -/
theorem filter_lineStarts (offset : Nat) :
    f.lineStarts.filter (· ≤ offset) = 0 :: breakEnds 0 (f.bytes.take offset) := by
  rw [lineStarts_eq, List.filter_cons_of_pos (by simp), filter_breakEnds, Nat.sub_zero]

/-- The line of an offset is one more than the number of line breaks before it. -/
theorem lineCol_fst (offset : Nat) :
    (f.lineCol offset).1 = (f.bytes.take offset).count newline + 1 := by
  rw [lineCol, filter_lineStarts, List.length_cons, length_breakEnds]

/-- The column of an offset is one more than the number of bytes since the last line break before
it. -/
theorem lineCol_snd {offset : Nat} (h : offset ≤ f.content.utf8ByteSize) :
    (f.lineCol offset).2 = ((f.bytes.take offset).reverse.takeWhile (· != newline)).length + 1 := by
  have hlast := getLastD_breakEnds 0 (f.bytes.take offset)
  have hlength : (f.bytes.take offset).length = offset := by
    rw [List.length_take, length_bytes, Nat.min_eq_left h]
  rw [lineCol, filter_lineStarts]
  omega

/-- The bytes before a boundary are those of the characters before it. -/
theorem take_bytes {before after : List Char} (h : f.content.toList = before ++ after) :
    f.bytes.take (byteLength before) = utf8 before := by
  rw [bytes_eq, h, utf8_append]
  exact List.take_left' (length_utf8 before)

/-- The text of a line at a cut of the text is the piece with as many line breaks before it. -/
theorem getElem?_lines {before after : List Char} (h : f.content.toList = before ++ after) :
    f.lines[before.count '\n']? = some (f.lineText (byteLength before)) := by
  rw [lines, List.getElem?_map, h, getElem?_splitOn, lineText, h, splitBytes_append_of_byteLength]
  rfl

/-- Past the end of the text the last line is shown. -/
theorem lineText_of_size_lt {offset : Nat} (h : f.content.utf8ByteSize < offset) :
    f.lineText offset = f.lineText f.content.utf8ByteSize := by
  rw [← byteLength_toList] at h ⊢
  rw [lineText, lineText, splitBytes_of_byteLength_le (Nat.le_of_lt h),
    splitBytes_of_byteLength_le (Nat.le_refl _)]

end SourceFile

/-! ## Searching a table -/

/-- The answer of a search in a table: the index of the number, or the index at which it is
missing. -/
inductive Lookup where
  | found (i : Nat)
  | missing (i : Nat)
deriving DecidableEq, Repr

/-- How many numbers of the table come before the place or stand at it. -/
def Lookup.count : Lookup → Nat
  | found i => i + 1
  | missing i => i

/-- The index of the last number that is not greater, if there is one. -/
def Lookup.last? : Lookup → Option Nat
  | found i => some i
  | missing 0 => none
  | missing (i + 1) => some i

/-- What was counted last is the last one. -/
theorem Lookup.last?_of_count {l : Lookup} {i : Nat} (h : l.count = i + 1) : l.last? = some i := by
  cases l with
  | found j =>
      obtain rfl : j = i := Nat.succ.inj h
      rfl
  | missing j =>
      obtain rfl : j = i + 1 := h
      rfl

/-- Halves the part of the table from `lo` up to `hi` until the number is found or nothing is
left. -/
def binarySearch (table : List UInt32) (x : UInt32) (lo hi : Nat) : Lookup :=
  if lo < hi then
    let mid := lo + (hi - lo) / 2
    let y := table.getD mid 0
    if y = x then .found mid
    else if y < x then binarySearch table x (mid + 1) hi
    else binarySearch table x lo mid
  else .missing lo
termination_by hi - lo

/-- A place at which a table is cut: no number before it is greater, and all numbers after it
are. -/
structure CutsAt (table : List UInt32) (x : UInt32) (i : Nat) : Prop where
  le_length : i ≤ table.length
  before : ∀ y ∈ table.take i, y ≤ x
  after : ∀ y ∈ table.drop i, x < y

section

variable {table : List UInt32}

/-- In an ascending table the numbers before a place are less than the one there, and those after it
are greater. -/
theorem pairwise_at (h : table.Pairwise (· < ·)) {i : Nat} (hi : i < table.length) :
    (∀ y ∈ table.take i, y < table[i]) ∧ ∀ y ∈ table.drop (i + 1), table[i] < y := by
  have hsplit : table.take i ++ table[i] :: table.drop (i + 1) = table := by
    rw [← List.drop_eq_getElem_cons, List.take_append_drop]
  rw [← hsplit, List.pairwise_append, List.pairwise_cons] at h
  exact ⟨fun y hy => h.2.2 y hy _ List.mem_cons_self, h.2.1.1⟩

/-- The search keeps to a part of the table such that what comes before it is not greater, and what
comes after it is. -/
theorem binarySearch_cutsAt (h : table.Pairwise (· < ·)) {x : UInt32} {lo hi : Nat} (hle : lo ≤ hi)
    (hhi : hi ≤ table.length) (hbefore : ∀ y ∈ table.take lo, y ≤ x)
    (hafter : ∀ y ∈ table.drop hi, x < y) : CutsAt table x (binarySearch table x lo hi).count := by
  fun_induction binarySearch table x lo hi with
  -- the entry is found: it is the last one that is not greater
  | case1 lo hi hlt mid y heq =>
    have hmid : mid < table.length := by omega
    have hy : table[mid] = x := (List.getElem_eq_getD 0).trans heq
    obtain ⟨hless, hgreater⟩ := pairwise_at h hmid
    refine ⟨hmid, fun z hz => ?_, fun z hz => hy ▸ hgreater z hz⟩
    rw [Lookup.count, List.take_succ_eq_append_getElem hmid, List.mem_append, List.mem_singleton]
      at hz
    rcases hz with hz | rfl
    · exact hy ▸ UInt32.le_of_lt (hless z hz)
    · exact UInt32.le_of_eq hy
  -- the entry is less, so the search goes on behind it
  | case2 lo hi hlt mid y hne hless ih =>
    have hmid : mid < table.length := by omega
    have hy : table[mid] < x := by
      have hget : table[mid] = y := List.getElem_eq_getD 0
      rw [hget]
      exact hless
    refine ih (by omega) hhi (fun z hz => ?_) hafter
    rw [List.take_succ_eq_append_getElem hmid, List.mem_append, List.mem_singleton] at hz
    rcases hz with hz | rfl
    · exact UInt32.le_of_lt (UInt32.lt_trans ((pairwise_at h hmid).1 z hz) hy)
    · exact UInt32.le_of_lt hy
  -- the entry is greater, so the search goes on before it
  | case3 lo hi hlt mid y hne hless ih =>
    have hmid : mid < table.length := by omega
    have hy : x < table[mid] := by
      have hget : table[mid] = y := List.getElem_eq_getD 0
      rw [hget]
      exact UInt32.lt_of_le_of_ne (UInt32.not_lt.mp hless) (Ne.symm hne)
    refine ih (by omega) (by omega) hbefore fun z hz => ?_
    rw [List.drop_eq_getElem_cons hmid, List.mem_cons] at hz
    rcases hz with rfl | hz
    · exact hy
    · exact UInt32.lt_trans hy ((pairwise_at h hmid).2 z hz)
  | case4 lo hi hlt =>
    obtain rfl : lo = hi := Nat.le_antisymm hle (Nat.not_lt.mp hlt)
    exact ⟨hhi, hbefore, hafter⟩

/-- A sorted table is cut where the search ends. -/
theorem CutsAt.filter_eq {x : UInt32} {i : Nat} (h : CutsAt table x i) :
    table.filter (· ≤ x) = table.take i := by
  have hbefore : (table.take i).filter (· ≤ x) = table.take i :=
    List.filter_eq_self.mpr fun y hy => decide_eq_true (h.before y hy)
  have hafter : (table.drop i).filter (· ≤ x) = [] := by
    refine List.filter_eq_nil_iff.mpr fun y hy => ?_
    simpa using h.after y hy
  conv => lhs; rw [← List.take_append_drop i table]
  rw [List.filter_append, hbefore, hafter, List.append_nil]

end

namespace SourceFile

open Text

/-- The table of line starts, in 32-bit numbers. -/
def lineTable (f : SourceFile) : List UInt32 := (0 :: breakEnds 0 f.bytes).map UInt32.ofNat

/-- Line and column of a byte offset, in 32-bit numbers.  The line starts at the offset, or comes
before the place at which the offset is missing in the table; there is none if the table has no such
line.  The column wraps around at the largest offset if that is in the first line. -/
def lineCol? (f : SourceFile) (offset : UInt32) : Option (UInt32 × UInt32) := do
  let line ← (binarySearch f.lineTable offset 0 f.lineTable.length).last?
  let start ← f.lineTable[line]?
  return (UInt32.ofNat line + 1, offset - start + 1)

variable {f : SourceFile}

/-- In a text that is short enough no line start wraps around. -/
theorem toNat_lineTable (hsize : f.content.utf8ByteSize < 4294967295) :
    f.lineTable.map UInt32.toNat = f.lineStarts := by
  rw [lineTable, lineStarts_eq, List.map_map]
  conv => rhs; rw [← List.map_id (0 :: breakEnds 0 f.bytes)]
  refine List.map_congr_left fun k hk => UInt32.toNat_ofNat_of_lt' ?_
  have hle : k ≤ f.content.utf8ByteSize := by
    rcases List.mem_cons.mp hk with rfl | hk
    · exact Nat.zero_le _
    · have hbounds := bounds_of_mem_breakEnds hk
      rw [length_bytes] at hbounds
      omega
  exact Nat.lt_of_le_of_lt hle (Nat.lt_trans hsize (by decide))

/-- Line starts come in order. -/
theorem pairwise_lineStarts (f : SourceFile) : f.lineStarts.Pairwise (· < ·) := by
  rw [lineStarts_eq]
  exact .cons (fun k hk => (bounds_of_mem_breakEnds hk).1) (pairwise_breakEnds 0 _)

/-- The search in the table finds the line, and the column follows. -/
theorem lineCol?_eq (hsize : f.content.utf8ByteSize < 4294967295) (offset : UInt32) :
    f.lineCol? offset = some (UInt32.ofNat (f.lineCol offset.toNat).1,
      UInt32.ofNat (f.lineCol offset.toNat).2) := by
  have htable := toNat_lineTable hsize
  have hascending : f.lineTable.Pairwise (· < ·) := by
    have hstarts := f.pairwise_lineStarts
    rw [← htable, List.pairwise_map] at hstarts
    exact hstarts
  have hcut := binarySearch_cutsAt hascending (x := offset) (Nat.zero_le _) (Nat.le_refl _)
    (by simp) (by simp)
  -- the lines that start at or before the offset are those up to the place, and the first one is
  have hfilter : f.lineStarts.filter (· ≤ offset.toNat) =
      (f.lineTable.take (binarySearch f.lineTable offset 0 f.lineTable.length).count).map
        UInt32.toNat := by
    rw [← htable, List.filter_map, ← hcut.filter_eq]
    rfl
  rw [lineCol?]
  generalize binarySearch f.lineTable offset 0 f.lineTable.length = place at hcut hfilter
  have hcount : place.count = (f.lineCol offset.toNat).1 := by
    rw [lineCol, hfilter, List.length_map, List.length_take, Nat.min_eq_left hcut.le_length]
  obtain ⟨line, hline⟩ : ∃ line, place.count = line + 1 := ⟨_, hcount.trans (f.lineCol_fst _)⟩
  have hlt : line < f.lineTable.length := by
    have := hcut.le_length
    omega
  have hlast : (f.lineStarts.filter (· ≤ offset.toNat)).getLastD 0 = f.lineTable[line].toNat := by
    rw [hfilter, hline, List.take_succ_eq_append_getElem hlt, List.map_append, List.map_singleton,
      List.getLastD_concat]
  have hle : f.lineTable[line] ≤ offset := by
    refine hcut.before _ ?_
    rw [hline, List.take_succ_eq_append_getElem hlt]
    exact List.mem_append_right _ (List.mem_singleton_self _)
  -- the subtraction in 32 bits does not wrap around, since the line starts at or before the offset
  have hcolumn : (f.lineCol offset.toNat).2 = (offset - f.lineTable[line]).toNat + 1 := by
    rw [UInt32.toNat_sub_of_le _ _ hle, ← hlast]
    rfl
  rw [Lookup.last?_of_count hline, ← hcount, hline, hcolumn, UInt32.ofNat_add, UInt32.ofNat_add,
    UInt32.ofNat_toNat]
  simp only [Option.bind_eq_bind, Option.bind_some, List.getElem?_eq_getElem hlt]
  rfl

/-! ## Lines of offsets -/

/-- The line with the given number holds the byte offset, in the given column, and has the given
text. -/
structure LineAt (f : SourceFile) (offset line column : Nat) (text : String) : Prop where
  /-- The line comes after as many others as there are line breaks before the offset. -/
  line_eq : line = (f.bytes.take offset).count newline + 1
  /-- The column comes after the bytes from the last line break before the offset. -/
  column_eq : column = ((f.bytes.take offset).reverse.takeWhile (· != newline)).length + 1
  text_eq : f.lines[line - 1]? = some text

/-- There is one more line than line breaks. -/
theorem length_lines (f : SourceFile) : f.lines.length = f.bytes.count newline + 1 := by
  rw [lines, List.length_map, length_splitOn, bytes_eq, count_newline_utf8]

/-- Line, column and line text of an offset fit together. -/
theorem lineAt {offset : Nat} (h : IsBoundary f.content offset) :
    f.LineAt offset (f.lineCol offset).1 (f.lineCol offset).2 (f.lineText offset) where
  line_eq := f.lineCol_fst offset
  column_eq := f.lineCol_snd h.le_size
  text_eq := by
    obtain ⟨before, after, htext, rfl⟩ := exists_of_isBoundary h
    rw [lineCol_fst, take_bytes f htext, count_newline_utf8, Nat.add_sub_cancel]
    exact f.getElem?_lines htext

/-- The end of a text is a boundary. -/
theorem isBoundary_size (text : String) : IsBoundary text text.utf8ByteSize := by
  rw [← byteLength_toList]
  exact isBoundary_of_toList_eq (List.append_nil _).symm

/-- Past the end the line is shown that is shown at the end. -/
theorem lineText?_of_size_lt {offset : Nat} (h : f.content.utf8ByteSize < offset) :
    f.lineText? offset = some (f.lineText offset) := by
  have hend := lineText?_eq (f := f) (isBoundary_size f.content)
  rw [← lineText_of_size_lt f h] at hend
  rw [← hend, lineText?, lineText?, Nat.min_eq_right (Nat.le_of_lt h), Nat.min_self]

/-- Past the end the last line is shown. -/
theorem line_of_size_lt {offset : Nat} (h : f.content.utf8ByteSize < offset) :
    (f.lineCol offset).1 = f.lines.length ∧ f.lines.getLast? = some (f.lineText offset) := by
  have htake : f.bytes.take offset = f.bytes :=
    List.take_of_length_le (by rw [length_bytes]; exact Nat.le_of_lt h)
  have hline : (f.lineCol offset).1 = f.lines.length := by
    rw [lineCol_fst, htake, length_lines]
  have hend := lineAt (f := f) (isBoundary_size f.content)
  refine ⟨hline, ?_⟩
  rw [List.getLast?_eq_getElem?, lineText_of_size_lt f h, ← hend.text_eq, hend.line_eq,
    ← f.length_bytes, List.take_length, length_lines]

/-- Line numbers, columns and line texts of a text that is short enough agree.  At an offset between
two characters the line number counts the line breaks before it, the column counts the bytes after
the last of them, and the line text is the piece of the text with that number; past the end it is
the last piece.  The search in the table of line starts gives the same line and column, the cutting
step by step the same line text, and no number wraps around in 32 bits. -/
theorem lineCol_lineText_exact (hsize : f.content.utf8ByteSize < 4294967295) :
    (∀ offset, IsBoundary f.content offset →
      f.LineAt offset (f.lineCol offset).1 (f.lineCol offset).2 (f.lineText offset) ∧
      f.lineText? offset = some (f.lineText offset) ∧
      (f.lineCol offset).1 < UInt32.size ∧ (f.lineCol offset).2 < UInt32.size) ∧
    (∀ offset, f.content.utf8ByteSize < offset →
      (f.lineCol offset).1 = f.lines.length ∧ f.lines.getLast? = some (f.lineText offset) ∧
      f.lineText? offset = some (f.lineText offset) ∧ f.lines.length < UInt32.size) ∧
    ∀ offset : UInt32, f.lineCol? offset = some (UInt32.ofNat (f.lineCol offset.toNat).1,
      UInt32.ofNat (f.lineCol offset.toNat).2) := by
  have hlimit : UInt32.size = 4294967296 := rfl
  -- there are no more line breaks than bytes, so no number exceeds the limit
  have hbound : ∀ bs : List UInt8, bs.length ≤ f.content.utf8ByteSize →
      bs.count newline + 1 < UInt32.size := by
    intro bs hbs
    have hcount : bs.count newline ≤ bs.length := List.count_le_length
    omega
  have htake : ∀ offset, (f.bytes.take offset).length ≤ f.content.utf8ByteSize := by
    intro offset
    rw [List.length_take, length_bytes]
    exact Nat.min_le_right ..
  refine ⟨fun offset h => ⟨lineAt h, lineText?_eq h, ?_, ?_⟩, fun offset h => ?_, lineCol?_eq hsize⟩
  · rw [lineCol_fst]
    exact hbound _ (htake offset)
  · have hlast : ((f.bytes.take offset).reverse.takeWhile (· != newline)).length ≤
        (f.bytes.take offset).reverse.length := (List.takeWhile_sublist _).length_le
    have hall := htake offset
    rw [List.length_reverse] at hlast
    rw [f.lineCol_snd h.le_size]
    omega
  · obtain ⟨hline, htext⟩ := line_of_size_lt h
    refine ⟨hline, htext, lineText?_of_size_lt h, ?_⟩
    rw [length_lines]
    exact hbound _ (Nat.le_of_eq f.length_bytes)

/-- An empty line in the middle of a text, and an offset past the end of it. -/
theorem lineCol_lineText_empty_line :
    LineAt ⟨"test", "aé\n\nb"⟩ 4 2 1 "" ∧ (lineCol ⟨"test", "aé\n\nb"⟩ 9).1 = 3 ∧
      lineText ⟨"test", "aé\n\nb"⟩ 9 = "b" ∧ lineCol? ⟨"test", "aé\n\nb"⟩ 9 = some (3, 5) := by
  obtain ⟨hboundary, hpast, hsearch⟩ :=
    lineCol_lineText_exact (f := ⟨"test", "aé\n\nb"⟩) (by decide)
  have hcut : "aé\n\nb".toList = ['a', 'é', '\n'] ++ ['\n', 'b'] := rfl
  have hempty := (hboundary 4 (isBoundary_of_toList_eq hcut)).1
  obtain ⟨hline, hlast, -⟩ := hpast 9 (by decide)
  exact ⟨hempty, hline, Option.some.inj hlast.symm, hsearch 9⟩

end SourceFile

end SignalGraph

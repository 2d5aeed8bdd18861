/-!
# SignalGraph.Text.Bytes

Cutting character lists at byte offsets.  Spans count bytes of the UTF-8 form while texts are
processed as characters; the functions here go from one to the other and say when an offset
falls between characters.
-/

namespace SignalGraph.Text

/-- The number of bytes of the UTF-8 form. -/
def byteLength : List Char → Nat
  | [] => 0
  | c :: cs => c.utf8Size + byteLength cs

/-- Lengths in bytes add up. -/
@[simp] theorem byteLength_append (xs ys : List Char) :
    byteLength (xs ++ ys) = byteLength xs + byteLength ys := by
  induction xs with
  | nil => simp [byteLength]
  | cons c cs ih => simp [byteLength, ih]; omega

/-- Splits at a byte offset.  The first part holds the characters that end at or before the
offset; an offset past the end takes everything. -/
def splitBytes : Nat → List Char → List Char × List Char
  | _, [] => ([], [])
  | n, c :: cs =>
    if c.utf8Size ≤ n then
      ((c :: (splitBytes (n - c.utf8Size) cs).1), (splitBytes (n - c.utf8Size) cs).2)
    else ([], c :: cs)

/-- Splitting loses nothing. -/
theorem splitBytes_append (n : Nat) (cs : List Char) :
    (splitBytes n cs).1 ++ (splitBytes n cs).2 = cs := by
  induction cs generalizing n with
  | nil => rfl
  | cons c cs ih =>
    simp only [splitBytes]
    split
    · simp [ih]
    · rfl

/-- The characters between two byte offsets, or `none` if the range is reversed, reaches past
the end, or cuts a character. -/
def byteSlice? (cs : List Char) (start stop : Nat) : Option (List Char) :=
  let (before, rest) := splitBytes start cs
  let (inside, _) := splitBytes (stop - start) rest
  if start ≤ stop && byteLength before == start && byteLength inside == stop - start then
    some inside
  else none

end SignalGraph.Text

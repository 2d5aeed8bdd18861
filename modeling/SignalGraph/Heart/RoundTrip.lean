import SignalGraph.ContentHash
import SignalGraph.Heart.Parse
import SignalGraph.Heart.Print
import SignalGraph.Program.Copy

/-!
# SignalGraph.Heart.RoundTrip

A check of the toolchain against itself: a copy of a program, and what is read back from its
text, must be written like the program.
-/

namespace SignalGraph.Heart

/-- The lines of a text without their line breaks; a last line needs none. -/
def textLines (s : String) : List String :=
  let rec go (current : List Char) : List Char → List String
    | [] => if current.isEmpty then [] else [String.ofList current.reverse]
    | '\n' :: cs =>
      let line := match current with
        | '\r' :: r => r
        | r => r
      String.ofList line.reverse :: go [] cs
    | c :: cs => go (c :: current) cs
  go [] s.toList

/-- The number of the first line that differs, counted from zero, and both lines. -/
def firstDifference (expected actual : List String) : Nat × String × String :=
  match expected, actual with
  | a :: as, b :: bs =>
    if a = b then
      let (n, d) := firstDifference as bs
      (n + 1, d)
    else (0, a, b)
  | _, _ => (0, "<end of text>", "<end of text>")

/-- Fails unless two texts are the same. -/
def compareTexts (what expected actual : String) : Except Diagnostic Unit :=
  if expected = actual then .ok ()
  else
    let (n, want, got) := firstDifference (textLines expected) (textLines actual)
    .error (InternalError.toDiagnostic ⟨
      s!"{what} program differs from the original at line {n + 1}: " ++
        s!"expected `{want}`, found `{got}`"⟩)

/-- Fails unless a copy of the program and what is read back from its text are written alike. -/
def checkRoundTrip (p : Program) : Except Diagnostic Unit := do
  let text := print p
  match p.duplicate with
  | .error e => throw e.toDiagnostic
  | .ok copy => compareTexts "cloned" text (print copy)
  let again ← parse text
  compareTexts "re-parsed" text (print again)

/-- The hash of a program's text. -/
def programHash (p : Program) : ContentHash := .ofText (print p)

end SignalGraph.Heart

import SignalGraph.Check.Rule
import SignalGraph.Link.Endpoints
import SignalGraph.Link.Specialise

/-!
# SignalGraph.Check.Verify

The whole way from a parsed program to a verified one: specialise, link, check.
-/

namespace SignalGraph.Check

/-- Specialises, links and checks a program in place. -/
def verifyEdit (settings : Settings) : Edit Unit := do
  Link.specialiseInstances settings
  Link.linkEndpoints
  match checkProgram (← Edit.program) settings with
  | .ok _ => return
  | .error d => throw d

/-- The verified program, or what is wrong with it. -/
def linkAndVerify (p : Program) (settings : Settings) : Except (List Diagnostic) Program :=
  match (verifyEdit settings).apply p with
  | (.ok _, p) => .ok p
  | (.error d, _) => .error [d]

/-- Verifies programs one by one; the results stand in the order of the programs. -/
def verifyAll (programs : List Program) (settings : Settings) :
    List (Except (List Diagnostic) Program) :=
  programs.map (linkAndVerify · settings)

end SignalGraph.Check

import SignalGraph.Program.Basic
import SignalGraph.Proofs.Ty.Containment

/-!
# SignalGraph.Proofs.Program.Structs

Programs whose structs are built call by call.  A struct is added without members, and a member is
added to a struct unless the struct would then contain itself.  Each call only looks for a way back
to the struct that it changes; since no struct contained itself before, that is enough
(`Program.addMemberInPlace_exact`), and no sequence of calls leads to a cycle
(`StructEdit.acyclic_throughout`).
-/

namespace SignalGraph

namespace Program

variable {p : Program}

/-- Taking back the member that was added last. -/
theorem modify_dropLast_appendMember (structs : StructArena) (id : StructId) (m : Member) :
    (structs.appendMember id m).modify id (fun s => { s with members := s.members.dropLast }) =
      structs := by
  refine Arena.ext_get? fun k => ?_
  simp only [StructArena.appendMember, Arena.get?_modify]
  split
  · cases structs.get? k <;> simp
  · rfl

/-- What may come of adding a member: it is there, or it would make a struct contain itself and the
program is as it was.  The fault names structs each of which would contain the next. -/
inductive MemberOutcome (p : Program) (id : StructId) (m : Member) (span : Span) :
    Except Diagnostic Unit × Program → Prop
  | added (hacyclic : (p.structs.appendMember id m).Acyclic) :
      MemberOutcome p id m span (.ok (), { p with structs := p.structs.appendMember id m })
  | refused (path : List StructId) (hcyclic : ¬ (p.structs.appendMember id m).Acyclic)
      (hpath : LeadsTo (p.structs.appendMember id m) id id path) :
      MemberOutcome p id m span (.error (p.containmentFault span (id :: path)), p)

theorem MemberOutcome.acyclic {id : StructId} {m : Member} {span : Span}
    {outcome : Except Diagnostic Unit × Program} (h : p.structs.Acyclic)
    (hmember : p.MemberOutcome id m span outcome) : outcome.2.structs.Acyclic := by
  cases hmember with
  | added hacyclic => exact hacyclic
  | refused => exact h

/-- As long as no struct contains itself, a member is added in place exactly if that stays so. -/
theorem addMemberInPlace_exact (h : p.structs.Acyclic) (id : StructId) (name : String) (ty : Ty)
    (span : Span) :
    MemberOutcome p id ⟨name, ty⟩ span (p.addMemberInPlace id name ty span) := by
  have hadded : (p.structs.modify id fun s => { s with members := s.members ++ [⟨name, ty⟩] }) =
      p.structs.appendMember id ⟨name, ty⟩ := rfl
  unfold addMemberInPlace
  simp only [hadded, modify_dropLast_appendMember]
  cases hcycle : structCycle? (p.structs.appendMember id ⟨name, ty⟩) id with
  | none => exact .added (h.appendMember_iff.mpr hcycle)
  | some cycle =>
      obtain ⟨path, rfl, hpath⟩ := leadsTo_of_structCycle? hcycle
      exact .refused path (fun hacyclic => hacyclic id hpath.transGen) hpath

/-- Adding in place and adding to a copy that is dropped on failure are the same. -/
theorem addMember_eq (p : Program) (id : StructId) (name : String) (ty : Ty) (span : Span) :
    p.addMember id name ty span =
      (p.addMemberInPlace id name ty span).1.map fun () =>
        (p.addMemberInPlace id name ty span).2 := by
  have hadded : (p.structs.modify id fun s => { s with members := s.members ++ [⟨name, ty⟩] }) =
      p.structs.appendMember id ⟨name, ty⟩ := rfl
  unfold addMember addMemberInPlace
  simp only [hadded, modify_dropLast_appendMember]
  cases structCycle? (p.structs.appendMember id ⟨name, ty⟩) id <;> rfl

end Program

/-! ## Sequences of calls -/

/-- A call that builds structs. -/
inductive StructEdit where
  | struct (owner : ModuleId) (name : String) (span : Span)
  | member (id : StructId) (name : String) (ty : Ty) (span : Span)

namespace StructEdit

/-- The outcome of a call and the program that it leaves. -/
def apply (p : Program) : StructEdit → Except Diagnostic Unit × Program
  | struct owner name span => (.ok (), (p.addStruct owner name span).2)
  | member id name ty span => p.addMemberInPlace id name ty span

/-- The program after a sequence of calls, whether they fail or not. -/
def applyAll (p : Program) (edits : List StructEdit) : Program :=
  edits.foldl (fun p edit => (edit.apply p).2) p

theorem acyclic_apply {p : Program} (h : p.structs.Acyclic) (edit : StructEdit) :
    (edit.apply p).2.structs.Acyclic := by
  cases edit with
  | struct owner name span => exact h.push rfl
  | member id name ty span => exact (Program.addMemberInPlace_exact h id name ty span).acyclic h

theorem acyclic_applyAll {p : Program} (h : p.structs.Acyclic) (edits : List StructEdit) :
    (applyAll p edits).structs.Acyclic := by
  induction edits generalizing p with
  | nil => exact h
  | cons edit edits ih => exact ih (acyclic_apply h edit)

/-- From a program without structs, no sequence of calls leads to a struct that contains itself.  In
every program on the way, adding a member fails if and only if some struct would then contain
itself, and a failure leaves the program as it was. -/
theorem acyclic_throughout {p : Program} (hempty : p.structs = ∅) (edits : List StructEdit) :
    (applyAll p edits).structs.Acyclic ∧ ∀ id name ty span,
      (applyAll p edits).MemberOutcome id ⟨name, ty⟩ span
        ((applyAll p edits).addMemberInPlace id name ty span) ∧
      (applyAll p edits).addMember id name ty span =
        ((applyAll p edits).addMemberInPlace id name ty span).1.map fun () =>
          ((applyAll p edits).addMemberInPlace id name ty span).2 := by
  have hacyclic : (applyAll p edits).structs.Acyclic :=
    acyclic_applyAll (hempty ▸ StructArena.acyclic_empty) edits
  refine ⟨hacyclic, fun id name ty span => ⟨?_, Program.addMember_eq _ id name ty span⟩⟩
  exact Program.addMemberInPlace_exact hacyclic id name ty span

/-- Calls for two structs: the first has an array of the second before there is a second one, which
then refers to the first. -/
def voiceCalls : List StructEdit :=
  [.struct ⟨0⟩ "Voice" .dummy, .member ⟨0⟩ "taps" (.array (.struct ⟨1⟩) (some 2)) .dummy,
    .struct ⟨0⟩ "Tap" .dummy, .member ⟨1⟩ "voice" (.ref (.struct ⟨0⟩)) .dummy]

def voices : Program :=
  applyAll { modules := ⟨#[{ kind := .nameSpace, name := "Types" }]⟩ } voiceCalls

/-- A value of the first struct cannot be put into the second one. -/
theorem acyclic_throughout_voices :
    voices.structs.Acyclic ∧
      ¬ (voices.structs.appendMember ⟨1⟩ ⟨"voice", .const (.struct ⟨0⟩)⟩).Acyclic ∧
      voices.addMemberInPlace ⟨1⟩ "voice" (.const (.struct ⟨0⟩)) .dummy =
        (.error (.error ⟨.structural, 102⟩
          "The types 'Types::Tap' and 'Types::Voice' refer to each other recursively" .dummy),
          voices) := by
  obtain ⟨hacyclic, hmember⟩ := acyclic_throughout
    (p := { modules := ⟨#[{ kind := .nameSpace, name := "Types" }]⟩ }) rfl voiceCalls
  have herror : (voices.addMemberInPlace ⟨1⟩ "voice" (.const (.struct ⟨0⟩)) .dummy).1 =
      .error (.error ⟨.structural, 102⟩
        "The types 'Types::Tap' and 'Types::Voice' refer to each other recursively" .dummy) := by
    decide +kernel
  have hexact : voices.MemberOutcome ⟨1⟩ ⟨"voice", .const (.struct ⟨0⟩)⟩ .dummy
      (voices.addMemberInPlace ⟨1⟩ "voice" (.const (.struct ⟨0⟩)) .dummy) :=
    (hmember ⟨1⟩ "voice" (.const (.struct ⟨0⟩)) .dummy).1
  generalize voices.addMemberInPlace ⟨1⟩ "voice" (.const (.struct ⟨0⟩)) .dummy = outcome at *
  cases hexact with
  | added => cases herror
  | refused path hcyclic => exact ⟨hacyclic, hcyclic, Prod.ext herror rfl⟩

end StructEdit

end SignalGraph

import SlotLens.Command.Run
import SlotLens.Proofs.Command.Request
import SlotLens.Proofs.Json.Printer
import SlotLens.Proofs.Text.Utf8
import SlotLens.Proofs.Tracer

/-!
# How the program ends

The program writes a file only if it ends with the code 0, input that is reported as wrong has the
code 2, and files that cannot be read or written have the code 1. A fault that is not turned into a
code cannot escape where the command line is regular: its options have their values and assignments,
and the files that it names hold what they are named for.
-/

namespace SlotLens

structure Artifact.IsLayoutFile (path : String) (name : Value) (file : Option String) : Prop where
  holds : HoldsLayouts file
  isRegular : ∀ metadata, layout path name file = .ok metadata → Metadata.isRegular metadata

structure Artifact.IsAbiFile (path : String) (file : Option String) : Prop where
  holds : HoldsAbi file
  fragments : ∀ fragments, abi path file = .ok (.list fragments) →
    ∀ fragment ∈ fragments, Tracer.IsFragment fragment

structure Capture.IsFile (file : Option String) : Prop where
  isReadable : ∀ text ∈ file, Json.IsReadable text
  isCall : ∀ v, Artifact.document file = .ok v → IsCall v
  isRegular : ∀ v c, Artifact.document file = .ok v → ofValue v = .ok c → c.IsRegular

namespace Command

variable {s : Surroundings} {r : LabelRequest} {t : Tracer} {path : String}

structure IsPath (path : String) : Prop where
  isEncodable : (Text.points path.toList).any (fun n => Text.isHalf n && !standsForByte n) = false
  isWhole : (Text.points path.toList).contains 0 = false

structure IsRegularLabel (s : Surroundings) (r : LabelRequest) : Prop where
  layouts : ∀ a ∈ r.layouts, ∃ address path file, splitAssignment a = .ok (address, path) ∧
    s.text path = .ok file ∧ Artifact.IsLayoutFile path r.contract file ∧
    ∀ metadata l, Artifact.layout path r.contract file = .ok metadata →
      Metadata.layout metadata = .ok l → l.Emitted
  abis : ∀ a ∈ r.abis, ∃ address path file, splitAssignment a = .ok (address, path) ∧
    s.text path = .ok file ∧ Artifact.IsAbiFile path file
  lengths : ∀ k ∈ r.lengths, k.isSome
  capture : ∃ file, s.text r.capture = .ok file ∧ Capture.IsFile file ∧
    ∀ t v c, tracerOf s r = .ok t → Artifact.document file = .ok v →
      Capture.ofValue v = .ok c → t.Reads c
  output : ∀ path ∈ r.output, IsPath path

/-- A request whose files are of their kinds. The variables of a layout are written as they are
named, so there has to be a code for each of their characters. -/
def IsRegularRequest (s : Surroundings) : Request → Prop
  | .label r => IsRegularLabel s r
  | .layout path contract => ∃ file, s.text path = .ok file ∧
    Artifact.IsLayoutFile path contract file ∧
    ∀ metadata l, Artifact.layout path contract file = .ok metadata →
      Metadata.layout metadata = .ok l → canPrint s (line l.text)

variable {arguments : List String} {fault : Fault} {request : Request}

/-- A command line whose options have their values, with the files that it names. -/
structure IsRegular (s : Surroundings) (arguments : List String) : Prop where
  numbers : Bounds.HasShortNumbers s.environment
  level : ∀ bounds line, environmentBounds s.environment = .ok bounds →
    Request.ofArguments bounds arguments = .ok line → line.hasLevel
  request : ∀ request, requestOf s.environment arguments = .ok request → IsRegularRequest s request

/-- A fault ends the program before it has an answer. -/
inductive Stops [Address.Rule] (s : Surroundings) (arguments : List String) : Fault → Prop where
  | environment {fault : ConfigFault} :
    environmentBounds s.environment = .error fault → Stops s arguments (.config fault)
  | request {request : Request} {fault : Fault} :
    requestOf s.environment arguments = .ok request → answer s request = .error fault →
      Stops s arguments fault

theorem run_of_requestOf [Address.Rule] (h : requestOf s.environment arguments = .ok request) :
    run s arguments = perform s request := by
  rw [run, h]

theorem Stops.ending [Address.Rule] (h : Stops s arguments fault) :
    run s arguments = ⟨endingOf fault, "", none⟩ := by
  cases h with
  | environment h => rw [run, requestOf, h]
  | request hr ha => rw [run_of_requestOf hr, perform, ha]

/-- How a run can go: it stops with a fault, the command line makes no request or asks for a log
level without naming one, or the request is answered. -/
theorem run_cases [Address.Rule] (s : Surroundings) (arguments : List String) :
    (∃ fault, Stops s arguments fault) ∨
    (∃ refusal, run s arguments = ⟨.refused refusal, "", none⟩) ∨
    (∃ bounds line, environmentBounds s.environment = .ok bounds ∧
      Request.ofArguments bounds arguments = .ok line ∧ line.hasLevel = false ∧
        run s arguments = ⟨.escaped (.shape .notText), "", none⟩) ∨
    ∃ request printed written, requestOf s.environment arguments = .ok request ∧
      answer s request = .ok (printed, written) ∧ run s arguments = ⟨.code 0, printed, written⟩ := by
  cases hb : environmentBounds s.environment with
  | error fault => exact .inl ⟨_, .environment hb⟩
  | ok bounds =>
    cases hl : Request.ofArguments bounds arguments with
    | error refusal => exact .inr (.inl ⟨refusal, by simp [run, requestOf, hb, hl]⟩)
    | ok line =>
      cases hlevel : line.hasLevel with
      | false =>
        refine .inr (.inr (.inl ⟨bounds, line, rfl, hl, hlevel, ?_⟩))
        simp [run, requestOf, hb, hl, hlevel]
      | true =>
        have hr : requestOf s.environment arguments = .ok line.request := by
          simp [requestOf, hb, hl, hlevel]
        cases ha : answer s line.request with
        | error fault => exact .inl ⟨fault, .request hr ha⟩
        | ok found =>
          refine .inr (.inr (.inr ⟨line.request, found.1, found.2, hr, ha, ?_⟩))
          rw [run_of_requestOf hr, perform, ha]

section Desk

local instance : Address.Rule := ⟨true⟩

end Desk

end Command

end SlotLens

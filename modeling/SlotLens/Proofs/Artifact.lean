import SlotLens.Artifact
import SlotLens.Proofs.Table
import SlotLens.Proofs.Value

namespace SlotLens

def Fault.IsReported : Fault → Prop
  | .config (.unwritable _) => False
  | .config _ | .layout _ | .diff .. | .artifact _ => True
  | _ => False

def Fault.IsOfFile : Fault → Prop
  | .fileNotFound | .notWritable | .json .malformed => True
  | _ => False

def Fault.IsHandled (fault : Fault) : Prop := fault.IsReported ∨ fault.IsOfFile

def Json.IsReadable (text : String) : Prop := FailsOnly (· = .malformed) (parse text)

namespace Artifact

variable {v name : Value} {path : String} {file : Option String}

theorem document_failsOnly (h : ∀ text ∈ file, Json.IsReadable text) :
    FailsOnly Fault.IsHandled (document file) := by
  cases file with
  | none => exact .error (.inr trivial)
  | some text =>
    apply FailsOnly.mapError
    apply (h text rfl).mono
    rintro fault rfl
    exact .inr trivial

theorem unfold_failsOnly (h : ∀ text, v = .text text → Json.IsReadable text) :
    FailsOnly Fault.IsHandled (unfold v) := by
  cases v with
  | text text => exact document_failsOnly fun _ ht => h _ (congrArg _ (Option.some.inj ht))
  | _ => exact .ok _

theorem document_eq_ok : document file = .ok v ↔ ∃ text ∈ file, Json.parse text = .ok v := by
  cases file with
  | none => simp [document]
  | some text => simp [document, mapError_eq_ok]

/-- A contract of a compilation: a record in which a layout may stand as a text. -/
structure IsContract (v : Value) : Prop where
  isRecord : v.isRecord
  layouts : ∀ name ∈ layoutNames, ∀ text, v.lookup name = some (.text text) → Json.IsReadable text

structure IsArtifact (v : Value) : Prop where
  layout : ∀ layout, v.lookup "storageLayout" = some layout → layout.isRecord
  contracts : ∀ found, v.lookup "contracts" = some found → ∃ entries, found.fields? = some entries ∧
    ∀ e ∈ entries, ∀ c ∈ contractsOf e.1 e.2, IsContract c.2

structure HoldsLayouts (file : Option String) : Prop where
  isReadable : ∀ text ∈ file, Json.IsReadable text
  isArtifact : ∀ v, document file = .ok v → IsArtifact v

def layoutOf (v : Value) : Value :=
  (v.lookup "storageLayout").getD ((v.lookup "storage-layout").getD .null)

theorem IsContract.isReadable (h : IsContract v) (text : String) (ht : layoutOf v = .text text) :
    Json.IsReadable text := by
  rw [layoutOf] at ht
  cases hgiven : v.lookup "storageLayout" with
  | some given =>
    rw [hgiven] at ht
    cases ht
    exact h.layouts _ List.mem_cons_self text hgiven
  | none =>
    cases hother : v.lookup "storage-layout" with
    | some other =>
      rw [hgiven, hother] at ht
      cases ht
      exact h.layouts _ (List.mem_cons_of_mem _ List.mem_cons_self) text hother
    | none =>
      rw [hgiven, hother] at ht
      cases ht

theorem contract_cases {entries : List (String × Value)} (h : v.fields? = some entries) :
    (∃ report, contract v name = .error (.artifact report)) ∨
      ∃ e ∈ entries, ∃ c ∈ contractsOf e.1 e.2, contract v name = .ok c.2 := by
  have hfound : contracts v =
      .ok (Entries.ofList (entries.flatMap fun e => contractsOf e.1 e.2)) := by
    rw [contracts, Value.members, h]
    rfl
  rw [contract, hfound]
  dsimp only [liftM, monadLift, MonadLift.monadLift, Except.mapError, bind, Except.bind]
  split
  · exact .inl ⟨_, rfl⟩
  · next c hc _ =>
    have hmem := Entries.mem_ofList (List.mem_of_find?_eq_some hc)
    obtain ⟨e, he, hce⟩ := List.mem_flatMap.1 hmem
    exact .inr ⟨e, he, c, hce, rfl⟩
  · exact .inl ⟨_, rfl⟩

theorem contractLayout_failsOnly (h : ∃ entries, v.fields? = some entries ∧
    ∀ e ∈ entries, ∀ c ∈ contractsOf e.1 e.2, IsContract c.2) :
    FailsOnly Fault.IsHandled (contractLayout v name) := by
  obtain ⟨entries, hentries, hcontracts⟩ := h
  rw [contractLayout]
  rcases contract_cases hentries with ⟨report, hc⟩ | ⟨e, he, c, hce, hc⟩
  · rw [hc]
    exact .error (.inl trivial)
  · have hcontract := hcontracts e he c hce
    rw [hc]
    refine FailsOnly.bind (.ok c.2) fun found hfound => ?_
    cases hfound
    rw [Value.memberOrNull_of_isRecord hcontract.isRecord,
      Value.member?_of_isRecord hcontract.isRecord]
    exact (unfold_failsOnly hcontract.isReadable).bind fun layout _ => .ok _

theorem layout_failsOnly (h : HoldsLayouts file) :
    FailsOnly Fault.IsHandled (layout path name file) := by
  rw [layout]
  apply (document_failsOnly h.isReadable).bind
  intro artifact ha
  have hartifact := h.isArtifact artifact ha
  dsimp only
  split
  · exact .error (.inl trivial)
  split
  · exact .ok _
  cases hl : artifact.lookup "storageLayout" with
  | some found =>
    have hrecord : found.asRecord = .ok found := if_pos (hartifact.layout found hl)
    dsimp only
    rw [hrecord]
    exact .ok found
  | none =>
    cases hc : artifact.lookup "contracts" with
    | some found =>
      apply (contractLayout_failsOnly (hartifact.contracts found hc)).bind
      intro chosen _
      cases chosen with
      | some chosen => exact .ok chosen
      | none => exact .error (.inl trivial)
    | none => exact .error (.inl trivial)

theorem layout_of_storage (h : document file = .ok v) (hs : (v.lookup "storage").isSome)
    (ht : (v.lookup "types").isSome) : layout path name file = .ok v := by
  have hrecord : v.isRecord := by
    cases v with
    | object _ | keyed _ => rfl
    | _ => cases hs
  refine bind_eq_ok.2 ⟨v, h, ?_⟩
  simp [hrecord, hs, ht, pure, Except.pure]

structure HoldsAbi (file : Option String) : Prop where
  isReadable : ∀ text ∈ file, Json.IsReadable text
  abi : ∀ v text, document file = .ok v → v.lookup "abi" = some (.text text) → Json.IsReadable text

end Artifact

end SlotLens

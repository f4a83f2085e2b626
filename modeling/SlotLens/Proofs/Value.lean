import SlotLens.Proofs.Outcome

namespace SlotLens.Value

variable {v w : Value} {key : String}

def isKey (v : Value) : Bool := v.asKey.isOk

def isFinite (v : Value) : Bool :=
  match v.integer with
  | .error .unbounded => false
  | _ => true

theorem member_eq_ok : v.member key = .ok w ↔ v.lookup key = some w := by
  rw [member, lookup]
  cases v.fields? with
  | none => simp
  | some fields => cases h : Entries.find? key fields <;> simp [h]

theorem member?_eq_ok {found : Option Value} (h : v.member? key = .ok found) :
    v.lookup key = found := by
  rw [member?] at h
  split at h <;> cases h
  simp [lookup, *]

theorem member?_of_lookup (h : v.lookup key = some w) : v.member? key = .ok (some w) := by
  rw [member?]
  cases hf : v.fields? with
  | none => simp [lookup, hf] at h
  | some fields => simpa [lookup, hf] using h

theorem exists_fields (h : v.isRecord) : ∃ fields, v.fields? = some fields := by
  cases v with
  | object fields => exact ⟨fields, rfl⟩
  | keyed entries => exact ⟨_, rfl⟩
  | _ => cases h

theorem member?_of_isRecord (h : v.isRecord) : v.member? key = .ok (v.lookup key) := by
  obtain ⟨fields, hf⟩ := exists_fields h
  simp [member?, lookup, hf]

theorem memberOrNull_of_isRecord (h : v.isRecord) :
    v.memberOrNull key = .ok ((v.lookup key).getD .null) := by
  rw [memberOrNull, member?_of_isRecord h]
  rfl

section

variable {U : Prop}

theorem member_failsOnly : FailsOnly (fun fault => fault = .unbounded → U) (v.member key) := by
  rw [member]
  split
  · exact .error ShapeFault.noConfusion
  · split
    · exact .ok _
    · exact .error ShapeFault.noConfusion

theorem member?_failsOnly : FailsOnly (fun fault => fault = .unbounded → U) (v.member? key) := by
  rw [member?]
  split
  · exact .error ShapeFault.noConfusion
  · exact .ok _

theorem integer_failsOnly (hv : v.isFinite = false → U) :
    FailsOnly (fun fault => fault = .unbounded → U) v.integer where
  of_error fault h hf := by
    subst hf
    apply hv
    rw [isFinite, h]

end

theorem iterate_failsOnly : FailsOnly (· = .wrongKind) v.iterate := by
  unfold iterate
  split <;> first | exact .ok _ | exact .error rfl

end SlotLens.Value

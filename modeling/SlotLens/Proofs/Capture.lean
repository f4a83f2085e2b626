import SlotLens.Capture
import SlotLens.Proofs.Account
import SlotLens.Proofs.Artifact
import SlotLens.Proofs.Candidate.Gather

namespace SlotLens

namespace Account

variable {address : String} {raw v : Value}

theorem exists_entriesOf (h : v.isVacant ∨ v.isRecord) : ∃ entries, entriesOf v = .ok entries := by
  rw [entriesOf]
  split
  · exact ⟨[], rfl⟩
  · next hv =>
    cases v with
    | object fields => exact ⟨_, rfl⟩
    | keyed entries => exact ⟨_, rfl⟩
    | _ => exact absurd h (by simp [hv, Value.isRecord])

theorem accountMembers_of_isRecord {fields : List (String × Value)} (h : raw.fields? = some fields)
    (hv : ¬ raw.isVacant) : accountMembers raw = .ok fields := by
  cases raw with
  | object _ | keyed _ =>
    cases h
    exact if_neg hv
  | _ => cases h

def IsRecord (raw : Value) : Prop :=
  raw.isVacant ∨ raw.isRecord ∧ ∀ storage, raw.lookup "storage" = some storage →
    storage.isVacant ∨ storage.isRecord

theorem IsRecord.exists_holds (h : IsRecord raw) : ∃ storage, Holds raw storage := by
  by_cases hv : raw.isVacant
  · exact ⟨[], [], if_pos hv, rfl⟩
  · obtain ⟨hrecord, hstorage⟩ := h.resolve_left hv
    obtain ⟨fields, hf⟩ := Value.exists_fields hrecord
    have hlookup : raw.lookup "storage" = Entries.find? "storage" fields := by
      rw [Value.lookup, hf]
      rfl
    have hshape : ((Entries.find? "storage" fields).getD .null).isVacant ∨
        ((Entries.find? "storage" fields).getD .null).isRecord := by
      cases hs : Entries.find? "storage" fields with
      | none => exact .inl rfl
      | some storage => exact hstorage storage (hlookup.trans hs)
    obtain ⟨entries, hentries⟩ := exists_entriesOf hshape
    exact ⟨entries, fields, accountMembers_of_isRecord hf hv, hentries⟩

theorem IsFaultOf.isReported {fault : Fault} (h : IsFaultOf address fault) : fault.IsReported := by
  cases fault with
  | diff => trivial
  | _ => exact h.elim

theorem parse_failsOnly (h : IsRecord raw) :
    FailsOnly Fault.IsReported (parse (.text address) raw) := by
  obtain ⟨storage, hstorage⟩ := h.exists_holds
  exact hstorage.parse_failsOnly.mono fun _ hfault => hfault.isReported

end Account

def IsStateDiff (diff : Value) : Prop :=
  diff.isVacant ∨ ∃ fields, diff = .object fields ∧ ∀ e ∈ fields, Account.IsRecord e.2

namespace Capture

variable {v : Value} {c : Capture}

def IsList (v : Value) : Prop := v.isVacant ∨ ∃ items, v = .list items

structure IsCall (v : Value) : Prop where
  isRecord : v.isRecord
  stateDiff : IsStateDiff ((v.lookup "stateDiff").getD .null)
  addresses : IsList ((v.lookup "addresses").getD .null)
  steps : ∀ steps, stepsMember v = .ok steps → IsList steps

/-- The state diff of a call has a record for an address, in any spelling. -/
def HoldsDiff (v : Value) (key : String) : Prop :=
  ∃ diff entries, v.memberOrNull "stateDiff" = .ok diff ∧ Account.entriesOf diff = .ok entries ∧
    ∃ e ∈ entries, Address.ofValue e.1 = .ok key

theorem accounts_of_ofValue (h : ofValue v = .ok c) : ∃ diff raw,
    v.memberOrNull "stateDiff" = .ok diff ∧ Account.entriesOf diff = .ok raw ∧
      parseStateDiff raw = .ok c.accounts := by
  simp only [ofValue, bind_eq_ok, pure_eq_ok, liftM_eq_ok] at h
  obtain ⟨_, -, diff, hd, raw, hr, accounts, ha, h⟩ := h
  obtain ⟨_, -, _, -, _, -, _, -, _, -, _, -, _, -, _, -, _, -, rfl⟩ := h
  exact ⟨diff, raw, hd, hr, ha⟩

theorem holdsDiff_iff (h : ofValue v = .ok c) {key : String} :
    HoldsDiff v key ↔ key ∈ c.accounts.keys := by
  obtain ⟨diff, raw, hd, hr, ha⟩ := accounts_of_ofValue h
  rw [mem_keys_parseStateDiff ha]
  constructor
  · rintro ⟨diff', raw', hd', hr', hmem⟩
    cases hd.symm.trans hd'
    cases hr.symm.trans hr'
    exact hmem
  · exact fun hmem => ⟨diff, raw, hd, hr, hmem⟩

theorem mem_touched {keys : List String} (h : c.touched = .ok keys) {key : String}
    (hk : key ∈ c.accounts.keys) (hn : Address.normalize key = key) : key ∈ keys := by
  obtain ⟨found, hfound, h⟩ := bind_eq_ok.1 h
  cases pure_eq_ok.1 h
  have hfilled : ¬ (Value.text key).isVacant := by
    rw [← hn]
    simp [Value.isVacant, String.isEmpty_iff, ← String.toList_inj, Address.toList_normalize]
  have htouched : touchedKey (.text key) = .ok (some key) := by
    rw [touchedKey, if_neg hfilled]
    exact congrArg (fun k => Except.ok (some k)) hn
  rw [List.mem_eraseDups, List.mem_filterMap]
  refine ⟨some key, (mem_of_mapM hfound).2 ⟨.text key, ?_, htouched⟩, rfl⟩
  exact List.mem_append_right _ (List.mem_map.2 ⟨key, hk, rfl⟩)

def Names (v : Value) : Prop :=
  v.isVacant ∨ ∃ s, v = .text s ∧ Candidate.IsAddress (.text (Address.normalize s))

/-- A capture whose parts have their shapes. -/
structure IsRegular (c : Capture) : Prop where
  accounts : ∀ key ∈ c.accounts.keys, Names (.text key)
  addresses : ∀ address ∈ c.addresses, Names address
  sender : Names c.sender
  recipient : Names c.recipient
  steps : ∀ step ∈ c.steps, Candidate.IsStep step
  calldata : c.calldata = .null ∨ ∃ s, c.calldata = .text s
  args : Candidate.AreArguments c.args

theorem exists_touchedKey (h : Names v) : ∃ found, touchedKey v = .ok found ∧
    ∀ key ∈ found, Candidate.IsAddress (.text key) := by
  rw [touchedKey]
  split
  · exact ⟨none, rfl, nofun⟩
  · next hv =>
    obtain ⟨s, rfl, hs⟩ := h.resolve_left hv
    refine ⟨some (Address.normalize s), rfl, ?_⟩
    intro key hkey
    obtain rfl := Option.mem_some.1 hkey
    exact hs

theorem IsRegular.names (h : c.IsRegular) :
    ∀ v ∈ c.sender :: c.recipient :: c.addresses ++ c.accounts.keys.map .text, Names v := by
  intro v hv
  simp only [List.cons_append, List.mem_cons, List.mem_append, List.mem_map] at hv
  rcases hv with rfl | rfl | hv | ⟨key, hkey, rfl⟩
  · exact h.sender
  · exact h.recipient
  · exact h.addresses v hv
  · exact h.accounts key hkey

theorem IsRegular.exists_touched (h : c.IsRegular) : ∃ keys, c.touched = .ok keys ∧
    ∀ key ∈ keys, Candidate.IsAddress (.text key) := by
  obtain ⟨found, hfound⟩ := exists_mapM.2 fun v hv =>
    (exists_touchedKey (h.names v hv)).imp fun _ h => h.1
  refine ⟨_, bind_eq_ok.2 ⟨found, hfound, rfl⟩, fun key hkey => ?_⟩
  rw [List.mem_eraseDups, List.mem_filterMap] at hkey
  obtain ⟨_, hmem, rfl⟩ := hkey
  obtain ⟨v, hv, hkeyOf⟩ := (mem_of_mapM hfound).1 hmem
  obtain ⟨found', hfound', haddress⟩ := exists_touchedKey (h.names v hv)
  cases hkeyOf.symm.trans hfound'
  exact haddress key rfl

end Capture

end SlotLens

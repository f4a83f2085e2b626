import SlotLens.Proofs.Field
import SlotLens.Proofs.Label.Assembly
import Mathlib.Algebra.Group.Nat.Defs

namespace SlotLens

namespace Word

variable {w w' : Word}

def byte (w : Word) (i : Fin 32) : UInt8 := w.bytes.get ⟨31 - i, by rw [w.length_bytes]; omega⟩

theorem getElem?_bytes {i : Nat} (hi : i < 32) : w.bytes[31 - i]? = some (w.byte ⟨i, hi⟩) := by
  have hlt : 31 - i < w.bytes.length := by
    rw [w.length_bytes]
    omega
  exact List.getElem?_eq_getElem hlt

theorem drop_take_bytes_eq_iff {offset size : Nat} (h : offset + size ≤ 32) :
    (w.bytes.take (32 - offset)).drop (32 - offset - size) =
        (w'.bytes.take (32 - offset)).drop (32 - offset - size) ↔
      ∀ i : Fin 32, offset ≤ i → i < offset + size → w.byte i = w'.byte i := by
  rw [drop_take_eq_iff]
  constructor
  · intro hb i hstart hstop
    have hi := hb (31 - i) (by omega) (by omega)
    rw [getElem?_bytes i.isLt, getElem?_bytes i.isLt] at hi
    exact Option.some.inj hi
  · intro hb j hstart hstop
    have hi := hb ⟨31 - j, by omega⟩ (by simp only; omega) (by simp only; omega)
    rw [show j = 31 - (31 - j) by omega, getElem?_bytes (by omega), getElem?_bytes (by omega), hi]

theorem hex_inj : w.hex = w'.hex ↔ ∀ i, w.byte i = w'.byte i := by
  have hb := @drop_take_bytes_eq_iff w w' 0 32 (by omega)
  have htake (w : Word) : (w.bytes.take (32 - 0)).drop (32 - 0 - 32) = w.bytes := by
    simp [List.take_of_length_le (Nat.le_of_eq w.length_bytes)]
  rw [htake, htake] at hb
  rw [hex, hex, Hex.text_inj, hb]
  exact ⟨fun h i => h i (by omega) (by omega), fun h i _ _ => h i⟩

end Word

def Match.Takes (m : Match) (i : Fin 32) : Prop :=
  match m.leaf with
  | some (.value _) => m.offset ≤ i ∧ i < m.offset + m.size
  | _ => True

theorem FieldValue.hex_eq_iff {m : Match} {w w' : Word} {v v' : FieldValue}
    (h : ofMatch m w = .ok v) (h' : ofMatch m w' = .ok v') :
    v.hex = v'.hex ↔ ∀ i, m.Takes i → w.byte i = w'.byte i := by
  unfold ofMatch at h h'
  unfold Match.Takes
  cases hm : m.leaf with
  | none =>
    rw [hm] at h h'
    cases h
    cases h'
    simpa [raw] using Word.hex_inj
  | some leaf =>
    cases leaf with
    | bytes entry =>
      rw [hm] at h h'
      cases h
      cases h'
      split <;> simpa [raw, ofBytesSlot] using Word.hex_inj
    | value entry =>
      rw [hm] at h h'
      obtain ⟨field, hf, h⟩ := bind_eq_ok.1 h
      obtain ⟨_, -, h⟩ := bind_eq_ok.1 h
      cases pure_eq_ok.1 h
      obtain ⟨field', hf', h'⟩ := bind_eq_ok.1 h'
      obtain ⟨_, -, h'⟩ := bind_eq_ok.1 h'
      cases pure_eq_ok.1 h'
      obtain ⟨ho, hs, hstop, rfl⟩ := Field.extract_cases hf
      obtain ⟨-, -, -, rfl⟩ := Field.extract_cases hf'
      rw [Hex.text_inj, Word.drop_take_bytes_eq_iff (by omega)]
      constructor
      · intro hb i hi
        exact hb i (by omega) (by omega)
      · intro hb i hstart hlt
        exact hb i ⟨by omega, by omega⟩

namespace Access

variable {access access' : Access} {m : Match}

def Changes (access : Access) (m : Match) : Prop :=
  ∃ next, access.next = some next ∧ ∃ i, m.Takes i ∧ next.byte i ≠ access.current.byte i

/-- Two observations differ at most in bytes that a match is not about. -/
structure Agrees (m : Match) (access access' : Access) : Prop where
  current : ∀ i, m.Takes i → access.current.byte i = access'.current.byte i
  next : Option.Rel (fun w w' => ∀ i, m.Takes i → w.byte i = w'.byte i) access.next access'.next

theorem Agrees.symm (h : Agrees m access access') : Agrees m access' access := by
  refine ⟨fun i hi => (h.current i hi).symm, ?_⟩
  have hn := h.next
  revert hn
  cases access.next <;> cases access'.next <;> intro hn <;> cases hn
  · exact .none
  · next hw => exact .some fun i hi => (hw i hi).symm

theorem Agrees.changes (h : Agrees m access access') (hc : access.Changes m) :
    access'.Changes m := by
  obtain ⟨next, hnext, i, hi, hne⟩ := hc
  have hn := h.next
  rw [hnext] at hn
  cases hn' : access'.next with
  | none =>
    rw [hn'] at hn
    cases hn
  | some next' =>
    rw [hn'] at hn
    cases hn with
    | some hw => exact ⟨next', hn', i, hi, by rwa [← hw i hi, ← h.current i hi]⟩

end Access

theorem TraceEntry.isModified_iff {access : Access} {m : Match} {e : TraceEntry}
    (h : ofMatch access m = .ok e) : e.isModified = true ↔ access.Changes m := by
  have hs := shows_of_ofMatch h
  rw [isModified, Access.Changes]
  rcases option_mapM_eq_ok.1 hs.next with ⟨hn, hn'⟩ | ⟨next, value, hn, hn', hv⟩
  · simp [hn, hn']
  · have hhex := FieldValue.hex_eq_iff hv hs.current
    rw [hn, hn', Option.any_some, bne_iff_ne, ne_eq, hhex]
    simp

namespace Label

variable {a : Account} {layout : Option Layout} {candidates : List Candidate} {bounds : Bounds}
  {lengths : Lengths} {state : LabeledState}

/-- An entry shows what was observed at its slot for a match. It counts as modified exactly where a
write changed a byte that the match is about, and the other bytes do not matter. -/
structure Flagged (a : Account) (m : Match) (access : Access) (e : TraceEntry) : Prop where
  observed : a.storage.get? e.slot = some access
  slot_eq : m.slot = e.slot
  shown : TraceEntry.ofMatch access m = .ok e
  exact : e.isModified = true ↔ access.Changes m
  stable : ∀ access' e', TraceEntry.ofMatch access' m = .ok e' → access.Agrees m access' →
    e'.isModified = e.isModified

theorem Tells.flagged {m : Match} {e : TraceEntry} (h : Tells a m e) :
    ∃ access, Flagged a m access e := by
  obtain ⟨access, ha, he⟩ := h
  have hslot := (TraceEntry.shows_of_ofMatch he).slot
  have hmod := TraceEntry.isModified_iff he
  refine ⟨access, hslot ▸ ha, hslot.symm, he, hmod, ?_⟩
  intro access' e' he' hagree
  rw [Bool.eq_iff_iff, hmod, TraceEntry.isModified_iff he']
  exact ⟨hagree.symm.changes, hagree.changes⟩

/-- Each entry of a labeled account belongs to a match, which reports a field of a variable or a
slot that is not resolved, and its flag is exact for the bytes that the match is about. A slot with
a match about a changed byte has an entry that counts as modified. -/
theorem account_isModified (h : account a layout candidates bounds lengths = .ok state) :
    ∃ matched, matchAccount a layout candidates bounds lengths = .ok matched ∧
      (∀ name v, (name, v) ∈ state.storage.entries → ∀ e ∈ v.trace, ∃ m ∈ matched,
        (∃ access, Flagged a m access e) ∧ ((∃ note, m = Match.unresolved m.slot note) ∨
          ∃ l ∈ layout, Scene.Replays ⟨l, a.storage, candidates, bounds, lengths⟩ m.slot m)) ∧
      ∀ m ∈ matched, ∀ access, a.storage.get? m.slot = some access → access.Changes m →
        ∃ name v, (name, v) ∈ state.storage.entries ∧
          ∃ e ∈ v.trace, e.slot = m.slot ∧ e.isModified = true := by
  obtain ⟨matched, hm, hg⟩ := account_cases h
  refine ⟨matched, hm, ?_, ?_⟩
  · intro name v hv e he
    have hg := hg name
    rw [Table.get?_eq_some.2 hv] at hg
    obtain ⟨m, hmem, -, ht⟩ := hg.exists_match he
    exact ⟨m, hmem, ht.flagged, source_of_matchAccount hm hmem⟩
  · intro m hmem access ha hc
    obtain ⟨v, hv, e, he, ht⟩ := exists_entry hg hmem
    have hslot := ht.slot_eq
    obtain ⟨access', ha', hof⟩ := ht
    cases ha.symm.trans ha'
    exact ⟨m.name.plain, v, Table.get?_eq_some.1 hv, e, he, hslot,
      (TraceEntry.isModified_iff hof).2 hc⟩

def gateLayout : Layout := ⟨[
  .primitive ⟨.text "owner", "t_address", .text "address", 0, 0, 20⟩,
  .primitive ⟨.text "paused", "t_bool", .text "bool", 0, 20, 1⟩,
  .primitive ⟨.text "limit", "t_uint256", .text "uint256", 1, 0, 32⟩]⟩

def gate : Account where
  address := ""
  storage := Table.ofList [
    (0, ⟨Word.ofNat 0xabc, some (Word.ofNat (0xabc + 2 ^ 160))⟩), (1, ⟨Word.ofNat 5, none⟩)]
  fields := []

theorem account_isModified_gate : ∃ state,
    account gate (some gateLayout) [] .standard .empty = .ok state ∧
    (state.storage.entries.map fun e => (e.1, e.2.trace.map (·.isModified))) =
      [("owner", [false]), ("paused", [true]), ("limit", [false])] ∧
    ∀ name v, (name, v) ∈ state.storage.entries → ∀ e ∈ v.trace,
      ∃ m access, Flagged gate m access e := by
  obtain ⟨state, h, hk⟩ : ∃ state,
      account gate (some gateLayout) [] .standard .empty = .ok state ∧
      (state.storage.entries.map fun e => (e.1, e.2.trace.map (·.isModified))) =
        [("owner", [false]), ("paused", [true]), ("limit", [false])] :=
    exists_ok_of_toOption (by decide +kernel)
  obtain ⟨matched, -, hflags, -⟩ := account_isModified h
  refine ⟨state, h, hk, ?_⟩
  intro name v hv e he
  obtain ⟨m, -, ⟨access, hflag⟩, -⟩ := hflags name v hv e he
  exact ⟨m, access, hflag⟩

end Label

end SlotLens

import SlotLens.Account
import SlotLens.Proofs.Outcome
import SlotLens.Proofs.Address
import Mathlib.Algebra.Group.Int.Defs

namespace SlotLens

theorem Address.normalize_of_ofValue {v : Value} {key : String} (h : ofValue v = .ok key) :
    normalize key = key := by
  obtain ⟨s, -, rfl⟩ := map_eq_ok.1 h
  exact normalize_normalize s

namespace Account

variable {address raw v place : Value} {a : Account} {slot : Int} {access : Access} {text : String}

def Holds (raw : Value) (storage : List (Value × Value)) : Prop :=
  ∃ members, accountMembers raw = .ok members ∧
    entriesOf ((Entries.find? "storage" members).getD .null) = .ok storage

structure Reads (d : FieldDiff) (access : Access) : Prop where
  current : Word.ofValue d.current = .ok access.current
  next : if d.next.isNull then access.next = none
    else ∃ w, Word.ofValue d.next = .ok w ∧ access.next = some w

theorem readAccess_eq_ok {d : FieldDiff} : readAccess place d = .ok (slot, access) ↔
    Slot.ofValue place = .ok slot ∧ Reads d access := by
  rw [readAccess]
  split
  · next hn =>
    simp only [bind_eq_ok, pure_eq_ok, Prod.mk.injEq]
    constructor
    · rintro ⟨s, hs, current, hc, next, rfl, rfl, rfl⟩
      exact ⟨hs, hc, by rw [if_pos hn]⟩
    · rintro ⟨hs, hc, hnext⟩
      rw [if_pos hn] at hnext
      exact ⟨slot, hs, access.current, hc, none, rfl, rfl, by rw [← hnext]⟩
  · next hn =>
    simp only [bind_eq_ok, pure_eq_ok, map_eq_ok, Prod.mk.injEq]
    constructor
    · rintro ⟨s, hs, current, hc, next, ⟨w, hw, rfl⟩, rfl, rfl⟩
      exact ⟨hs, hc, by rw [if_neg hn]; exact ⟨w, hw, rfl⟩⟩
    · rintro ⟨hs, hc, hnext⟩
      rw [if_neg hn] at hnext
      obtain ⟨w, hw, hnext⟩ := hnext
      exact ⟨slot, hs, access.current, hc, some w, ⟨w, hw, rfl⟩, rfl, by rw [← hnext]⟩

theorem parseAccess_eq_ok : parseAccess text place v = .ok (slot, access) ↔
    ¬ (split v).current.isNull ∧ Slot.ofValue place = .ok slot ∧ Reads (split v) access := by
  rw [parseAccess]
  dsimp only
  split
  · next hc => simp [hc]
  · next hc =>
    rw [mapError_eq_ok, readAccess_eq_ok]
    exact (and_iff_right hc).symm

theorem slot_of_parseAccess (h : parseAccess text place v = .ok (slot, access)) :
    Slot.ofValue place = .ok slot :=
  (parseAccess_eq_ok.1 h).2.1

theorem mem_keys_of_parseStorage {storage : List (Value × Value)} {t : Table Int Access}
    (h : parseStorage text storage = .ok t) :
    (∀ e ∈ storage, ∃ slot ∈ t.keys, Slot.ofValue e.1 = .ok slot) ∧
      ∀ slot ∈ t.keys, ∃ e ∈ storage, Slot.ofValue e.1 = .ok slot := by
  obtain ⟨accesses, hm, h⟩ := bind_eq_ok.1 h
  cases pure_eq_ok.1 h
  simp only [Table.mem_keys_ofList]
  constructor
  · intro e he
    obtain ⟨⟨slot, access⟩, hp⟩ := exists_mapM.1 ⟨accesses, hm⟩ e he
    exact ⟨slot, List.mem_map.2 ⟨_, (mem_of_mapM hm).2 ⟨e, he, hp⟩, rfl⟩, slot_of_parseAccess hp⟩
  · intro slot hs
    obtain ⟨⟨_, access⟩, hmem, rfl⟩ := List.mem_map.1 hs
    obtain ⟨e, he, hp⟩ := (mem_of_mapM hm).1 hmem
    exact ⟨e, he, slot_of_parseAccess hp⟩

theorem parse_cases (h : parse address raw = .ok a) :
    Address.ofValue address = .ok a.address ∧
      ∃ storage, Holds raw storage ∧ parseStorage a.address storage = .ok a.storage := by
  obtain ⟨key, hk, h⟩ := bind_eq_ok.1 h
  obtain ⟨members, hm, h⟩ := bind_eq_ok.1 h
  obtain ⟨fields, -, h⟩ := bind_eq_ok.1 h
  obtain ⟨storage, hs, h⟩ := bind_eq_ok.1 h
  obtain ⟨t, ht, h⟩ := bind_eq_ok.1 h
  cases pure_eq_ok.1 h
  exact ⟨liftM_eq_ok.1 hk, storage, ⟨members, liftM_eq_ok.1 hm, liftM_eq_ok.1 hs⟩, ht⟩

/-! ## All or nothing -/

def IsFaultOf (address : String) : Fault → Prop
  | .diff a _ _ => a = address
  | _ => False

theorem parseField_failsOnly {members : List (String × Value)} {name : String} :
    FailsOnly (IsFaultOf text) (parseField text members name) := by
  unfold parseField
  split
  · exact .ok _
  · dsimp only
    split
    · exact .error rfl
    · exact .ok _

theorem parseAccess_failsOnly : FailsOnly (IsFaultOf text) (parseAccess text place v) := by
  unfold parseAccess
  dsimp only
  split
  · exact .error rfl
  · exact .mapError (.of_forall fun _ => rfl)

section Parse

variable {members : List (String × Value)} {storage : List (Value × Value)}

theorem parse_eq (hm : accountMembers raw = .ok members)
    (hs : entriesOf ((Entries.find? "storage" members).getD .null) = .ok storage) :
    parse (.text text) raw = (do
      let fields ← fieldNames.mapM (parseField (Address.normalize text) members)
      let table ← parseStorage (Address.normalize text) storage
      return ⟨Address.normalize text, table, fields.filterMap id⟩) := by
  rw [parse, hm]
  change (fieldNames.mapM (parseField (Address.normalize text) members) >>= fun fields =>
    (liftM (entriesOf ((Entries.find? "storage" members).getD .null)) : Except Fault _) >>= _) = _
  rw [hs]
  rfl

theorem Holds.parse_failsOnly (h : Holds raw storage) :
    FailsOnly (IsFaultOf (Address.normalize text)) (parse (.text text) raw) := by
  obtain ⟨members, hm, hs⟩ := h
  rw [parse_eq hm hs]
  refine FailsOnly.bind (.mapM fun name _ => parseField_failsOnly) fun fields _ => ?_
  have hstorage : FailsOnly (IsFaultOf (Address.normalize text))
      (parseStorage (Address.normalize text) storage) :=
    .bind (.mapM fun e _ => parseAccess_failsOnly) fun _ _ => .ok _
  exact hstorage.bind fun _ _ => .ok _

def OnlyNext (d : FieldDiff) : Prop := d.current.isNull ∧ ¬ d.next.isNull

theorem exists_parseField {name : String} : (∃ field, parseField text members name = .ok field) ↔
    ∀ v, Entries.find? name members = some v → ¬ OnlyNext (split v) := by
  rw [parseField]
  split
  · next hf => simp [hf]
  · next v hf =>
    simp only [hf, Option.some.injEq, forall_eq', OnlyNext]
    split
    · next hd => simpa using hd
    · next hd => simpa using hd

structure IsReadable (place v : Value) : Prop where
  current : ¬ (split v).current.isNull
  slot : ∃ slot, Slot.ofValue place = .ok slot
  word : ∃ w, Word.ofValue (split v).current = .ok w
  next : (split v).next.isNull ∨ ∃ w, Word.ofValue (split v).next = .ok w

theorem exists_parseAccess : (∃ e, parseAccess text place v = .ok e) ↔ IsReadable place v := by
  constructor
  · rintro ⟨⟨slot, access⟩, h⟩
    obtain ⟨hc, hs, hr⟩ := parseAccess_eq_ok.1 h
    refine ⟨hc, ⟨slot, hs⟩, ⟨_, hr.current⟩, or_iff_not_imp_left.2 fun hn => ?_⟩
    have hnext := hr.next
    rw [if_neg hn] at hnext
    exact hnext.imp fun _ => And.left
  · rintro ⟨hc, ⟨slot, hs⟩, ⟨current, hw⟩, hnext⟩
    by_cases hn : (split v).next.isNull
    · exact ⟨(slot, ⟨current, none⟩), parseAccess_eq_ok.2 ⟨hc, hs, hw, by rw [if_pos hn]⟩⟩
    · obtain ⟨w, hw'⟩ := hnext.resolve_left hn
      exact ⟨(slot, ⟨current, some w⟩),
        parseAccess_eq_ok.2 ⟨hc, hs, hw, by rw [if_neg hn]; exact ⟨w, hw', rfl⟩⟩⟩

/-- No field of an account has only a next value, and all entries of its storage can be read. -/
structure IsConsistent (members : List (String × Value)) (storage : List (Value × Value)) :
    Prop where
  fields : ∀ name ∈ fieldNames, ∀ v, Entries.find? name members = some v → ¬ OnlyNext (split v)
  storage : ∀ e ∈ storage, IsReadable e.1 e.2

theorem exists_parse (hm : accountMembers raw = .ok members)
    (hs : entriesOf ((Entries.find? "storage" members).getD .null) = .ok storage) :
    (∃ a, parse (.text text) raw = .ok a) ↔ IsConsistent members storage := by
  rw [parse_eq hm hs]
  constructor
  · rintro ⟨a, h⟩
    obtain ⟨fields, hf, h⟩ := bind_eq_ok.1 h
    obtain ⟨table, ht, -⟩ := bind_eq_ok.1 h
    obtain ⟨accesses, ha, -⟩ := bind_eq_ok.1 ht
    exact ⟨fun name hname => exists_parseField.1 (exists_mapM.1 ⟨fields, hf⟩ name hname),
      fun e he => exists_parseAccess.1 (exists_mapM.1 ⟨accesses, ha⟩ e he)⟩
  · rintro ⟨hfields, hstorage⟩
    refine exists_bind ?_ fun _ _ => exists_bind (exists_bind ?_ fun _ _ => ⟨_, rfl⟩) fun _ _ => ⟨_, rfl⟩
    · exact exists_mapM.2 fun name hname => exists_parseField.2 (hfields name hname)
    · exact exists_mapM.2 fun e he => exists_parseAccess.2 (hstorage e he)

end Parse

/-! ## What is kept -/

inductive HasStorage (members : List (String × Value)) : List (String × Value) → Prop where
  | absent (h : Entries.find? "storage" members = none) : HasStorage members []
  | null (h : Entries.find? "storage" members = some .null) : HasStorage members []
  | slots {entries : List (String × Value)}
    (h : Entries.find? "storage" members = some (.object entries)) : HasStorage members entries

def placed (entries : List (String × Value)) : List (Value × Value) :=
  entries.map fun e => (.text e.1, e.2)

theorem HasStorage.entriesOf {members entries : List (String × Value)}
    (h : HasStorage members entries) :
    entriesOf ((Entries.find? "storage" members).getD .null) = .ok (placed entries) := by
  cases h with
  | absent h | null h =>
    rw [h]
    rfl
  | slots h =>
    rw [h]
    cases entries <;> rfl

theorem accountMembers_object (members : List (String × Value)) :
    accountMembers (.object members) = .ok members := by
  cases members <;> rfl

def slot? (place : String) : Option Int := (Slot.ofValue (.text place)).toOption

theorem slot?_eq_some {place : String} :
    slot? place = some slot ↔ Slot.ofValue (.text place) = .ok slot := by
  rw [slot?]
  cases Slot.ofValue (.text place) <;> simp [Except.toOption]

/-- An account has one access for each slot of its entries, at the place of the first entry for the
slot and with the words of the last one. -/
structure Observes (a : Account) (entries : List (String × Value)) : Prop where
  keys : a.storage.keys = (entries.filterMap fun e => slot? e.1).eraseDups
  range : ∀ slot ∈ a.storage.keys, 0 ≤ slot ∧ slot < 2 ^ 256
  words : ∀ e ∈ a.storage.entries, ∀ w ∈ e.2.words, w.bytes.length = 32
  last : ∀ front place v back slot, entries = front ++ (place, v) :: back →
    slot? place = some slot → (∀ e ∈ back, slot? e.1 ≠ some slot) →
    ∃ access, a.storage.get? slot = some access ∧ Reads (split v) access

section Observes

variable {entries : List (String × Value)} {accesses : List (Int × Access)} {t : Table Int Access}

theorem keys_of_mapM
    (h : (placed entries).mapM (fun (place, v) => parseAccess text place v) = .ok accesses) :
    accesses.map Prod.fst = entries.filterMap fun e => slot? e.1 := by
  rw [mapM_eq_ok, placed, List.forall₂_map_left_iff] at h
  induction h with
  | nil => rfl
  | cons hp _ ih =>
    simp only [List.map_cons, List.filterMap_cons, slot?_eq_some.2 (slot_of_parseAccess hp), ih]

theorem range_of_slot? {place : String} (h : slot? place = some slot) : 0 ≤ slot ∧ slot < 2 ^ 256 := by
  obtain ⟨n, -, rfl⟩ := map_eq_ok.1 (slot?_eq_some.1 h)
  exact ⟨Slot.wrap_nonneg n, Slot.wrap_lt n⟩

theorem observes_of_parseStorage (h : parseStorage text (placed entries) = .ok a.storage) :
    a.Observes entries := by
  obtain ⟨accesses, hm, h⟩ := bind_eq_ok.1 h
  have ht := pure_eq_ok.1 h
  have hkeys : a.storage.keys = (entries.filterMap fun e => slot? e.1).eraseDups := by
    rw [← ht, Table.keys_ofList, keys_of_mapM hm]
  refine ⟨hkeys, fun slot hslot => ?_, fun e _ w _ => w.length_bytes, ?_⟩
  · rw [hkeys, List.mem_eraseDups, List.mem_filterMap] at hslot
    obtain ⟨e, -, he⟩ := hslot
    exact range_of_slot? he
  · rintro front place v back slot rfl hslot hback
    rw [placed, List.map_append, List.map_cons] at hm
    obtain ⟨before, ⟨slot', access⟩, after, hp, hafter, rfl⟩ := split_of_mapM hm
    obtain ⟨-, hs, hreads⟩ := parseAccess_eq_ok.1 hp
    cases hslot.symm.trans (slot?_eq_some.2 hs)
    refine ⟨access, ?_, hreads⟩
    rw [← ht]
    refine Table.get?_ofList fun hmem => ?_
    rw [keys_of_mapM hafter, List.mem_filterMap] at hmem
    obtain ⟨e, he, hsame⟩ := hmem
    exact hback e he hsame

end Observes

/-- An account whose storage has its shape is read as a whole or is reported: it is read exactly
where it is consistent, and it then holds what its entries say about each slot. -/
theorem parse_normalizes (address : String) {members entries : List (String × Value)}
    (h : HasStorage members entries) :
    (∀ fault, parse (.text address) (.object members) = .error fault →
      ∃ place cause, fault = .diff (Address.normalize address) place cause) ∧
    ((∃ a, parse (.text address) (.object members) = .ok a) ↔
      IsConsistent members (placed entries)) ∧
    ∀ a, parse (.text address) (.object members) = .ok a →
      a.address = Address.normalize address ∧ a.Observes entries := by
  have hm := accountMembers_object members
  refine ⟨fun fault hf => ?_, exists_parse hm h.entriesOf, fun a ha => ?_⟩
  · have hfault := (Holds.parse_failsOnly ⟨members, hm, h.entriesOf⟩).of_error fault hf
    cases fault with
    | diff a place cause => exact ⟨place, cause, by rw [show a = _ from hfault]⟩
    | _ => exact hfault.elim
  · rw [parse_eq hm h.entriesOf] at ha
    obtain ⟨fields, -, ha⟩ := bind_eq_ok.1 ha
    obtain ⟨t, ht, ha⟩ := bind_eq_ok.1 ha
    cases pure_eq_ok.1 ha
    exact ⟨rfl, observes_of_parseStorage ht⟩

def spelledEntries : List (String × Value) :=
  [("0x1", .object [("current", .text "0x5"), ("next", .text "0x6")]), ("0x02", .text "7"),
    ("0X01", .text "0x8")]

theorem parse_normalizes_spelled : ∃ a,
    parse (.text "0xAB") (.object [("storage", .object spelledEntries)]) = .ok a ∧
      a.storage.keys = [1, 2] ∧ a.storage.get? 1 = some ⟨Word.ofNat 8, none⟩ := by
  have hstorage : HasStorage [("storage", .object spelledEntries)] spelledEntries := .slots rfl
  obtain ⟨-, hreturns, hkept⟩ := parse_normalizes "0xAB" hstorage
  have hconsistent : IsConsistent [("storage", .object spelledEntries)] (placed spelledEntries) := by
    refine ⟨fun name hname v hv => ?_, ?_⟩
    · have hnone : ∀ name ∈ fieldNames,
          (Entries.find? name [("storage", Value.object spelledEntries)]).isNone := by decide
      have := hnone name hname
      rw [hv] at this
      cases this
    · simp only [placed, spelledEntries, List.map_cons, List.map_nil, List.forall_mem_cons]
      refine ⟨⟨by decide, ⟨1, by decide +kernel⟩, ⟨Word.ofNat 5, by decide +kernel⟩,
        .inr ⟨Word.ofNat 6, by decide +kernel⟩⟩, ⟨by decide, ⟨2, by decide +kernel⟩,
        ⟨Word.ofNat 7, by decide +kernel⟩, .inl rfl⟩, ⟨by decide, ⟨1, by decide +kernel⟩,
        ⟨Word.ofNat 8, by decide +kernel⟩, .inl rfl⟩, nofun⟩
  obtain ⟨a, ha⟩ := hreturns.2 hconsistent
  obtain ⟨-, hobserves⟩ := hkept a ha
  refine ⟨a, ha, ?_, ?_⟩
  · rw [hobserves.keys]
    decide +kernel
  · obtain ⟨⟨current, next⟩, hget, hcurrent, hnext⟩ := hobserves.last
      (spelledEntries.take 2) "0X01" (.text "0x8") [] 1 rfl (by decide +kernel) nofun
    have hword : Word.ofValue (.text "0x8") = .ok (Word.ofNat 8) := by decide +kernel
    cases hcurrent.symm.trans hword
    cases hnext
    exact hget

end Account

section StateDiff

variable {raw front back : List (Value × Value)} {diff : Table String Account} {address v : Value}
  {key : String}

theorem mem_keys_parseStateDiff (h : parseStateDiff raw = .ok diff) :
    key ∈ diff.keys ↔ ∃ e ∈ raw, Address.ofValue e.1 = .ok key := by
  obtain ⟨accounts, hm, h⟩ := bind_eq_ok.1 h
  cases pure_eq_ok.1 h
  rw [Table.mem_keys_ofList, List.map_map, List.mem_map]
  constructor
  · rintro ⟨a, ha, rfl⟩
    obtain ⟨e, he, hp⟩ := (mem_of_mapM hm).1 ha
    exact ⟨e, he, (Account.parse_cases hp).1⟩
  · rintro ⟨e, he, hk⟩
    obtain ⟨a, hp⟩ := exists_mapM.1 ⟨accounts, hm⟩ e he
    exact ⟨a, (mem_of_mapM hm).2 ⟨e, he, hp⟩,
      Except.ok.inj ((Account.parse_cases hp).1.symm.trans hk)⟩

theorem normalize_of_mem_parseStateDiff (h : parseStateDiff raw = .ok diff) {e : String × Account}
    (he : e ∈ diff.entries) : Address.normalize e.1 = e.1 := by
  obtain ⟨r, -, hk⟩ := (mem_keys_parseStateDiff h).1 (List.mem_map.2 ⟨e, he, rfl⟩)
  exact Address.normalize_of_ofValue hk

theorem get?_parseStateDiff (h : parseStateDiff (front ++ (address, v) :: back) = .ok diff)
    (hk : Address.ofValue address = .ok key) (hb : ∀ e ∈ back, Address.ofValue e.1 ≠ .ok key) :
    ∃ a, Account.parse address v = .ok a ∧ diff.get? key = some a := by
  obtain ⟨accounts, hm, h⟩ := bind_eq_ok.1 h
  cases pure_eq_ok.1 h
  obtain ⟨before, a, after, ha, hafter, rfl⟩ := split_of_mapM hm
  have haddress : a.address = key :=
    Except.ok.inj ((Account.parse_cases ha).1.symm.trans hk)
  refine ⟨a, ha, ?_⟩
  rw [List.map_append, List.map_cons, haddress]
  refine Table.get?_ofList fun hmem => ?_
  rw [List.map_map] at hmem
  obtain ⟨a', ha', hsame⟩ := List.mem_map.1 hmem
  obtain ⟨e, he, hp⟩ := (mem_of_mapM hafter).1 ha'
  exact hb e he (hsame ▸ (Account.parse_cases hp).1)

end StateDiff

end SlotLens

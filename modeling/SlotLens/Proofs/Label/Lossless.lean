import SlotLens.Proofs.Account
import SlotLens.Proofs.Label.Assembly

namespace SlotLens

theorem TraceEntry.lookup_slots (e : TraceEntry) :
    e.toValue.lookup "slots" = some (.list [.text (Slot.hex e.slot)]) := by
  rw [toValue]
  cases e.next <;> rfl

theorem map_fst_of_mapM {ε κ α β : Type} {f : κ × α → Except ε (κ × β)}
    {items : List (κ × α)} {results : List (κ × β)} (hf : ∀ e r, f e = .ok r → r.1 = e.1)
    (h : items.mapM f = .ok results) : results.map Prod.fst = items.map Prod.fst := by
  rw [mapM_eq_ok] at h
  induction h with
  | nil => rfl
  | cons he _ ih => rw [List.map_cons, List.map_cons, hf _ _ he, ih]

def LabeledState.Shows (state : LabeledState) (slot : Int) : Prop :=
  ∃ name v e, (name, v) ∈ state.storage.entries ∧ e ∈ v.trace ∧ e.slot = slot ∧
    e.toValue.lookup "slots" = some (.list [.text (Slot.hex slot)])

namespace Label

variable {a : Account} {layout : Option Layout} {candidates : List Candidate} {bounds : Bounds}
  {state : LabeledState} {slot : Int}

theorem shows_iff {lengths : Lengths}
    (h : account a layout candidates bounds lengths = .ok state) :
    state.Shows slot ↔ slot ∈ a.storage.keys := by
  obtain ⟨matched, hm, hg⟩ := account_cases h
  rw [← slots_of_matchAccount hm]
  constructor
  · rintro ⟨name, v, e, hv, he, rfl, -⟩
    have hg := hg name
    rw [Table.get?_eq_some.2 hv] at hg
    obtain ⟨m, hmem, -, ht⟩ := hg.exists_match he
    exact ⟨m, hmem, ht.slot_eq.symm⟩
  · rintro ⟨m, hmem, rfl⟩
    obtain ⟨v, hv, e, he, ht⟩ := exists_entry hg hmem
    rw [← ht.slot_eq]
    exact ⟨_, v, e, Table.get?_eq_some.1 hv, he, rfl, e.lookup_slots⟩

section Accounts

variable {diff : Table String Account} {layouts : AddressMap Layout}
  {lengths : List (Value × Lengths)} {states : AddressMap LabeledState} {key : String}

theorem entries_accounts (hk : ∀ e ∈ diff.entries, Address.normalize e.1 = e.1)
    (h : accounts diff layouts candidates bounds lengths = .ok states) :
    ∃ known : AddressMap Lengths, List.Forall₂ (fun e r => r.1 = e.1 ∧
        account e.2 (layouts.get? e.1) candidates bounds (known.getD e.1 .empty) = .ok r.2)
      diff.entries states.entries := by
  obtain ⟨known, -, h⟩ := bind_eq_ok.1 h
  obtain ⟨found, hm, h⟩ := bind_eq_ok.1 h
  cases pure_eq_ok.1 h
  have hkeys : found.map Prod.fst = diff.entries.map Prod.fst := by
    refine map_fst_of_mapM (fun e r he => ?_) hm
    obtain ⟨state, -, rfl⟩ := map_eq_ok.1 he
    rfl
  have hk' : ∀ e ∈ found, Address.normalize e.1 = e.1 := by
    intro e he
    have hmem : e.1 ∈ diff.entries.map Prod.fst := hkeys ▸ List.mem_map.2 ⟨e, he, rfl⟩
    obtain ⟨e', he', hsame⟩ := List.mem_map.1 hmem
    rw [← hsame]
    exact hk e' he'
  refine ⟨known, ?_⟩
  rw [AddressMap.entries_ofList (hkeys ▸ diff.nodup) hk']
  refine (mapM_eq_ok.1 hm).imp fun e r he => ?_
  obtain ⟨state, ha, rfl⟩ := map_eq_ok.1 he
  exact ⟨rfl, ha⟩

theorem get?_accounts (hk : ∀ e ∈ diff.entries, Address.normalize e.1 = e.1)
    (h : accounts diff layouts candidates bounds lengths = .ok states)
    (ha : diff.get? key = some a) :
    ∃ state lengths, account a (layouts.get? key) candidates bounds lengths = .ok state ∧
      (key, state) ∈ states.entries ∧ states.get? key = some state := by
  obtain ⟨known, hf⟩ := entries_accounts hk h
  have hmem := Table.get?_eq_some.1 ha
  have hnormal : Address.normalize key = key := hk (key, a) hmem
  obtain ⟨⟨key', state⟩, hs, hkey, ha⟩ := exists_of_forall₂ hf.flip hmem
  obtain rfl : key' = key := hkey
  refine ⟨state, _, ha, hs, AddressMap.get?_eq_some.2 ?_⟩
  rw [hnormal]
  exact hs

theorem mem_keys_of_accounts (hk : ∀ e ∈ diff.entries, Address.normalize e.1 = e.1)
    (h : accounts diff layouts candidates bounds lengths = .ok states) {state : LabeledState}
    (hs : states.get? key = some state) : Address.normalize key ∈ diff.keys := by
  obtain ⟨known, hf⟩ := entries_accounts hk h
  obtain ⟨e, he, hkey, -⟩ := exists_of_forall₂ hf (AddressMap.get?_eq_some.1 hs)
  exact List.mem_map.2 ⟨e, he, hkey.symm⟩

/-- The labeled state of an address shows each slot of the last record for it, and no others. -/
theorem accounts_show {raw front back : List (Value × Value)} {address v : Value}
    (hd : parseStateDiff raw = .ok diff)
    (h : accounts diff layouts candidates bounds lengths = .ok states)
    (hr : raw = front ++ (address, v) :: back)
    (hlast : ∀ e ∈ back, Address.ofValue e.1 ≠ Address.ofValue address) :
    ∃ key state storage, Address.ofValue address = .ok key ∧ (key, state) ∈ states.entries ∧
      states.get? key = some state ∧ Account.Holds v storage ∧
      (∀ e ∈ storage, ∃ slot, Slot.ofValue e.1 = .ok slot ∧ state.Shows slot) ∧
      ∀ slot, state.Shows slot → ∃ e ∈ storage, Slot.ofValue e.1 = .ok slot := by
  subst hr
  obtain ⟨key, hkey⟩ : ∃ key, Address.ofValue address = .ok key := by
    obtain ⟨accounts, hm, -⟩ := bind_eq_ok.1 hd
    obtain ⟨a, ha⟩ := exists_mapM.1 ⟨accounts, hm⟩ (address, v)
      (List.mem_append_right _ List.mem_cons_self)
    exact ⟨a.address, (Account.parse_cases ha).1⟩
  obtain ⟨a, hp, hget⟩ := get?_parseStateDiff hd hkey (fun e he => hkey ▸ hlast e he)
  obtain ⟨state, _, ha, hmem, hfound⟩ :=
    get?_accounts (fun e he => normalize_of_mem_parseStateDiff hd he) h hget
  obtain ⟨-, storage, hs, hparse⟩ := Account.parse_cases hp
  obtain ⟨hall, honly⟩ := Account.mem_keys_of_parseStorage hparse
  refine ⟨key, state, storage, hkey, hmem, hfound, hs, fun e he => ?_, fun slot hslot => ?_⟩
  · obtain ⟨slot, hslot, hplace⟩ := hall e he
    exact ⟨slot, hplace, (shows_iff ha).2 hslot⟩
  · exact honly slot ((shows_iff ha).1 hslot)

end Accounts

def oneSlot (place : String) : Value :=
  .object [("storage", .object [(place, .object [("current", .text "0x5")])])]

def spellings : List (Value × Value) := [(.text "0xAB", oneSlot "0x0"), (.text "ab", oneSlot "1")]

theorem exists_spellings : ∃ diff states, parseStateDiff spellings = .ok diff ∧
    accounts diff .empty [] .standard [] = .ok states ∧
    (diff.entries.map fun e => (e.1, e.2.storage.keys)) =
      [("0x00000000000000000000000000000000000000ab", [1])] := by
  obtain ⟨⟨diff, states⟩, h, hk⟩ : ∃ found, (do
      let diff ← parseStateDiff spellings
      return (diff, ← accounts diff .empty [] .standard [])) = .ok found ∧
      (found.1.entries.map fun e => (e.1, e.2.storage.keys)) =
        [("0x00000000000000000000000000000000000000ab", [1])] :=
    exists_ok_of_toOption (by decide +kernel)
  obtain ⟨diff, hd, h⟩ := bind_eq_ok.1 h
  obtain ⟨states, hs, h⟩ := bind_eq_ok.1 h
  cases pure_eq_ok.1 h
  exact ⟨diff, states, hd, hs, hk⟩

theorem accounts_show_spellings : ∃ diff states key state, parseStateDiff spellings = .ok diff ∧
    accounts diff .empty [] .standard [] = .ok states ∧
    Address.ofValue (.text "ab") = .ok key ∧ states.get? key = some state ∧ state.Shows 1 := by
  obtain ⟨diff, states, hd, h, -⟩ := exists_spellings
  have hsplit : spellings = [(.text "0xAB", oneSlot "0x0")] ++ (.text "ab", oneSlot "1") :: [] := rfl
  obtain ⟨key, state, storage, hkey, -, hget, ⟨members, hm, hs⟩, hall, -⟩ :=
    accounts_show hd h hsplit fun _ he => absurd he List.not_mem_nil
  cases hm
  cases hs
  obtain ⟨slot, hslot, hshows⟩ := hall _ List.mem_cons_self
  cases hslot
  exact ⟨diff, states, key, state, hd, h, hkey, hget, hshows⟩

/-- The slot under the first spelling is lost. -/
theorem spellings_lose_slot : ∃ diff states key state, parseStateDiff spellings = .ok diff ∧
    accounts diff .empty [] .standard [] = .ok states ∧
    Address.ofValue (.text "0xAB") = .ok key ∧ states.get? key = some state ∧
    Slot.ofValue (.text "0x0") = .ok 0 ∧ ¬ state.Shows 0 := by
  obtain ⟨diff, states, hd, h, hk⟩ := exists_spellings
  obtain ⟨⟨key, a⟩, hentries, he⟩ := List.map_eq_singleton_iff.1 hk
  obtain ⟨rfl, hkeys⟩ := Prod.mk.inj he
  have hmem : ("0x00000000000000000000000000000000000000ab", a) ∈ diff.entries :=
    hentries ▸ List.mem_cons_self
  obtain ⟨state, lengths, ha, -, hget⟩ := get?_accounts
    (fun e he => normalize_of_mem_parseStateDiff hd he) h (Table.get?_eq_some.2 hmem)
  refine ⟨diff, states, _, state, hd, h, by decide +kernel, hget, by decide +kernel, ?_⟩
  rw [shows_iff ha, hkeys]
  simp

end Label

end SlotLens

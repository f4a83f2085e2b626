import SlotLens.Proofs.Label.Lossless
import SlotLens.Proofs.Search.Total
import Mathlib.Algebra.Group.Int.Defs

namespace SlotLens

section Spots

variable {s : Scene} {a b : Spot} {d element : Descriptor} {path : Path} {segment : Segment}
  {leaf : Leaf} {offset : Int}

/-- What stands at a spot is emitted, and a value fits into its slot there. -/
structure Spot.Fits (a : Spot) : Prop where
  emitted : a.descriptor.Emitted
  inSlot : a.descriptor.kind = .primitive →
    0 ≤ a.offset ∧ a.offset + a.descriptor.entry.size ≤ 32

theorem Descriptor.Emitted.fits (h : d.Emitted) (slot : Int) :
    Spot.Fits ⟨d, slot, d.entry.offset⟩ := by
  refine ⟨h, fun hk => ?_⟩
  obtain ⟨-, hnn, hstop⟩ := (h.isValue hk).fits
  exact ⟨hnn, hstop⟩

theorem Descriptor.Emitted.fits_spotAt (h : element.Emitted) {i : Nat} {rel shift : Int}
    (hpos : element.position i = .ok (rel, shift)) (slot : Int) :
    (element.spotAt slot shift).Fits := by
  by_cases hp : element.isPacked
  · rw [spotAt_packed hp]
    exact ⟨h, fun _ => h.position_fits hp hpos⟩
  · rw [spotAt_unpacked (Bool.not_eq_true _ ▸ hp)]
    exact h.fits slot

namespace Scene

theorem fits_of_hop (h : a.Fits) (hop : s.Hop a segment b) : b.Fits := by
  cases hop with
  | field hm => exact (Descriptor.emitted_of_mem h.emitted.1 hm).fits _
  | item _ hpos => exact Descriptor.Emitted.fits_spotAt h.emitted.1 hpos _
  | @element e element _ _ _ _ _ _ _ _ _ _ hpos =>
    have he : element.Emitted := h.emitted
    exact he.fits_spotAt hpos _
  | key => exact Descriptor.Emitted.fits h.emitted.2 _

theorem fits_of_leads {slot : Int} (h : a.Fits) (hl : s.Leads a path slot leaf offset) :
    leaf.Fits offset := by
  induction hl with
  | value | cutValue =>
    obtain ⟨hnn, hstop⟩ := h.inSlot rfl
    obtain ⟨hfits, hdecodable⟩ := h.emitted.isValue rfl
    exact ⟨hnn, hfits.size_pos, hstop, hdecodable⟩
  | bytes | cutBytes | chunk => trivial
  | length | cutLength => exact Leaf.arrayLength_fits
  | hop hop _ ih => exact ih (fits_of_hop h hop)

end Scene

end Spots

/-- A match that an entry can be made of: it has a name, and its field can be read. -/
structure Match.Readable (m : Match) : Prop where
  name : ∃ label, m.name = .text label
  field : ∀ leaf, m.leaf = some leaf → m.size = leaf.size ∧ leaf.Fits m.offset

section Entries

variable {m : Match}

theorem Match.readable_unresolved (slot : Int) (note : String) :
    (Match.unresolved slot note).Readable :=
  ⟨⟨_, rfl⟩, fun _ hleaf => by cases hleaf⟩

theorem Scene.Replays.readable {s : Scene} {slot : Int} (hl : s.layout.Emitted)
    (h : s.Replays slot m) : m.Readable := by
  obtain ⟨v, hv, leaf, hname, -, hleaf, hsize, hleads⟩ := h
  refine ⟨hname ▸ (hl v hv).label, fun other ho => ?_⟩
  cases hleaf.symm.trans ho
  exact ⟨hsize, fits_of_leads ((hl v hv).emitted.fits v.slot) hleads⟩

theorem FieldValue.exists_ofMatch (hm : m.Readable) (word : Word) :
    ∃ v, FieldValue.ofMatch m word = .ok v := by
  rw [FieldValue.ofMatch]
  split
  · exact ⟨_, rfl⟩
  · exact ⟨_, rfl⟩
  · next e hleaf =>
    obtain ⟨hsize, hnn, hpos, hstop, hdecodable⟩ := hm.field _ hleaf
    -- The size of a match is cut at that of a word, which leaves a value that fits as it is.
    have hs : m.size = e.size := by
      rw [hsize, Leaf.size]
      omega
    obtain ⟨field, hf, hlength⟩ :=
      Field.exists_extract word.length_bytes hnn (hs ▸ hpos) (hs ▸ hstop)
    refine exists_bind ⟨field, hf⟩ fun other ho => ?_
    cases hf.symm.trans ho
    refine exists_bind (Field.exists_decode ?_ (by omega)) fun _ _ => ⟨_, rfl⟩
    rwa [hlength, hs]

theorem TraceEntry.exists_ofMatch (hm : m.Readable) (access : Access) :
    ∃ e, TraceEntry.ofMatch access m = .ok e := by
  have hnext : ∃ next, access.next.mapM (FieldValue.ofMatch m) = .ok next := by
    cases access.next with
    | none => exact ⟨none, rfl⟩
    | some word => exact exists_map (FieldValue.exists_ofMatch hm word)
  refine exists_bind (FieldValue.exists_ofMatch hm access.current) fun current _ =>
    exists_bind hnext fun next _ => ?_
  dsimp only
  split
  · exact exists_bind (exists_liftM (exists_render.2 hm.name)) fun _ _ => ⟨_, rfl⟩
  · exact exists_bind (exists_liftM (exists_render.2 hm.name)) fun _ _ => ⟨_, rfl⟩

end Entries

namespace Label

variable {a : Account} {layout : Option Layout} {candidates : List Candidate} {bounds : Bounds}
  {lengths : Lengths} {matched : List Match} {m : Match}

theorem exists_matchAccount (hl : ∀ l ∈ layout, l.Emitted) :
    ∃ matched, matchAccount a layout candidates bounds lengths = .ok matched := by
  cases layout with
  | none => exact ⟨_, rfl⟩
  | some l => exact exists_map (Scene.exists_run (hl l rfl))

theorem readable_of_matchAccount (hl : ∀ l ∈ layout, l.Emitted)
    (h : matchAccount a layout candidates bounds lengths = .ok matched) (hm : m ∈ matched) :
    m.Readable := by
  rcases source_of_matchAccount h hm with ⟨note, he⟩ | ⟨l, hmem, hreplays⟩
  · rw [he]
    exact Match.readable_unresolved m.slot note
  · exact hreplays.readable (hl l hmem)

theorem exists_addMatch (hm : m.Readable) (storage : Table String LabeledVariable) :
    ∃ storage', addMatch a layout storage m = .ok storage' := by
  obtain ⟨label, hlabel⟩ := hm.name
  rw [addMatch]
  split
  · exact ⟨storage, rfl⟩
  · next access _ =>
    rw [hlabel]
    refine exists_bind ⟨.text label, rfl⟩ fun name _ => ?_
    exact exists_bind (TraceEntry.exists_ofMatch hm access) fun _ _ => ⟨_, rfl⟩

theorem exists_assemble (hl : ∀ l ∈ layout, l.Emitted) (hm : ∀ m ∈ matched, m.Readable) :
    ∃ storage, assemble a layout matched = .ok storage := by
  refine exists_bind (exists_mapM.2 fun d hd => exists_liftM ?_) fun _ _ => ?_
  · cases layout with
    | none => exact absurd hd List.not_mem_nil
    | some l =>
      obtain ⟨label, hlabel⟩ := (hl l rfl d hd).label
      rw [hlabel]
      exact ⟨.text label, rfl⟩
  · have hstep : ∀ m ∈ matched, ∀ storage, True →
        ∃ storage', addMatch a layout storage m = .ok storage' ∧ True :=
      fun m hmem storage _ => (exists_addMatch (hm m hmem) storage).imp fun _ h => ⟨h, trivial⟩
    exact (exists_foldlM hstep trivial).imp fun _ h => h.1

theorem exists_account (hl : ∀ l ∈ layout, l.Emitted) :
    ∃ state, account a layout candidates bounds lengths = .ok state :=
  exists_bind (exists_matchAccount hl) fun _ hm =>
    exists_bind (exists_assemble hl fun _ => readable_of_matchAccount hl hm) fun _ _ => ⟨_, rfl⟩

end Label

theorem AddressMap.exists_ofEntries {β : Type} {entries : List (Value × β)}
    (h : ∀ e ∈ entries, ∃ address, e.1 = .text address) : ∃ m, ofEntries entries = .ok m := by
  have hall (m : AddressMap β) : ∃ m', m.insertEach entries = (m', none) := by
    induction entries generalizing m with
    | nil => exact ⟨m, rfl⟩
    | cons e entries ih =>
      obtain ⟨key, v⟩ := e
      obtain ⟨⟨address, rfl⟩, hrest⟩ := List.forall_mem_cons.1 h
      exact ih hrest _
  obtain ⟨m, hm⟩ := hall .empty
  rw [ofEntries, hm]
  exact ⟨m, rfl⟩

namespace Label

variable {diff : Table String Account} {layouts : AddressMap Layout}
  {known : List (Value × Lengths)}

theorem exists_accounts (hl : ∀ e ∈ layouts.entries, e.2.Emitted)
    (hk : ∀ e ∈ known, ∃ address, e.1 = .text address) :
    ∃ states, accounts diff layouts candidates bounds known = .ok states := by
  refine exists_bind (exists_liftM (AddressMap.exists_ofEntries hk)) fun lengths _ =>
    exists_bind (exists_mapM.2 fun e _ => exists_map (exists_account fun l hmem => ?_)) fun _ _ =>
      ⟨_, rfl⟩
  exact hl _ (AddressMap.get?_eq_some.1 hmem)

/-- Where the layouts are as they are emitted, every state diff that can be read is labeled,
whatever was observed, tried or known: each account has its labeled state, which shows the slots of
the account. -/
theorem accounts_total {raw : List (Value × Value)} (hd : parseStateDiff raw = .ok diff)
    (hl : ∀ e ∈ layouts.entries, e.2.Emitted)
    (hk : ∀ e ∈ known, ∃ address, e.1 = .text address) :
    ∃ states, accounts diff layouts candidates bounds known = .ok states ∧
      ∀ key a, diff.get? key = some a → ∃ state, states.get? key = some state ∧
        ∀ slot, state.Shows slot ↔ slot ∈ a.storage.keys := by
  obtain ⟨states, h⟩ : ∃ states, accounts diff layouts candidates bounds known = .ok states :=
    exists_accounts hl hk
  refine ⟨states, h, fun key a ha => ?_⟩
  obtain ⟨state, lengths, hstate, -, hget⟩ :=
    get?_accounts (fun e he => normalize_of_mem_parseStateDiff hd he) h ha
  exact ⟨state, hget, fun slot => shows_iff hstate⟩

def tree : Descriptor :=
  .struct ⟨.text "", "t_struct", .text "struct Grove.Tree", 0, 0, 64⟩ [
    .primitive ⟨.text "weight", "t_uint128", .text "uint128", 0, 0, 16⟩,
    .primitive ⟨.text "open", "t_bool", .text "bool", 0, 16, 1⟩,
    .dynamicArray ⟨.text "branches", "t_array", .text "struct Grove.Tree[]", 1, 0, 32⟩
      (.cut ⟨.text "", "t_struct", .text "struct Grove.Tree", 0, 0, 64⟩ .struct)]

def grove : Layout := ⟨[
  .mapping ⟨.text "trees", "t_mapping", .text "mapping(address => struct Grove.Tree)", 0, 0, 32⟩
    (.text "address") tree,
  .staticArray ⟨.text "seasons", "t_array", .text "uint64[5]", 1, 0, 64⟩ 5
    (.primitive ⟨.text "", "t_uint64", .text "uint64", 0, 0, 8⟩),
  .bytes ⟨.text "motto", "t_string", .text "string", 3, 0, 32⟩]⟩

theorem grove_emitted : grove.Emitted := by
  have weight : Descriptor.Emitted
      (.primitive ⟨.text "weight", "t_uint128", .text "uint128", 0, 0, 16⟩) :=
    ⟨⟨by decide, by decide, by decide⟩, "uint128", rfl, by decide +kernel⟩
  have flag : Descriptor.Emitted (.primitive ⟨.text "open", "t_bool", .text "bool", 0, 16, 1⟩) :=
    ⟨⟨by decide, by decide, by decide⟩, "bool", rfl, by decide +kernel⟩
  have season : Descriptor.Emitted
      (.primitive ⟨.text "", "t_uint64", .text "uint64", 0, 0, 8⟩) :=
    ⟨⟨by decide, by decide, by decide⟩, "uint64", rfl, by decide +kernel⟩
  have branches : Descriptor.Emitted
      (.cut ⟨.text "", "t_struct", .text "struct Grove.Tree", 0, 0, 64⟩ .struct) :=
    fun hk => by cases hk
  have whole : tree.Emitted := ⟨⟨weight, flag, branches, trivial⟩, by decide⟩
  intro d hd
  simp only [grove, List.mem_cons, List.not_mem_nil, or_false] at hd
  rcases hd with rfl | rfl | rfl
  · exact ⟨⟨"trees", rfl⟩, ⟨.inr ⟨"address", rfl, by decide +kernel⟩, whole⟩, by decide,
      by decide +kernel⟩
  · exact ⟨⟨"seasons", rfl⟩, ⟨season, 2, rfl, by decide⟩, by decide, by decide +kernel⟩
  · exact ⟨⟨"motto", rfl⟩, trivial, by decide, by decide +kernel⟩

def branchesSlot : Int := Slot.wrap (Slot.ofHash (Scene.sampleKey.raw ++ (Word.ofNat 0).bytes) + 1)

def groveRecord : List (Value × Value) := [(.text "0x1", .object [("storage", .object [
  (Slot.hex branchesSlot, .object [("current", .text "0x2"), ("next", .text "0x3")]),
  ("0x2", .object [("current", .text "0x7")]),
  ("0x3", .object [("current", .text "0x41")])])])]

def groveLengths : List (Value × Lengths) :=
  [(.text "0x1", Table.ofList [(branchesSlot, some (2 ^ 300)), (3, some (-1))])]

theorem accounts_total_grove : grove.Emitted ∧
    ∃ diff a states state, parseStateDiff groveRecord = .ok diff ∧
      accounts diff (.ofList [("0x1", grove)]) [Scene.sampleKey] .standard groveLengths =
        .ok states ∧
      diff.get? "0x0000000000000000000000000000000000000001" = some a ∧
      states.get? "0x0000000000000000000000000000000000000001" = some state ∧
      a.storage.keys = [branchesSlot, 2, 3] ∧ ∀ slot ∈ a.storage.keys, state.Shows slot := by
  have hemitted : ∀ e ∈ (AddressMap.ofList [("0x1", grove)]).entries, e.2.Emitted := by
    intro e he
    cases List.mem_singleton.1 he
    exact grove_emitted
  have htexts : ∀ e ∈ groveLengths, ∃ address, e.1 = .text address := by
    intro e he
    cases List.mem_singleton.1 he
    exact ⟨"0x1", rfl⟩
  obtain ⟨diff, hd, hkeys⟩ : ∃ diff, parseStateDiff groveRecord = .ok diff ∧
      (diff.get? "0x0000000000000000000000000000000000000001").map (·.storage.keys) =
        some [branchesSlot, 2, 3] :=
    exists_ok_of_toOption (by decide +kernel)
  obtain ⟨a, ha, hkeys⟩ := Option.map_eq_some_iff.1 hkeys
  obtain ⟨states, h, hshows⟩ :=
    @accounts_total diff _ groveLengths [Scene.sampleKey] .standard _ hd hemitted htexts
  obtain ⟨state, hstate, hslots⟩ := hshows _ a ha
  exact ⟨grove_emitted, diff, a, states, state, hd, h, ha, hstate, hkeys,
    fun slot hslot => (hslots slot).2 hslot⟩

end Label

end SlotLens

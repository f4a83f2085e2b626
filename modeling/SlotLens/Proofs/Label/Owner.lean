import SlotLens.Proofs.Label.Assembly

namespace SlotLens

theorem Value.same_text {v : Value} {text : String} : v.same (.text text) ↔ v = .text text := by
  cases v with
  | text s => simp [same]
  | real x =>
    rw [same, sameNumber, asNumber]
    · cases x.integer? <;> simp [asNumber]
    all_goals simp
  | _ => simp [same, sameNumber, asNumber]

/-- An entry shows a field of a variable: it is what a match of the variable says about the words
that were observed, and the path of the match leads from the variable to the field. -/
def Scene.HasField (s : Scene) (d : Descriptor) (e : TraceEntry) : Prop :=
  ∃ m access leaf, s.observed.get? e.slot = some access ∧ TraceEntry.ofMatch access m = .ok e ∧
    m.name = d.label ∧ m.typeLabel = d.typeLabel ∧ m.leaf = some leaf ∧ m.size = leaf.size ∧
    s.Leads d.spot m.path e.slot leaf m.offset

/-- What stands under a name is what was observed of a variable. -/
structure LabeledVariable.Describes (s : Scene) (v : LabeledVariable) (d : Descriptor) : Prop where
  name : d.label = .text v.name
  type : v.type = d.typeLabel
  kind : v.kind = d.kind.name
  fields : ∀ e ∈ v.trace, s.HasField d e

namespace Label

variable {a : Account} {l : Layout} {candidates : List Candidate} {bounds : Bounds}
  {lengths : Lengths} {matched : List Match} {m : Match} {state : LabeledState} {name : String}
  {v : LabeledVariable} {e : TraceEntry}

theorem exists_kindOf {d : Descriptor} (hd : d ∈ l.descriptors) (hl : d.label = .text name) :
    ∃ d ∈ l.descriptors, d.label = .text name ∧ kindOf (some l) name = d.kind.name := by
  rw [kindOf]
  split
  · next d' hf =>
    have hmem := List.mem_of_find?_eq_some hf
    have hsame : d'.label.same (.text name) := by simpa using List.find?_some hf
    exact ⟨d', List.mem_reverse.1 hmem, Value.same_text.1 hsame, rfl⟩
  · next hf =>
    have hnone := List.find?_eq_none.1 hf d (List.mem_reverse.2 hd)
    exact absurd (Value.same_text.2 hl) hnone

theorem Tells.exists_hasField
    (hm : matchAccount a (some l) candidates bounds lengths = .ok matched) (hmem : m ∈ matched)
    (hname : m.name = .text name) (hn : ∀ slot ∈ a.storage.keys, name ≠ Match.slotName slot)
    (ht : Tells a m e) :
    ∃ d ∈ l.descriptors, d.label = .text name ∧ m.typeLabel = d.typeLabel ∧
      Scene.HasField ⟨l, a.storage, candidates, bounds, lengths⟩ d e := by
  rcases source_of_matchAccount hm hmem with ⟨note, hu⟩ | ⟨_, hl, hr⟩
  · have hslot := (slots_of_matchAccount hm m.slot).1 ⟨m, hmem, rfl⟩
    rw [hu] at hname
    exact absurd (Value.text.inj hname).symm (hn m.slot hslot)
  · cases hl
    obtain ⟨d, hd, leaf, hlabel, htype, hleaf, hsize, hleads⟩ := hr
    have hslot := ht.slot_eq
    obtain ⟨access, ha, he⟩ := ht
    rw [← hslot] at ha hleads
    exact ⟨d, hd, hlabel.trans hname, htype.symm, m, access, leaf, ha, he, hlabel.symm,
      htype.symm, hleaf, hsize, hleads⟩

/-- Under a name that no open slot has, each entry shows a field of a variable with this label, and
the type and the kind are those of such variables. Where one variable has the label, the name
describes it. -/
theorem account_describes
    (h : account a (some l) candidates bounds lengths = .ok state)
    (hv : (name, v) ∈ state.storage.entries)
    (hn : ∀ slot ∈ a.storage.keys, name ≠ Match.slotName slot) :
    v.name = name ∧
      (∀ e ∈ v.trace, ∃ d ∈ l.descriptors, d.label = .text name ∧
        Scene.HasField ⟨l, a.storage, candidates, bounds, lengths⟩ d e) ∧
      (∃ d ∈ l.descriptors, d.label = .text name ∧ v.type = d.typeLabel) ∧
      (∃ d ∈ l.descriptors, d.label = .text name ∧ v.kind = d.kind.name) ∧
      ((∀ d ∈ l.descriptors, ∀ d' ∈ l.descriptors, d.label = .text name →
          d'.label = .text name → d = d') →
        ∃ d ∈ l.descriptors, v.Describes ⟨l, a.storage, candidates, bounds, lengths⟩ d) := by
  obtain ⟨matched, hm, hg⟩ := account_cases h
  have hg := hg name
  rw [Table.get?_eq_some.2 hv] at hg
  have hfields : ∀ e ∈ v.trace, ∃ d ∈ l.descriptors, d.label = .text name ∧
      Scene.HasField ⟨l, a.storage, candidates, bounds, lengths⟩ d e := by
    intro e he
    obtain ⟨m, hmem, hname, ht⟩ := hg.exists_match he
    obtain ⟨d, hd, hl, -, hf⟩ := ht.exists_hasField hm hmem hname hn
    exact ⟨d, hd, hl, hf⟩
  obtain ⟨hvname, hvkind, m, hmem, hname, hvtype, e, -, ht⟩ := hg.exists_first
  obtain ⟨d, hd, hl, htype, -⟩ := ht.exists_hasField hm hmem hname hn
  obtain ⟨d', hd', hl', hkind⟩ := exists_kindOf hd hl
  refine ⟨hvname, hfields, ⟨d, hd, hl, hvtype.trans htype⟩, ⟨d', hd', hl', hvkind.trans hkind⟩,
    fun hone => ?_⟩
  have hsame := hone d hd d' hd' hl hl'
  refine ⟨d, hd, hvname ▸ hl, hvtype.trans htype, hsame ▸ hvkind.trans hkind, fun e he => ?_⟩
  obtain ⟨d₂, hd₂, hl₂, hf⟩ := hfields e he
  rwa [hone d hd d₂ hd₂ hl hl₂]

def sampleAccount : Account := ⟨"", (Scene.sample .standard).observed, []⟩

theorem account_describes_sample : ∃ state v,
    account sampleAccount (some (Scene.sample .standard).layout) [Scene.sampleKey] .standard
      .empty = .ok state ∧
    ("lists", v) ∈ state.storage.entries ∧
    v.trace.map (·.expression) = ["lists[0x0000000000000000000000000000000000000aBc][1]",
      "lists[0x0000000000000000000000000000000000000aBc]._length"] ∧
    ∃ d ∈ (Scene.sample .standard).layout.descriptors, v.Describes (Scene.sample .standard) d := by
  obtain ⟨state, h, hk⟩ : ∃ state,
      account sampleAccount (some (Scene.sample .standard).layout) [Scene.sampleKey] .standard
        .empty = .ok state ∧
      (state.storage.get? "lists").map (·.trace.map (·.expression)) =
        some ["lists[0x0000000000000000000000000000000000000aBc][1]",
          "lists[0x0000000000000000000000000000000000000aBc]._length"] :=
    exists_ok_of_toOption (by decide +kernel)
  obtain ⟨v, hv, htrace⟩ := Option.map_eq_some_iff.1 hk
  have hmem := Table.get?_eq_some.1 hv
  have hslots : ∀ slot ∈ sampleAccount.storage.keys, "lists" ≠ Match.slotName slot := by
    decide +kernel
  obtain ⟨-, -, -, -, hone⟩ := account_describes h hmem hslots
  refine ⟨state, v, h, hmem, htrace, hone ?_⟩
  intro d hd d' hd' hl hl'
  simp only [Scene.sample, List.mem_cons, List.not_mem_nil, or_false] at hd hd'
  rcases hd with rfl | rfl <;> rcases hd' with rfl | rfl <;>
    simp_all [Descriptor.label, Descriptor.entry]

def namesakes : Layout := ⟨[
  .primitive ⟨.text "x", "t_uint256", .text "uint256", 0, 0, 32⟩,
  .mapping ⟨.text "x", "t_mapping", .text "mapping(uint256 => uint256)", 1, 0, 32⟩
    (.text "uint256") (.primitive ⟨.text "", "t_uint256", .text "uint256", 0, 0, 32⟩)]⟩

/-- The slot of the number was observed. It stands under the label with its type and with the kind
of the mapping, which is neither of the two variables. -/
theorem namesakes_mix_kinds : ∃ state v,
    account ⟨"", Table.ofList [(0, ⟨Word.ofNat 5, none⟩)], []⟩ (some namesakes) [] .standard
      .empty = .ok state ∧
    ("x", v) ∈ state.storage.entries ∧ v.trace.map (·.slot) = [0] ∧
    ¬ ∃ d ∈ namesakes.descriptors, v.type = d.typeLabel ∧ v.kind = d.kind.name := by
  obtain ⟨state, h, hk⟩ : ∃ state,
      account ⟨"", Table.ofList [(0, ⟨Word.ofNat 5, none⟩)], []⟩ (some namesakes) [] .standard
        .empty = .ok state ∧
      (state.storage.get? "x").map (fun v => (v.type.plain, v.kind, v.trace.map (·.slot))) =
        some ("uint256", "mapping", [0]) :=
    exists_ok_of_toOption (by decide +kernel)
  obtain ⟨v, hv, hshown⟩ := Option.map_eq_some_iff.1 hk
  simp only [Prod.mk.injEq] at hshown
  obtain ⟨htype, hkind, htrace⟩ := hshown
  refine ⟨state, v, h, Table.get?_eq_some.1 hv, htrace, ?_⟩
  rintro ⟨d, hd, hdtype, hdkind⟩
  rw [hdtype] at htype
  rw [hdkind] at hkind
  simp only [namesakes, List.mem_cons, List.not_mem_nil, or_false] at hd
  rcases hd with rfl | rfl
  · exact absurd hkind (by decide)
  · exact absurd htype (by decide)

end Label

end SlotLens

import SlotLens.Label.State
import SlotLens.Proofs.Search.Replay
import SlotLens.Proofs.Search.Attribution

/-!
# What stands under a name

The matches of an account cover its slots, and each match becomes one entry under its name: the
entries of a name stand in the order of their matches, with the type that the first of these has.
-/

namespace SlotLens

/-- An entry shows the fields of the words at the slot of its match, and its expression is that of
its path. -/
structure TraceEntry.Shows (access : Access) (m : Match) (e : TraceEntry) : Prop where
  current : FieldValue.ofMatch m access.current = .ok e.current
  next : access.next.mapM (FieldValue.ofMatch m) = .ok e.next
  slot : e.slot = m.slot
  path : e.path = m.path ∨ e.path = m.path ++ [.bytesLength]
  expression : e.path.render m.name = .ok e.expression

theorem TraceEntry.shows_of_ofMatch {access : Access} {m : Match} {e : TraceEntry}
    (h : ofMatch access m = .ok e) : e.Shows access m := by
  simp only [ofMatch, bind_eq_ok] at h
  obtain ⟨current, hc, next, hn, h⟩ := h
  split at h
  · obtain ⟨text, ht, h⟩ := bind_eq_ok.1 h
    cases pure_eq_ok.1 h
    exact ⟨hc, hn, rfl, .inr rfl, liftM_eq_ok.1 ht⟩
  · obtain ⟨text, ht, h⟩ := bind_eq_ok.1 h
    cases pure_eq_ok.1 h
    exact ⟨hc, hn, rfl, .inl rfl, liftM_eq_ok.1 ht⟩

namespace Label

variable {a : Account} {layout : Option Layout} {candidates : List Candidate} {bounds : Bounds}
  {lengths : Lengths} {matched : List Match} {m : Match} {state : LabeledState}
  {storage storage' : Table String LabeledVariable} {name : String} {v : LabeledVariable}
  {e : TraceEntry}

section Sources

theorem slots_of_matchAccount (h : matchAccount a layout candidates bounds lengths = .ok matched)
    (slot : Int) : (∃ m ∈ matched, m.slot = slot) ↔ slot ∈ a.storage.keys := by
  cases layout with
  | none =>
    cases h
    simp only [List.mem_map, (perm_sortBy id a.storage.keys).mem_iff]
    constructor
    · rintro ⟨_, ⟨slot, hs, rfl⟩, rfl⟩
      exact hs
    · intro hs
      exact ⟨_, ⟨slot, hs, rfl⟩, rfl⟩
  | some layout =>
    obtain ⟨results, hrun, rfl⟩ := map_eq_ok.1 h
    obtain ⟨r, -, -, hp, -⟩ := Scene.run_cases hrun
    rw [← (Scene.slots_of_run hrun).2.mem_iff]
    constructor
    · rintro ⟨m, hm, rfl⟩
      obtain ⟨⟨slot, ms⟩, hs, hm⟩ := List.mem_flatMap.1 hm
      obtain ⟨kind, hu⟩ := (Scene.attributed_of_mem hrun hp hs).uniform
      exact List.mem_map.2 ⟨_, hs, (hu.slot_eq m hm).symm⟩
    · intro hs
      obtain ⟨⟨slot, ms⟩, he, rfl⟩ := List.mem_map.1 hs
      obtain ⟨kind, hu⟩ := (Scene.attributed_of_mem hrun hp he).uniform
      obtain ⟨m, hm⟩ := List.exists_mem_of_ne_nil _ hu.nonempty
      exact ⟨m, List.mem_flatMap.2 ⟨_, he, hm⟩, hu.slot_eq m hm⟩

theorem source_of_matchAccount (h : matchAccount a layout candidates bounds lengths = .ok matched)
    (hm : m ∈ matched) : (∃ note, m = Match.unresolved m.slot note) ∨
      ∃ l ∈ layout, Scene.Replays ⟨l, a.storage, candidates, bounds, lengths⟩ m.slot m := by
  cases layout with
  | none =>
    cases h
    obtain ⟨slot, -, rfl⟩ := List.mem_map.1 hm
    exact .inl ⟨noLayoutNote, rfl⟩
  | some l =>
    obtain ⟨results, hrun, rfl⟩ := map_eq_ok.1 h
    obtain ⟨⟨slot, ms⟩, hs, hm⟩ := List.mem_flatMap.1 hm
    obtain ⟨r, -, -, hp, -⟩ := Scene.run_cases hrun
    rcases Scene.mem_run hrun hp hs with ⟨recorded, hg, hr⟩ | ⟨-, note, -, rfl⟩
    · have ht := Engine.traced_of_reaches (Engine.passes_steps hp)
      obtain ⟨kind, hu⟩ := (Scene.attributed_of_mem hrun hp hs).uniform
      obtain ⟨m₀, hm₀, hren⟩ := Match.Renoted.exists_mem hr hm
      rw [hu.slot_eq m hm]
      exact .inr ⟨l, rfl, (ht.results slot recorded hg m₀ hm₀).renoted hren⟩
    · cases List.mem_singleton.1 hm
      exact .inl ⟨note, rfl⟩

end Sources

/-- An entry is what a match says about the words that were observed at its slot. -/
def Tells (a : Account) (m : Match) (e : TraceEntry) : Prop :=
  ∃ access, a.storage.get? m.slot = some access ∧ TraceEntry.ofMatch access m = .ok e

theorem Tells.exists_text (h : Tells a m e) : ∃ name, m.name = .text name := by
  obtain ⟨access, -, he⟩ := h
  exact exists_render.1 ⟨_, (TraceEntry.shows_of_ofMatch he).expression⟩

theorem Tells.slot_eq (h : Tells a m e) : e.slot = m.slot := by
  obtain ⟨access, -, he⟩ := h
  exact (TraceEntry.shows_of_ofMatch he).slot

theorem addMatch_cases (hm : m.slot ∈ a.storage.keys)
    (h : addMatch a layout storage m = .ok storage') :
    ∃ e, Tells a m e ∧ storage' = addEntry layout m.name.plain m.typeLabel e storage := by
  obtain ⟨access, ha⟩ := Table.mem_keys.1 hm
  rw [addMatch, ha] at h
  obtain ⟨key, hk, h⟩ := bind_eq_ok.1 h
  obtain ⟨e, he, h⟩ := bind_eq_ok.1 h
  cases pure_eq_ok.1 h
  have ht : Tells a m e := ⟨access, ha, he⟩
  obtain ⟨name, hname⟩ := ht.exists_text
  rw [hname] at hk ⊢
  cases liftM_eq_ok.1 hk
  exact ⟨e, ht, rfl⟩

theorem get?_addEntry {type : Value} (other : String) :
    (addEntry layout name type e storage).get? other =
      if name = other then
        let known := (storage.get? name).getD ⟨name, type, kindOf layout name, []⟩
        some { known with trace := known.trace ++ [e] }
      else storage.get? other :=
  Table.get?_insert storage name other _

def under (name : String) (matched : List Match) : List Match :=
  matched.filter (·.name.plain = name)

theorem under_append (others : List Match) :
    under name (matched ++ others) = under name matched ++ under name others :=
  List.filter_append _ _

/-- What stands under a name after some matches: nothing where none has the name, or else their
entries, with the type of the first match. -/
def Gathers (a : Account) (layout : Option Layout) (matched : List Match) (name : String) :
    Option LabeledVariable → Prop
  | none => under name matched = []
  | some v => ∃ first rest, under name matched = first :: rest ∧
      v = ⟨name, first.typeLabel, kindOf layout name, v.trace⟩ ∧
      List.Forall₂ (Tells a) (first :: rest) v.trace

theorem Gathers.addEntry {found : Option LabeledVariable} (h : Gathers a layout matched name found)
    (hm : m.name.plain = name) (ht : Tells a m e) :
    Gathers a layout (matched ++ [m]) name
      (let known := found.getD ⟨name, m.typeLabel, kindOf layout name, []⟩
      some { known with trace := known.trace ++ [e] }) := by
  have hu : under name [m] = [m] := by simp [under, hm]
  cases found with
  | none =>
    refine ⟨m, [], ?_, rfl, .cons ht .nil⟩
    rw [under_append, hu, show under name matched = [] from h]
    rfl
  | some v =>
    obtain ⟨first, rest, hf, hv, htrace⟩ := h
    refine ⟨first, rest ++ [m], ?_, ?_, ?_⟩
    · rw [under_append, hu, hf]
      rfl
    · rw [Option.getD_some, hv]
    · exact List.rel_append htrace (.cons ht .nil)

theorem Gathers.addMatch (hg : ∀ name, Gathers a layout matched name (storage.get? name))
    (hm : m.slot ∈ a.storage.keys) (h : addMatch a layout storage m = .ok storage')
    (name : String) : Gathers a layout (matched ++ [m]) name (storage'.get? name) := by
  obtain ⟨e, ht, rfl⟩ := addMatch_cases hm h
  rw [get?_addEntry]
  split
  · next hn =>
    subst hn
    exact (hg _).addEntry rfl ht
  · next hn =>
    have hu : under name (matched ++ [m]) = under name matched := by
      rw [under_append]
      simp [under, hn]
    have hg := hg name
    revert hg
    cases storage.get? name with
    | none => exact fun hg => hu.trans hg
    | some v =>
      rintro ⟨first, rest, hf, hv⟩
      exact ⟨first, rest, hu.trans hf, hv⟩

theorem assemble_gathers (hs : ∀ m ∈ matched, m.slot ∈ a.storage.keys)
    (h : assemble a layout matched = .ok storage) (name : String) :
    Gathers a layout matched name (storage.get? name) := by
  obtain ⟨-, -, h⟩ := bind_eq_ok.1 h
  let good (done : List Match) (storage : Table String LabeledVariable) : Prop :=
    (∀ m ∈ done, m.slot ∈ a.storage.keys) → ∀ name, Gathers a layout done name (storage.get? name)
  have hstart : good [] .empty := fun _ _ => rfl
  refine foldlM_keeps ?_ hstart h hs name
  intro done m storage storage' hg hm hs
  exact Gathers.addMatch (hg fun m hm => hs m (List.mem_append_left _ hm))
    (hs m (List.mem_append_right _ (List.mem_singleton_self m))) hm

section Account

theorem account_cases (h : account a layout candidates bounds lengths = .ok state) :
    ∃ matched, matchAccount a layout candidates bounds lengths = .ok matched ∧
      ∀ name, Gathers a layout matched name (state.storage.get? name) := by
  obtain ⟨matched, hm, h⟩ := bind_eq_ok.1 h
  obtain ⟨storage, hs, h⟩ := bind_eq_ok.1 h
  cases pure_eq_ok.1 h
  have hslots := slots_of_matchAccount hm
  exact ⟨matched, hm, assemble_gathers (fun m hm => (hslots _).1 ⟨m, hm, rfl⟩) hs⟩

theorem Tells.of_under (ht : Tells a m e) (hm : m ∈ under name matched) :
    m ∈ matched ∧ m.name = .text name := by
  obtain ⟨hm, hn⟩ := List.mem_filter.1 hm
  obtain ⟨text, htext⟩ := ht.exists_text
  rw [htext] at hn ⊢
  exact ⟨hm, congrArg Value.text (of_decide_eq_true hn)⟩

theorem Gathers.exists_match (hg : Gathers a layout matched name (some v)) (he : e ∈ v.trace) :
    ∃ m ∈ matched, m.name = .text name ∧ Tells a m e := by
  obtain ⟨first, rest, hu, -, htrace⟩ := hg
  obtain ⟨m, hm, ht⟩ := exists_of_forall₂ htrace he
  obtain ⟨hmem, hn⟩ := ht.of_under (hu ▸ hm)
  exact ⟨m, hmem, hn, ht⟩

theorem Gathers.exists_first (hg : Gathers a layout matched name (some v)) :
    v.name = name ∧ v.kind = kindOf layout name ∧
      ∃ m ∈ matched, m.name = .text name ∧ v.type = m.typeLabel ∧ ∃ e ∈ v.trace, Tells a m e := by
  obtain ⟨first, rest, hu, hv, htrace⟩ := hg
  have hfirst : first ∈ first :: rest := List.mem_cons_self
  obtain ⟨e, he, ht⟩ := exists_of_forall₂ htrace.flip hfirst
  have ht : Tells a first e := ht
  obtain ⟨hmem, hn⟩ := ht.of_under (hu ▸ hfirst)
  refine ⟨?_, ?_, first, hmem, hn, ?_, e, he, ht⟩ <;> rw [hv]

theorem exists_entry (hg : ∀ name, Gathers a layout matched name (storage.get? name))
    (hm : m ∈ matched) :
    ∃ v, storage.get? m.name.plain = some v ∧ ∃ e ∈ v.trace, Tells a m e := by
  have hmem : m ∈ under m.name.plain matched := List.mem_filter.2 ⟨hm, by simp⟩
  have hg := hg m.name.plain
  revert hg
  cases storage.get? m.name.plain with
  | none =>
    intro hg
    rw [show under m.name.plain matched = [] from hg] at hmem
    exact absurd hmem List.not_mem_nil
  | some v =>
    rintro ⟨first, rest, hu, -, ht⟩
    rw [hu] at hmem
    obtain ⟨e, he, ht⟩ := exists_of_forall₂ ht.flip hmem
    exact ⟨v, rfl, e, he, ht⟩

end Account

end Label

end SlotLens

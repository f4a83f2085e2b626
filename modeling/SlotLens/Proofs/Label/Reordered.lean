import SlotLens.Proofs.Label.Assembly
import SlotLens.Proofs.Search.Reordered

namespace SlotLens

structure Account.Reordered (a a' : Account) : Prop where
  fields : a.fields = a'.fields
  storage : a.storage.entries.Perm a'.storage.entries

namespace Account.Reordered

variable {a a' : Account} {lengths lengths' : Lengths}

theorem scene (ha : a.Reordered a') (hl : lengths.entries.Perm lengths'.entries) (layout : Layout)
    (candidates : List Candidate) (bounds : Bounds) :
    Scene.Reordered ⟨layout, a.storage, candidates, bounds, lengths⟩
      ⟨layout, a'.storage, candidates, bounds, lengths'⟩ :=
  ⟨rfl, rfl, rfl, ha.storage, hl⟩

theorem matchAccount (ha : a.Reordered a') (hl : lengths.entries.Perm lengths'.entries)
    (layout : Option Layout) (candidates : List Candidate) (bounds : Bounds) :
    Label.matchAccount a layout candidates bounds lengths =
      Label.matchAccount a' layout candidates bounds lengths' := by
  cases layout with
  | none =>
    have hn : (a.storage.keys.map id).Nodup := (List.map_id _).symm ▸ a.storage.nodup
    rw [Label.matchAccount, sortBy_of_perm hn (ha.storage.map Prod.fst)]
    rfl
  | some layout =>
    rw [Label.matchAccount, (ha.scene hl layout candidates bounds).run]
    rfl

theorem addMatch (ha : a.Reordered a') (layout : Option Layout) :
    Label.addMatch a layout = Label.addMatch a' layout := by
  funext storage m
  rw [Label.addMatch, Label.addMatch, Table.get?_of_perm ha.storage]

theorem account (ha : a.Reordered a') (hl : lengths.entries.Perm lengths'.entries)
    (layout : Option Layout) (candidates : List Candidate) (bounds : Bounds) :
    Label.account a layout candidates bounds lengths =
      Label.account a' layout candidates bounds lengths' := by
  have hassemble : Label.assemble a layout = Label.assemble a' layout := by
    funext matched
    rw [Label.assemble, Label.assemble, ha.addMatch]
  rw [Label.account, Label.account, ha.matchAccount hl, ha.fields, hassemble]

end Account.Reordered

namespace Label

/-- The order in which slots and known lengths came changes neither the matches nor the labeled
state. In each state of a search the open slots in a range are those that either way of going
through the set of open slots finds, in ascending order. -/
theorem account_reordered {a a' : Account} {lengths lengths' : Lengths} (ha : a.Reordered a')
    (hl : lengths.entries.Perm lengths'.entries) (candidates : List Candidate) (bounds : Bounds) :
    (∀ layout : Layout, Scene.run ⟨layout, a.storage, candidates, bounds, lengths⟩ =
      Scene.run ⟨layout, a'.storage, candidates, bounds, lengths'⟩) ∧
    (∀ layout : Option Layout, account a layout candidates bounds lengths =
      account a' layout candidates bounds lengths') ∧
    (∀ set : List Int, set.Nodup → ∀ base span : Int,
      SlotSet.AreHits set base span (SlotSet.enumerated set base span) ∧
      SlotSet.AreHits set base span (SlotSet.selected set base span) ∧
      SlotSet.AreHits set base span (SlotSet.hits set base span)) ∧
    ∀ (s : Scene) (e : Engine) (h : Hunt) (set : List Int), s.Reaches e →
      h.remaining = e.run.remaining → set.Perm e.run.remaining →
      ∀ base span : Int, h.hits base span = SlotSet.hits set base span := by
  refine ⟨fun layout => (ha.scene hl layout candidates bounds).run,
    fun layout => ha.account hl layout candidates bounds, fun set hn base span => ?_,
    fun s e h set he hr hset base span => Scene.hits_of_reaches he hr hset base span⟩
  exact ⟨SlotSet.areHits_enumerated, SlotSet.areHits_selected hn, SlotSet.areHits_hits hn⟩

def turned {κ β : Type} (t : Table κ β) : Table κ β :=
  ⟨t.entries.reverse, by rw [List.map_reverse, List.nodup_reverse]; exact t.nodup⟩

theorem perm_turned {κ β : Type} (t : Table κ β) : t.entries.Perm (turned t).entries :=
  (List.reverse_perm t.entries).symm

theorem account_reordered_sample :
    let sample := Scene.sample .standard
    let lengths : Lengths := .ofList [(7, some 2), (9, none)]
    (turned sample.observed).keys ≠ sample.observed.keys ∧ (turned lengths).keys = [9, 7] ∧
    ∃ state, state.storage.keys = ["owner", Match.slotName 7, "lists"] ∧
      account ⟨"", sample.observed, []⟩ (some sample.layout) [Scene.sampleKey] .standard
        lengths = .ok state ∧
      account ⟨"", turned sample.observed, []⟩ (some sample.layout) [Scene.sampleKey] .standard
        (turned lengths) = .ok state := by
  intro sample lengths
  have ha : Account.Reordered ⟨"", sample.observed, []⟩ ⟨"", turned sample.observed, []⟩ :=
    ⟨rfl, perm_turned sample.observed⟩
  obtain ⟨state, h, hk⟩ : ∃ state,
      account ⟨"", sample.observed, []⟩ (some sample.layout) [Scene.sampleKey] .standard
        lengths = .ok state ∧
      state.storage.keys = ["owner", Match.slotName 7, "lists"] :=
    exists_ok_of_toOption (by decide +kernel)
  obtain ⟨-, hsame, -⟩ := account_reordered ha (perm_turned lengths) [Scene.sampleKey]
    .standard
  refine ⟨by decide +kernel, by decide +kernel, state, hk, h, ?_⟩
  rw [← hsame (some sample.layout)]
  exact h

end Label

end SlotLens

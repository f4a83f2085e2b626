import SlotLens.Proofs.Search.Hunt

namespace SlotLens.Scene

variable {s : Scene} {owner element value : Descriptor} {item : WorkItem} {h h' : Hunt}
  {keyType : Value} {c : Candidate}

theorem tryKey_cases (ht : s.tryKey owner item keyType value c h = .ok h') :
    ∃ derived, Slot.ofKey c.raw item.base = .ok derived ∧
      ((h.hits derived value.slotCount = [] ∧ value.hasContainers = false ∧ h' = h) ∨
        ((h.hits derived value.slotCount ≠ [] ∨ value.hasContainers) ∧
          ∃ key h₁, Field.decodeKey keyType c.raw = .ok key ∧
            claimValue owner value derived (item.path ++ [.key key c.hex keyType])
              (h.hits derived value.slotCount) h = .ok h₁ ∧
            h' = s.pushNested value derived item.level (item.path ++ [.key key c.hex keyType])
              h₁)) := by
  rw [tryKey, bind_eq_ok] at ht
  obtain ⟨derived, hd, ht⟩ := ht
  refine ⟨derived, hd, ?_⟩
  dsimp only at ht
  split at ht
  · next hm =>
    rw [Bool.and_eq_true, List.isEmpty_iff, Bool.not_eq_true'] at hm
    exact .inl ⟨hm.1, hm.2, (pure_eq_ok.1 ht).symm⟩
  · next hm =>
    rw [Bool.and_eq_true, List.isEmpty_iff, Bool.not_eq_true', not_and,
      Bool.not_eq_false] at hm
    simp only [bind_eq_ok, pure_eq_ok] at ht
    obtain ⟨key, hk, h₁, hv, rfl⟩ := ht
    exact .inr ⟨or_iff_not_imp_left.2 fun hn => hm (not_not.1 hn), key, h₁, hk, hv, rfl⟩

theorem expandMapping_cons {rest : List Candidate}
    (he : s.expandMapping owner item keyType value (c :: rest) h = .ok h') :
    ((h.remaining = [] ∨ s.bounds.thresholdReached h.tally.found) ∧ h' = h) ∨
      (h.remaining ≠ [] ∧ s.bounds.thresholdReached h.tally.found = false ∧
        (h.spend s.bounds = (h', false) ∨
          ∃ h₁ h₂, h.spend s.bounds = (h₁, true) ∧
            s.tryKey owner item keyType value c h₁ = .ok h₂ ∧
            s.expandMapping owner item keyType value rest h₂ = .ok h')) := by
  rw [expandMapping] at he
  split at he
  · next hs =>
    rw [Bool.or_eq_true, List.isEmpty_iff] at hs
    cases he
    exact .inl ⟨hs, rfl⟩
  · next hs =>
    rw [Bool.or_eq_true, List.isEmpty_iff, not_or, Bool.not_eq_true] at hs
    refine .inr ⟨hs.1, hs.2, ?_⟩
    split at he
    next h₁ ok hp =>
    cases ok with
    | false =>
      cases he
      exact .inl hp
    | true =>
      obtain ⟨h₂, ht, he⟩ := bind_eq_ok.1 he
      exact .inr ⟨h₁, h₂, hp, ht, he⟩

theorem expandArray_cases {ahead : Nat} (he : s.expandArray owner item element ahead h = .ok h') :
    (s.lengthAt item.base = none ∧ h' = h) ∨
      ∃ length data span h₁, s.lengthAt item.base = some length ∧
        Slot.ofData item.base = .ok data ∧ element.spanOf length = .ok span ∧
        claimElements owner item.container data length item.path (h.hits data span) h = .ok h₁ ∧
        ((element.hasContainers = false ∧ h' = h₁) ∨
          (element.hasContainers ∧
            h' = s.pushElements element data item ahead length.toNat 0 h₁)) := by
  rw [expandArray] at he
  split at he
  · next hl =>
    cases he
    exact .inl ⟨hl, rfl⟩
  · next length hl =>
    simp only [bind_eq_ok] at he
    obtain ⟨data, hd, span, hs, h₁, hv, he⟩ := he
    refine .inr ⟨length, data, span, h₁, hl, hd, hs, hv, ?_⟩
    split at he
    · next hc => exact .inr ⟨hc, (pure_eq_ok.1 he).symm⟩
    · next hc => exact .inl ⟨Bool.not_eq_true _ ▸ hc, (pure_eq_ok.1 he).symm⟩

theorem expandBytes_cases {entry : Entry} (he : s.expandBytes owner item entry h = .ok h') :
    ((s.observed.get? item.base).bind (longLength? entry.typeLabel) = none ∧ h' = h) ∨
      ∃ length data, (s.observed.get? item.base).bind (longLength? entry.typeLabel) = some length ∧
        Slot.ofData item.base = .ok data ∧
        h' = claimChunks owner entry data item.path
          (h.hits data ((length + 31) / 32 : Nat)) h := by
  rw [expandBytes] at he
  split at he
  · next hl =>
    cases he
    exact .inl ⟨hl, rfl⟩
  · next length hl =>
    simp only [bind_eq_ok, pure_eq_ok] at he
    obtain ⟨data, hd, rfl⟩ := he
    exact .inr ⟨length, data, hl, hd, rfl⟩

theorem exploreLevel_cons {rest : List WorkItem} {goesOn : Bool}
    (he : s.exploreLevel owner (item :: rest) h = .ok (h', goesOn)) :
    (h.remaining = [] ∧ h' = h ∧ goesOn = false) ∨
      (h.remaining ≠ [] ∧
        ((s.enter item h = (h', false) ∧ goesOn = false) ∨
          ∃ h₁ h₂, s.enter item h = (h₁, true) ∧ s.expand owner item rest.length h₁ = .ok h₂ ∧
            s.exploreLevel owner rest h₂ = .ok (h', goesOn))) := by
  rw [exploreLevel] at he
  split at he
  · next hr =>
    cases he
    exact .inl ⟨List.isEmpty_iff.1 hr, rfl, rfl⟩
  · next hr =>
    rw [List.isEmpty_iff] at hr
    refine .inr ⟨hr, ?_⟩
    split at he
    next h₁ ok hp =>
    cases ok with
    | false =>
      cases he
      exact .inl ⟨hp, rfl⟩
    | true =>
      obtain ⟨h₂, ht, he⟩ := bind_eq_ok.1 he
      exact .inr ⟨h₁, h₂, hp, ht, he⟩

theorem exploreLevels_nil {levels : Nat} (he : s.exploreLevels owner levels [] h = .ok h') :
    h' = h := by
  cases levels <;> cases he <;> rfl

theorem exploreLevels_succ {levels : Nat} {items : List WorkItem} (hi : items ≠ [])
    (he : s.exploreLevels owner (levels + 1) items h = .ok h') :
    s.exploreLevel owner items { h with next := #[] } = .ok (h', false) ∨
      ∃ h₁, s.exploreLevel owner items { h with next := #[] } = .ok (h₁, true) ∧
        s.exploreLevels owner levels h₁.next.toList h₁ = .ok h' := by
  rw [exploreLevels, if_neg (by simpa using hi), bind_eq_ok] at he
  obtain ⟨⟨h₁, goesOn⟩, hl, he⟩ := he
  cases goesOn with
  | false =>
    cases he
    exact .inl hl
  | true => exact .inr ⟨h₁, hl, he⟩

theorem matchRoot_cases {r r' : Run} {root : Root} (hm : s.matchRoot r root = .ok r') :
    (r.remaining = [] ∧ r' = r) ∨
      (r.remaining ≠ [] ∧ ∃ key h, LabelKey.ofValue root.variableDescriptor.label = .ok key ∧
        s.exploreRoot root (beginHunt r ((r.tallies.get? key).getD .zero)) = .ok h ∧
        r' = ⟨h.remaining, h.results, r.tallies.insert key h.tally⟩) := by
  rw [matchRoot] at hm
  split at hm
  · next hr => exact .inl ⟨List.isEmpty_iff.1 hr, (pure_eq_ok.1 hm).symm⟩
  · next hr =>
    rw [List.isEmpty_iff] at hr
    simp only [bind_eq_ok, liftM_eq_ok, pure_eq_ok] at hm
    obtain ⟨key, hk, h, hh, rfl⟩ := hm
    exact .inr ⟨hr, key, h, hk, hh, rfl⟩

theorem claimFixed_cases {r r' : Run} {kind : MatchKind} {slot : Int}
    (hf : claimFixed owner kind slot r = .ok r') :
    ∃ located, owner.locate (slot - owner.slot) = .ok located ∧
      r' =
        ⟨((beginHunt r .zero).resolve slot (Hunt.claimed slot owner [] kind none located)).remaining,
          ((beginHunt r .zero).resolve slot (Hunt.claimed slot owner [] kind none located)).results,
          r.tallies⟩ := by
  simp only [claimFixed, bind_eq_ok, pure_eq_ok] at hf
  obtain ⟨located, hl, rfl⟩ := hf
  exact ⟨located, hl, rfl⟩

end SlotLens.Scene

import SlotLens.Proofs.Search.Cases
import SlotLens.Proofs.Table

namespace SlotLens

def Descriptor.fieldsAt (slot : Int) (owner : Descriptor) : Except Fault (List Match) :=
  (owner.locate (slot - owner.slot)).map (Hunt.claimed slot owner [] .exact none)

def Layout.fixedFields (l : Layout) (slot : Int) : Except Fault (List Match) :=
  ((l.variablesAt slot).mapM (Descriptor.fieldsAt slot)).map List.flatten

namespace Scene

variable {s : Scene} {slot : Int} {r r' : Run}

theorem claimFixed_results {owner : Descriptor} (hf : claimFixed owner .exact slot r = .ok r') :
    ∃ found, owner.fieldsAt slot = .ok found ∧
      (found = [] → r'.results = r.results) ∧
      (r'.results.get? slot).getD [] =
        (if found = [] then (r.results.get? slot).getD []
          else sortBy Match.offset ((r.results.get? slot).getD [] ++ found)) ∧
      ∀ other, other ≠ slot → r'.results.get? other = r.results.get? other := by
  obtain ⟨located, hl, rfl⟩ := claimFixed_cases hf
  refine ⟨Hunt.claimed slot owner [] .exact none located, map_eq_ok.2 ⟨located, hl, rfl⟩, ?_, ?_,
    fun other ho => Hunt.get?_resolve_of_ne ho⟩
  · intro hn
    rw [hn]
    rfl
  · split
    · next hn =>
      rw [hn]
      rfl
    · next hn =>
      rw [Hunt.get?_resolve_self hn]
      rfl

theorem claimFixed_foldlM {owners : List Descriptor} {known : List Match}
    (hk : (r.results.get? slot).getD [] = sortBy Match.offset known)
    (hf : owners.foldlM (fun r owner => claimFixed owner .exact slot r) r = .ok r') :
    ∃ found, owners.mapM (Descriptor.fieldsAt slot) = .ok found ∧
      (found.flatten = [] → r'.results = r.results) ∧
      (r'.results.get? slot).getD [] = sortBy Match.offset (known ++ found.flatten) ∧
      ∀ other, other ≠ slot → r'.results.get? other = r.results.get? other := by
  induction owners generalizing r known with
  | nil =>
    cases hf
    exact ⟨[], rfl, fun _ => rfl, by simpa using hk, fun _ _ => rfl⟩
  | cons owner owners ih =>
    rw [List.foldlM_cons, bind_eq_ok] at hf
    obtain ⟨r₁, hc, hf⟩ := hf
    obtain ⟨fields, ho, hempty, hslot, hother⟩ := claimFixed_results hc
    have hk₁ : (r₁.results.get? slot).getD [] = sortBy Match.offset (known ++ fields) := by
      rw [hslot, hk]
      split
      · next hn => rw [hn, List.append_nil]
      · exact sortBy_append_sortBy _ _ _
    obtain ⟨found, hm, hempty', hslot', hother'⟩ := ih hk₁ hf
    refine ⟨fields :: found, ?_, ?_, ?_, ?_⟩
    · rw [List.mapM_cons, bind_eq_ok]
      exact ⟨fields, ho, bind_eq_ok.2 ⟨found, hm, rfl⟩⟩
    · intro hn
      rw [List.flatten_cons, List.append_eq_nil_iff] at hn
      rw [hempty' hn.2, hempty hn.1]
    · rw [hslot', List.flatten_cons, List.append_assoc]
    · intro other hne
      rw [hother' other hne, hother other hne]

theorem exactPass_results {slots : List Int} (hn : slots.Nodup)
    (he : ∀ slot ∈ slots, r.results.get? slot = none)
    (hf : slots.foldlM (fun r slot =>
      (s.layout.variablesAt slot).foldlM (fun r owner => claimFixed owner .exact slot r) r)
      r = .ok r') :
    (∀ slot ∈ slots, ∃ fields, s.layout.fixedFields slot = .ok fields ∧
      (fields = [] → r'.results.get? slot = none) ∧
      (fields ≠ [] → r'.results.get? slot = some (sortBy Match.offset fields))) ∧
    ∀ other, other ∉ slots → r'.results.get? other = r.results.get? other := by
  induction slots generalizing r with
  | nil =>
    cases hf
    exact ⟨fun slot hs => absurd hs List.not_mem_nil, fun _ _ => rfl⟩
  | cons slot slots ih =>
    rw [List.foldlM_cons, bind_eq_ok] at hf
    obtain ⟨r₁, hc, hf⟩ := hf
    obtain ⟨hns, hn⟩ := List.nodup_cons.1 hn
    have hnone : r.results.get? slot = none := he slot List.mem_cons_self
    have hk : (r.results.get? slot).getD [] = sortBy Match.offset [] := by
      rw [hnone]
      rfl
    obtain ⟨found, hm, hempty, hslot, hother⟩ := claimFixed_foldlM hk hc
    have he₁ : ∀ other ∈ slots, r₁.results.get? other = none := by
      intro other ho
      rw [hother other fun h => hns (h ▸ ho)]
      exact he other (List.mem_cons_of_mem _ ho)
    obtain ⟨hin, hout⟩ := ih hn he₁ hf
    constructor
    · intro other ho
      rcases List.mem_cons.1 ho with rfl | ho
      · refine ⟨found.flatten, map_eq_ok.2 ⟨found, hm, rfl⟩, ?_, ?_⟩
        · intro h
          rw [hout other hns, hempty h, hnone]
        · intro h
          rw [hout other hns]
          rw [List.nil_append] at hslot
          cases hg : r₁.results.get? other with
          | none =>
            rw [hg] at hslot
            exact absurd (sortBy_eq_nil.1 hslot.symm) h
          | some ms =>
            rw [hg] at hslot
            exact congrArg some hslot
      · exact hin other ho
    · intro other ho
      rw [List.mem_cons, not_or] at ho
      rw [hout other ho.2, hother other ho.1]

theorem matchExact_results (hm : s.matchExact s.start = .ok r) (hs : slot ∈ s.observed.keys) :
    ∃ fields, s.layout.fixedFields slot = .ok fields ∧
      (fields = [] → r.results.get? slot = none) ∧
      (fields ≠ [] → r.results.get? slot = some (sortBy Match.offset fields)) := by
  have hp := perm_sortBy id s.observed.keys
  exact (exactPass_results (hp.nodup_iff.2 s.observed.nodup) (fun _ _ => rfl) hm).1 slot
    (hp.mem_iff.2 hs)

end Scene

end SlotLens

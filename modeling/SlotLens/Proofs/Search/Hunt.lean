import SlotLens.Match.Run
import SlotLens.Proofs.Outcome

namespace SlotLens

namespace Hunt

variable {h : Hunt} {base span slot other : Int} {found : List Match}

theorem mem_hits :
    slot ∈ h.hits base span ↔ slot ∈ h.remaining ∧ base ≤ slot ∧ slot < base + span := by
  simp [hits]

theorem hits_sublist (h : Hunt) (base span : Int) : (h.hits base span).Sublist h.remaining :=
  List.filter_sublist

theorem resolve_remaining (hf : found ≠ []) :
    (h.resolve slot found).remaining = h.remaining.filter (· ≠ slot) := by
  cases found with
  | nil => exact absurd rfl hf
  | cons m found => rfl

theorem resolve_results (hf : found ≠ []) :
    (h.resolve slot found).results =
      h.results.insert slot (sortBy Match.offset ((h.results.get? slot).getD [] ++ found)) := by
  cases found with
  | nil => exact absurd rfl hf
  | cons m found => rfl

theorem get?_resolve_self (hf : found ≠ []) : (h.resolve slot found).results.get? slot =
    some (sortBy Match.offset ((h.results.get? slot).getD [] ++ found)) := by
  rw [resolve_results hf, Table.get?_insert, if_pos rfl]

theorem resolve_sublist (h : Hunt) (slot : Int) (found : List Match) :
    (h.resolve slot found).remaining.Sublist h.remaining := by
  cases found with
  | nil => exact .refl _
  | cons m found => exact List.filter_sublist

theorem mem_remaining_resolve (hr : other ∈ (h.resolve slot found).remaining) :
    other ∈ h.remaining :=
  (h.resolve_sublist slot found).subset hr

theorem mem_remaining_resolve_of_ne (hr : other ∈ h.remaining) (hne : other ≠ slot) :
    other ∈ (h.resolve slot found).remaining := by
  cases found with
  | nil => exact hr
  | cons m found => exact List.mem_filter.2 ⟨hr, by simpa using hne⟩

theorem get?_resolve_of_ne (hne : other ≠ slot) :
    (h.resolve slot found).results.get? other = h.results.get? other := by
  cases found with
  | nil => rfl
  | cons m found => rw [resolve_results (by simp), Table.get?_insert, if_neg hne.symm]

section Claim

variable {owner : Descriptor} {before : Path} {kind : MatchKind} {note : Option String}
  {located : List Located}

def claimed (slot : Int) (owner : Descriptor) (before : Path) (kind : MatchKind)
    (note : Option String) (located : List Located) : List Match :=
  located.map (Match.ofLocated slot owner before kind note)

theorem claimed_ne_nil (hl : located ≠ []) : claimed slot owner before kind note located ≠ [] := by
  simpa [claimed] using hl

@[simp] theorem claim_next : (h.claim slot owner before kind note located).next = h.next := by
  cases located <;> rfl

theorem claim_remaining : (h.claim slot owner before kind note located).remaining =
    (h.resolve slot (claimed slot owner before kind note located)).remaining := by
  cases located <;> rfl

theorem claim_results : (h.claim slot owner before kind note located).results =
    (h.resolve slot (claimed slot owner before kind note located)).results := by
  cases located <;> rfl

theorem mem_remaining_claim (hr : other ∈ (h.claim slot owner before kind note located).remaining) :
    other ∈ h.remaining :=
  mem_remaining_resolve (claim_remaining ▸ hr)

theorem claim_removes (hl : located ≠ []) :
    slot ∉ (h.claim slot owner before kind note located).remaining := by
  rw [claim_remaining, resolve_remaining (claimed_ne_nil hl)]
  simp

theorem claim_cases (h : Hunt) (slot : Int) (owner : Descriptor) (before : Path) (kind : MatchKind)
    (note : Option String) (located : List Located) :
    (located = [] ∧ h.claim slot owner before kind note located = h) ∨
      (located ≠ [] ∧
        (h.claim slot owner before kind note located).remaining = h.remaining.filter (· ≠ slot) ∧
        (h.claim slot owner before kind note located).tally =
          { h.tally with found := h.tally.found + 1 }) := by
  cases located with
  | nil => exact .inl ⟨rfl, rfl⟩
  | cons l located => exact .inr ⟨List.cons_ne_nil l located, rfl, rfl⟩

@[simp] theorem claim_explored :
    (h.claim slot owner before kind note located).tally.explored = h.tally.explored := by
  cases located <;> rfl

theorem claim_found : (h.claim slot owner before kind note located).tally.found =
    h.tally.found + if !located.isEmpty then 1 else 0 := by
  cases located <;> rfl

@[simp] theorem claim_limitHit :
    (h.claim slot owner before kind note located).tally.limitHit = h.tally.limitHit := by
  cases located <;> rfl

@[simp] theorem claim_depthHit :
    (h.claim slot owner before kind note located).tally.depthHit = h.tally.depthHit := by
  cases located <;> rfl

end Claim

section ClaimEach

variable {owner : Descriptor} {path : Path} {kind : MatchKind} {note : Int → Option String}
  {locate : Int → Except Fault (List Located)} {slots : List Int} {h' : Hunt}

/-- Set down what is located at each of some slots. -/
def claimEach (owner : Descriptor) (path : Path) (kind : MatchKind) (note : Int → Option String)
    (locate : Int → Except Fault (List Located)) : List Int → Hunt → Except Fault Hunt
  | [], h => .ok h
  | slot :: slots, h => do
    let located ← locate slot
    claimEach owner path kind note locate slots (h.claim slot owner path kind (note slot) located)

theorem claimEach_keeps {β : Type} (part : Hunt → β)
    (hp : ∀ h slot note located, part (h.claim slot owner path kind note located) = part h)
    (hc : claimEach owner path kind note locate slots h = .ok h') : part h' = part h := by
  induction slots generalizing h with
  | nil =>
    cases hc
    rfl
  | cons slot slots ih =>
    rw [claimEach, bind_eq_ok] at hc
    obtain ⟨located, -, hc⟩ := hc
    rw [ih hc, hp]

theorem claimEach_next (hc : claimEach owner path kind note locate slots h = .ok h') :
    h'.next = h.next :=
  claimEach_keeps Hunt.next (fun _ _ _ _ => claim_next) hc

theorem claimEach_explored (hc : claimEach owner path kind note locate slots h = .ok h') :
    h'.tally.explored = h.tally.explored :=
  claimEach_keeps (·.tally.explored) (fun _ _ _ _ => claim_explored) hc

theorem claimEach_limitHit (hc : claimEach owner path kind note locate slots h = .ok h') :
    h'.tally.limitHit = h.tally.limitHit :=
  claimEach_keeps (·.tally.limitHit) (fun _ _ _ _ => claim_limitHit) hc

theorem claimEach_misses (hc : claimEach owner path kind note locate slots h = .ok h')
    (ho : slot ∈ h'.remaining) : slot ∈ h.remaining ∧ (slot ∈ slots → locate slot = .ok []) := by
  induction slots generalizing h with
  | nil =>
    cases hc
    exact ⟨ho, fun hs => absurd hs List.not_mem_nil⟩
  | cons other slots ih =>
    rw [claimEach, bind_eq_ok] at hc
    obtain ⟨located, hl, hc⟩ := hc
    obtain ⟨hr, hm⟩ := ih hc
    refine ⟨mem_remaining_claim hr, ?_⟩
    intro hs
    rcases List.mem_cons.1 hs with rfl | hs
    · by_cases hn : located = []
      · rw [hl, hn]
      · exact absurd hr (claim_removes hn)
    · exact hm hs

def finds (locate : Int → Except Fault (List Located)) (slot : Int) : Bool :=
  (locate slot).toOption.any (!·.isEmpty)

theorem finds_of_ok {located : List Located} (hl : locate slot = .ok located) :
    finds locate slot = !located.isEmpty := by
  rw [finds, hl]
  rfl

theorem claimEach_found (hc : claimEach owner path kind note locate slots h = .ok h') :
    h'.tally.found = h.tally.found + slots.countP (finds locate) := by
  induction slots generalizing h with
  | nil =>
    cases hc
    rfl
  | cons slot slots ih =>
    obtain ⟨located, hl, hc⟩ := bind_eq_ok.1 hc
    rw [ih hc, List.countP_cons, finds_of_ok hl, claim_found]
    omega

theorem claimEach_remaining (hc : claimEach owner path kind note locate slots h = .ok h') :
    h'.remaining = h.remaining.filter fun slot => !(slots.contains slot && finds locate slot) := by
  induction slots generalizing h with
  | nil =>
    cases hc
    simp
  | cons slot slots ih =>
    obtain ⟨located, hl, hc⟩ := bind_eq_ok.1 hc
    have hfinds := finds_of_ok hl
    rw [ih hc]
    rcases h.claim_cases slot owner path kind (note slot) located with ⟨rfl, hh⟩ | ⟨hn, hr, -⟩
    · rw [hh]
      refine List.filter_congr fun other _ => ?_
      by_cases ho : other = slot
      · subst ho
        simp [hfinds]
      · simp [ho]
    · rw [hr, List.filter_filter]
      refine List.filter_congr fun other _ => ?_
      by_cases ho : other = slot
      · subst ho
        simp [hfinds, hn]
      · simp [ho]

theorem get?_claimEach_of_not_mem (hc : claimEach owner path kind note locate slots h = .ok h')
    (hs : other ∉ slots) : h'.results.get? other = h.results.get? other := by
  induction slots generalizing h with
  | nil =>
    cases hc
    rfl
  | cons slot slots ih =>
    obtain ⟨located, -, hc⟩ := bind_eq_ok.1 hc
    obtain ⟨hne, hs⟩ := not_or.1 (mt List.mem_cons.2 hs)
    rw [ih hc hs, claim_results, get?_resolve_of_ne hne]

theorem get?_claimEach {located : List Located}
    (hc : claimEach owner path kind note locate slots h = .ok h') (hn : slots.Nodup)
    (hs : slot ∈ slots) (hl : locate slot = .ok located) (hne : located ≠ []) :
    h'.results.get? slot = some (sortBy Match.offset
      ((h.results.get? slot).getD [] ++ claimed slot owner path kind (note slot) located)) := by
  induction slots generalizing h with
  | nil => exact absurd hs List.not_mem_nil
  | cons first slots ih =>
    obtain ⟨found, hfound, hc⟩ := bind_eq_ok.1 hc
    obtain ⟨hfirst, hn⟩ := List.nodup_cons.1 hn
    rcases List.mem_cons.1 hs with rfl | hs
    · cases hl.symm.trans hfound
      rw [get?_claimEach_of_not_mem hc hfirst, claim_results,
        get?_resolve_self (claimed_ne_nil hne)]
    · have hother : slot ≠ first := fun he => hfirst (he ▸ hs)
      rw [ih hc hn hs, claim_results, get?_resolve_of_ne hother]

theorem claimEach_hits {base span : Int}
    (hc : claimEach owner path kind note locate (h.hits base span) h = .ok h') :
    h'.remaining = h.remaining.filter fun slot =>
      !(base ≤ slot && slot < base + span && finds locate slot) := by
  rw [claimEach_remaining hc]
  refine List.filter_congr fun slot hs => ?_
  have hm : (h.hits base span).contains slot = (base ≤ slot && slot < base + span) := by
    rw [Bool.eq_iff_iff]
    simp [mem_hits, hs]
  rw [hm]

end ClaimEach

theorem spend_cases {b : Bounds} {h' : Hunt} {ok : Bool} (hp : h.spend b = (h', ok)) :
    (ok = true ∧ b.exhausted h.tally.explored = false ∧
        h' = { h with tally := { h.tally with explored := h.tally.explored + 1 } }) ∨
      (ok = false ∧ b.exhausted h.tally.explored ∧
        h' = { h with tally := { h.tally with limitHit := true } }) := by
  simp only [spend, Tally.spend] at hp
  split at hp
  · next hb =>
    cases hp
    exact .inr ⟨rfl, hb, rfl⟩
  · next hb =>
    rw [Bool.not_eq_true] at hb
    cases hp
    exact .inl ⟨rfl, hb, rfl⟩

theorem spend_keeps {b : Bounds} {h' : Hunt} {ok : Bool} (hp : h.spend b = (h', ok)) :
    h'.remaining = h.remaining ∧ h'.results = h.results ∧ h'.next = h.next := by
  rcases spend_cases hp with ⟨-, -, rfl⟩ | ⟨-, -, rfl⟩ <;> exact ⟨rfl, rfl, rfl⟩

end Hunt

namespace Scene

variable {s : Scene} {item : WorkItem} {h : Hunt} {value : Descriptor} {base : Int} {level : Nat}
  {path : Path}

theorem claimValue_eq {owner : Descriptor} {derived : Int} {slots : List Int} :
    claimValue owner value derived path slots h = Hunt.claimEach owner path .mapping (fun _ => none)
      (fun slot => value.locate (slot - derived)) slots h := by
  induction slots generalizing h with
  | nil => rfl
  | cons slot slots ih => simp only [claimValue, Hunt.claimEach, ih]

theorem claimElements_eq {owner array : Descriptor} {data length : Int} {slots : List Int} :
    claimElements owner array data length path slots h =
      Hunt.claimEach owner path (kindBehind path) (fun _ => none)
        (fun slot => array.locateElement (slot - data) (some length)) slots h := by
  induction slots generalizing h with
  | nil => rfl
  | cons slot slots ih => simp only [claimElements, Hunt.claimEach, ih]

theorem claimChunks_eq {owner : Descriptor} {entry : Entry} {data : Int} {slots : List Int} :
    .ok (claimChunks owner entry data path slots h) =
      Hunt.claimEach owner path (kindBehind path) (fun slot => some (chunkNote (slot - data).toNat))
        (fun slot => .ok [⟨.bytes entry, 0, [.chunk (slot - data).toNat]⟩]) slots h := by
  induction slots generalizing h with
  | nil => rfl
  | cons slot slots ih =>
    rw [claimChunks, ih]
    rfl

theorem enter_cases {h' : Hunt} {ok : Bool} (he : s.enter item h = (h', ok)) :
    (item.level ≤ 1 ∧ ok = true ∧ h' = h) ∨
      (¬ item.level ≤ 1 ∧ h.tally.isStopped s.bounds ∧ ok = false ∧ h' = h) ∨
      (¬ item.level ≤ 1 ∧ h.tally.isStopped s.bounds = false ∧ h.spend s.bounds = (h', ok)) := by
  unfold enter at he
  split at he
  · next hl =>
    cases he
    exact .inl ⟨hl, rfl, rfl⟩
  · next hl =>
    split at he
    · next hs =>
      cases he
      exact .inr (.inl ⟨hl, hs, rfl, rfl⟩)
    · next hs => exact .inr (.inr ⟨hl, Bool.not_eq_true _ ▸ hs, he⟩)

theorem enter_keeps {h' : Hunt} {ok : Bool} (he : s.enter item h = (h', ok)) :
    h'.remaining = h.remaining ∧ h'.results = h.results ∧ h'.next = h.next := by
  rcases enter_cases he with ⟨-, -, rfl⟩ | ⟨-, -, -, rfl⟩ | ⟨-, -, hp⟩
  · exact ⟨rfl, rfl, rfl⟩
  · exact ⟨rfl, rfl, rfl⟩
  · exact Hunt.spend_keeps hp

theorem pushNested_changes (s : Scene) {value : Descriptor} {base : Int} {level : Nat}
    {path : Path} {h : Hunt} : ∃ next depthHit, s.pushNested value base level path h =
    { h with next, tally := { h.tally with depthHit } } := by
  unfold pushNested
  split
  · exact ⟨_, h.tally.depthHit, rfl⟩
  · dsimp only
    split
    · exact ⟨h.next, h.tally.depthHit, rfl⟩
    · exact ⟨h.next, true, rfl⟩

@[simp] theorem pushNested_remaining :
    (s.pushNested value base level path h).remaining = h.remaining := by
  obtain ⟨next, depthHit, he⟩ := s.pushNested_changes
  rw [he]

@[simp] theorem pushNested_results :
    (s.pushNested value base level path h).results = h.results := by
  obtain ⟨next, depthHit, he⟩ := s.pushNested_changes
  rw [he]

@[simp] theorem pushNested_explored :
    (s.pushNested value base level path h).tally.explored = h.tally.explored := by
  obtain ⟨next, depthHit, he⟩ := s.pushNested_changes
  rw [he]

@[simp] theorem pushNested_found :
    (s.pushNested value base level path h).tally.found = h.tally.found := by
  obtain ⟨next, depthHit, he⟩ := s.pushNested_changes
  rw [he]

@[simp] theorem pushNested_limitHit :
    (s.pushNested value base level path h).tally.limitHit = h.tally.limitHit := by
  obtain ⟨next, depthHit, he⟩ := s.pushNested_changes
  rw [he]

def queued (base : Int) (level : Nat) (path : Path) (c : Container) : WorkItem :=
  ⟨c.descriptor, innerBase base c, level + 1, path ++ c.path⟩

theorem next_pushNested : (s.pushNested value base level path h).next.toList = h.next.toList ++
    if s.bounds.depthAllows (level + 1) then
      (value.containers.filter (s.isSearchable base)).map (queued base level path)
    else [] := by
  unfold pushNested
  split
  · exact Array.toList_appendList
  · dsimp only
    split <;> simp

theorem mem_next_pushNested {i : WorkItem}
    (hi : i ∈ (s.pushNested value base level path h).next.toList) :
    i ∈ h.next.toList ∨
      ∃ c ∈ value.containers, s.isSearchable base c ∧ i = queued base level path c := by
  rw [next_pushNested, List.mem_append] at hi
  rcases hi with hi | hi
  · exact .inl hi
  · split at hi
    · obtain ⟨c, hc, rfl⟩ := List.mem_map.1 hi
      exact .inr ⟨c, (List.mem_filter.1 hc).1, (List.mem_filter.1 hc).2, rfl⟩
    · exact absurd hi (List.not_mem_nil)

end Scene

end SlotLens

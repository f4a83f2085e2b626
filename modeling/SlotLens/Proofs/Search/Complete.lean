import SlotLens.Proofs.BytesSlot
import SlotLens.Proofs.Search.Attribution
import SlotLens.Proofs.Search.Monotone

/-!
# Completeness without bounds

Without bounds a search leaves nothing out: a slot that is open at its end is shown by no container
that can be derived from the one it started from.
-/

namespace SlotLens

variable {s : Scene} {slot : Int}

namespace Scene

/-- A container holds a field, an element or a word of a long content at a slot. -/
inductive Shows (s : Scene) (slot : Int) : Site → Prop
  | value {e keyType value base derived located} {c : Candidate} : c ∈ s.candidates →
      Slot.ofKey c.raw base = .ok derived → derived ≤ slot → slot < derived + value.slotCount →
      value.locate (slot - derived) = .ok located → located ≠ [] →
      Shows s slot ⟨.mapping e keyType value, base⟩
  | element {e element base length data located} : s.lengthAt base = some length →
      Slot.ofData base = .ok data →
      (Descriptor.dynamicArray e element).locateElement (slot - data) (some length) = .ok located →
      located ≠ [] → Shows s slot ⟨.dynamicArray e element, base⟩
  | chunk {e base data access} {w : Word} {i : Nat} : s.observed.get? base = some access →
      w ∈ access.words → (BytesSlot.ofBytes e.typeLabel w.bytes).isLong →
      32 * i < (BytesSlot.ofBytes e.typeLabel w.bytes).length → Slot.ofData base = .ok data →
      slot = data + i → Shows s slot ⟨.bytes e, base⟩

/-- A container is found from a root of the layout in any number of steps. -/
def Derivable (s : Scene) (site : Site) : Prop :=
  ∃ root, (root ∈ s.layout.mappingRoots ∨ root ∈ s.layout.arrayRoots ∨
      root ∈ s.layout.bytesRoots) ∧
    Relation.ReflTransGen s.Inside ⟨root.container, root.slot⟩ site

structure Unbounded (s : Scene) : Prop where
  limit : s.bounds.limit = none
  depth : s.bounds.depth = none
  threshold : s.bounds.threshold = none
  lengths : ∀ base, s.lengths.get? base ≠ some none

/-- A container inside a value that the search looks into. -/
def Searchable (s : Scene) (site : Site) : Prop :=
  site.container.kind = .mapping ∨ (s.lengthAt site.base).isSome

end Scene

def Hunt.Queues (h : Hunt) (site : Site) : Prop := ∃ i ∈ h.next.toList, i.site = site

namespace Scene

variable {owner element value : Descriptor} {item : WorkItem} {h h' : Hunt} {place : Int}

def QueuesInner (s : Scene) (h : Hunt) (value : Descriptor) (place : Int) : Prop :=
  ∀ c ∈ value.containers, s.Searchable ⟨c.descriptor, innerBase place c⟩ →
    h.Queues ⟨c.descriptor, innerBase place c⟩

/-- A container that was searched does not show the slot, and what lies inside it waits. -/
structure Searched (s : Scene) (slot : Int) (h : Hunt) (site : Site) : Prop where
  misses : ¬ s.Shows slot site
  queues : ∀ value place, s.Places site value place → s.QueuesInner h value place

theorem QueuesInner.mono (hq : s.QueuesInner h value place)
    (hn : h.next.toList ⊆ h'.next.toList) : s.QueuesInner h' value place := by
  intro c hc hs
  obtain ⟨i, hi, he⟩ := hq c hc hs
  exact ⟨i, hn hi, he⟩

theorem Searched.mono {site : Site} (hs : s.Searched slot h site)
    (hn : h.next.toList ⊆ h'.next.toList) : s.Searched slot h' site :=
  ⟨hs.misses, fun value place hp => (hs.queues value place hp).mono hn⟩

theorem queuesInner_of_hasContainers (hc : value.hasContainers = false) :
    s.QueuesInner h value place := by
  intro c hm
  rw [Descriptor.containers_eq_nil hc] at hm
  exact absurd hm List.not_mem_nil

theorem subset_pushNested {level : Nat} {path : Path} :
    h.next.toList ⊆ (s.pushNested value place level path h).next.toList := by
  rw [next_pushNested]
  exact List.subset_append_left _ _

theorem queued_mem_pushNested (hb : s.bounds.depth = none) {level : Nat} {path : Path} {c : Container}
    (hc : c ∈ value.containers) (hs : s.Searchable ⟨c.descriptor, innerBase place c⟩) :
    queued place level path c ∈ (s.pushNested value place level path h).next.toList := by
  have hs : s.isSearchable place c := by
    simpa [isSearchable, Searchable] using hs
  rw [next_pushNested, if_pos (by simp [Bounds.depthAllows, hb]), List.mem_append]
  exact .inr (List.mem_map.2 ⟨c, List.mem_filter.2 ⟨hc, hs⟩, rfl⟩)

theorem queuesInner_pushNested (hb : s.bounds.depth = none) {level : Nat} {path : Path} :
    s.QueuesInner (s.pushNested value place level path h) value place :=
  fun _ hc hs => ⟨_, queued_mem_pushNested hb hc hs, rfl⟩

theorem not_shows_of_not_searchable (hb : s.Unbounded) (slot : Int) {site : Site}
    (hs : ¬ s.Searchable site) : ¬ s.Shows slot site ∧ ∀ value place, ¬ s.Places site value place := by
  rw [Searchable, not_or, Option.not_isSome_iff_eq_none] at hs
  constructor
  · intro hx
    cases hx with
    | value => exact hs.1 rfl
    | element hl => simp [hl] at hs
    | @chunk e base data access w i ho =>
      have hl := hs.2
      cases hk : s.lengths.get? base with
      | none => simp [lengthAt, hk, ho] at hl
      | some known =>
        cases known with
        | none => exact hb.lengths base hk
        | some n => simp [lengthAt, hk] at hl
  · intro value place hp
    cases hp with
    | value => exact hs.1 rfl
    | element hl => simp [hl] at hs

section Mapping

variable {keyType : Value} {c : Candidate} {rest : List Candidate} {derived : Int}

structure Tried (s : Scene) (slot : Int) (h : Hunt) (value : Descriptor) (derived : Int) :
    Prop where
  misses : derived ≤ slot → slot < derived + value.slotCount →
    ∀ located, value.locate (slot - derived) = .ok located → located = []
  queues : s.QueuesInner h value derived

theorem tryKey_subset (ht : s.tryKey owner item keyType value c h = .ok h') :
    h.next.toList ⊆ h'.next.toList := by
  obtain ⟨derived, -, ⟨-, -, rfl⟩ | ⟨-, key, h₁, -, hv, rfl⟩⟩ := tryKey_cases ht
  · exact List.Subset.refl _
  · rw [claimValue_eq] at hv
    rw [← Hunt.claimEach_next hv]
    exact subset_pushNested

theorem tryKey_tried (hb : s.Unbounded) (ht : s.tryKey owner item keyType value c h = .ok h')
    (ho : slot ∈ h'.remaining) (hd : Slot.ofKey c.raw item.base = .ok derived) :
    slot ∈ h.remaining ∧ s.Tried slot h' value derived := by
  obtain ⟨derived', hd', ⟨hh, hc, rfl⟩ | ⟨-, key, h₁, -, hv, rfl⟩⟩ := tryKey_cases ht
  · cases hd.symm.trans hd'
    refine ⟨ho, ?_, queuesInner_of_hasContainers hc⟩
    intro hle hlt
    have hm : slot ∈ h'.hits derived value.slotCount := Hunt.mem_hits.2 ⟨ho, hle, hlt⟩
    rw [hh] at hm
    exact absurd hm List.not_mem_nil
  · cases hd.symm.trans hd'
    rw [pushNested_remaining] at ho
    rw [claimValue_eq] at hv
    obtain ⟨hr, hm⟩ := Hunt.claimEach_misses hv ho
    refine ⟨hr, ?_, queuesInner_pushNested hb.depth⟩
    intro hle hlt located hl
    exact Except.ok.inj (hl.symm.trans (hm (Hunt.mem_hits.2 ⟨hr, hle, hlt⟩)))

theorem expandMapping_tried (hb : s.Unbounded)
    (he : s.expandMapping owner item keyType value rest h = .ok h') (ho : slot ∈ h'.remaining) :
    slot ∈ h.remaining ∧ h.next.toList ⊆ h'.next.toList ∧
      ∀ c ∈ rest, ∀ derived, Slot.ofKey c.raw item.base = .ok derived →
        s.Tried slot h' value derived := by
  induction rest generalizing h with
  | nil =>
    cases he
    exact ⟨ho, List.Subset.refl _, fun c hc => absurd hc List.not_mem_nil⟩
  | cons c rest ih =>
    rcases expandMapping_cons he with ⟨hs, rfl⟩ | ⟨-, -, hp | ⟨h₁, h₂, hp, ht, he⟩⟩
    · rcases hs with hs | hs
      · rw [hs] at ho
        exact absurd ho List.not_mem_nil
      · simp [Bounds.thresholdReached, hb.threshold] at hs
    · cases (Hunt.spend_limitHit hb.limit hp).1
    · obtain ⟨hr, hn, hrest⟩ := ih he
      obtain ⟨hremaining, -, hnext⟩ := Hunt.spend_keeps hp
      obtain ⟨derived, hd, -⟩ := tryKey_cases ht
      refine ⟨hremaining ▸ (tryKey_tried hb ht hr hd).1, ?_, ?_⟩
      · rw [← hnext]
        exact List.Subset.trans (tryKey_subset ht) hn
      · intro c' hc' derived' hd'
        rcases List.mem_cons.1 hc' with rfl | hc'
        · have htried := (tryKey_tried hb ht hr hd').2
          exact ⟨htried.misses, htried.queues.mono hn⟩
        · exact hrest c' hc' derived' hd'

end Mapping

section Array

variable {data length : Int} {ahead count index : Nat}

theorem pushElements_queues (hb : s.Unbounded) (index : Nat) (hl : h.tally.limitHit = false) :
    h.next.toList ⊆ (s.pushElements element data item ahead count index h).next.toList ∧
      ∀ i, index ≤ i → i < index + count →
        s.QueuesInner (s.pushElements element data item ahead count index h) element
          (data + i * element.slotCount) := by
  induction count generalizing index h with
  | zero => exact ⟨List.Subset.refl _, fun i hle hlt => by omega⟩
  | succ count ih =>
    have hstop : h.tally.isStopped s.bounds = false := by
      simp [Tally.isStopped, hl, Bounds.thresholdReached, hb.threshold]
    have hfull : (h.tally.budgetLeft s.bounds).any (· ≤ ahead + h.next.size) = false := by
      simp [Tally.budgetLeft, hb.limit]
    rw [pushElements, hstop, hfull]
    have hlim : (s.pushNested element (data + index * element.slotCount) item.level
        (item.path ++ [.index index]) h).tally.limitHit = false := by
      rw [pushNested_limitHit, hl]
    obtain ⟨hn, hq⟩ := ih (index + 1) hlim
    refine ⟨List.Subset.trans subset_pushNested hn, ?_⟩
    intro i hle hlt
    rcases Nat.eq_or_lt_of_le hle with rfl | hle
    · exact (queuesInner_pushNested hb.depth).mono hn
    · exact hq i hle (by omega)

theorem mem_hits_of_locateAmong {span : Int} {locate : Int → Except Fault (List Located)}
    {located : List Located} (ho : slot ∈ h.remaining) (hs : element.spanOf length = .ok span)
    (hl : Descriptor.locateAmong element locate (slot - data) (some length) = .ok located)
    (hn : located ≠ []) : slot ∈ h.hits data span := by
  rw [Descriptor.locateAmong] at hl
  split at hl
  · exact absurd (pure_eq_ok.1 hl).symm hn
  next hrel =>
  obtain ⟨reached, hreached, hl⟩ := bind_eq_ok.1 hl
  obtain ⟨span', hs', rfl⟩ := map_eq_ok.1 hreached
  cases hs.symm.trans hs'
  split at hl
  · exact absurd (pure_eq_ok.1 hl).symm hn
  next hr =>
  rw [Bool.not_eq_true, Bool.not_eq_false', decide_eq_true_eq] at hr
  exact Hunt.mem_hits.2 ⟨ho, by omega, by omega⟩

theorem expandArray_misses {e : Entry} {front : List WorkItem}
    (ha : item.container = .dynamicArray e element)
    (he : s.expandArray owner item element front.length h = .ok h') (ho : slot ∈ h'.remaining) :
    ¬ s.Shows slot item.site := by
  intro hx
  rw [WorkItem.site, ha] at hx
  cases hx with
  | @element _ _ _ length data _ hl hd hloc hne =>
    rcases expandArray_cases he with ⟨hnone, -⟩ | ⟨_, _, span, h₁, hl', hd', hs, hv, hn⟩
    · cases hnone.symm.trans hl
    · cases hl.symm.trans hl'
      cases hd.symm.trans hd'
      have hopen : slot ∈ h₁.remaining := by
        rcases hn with ⟨-, rfl⟩ | ⟨-, rfl⟩
        · exact ho
        · have hpush : Search.Steps s owner ⟨h₁, front, .nested item element data length.toNat 0⟩
              ⟨_, front, .waiting⟩ := Search.pushElements_steps
          exact hpush.mem_remaining ho
      rw [claimElements_eq, ha] at hv
      obtain ⟨hr, hm⟩ := Hunt.claimEach_misses hv hopen
      exact hne (Except.ok.inj (hloc.symm.trans (hm (mem_hits_of_locateAmong hr hs hloc hne))))

theorem expandArray_searched (hb : s.Unbounded) {e : Entry} {front : List WorkItem}
    (ha : item.container = .dynamicArray e element) (hlim : h.tally.limitHit = false)
    (he : s.expandArray owner item element front.length h = .ok h') (ho : slot ∈ h'.remaining) :
    h.next.toList ⊆ h'.next.toList ∧ s.Searched slot h' item.site := by
  have hmisses := expandArray_misses ha he ho
  rcases expandArray_cases he with ⟨hnone, rfl⟩ | ⟨length, data, span, h₁, hl, hd, hs, hv, hn⟩
  · refine ⟨List.Subset.refl _, hmisses, fun value place hp => ?_⟩
    rw [WorkItem.site, ha] at hp
    cases hp with
    | element hl => cases hnone.symm.trans hl
  · have hsteps : Search.Steps s owner
        ⟨h, [], .elements item element data length (h.hits data span)⟩
        ⟨h₁, [], .elements item element data length []⟩ := Search.claimElements_steps hv
    have hlim₁ : h₁.tally.limitHit = false := (hsteps.limitHit_eq hb.limit).trans hlim
    rw [claimElements_eq] at hv
    refine ⟨?_, hmisses, fun value place hp => ?_⟩
    · rw [← Hunt.claimEach_next hv]
      rcases hn with ⟨-, rfl⟩ | ⟨-, rfl⟩
      · exact List.Subset.refl _
      · exact (pushElements_queues hb 0 hlim₁).1
    · rw [WorkItem.site, ha] at hp
      cases hp with
      | @element _ _ _ _ _ rel offset i hl' hi hd' hpos =>
        cases hl.symm.trans hl'
        cases hd.symm.trans hd'
        rcases hn with ⟨hc, rfl⟩ | ⟨hc, rfl⟩
        · exact queuesInner_of_hasContainers hc
        · rw [Descriptor.position_eq hc] at hpos
          cases hpos
          exact (pushElements_queues hb 0 hlim₁).2 i (by omega) (by omega)

end Array

theorem mem_longLengths (label : Value) {access : Access} {n : Nat} :
    n ∈ ((access.words.map fun w => BytesSlot.ofBytes label w.bytes).filterMap fun b =>
      if b.isLong then some b.length else none) ↔ ∃ w ∈ access.words, w.toNat = 2 * n + 1 := by
  simp only [List.mem_filterMap, List.mem_map]
  constructor
  · rintro ⟨content, ⟨w, hw, rfl⟩, hlong⟩
    split at hlong
    · next h => exact ⟨w, hw, Option.some.inj hlong ▸ BytesSlot.toNat_of_isLong h⟩
    · cases hlong
  · rintro ⟨w, hw, hn⟩
    refine ⟨_, ⟨w, hw, rfl⟩, ?_⟩
    rw [BytesSlot.ofBytes_odd hn, if_pos rfl]

theorem long_of_shows {e : Entry} {base : Int} {access : Access} {w : Word} {i : Nat}
    (ho : s.observed.get? base = some access) (hw : w ∈ access.words)
    (hlong : (BytesSlot.ofBytes e.typeLabel w.bytes).isLong)
    (hi : 32 * i < (BytesSlot.ofBytes e.typeLabel w.bytes).length) :
    ∃ length, (s.observed.get? base).bind (longLength? e.typeLabel) = some length ∧
      i < (length + 31) / 32 := by
  have hm := (mem_longLengths e.typeLabel).2 ⟨w, hw, BytesSlot.toNat_of_isLong hlong⟩
  obtain ⟨length, hl⟩ := Option.isSome_iff_exists.1 (List.isSome_max?_of_mem hm)
  have hle := (List.max?_eq_some_iff.1 hl).2 _ hm
  refine ⟨length, ?_, by omega⟩
  rw [ho]
  exact hl

theorem expandBytes_searched {e : Entry} (hc : item.container = .bytes e)
    (he : s.expandBytes owner item e h = .ok h') (ho : slot ∈ h'.remaining) :
    h.next.toList ⊆ h'.next.toList ∧ s.Searched slot h' item.site := by
  rw [WorkItem.site, hc]
  rcases expandBytes_cases he with ⟨hnone, rfl⟩ | ⟨length, data, hl, hd, rfl⟩
  · refine ⟨List.Subset.refl _, ?_, ?_⟩
    · intro hx
      cases hx with
      | chunk ho hw hlong hi =>
        obtain ⟨length, hl, -⟩ := long_of_shows ho hw hlong hi
        cases hnone.symm.trans hl
    · intro value place hp
      cases hp
  · generalize hg : claimChunks owner e data item.path _ h = h' at ho
    have hchunks := (congrArg Except.ok hg).symm.trans claimChunks_eq
    obtain ⟨hr, hm⟩ := Hunt.claimEach_misses hchunks.symm ho
    refine ⟨?_, ?_, ?_⟩
    · rw [Hunt.claimEach_next hchunks.symm]
      exact List.Subset.refl _
    · intro hx
      cases hx with
      | chunk ho hw hlong hi hd' hslot =>
        obtain ⟨length', hl', hlt⟩ := long_of_shows ho hw hlong hi
        cases hl.symm.trans hl'
        cases hd.symm.trans hd'
        cases hm (Hunt.mem_hits.2 ⟨hr, by omega, by omega⟩)
    · intro value place hp
      cases hp

theorem expand_searched (hb : s.Unbounded) {front : List WorkItem}
    (hlim : h.tally.limitHit = false) (he : s.expand owner item front.length h = .ok h')
    (ho : slot ∈ h'.remaining) :
    h.next.toList ⊆ h'.next.toList ∧ s.Searched slot h' item.site := by
  rw [expand] at he
  split at he
  · next hm =>
    obtain ⟨-, hn, ht⟩ := expandMapping_tried hb he ho
    rw [WorkItem.site, hm]
    refine ⟨hn, ?_, ?_⟩
    · intro hx
      cases hx with
      | value hc hd hle hlt hl hne => exact hne ((ht _ hc _ hd).misses hle hlt _ hl)
    · intro value place hp
      cases hp with
      | value hc hd => exact (ht _ hc _ hd).queues
  · next ha => exact expandArray_searched hb ha hlim he ho
  · next hc => exact expandBytes_searched hc he ho
  · next hm ha hc =>
    cases he
    generalize hsite : item.site = site
    refine ⟨List.Subset.refl _, ?_, ?_⟩
    · intro hx
      cases hx with
      | value => exact hm _ _ _ (congrArg Site.container hsite)
      | element => exact ha _ _ (congrArg Site.container hsite)
      | chunk => exact hc _ (congrArg Site.container hsite)
    · intro value place hp
      cases hp with
      | value => exact absurd (congrArg Site.container hsite) (hm _ _ _)
      | element => exact absurd (congrArg Site.container hsite) (ha _ _)

theorem enter_true (hb : s.Unbounded) {ok : Bool} (hlim : h.tally.limitHit = false)
    (he : s.enter item h = (h', ok)) : ok = true := by
  rw [enter] at he
  split at he
  · cases he
    rfl
  · have hstop : h.tally.isStopped s.bounds = false := by
      simp [Tally.isStopped, hlim, Bounds.thresholdReached, hb.threshold]
    rw [hstop] at he
    exact (Hunt.spend_limitHit hb.limit he).1

theorem exploreLevel_searched (hb : s.Unbounded) {items : List WorkItem} {goesOn : Bool}
    (hlim : h.tally.limitHit = false) (he : s.exploreLevel owner items h = .ok (h', goesOn))
    (ho : slot ∈ h'.remaining) :
    goesOn = true ∧ h.next.toList ⊆ h'.next.toList ∧ h'.tally.limitHit = false ∧
      ∀ item ∈ items, s.Searched slot h' item.site := by
  induction items generalizing h with
  | nil =>
    cases he
    exact ⟨rfl, List.Subset.refl _, hlim, fun item hi => absurd hi List.not_mem_nil⟩
  | cons item rest ih =>
    rcases exploreLevel_cons he with ⟨hr, rfl, -⟩ | ⟨-, ⟨hn, -⟩ | ⟨h₁, h₂, hn, hx, he⟩⟩
    · rw [hr] at ho
      exact absurd ho List.not_mem_nil
    · exact absurd (enter_true hb hlim hn) (by simp)
    · have hlim₁ : h₁.tally.limitHit = false := (enter_limitHit hb.limit hn).trans hlim
      have hlim₂ : h₂.tally.limitHit = false :=
        ((Search.expand_steps hx).limitHit_eq hb.limit).trans hlim₁
      obtain ⟨hg, hsub, hlim', hrest⟩ := ih hlim₂ he
      have hopen : slot ∈ h₂.remaining := by
        rcases Search.exploreLevel_steps he with ⟨-, hs⟩ | ⟨-, front, hs⟩
        · exact hs.mem_remaining ho
        · exact hs.mem_remaining ho
      obtain ⟨hsub₁, hitem⟩ := expand_searched hb hlim₁ hx hopen
      rw [(enter_keeps hn).2.2] at hsub₁
      refine ⟨hg, List.Subset.trans hsub₁ hsub, hlim', ?_⟩
      intro i hi
      rcases List.mem_cons.1 hi with rfl | hi
      · exact hitem.mono hsub
      · exact hrest i hi

/-- A container shows the slot neither itself nor through what can be derived from it. -/
def Barren (s : Scene) (slot : Int) (site : Site) : Prop :=
  ∀ inner, Relation.ReflTransGen s.Inside site inner → ¬ s.Shows slot inner

theorem barren_of_searched (hb : s.Unbounded) {site : Site} (hs : s.Searched slot h site)
    (hn : ∀ i ∈ h.next.toList, s.Barren slot i.site) : s.Barren slot site := by
  intro inner hi
  rcases Relation.ReflTransGen.cases_head hi with rfl | ⟨mid, ⟨value, place, hp, c, hc, rfl⟩, hi⟩
  · exact hs.misses
  · by_cases hx : s.Searchable ⟨c.descriptor, innerBase place c⟩
    · obtain ⟨i, hmem, he⟩ := hs.queues value place hp c hc hx
      rw [← he] at hi
      exact hn i hmem inner hi
    · obtain ⟨hshow, hplace⟩ := not_shows_of_not_searchable hb slot hx
      rcases Relation.ReflTransGen.cases_head hi with rfl | ⟨deeper, ⟨v, p, hp, -⟩, -⟩
      · exact hshow
      · exact absurd hp (hplace v p)

/-- By induction on the levels, which are as many as the containers are high. -/
theorem exploreLevels_barren (hb : s.Unbounded) {levels : Nat} {items : List WorkItem}
    (hlim : h.tally.limitHit = false) (hh : ∀ i ∈ items, i.container.height ≤ levels)
    (he : s.exploreLevels owner levels items h = .ok h') (ho : slot ∈ h'.remaining) :
    ∀ i ∈ items, s.Barren slot i.site := by
  induction levels generalizing items h with
  | zero =>
    intro i hi
    have := hh i hi
    have := i.container.one_le_height
    omega
  | succ levels ih =>
    by_cases hi : items = []
    · subst hi
      exact fun i hi => absurd hi List.not_mem_nil
    · have hlim' : ({ h with next := #[] } : Hunt).tally.limitHit = false := hlim
      rcases exploreLevels_succ hi he with hl | ⟨h₁, hl, he⟩
      · cases (exploreLevel_searched hb hlim' hl ho).1
      · have hheight := Search.exploreLevel_height hh (by simp) hl
        obtain ⟨front, hsteps⟩ := Search.exploreLevels_resume hheight he
        have hopen : slot ∈ h₁.remaining := hsteps.mem_remaining ho
        obtain ⟨-, -, hlim₁, hs⟩ := exploreLevel_searched hb hlim' hl hopen
        exact fun i hi => barren_of_searched hb (hs i hi) (ih hlim₁ hheight he)

theorem matchRoot_barren (hb : s.Unbounded) {r r' : Run} {root : Root} {agenda : List Task}
    (hr : s.Reaches (.between r agenda)) (hm : s.matchRoot r root = .ok r')
    (ho : slot ∈ r'.remaining) : s.Barren slot ⟨root.container, root.slot⟩ := by
  rcases matchRoot_cases hm with ⟨hn, rfl⟩ | ⟨-, key, h, -, he, rfl⟩
  · rw [hn] at ho
    exact absurd ho List.not_mem_nil
  · have hlim : ((r.tallies.get? key).getD .zero).limitHit = false := by
      cases hk : r.tallies.get? key with
      | none => rfl
      | some t => exact Engine.withinLimit_of_reaches hb.limit hr key t hk
    refine exploreLevels_barren hb hlim ?_ he ho (rootItem root)
      (List.mem_singleton_self _)
    intro i hi
    cases List.mem_singleton.1 hi
    exact Nat.le_refl _

theorem roots_barren (hb : s.Unbounded) {r r' : Run} {roots : List Root} {agenda : List Task}
    (hr : s.Reaches (.between r (roots.map .root ++ agenda)))
    (hm : roots.foldlM s.matchRoot r = .ok r') (ho : slot ∈ r'.remaining) :
    ∀ root ∈ roots, s.Barren slot ⟨root.container, root.slot⟩ := by
  induction roots generalizing r with
  | nil => exact fun root hroot => absurd hroot List.not_mem_nil
  | cons root roots ih =>
    rw [List.foldlM_cons, bind_eq_ok] at hm
    obtain ⟨r₁, hroot, hm⟩ := hm
    have hsteps : Engine.Steps s (.between r₁ (roots.map .root ++ agenda)) (.between r' agenda) :=
      Engine.roots_steps hm
    have hopen : slot ∈ r₁.remaining := hsteps.mem_remaining ho
    intro other hother
    rcases List.mem_cons.1 hother with rfl | hother
    · exact matchRoot_barren hb hr hroot hopen
    · exact ih (hr.trans (Engine.matchRoot_steps hroot)) hm other hother

theorem passes_barren (hb : s.Unbounded) {r : Run} {site : Site} (hp : s.passes = .ok r)
    (ho : slot ∈ r.remaining) (hd : s.Derivable site) : ¬ s.Shows slot site := by
  simp only [passes, matchArrays, bind_eq_ok] at hp
  obtain ⟨r₁, ⟨r₂, he, hm⟩, r₃, hs, ha⟩ := hp
  obtain ⟨root, hroot, hd⟩ := hd
  have hreach₂ : s.Reaches (.between r₂ s.laterTasks) := Engine.matchExact_steps he
  have htasks : s.laterTasks = s.layout.mappingRoots.map .root ++
      (s.layout.staticArrays.map .staticArray ++
        ((s.layout.arrayRoots ++ s.layout.bytesRoots).map .root ++ [])) := by
    simp [laterTasks]
  rw [htasks] at hreach₂
  have hstatic : Engine.Steps s
      (.between r₁ (s.layout.staticArrays.map .staticArray ++
        ((s.layout.arrayRoots ++ s.layout.bytesRoots).map .root ++ [])))
      (.between r₃ ((s.layout.arrayRoots ++ s.layout.bytesRoots).map .root ++ [])) :=
    Engine.staticArrays_steps hs
  have harrays : Engine.Steps s
      (.between r₃ ((s.layout.arrayRoots ++ s.layout.bytesRoots).map .root ++ []))
      (.between r []) := Engine.roots_steps ha
  have hreach₃ := (hreach₂.trans (Engine.roots_steps hm)).trans hstatic
  have hopen₃ : slot ∈ r₃.remaining := harrays.mem_remaining ho
  have hopen₁ : slot ∈ r₁.remaining := hstatic.mem_remaining hopen₃
  rcases hroot with hroot | hroot | hroot
  · exact roots_barren hb hreach₂ hm hopen₁ root hroot site hd
  · exact roots_barren hb hreach₃ ha ho root (List.mem_append_left _ hroot) site hd
  · exact roots_barren hb hreach₃ ha ho root (List.mem_append_right _ hroot) site hd

def unbounded (layout : Layout) (observed : Table Int Access) (candidates : List Candidate)
    (lengths : Table Int Int) : Scene :=
  ⟨layout, observed, candidates, ⟨none, none, none, Bounds.none_pos, Bounds.none_pos⟩,
    lengths.map some⟩

theorem unbounded_unbounded (layout : Layout) (observed : Table Int Access)
    (candidates : List Candidate) (lengths : Table Int Int) :
    (unbounded layout observed candidates lengths).Unbounded := by
  refine ⟨rfl, rfl, rfl, ?_⟩
  intro base hg
  obtain ⟨e, -, he⟩ := List.mem_map.1 (Table.get?_eq_some.1 hg)
  cases congrArg Prod.snd he

/-- Without bounds a run resolves each observed slot that a derivable container shows. -/
theorem run_complete (layout : Layout) (observed : Table Int Access) (candidates : List Candidate)
    (lengths : Table Int Int) {results : List (Int × List Match)} {slot : Int} {site : Site}
    (h : (unbounded layout observed candidates lengths).run = .ok results)
    (hs : slot ∈ observed.keys)
    (hd : (unbounded layout observed candidates lengths).Derivable site)
    (hx : (unbounded layout observed candidates lengths).Shows slot site) :
    ∃ ms, (slot, ms) ∈ results ∧ ms ≠ [] ∧ ∀ m ∈ ms, m.kind ≠ .unresolved := by
  obtain ⟨r, -, -, hp, -⟩ := run_cases h
  have hpart := (Engine.sound_of_reaches (Engine.passes_steps hp)).partitions
  have hkeys := (keys_of_run h hp).trans (List.perm_append_comm.trans hpart)
  obtain ⟨⟨slot', ms⟩, hm, rfl⟩ := List.mem_map.1 (hkeys.mem_iff.2 hs)
  refine ⟨ms, hm, ?_⟩
  rcases mem_run h hp hm with ⟨recorded, hg, hr⟩ | ⟨ho, -⟩
  · obtain ⟨kind, hk, hu⟩ := uniform_of_get? hp hg
    have hu := hu.renoted hr
    exact ⟨hu.nonempty, fun m hm => hu.kind_eq m hm ▸ hk⟩
  · exact absurd hx (passes_barren (unbounded_unbounded _ _ _ _) hp ho hd)

theorem run_complete_sample : ∃ results ms,
    (unbounded (sample .standard).layout (sample .standard).observed (sample .standard).candidates
      .empty).run = .ok results ∧
    (sampleItems + 1, ms) ∈ results ∧ ms ≠ [] ∧ ∀ m ∈ ms, m.kind ≠ .unresolved := by
  obtain ⟨results, h, -⟩ : ∃ results, (unbounded (sample .standard).layout
      (sample .standard).observed (sample .standard).candidates .empty).run = .ok results ∧
      results.length = 4 :=
    exists_ok_of_toOption (by decide +kernel)
  have hkey : Slot.ofKey sampleKey.raw 1 = .ok sampleList := rfl
  have hdata : Slot.ofData sampleList = .ok sampleItems := by
    rw [Slot.ofData, Slot.encode, if_pos ⟨Slot.ofHash_nonneg _, Slot.ofHash_lt _⟩]
    rfl
  have hlength : (unbounded (sample .standard).layout (sample .standard).observed
      (sample .standard).candidates .empty).lengthAt sampleList = some 3 := by decide +kernel
  have hs : sampleItems + 1 ∈ (sample .standard).observed.keys := by decide +kernel
  have hloc : (Descriptor.dynamicArray ⟨.text "", "t_array", .text "uint256[]", 0, 0, 32⟩
      (.primitive ⟨.text "", "t_uint256", .text "uint256", 0, 0, 32⟩)).locateElement
        (sampleItems + 1 - sampleItems) (some 3) =
      .ok [⟨.value ⟨.text "", "t_uint256", .text "uint256", 0, 0, 32⟩, 0, [.index 1]⟩] := by
    have hrel : sampleItems + 1 - sampleItems = 1 := by omega
    rw [hrel]
    rfl
  have hbase : Slot.wrap (sampleList + 0) = sampleList := by
    rw [Int.add_zero]
    exact Slot.wrap_of_mem (Slot.ofHash_nonneg _) (Slot.ofHash_lt _)
  obtain ⟨ms, hms⟩ := run_complete _ _ _ _ h hs
    ⟨_, .inl (List.mem_singleton_self _), .single ⟨_, _, .value (List.mem_singleton_self _) hkey, _,
      List.mem_singleton_self _, congrArg (Site.mk _) hbase.symm⟩⟩
    (.element hlength hdata hloc (List.cons_ne_nil _ _))
  exact ⟨results, ms, h, hms⟩

end Scene

end SlotLens

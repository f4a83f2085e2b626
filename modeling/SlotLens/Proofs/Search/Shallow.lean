import SlotLens.Proofs.Search.Complete
import SlotLens.Proofs.Search.Queue

/-!
# The shallowest explanations

Without bounds, a slot that can be derived from a root stays in sight while it is open: a container
that waits, or what is left of the one at hand, still leads to it. Since containers are taken level
by level, a slot is found across as few boundaries as there are ways to derive it from the root.
-/

namespace SlotLens

variable {s : Scene} {slot : Int}

namespace Scene

/-- A container shows a slot, or leads to one that does, across a number of boundaries. -/
inductive Reveals (s : Scene) (slot : Int) : Nat → Site → Prop
  | here {site : Site} : s.Shows slot site → Reveals s slot 1 site
  | behind {n : Nat} {site inner : Site} : s.Inside site inner → Reveals s slot n inner →
      Reveals s slot (n + 1) site

def RevealsInner (s : Scene) (slot : Int) (n : Nat) (value : Descriptor) (place : Int) : Prop :=
  ∃ c ∈ value.containers, s.Reveals slot n ⟨c.descriptor, innerBase place c⟩

inductive Yields (s : Scene) (slot : Int) (value : Descriptor) (derived : Int) : Nat → Prop
  | field {located : List Located} : derived ≤ slot → slot < derived + value.slotCount →
      value.locate (slot - derived) = .ok located → located ≠ [] → Yields s slot value derived 1
  | inner {n : Nat} : s.RevealsInner slot n value derived → Yields s slot value derived (n + 1)

/-- What is left to do with the container at hand leads to a slot. -/
inductive Keeps (s : Scene) (slot : Int) : Nat → Activity → Prop
  | opened {n : Nat} {item : WorkItem} : s.Reveals slot n item.site → Keeps s slot n (.opened item)
  | keys {n : Nat} {item : WorkItem} {keyType : Value} {value : Descriptor}
      {rest : List Candidate} {c : Candidate} {derived : Int} : c ∈ rest →
      Slot.ofKey c.raw item.base = .ok derived → s.Yields slot value derived n →
      Keeps s slot n (.keys item keyType value rest)
  | later {n : Nat} {item : WorkItem} {keyType : Value} {value : Descriptor}
      {rest : List Candidate} {derived : Int} {path : Path} {slots : List Int} :
      Keeps s slot n (.keys item keyType value rest) →
      Keeps s slot n (.fields item keyType value rest derived path slots)
  | field {item : WorkItem} {keyType : Value} {value : Descriptor} {rest : List Candidate}
      {derived : Int} {path : Path} {slots : List Int} {located : List Located} : slot ∈ slots →
      value.locate (slot - derived) = .ok located → located ≠ [] →
      Keeps s slot 1 (.fields item keyType value rest derived path slots)
  | inner {n : Nat} {item : WorkItem} {keyType : Value} {value : Descriptor}
      {rest : List Candidate} {derived : Int} {path : Path} {slots : List Int} :
      s.RevealsInner slot n value derived →
      Keeps s slot (n + 1) (.fields item keyType value rest derived path slots)
  | element {item : WorkItem} {element : Descriptor} {data length : Int} {slots : List Int}
      {located : List Located} : slot ∈ slots →
      item.container.locateElement (slot - data) (some length) = .ok located → located ≠ [] →
      Keeps s slot 1 (.elements item element data length slots)
  | elements {n i : Nat} {item : WorkItem} {element : Descriptor} {data length : Int}
      {slots : List Int} : i < length.toNat →
      s.RevealsInner slot n element (data + i * element.slotCount) →
      Keeps s slot (n + 1) (.elements item element data length slots)
  | nested {n i : Nat} {item : WorkItem} {element : Descriptor} {data : Int} {left index : Nat} :
      index ≤ i → i < index + left →
      s.RevealsInner slot n element (data + i * element.slotCount) →
      Keeps s slot (n + 1) (.nested item element data left index)
  | chunk {item : WorkItem} {e : Entry} {data : Int} {slots : List Int} : slot ∈ slots →
      Keeps s slot 1 (.chunks item e data slots)

variable {n : Nat} {value element : Descriptor} {place : Int}

theorem Reveals.one_le {site : Site} (h : s.Reveals slot n site) : 1 ≤ n := by
  cases h with
  | here => exact Nat.le_refl 1
  | behind => exact Nat.le_add_left 1 _

theorem Keeps.one_le {activity : Activity} (h : s.Keeps slot n activity) : 1 ≤ n := by
  induction h with
  | opened hr => exact hr.one_le
  | keys _ _ hy =>
    cases hy with
    | field => exact Nat.le_refl 1
    | inner => exact Nat.le_add_left 1 _
  | later _ ih => exact ih
  | field | element | chunk => exact Nat.le_refl 1
  | inner | elements | nested => exact Nat.le_add_left 1 _

theorem Reveals.searchable (hb : s.Unbounded) {site : Site} (h : s.Reveals slot n site) :
    s.Searchable site := by
  by_contra hs
  obtain ⟨hshows, hplaces⟩ := not_shows_of_not_searchable hb slot hs
  cases h with
  | here hx => exact hshows hx
  | behind hi =>
    obtain ⟨value, place, hp, -⟩ := hi
    exact hplaces value place hp

theorem RevealsInner.hasContainers (h : s.RevealsInner slot n value place) : value.hasContainers := by
  obtain ⟨c, hc, -⟩ := h
  by_contra hn
  rw [Bool.not_eq_true] at hn
  rw [Descriptor.containers_eq_nil hn] at hc
  exact absurd hc List.not_mem_nil

theorem RevealsInner.queued (hb : s.Unbounded) (h : s.RevealsInner slot n value place) {hunt : Hunt}
    {level : Nat} {path : Path} :
    ∃ i ∈ (s.pushNested value place level path hunt).next.toList, i.level = level + 1 ∧
      s.Reveals slot n i.site := by
  obtain ⟨c, hc, hr⟩ := h
  exact ⟨_, queued_mem_pushNested hb.depth hc (hr.searchable hb), rfl, hr⟩

/-! ### Containers that are opened -/

section Opened

variable {item : WorkItem} {e : Entry} {h : Hunt}

theorem Reveals.mapping {keyType : Value} (hr : s.Reveals slot n item.site)
    (hm : item.container = .mapping e keyType value) :
    s.Keeps slot n (.keys item keyType value s.candidates) := by
  rw [WorkItem.site, hm] at hr
  cases hr with
  | here hx =>
    cases hx with
    | value hc hd hle hlt hl hne => exact .keys hc hd (.field hle hlt hl hne)
  | behind hi hr =>
    obtain ⟨value, place, hp, c, hc, rfl⟩ := hi
    cases hp with
    | value hcand hd => exact .keys hcand hd (.inner ⟨c, hc, hr⟩)

theorem Reveals.array {data length span : Int} (hr : s.Reveals slot n item.site)
    (hm : item.container = .dynamicArray e element) (hl : s.lengthAt item.base = some length)
    (hd : Slot.ofData item.base = .ok data) (hs : element.spanOf length = .ok span)
    (ho : slot ∈ h.remaining) :
    s.Keeps slot n (.elements item element data length (h.hits data span)) := by
  rw [WorkItem.site, hm] at hr
  cases hr with
  | here hx =>
    cases hx with
    | element hl' hd' hloc hne =>
      cases hl.symm.trans hl'
      cases hd.symm.trans hd'
      exact .element (mem_hits_of_locateAmong ho hs hloc hne) (hm ▸ hloc) hne
  | behind hi hr =>
    obtain ⟨value, place, hp, c, hc, rfl⟩ := hi
    cases hp with
    | element hl' hlt hd' hpos =>
      cases hl.symm.trans hl'
      cases hd.symm.trans hd'
      rw [Descriptor.position_eq (RevealsInner.hasContainers ⟨c, hc, hr⟩)] at hpos
      cases hpos
      exact .elements (by omega) ⟨c, hc, hr⟩

theorem Reveals.bytes {length : Nat} {data : Int} (hr : s.Reveals slot n item.site)
    (hm : item.container = .bytes e)
    (hl : (s.observed.get? item.base).bind (longLength? e.typeLabel) = some length)
    (hd : Slot.ofData item.base = .ok data) (ho : slot ∈ h.remaining) :
    s.Keeps slot n (.chunks item e data (h.hits data ((length + 31) / 32 : Nat))) := by
  rw [WorkItem.site, hm] at hr
  cases hr with
  | here hx =>
    cases hx with
    | chunk hobs hw hlong hi hd' hslot =>
      obtain ⟨length', hl', hlt⟩ := long_of_shows hobs hw hlong hi
      cases hl.symm.trans hl'
      cases hd.symm.trans hd'
      exact .chunk (Hunt.mem_hits.2 ⟨ho, by omega, by omega⟩)
  | behind hi =>
    obtain ⟨value, place, hp, -⟩ := hi
    cases hp

theorem Reveals.lengthAt_ne_none (hr : s.Reveals slot n item.site)
    (hm : item.container = .dynamicArray e element) : s.lengthAt item.base ≠ none := by
  intro hnone
  rw [WorkItem.site, hm] at hr
  cases hr with
  | here hx =>
    cases hx with
    | element hl => cases hnone.symm.trans hl
  | behind hi =>
    obtain ⟨value, place, hp, -⟩ := hi
    cases hp with
    | element hl => cases hnone.symm.trans hl

theorem Reveals.longLength_ne_none (hr : s.Reveals slot n item.site)
    (hm : item.container = .bytes e) :
    (s.observed.get? item.base).bind (longLength? e.typeLabel) ≠ none := by
  intro hnone
  rw [WorkItem.site, hm] at hr
  cases hr with
  | here hx =>
    cases hx with
    | chunk hobs hw hlong hi =>
      obtain ⟨length, hl, -⟩ := long_of_shows hobs hw hlong hi
      cases hnone.symm.trans hl
  | behind hi =>
    obtain ⟨value, place, hp, -⟩ := hi
    cases hp

theorem Reveals.kinds (hr : s.Reveals slot n item.site) :
    (∃ e keyType value, item.container = .mapping e keyType value) ∨
      (∃ e element, item.container = .dynamicArray e element) ∨ ∃ e, item.container = .bytes e := by
  generalize hsite : item.site = site at hr
  cases hr with
  | here hx =>
    cases hx with
    | value => exact .inl ⟨_, _, _, congrArg Site.container hsite⟩
    | element => exact .inr (.inl ⟨_, _, congrArg Site.container hsite⟩)
    | chunk => exact .inr (.inr ⟨_, congrArg Site.container hsite⟩)
  | behind hi =>
    obtain ⟨value, place, hp, -⟩ := hi
    cases hp with
    | value => exact .inl ⟨_, _, _, congrArg Site.container hsite⟩
    | element => exact .inr (.inl ⟨_, _, congrArg Site.container hsite⟩)

end Opened

end Scene

namespace Search

open Scene

variable {owner : Descriptor} {x x' : Search} {n : Nat}

theorem keeps_step (hb : s.Unbounded) (hlim : x.hunt.tally.limitHit = false)
    (hs : Step s owner x x') (ho : slot ∈ x'.hunt.remaining) (hk : s.Keeps slot n x.activity) :
    (x'.activity.item? = x.activity.item? ∧ s.Keeps slot n x'.activity) ∨
      ∃ item ∈ x.activity.item?, ∃ i ∈ x'.hunt.next.toList, ∃ m, n = m + 1 ∧
        i.level = item.level + 1 ∧ s.Reveals slot m i.site := by
  have hstop {h : Hunt} (hl : h.tally.limitHit = false) : h.tally.isStopped s.bounds = false := by
    simp [Tally.isStopped, hl, Bounds.thresholdReached, hb.threshold]
  cases hs with
  | finish | descend | solved | refuse | enter => cases hk
  | openMapping hm =>
    cases hk with
    | opened hr => exact .inl ⟨rfl, hr.mapping hm⟩
  | openArray hm hl hd hspan =>
    cases hk with
    | opened hr => exact .inl ⟨rfl, hr.array hm hl hd hspan ho⟩
  | openLong hm hl hd =>
    cases hk with
    | opened hr => exact .inl ⟨rfl, hr.bytes hm hl hd ho⟩
  | openUnknown hm hl =>
    cases hk with
    | opened hr => exact absurd hl (hr.lengthAt_ne_none hm)
  | openShort hm hl =>
    cases hk with
    | opened hr => exact absurd hl (hr.longLength_ne_none hm)
  | openOther hmapping harray hbytes =>
    cases hk with
    | opened hr =>
      rcases hr.kinds with ⟨e, keyType, value, hm⟩ | ⟨e, element, hm⟩ | ⟨e, hm⟩
      · exact absurd hm (hmapping e keyType value)
      · exact absurd hm (harray e element)
      · exact absurd hm (hbytes e)
  | keysTried =>
    cases hk with
    | keys hc => exact absurd hc List.not_mem_nil
  | keysStop hends =>
    rcases hends with hends | hends
    · rw [hends] at ho
      exact absurd ho List.not_mem_nil
    · simp [Bounds.thresholdReached, hb.threshold] at hends
  | keysLimit _ _ hp => cases (Hunt.spend_limitHit hb.limit hp).1
  | keyMiss _ _ _ hd hh hc =>
    cases hk with
    | keys hmem hd' hy =>
      rcases List.mem_cons.1 hmem with rfl | hmem
      · cases hd.symm.trans hd'
        cases hy with
        | field hle hlt =>
          have hhit := Hunt.mem_hits.2 ⟨ho, hle, hlt⟩
          rw [hh] at hhit
          exact absurd hhit List.not_mem_nil
        | inner hi => simp [hi.hasContainers] at hc
      · exact .inl ⟨rfl, .keys hmem hd' hy⟩
  | keyHit _ _ _ hd =>
    refine .inl ⟨rfl, ?_⟩
    cases hk with
    | keys hmem hd' hy =>
      rcases List.mem_cons.1 hmem with rfl | hmem
      · cases hd.symm.trans hd'
        cases hy with
        | field hle hlt hl hne => exact .field (Hunt.mem_hits.2 ⟨ho, hle, hlt⟩) hl hne
        | inner hi => exact .inner hi
      · exact .later (.keys hmem hd' hy)
  | field hl =>
    refine .inl ⟨rfl, ?_⟩
    cases hk with
    | later hk => exact .later hk
    | inner hi => exact .inner hi
    | field hmem hl' hne =>
      rcases List.mem_cons.1 hmem with rfl | hmem
      · cases hl.symm.trans hl'
        exact absurd ho (Hunt.claim_removes hne)
      · exact .field hmem hl' hne
  | fieldsDone =>
    cases hk with
    | later hk => exact .inl ⟨rfl, hk⟩
    | field hmem => exact absurd hmem List.not_mem_nil
    | inner hi =>
      obtain ⟨i, hmem, hlevel, hr⟩ := hi.queued hb
      exact .inr ⟨_, rfl, i, hmem, _, rfl, hlevel, hr⟩
  | element hl =>
    refine .inl ⟨rfl, ?_⟩
    cases hk with
    | elements hi hr => exact .elements hi hr
    | element hmem hl' hne =>
      rcases List.mem_cons.1 hmem with rfl | hmem
      · cases hl.symm.trans hl'
        exact absurd ho (Hunt.claim_removes hne)
      · exact .element hmem hl' hne
  | elementsDone hc =>
    cases hk with
    | element hmem => exact absurd hmem List.not_mem_nil
    | elements _ hr => simp [hr.hasContainers] at hc
  | elementsNested =>
    cases hk with
    | element hmem => exact absurd hmem List.not_mem_nil
    | elements hi hr => exact .inl ⟨rfl, .nested (Nat.zero_le _) (by omega) hr⟩
  | nestedDone =>
    cases hk with
    | nested hle hlt => omega
  | nestedStop hends => simp [hstop hlim] at hends
  | nestedFull _ hfull => simp [Tally.budgetLeft, hb.limit] at hfull
  | nest =>
    cases hk with
    | nested hle hlt hr =>
      rcases Nat.eq_or_lt_of_le hle with rfl | hle
      · obtain ⟨i, hmem, hlevel, hr⟩ := hr.queued hb
        exact .inr ⟨_, rfl, i, hmem, _, rfl, hlevel, hr⟩
      · exact .inl ⟨rfl, .nested hle (by omega) hr⟩
  | chunk =>
    refine .inl ⟨rfl, ?_⟩
    cases hk with
    | chunk hmem =>
      rcases List.mem_cons.1 hmem with rfl | hmem
      · exact absurd ho (Hunt.claim_removes (List.cons_ne_nil _ _))
      · exact .chunk hmem
  | chunksDone =>
    cases hk with
    | chunk hmem => exact absurd hmem List.not_mem_nil

/-- A container that waits leads to a slot, or what is left of the one at hand does, so that the slot
is `total` boundaries away from the container of the root. -/
inductive Sights (s : Scene) (slot : Int) (total : Nat) (x : Search) : Prop
  | front {item : WorkItem} {n : Nat} : item ∈ x.front → s.Reveals slot n item.site →
      item.level + n = total + 1 → Sights s slot total x
  | atHand {item : WorkItem} {n : Nat} : item ∈ x.activity.item? → s.Keeps slot n x.activity →
      item.level + n = total + 1 → Sights s slot total x
  | next {item : WorkItem} {n : Nat} : item ∈ x.hunt.next.toList → s.Reveals slot n item.site →
      item.level + n = total + 1 → Sights s slot total x

variable {item : WorkItem} {total : Nat}

theorem front_step (hb : s.Unbounded) (hlim : x.hunt.tally.limitHit = false)
    (hs : Step s owner x x') (hi : item ∈ x.front) :
    item ∈ x'.front ∨ x'.activity = .opened item := by
  cases hs with
  | descend => exact absurd hi List.not_mem_nil
  | refuse _ he => cases Scene.enter_true hb hlim he
  | enter =>
    rcases List.mem_cons.1 hi with rfl | hi
    · exact .inr rfl
    · exact .inl hi
  | _ => exact .inl hi

theorem Moves.next (h : Moves x x') (hi : item ∈ x.hunt.next.toList) :
    item ∈ x'.front ∨ item ∈ x'.hunt.next.toList := by
  cases h with
  | descend => exact .inl hi
  | take _ hn => exact .inr (hn ▸ hi)
  | work hn => exact .inr (hn ▸ List.mem_append_left _ hi)

theorem Sights.step (hb : s.Unbounded) (ht : x.Traced s owner)
    (hlim : x.hunt.tally.limitHit = false) (hs : Step s owner x x') (ho : slot ∈ x'.hunt.remaining)
    (h : x.Sights s slot total) : x'.Sights s slot total := by
  cases h with
  | front hi hr htotal =>
    rcases front_step hb hlim hs hi with hi | hopened
    · exact .front hi hr htotal
    · exact .atHand (hopened ▸ rfl) (hopened ▸ .opened hr) htotal
  | atHand hi hk htotal =>
    rcases keeps_step hb hlim hs ho hk with ⟨hitem, hk⟩ | ⟨item, hitem, i, hmem, m, rfl, hlevel, hr⟩
    · exact .atHand (hitem ▸ hi) hk htotal
    · cases Option.mem_unique hi hitem
      exact .next hmem hr (by omega)
  | next hi hr htotal =>
    rcases (hs.moves ht).next hi with hi | hi
    · exact .front hi hr htotal
    · exact .next hi hr htotal

theorem sights_of_reaches (hb : s.Unbounded) {r : Run} {root : Root} {key : LabelKey}
    {agenda : List Task} (h : s.Reaches (.within r root key x agenda))
    (ho : slot ∈ x.hunt.remaining) (hr : s.Reveals slot total ⟨root.container, root.slot⟩) :
    x.Sights s slot total := by
  refine Engine.within_of_reaches (P := fun root x => slot ∈ x.hunt.remaining →
    s.Reveals slot total ⟨root.container, root.slot⟩ → x.Sights s slot total) ?_ ?_ h ho hr
  · exact fun r tally root _ _ hr => .front (List.mem_singleton_self _) hr (Nat.add_comm 1 total)
  · intro r root key x x' agenda h ih st ho hr
    have hlim : x.hunt.tally.limitHit = false :=
      Engine.withinLimit_of_reaches hb.limit h key _
        (Engine.get?_tallies_within.trans (if_pos rfl))
    cases (Engine.traced_of_reaches h).searches with
    | within _ ht => exact (ih (st.mem_remaining ho) hr).step hb ht hlim st ho

theorem Sights.level_le {root : Root} {level : Nat} (h : x.Sights s slot total)
    (ht : x.Tiered root level) : level ≤ total := by
  cases h with
  | front hi hr htotal =>
    have := hr.one_le
    have := (ht.front _ hi).level_eq
    omega
  | atHand hi hk htotal =>
    have := hk.one_le
    have := (ht.atHand _ hi).level_eq
    omega
  | next hi hr htotal =>
    have := hr.one_le
    have := (ht.next _ hi).level_eq
    omega

/-- In a state of the search of a root, steps queue only what is strictly inside the container at
hand, no level is deeper than the container of the root is high, what is left of the search ends,
and the containers that it takes are taken level by level. A slot that a step resolves is set down
across as few boundaries as it is derived from the root in any way. -/
structure BreadthFirst (s : Scene) (root : Root) (x : Search) : Prop where
  moves : ∀ x', Step s root.variableDescriptor x x' → Moves x x'
  levels : ∀ i, i ∈ x.front ∨ i ∈ x.activity.item? ∨ i ∈ x.hunt.next.toList →
    i.level ≤ root.container.height
  halts : Acc (fun x' x => Step s root.variableDescriptor x x') x
  sorted : ∀ items y, Takes s root.variableDescriptor x items y →
    items.Pairwise fun i j => i.level ≤ j.level
  shallowest : ∀ x' slot recorded, Step s root.variableDescriptor x x' →
    slot ∈ x.hunt.remaining → x'.hunt.results.get? slot = some recorded →
    ∃ l, (∀ m ∈ recorded, ∃ d, root.variableDescriptor.Crosses m.path l d) ∧
      (root.variableDescriptor.HasDistinctMembers → ∀ m ∈ recorded, ∀ k d,
        root.variableDescriptor.Crosses m.path k d → k = l) ∧
      ∀ n, s.Reveals slot n ⟨root.container, root.slot⟩ → l ≤ n

section Reached

variable {r : Run} {root : Root} {key : LabelKey} {agenda : List Task}

theorem level_le_of_reaches (hb : s.Unbounded) (h : s.Reaches (.within r root key x agenda))
    (hi : item ∈ x.activity.item?) (ho : slot ∈ x.hunt.remaining)
    (hr : s.Reveals slot total ⟨root.container, root.slot⟩) : item.level ≤ total := by
  obtain ⟨level, ht⟩ := tiered_of_reaches h
  exact (ht.atHand item hi).level_eq.trans_le ((sights_of_reaches hb h ho hr).level_le ht)

theorem breadthFirst_of_reaches (hb : s.Unbounded) (h : s.Reaches (.within r root key x agenda)) :
    x.BreadthFirst s root := by
  obtain ⟨level, htiered⟩ := tiered_of_reaches h
  have htraced := Engine.traced_of_reaches h
  cases htraced.searches with
  | within hroot ht =>
  have ho := Layout.mem_descriptors_of_root hroot
  refine ⟨fun x' st => st.moves ht, fun i hi => ?_, htiered.acc ho ht,
    fun items y hy => (hy.sorted ho ht htiered).1, fun x' slot recorded st hopen hg => ?_⟩
  · rcases hi with hi | hi | hi
    · have hlevel := htiered.front i hi
      exact hlevel.level_eq.trans_le hlevel.level_le
    · have hlevel := htiered.atHand i hi
      exact hlevel.level_eq.trans_le hlevel.level_le
    · have hlevel := htiered.next i hi
      exact hlevel.level_eq.trans_le hlevel.level_le
  · have hstep : Engine.Step s (.within r root key x agenda) (.within r root key x' agenda) :=
      .inside st
    obtain ⟨v, -, level, path, kind, note, located, hfinds, -, rfl⟩ :=
      Engine.exists_finds h hstep hopen hg
    have hcrosses : ∀ m ∈ sortBy Match.offset (Hunt.claimed slot v path kind note located),
        ∃ d, v.Crosses m.path level d := by
      intro m hm
      obtain ⟨l, hl, rfl⟩ := List.mem_map.1 ((perm_sortBy _ _).mem_iff.1 hm)
      exact hfinds.crosses h hl
    cases hfinds with
    | @derived _ _ _ _ _ item _ _ _ _ hi =>
      refine ⟨item.level, hcrosses, fun hdist m hm k d hd => ?_, fun n hr =>
        level_le_of_reaches hb h hi hopen hr⟩
      obtain ⟨d', hd'⟩ := hcrosses m hm
      exact hd.unique hdist hd'

end Reached

end Search

theorem Engine.Finds.shallowest (hb : s.Unbounded) {e : Engine} {v : Descriptor} {level : Nat}
    {path : Path} {kind : MatchKind} {note : Option String} {located : List Located}
    (h : s.Reaches e) (hx : e.Finds slot v level path kind note located)
    (ho : slot ∈ e.run.remaining) :
    level = 0 ∨ ∃ root ∈ s.layout.roots, root.variableDescriptor = v ∧
      ∀ n, s.Reveals slot n ⟨root.container, root.slot⟩ → level ≤ n := by
  cases hx with
  | direct => exact .inl rfl
  | derived hi =>
    cases (traced_of_reaches h).searches with
    | within hroot _ =>
      exact .inr ⟨_, hroot, rfl, fun n hr => Search.level_le_of_reaches hb h hi ho hr⟩

namespace Scene

theorem SetDownAt.crosses {m : Match} {v : Descriptor} {level : Nat}
    (h : s.SetDownAt slot m v level) : ∃ d, v.Crosses m.path level d := by
  obtain ⟨r, before, after, path, kind, note, located, l, -, hb, -, -, -, hfinds, -, hl, hren⟩ :=
    h.step
  rw [hren.origin_eq.2.2]
  exact hfinds.crosses hb hl

theorem SetDownAt.shallowest (hb : s.Unbounded) {m : Match} {v : Descriptor} {level : Nat}
    (h : s.SetDownAt slot m v level) :
    level = 0 ∨ ∃ root ∈ s.layout.roots, root.variableDescriptor = v ∧
      ∀ n, s.Reveals slot n ⟨root.container, root.slot⟩ → level ≤ n := by
  obtain ⟨r, before, after, path, kind, note, located, l, -, hreach, -, -, ho, hfinds, -⟩ := h.step
  exact hfinds.shallowest hb hreach ho

/-- The searches of a run without bounds go breadth first, and are not cut off by the count of
levels. Each match that they derive is set down across as few boundaries as its slot is derived from
the same root in any way, unless it belongs to a static array, which takes no boundary. -/
theorem run_shallowest (layout : Layout) (observed : Table Int Access)
    (candidates : List Candidate) (lengths : Table Int Int) :
    (∀ r root key x agenda,
      (unbounded layout observed candidates lengths).Reaches (.within r root key x agenda) →
      x.BreadthFirst (unbounded layout observed candidates lengths) root) ∧
    (∀ (root : Root) (h : Hunt) (levels : Nat), root.container.height ≤ levels →
      (unbounded layout observed candidates lengths).exploreLevels root.variableDescriptor levels
        [rootItem root] h = (unbounded layout observed candidates lengths).exploreRoot root h) ∧
    ∀ results slot ms m, (unbounded layout observed candidates lengths).run = .ok results →
      (slot, ms) ∈ results → m ∈ ms → m.kind = .mapping ∨ m.kind = .array →
      ∃ v l, (unbounded layout observed candidates lengths).SetDownAt slot m v l ∧
        (∃ d, v.Crosses m.path l d) ∧
        (v.HasDistinctMembers → ∀ k d, v.Crosses m.path k d → k = l) ∧
        (l = 0 ∨ ∃ root ∈ layout.roots, root.variableDescriptor = v ∧ ∀ n,
          (unbounded layout observed candidates lengths).Reveals slot n
            ⟨root.container, root.slot⟩ → l ≤ n) := by
  have hb := unbounded_unbounded layout observed candidates lengths
  refine ⟨fun r root key x agenda h => Search.breadthFirst_of_reaches hb h,
    fun root h levels hle => exploreLevels_eq hle ?_, fun results slot ms m h hs hm hk => ?_⟩
  · intro i hi
    cases List.mem_singleton.1 hi
    exact Nat.le_refl _
  · obtain ⟨v, l, hset⟩ := exists_setDownAt h hs hm hk
    obtain ⟨d, hd⟩ := hset.crosses
    exact ⟨v, l, hset, ⟨d, hd⟩, fun hdist k d' hd' => hd'.unique hdist hd, hset.shallowest hb⟩

def boundless : Scene :=
  unbounded (sample .standard).layout (sample .standard).observed (sample .standard).candidates .empty

theorem run_shallowest_boundless :
    (∃ r root key x agenda, boundless.Reaches (.within r root key x agenda) ∧
      root.variableDescriptor.label = .text "lists" ∧ x.BreadthFirst boundless root ∧
      boundless.exploreLevels root.variableDescriptor 7 [rootItem root] x.hunt =
        boundless.exploreRoot root x.hunt) ∧
    ∃ results ms m, boundless.run = .ok results ∧ (sampleItems + 1, ms) ∈ results ∧ m ∈ ms ∧
      m.kind = .mapping ∧ m.path.length = 2 ∧
      ∃ v l, boundless.SetDownAt (sampleItems + 1) m v l ∧
        (∃ d, v.Crosses m.path l d) ∧
        (v.HasDistinctMembers → ∀ k d, v.Crosses m.path k d → k = l) ∧
        (l = 0 ∨ ∃ root ∈ boundless.layout.roots, root.variableDescriptor = v ∧ ∀ n,
          boundless.Reveals (sampleItems + 1) n ⟨root.container, root.slot⟩ → l ≤ n) := by
  obtain ⟨hmachine, hlevels, hrun⟩ := run_shallowest (sample .standard).layout
    (sample .standard).observed (sample .standard).candidates .empty
  constructor
  · obtain ⟨r, hexact, hopen⟩ : ∃ r, boundless.matchExact boundless.start = .ok r ∧
        r.remaining.isEmpty = false :=
      exists_ok_of_toOption (by decide +kernel)
    have hreach := (Engine.matchExact_steps hexact).tail
      (.search (by simpa using hopen) rfl)
    exact ⟨_, _, _, _, _, hreach, rfl, hmachine _ _ _ _ _ hreach, hlevels _ _ 7 (by decide)⟩
  · obtain ⟨results, h, hk⟩ : ∃ results, boundless.run = .ok results ∧
        (results.map fun e => (e.1, e.2.map fun m => (m.kind, m.path.length))) =
          [(0, [(.exact, 0)]), (7, [(.unresolved, 0)]), (sampleItems + 1, [(.mapping, 2)]),
            (sampleList, [(.mapping, 2)])] :=
      exists_ok_of_toOption (by decide +kernel)
    have hm : (sampleItems + 1, [(MatchKind.mapping, 2)]) ∈
        results.map fun e => (e.1, e.2.map fun m => (m.kind, m.path.length)) := by
      rw [hk]
      simp
    obtain ⟨m, hms, he⟩ := exists_single hm
    obtain ⟨hkind, hpath⟩ := Prod.mk.inj he
    exact ⟨results, [m], m, h, hms, List.mem_singleton_self m, hkind, hpath,
      hrun _ _ _ _ h hms (List.mem_singleton_self m) (.inl hkind)⟩

end Scene

end SlotLens

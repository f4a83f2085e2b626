import SlotLens.Proofs.Layout.Container
import SlotLens.Proofs.Search.Step
import SlotLens.Proofs.Search.Cases
import SlotLens.Proofs.Table

/-!
# Open and resolved slots

In every state that the passes reach, each observed slot is open or has results, and not both. After
the first pass, matches are set down only at open slots, so the results of a slot stay as they were
set down first.
-/

namespace SlotLens

variable {s : Scene}

def Scene.Partitions (s : Scene) (remaining : List Int) (results : Table Int (List Match)) : Prop :=
  (remaining ++ results.keys).Perm s.observed.keys

section Lists

variable {open_ resolved observed : List Int} {slot : Int}

theorem perm_close (hn : observed.Nodup) (hp : (open_ ++ resolved).Perm observed)
    (hs : slot ∈ observed) :
    (open_.filter (· ≠ slot) ++ if slot ∈ resolved then resolved else resolved ++ [slot]).Perm
      observed := by
  have hd := List.nodup_append.1 (hp.nodup_iff.2 hn)
  split
  · next hr =>
    have hf : open_.filter (· ≠ slot) = open_ := by
      rw [List.filter_eq_self]
      intro other ho
      simpa using hd.2.2 other ho slot hr
    rwa [hf]
  · next hr =>
    have ho : slot ∈ open_ := by
      rcases List.mem_append.1 (hp.mem_iff.2 hs) with ho | ho
      · exact ho
      · exact absurd ho hr
    have hf : open_.filter (· ≠ slot) = open_.erase slot := by
      rw [hd.1.erase_eq_filter slot]
      exact List.filter_congr fun other _ => by by_cases he : other = slot <;> simp [he]
    have he : (slot :: open_.filter (· ≠ slot)).Perm open_ := by
      rw [hf]
      exact (List.perm_cons_erase ho).symm
    refine List.Perm.trans ?_ hp
    refine List.Perm.trans ?_ (he.append_right resolved)
    rw [← List.append_assoc]
    exact List.perm_append_comm.trans (by simp)

end Lists

namespace Hunt

variable {h : Hunt} {slot : Int} {found : List Match}

theorem partitions_resolve (hp : s.Partitions h.remaining h.results) (hs : slot ∈ s.observed.keys) :
    s.Partitions (h.resolve slot found).remaining (h.resolve slot found).results := by
  cases found with
  | nil => exact hp
  | cons m found =>
    rw [resolve_remaining (by simp), resolve_results (by simp), Scene.Partitions, Table.keys_insert]
    exact perm_close s.observed.nodup hp hs

end Hunt

namespace Scene.Partitions

variable {h : Hunt} {remaining : List Int} {results : Table Int (List Match)} {slot : Int}

theorem mem_observed (hp : s.Partitions remaining results) (hs : slot ∈ remaining) :
    slot ∈ s.observed.keys := hp.mem_iff.1 (List.mem_append_left _ hs)

theorem nodup_remaining (hp : s.Partitions remaining results) : remaining.Nodup :=
  (List.nodup_append.1 (hp.nodup_iff.2 s.observed.nodup)).1

theorem get?_eq_none (hp : s.Partitions remaining results) (hs : slot ∈ remaining) :
    results.get? slot = none := by
  rw [Table.get?_eq_none]
  intro hk
  exact (List.nodup_append.1 (hp.nodup_iff.2 s.observed.nodup)).2.2 slot hs slot hk rfl

theorem not_mem_remaining (hp : s.Partitions remaining results) {ms : List Match}
    (hs : results.get? slot = some ms) : slot ∉ remaining := by
  intro ho
  rw [hp.get?_eq_none ho] at hs
  cases hs

theorem resolve_effect {found : List Match} (hp : s.Partitions h.remaining h.results)
    (ho : slot ∈ h.remaining) (other : Int) :
    ((other ∈ (h.resolve slot found).remaining ↔ other ∈ h.remaining) ∧
        (h.resolve slot found).results.get? other = h.results.get? other) ∨
      (other = slot ∧ found ≠ [] ∧ other ∉ (h.resolve slot found).remaining ∧
        (h.resolve slot found).results.get? other = some (sortBy Match.offset found)) := by
  by_cases hf : found = []
  · subst hf
    exact .inl ⟨Iff.rfl, rfl⟩
  · by_cases he : other = slot
    · subst he
      refine .inr ⟨rfl, hf, ?_, ?_⟩
      · rw [Hunt.resolve_remaining hf]
        simp
      · rw [Hunt.get?_resolve_self hf, hp.get?_eq_none ho]
        rfl
    · refine .inl ⟨?_, Hunt.get?_resolve_of_ne he⟩
      exact ⟨Hunt.mem_remaining_resolve, fun hr => Hunt.mem_remaining_resolve_of_ne hr he⟩

end Scene.Partitions

def Activity.slots : Activity → List Int
  | .fields _ _ _ _ _ _ slots => slots
  | .elements _ _ _ _ slots => slots
  | .chunks _ _ _ slots => slots
  | _ => []

namespace Search

variable {owner : Descriptor} {x x' : Search}

/-- What is left to be set down stands at open slots, each once. -/
def Pending (x : Search) : Prop := x.activity.slots.Sublist x.hunt.remaining

theorem Step.effect (hs : Step s owner x x') :
    (x'.hunt.remaining = x.hunt.remaining ∧ x'.hunt.results = x.hunt.results ∧ x'.Pending) ∨
      ∃ slot before kind note located, x.activity.slots = slot :: x'.activity.slots ∧
        kind ≠ .exact ∧ kind ≠ .unresolved ∧
        x'.hunt = x.hunt.claim slot owner before kind note located := by
  have hkind : ∀ path, Scene.kindBehind path ≠ .exact ∧ Scene.kindBehind path ≠ .unresolved := by
    intro path
    unfold Scene.kindBehind
    split <;> simp
  cases hs with
  | refuse hr he | enter hr he =>
    obtain ⟨hr, hx, -⟩ := Scene.enter_keeps he
    exact .inl ⟨hr, hx, List.nil_sublist _⟩
  | openArray | openLong => exact .inl ⟨rfl, rfl, Hunt.hits_sublist _ _ _⟩
  | keysLimit hr hf hp | keyMiss hr hf hp =>
    obtain ⟨hr, hx, -⟩ := Hunt.spend_keeps hp
    exact .inl ⟨hr, hx, List.nil_sublist _⟩
  | keyHit hr hf hp =>
    obtain ⟨hr, hx, -⟩ := Hunt.spend_keeps hp
    exact .inl ⟨hr, hx, Hunt.hits_sublist _ _ _⟩
  | field => exact .inr ⟨_, _, _, _, _, rfl, by simp, by simp, rfl⟩
  | @element h front item =>
    obtain ⟨hx, hu⟩ := hkind item.path
    exact .inr ⟨_, _, _, _, _, rfl, hx, hu, rfl⟩
  | @chunk h front item e data slot slots =>
    obtain ⟨hx, hu⟩ := hkind item.path
    exact .inr ⟨slot, item.path, _, some (Scene.chunkNote (slot - data).toNat),
      [⟨.bytes e, 0, [.chunk (slot - data).toNat]⟩], rfl, hx, hu, rfl⟩
  | fieldsDone | nest =>
    exact .inl ⟨Scene.pushNested_remaining, Scene.pushNested_results, List.nil_sublist _⟩
  | _ => exact .inl ⟨rfl, rfl, List.nil_sublist _⟩

end Search

namespace Scene

def Listed (s : Scene) (t : Task) : Prop :=
  t ∈ s.laterTasks ∨
    ∃ slot ∈ s.observed.keys, ∃ owner ∈ s.layout.variablesAt slot, t = .fixed .exact owner slot

def IsRecord (s : Scene) (slot : Int) (ms : List Match) : Prop :=
  ∃ owner ∈ s.layout.descriptors, ∃ before kind note located, located ≠ [] ∧ kind ≠ .exact ∧
    kind ≠ .unresolved ∧ ms = sortBy Match.offset (Hunt.claimed slot owner before kind note located)

theorem fixed_not_mem_laterTasks {kind : MatchKind} {owner : Descriptor} {slot : Int} :
    .fixed kind owner slot ∉ s.laterTasks := by
  simp [laterTasks]

theorem mem_descriptors_of_staticArray {owner : Descriptor} (h : s.Listed (.staticArray owner)) :
    owner ∈ s.layout.descriptors := by
  simp only [Listed, laterTasks, Layout.staticArrays] at h
  simp at h
  exact h.1

theorem mem_roots_of_listed {root : Root} (h : s.Listed (.root root)) : root ∈ s.layout.roots := by
  simp only [Listed, laterTasks, Layout.mappingRoots, Layout.arrayRoots, Layout.bytesRoots] at h
  simp at h
  tauto

theorem start_partitions : s.Partitions s.start.remaining s.start.results := by
  simp only [Partitions, start, Table.keys, Table.empty, List.map_nil, List.append_nil]
  exact perm_sortBy id s.observed.keys

theorem mem_start {slot : Int} : slot ∈ s.start.remaining ↔ slot ∈ s.observed.keys :=
  (perm_sortBy id s.observed.keys).mem_iff

end Scene

namespace Engine

variable {e e' : Engine}

/-- What is left to be done concerns variables of the layout, and the tasks that the third pass adds
for a static array come first and stand at open slots. -/
inductive Staged (s : Scene) : Engine → Prop
  | listed {r agenda} : (∀ t ∈ agenda, s.Listed t) → Staged s (.between r agenda)
  | static {r : Run} {owner} {slots : List Int} {agenda} : owner ∈ s.layout.descriptors →
      slots.Sublist r.remaining → (∀ t ∈ agenda, s.Listed t) →
      Staged s (.between r (slots.map (.fixed .array owner) ++ agenda))
  | within {r root key x agenda} : root.variableDescriptor ∈ s.layout.descriptors → x.Pending →
      (∀ t ∈ agenda, s.Listed t) → Staged s (.within r root key x agenda)

structure Sound (s : Scene) (e : Engine) : Prop where
  partitions : s.Partitions e.run.remaining e.run.results
  staged : e.Staged s

theorem sound_start : Sound s s.engineStart := by
  refine ⟨Scene.start_partitions, .listed fun t ht => ?_⟩
  rcases List.mem_append.1 ht with ht | ht
  · obtain ⟨slot, hs, ht⟩ := List.mem_flatMap.1 ht
    obtain ⟨owner, ho, rfl⟩ := List.mem_map.1 ht
    exact .inr ⟨slot, Scene.mem_start.1 hs, owner, ho, rfl⟩
  · exact .inl ht

theorem sublist_filter {slot : Int} {slots remaining : List Int} (hn : remaining.Nodup)
    (hs : (slot :: slots).Sublist remaining) :
    slots.Sublist (remaining.filter (· ≠ slot)) := by
  have hd := List.nodup_cons.1 (hn.sublist hs)
  have hf : (slot :: slots).filter (· ≠ slot) = slots := by
    rw [List.filter_cons_of_neg (by simp), List.filter_eq_self]
    intro other ho
    have : other ≠ slot := fun he => hd.1 (he ▸ ho)
    simpa using this
  have hs' := hs.filter (· ≠ slot)
  rwa [hf] at hs'

theorem sublist_resolve {h : Hunt} {slot : Int} {slots : List Int} {found : List Match}
    (hp : s.Partitions h.remaining h.results) (hs : (slot :: slots).Sublist h.remaining) :
    slots.Sublist (h.resolve slot found).remaining := by
  by_cases hf : found = []
  · subst hf
    exact (List.sublist_cons_self slot slots).trans hs
  · rw [Hunt.resolve_remaining hf]
    exact sublist_filter hp.nodup_remaining hs

def Keeps (e e' : Engine) (slot : Int) : Prop :=
  (slot ∈ e'.run.remaining ↔ slot ∈ e.run.remaining) ∧
    e'.run.results.get? slot = e.run.results.get? slot

def Records (s : Scene) (e e' : Engine) (slot : Int) : Prop :=
  slot ∈ e.run.remaining ∧ slot ∉ e'.run.remaining ∧
    ∃ ms, s.IsRecord slot ms ∧ e'.run.results.get? slot = some ms

def IsIndexed (e : Engine) (slot : Int) : Prop := ∃ owner, .fixed .exact owner slot ∈ e.agenda

theorem records_resolve {h : Hunt} {owner : Descriptor} {before : Path} {kind : MatchKind}
    {note : Option String} {located : List Located} {slot other : Int}
    (hp : s.Partitions h.remaining h.results) (ho : slot ∈ h.remaining)
    (hd : owner ∈ s.layout.descriptors) (hx : kind ≠ .exact) (hu : kind ≠ .unresolved)
    (he : e.run.remaining = h.remaining ∧ e.run.results = h.results)
    (he' : e'.run.remaining =
        (h.resolve slot (Hunt.claimed slot owner before kind note located)).remaining ∧
      e'.run.results =
        (h.resolve slot (Hunt.claimed slot owner before kind note located)).results) :
    Keeps e e' other ∨ Records s e e' other := by
  rw [Keeps, Records, he.1, he.2, he'.1, he'.2]
  rcases hp.resolve_effect ho other with hk | ⟨rfl, hf, hn, hg⟩
  · exact .inl hk
  · refine .inr ⟨ho, hn, _, ⟨owner, hd, before, kind, note, located, ?_, hx, hu, rfl⟩, hg⟩
    rintro rfl
    exact hf rfl

theorem Sound.step_listed {r : Run} {agenda : List Task}
    (hp : s.Partitions r.remaining r.results) (ha : ∀ t ∈ agenda, s.Listed t)
    (st : Step s (.between r agenda) e') :
    Sound s e' ∧
      ∀ slot, Keeps (.between r agenda) e' slot ∨ IsIndexed (.between r agenda) slot := by
  cases st with
  | @fixed _ r' kind owner slot agenda hf =>
    have hl : s.Listed (.fixed kind owner slot) := ha _ List.mem_cons_self
    obtain ⟨located, -, rfl⟩ := Scene.claimFixed_cases hf
    rcases hl with hl | ⟨slot', hs, owner', -, he⟩
    · exact absurd hl Scene.fixed_not_mem_laterTasks
    · cases he
      refine ⟨⟨Hunt.partitions_resolve hp hs, .listed fun t ht => ha t (List.mem_cons_of_mem _ ht)⟩,
        fun other => ?_⟩
      by_cases ho : other = slot
      · subst ho
        exact .inr ⟨owner, List.mem_cons_self⟩
      · refine .inl ⟨⟨Hunt.mem_remaining_resolve, fun hr => ?_⟩, Hunt.get?_resolve_of_ne ho⟩
        exact Hunt.mem_remaining_resolve_of_ne hr ho
  | @staticArray _ owner agenda =>
    have hd := Scene.mem_descriptors_of_staticArray (ha _ List.mem_cons_self)
    refine ⟨⟨hp, .static hd (Hunt.hits_sublist _ _ _) fun t ht => ?_⟩, fun _ => .inl ⟨.rfl, rfl⟩⟩
    exact ha t (List.mem_cons_of_mem _ ht)
  | skip hr =>
    exact ⟨⟨hp, .listed fun t ht => ha t (List.mem_cons_of_mem _ ht)⟩, fun _ => .inl ⟨.rfl, rfl⟩⟩
  | search hr hk =>
    have hd := Layout.mem_descriptors_of_root (Scene.mem_roots_of_listed (ha _ List.mem_cons_self))
    refine ⟨⟨hp, .within hd (List.nil_sublist _) fun t ht => ?_⟩, fun _ => .inl ⟨.rfl, rfl⟩⟩
    exact ha t (List.mem_cons_of_mem _ ht)

/-- After a step the state is sound again; each slot stays as it is, is taken up by the first pass,
or is resolved at once. -/
theorem Sound.step (hs : Sound s e) (st : Step s e e') :
    Sound s e' ∧ ∀ slot, Keeps e e' slot ∨ IsIndexed e slot ∨ Records s e e' slot := by
  obtain ⟨hp, hs⟩ := hs
  have listed {r : Run} {agenda : List Task} (hp : s.Partitions r.remaining r.results)
      (ha : ∀ t ∈ agenda, s.Listed t) (st : Step s (.between r agenda) e') :
      Sound s e' ∧ ∀ slot, Keeps (.between r agenda) e' slot ∨
        IsIndexed (.between r agenda) slot ∨ Records s (.between r agenda) e' slot := by
    obtain ⟨hs, hk⟩ := Sound.step_listed hp ha st
    exact ⟨hs, fun slot => (hk slot).imp_right .inl⟩
  cases hs with
  | listed ha => exact listed hp ha st
  | @static r owner slots agenda hd hr ha =>
    cases slots with
    | nil => exact listed hp ha st
    | cons slot slots =>
      cases st with
      | fixed hf =>
        obtain ⟨located, -, rfl⟩ := Scene.claimFixed_cases hf
        have ho : slot ∈ r.remaining := hr.subset List.mem_cons_self
        refine ⟨⟨Hunt.partitions_resolve hp (hp.mem_observed ho),
          .static hd (sublist_resolve (h := Scene.beginHunt r .zero) hp hr) ha⟩, fun other => ?_⟩
        exact Or.imp_right .inr (records_resolve (h := Scene.beginHunt r .zero) hp ho hd
          (by simp) (by simp) ⟨rfl, rfl⟩ ⟨rfl, rfl⟩)
  | @within r root key x agenda hd hx ha =>
    cases st with
    | leave => exact ⟨⟨hp, .listed ha⟩, fun _ => .inl ⟨.rfl, rfl⟩⟩
    | @inside _ _ _ _ x' _ st =>
      rcases st.effect with ⟨hr, hres, hx'⟩ | ⟨slot, before, kind, note, located, hsl, hk, hu, hh⟩
      · refine ⟨⟨?_, .within hd hx' ha⟩, fun other => .inl ⟨?_, ?_⟩⟩
        · simpa only [run, hr, hres] using hp
        · simp only [run, hr]
        · simp only [run, hres]
      · rw [Search.Pending, hsl] at hx
        have ho : slot ∈ x.hunt.remaining := hx.subset List.mem_cons_self
        have hr : x'.hunt.remaining = (x.hunt.resolve slot
            (Hunt.claimed slot root.variableDescriptor before kind note located)).remaining := by
          rw [hh, Hunt.claim_remaining]
        have hres : x'.hunt.results = (x.hunt.resolve slot
            (Hunt.claimed slot root.variableDescriptor before kind note located)).results := by
          rw [hh, Hunt.claim_results]
        have hx' : x'.Pending := by
          rw [Search.Pending, hr]
          exact sublist_resolve hp hx
        refine ⟨⟨?_, .within hd hx' ha⟩, fun other => ?_⟩
        · simp only [run, hr, hres]
          exact Hunt.partitions_resolve hp (hp.mem_observed ho)
        · exact Or.imp_right .inr (records_resolve hp ho hd hk hu ⟨rfl, rfl⟩ ⟨hr, hres⟩)

theorem Sound.steps (hs : Sound s e) (st : Steps s e e') : Sound s e' := by
  induction st with
  | refl => exact hs
  | tail _ st ih => exact (ih.step st).1

theorem sound_of_reaches (hr : s.Reaches e) : Sound s e := sound_start.steps hr

theorem isIndexed_of_step {slot : Int} (st : Step s e e') (hi : e'.IsIndexed slot) :
    e.IsIndexed slot := by
  obtain ⟨owner, ho⟩ := hi
  refine ⟨owner, ?_⟩
  cases st with
  | fixed | skip | search => exact List.mem_cons_of_mem _ ho
  | staticArray =>
    rcases List.mem_append.1 ho with ho | ho
    · simp at ho
    · exact List.mem_cons_of_mem _ ho
  | inside | leave => exact ho

theorem Sound.results_eq {slot : Int} (hs : Sound s e) (st : Steps s e e')
    (hi : ¬ e.IsIndexed slot) (hr : slot ∉ e.run.remaining) :
    slot ∉ e'.run.remaining ∧ e'.run.results.get? slot = e.run.results.get? slot := by
  suffices h : ¬ e'.IsIndexed slot ∧ slot ∉ e'.run.remaining ∧
      e'.run.results.get? slot = e.run.results.get? slot from h.2
  induction st with
  | refl => exact ⟨hi, hr, rfl⟩
  | tail st' st ih =>
    obtain ⟨hi', hr', hg⟩ := ih
    refine ⟨fun h => hi' (isIndexed_of_step st h), ?_⟩
    rcases ((hs.steps st').step st).2 slot with hk | hx | ⟨ho, -⟩
    · exact ⟨fun h => hr' (hk.1.1 h), hk.2.trans hg⟩
    · exact absurd hx hi'
    · exact absurd ho hr'

theorem Sound.exists_record {slot : Int} (hs : Sound s e) (st : Steps s e e')
    (hi : ¬ e.IsIndexed slot) (ho : slot ∈ e.run.remaining) (hr : slot ∉ e'.run.remaining) :
    ∃ d d', Steps s e d ∧ Step s d d' ∧ Steps s d' e' ∧ ¬ d'.IsIndexed slot ∧
      Records s d d' slot := by
  suffices h : ¬ e'.IsIndexed slot ∧ (slot ∈ e'.run.remaining ∨
      ∃ d d', Steps s e d ∧ Step s d d' ∧ Steps s d' e' ∧ ¬ d'.IsIndexed slot ∧
        Records s d d' slot) from h.2.resolve_left hr
  clear hr
  induction st with
  | refl => exact ⟨hi, .inl ho⟩
  | tail st' st ih =>
    obtain ⟨hi', h⟩ := ih
    have hi'' := fun h => hi' (isIndexed_of_step st h)
    refine ⟨hi'', ?_⟩
    rcases h with ho' | ⟨d, d', hd, hdd, hd', hn, hrec⟩
    · rcases ((hs.steps st').step st).2 slot with hk | hx | hrec
      · exact .inl (hk.1.2 ho')
      · exact absurd hx hi'
      · exact .inr ⟨_, _, st', st, .refl, hi'', hrec⟩
    · exact .inr ⟨d, d', hd, hdd, hd'.tail st, hn, hrec⟩

end Engine

end SlotLens

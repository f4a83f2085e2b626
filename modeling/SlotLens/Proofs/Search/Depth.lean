import SlotLens.Proofs.Layout.Boundary
import SlotLens.Proofs.Search.Attribution
import SlotLens.Proofs.Search.Replay

/-!
# How deep a match is

The path to a container that waits crosses one boundary less than its level, and a match that is
set down from a container crosses as many as the level of the container. Containers that are too
deep are not queued, so the bound on the depth bounds what every reported path crosses.
-/

namespace SlotLens

variable {s : Scene}

def Activity.item? : Activity → Option WorkItem
  | .waiting | .ended => none
  | .opened item | .keys item .. | .fields item .. | .elements item .. | .nested item ..
  | .chunks item .. => some item

namespace Descriptor

variable {a b : Descriptor} {path : Path} {n : Nat}

theorem Crosses.isKey_false (h : Crosses a path n b) (hn : n = 0) :
    path.any Segment.isKey = false := by
  induction h with
  | nil => rfl
  | cons hstep _ ih =>
    rw [List.any_cons, ih (by omega), Bool.or_false]
    cases hstep with
    | key => omega
    | _ => rfl

end Descriptor

namespace Scene

variable {root : Root} {item i : WorkItem} {h : Hunt}

/-- The path to a container crosses one boundary less than the level it waits at. Only the container
of the root waits at level 1, and the ones below a mapping are behind keys. -/
structure Ranks (s : Scene) (root : Root) (item : WorkItem) : Prop where
  crosses : ∃ n, item.level = n + 1 ∧
    root.variableDescriptor.Crosses item.path n item.container
  first : item.level = 1 → item = rootItem root
  keyed : root.container.kind = .mapping → item.level ≠ 1 → item.path.any Segment.isKey
  allowed : s.bounds.depthAllows item.level

theorem Ranks.level_pos (hr : s.Ranks root item) : 1 ≤ item.level := by
  obtain ⟨n, hn, -⟩ := hr.crosses
  omega

theorem depthAllows_one (s : Scene) : s.bounds.depthAllows 1 := by
  unfold Bounds.depthAllows
  split
  · rfl
  · next n hd =>
    have := s.bounds.depth_pos n hd
    simp only [decide_eq_true_eq]
    omega

theorem ranks_rootItem (hr : root ∈ s.layout.roots) : s.Ranks root (rootItem root) := by
  obtain ⟨d, -, c, hc, rfl⟩ := Layout.mem_roots hr
  exact ⟨⟨0, rfl, Descriptor.containers_crosses d hc⟩, fun _ => rfl,
    fun _ hl => absurd rfl hl, s.depthAllows_one⟩

theorem ranks_pushNested {value : Descriptor} {base : Int} {level : Nat} {path : Path}
    (hl : 1 ≤ level) (hp : root.variableDescriptor.Crosses path level value)
    (hk : root.container.kind = .mapping → path.any Segment.isKey)
    (hn : ∀ i ∈ h.next.toList, s.Ranks root i)
    (hi : i ∈ (s.pushNested value base level path h).next.toList) : s.Ranks root i := by
  rw [next_pushNested, List.mem_append] at hi
  rcases hi with hi | hi
  · exact hn i hi
  split at hi
  · next ha =>
    obtain ⟨c, hc, rfl⟩ := List.mem_map.1 hi
    have hc := Descriptor.containers_crosses value (List.mem_filter.1 hc).1
    refine ⟨⟨level, rfl, hp.append hc⟩, ?_, ?_, ha⟩
    · intro hone
      simp only [queued] at hone
      omega
    · intro hm _
      simp only [queued, List.any_append, hk hm, Bool.true_or]
  · exact absurd hi List.not_mem_nil

def AtHand (s : Scene) (root : Root) : Activity → Prop
  | .waiting | .ended => True
  | .fields item _ value _ _ path _ => s.Ranks root item ∧
      root.variableDescriptor.Crosses path item.level value ∧ path.any Segment.isKey
  | .opened item | .keys item .. | .elements item .. | .nested item .. | .chunks item .. =>
      s.Ranks root item

theorem AtHand.ranks {activity : Activity} (ha : s.AtHand root activity)
    (hi : activity.item? = some item) : s.Ranks root item := by
  cases activity with
  | waiting | ended => cases hi
  | fields =>
    cases hi
    exact ha.1
  | opened | keys | elements | nested | chunks =>
    cases hi
    exact ha

end Scene

namespace Search

variable {root : Root} {x x' : Search}

structure Ranked (s : Scene) (root : Root) (x : Search) : Prop where
  front : ∀ i ∈ x.front, s.Ranks root i
  next : ∀ i ∈ x.hunt.next.toList, s.Ranks root i
  atHand : s.AtHand root x.activity

theorem Ranked.keep (hr : x.Ranked s root) (hn : x'.hunt.next = x.hunt.next)
    (hf : ∀ i ∈ x'.front, i ∈ x.front) (ha : s.AtHand root x'.activity) : x'.Ranked s root :=
  ⟨fun i hi => hr.front i (hf i hi), hn ▸ hr.next, ha⟩

theorem Ranked.step (ht : x.Traced s root.variableDescriptor) (hr : x.Ranked s root)
    (hs : Step s root.variableDescriptor x x') : x'.Ranked s root := by
  have hf := ht.activity
  have ha := hr.atHand
  cases hs with
  | descend => exact ⟨hr.next, by simp, trivial⟩
  | refuse _ he =>
    exact hr.keep (Scene.enter_keeps he).2.2 (fun i hi => List.mem_cons_of_mem _ hi) trivial
  | enter _ he =>
    exact hr.keep (Scene.enter_keeps he).2.2 (fun i hi => List.mem_cons_of_mem _ hi)
      (hr.front _ List.mem_cons_self)
  | openMapping | openArray | openLong => exact hr.keep rfl (fun i hi => hi) ha
  | keysLimit _ _ hp => exact hr.keep (Hunt.spend_keeps hp).2.2 (fun i hi => hi) trivial
  | keyMiss _ _ hp => exact hr.keep (Hunt.spend_keeps hp).2.2 (fun i hi => hi) ha
  | keyHit _ _ hp =>
    cases hf with
    | keys _ hm _ =>
      obtain ⟨n, hn, hc⟩ := ha.crosses
      rw [hm] at hc
      refine hr.keep (Hunt.spend_keeps hp).2.2 (fun i hi => hi) ⟨ha, ?_, ?_⟩
      · rw [hn]
        exact hc.append Descriptor.Enters.key.crosses
      · simp [Segment.isKey]
  | field => exact hr.keep Hunt.claim_next (fun i hi => hi) ha
  | fieldsDone =>
    obtain ⟨hi, hc, hk⟩ := ha
    exact ⟨hr.front, fun i => Scene.ranks_pushNested hi.level_pos hc (fun _ => hk) hr.next, hi⟩
  | element => exact hr.keep Hunt.claim_next (fun i hi => hi) ha
  | elementsNested => exact hr.keep rfl (fun i hi => hi) ha
  | nest =>
    cases hf with
    | nested _ hm _ _ _ _ =>
      obtain ⟨n, hn, hc⟩ := ha.crosses
      rw [hm] at hc
      refine ⟨hr.front, fun i => Scene.ranks_pushNested ha.level_pos ?_ ?_ hr.next, ha⟩
      · rw [hn]
        exact hc.append Descriptor.Enters.element.crosses
      · -- The container of a root that is a mapping is no array.
        intro hk
        rw [List.any_append, ha.keyed hk fun h1 => ?_, Bool.true_or]
        have := congrArg (·.container.kind) (ha.first h1)
        simp only [hm, Scene.rootItem, hk] at this
        cases this
  | chunk => exact hr.keep Hunt.claim_next (fun i hi => hi) ha
  | _ => exact hr.keep rfl (fun i hi => hi) trivial

/-- What is located at the next slot that is left, with the path, the kind and the note that its
matches get. -/
inductive Finds (slot : Int) : Activity → Path → MatchKind → Option String → List Located → Prop
  | field {item keyType value rest derived path slots located} :
      Descriptor.locate value (slot - derived) = .ok located →
      Finds slot (.fields item keyType value rest derived path (slot :: slots)) path .mapping none
        located
  | element {item element data length slots located} :
      (WorkItem.container item).locateElement (slot - data) (some length) = .ok located →
      Finds slot (.elements item element data length (slot :: slots)) item.path
        (Scene.kindBehind item.path) none located
  | chunk {item e data slots} :
      Finds slot (.chunks item e data (slot :: slots)) item.path (Scene.kindBehind item.path)
        (some (Scene.chunkNote (slot - data).toNat))
        [⟨.bytes e, 0, [.chunk (slot - data).toNat]⟩]

theorem Step.finds {owner : Descriptor} (hs : Step s owner x x') :
    (x'.hunt.remaining = x.hunt.remaining ∧ x'.hunt.results = x.hunt.results) ∨
      ∃ slot path kind note located, Finds slot x.activity path kind note located ∧
        x'.hunt = x.hunt.claim slot owner path kind note located := by
  cases hs with
  | refuse _ he | enter _ he => exact .inl ⟨(Scene.enter_keeps he).1, (Scene.enter_keeps he).2.1⟩
  | keysLimit _ _ hp | keyMiss _ _ hp | keyHit _ _ hp =>
    exact .inl ⟨(Hunt.spend_keeps hp).1, (Hunt.spend_keeps hp).2.1⟩
  | fieldsDone | nest => exact .inl ⟨Scene.pushNested_remaining, Scene.pushNested_results⟩
  | field hl => exact .inr ⟨_, _, _, _, _, .field hl, rfl⟩
  | element hl => exact .inr ⟨_, _, _, _, _, .element hl, rfl⟩
  | chunk => exact .inr ⟨_, _, _, _, _, .chunk, rfl⟩
  | _ => exact .inl ⟨rfl, rfl⟩

variable {slot : Int} {item : WorkItem} {path : Path} {kind : MatchKind} {note : Option String}
  {located : List Located}

theorem Finds.exists_item {activity : Activity} (h : Finds slot activity path kind note located) :
    ∃ item, activity.item? = some item := by
  cases h <;> exact ⟨_, rfl⟩

theorem Ranked.kind_eq (ht : x.Traced s root.variableDescriptor) (hr : x.Ranked s root)
    (hx : Finds slot x.activity path kind note located) (hk : root.container.kind = .mapping) :
    kind = .mapping := by
  have hf := ht.activity
  have ha := hr.atHand
  have keyed {item : WorkItem} (hi : s.Ranks root item) (hn : item.container.kind ≠ .mapping) :
      Scene.kindBehind item.path = .mapping := by
    refine if_pos (hi.keyed hk fun h1 => hn ?_)
    rw [hi.first h1]
    exact hk
  generalize x.activity = activity at hx hf ha
  cases hx with
  | field => rfl
  | element =>
    cases hf with
    | elements _ hm _ _ => exact keyed ha (by simp [hm, Descriptor.kind])
  | chunk =>
    cases hf with
    | chunks _ hm _ _ _ => exact keyed ha (by simp [hm, Descriptor.kind])

theorem Ranked.crosses (ht : x.Traced s root.variableDescriptor) (hr : x.Ranked s root)
    (hi : x.activity.item? = some item) (hx : Finds slot x.activity path kind note located)
    {l : Located} (hl : l ∈ located) :
    ∃ d, root.variableDescriptor.Crosses (path ++ l.path) item.level d := by
  have hf := ht.activity
  have ha := hr.atHand
  generalize x.activity = activity at hi hx hf ha
  cases hx with
  | field hloc =>
    cases hi
    obtain ⟨d, hd⟩ := Descriptor.locate_crosses _ hloc hl
    exact ⟨d, ha.2.1.append hd⟩
  | @element _ element _ _ _ _ hloc =>
    cases hi
    cases hf with
    | elements _ hm _ _ =>
      obtain ⟨n, hn, hc⟩ := ha.crosses
      rw [hm] at hloc hc
      obtain ⟨i, path, d, hpath, hd⟩ :=
        Descriptor.locateAmong_crosses (fun h hm => Descriptor.locate_crosses element h hm) hloc hl
      rw [hpath, hn]
      exact ⟨d, hc.append (Descriptor.Enters.element.crosses_cons hd)⟩
  | chunk =>
    cases hi
    cases hf with
    | chunks _ hm _ _ _ =>
      obtain ⟨n, hn, hc⟩ := ha.crosses
      cases List.mem_singleton.1 hl
      rw [hm] at hc
      rw [hn]
      exact ⟨_, hc.append Descriptor.Enters.chunk.crosses⟩

end Search

namespace Engine

variable {e before after : Engine} {slot : Int} {v : Descriptor} {level : Nat} {path : Path}
  {kind : MatchKind} {note : Option String} {located : List Located}

inductive Ranked (s : Scene) : Engine → Prop
  | between {r agenda} : Ranked s (.between r agenda)
  | within {r root key x agenda} : x.Ranked s root → Ranked s (.within r root key x agenda)

theorem ranked_of_reaches (h : s.Reaches e) : Ranked s e := by
  induction h with
  | refl => exact .between
  | tail h st ih =>
    have ht := traced_of_reaches h
    cases st with
    | fixed | staticArray | skip | leave => exact .between
    | search =>
      have hroot := ht.agenda (.root _) List.mem_cons_self
      refine .within ⟨?_, ?_, trivial⟩
      · intro i hi
        cases List.mem_singleton.1 hi
        exact Scene.ranks_rootItem hroot
      · intro i hi
        exact absurd hi (by simp [Search.ofRoot, Scene.beginHunt])
    | inside st =>
      cases ih with
      | within hr =>
        cases ht.searches with
        | within _ ht => exact .within (hr.step ht st)

/-- What is located at a slot for a variable: directly, which is level 0, or behind the path to the
container at hand, which is at a level. -/
inductive Finds (slot : Int) :
    Engine → Descriptor → Nat → Path → MatchKind → Option String → List Located → Prop
  | direct {r kind owner agenda located} :
      Descriptor.locate owner (slot - owner.slot) = .ok located →
      Finds slot (.between r (.fixed kind owner slot :: agenda)) owner 0 [] kind none located
  | derived {r root key x agenda item path kind note located} :
      Activity.item? (Search.activity x) = some item →
      Search.Finds slot x.activity path kind note located →
      Finds slot (.within r root key x agenda) root.variableDescriptor item.level path kind note
        located

theorem results_of_resolve {h : Hunt} {slot other : Int} {found recorded : List Match}
    (hp : s.Partitions h.remaining h.results) (ho : slot ∈ h.remaining)
    (hg : (h.resolve other found).results.get? slot = some recorded) :
    other = slot ∧ found ≠ [] ∧ recorded = sortBy Match.offset found := by
  by_cases he : slot = other
  · subst he
    by_cases hf : found = []
    · subst hf
      cases hg.symm.trans (hp.get?_eq_none ho)
    · rw [Hunt.get?_resolve_self hf, hp.get?_eq_none ho] at hg
      exact ⟨rfl, hf, (Option.some.inj hg).symm⟩
  · rw [Hunt.get?_resolve_of_ne he, hp.get?_eq_none ho] at hg
    cases hg

theorem exists_finds {recorded : List Match} (h : s.Reaches before) (st : Step s before after)
    (ho : slot ∈ before.run.remaining) (hg : after.run.results.get? slot = some recorded) :
    ∃ v ∈ s.layout.descriptors, ∃ level path kind note located,
      before.Finds slot v level path kind note located ∧ located ≠ [] ∧
      recorded = sortBy Match.offset (Hunt.claimed slot v path kind note located) := by
  have ht := traced_of_reaches h
  have hp := (sound_of_reaches h).partitions
  have nonempty {owner : Descriptor} {path : Path} {kind : MatchKind} {note : Option String}
      {located : List Located} (hn : Hunt.claimed slot owner path kind note located ≠ []) :
      located ≠ [] := by
    rintro rfl
    exact hn rfl
  cases st with
  | @fixed r _ kind owner _ _ hf =>
    obtain ⟨located, hl, rfl⟩ := Scene.claimFixed_cases hf
    obtain ⟨rfl, hn, rfl⟩ := results_of_resolve (h := Scene.beginHunt r .zero) hp ho hg
    exact ⟨owner, ht.agenda (.fixed _ _ _) List.mem_cons_self, 0, [], kind, none, located,
      .direct hl, nonempty hn, rfl⟩
  | staticArray | skip | search | leave => cases (hp.get?_eq_none ho).symm.trans hg
  | @inside r root key x x' agenda st =>
    cases ht.searches with
    | within hroot _ =>
      rcases st.finds with ⟨-, he⟩ | ⟨other, path, kind, note, located, hx, hh⟩
      · rw [run, he] at hg
        cases (hp.get?_eq_none ho).symm.trans hg
      · rw [run, hh, Hunt.claim_results] at hg
        obtain ⟨rfl, hn, rfl⟩ := results_of_resolve hp ho hg
        obtain ⟨item, hi⟩ := hx.exists_item
        exact ⟨_, Layout.mem_descriptors_of_root hroot, item.level, path, kind, note, located,
          .derived hi hx, nonempty hn, rfl⟩

theorem Finds.crosses (h : s.Reaches e) (hx : e.Finds slot v level path kind note located)
    {l : Located} (hl : l ∈ located) : ∃ d, v.Crosses (path ++ l.path) level d := by
  cases hx with
  | direct hloc => exact Descriptor.locate_crosses _ hloc hl
  | derived hi hx =>
    cases (traced_of_reaches h).searches with
    | within _ ht =>
      cases ranked_of_reaches h with
      | within hr => exact hr.crosses ht hi hx hl

theorem Finds.level_le (h : s.Reaches e) (hx : e.Finds slot v level path kind note located) :
    ∀ D ∈ s.bounds.depth, level ≤ D := by
  intro D hD
  cases hx with
  | direct => exact Nat.zero_le D
  | derived hi =>
    cases ranked_of_reaches h with
    | within hr =>
      have ha := (hr.atHand.ranks hi).allowed
      simp only [Bounds.depthAllows, Option.mem_def.1 hD, decide_eq_true_eq] at ha
      omega

end Engine

theorem Match.Renoted.origin_eq {m m' : Match} (h : m.Renoted m') :
    m'.name = m.name ∧ m'.typeLabel = m.typeLabel ∧ m'.path = m.path := by
  rcases h with rfl | ⟨-, note, rfl⟩ <;> exact ⟨rfl, rfl, rfl⟩

namespace Scene

theorem setDownOnce_of_get? {r : Run} {slot : Int} {recorded : List Match} {m : Match}
    (hp : s.passes = .ok r) (hg : r.results.get? slot = some recorded) (hm : m ∈ recorded)
    (hx : m.kind ≠ .exact) : s.SetDownOnce (.between r []) slot recorded := by
  have hpart := (Engine.sound_of_reaches (Engine.passes_steps hp)).partitions
  have hs : slot ∈ s.observed.keys :=
    hpart.mem_iff.1 (List.mem_append_right _ (Table.mem_keys.2 ⟨recorded, hg⟩))
  obtain ⟨fields, hf, hfound, hlater⟩ := passes_source hp hs
  by_cases hn : fields = []
  · exact (hlater hn recorded hg).1
  · cases (hfound hn).2.symm.trans hg
    exact absurd (Layout.mem_fixedFields hf ((perm_sortBy _ _).mem_iff.1 hm)).2 hx

/-- On the way to the end of the passes, one step sets down a match at an open slot for a variable:
directly, or from a container at a level. The match is reported up to its note. -/
structure SetDownAt (s : Scene) (slot : Int) (m : Match) (v : Descriptor) (level : Nat) : Prop where
  mem : v ∈ s.layout.descriptors
  step : ∃ r before after path kind note located l, s.passes = .ok r ∧ s.Reaches before ∧
    Engine.Step s before after ∧ Engine.Steps s after (.between r []) ∧
    slot ∈ before.run.remaining ∧ before.Finds slot v level path kind note located ∧
    after.run.results.get? slot =
      some (sortBy Match.offset (Hunt.claimed slot v path kind note located)) ∧
    l ∈ located ∧ (Match.ofLocated slot v path kind note l).Renoted m

theorem exists_setDownAt {results : List (Int × List Match)} (h : s.run = .ok results) {slot : Int}
    {ms : List Match} {m : Match} (hs : (slot, ms) ∈ results) (hm : m ∈ ms)
    (hk : m.kind = .mapping ∨ m.kind = .array) : ∃ v level, s.SetDownAt slot m v level := by
  obtain ⟨r, -, -, hp, -⟩ := run_cases h
  rcases mem_run h hp hs with ⟨recorded, hg, hr⟩ | ⟨-, note, -, rfl⟩
  · obtain ⟨m₀, hm₀, hren⟩ := Match.Renoted.exists_mem hr hm
    have hx : m₀.kind ≠ .exact := by
      rw [← hren.kind_eq]
      rcases hk with hk | hk <;> simp [hk]
    obtain ⟨before, after, set, hb, hstep, hend, ho, -, hl, -⟩ := setDownOnce_of_get? hp hg hm₀ hx
    cases (hl _ hend).symm.trans hg
    obtain ⟨v, hv, level, path, kind, note, located, hfinds, -, rfl⟩ :=
      Engine.exists_finds hb hstep ho (hl after .refl)
    obtain ⟨l, hl', rfl⟩ := List.mem_map.1 ((perm_sortBy _ _).mem_iff.1 hm₀)
    exact ⟨v, level, hv, r, before, after, path, kind, note, located, l, hp, hb, hstep, hend, ho,
      hfinds, hl after .refl, hl', hren⟩
  · cases List.mem_singleton.1 hm
    simp [Match.unresolved] at hk

/-- Each match that a run derives is set down for a variable with its name and its type: from a
container, or directly for a static array. Its path crosses as many boundaries as the level of the
container, and never more than the depth that the bounds allow. -/
theorem run_depth {results : List (Int × List Match)} (h : s.run = .ok results) {slot : Int}
    {ms : List Match} {m : Match} (hs : (slot, ms) ∈ results) (hm : m ∈ ms)
    (hk : m.kind = .mapping ∨ m.kind = .array) :
    ∃ v n, s.SetDownAt slot m v n ∧ v.label = m.name ∧ v.typeLabel = m.typeLabel ∧
      (∃ d, v.Crosses m.path n d) ∧
      (v.HasDistinctMembers → ∀ k d, v.Crosses m.path k d → k = n) ∧
      ∀ D ∈ s.bounds.depth, n ≤ D := by
  obtain ⟨v, n, hset⟩ := exists_setDownAt h hs hm hk
  obtain ⟨r, before, after, path, kind, note, located, l, -, hb, -, -, -, hfinds, -, hl, hren⟩ :=
    hset.step
  obtain ⟨hname, htype, hpath⟩ := hren.origin_eq
  obtain ⟨d, hd⟩ := hfinds.crosses hb hl
  have hc : v.Crosses m.path n d := hpath ▸ hd
  exact ⟨v, n, hset, hname.symm, htype.symm, ⟨d, hc⟩,
    fun hdist k d' hd' => hd'.unique hdist hc, hfinds.level_le hb⟩

theorem run_depth_sample : ∃ results ms m, (sample .standard).run = .ok results ∧
    (sampleItems + 1, ms) ∈ results ∧ m ∈ ms ∧ m.kind = .mapping ∧ m.path.length = 2 ∧
    ∃ v n, (sample .standard).SetDownAt (sampleItems + 1) m v n ∧ v.label = m.name ∧
      (∃ d, v.Crosses m.path n d) ∧
      (v.HasDistinctMembers → ∀ k d, v.Crosses m.path k d → k = n) ∧ n ≤ 5 := by
  obtain ⟨results, h, hk⟩ : ∃ results, (sample .standard).run = .ok results ∧
      (results.map fun e => (e.1, e.2.map fun m => (m.kind, m.path.length))) =
        [(0, [(.exact, 0)]), (7, [(.unresolved, 0)]), (sampleItems + 1, [(.mapping, 2)]),
          (sampleList, [(.mapping, 2)])] :=
    exists_ok_of_toOption (by decide +kernel)
  have hm : (sampleItems + 1, [(MatchKind.mapping, 2)]) ∈
      results.map fun e => (e.1, e.2.map fun m => (m.kind, m.path.length)) := by
    rw [hk]
    simp
  obtain ⟨m, hms, he⟩ := exists_single hm
  obtain ⟨hkind, hpath⟩ := Prod.mk.inj he
  obtain ⟨v, n, hset, hname, -, hc, hu, hD⟩ :=
    run_depth h hms (List.mem_singleton_self m) (.inl hkind)
  exact ⟨results, [m], m, h, hms, List.mem_singleton_self m, hkind, hpath, v, n, hset, hname, hc,
    hu, hD 5 rfl⟩

end Scene

end SlotLens

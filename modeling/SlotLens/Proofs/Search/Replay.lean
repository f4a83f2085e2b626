import SlotLens.Proofs.Search.Report
import SlotLens.Proofs.Search.Simulation
import SlotLens.Proofs.Search.Walk

namespace SlotLens

variable {s : Scene}

theorem Slot.wrap_of_encode {base : Int} {bytes : List UInt8} (h : Slot.encode base = .ok bytes) :
    Slot.wrap base = base := by
  rw [Slot.encode] at h
  split at h
  · next hb => exact Slot.wrap_of_mem hb.1 hb.2
  · cases h

theorem Slot.wrap_of_ofKey {raw : List UInt8} {base derived : Int}
    (h : Slot.ofKey raw base = .ok derived) : Slot.wrap base = base := by
  obtain ⟨bytes, hb, -⟩ := map_eq_ok.1 h
  exact Slot.wrap_of_encode hb

theorem Slot.wrap_of_ofData {base data : Int} (h : Slot.ofData base = .ok data) :
    Slot.wrap base = base := by
  obtain ⟨bytes, hb, -⟩ := map_eq_ok.1 h
  exact Slot.wrap_of_encode hb

namespace Scene

/-- The path of a match leads from a variable with its name and its type to a field at the slot. -/
def Replays (s : Scene) (slot : Int) (m : Match) : Prop :=
  ∃ v ∈ s.layout.descriptors, ∃ leaf, v.label = m.name ∧ v.typeLabel = m.typeLabel ∧
    m.leaf = some leaf ∧ m.size = leaf.size ∧ s.Leads v.spot m.path slot leaf m.offset

def AllReplay (s : Scene) (results : Table Int (List Match)) : Prop :=
  ∀ slot ms, results.get? slot = some ms → ∀ m ∈ ms, s.Replays slot m

/-- The path of a container that waits leads to it. A container of a variable waits at its slot,
every other one at its slot taken into the slot space. -/
def Stands (s : Scene) (owner : Descriptor) (item : WorkItem) : Prop :=
  ∃ place offset, s.Walk owner.spot item.path ⟨item.container, place, offset⟩ ∧
    (item.base = place ∨ item.base = Slot.wrap place)

variable {owner : Descriptor} {item : WorkItem} {h : Hunt} {slot : Int}

theorem Stands.walk (hs : s.Stands owner item) (hb : Slot.wrap item.base = item.base) :
    ∃ place offset, s.Walk owner.spot item.path ⟨item.container, place, offset⟩ ∧
      Slot.wrap place = item.base := by
  obtain ⟨place, offset, hw, rfl | he⟩ := hs
  · exact ⟨_, offset, hw, hb⟩
  · exact ⟨place, offset, hw, he.symm⟩

theorem allReplay_resolve {found : List Match} (hr : s.AllReplay h.results)
    (hf : ∀ m ∈ found, s.Replays slot m) : s.AllReplay (h.resolve slot found).results := by
  by_cases hn : found = []
  · subst hn
    exact hr
  · intro other ms hg m hm
    rw [Hunt.resolve_results hn, Table.get?_insert] at hg
    split at hg
    · next he =>
      subst he
      cases hg
      rcases List.mem_append.1 ((perm_sortBy _ _).mem_iff.1 hm) with hm | hm
      · cases hk : h.results.get? slot with
        | none =>
          rw [hk] at hm
          exact absurd hm List.not_mem_nil
        | some known =>
          rw [hk] at hm
          exact hr slot known hk m hm
      · exact hf m hm
    · exact hr other ms hg m hm

theorem replays_claimed {before : Path} {kind : MatchKind} {note : Option String}
    {located : List Located} {m : Match} (ho : owner ∈ s.layout.descriptors)
    (hl : ∀ l ∈ located, s.Leads owner.spot (before ++ l.path) slot l.leaf l.offset)
    (hm : m ∈ Hunt.claimed slot owner before kind note located) : s.Replays slot m := by
  obtain ⟨l, hl', rfl⟩ := List.mem_map.1 hm
  exact ⟨owner, ho, l.leaf, rfl, rfl, rfl, rfl, hl l hl'⟩

theorem allReplay_claim {before : Path} {kind : MatchKind} {note : Option String}
    {located : List Located} (ho : owner ∈ s.layout.descriptors) (hr : s.AllReplay h.results)
    (hl : ∀ l ∈ located, s.Leads owner.spot (before ++ l.path) slot l.leaf l.offset) :
    s.AllReplay (h.claim slot owner before kind note located).results := by
  rw [Hunt.claim_results]
  exact allReplay_resolve hr fun m => replays_claimed ho hl

theorem stands_pushNested {value : Descriptor} {base offset : Int} {level : Nat} {path : Path}
    {i : WorkItem} (hw : s.Walk owner.spot path ⟨value, base, offset⟩)
    (hn : ∀ i ∈ h.next.toList, s.Stands owner i)
    (hi : i ∈ (s.pushNested value base level path h).next.toList) : s.Stands owner i := by
  rcases mem_next_pushNested hi with hi | ⟨c, hc, -, rfl⟩
  · exact hn i hi
  · obtain ⟨offset', hc⟩ := containers_walk (s := s) base offset value hc
    exact ⟨base + c.slot, offset', hw.append hc, .inr rfl⟩

theorem stands_rootItem {root : Root} (hr : root ∈ s.layout.roots) :
    s.Stands root.variableDescriptor (rootItem root) := by
  obtain ⟨d, -, c, hc, rfl⟩ := Layout.mem_roots hr
  obtain ⟨offset, hw⟩ := containers_walk (s := s) d.slot d.entry.offset d hc
  exact ⟨d.slot + c.slot, offset, hw, .inl rfl⟩

inductive Follows (s : Scene) (owner : Descriptor) : Activity → Prop
  | waiting : Follows s owner .waiting
  | opened {item : WorkItem} : s.Stands owner item → Follows s owner (.opened item)
  | keys {item : WorkItem} {e keyType value} {rest : List Candidate} : s.Stands owner item →
      item.container = .mapping e keyType value → (∀ c ∈ rest, c ∈ s.candidates) →
      Follows s owner (.keys item keyType value rest)
  | fields {item : WorkItem} {e keyType value} {rest : List Candidate} {derived path slots} :
      s.Stands owner item → item.container = .mapping e keyType value →
      (∀ c ∈ rest, c ∈ s.candidates) →
      s.Walk owner.spot path ⟨value, derived, value.entry.offset⟩ →
      Follows s owner (.fields item keyType value rest derived path slots)
  | elements {item : WorkItem} {e element data length slots} : s.Stands owner item →
      item.container = .dynamicArray e element → s.lengthAt item.base = some length →
      Slot.ofData item.base = .ok data →
      Follows s owner (.elements item element data length slots)
  | nested {item : WorkItem} {e element data left index} {length : Int} : s.Stands owner item →
      item.container = .dynamicArray e element → s.lengthAt item.base = some length →
      Slot.ofData item.base = .ok data → element.hasContainers → index + left ≤ length.toNat →
      Follows s owner (.nested item element data left index)
  | chunks {item : WorkItem} {e data length slots} : s.Stands owner item →
      item.container = .bytes e →
      (s.observed.get? item.base).bind (longLength? e.typeLabel) = some length →
      Slot.ofData item.base = .ok data →
      (∀ slot ∈ slots, data ≤ slot ∧ slot < data + ((length + 31) / 32 : Nat)) →
      Follows s owner (.chunks item e data slots)
  | ended : Follows s owner .ended

theorem Stands.key_walk {e : Entry} {keyType key : Value} {value : Descriptor} {c : Candidate}
    {derived : Int} (hs : s.Stands owner item) (hm : item.container = .mapping e keyType value)
    (hc : c ∈ s.candidates) (hd : Slot.ofKey c.raw item.base = .ok derived)
    (hk : Field.decodeKey keyType c.raw = .ok key) :
    s.Walk owner.spot (item.path ++ [.key key c.hex keyType])
      ⟨value, derived, value.entry.offset⟩ := by
  obtain ⟨place, offset, hw, hp⟩ := hs.walk (Slot.wrap_of_ofKey hd)
  rw [hm] at hw
  rw [← hp] at hd
  exact hw.snoc (.key hc hk hd)

theorem Stands.element_walk {e : Entry} {element : Descriptor} {data length rel shift : Int}
    {i : Nat} (hs : s.Stands owner item) (ha : item.container = .dynamicArray e element)
    (hl : s.lengthAt item.base = some length) (hd : Slot.ofData item.base = .ok data)
    (hi : i < length) (hpos : element.position i = .ok (rel, shift)) :
    s.Walk owner.spot (item.path ++ [.index i]) (element.spotAt (data + rel) shift) := by
  obtain ⟨place, offset, hw, hp⟩ := hs.walk (Slot.wrap_of_ofData hd)
  rw [ha] at hw
  rw [← hp] at hl hd
  exact hw.snoc (.element hl hi hd hpos)

theorem Stands.chunk_leads {e : Entry} {data : Int} {length i : Nat}
    (hs : s.Stands owner item) (hb : item.container = .bytes e)
    (hl : (s.observed.get? item.base).bind (longLength? e.typeLabel) = some length)
    (hd : Slot.ofData item.base = .ok data) (hi : i < (length + 31) / 32) :
    s.Leads owner.spot (item.path ++ [.chunk i]) (data + i) (.bytes e) 0 := by
  obtain ⟨place, offset, hw, hp⟩ := hs.walk (Slot.wrap_of_ofData hd)
  rw [hb] at hw
  rw [← hp] at hl hd
  exact hw.leads (.chunk hl hi hd)

end Scene

namespace Search

variable {owner : Descriptor} {x x' : Search}

structure Traced (s : Scene) (owner : Descriptor) (x : Search) : Prop where
  results : s.AllReplay x.hunt.results
  front : ∀ i ∈ x.front, s.Stands owner i
  next : ∀ i ∈ x.hunt.next.toList, s.Stands owner i
  activity : s.Follows owner x.activity

theorem Traced.keep (ht : x.Traced s owner) (hr : x'.hunt.results = x.hunt.results)
    (hn : x'.hunt.next = x.hunt.next) (hf : ∀ i ∈ x'.front, i ∈ x.front)
    (ha : s.Follows owner x'.activity) : x'.Traced s owner :=
  ⟨hr ▸ ht.results, fun i hi => ht.front i (hf i hi), hn ▸ ht.next, ha⟩

theorem Traced.step (ho : owner ∈ s.layout.descriptors) (ht : x.Traced s owner)
    (hs : Step s owner x x') : x'.Traced s owner := by
  have ha := ht.activity
  cases hs with
  | finish | solved => exact ht.keep rfl rfl (fun i hi => hi) .ended
  | descend => exact ⟨ht.results, ht.next, by simp, .waiting⟩
  | refuse hr he =>
    obtain ⟨-, hr, hn⟩ := Scene.enter_keeps he
    exact ht.keep hr hn (fun i hi => List.mem_cons_of_mem _ hi) .ended
  | enter hr he =>
    obtain ⟨-, hr, hn⟩ := Scene.enter_keeps he
    exact ht.keep hr hn (fun i hi => List.mem_cons_of_mem _ hi)
      (.opened (ht.front _ List.mem_cons_self))
  | openMapping hm =>
    cases ha with
    | opened hi => exact ht.keep rfl rfl (fun i hi => hi) (.keys hi hm fun c hc => hc)
  | openArray hc hl hd _ =>
    cases ha with
    | opened hi => exact ht.keep rfl rfl (fun i hi => hi) (.elements hi hc hl hd)
  | openLong hc hl hd =>
    cases ha with
    | opened hi =>
      exact ht.keep rfl rfl (fun i hi => hi)
        (.chunks hi hc hl hd fun slot hslot => (Hunt.mem_hits.1 hslot).2)
  | keysLimit _ _ hp =>
    obtain ⟨-, hr, hn⟩ := Hunt.spend_keeps hp
    exact ht.keep hr hn (fun i hi => hi) .waiting
  | keyMiss _ _ hp _ _ _ =>
    obtain ⟨-, hr, hn⟩ := Hunt.spend_keeps hp
    cases ha with
    | keys hi hm hc =>
      exact ht.keep hr hn (fun i hi => hi)
        (.keys hi hm fun c hc' => hc c (List.mem_cons_of_mem _ hc'))
  | keyHit _ _ hp hd _ hk =>
    obtain ⟨-, hr, hn⟩ := Hunt.spend_keeps hp
    cases ha with
    | keys hi hm hc =>
      exact ht.keep hr hn (fun i hi => hi)
        (.fields hi hm (fun c hc' => hc c (List.mem_cons_of_mem _ hc'))
          (hi.key_walk hm (hc _ List.mem_cons_self) hd hk))
  | @field h _ _ _ _ _ derived _ slot _ located hl =>
    cases ha with
    | fields hi hm hc hw =>
      refine ⟨Scene.allReplay_claim ho ht.results ?_, ht.front, ?_,
        .fields hi hm hc hw⟩
      · intro l hmem
        have hleads := Scene.locate_leads (s := s) derived _ hl hmem
        have hsum : derived + (slot - derived) = slot := by omega
        rw [hsum] at hleads
        exact hw.leads hleads
      · rw [Hunt.claim_next]
        exact ht.next
  | fieldsDone =>
    cases ha with
    | fields hi hm hc hw =>
      refine ⟨?_, ht.front, fun i => Scene.stands_pushNested hw ht.next, .keys hi hm hc⟩
      rw [Scene.pushNested_results]
      exact ht.results
  | @element h _ item element data length slot _ located hl =>
    cases ha with
    | elements hi hc hlen hd =>
      refine ⟨Scene.allReplay_claim ho ht.results ?_, ht.front, ?_,
        .elements hi hc hlen hd⟩
      · intro l hmem
        rw [hc] at hl
        obtain ⟨i, place, shift, path, hpath, hlt, hpos, hleads⟩ := Scene.locateAmong_leads
          data (fun place _ _ _ hl hm => Scene.locate_leads place element hl hm) hl hmem
        have hsum : data + (slot - data) = slot := by omega
        rw [hsum] at hleads
        have hleads := (hi.element_walk hc hlen hd hlt hpos).leads hleads
        rwa [hpath, ← List.singleton_append, ← List.append_assoc]
      · rw [Hunt.claim_next]
        exact ht.next
  | elementsNested hn =>
    cases ha with
    | elements hi hc hl hd =>
      exact ht.keep rfl rfl (fun i hi => hi) (.nested hi hc hl hd hn (by omega))
  | @nest h _ item element data left index _ _ =>
    cases ha with
    | nested hi hc hl hd hn hle =>
      have hw := hi.element_walk hc hl hd (by omega) (Descriptor.position_eq hn index)
      refine ⟨?_, ht.front, fun i => Scene.stands_pushNested hw ht.next,
        .nested hi hc hl hd hn (by omega)⟩
      rw [Scene.pushNested_results]
      exact ht.results
  | @chunk h _ item e data slot slots =>
    cases ha with
    | chunks hi hc hl hd hslots =>
      have hslot := hslots slot List.mem_cons_self
      refine ⟨Scene.allReplay_claim ho ht.results ?_, ht.front, ?_,
        .chunks hi hc hl hd fun other ho => hslots other (List.mem_cons_of_mem _ ho)⟩
      · intro l hmem
        cases List.mem_singleton.1 hmem
        have hleads := hi.chunk_leads (i := (slot - data).toNat) hc hl hd (by omega)
        have hsum : data + ((slot - data).toNat : Int) = slot := by omega
        rwa [hsum] at hleads
      · rw [Hunt.claim_next]
        exact ht.next
  | _ => exact ht.keep rfl rfl (fun i hi => hi) .waiting

end Search

def Task.Concerns (s : Scene) : Task → Prop
  | .fixed _ owner _ => owner ∈ s.layout.descriptors
  | .staticArray owner => owner ∈ s.layout.descriptors
  | .root r => r ∈ s.layout.roots

namespace Engine

variable {e e' : Engine}

inductive Searches (s : Scene) : Engine → Prop
  | between {r agenda} : Searches s (.between r agenda)
  | within {r root key x agenda} : root ∈ s.layout.roots →
      x.Traced s root.variableDescriptor → Searches s (.within r root key x agenda)

structure Traced (s : Scene) (e : Engine) : Prop where
  results : s.AllReplay e.run.results
  agenda : ∀ t ∈ e.agenda, t.Concerns s
  searches : e.Searches s

theorem traced_start : Traced s s.engineStart := by
  refine ⟨?_, ?_, .between⟩
  · intro slot ms hg
    cases hg
  · intro t ht
    simp only [Scene.engineStart, agenda, Scene.exactTasks, Scene.laterTasks, List.mem_append,
      List.mem_flatMap, List.mem_map] at ht
    rcases ht with ⟨slot, -, owner, ho, rfl⟩ | (⟨root, hr, rfl⟩ | ⟨owner, ho, rfl⟩) |
      ⟨root, hr | hr, rfl⟩
    · exact (List.mem_filter.1 ho).1
    · exact (List.mem_filter.1 hr).1
    · exact (List.mem_filter.1 ho).1
    · exact (List.mem_filter.1 hr).1
    · exact (List.mem_filter.1 hr).1

theorem Traced.step (ht : Traced s e) (st : Step s e e') : Traced s e' := by
  obtain ⟨hr, ha, hs⟩ := ht
  cases st with
  | @fixed r r' kind owner slot agenda hf =>
    have ho : owner ∈ s.layout.descriptors := ha _ List.mem_cons_self
    obtain ⟨located, hl, rfl⟩ := Scene.claimFixed_cases hf
    refine ⟨?_, fun t ht => ha t (List.mem_cons_of_mem _ ht), .between⟩
    refine Scene.allReplay_resolve (h := Scene.beginHunt r .zero) hr fun m =>
      Scene.replays_claimed ho ?_
    intro l hmem
    have hleads := Scene.locate_leads (s := s) owner.slot _ hl hmem
    have hsum : owner.slot + (slot - owner.slot) = slot := by omega
    rwa [hsum] at hleads
  | staticArray =>
    refine ⟨hr, ?_, .between⟩
    intro t ht
    rcases List.mem_append.1 ht with ht | ht
    · obtain ⟨slot, -, rfl⟩ := List.mem_map.1 ht
      exact ha (.staticArray _) List.mem_cons_self
    · exact ha t (List.mem_cons_of_mem _ ht)
  | skip => exact ⟨hr, fun t ht => ha t (List.mem_cons_of_mem _ ht), .between⟩
  | search =>
    have hroot := ha (.root _) List.mem_cons_self
    refine ⟨hr, fun t ht => ha t (List.mem_cons_of_mem _ ht),
      .within hroot ⟨hr, ?_, ?_, .waiting⟩⟩
    · intro i hi
      cases List.mem_singleton.1 hi
      exact Scene.stands_rootItem hroot
    · intro i hi
      exact absurd hi (by simp [Search.ofRoot, Scene.beginHunt])
  | inside st =>
    cases hs with
    | within hroot ht =>
      have ht := ht.step (Layout.mem_descriptors_of_root hroot) st
      exact ⟨ht.results, ha, .within hroot ht⟩
  | leave => exact ⟨hr, ha, .between⟩

theorem traced_of_reaches (h : s.Reaches e) : Traced s e := by
  induction h with
  | refl => exact traced_start
  | tail _ st ih => exact ih.step st

end Engine

namespace Scene

theorem Replays.renoted {slot : Int} {m m' : Match} (h : s.Replays slot m) (hr : m.Renoted m') :
    s.Replays slot m' := by
  rcases hr with rfl | ⟨-, note, rfl⟩
  · exact h
  · exact h

/-- The path of each match that a run reports, other than for slots that are not resolved, leads
from a variable with its name to its slot. -/
theorem run_replays {results : List (Int × List Match)} (h : s.run = .ok results) {slot : Int}
    {ms : List Match} {m : Match} (hs : (slot, ms) ∈ results) (hm : m ∈ ms)
    (hk : m.kind ≠ .unresolved) : s.Replays slot m := by
  obtain ⟨r, -, -, hp, -⟩ := run_cases h
  rcases mem_run h hp hs with ⟨recorded, hg, hr⟩ | ⟨-, note, -, rfl⟩
  · have ht := Engine.traced_of_reaches (Engine.passes_steps hp)
    obtain ⟨m₀, hm₀, hren⟩ := Match.Renoted.exists_mem hr hm
    exact (ht.results slot recorded hg m₀ hm₀).renoted hren
  · cases List.mem_singleton.1 hm
    exact absurd rfl hk

theorem run_replays_sample : ∃ results ms m, (sample .standard).run = .ok results ∧
    (sampleItems + 1, ms) ∈ results ∧ m ∈ ms ∧ m.kind = .mapping ∧ m.path.length = 2 ∧
    (sample .standard).Replays (sampleItems + 1) m := by
  obtain ⟨results, h, hk⟩ : ∃ results, (sample .standard).run = .ok results ∧
      (results.map fun e => (e.1, e.2.map fun m => (m.kind, m.path.length))) =
        [(0, [(.exact, 0)]), (7, [(.unresolved, 0)]), (sampleItems + 1, [(.mapping, 2)]),
          (sampleList, [(.mapping, 2)])] :=
    exists_ok_of_toOption (by decide +kernel)
  have hm : (sampleItems + 1, [(MatchKind.mapping, 2)]) ∈
      results.map fun e => (e.1, e.2.map fun m => (m.kind, m.path.length)) := by
    rw [hk]
    simp
  obtain ⟨m, hms, he⟩ := exists_single hm
  obtain ⟨hkind, hpath⟩ := Prod.mk.inj he
  have hu : m.kind ≠ .unresolved := by
    rw [hkind]
    simp
  exact ⟨results, [m], m, h, hms, List.mem_singleton_self m, hkind, hpath,
    run_replays h hms (List.mem_singleton_self m) hu⟩

end Scene

end SlotLens

import SlotLens.Proofs.Layout.Emitted
import SlotLens.Proofs.Search.Removal
import SlotLens.Proofs.Search.Replay

namespace SlotLens

namespace Slot

variable {base : Int}

theorem exists_encode (h : InSpace base) : ∃ bytes, encode base = .ok bytes := ⟨_, if_pos h⟩

theorem exists_ofKey (h : InSpace base) (raw : List UInt8) :
    ∃ derived, ofKey raw base = .ok derived := exists_map (exists_encode h)

theorem exists_ofData (h : InSpace base) : ∃ data, ofData base = .ok data :=
  exists_map (exists_encode h)

end Slot

theorem Hunt.exists_claimEach {owner : Descriptor} {path : Path} {kind : MatchKind}
    {note : Int → Option String} {locate : Int → Except Fault (List Located)}
    (hl : ∀ slot, ∃ located, locate slot = .ok located) (slots : List Int) (h : Hunt) :
    ∃ h', claimEach owner path kind note locate slots h = .ok h' := by
  induction slots generalizing h with
  | nil => exact ⟨h, rfl⟩
  | cons slot slots ih => exact exists_bind (hl slot) fun located _ => ih _

structure WorkItem.Ready (i : WorkItem) : Prop where
  emitted : i.container.Emitted
  inSpace : Slot.InSpace i.base

def Run.Named (r : Run) : Prop := ∀ key ∈ r.tallies.keys, ∃ label, key = .text label

namespace Scene

variable {s : Scene} {owner value element : Descriptor} {item i : WorkItem} {keyType : Value}
  {r : Run} {root : Root}

section Explore

theorem Places.emitted {outer : Site} {place : Int} (hp : s.Places outer value place)
    (h : outer.container.Emitted) : value.Emitted := by
  cases hp with
  | value => exact h.2
  | element => exact h

theorem ready_of_below (h : item.Ready) (hb : s.Below item i) : i.Ready := by
  obtain ⟨value, place, hp, c, hc, hsite⟩ := hb.inside
  obtain ⟨container, base, level, path⟩ := i
  cases hsite
  exact ⟨(Descriptor.emitted_of_mem_containers value (hp.emitted h.emitted) hc).1,
    Slot.wrap_nonneg _, Slot.wrap_lt _⟩

theorem exists_tryKey (hb : Slot.InSpace item.base)
    (hk : keyType = .null ∨ Field.IsDecodable keyType none) (hv : value.Emitted) (c : Candidate)
    (h : Hunt) : ∃ h', s.tryKey owner item keyType value c h = .ok h' := by
  refine exists_bind (Slot.exists_ofKey hb c.raw) fun derived _ => ?_
  dsimp only
  split
  · exact ⟨h, rfl⟩
  · refine exists_bind (Field.exists_decodeKey hk c.raw) fun key _ => exists_bind ?_ fun _ _ =>
      ⟨_, rfl⟩
    rw [claimValue_eq]
    exact Hunt.exists_claimEach (fun slot => hv.locates.locate (slot - derived)) _ h

theorem exists_expandMapping (hb : Slot.InSpace item.base)
    (hk : keyType = .null ∨ Field.IsDecodable keyType none) (hv : value.Emitted)
    (rest : List Candidate) (h : Hunt) :
    ∃ h', s.expandMapping owner item keyType value rest h = .ok h' := by
  induction rest generalizing h with
  | nil => exact ⟨h, rfl⟩
  | cons c rest ih =>
    rw [expandMapping]
    split
    · exact ⟨h, rfl⟩
    · split
      next h₁ ok hp =>
      cases ok with
      | false => exact ⟨h₁, rfl⟩
      | true => exact exists_bind (exists_tryKey hb hk hv c h₁) fun h₂ _ => ih h₂

theorem exists_expandArray (hb : Slot.InSpace item.base)
    (ha : item.container.element? = some element) (hl : element.Locates) (ahead : Nat) (h : Hunt) :
    ∃ h', s.expandArray owner item element ahead h = .ok h' := by
  rw [expandArray]
  split
  · exact ⟨h, rfl⟩
  · next length _ =>
    refine exists_bind (Slot.exists_ofData hb) fun data _ =>
      exists_bind (Descriptor.exists_spanOf hl length) fun span _ =>
        exists_bind ?_ fun _ _ => ⟨_, rfl⟩
    rw [claimElements_eq]
    refine Hunt.exists_claimEach (fun slot => ?_) _ h
    refine Descriptor.exists_locateElement (fun other ho => ?_) (slot - data) length
    cases ha.symm.trans ho
    exact hl

theorem exists_expandBytes (hb : Slot.InSpace item.base) (entry : Entry) (h : Hunt) :
    ∃ h', s.expandBytes owner item entry h = .ok h' := by
  rw [expandBytes]
  split
  · exact ⟨h, rfl⟩
  · exact exists_bind (Slot.exists_ofData hb) fun _ _ => ⟨_, rfl⟩

theorem exists_expand (hi : item.Ready) (ahead : Nat) (h : Hunt) :
    ∃ h', s.expand owner item ahead h = .ok h' := by
  obtain ⟨he, hb⟩ := hi
  rw [expand]
  split
  · next hm =>
    rw [hm] at he
    exact exists_expandMapping hb he.1 he.2 _ h
  · next ha =>
    refine exists_expandArray hb (by rw [ha]; rfl) ?_ ahead h
    rw [ha] at he
    exact Descriptor.Emitted.locates he
  · exact exists_expandBytes hb _ h
  · exact ⟨h, rfl⟩

theorem exists_exploreLevel (items : List WorkItem) (hi : ∀ i ∈ items, i.Ready) (h : Hunt) :
    ∃ reached, s.exploreLevel owner items h = .ok reached := by
  induction items generalizing h with
  | nil => exact ⟨(h, true), rfl⟩
  | cons item rest ih =>
    rw [exploreLevel]
    split
    · exact ⟨(h, false), rfl⟩
    · split
      next h₁ ok hp =>
      cases ok with
      | false => exact ⟨(h₁, false), rfl⟩
      | true =>
        exact exists_bind (exists_expand (hi item List.mem_cons_self) rest.length h₁) fun h₂ _ =>
          ih (fun i hm => hi i (List.mem_cons_of_mem _ hm)) h₂

theorem exists_exploreLevels (levels : Nat) (items : List WorkItem) (hi : ∀ i ∈ items, i.Ready)
    (h : Hunt) : ∃ h', s.exploreLevels owner levels items h = .ok h' := by
  induction levels generalizing items h with
  | zero => exact ⟨h, rfl⟩
  | succ levels ih =>
    rw [exploreLevels]
    split
    · exact ⟨h, rfl⟩
    · refine exists_bind (exists_exploreLevel items hi _) ?_
      rintro ⟨h₁, goesOn⟩ hl
      -- The queue was emptied before the level, so all that waits lies inside its containers.
      have hnext : ∀ i ∈ h₁.next.toList, i.Ready :=
        Search.exploreLevel_next (fun item hm i hb => ready_of_below (hi item hm) hb) (by simp) hl
      cases goesOn with
      | false => exact ⟨h₁, rfl⟩
      | true => exact ih h₁.next.toList hnext h₁

theorem exists_exploreRoot (hl : s.layout.Emitted) (hr : root ∈ s.layout.roots) (h : Hunt) :
    ∃ h', s.exploreRoot root h = .ok h' := by
  obtain ⟨he, hb⟩ := hl.root hr
  refine exists_exploreLevels _ _ (fun i hi => ?_) h
  cases List.mem_singleton.1 hi
  exact ⟨he, hb⟩

end Explore

section Passes

theorem exists_matchRoot (hl : s.layout.Emitted) (hr : root ∈ s.layout.roots) (hn : r.Named) :
    ∃ r', s.matchRoot r root = .ok r' ∧ r'.Named := by
  rw [matchRoot]
  split
  · exact ⟨r, rfl, hn⟩
  · obtain ⟨label, hlabel⟩ := (hl _ (Layout.mem_descriptors_of_root hr)).label
    obtain ⟨h, hh⟩ :=
      exists_exploreRoot hl hr (beginHunt r ((r.tallies.get? (.text label)).getD .zero))
    have hkey : LabelKey.ofValue root.variableDescriptor.label = .ok (.text label) := by
      rw [hlabel]
      rfl
    refine ⟨_, bind_eq_ok.2 ⟨.text label, liftM_eq_ok.2 hkey, bind_eq_ok.2 ⟨h, hh, rfl⟩⟩, ?_⟩
    intro key hk
    rw [Table.keys_insert] at hk
    split at hk
    · exact hn key hk
    · rcases List.mem_append.1 hk with hk | hk
      · exact hn key hk
      · exact ⟨label, List.mem_singleton.1 hk⟩

theorem exists_matchRoots (hl : s.layout.Emitted) {roots : List Root}
    (hr : ∀ root ∈ roots, root ∈ s.layout.roots) (hn : r.Named) :
    ∃ r', roots.foldlM s.matchRoot r = .ok r' ∧ r'.Named :=
  exists_foldlM (fun root hm _ hn => exists_matchRoot hl (hr root hm) hn) hn

theorem exists_claimFixed (ho : owner.Emitted) (kind : MatchKind) (slot : Int) (hn : r.Named) :
    ∃ r', claimFixed owner kind slot r = .ok r' ∧ r'.Named := by
  obtain ⟨located, hl⟩ := ho.locates.locate (slot - owner.slot)
  exact ⟨_, bind_eq_ok.2 ⟨located, hl, rfl⟩, hn⟩

theorem exists_matchExact (hl : s.layout.Emitted) (hn : r.Named) :
    ∃ r', s.matchExact r = .ok r' ∧ r'.Named :=
  exists_foldlM (fun slot _ _ hn => exists_foldlM (fun owner ho _ hn =>
    exists_claimFixed (hl owner (List.mem_filter.1 ho).1).emitted .exact slot hn) hn) hn

theorem exists_matchStaticArray (ho : owner.Emitted) (hn : r.Named) :
    ∃ r', matchStaticArray r owner = .ok r' ∧ r'.Named :=
  exists_foldlM (fun slot _ _ hn => exists_claimFixed ho .array slot hn) hn

theorem exists_matchArrays (hl : s.layout.Emitted) (hn : r.Named) :
    ∃ r', s.matchArrays r = .ok r' ∧ r'.Named := by
  obtain ⟨r₁, h₁, hn₁⟩ := exists_foldlM (fun owner (ho : owner ∈ s.layout.staticArrays) _ hn =>
    exists_matchStaticArray (hl owner (List.mem_filter.1 ho).1).emitted hn) hn
  have hroots : ∀ root ∈ s.layout.arrayRoots ++ s.layout.bytesRoots, root ∈ s.layout.roots := by
    intro root hr
    rcases List.mem_append.1 hr with hr | hr <;> exact (List.mem_filter.1 hr).1
  obtain ⟨r₂, h₂, hn₂⟩ := exists_matchRoots hl hroots hn₁
  exact ⟨r₂, bind_eq_ok.2 ⟨r₁, h₁, h₂⟩, hn₂⟩

theorem exists_passes (hl : s.layout.Emitted) : ∃ r, s.passes = .ok r ∧ r.Named := by
  have hstart : s.start.Named := fun key hk => absurd hk List.not_mem_nil
  obtain ⟨r₁, h₁, hn₁⟩ := exists_matchExact hl hstart
  have hmappings : ∀ root ∈ s.layout.mappingRoots, root ∈ s.layout.roots :=
    fun root hr => (List.mem_filter.1 hr).1
  obtain ⟨r₂, h₂, hn₂⟩ := exists_matchRoots hl hmappings hn₁
  obtain ⟨r₃, h₃, hn₃⟩ := exists_matchArrays hl hn₂
  exact ⟨r₃, bind_eq_ok.2 ⟨r₂, bind_eq_ok.2 ⟨r₁, h₁, h₂⟩, h₃⟩, hn₃⟩

end Passes

section Report

variable {found : List Hypothesis} {slot : Int} {ms : List Match}

theorem exists_hypotheses (hl : s.layout.Emitted) : ∃ found, s.hypotheses = .ok found := by
  refine exists_bind (exists_mapM.2 fun root hr => ?_) fun _ _ => ⟨_, rfl⟩
  split
  · exact ⟨none, rfl⟩
  · split
    · exact ⟨none, rfl⟩
    · exact exists_map (Slot.exists_ofData (hl.root (List.mem_filter.1 hr).1).2)

theorem explains_of_emitted (hl : s.layout.Emitted) : s.Explains := by
  refine explains_of_locates (fun d hd => (hl d hd).label) fun root hr element he => ?_
  have hroot := (hl.root (List.mem_filter.1 hr).1).1
  exact (hroot.of_element? he).locates

theorem exists_markSlot_of_names (hm : ∀ m ∈ ms, ∃ label, m.name = .text label)
    (hy : ∀ y ∈ found, ∃ explained, y.explain slot = .ok explained) :
    ∃ ms', markSlot found slot ms = .ok ms' := by
  rw [markSlot]
  split
  · obtain ⟨explained, he, -⟩ := exists_explainFirst hy
    refine exists_bind ⟨explained, he⟩ fun explained _ => ?_
    cases explained with
    | none => exact ⟨ms, rfl⟩
    | some other =>
      refine exists_mapM.2 fun m hmem => exists_liftM ?_
      rw [markMatch]
      split
      · exact exists_bind (exists_render.2 (hm m hmem)) fun _ _ => ⟨_, rfl⟩
      · exact ⟨m, rfl⟩
  · exact ⟨ms, rfl⟩

theorem exists_unresolvedNote_of_named (hn : r.Named) (b : Bounds) :
    ∃ note, unresolvedNote b r.tallies = .ok note := by
  have labels (holds : Tally → Bool) : ∃ texts, labelsWhere holds r.tallies = .ok texts := by
    refine exists_bind (exists_mapM.2 fun e he => ?_) fun _ _ => ⟨_, rfl⟩
    obtain ⟨label, hlabel⟩ := hn e.1 (List.mem_map_of_mem (List.mem_filter.1 he).1)
    rw [hlabel]
    exact ⟨label, rfl⟩
  exact exists_bind (labels Tally.limitHit) fun _ _ =>
    exists_bind (labels Tally.depthHit) fun _ _ => ⟨_, rfl⟩

theorem exists_unresolved_of_named (hn : r.Named) : ∃ others, s.unresolved r = .ok others := by
  rw [unresolved]
  split
  · exact ⟨[], rfl⟩
  · exact exists_bind (exists_unresolvedNote_of_named hn s.bounds) fun _ _ => ⟨_, rfl⟩

/-- Whatever was observed, every slot of an emitted layout gets its matches. -/
theorem exists_run (hl : s.layout.Emitted) : ∃ results, s.run = .ok results := by
  obtain ⟨r, hp, hn⟩ := exists_passes hl
  -- A note repeats the expression of its match, so every match needs the label of a variable.
  have hreplay := (Engine.traced_of_reaches (Engine.passes_steps hp)).results
  have hmark : ∃ marked, s.markAmbiguous r.results.entries = .ok marked := by
    refine exists_bind (exists_hypotheses hl) fun found hf =>
      exists_mapM.2 fun e he => exists_map ?_
    refine exists_markSlot_of_names (fun m hm => ?_) fun y hy =>
      explains_of_emitted hl found hf y hy e.1
    obtain ⟨v, hv, leaf, hlabel, -⟩ := hreplay e.1 e.2 (Table.get?_eq_some.2 he) m hm
    exact hlabel ▸ (hl v hv).label
  obtain ⟨marked, hmarked⟩ := hmark
  obtain ⟨others, ho⟩ := exists_unresolved_of_named (s := s) hn
  exact ⟨_, bind_eq_ok.2 ⟨r, hp, bind_eq_ok.2 ⟨marked, hmarked,
    bind_eq_ok.2 ⟨others, liftM_eq_ok.2 ho, rfl⟩⟩⟩⟩

end Report

end Scene

end SlotLens

import SlotLens.Proofs.Layout.Stored
import SlotLens.Proofs.Search.Erasure
import SlotLens.Proofs.Search.Limit

namespace SlotLens

variable {s : Scene} {l : Layout} {v : Descriptor} {r r' : Run}

def Match.unnoted (m : Match) : Match := { m with note := none }

def unnoted (results : List (Int × List Match)) : List (Int × List Match) :=
  results.map fun e => (e.1, e.2.map Match.unnoted)

def Run.shown (r : Run) : List (Int × List Match) :=
  sortBy Prod.fst (unnoted (r.results.entries ++
    r.remaining.map fun slot => (slot, [Match.unresolved slot ""])))

namespace Layout

/-- The second layout lacks variables with the label of `v`, and keeps only variables that are not
counted together with `v`. -/
abbrev Omits (l l' : Layout) (v : Descriptor) : Prop :=
  Drops (·.label = v.label) (¬ ·.SharesTally v) l.descriptors l'.descriptors

theorem Omits.roots {l' : Layout} (hd : l.Omits l' v) :
    Drops (·.variableDescriptor.label = v.label) (¬ ·.variableDescriptor.SharesTally v)
      l.roots l'.roots := by
  refine hd.flatMap (fun d hd root hr => ?_) fun d hd root hr => ?_ <;>
    · obtain ⟨c, -, rfl⟩ := List.mem_map.1 hr
      exact hd

theorem mem_arrayRoots_of_subset {l' : Layout} (hd : ∀ d ∈ l.descriptors, d ∈ l'.descriptors)
    {root : Root} (hr : root ∈ l.arrayRoots) : root ∈ l'.arrayRoots := by
  obtain ⟨hr, hk⟩ := List.mem_filter.1 hr
  obtain ⟨d, hd', hr⟩ := List.mem_flatMap.1 hr
  exact List.mem_filter.2 ⟨List.mem_flatMap.2 ⟨d, hd d hd', hr⟩, hk⟩

end Layout

namespace Scene

section Passes

theorem claims_without {β : Type} {kept : β → Prop} {owner : β → Descriptor} {slot : β → Int}
    {kind : MatchKind} {items others : List β}
    (hd : Drops (fun b => (owner b).label = v.label) kept items others) (hk : kind ≠ .unresolved)
    (hf : items.foldlM (fun r b => claimFixed (owner b) kind (slot b) r) r = .ok r')
    (hn : ¬ Mentions r'.results v.label) : ¬ Mentions r.results v.label ∧
      others.foldlM (fun r b => claimFixed (owner b) kind (slot b) r) (r.without v.label) =
        .ok (r'.without v.label) := by
  refine hd.foldlM (g := fun r b => claimFixed (owner b) kind (slot b) r) (·.without v.label)
    (¬ Mentions ·.results v.label) (fun r b r' hf => mt (claimFixed_mentions hf))
    (fun r b r' _ hf _ => claimFixed_without hf) (fun r b r' hb hf hn => ?_) hf hn
  rw [claimFixed_silent hf hk (hb ▸ hn)]

theorem matchExact_without {l' : Layout} (hd : s.layout.Omits l' v)
    (hm : s.matchExact r = .ok r') (hn : ¬ Mentions r'.results v.label) :
    ¬ Mentions r.results v.label ∧
      (s.withLayout l').matchExact (r.without v.label) = .ok (r'.without v.label) := by
  have hslot (slot : Int) {r r' : Run} (hf : (s.layout.variablesAt slot).foldlM
      (fun r owner => claimFixed owner .exact slot r) r = .ok r')
      (hn : ¬ Mentions r'.results v.label) := claims_without (hd.filter _) (by simp) hf hn
  have hkept : Drops (fun _ => False) (fun _ => True) r.remaining r.remaining :=
    .of_kept fun _ _ => trivial
  rw [matchExact, Run.without_remaining]
  exact hkept.foldlM (g := fun r slot => (l'.variablesAt slot).foldlM
      (fun r owner => claimFixed owner .exact slot r) r)
    (·.without v.label) (¬ Mentions ·.results v.label) (fun r slot r' hf hn => (hslot slot hf hn).1)
    (fun r slot r' _ hf hn => (hslot slot hf hn).2) (fun _ _ _ hb => hb.elim) hm hn

theorem roots_without {roots others : List Root}
    (hd : Drops (·.variableDescriptor.label = v.label) (¬ ·.variableDescriptor.SharesTally v)
      roots others)
    (hm : roots.foldlM s.matchRoot r = .ok r') (hn : ¬ Mentions r'.results v.label) :
    ¬ Mentions r.results v.label ∧
      others.foldlM (s.withLayout l).matchRoot (r.without v.label) = .ok (r'.without v.label) := by
  refine hd.foldlM (·.without v.label) (¬ Mentions ·.results v.label)
    (fun r root r' hm => mt (matchRoot_mentions hm))
    (fun r root r' hk hm _ => matchRoot_without hk hm) (fun r root r' hlabel hm hn => ?_) hm hn
  rw [← hlabel] at hn ⊢
  exact matchRoot_silent hm hn

theorem matchStaticArray_without {owner : Descriptor} (hm : matchStaticArray r owner = .ok r')
    (hn : ¬ Mentions r'.results v.label) : ¬ Mentions r.results v.label ∧
      matchStaticArray (r.without v.label) owner = .ok (r'.without v.label) := by
  have hkept : Drops (fun _ => owner.label = v.label) (fun _ => True)
      ((beginHunt r .zero).hits owner.slot owner.slotCount)
      ((beginHunt (r.without v.label) .zero).hits owner.slot owner.slotCount) := by
    simp only [Hunt.hits, beginHunt, Run.without_remaining]
    exact .of_kept fun _ _ => trivial
  exact claims_without hkept (by simp) hm hn

theorem matchStaticArray_silent {owner : Descriptor} (hm : matchStaticArray r owner = .ok r')
    (hlabel : owner.label = v.label) (hn : ¬ Mentions r'.results v.label) :
    r'.without v.label = r.without v.label := by
  have hout : Drops (fun _ => owner.label = v.label) (fun _ => True)
      ((beginHunt r .zero).hits owner.slot owner.slotCount) [] := .of_out fun _ _ => hlabel
  exact (Except.ok.inj (claims_without hout (by simp) hm hn).2).symm

theorem matchArrays_without {l' : Layout} (hd : s.layout.Omits l' v)
    (hm : s.matchArrays r = .ok r') (hn : ¬ Mentions r'.results v.label) :
    ¬ Mentions r.results v.label ∧
      (s.withLayout l').matchArrays (r.without v.label) = .ok (r'.without v.label) := by
  rw [matchArrays, bind_eq_ok] at hm
  obtain ⟨r₁, hs, hm⟩ := hm
  have hroots := hd.roots
  obtain ⟨hn₁, hrest⟩ := roots_without (l := l') ((hroots.filter _).append (hroots.filter _)) hm hn
  obtain ⟨hn₀, hstatic⟩ := (hd.filter (·.kind == .staticArray)).foldlM (·.without v.label)
    (¬ Mentions ·.results v.label)
    (fun r owner r' hm hn => (matchStaticArray_without hm hn).1)
    (fun r owner r' _ hm hn => (matchStaticArray_without hm hn).2)
    (fun r owner r' hlabel hm hn => matchStaticArray_silent hm hlabel hn) hs hn₁
  refine ⟨hn₀, ?_⟩
  rw [matchArrays, bind_eq_ok]
  exact ⟨_, hstatic, hrest⟩

theorem passes_without {l' : Layout} (hd : s.layout.Omits l' v) (hp : s.passes = .ok r)
    (hn : ¬ Mentions r.results v.label) : (s.withLayout l').passes = .ok (r.without v.label) := by
  simp only [passes, bind_eq_ok] at hp ⊢
  obtain ⟨r₁, ⟨r₀, he, hm⟩, ha⟩ := hp
  -- From the last pass to the first, since only the end is known not to mention the variable.
  obtain ⟨hn₁, ha'⟩ := matchArrays_without hd ha hn
  obtain ⟨hn₀, hm'⟩ := roots_without (l := l') (hd.roots.filter _) hm hn₁
  obtain ⟨-, he'⟩ := matchExact_without hd he hn₀
  have hstart : s.start.without v.label = (s.withLayout l').start := by
    unfold Run.without
    split <;> rfl
  rw [hstart] at he'
  exact ⟨_, ⟨_, he', hm'⟩, ha'⟩

end Passes

section Report

variable {results : List (Int × List Match)}

theorem unnoted_append {others : List (Int × List Match)} :
    unnoted (results ++ others) = unnoted results ++ unnoted others := List.map_append

theorem unnoted_of_reported {marked : List (Int × List Match)}
    (h : List.Forall₂ Reported results marked) : unnoted marked = unnoted results := by
  have hlist {ms ms' : List Match} (h : List.Forall₂ Match.Renoted ms ms') :
      ms'.map Match.unnoted = ms.map Match.unnoted := by
    induction h with
    | nil => rfl
    | cons hm _ ih =>
      rw [List.map_cons, List.map_cons, ih]
      rcases hm with rfl | ⟨-, note, rfl⟩ <;> rfl
  induction h with
  | nil => rfl
  | cons he _ ih =>
    rw [unnoted, List.map_cons, he.1, hlist he.2]
    exact congrArg (_ :: ·) ih

theorem unnoted_of_run (h : s.run = .ok results) (hp : s.passes = .ok r) :
    unnoted results = r.shown := by
  obtain ⟨r', marked, others, hp', hm, ho, rfl⟩ := run_cases h
  cases hp.symm.trans hp'
  have hothers : unnoted others =
      unnoted (r.remaining.map fun slot => (slot, [Match.unresolved slot ""])) := by
    rcases unresolved_cases ho with ⟨hr, rfl⟩ | ⟨-, note, -, rfl⟩
    · rw [hr]
      rfl
    · rw [unnoted, unnoted, List.map_map, List.map_map]
      rfl
  rw [Run.shown, unnoted_append, ← hothers, ← unnoted_of_reported (markAmbiguous_reported hm),
    ← unnoted_append, unnoted, unnoted, sortBy_map]

theorem mentions_of_run {label : Value} (h : s.run = .ok results) (hp : s.passes = .ok r)
    (hm : Mentions r.results label) :
    ∃ e ∈ results, ∃ m ∈ e.2, m.kind ≠ .unresolved ∧ m.name = label := by
  obtain ⟨slot, ms, hg, m, hmem, hname, hkind⟩ := hm
  have hshown : (slot, ms.map Match.unnoted) ∈ unnoted results := by
    rw [unnoted_of_run h hp, Run.shown, (perm_sortBy _ _).mem_iff]
    exact List.mem_map.2 ⟨(slot, ms), List.mem_append_left _ (Table.get?_eq_some.1 hg), rfl⟩
  obtain ⟨e, he, heq⟩ := List.mem_map.1 hshown
  have hm' : m.unnoted ∈ e.2.map Match.unnoted := by
    rw [(Prod.mk.inj heq).2]
    exact List.mem_map.2 ⟨m, hmem, rfl⟩
  obtain ⟨m', hmem', hsame⟩ := List.mem_map.1 hm'
  have hkind' : m'.unnoted.kind = m.unnoted.kind := by rw [hsame]
  have hname' : m'.unnoted.name = m.unnoted.name := by rw [hsame]
  exact ⟨e, he, m', hmem', fun hu => hkind (hkind'.symm.trans hu), hname'.trans hname⟩

end Report

section Explained

/-- Each array that may explain a slot as well says whether it does. -/
def Explains (s : Scene) : Prop :=
  ∀ found, s.hypotheses = .ok found → ∀ y ∈ found, ∀ slot, ∃ explained,
    y.explain slot = .ok explained

variable {found found' : List Hypothesis} {slot : Int} {ms ms' : List Match}

theorem root_of_mem_hypotheses {y : Hypothesis} (hf : s.hypotheses = .ok found) (hy : y ∈ found) :
    y.root ∈ s.layout.arrayRoots := by
  obtain ⟨all, hall, rfl⟩ := hypotheses_cases hf
  obtain ⟨_, hmem, rfl⟩ := List.mem_filterMap.1 hy
  obtain ⟨root, hr, hconsidered⟩ := exists_of_forall₂ hall hmem
  cases hconsidered
  exact hr

theorem Hypothesis.exists_explain {y : Hypothesis} {label : String}
    (hl : y.root.variableDescriptor.label = .text label)
    (he : ∀ element ∈ y.root.container.element?, element.Locates) :
    ∃ explained, y.explain slot = .ok explained := by
  rw [Hypothesis.explain]
  split
  · exact ⟨none, rfl⟩
  · refine exists_bind (Descriptor.exists_dataSlotCount he y.length) fun span _ => ?_
    split
    · exact ⟨none, rfl⟩
    · refine exists_bind (Descriptor.exists_locateElement he _ y.length) fun located _ => ?_
      cases located with
      | nil => exact ⟨none, rfl⟩
      | cons l located =>
        exact exists_bind (exists_liftM (exists_render.2 ⟨label, hl⟩)) fun _ _ => ⟨_, rfl⟩

theorem explains_of_locates (hl : ∀ d ∈ s.layout.descriptors, ∃ label, d.label = .text label)
    (he : ∀ root ∈ s.layout.arrayRoots, ∀ element ∈ root.container.element?, element.Locates) :
    s.Explains := by
  intro found hf y hy slot
  have hr := root_of_mem_hypotheses hf hy
  obtain ⟨label, hlabel⟩ := hl _ (Layout.mem_descriptors_of_root (List.mem_filter.1 hr).1)
  exact Hypothesis.exists_explain hlabel (he y.root hr)

theorem explains_of_wellFormed (hl : ∀ d ∈ s.layout.descriptors, ∃ label, d.label = .text label)
    (hw : ∀ root ∈ s.layout.arrayRoots, ∀ element ∈ root.container.element?, element.WellFormed) :
    s.Explains :=
  explains_of_locates hl fun root hr element he => (hw root hr element he).locates

theorem exists_explainFirst (h : ∀ y ∈ found, ∃ explained, y.explain slot = .ok explained) :
    ∃ explained, explainFirst slot found = .ok explained ∧
      (explained = none ↔ ∀ y ∈ found, y.explain slot = .ok none) := by
  induction found with
  | nil => exact ⟨none, rfl, by simp⟩
  | cons y found ih =>
    obtain ⟨hy, h⟩ := List.forall_mem_cons.1 h
    obtain ⟨explained, hy⟩ := hy
    rw [explainFirst, hy]
    cases explained with
    | none =>
      obtain ⟨explained, hrest, hnone⟩ := ih h
      exact ⟨explained, hrest, hnone.trans (by simp [hy])⟩
    | some expression => exact ⟨some expression, rfl, by simp [hy]⟩

theorem hypotheses_withLayout (hs : ∀ root ∈ l.arrayRoots, root ∈ s.layout.arrayRoots)
    (h : s.hypotheses = .ok found) :
    ∃ found', (s.withLayout l).hypotheses = .ok found' ∧ ∀ y ∈ found', y ∈ found := by
  rw [hypotheses, bind_eq_ok] at h
  obtain ⟨all, hall, h⟩ := h
  cases pure_eq_ok.1 h
  obtain ⟨some', hsome⟩ := exists_mapM.2 fun root hr => exists_mapM.1 ⟨all, hall⟩ root (hs root hr)
  refine ⟨some'.filterMap id, ?_, fun y hy => ?_⟩
  · rw [hypotheses, bind_eq_ok]
    exact ⟨some', hsome, rfl⟩
  · obtain ⟨_, hmem, rfl⟩ := List.mem_filterMap.1 hy
    obtain ⟨root, hr, he⟩ := (mem_of_mapM hsome).1 hmem
    exact List.mem_filterMap.2 ⟨_, (mem_of_mapM hall).2 ⟨root, hs root hr, he⟩, rfl⟩

theorem exists_markMatch {other : String} {m : Match} (other' : String)
    (h : ∃ m', markMatch other m = .ok m') : ∃ m', markMatch other' m = .ok m' := by
  obtain ⟨m', h⟩ := h
  unfold markMatch at h ⊢
  split at h
  · next hk =>
    obtain ⟨text, ht, -⟩ := bind_eq_ok.1 h
    rw [if_pos hk]
    exact ⟨_, bind_eq_ok.2 ⟨text, ht, rfl⟩⟩
  · next hk =>
    rw [if_neg hk]
    exact ⟨m, rfl⟩

theorem exists_markSlot (hy : ∀ y ∈ found, ∃ explained, y.explain slot = .ok explained)
    (hs : ∀ y ∈ found', y ∈ found) (h : markSlot found slot ms = .ok ms') :
    ∃ ms', markSlot found' slot ms = .ok ms' := by
  unfold markSlot at h ⊢
  split at h
  · next hm =>
    rw [if_pos hm]
    obtain ⟨explained, he, h⟩ := bind_eq_ok.1 h
    obtain ⟨_, he', hnone⟩ := exists_explainFirst hy
    cases he.symm.trans he'
    obtain ⟨explained', hf, hnone'⟩ := exists_explainFirst fun y hy' => hy y (hs y hy')
    rw [hf]
    -- What explains the slot among the arrays that are left does so among all of them.
    cases explained' with
    | none => exact ⟨ms, rfl⟩
    | some other' =>
      cases explained with
      | none => cases hnone'.2 fun y hy' => hnone.1 rfl y (hs y hy')
      | some other =>
        refine exists_mapM.2 fun m hm => ?_
        obtain ⟨m', hm'⟩ := exists_mapM.1 ⟨ms', h⟩ m hm
        obtain ⟨m₂, hm₂⟩ := exists_markMatch other' ⟨m', liftM_eq_ok.1 hm'⟩
        exact ⟨m₂, liftM_eq_ok.2 hm₂⟩
  · next hm =>
    rw [if_neg hm]
    exact ⟨ms, rfl⟩

theorem exists_unresolvedNote {b : Bounds} {tallies tallies' : Table LabelKey Tally}
    (hs : ∀ e ∈ tallies'.entries, e ∈ tallies.entries)
    (h : ∃ note, unresolvedNote b tallies = .ok note) :
    ∃ note, unresolvedNote b tallies' = .ok note := by
  have labels {holds : Tally → Bool} (h : ∃ texts, labelsWhere holds tallies = .ok texts) :
      ∃ texts, labelsWhere holds tallies' = .ok texts := by
    obtain ⟨texts, h⟩ := h
    obtain ⟨found, hf, -⟩ := bind_eq_ok.1 h
    obtain ⟨found', hf'⟩ := exists_mapM.2 fun e he => exists_mapM.1 ⟨found, hf⟩ e
      (List.mem_filter.2 ⟨hs e (List.mem_filter.1 he).1, (List.mem_filter.1 he).2⟩)
    exact ⟨_, bind_eq_ok.2 ⟨found', hf', rfl⟩⟩
  obtain ⟨note, h⟩ := h
  obtain ⟨limited, hlimited, h⟩ := bind_eq_ok.1 h
  obtain ⟨deep, hdeep, -⟩ := bind_eq_ok.1 h
  exact exists_bind (labels ⟨limited, hlimited⟩) fun _ _ =>
    exists_bind (labels ⟨deep, hdeep⟩) fun _ _ => ⟨_, rfl⟩

end Explained

section Removal

variable {results : List (Int × List Match)} {front back : List Descriptor}

theorem omits_of_shares (hl : s.layout.descriptors = front ++ v :: back)
    (hv : ∀ d ∈ front ++ back, ¬ d.SharesTally v) : s.layout.Omits ⟨front ++ back⟩ v := by
  rw [Layout.Omits, hl]
  exact .append (.of_kept fun d hd => hv d (List.mem_append_left _ hd))
    (.drop rfl (.of_kept fun d hd => hv d (List.mem_append_right _ hd)))

theorem exists_markAmbiguous {marked : List (Int × List Match)}
    (hd : ∀ d ∈ l.descriptors, d ∈ s.layout.descriptors) (hs : s.Explains)
    (hm : s.markAmbiguous results = .ok marked) :
    ∃ marked', (s.withLayout l).markAmbiguous results = .ok marked' := by
  obtain ⟨found, hf, hm⟩ := bind_eq_ok.1 hm
  obtain ⟨found', hf', hsub⟩ :=
    hypotheses_withLayout (fun _ => Layout.mem_arrayRoots_of_subset hd) hf
  have hslots := exists_mapM.1 ⟨marked, hm⟩
  have hmarked : ∃ marked', results.mapM (fun e => (markSlot found' e.1 e.2).map ((e.1, ·))) =
      .ok marked' := by
    refine exists_mapM.2 fun e he => ?_
    obtain ⟨_, hslot⟩ := hslots e he
    obtain ⟨ms, hms, -⟩ := map_eq_ok.1 hslot
    obtain ⟨ms', hms'⟩ := exists_markSlot (fun y hy => hs found hf y hy e.1) hsub hms
    exact ⟨_, map_eq_ok.2 ⟨ms', hms', rfl⟩⟩
  obtain ⟨marked', hm'⟩ := hmarked
  exact ⟨marked', bind_eq_ok.2 ⟨found', hf', hm'⟩⟩

theorem exists_unresolved {others : List (Int × List Match)} (hr : r'.remaining = r.remaining)
    (ht : ∀ e ∈ r'.tallies.entries, e ∈ r.tallies.entries) (ho : s.unresolved r = .ok others) :
    ∃ others', (s.withLayout l).unresolved r' = .ok others' := by
  rw [unresolved, hr]
  rcases unresolved_cases ho with ⟨hnone, -⟩ | ⟨hn, note, hnote, -⟩
  · rw [hnone]
    exact ⟨[], rfl⟩
  · rw [if_neg (by simpa using hn)]
    obtain ⟨note', hnote'⟩ := exists_unresolvedNote ht ⟨note, hnote⟩
    exact ⟨_, bind_eq_ok.2 ⟨note', hnote', rfl⟩⟩

/-- Where no other variable shares its tally, a variable for which nothing is found can be left out.
The passes end in the same state but for its tally, and the report is the same but for the notes. -/
theorem run_without (hl : s.layout.descriptors = front ++ v :: back)
    (hv : ∀ d ∈ front ++ back, ¬ d.SharesTally v) (h : s.run = .ok results)
    (hn : ∀ e ∈ results, ∀ m ∈ e.2, m.kind ≠ .unresolved → m.name ≠ v.label) :
    (∃ r, s.passes = .ok r ∧ (s.withLayout ⟨front ++ back⟩).passes = .ok (r.without v.label)) ∧
      (∀ results', (s.withLayout ⟨front ++ back⟩).run = .ok results' →
        unnoted results' = unnoted results) ∧
      (s.Explains → ∃ results', (s.withLayout ⟨front ++ back⟩).run = .ok results') := by
  obtain ⟨r, -, -, hp, -⟩ := run_cases h
  have hd := omits_of_shares hl hv
  have hsilent : ¬ Mentions r.results v.label := by
    intro hm
    obtain ⟨e, he, m, hmem, hkind, hname⟩ := mentions_of_run h hp hm
    exact hn e he m hmem hkind hname
  have hp' : (s.withLayout ⟨front ++ back⟩).passes = .ok (r.without v.label) :=
    passes_without hd hp hsilent
  refine ⟨⟨r, hp, hp'⟩, fun results' h' => ?_, fun hs => ?_⟩
  · rw [unnoted_of_run h' hp', unnoted_of_run h hp, Run.shown, Run.shown, Run.without_results,
      Run.without_remaining]
  · obtain ⟨_, marked, others, hp₀, hm, ho, -⟩ := run_cases h
    cases hp.symm.trans hp₀
    obtain ⟨marked', hm'⟩ := exists_markAmbiguous (l := ⟨front ++ back⟩)
      (fun _ hd' => hd.sublist.subset hd') hs hm
    have hr : (r.without v.label).remaining = r.remaining := Run.without_remaining
    obtain ⟨others', ho'⟩ :=
      exists_unresolved (l := ⟨front ++ back⟩) hr Run.mem_tallies_without ho
    rw [← Run.without_results] at hm'
    simp only [run, bind_eq_ok, pure_eq_ok, liftM_eq_ok]
    exact ⟨_, _, hp', marked', hm', others', ho', rfl⟩

end Removal

def twin (label : String) (slot : Int) : Descriptor :=
  .mapping ⟨.text label, "t_mapping", .text "mapping(uint256 => uint256)", slot, 0, 32⟩
    (.text "uint256") (.primitive ⟨.text "", "t_uint256", .text "uint256", 0, 0, 32⟩)

def twinList : Descriptor :=
  .dynamicArray ⟨.text "list", "t_array", .text "uint256[]", 2, 0, 32⟩
    (.primitive ⟨.text "", "t_uint256", .text "uint256", 0, 0, 32⟩)

def twinEntry : Int := Slot.ofHash (crowdKey.raw ++ (Word.ofNat 1).bytes)

def twins (descriptors : List Descriptor) : Scene where
  layout := ⟨descriptors⟩
  observed := Table.ofList [(twinEntry, ⟨Word.ofNat 5, none⟩)]
  candidates := [crowdKey]
  bounds := { Bounds.standard with limit := some 1 }
  lengths := .empty

def spare : Scene :=
  { twins [twin "spare" 0, twin "data" 1, twinList] with lengths := Table.ofList [(2, some 3)] }

theorem run_without_spare : ∃ results results', spare.run = .ok results ∧
    (spare.withLayout ⟨[twin "data" 1, twinList]⟩).run = .ok results' ∧
    (results.map fun e => (e.1, e.2.map fun m => (m.kind, m.name.plain))) =
      [(twinEntry, [(.mapping, "data")])] ∧
    unnoted results' = unnoted results := by
  obtain ⟨results, h, hk⟩ : ∃ results, spare.run = .ok results ∧
      (results.map fun e => (e.1, e.2.map fun m => (m.kind, m.name.plain))) =
        [(twinEntry, [(.mapping, "data")])] :=
    exists_ok_of_toOption (by decide +kernel)
  have hshares : ∀ d ∈ [] ++ [twin "data" 1, twinList], ¬ d.SharesTally (twin "spare" 0) := by
    rintro d hd ⟨key, hkey, hkey'⟩
    cases hkey'
    rcases List.mem_cons.1 hd with rfl | hd
    · exact absurd (LabelKey.text.inj (Except.ok.inj hkey)) (by decide)
    · cases List.mem_singleton.1 hd
      exact absurd (LabelKey.text.inj (Except.ok.inj hkey)) (by decide)
  have hnames : ∀ e ∈ results, ∀ m ∈ e.2, m.kind ≠ .unresolved →
      m.name ≠ (twin "spare" 0).label := by
    intro e he m hm _ hname
    have hshown : (e.1, e.2.map fun m => (m.kind, m.name.plain)) ∈
        [(twinEntry, [(MatchKind.mapping, "data")])] := hk ▸ List.mem_map.2 ⟨e, he, rfl⟩
    have hm' : (m.kind, m.name.plain) ∈ [(MatchKind.mapping, "data")] := by
      rw [← (Prod.mk.inj (List.mem_singleton.1 hshown)).2]
      exact List.mem_map.2 ⟨m, hm, rfl⟩
    have hplain := (Prod.mk.inj (List.mem_singleton.1 hm')).2
    rw [hname] at hplain
    exact absurd hplain (by decide)
  have hexplains : spare.Explains := by
    refine explains_of_wellFormed ?_ ?_
    · intro d hd
      simp only [spare, twins, List.mem_cons, List.not_mem_nil, or_false] at hd
      rcases hd with rfl | rfl | rfl <;> exact ⟨_, rfl⟩
    · intro root hr element he
      cases List.mem_singleton.1 hr
      cases he
      exact ⟨by decide, by decide, by decide⟩
  have hlayout : spare.layout.descriptors =
      [] ++ twin "spare" 0 :: [twin "data" 1, twinList] := rfl
  obtain ⟨-, hsame, hexists⟩ := run_without hlayout hshares h hnames
  obtain ⟨results', h'⟩ := hexists hexplains
  exact ⟨results, results', h, h', hk, hsame results' h'⟩

/-- The first of two mappings with one label uses up the only try, and the second one does not find
the value that it finds on its own. -/
theorem twins_share_tries : ∃ results results',
    (twins [twin "data" 0, twin "data" 1]).run = .ok results ∧
    (twins [twin "data" 1]).run = .ok results' ∧
    (results.map fun e => (e.1, e.2.map (·.kind))) = [(twinEntry, [.unresolved])] ∧
    (results'.map fun e => (e.1, e.2.map (·.kind))) = [(twinEntry, [.mapping])] := by
  obtain ⟨results, h, hk⟩ : ∃ results,
      (twins [twin "data" 0, twin "data" 1]).run = .ok results ∧
      (results.map fun e => (e.1, e.2.map (·.kind))) = [(twinEntry, [.unresolved])] :=
    exists_ok_of_toOption (by decide +kernel)
  obtain ⟨results', h', hk'⟩ : ∃ results', (twins [twin "data" 1]).run = .ok results' ∧
      (results'.map fun e => (e.1, e.2.map (·.kind))) = [(twinEntry, [.mapping])] :=
    exists_ok_of_toOption (by decide +kernel)
  exact ⟨results, results', h, h', hk, hk'⟩

end Scene

end SlotLens

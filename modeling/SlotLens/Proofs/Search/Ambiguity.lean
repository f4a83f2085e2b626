import SlotLens.Proofs.Search.Depth
import SlotLens.Proofs.Search.Elements

namespace SlotLens.Scene

variable {s : Scene} {slot : Int} {root : Root} {roots : List Root} {l : Located}
  {ms ms' : List Match} {results : List (Int × List Match)}

/-- A slot lies among the elements of a dynamic array, and `l` is the first field there. -/
inductive ExplainsAs (s : Scene) (slot : Int) (root : Root) (l : Located) : Prop
  | intro {length data span : Int} {rest : List Located} :
      s.lengthAt root.slot = some length → length ≠ 0 → Slot.ofData root.slot = .ok data →
      root.container.dataSlotCount length = .ok span → 0 ≤ slot - data → slot - data < span →
      root.container.locateElement (slot - data) (some length) = .ok (l :: rest) →
      ExplainsAs s slot root l

inductive FirstExplains (s : Scene) (slot : Int) (roots : List Root) (root : Root) (l : Located) :
    Prop
  | intro {before after : List Root} : roots = before ++ root :: after →
      (∀ earlier ∈ before, ∀ l, ¬ s.ExplainsAs slot earlier l) → s.ExplainsAs slot root l →
      FirstExplains s slot roots root l

def ElementExpression (root : Root) (l : Located) (other : String) : Prop :=
  ∃ i, l.path.head? = some (.index i) ∧
    Path.render root.variableDescriptor.label (root.path ++ [.index i]) = .ok other

/-- What is reported for the matches that the passes set down for a slot. -/
inductive Marks (s : Scene) (slot : Int) (ms : List Match) : List Match → Prop
  | kept : ((∀ m ∈ ms, m.kind ≠ .mapping) ∨
        ∀ root ∈ s.layout.arrayRoots, ∀ l, ¬ s.ExplainsAs slot root l) → Marks s slot ms ms
  | noted {root : Root} {l : Located} {other : String} {ms' : List Match} :
      s.FirstExplains slot s.layout.arrayRoots root l → ElementExpression root l other →
      List.Forall₂ (Match.Noted other) ms ms' → Marks s slot ms ms'

section Hypotheses

theorem not_explainsAs_of_zero
    (h : ∀ length, s.lengthAt root.slot = some length → length = 0) : ¬ s.ExplainsAs slot root l :=
  fun ⟨hlength, hzero, _, _, _, _, _⟩ => hzero (h _ hlength)

variable {y : Hypothesis} {explained : Option String}

theorem Considered.explain_cases (hy : s.Considered root (some y))
    (h : y.explain slot = .ok explained) :
    (explained = none ∧ ∀ l, ¬ s.ExplainsAs slot root l) ∨
      ∃ l other, explained = some other ∧ s.ExplainsAs slot root l ∧
        ElementExpression root l other := by
  cases hy with
  | @asked length data hlength hzero hdata =>
  have same {data' : Int} (hd : Slot.ofData root.slot = .ok data') : data' = data :=
    Except.ok.inj (hd.symm.trans hdata)
  rw [Hypothesis.explain] at h
  dsimp only at h
  split at h
  · next hrel =>
    refine .inl ⟨(pure_eq_ok.1 h).symm, ?_⟩
    rintro l ⟨-, -, hd, -, hnn, -⟩
    cases same hd
    omega
  obtain ⟨span, hspan, h⟩ := bind_eq_ok.1 h
  split at h
  · next hrel =>
    refine .inl ⟨(pure_eq_ok.1 h).symm, ?_⟩
    rintro l ⟨hl, -, hd, hs, -, hlt, -⟩
    cases same hd
    cases hl.symm.trans hlength
    cases hs.symm.trans hspan
    omega
  obtain ⟨located, hlocated, h⟩ := bind_eq_ok.1 h
  cases located with
  | nil =>
    refine .inl ⟨(pure_eq_ok.1 h).symm, ?_⟩
    rintro l ⟨hl, -, hd, -, -, -, hloc⟩
    cases same hd
    cases hl.symm.trans hlength
    cases hlocated.symm.trans hloc
  | cons l rest =>
    obtain ⟨other, hother, h⟩ := bind_eq_ok.1 h
    refine .inr ⟨l, other, (pure_eq_ok.1 h).symm,
      .intro hlength hzero hdata hspan (by omega) (by omega) hlocated, ?_⟩
    obtain ⟨i, path, hpath⟩ := Descriptor.exists_index hlocated List.mem_cons_self
    rw [liftM_eq_ok, hpath] at hother
    exact ⟨i, by rw [hpath]; rfl, hother⟩

theorem explainFirst_cases {all : List (Option Hypothesis)}
    (hall : List.Forall₂ s.Considered roots all)
    (h : explainFirst slot (all.filterMap id) = .ok explained) :
    (explained = none ∧ ∀ root ∈ roots, ∀ l, ¬ s.ExplainsAs slot root l) ∨
      ∃ root l other, explained = some other ∧ s.FirstExplains slot roots root l ∧
        ElementExpression root l other := by
  induction hall with
  | nil =>
    cases h
    exact .inl ⟨rfl, fun root hr => absurd hr List.not_mem_nil⟩
  | @cons root y roots all hy _ ih =>
    have later (hnot : ∀ l, ¬ s.ExplainsAs slot root l)
        (h : explainFirst slot (all.filterMap id) = .ok explained) :
        (explained = none ∧ ∀ other ∈ root :: roots, ∀ l, ¬ s.ExplainsAs slot other l) ∨
          ∃ first l other, explained = some other ∧
            s.FirstExplains slot (root :: roots) first l ∧ ElementExpression first l other := by
      rcases ih h with ⟨rfl, hrest⟩ | ⟨first, l, other, rfl, ⟨hsplit, hbefore, hexplains⟩, hother⟩
      · exact .inl ⟨rfl, List.forall_mem_cons.2 ⟨hnot, hrest⟩⟩
      · exact .inr ⟨first, l, other, rfl, ⟨congrArg (root :: ·) hsplit,
          List.forall_mem_cons.2 ⟨hnot, hbefore⟩, hexplains⟩, hother⟩
    cases y with
    | none =>
      cases hy with
      | skipped hzero => exact later (fun l => not_explainsAs_of_zero hzero) h
    | some y =>
      obtain ⟨here, hhere, h⟩ := bind_eq_ok.1 h
      rcases hy.explain_cases hhere with ⟨rfl, hnot⟩ | ⟨l, other, rfl, hexplains, hother⟩
      · exact later hnot h
      · cases pure_eq_ok.1 h
        exact .inr ⟨root, l, other, rfl,
          ⟨rfl, fun earlier he => absurd he List.not_mem_nil, hexplains⟩, hother⟩

end Hypotheses

theorem markSlot_marks {found : List Hypothesis} (hf : s.hypotheses = .ok found)
    (h : markSlot found slot ms = .ok ms') : s.Marks slot ms ms' := by
  obtain ⟨all, hall, rfl⟩ := hypotheses_cases hf
  rcases markSlot_cases h with ⟨rfl, hk | he⟩ | ⟨other, he, hms⟩
  · exact .kept (.inl hk)
  · rcases explainFirst_cases hall he with ⟨-, hnot⟩ | ⟨-, -, -, ⟨⟩, -⟩
    exact .kept (.inr hnot)
  · rcases explainFirst_cases hall he with ⟨⟨⟩, -⟩ | ⟨root, l, other', hother, hfirst, hexpression⟩
    cases hother
    exact .noted hfirst hexpression hms

theorem markAmbiguous_marks {marked : List (Int × List Match)}
    (h : s.markAmbiguous results = .ok marked) :
    List.Forall₂ (fun recorded reported => reported.1 = recorded.1 ∧
      s.Marks recorded.1 recorded.2 reported.2) results marked := by
  obtain ⟨found, hf, hmarked⟩ := markAmbiguous_cases h
  exact hmarked.imp fun _ _ hm => ⟨hm.1, markSlot_marks hf hm.2⟩

section Notes

def SaysAmbiguous (note : Option String) : Prop := ∃ rest, note = some ("Ambiguous slot" ++ rest)

theorem saysAmbiguous_ambiguityNote (kept other : String) :
    SaysAmbiguous (some (ambiguityNote kept other)) :=
  ⟨_, congrArg some (ambiguityNote_eq kept other)⟩

theorem not_saysAmbiguous_chunkNote (i : Nat) : ¬ SaysAmbiguous (some (chunkNote i)) := by
  rintro ⟨rest, h⟩
  have hfirst := congrArg (fun note => (String.toList note).head?) (Option.some.inj h)
  simp [chunkNote] at hfirst

theorem not_saysAmbiguous_of_get? {r : Run} {m : Match} (hp : s.passes = .ok r)
    (hg : r.results.get? slot = some ms) (hm : m ∈ ms) (hk : m.kind = .mapping) :
    ¬ SaysAmbiguous m.note := by
  obtain ⟨before, after, set, hb, hstep, hend, ho, -, hl, -⟩ :=
    setDownOnce_of_get? hp hg hm (by simp [hk])
  cases (hl _ hend).symm.trans hg
  obtain ⟨v, -, level, path, kind, note, located, hfinds, -, rfl⟩ :=
    Engine.exists_finds hb hstep ho (hl after .refl)
  obtain ⟨l, -, rfl⟩ := List.mem_map.1 ((perm_sortBy _ _).mem_iff.1 hm)
  have hnone : ¬ SaysAmbiguous none := fun ⟨_, h⟩ => nomatch h
  cases hfinds with
  | direct => exact hnone
  | @derived _ _ _ x _ _ _ _ _ _ _ hfinds =>
    generalize x.activity = activity at hfinds
    cases hfinds with
    | field | element => exact hnone
    | chunk => exact not_saysAmbiguous_chunkNote _

end Notes

theorem Marks.saysAmbiguous_iff {m : Match} (h : s.Marks slot ms ms')
    (hn : ∀ m ∈ ms, m.kind = .mapping → ¬ SaysAmbiguous m.note) (hm : m ∈ ms')
    (hk : m.kind = .mapping) :
    SaysAmbiguous m.note ↔ ∃ root ∈ s.layout.arrayRoots, ∃ l, s.ExplainsAs slot root l := by
  cases h with
  | kept h =>
    rcases h with h | h
    · exact absurd hk (h m hm)
    · refine iff_of_false (hn m hm hk) ?_
      rintro ⟨root, hr, l, hl⟩
      exact h root hr l hl
  | @noted root l other _ hfirst _ hms =>
    obtain ⟨hsplit, -, hl⟩ := hfirst
    refine iff_of_true ?_ ⟨root, by simp [hsplit], l, hl⟩
    obtain ⟨m₀, -, hm₀⟩ := exists_of_forall₂ hms hm
    cases hm₀ with
    | kept hx => exact absurd hk hx
    | noted => exact saysAmbiguous_ambiguityNote _ _

/-- A run reports what the passes set down, and notes on the matches of a slot that were derived from
mappings which element explains it as well, by the first array that does. The notes say so exactly
where there is such an array. -/
theorem run_marks (h : s.run = .ok results) : ∃ r marked others, s.passes = .ok r ∧
    s.unresolved r = .ok others ∧ results = sortBy Prod.fst (marked ++ others) ∧
    List.Forall₂ (fun recorded reported => reported.1 = recorded.1 ∧
      s.Marks recorded.1 recorded.2 reported.2) r.results.entries marked ∧
    ∀ slot ms, (slot, ms) ∈ results → ∀ m ∈ ms, m.kind = .mapping →
      (SaysAmbiguous m.note ↔ ∃ root ∈ s.layout.arrayRoots, ∃ l, s.ExplainsAs slot root l) := by
  obtain ⟨r, marked, others, hp, hmarked, ho, rfl⟩ := run_cases h
  refine ⟨r, marked, others, hp, ho, rfl, markAmbiguous_marks hmarked, fun slot ms hs m hm hk => ?_⟩
  rcases List.mem_append.1 ((perm_sortBy _ _).mem_iff.1 hs) with hs | hs
  · obtain ⟨⟨_, recorded⟩, hrecorded, rfl, hmarks⟩ :=
      exists_of_forall₂ (markAmbiguous_marks hmarked) hs
    exact hmarks.saysAmbiguous_iff
      (fun m => not_saysAmbiguous_of_get? hp (Table.get?_eq_some.2 hrecorded)) hm hk
  · rcases unresolved_cases ho with ⟨-, rfl⟩ | ⟨-, note, -, rfl⟩
    · exact absurd hs List.not_mem_nil
    · obtain ⟨_, -, he⟩ := List.mem_map.1 hs
      cases he
      cases List.mem_singleton.1 hm
      cases hk

def overlap : Scene where
  layout := ⟨[ringRoot.container,
    .mapping ⟨.text "amounts", "t_mapping", .text "mapping(address => uint256)", 1, 0, 32⟩
      (.text "address") ringElement]⟩
  observed := Table.ofList [(sampleList, ⟨Word.ofNat 3, none⟩)]
  candidates := [sampleKey]
  bounds := .standard
  lengths := Table.ofList [(0, some (2 ^ 256 - 1))]

theorem overlap_explainsAs : ∃ l, overlap.ExplainsAs sampleList ringRoot l := by
  have hnn : 0 ≤ sampleList - ringData := by decide +kernel
  have hindex : ((sampleList - ringData).toNat : Int) = sampleList - ringData :=
    Int.toNat_of_nonneg hnn
  have hlt : ((sampleList - ringData).toNat : Int) < 2 ^ 256 - 1 := by decide +kernel
  obtain ⟨found, hfound, hne⟩ := (ring_hasFieldAt hlt).exists_locateElement (by decide)
  rw [hindex] at hfound
  obtain ⟨l, rest, rfl⟩ := List.exists_cons_of_ne_nil hne
  rw [hindex] at hlt
  have hlength : overlap.lengthAt ringRoot.slot = some (2 ^ 256 - 1) := by decide +kernel
  have hspan : ringRoot.container.dataSlotCount (2 ^ 256 - 1) = .ok (2 ^ 256 - 1) := rfl
  exact ⟨l, .intro hlength (by decide) rfl hspan hnn hlt hfound⟩

theorem run_marks_overlap : ∃ results m, overlap.run = .ok results ∧
    (sampleList, [m]) ∈ results ∧ m.kind = .mapping ∧ SaysAmbiguous m.note := by
  obtain ⟨results, h, hk⟩ : ∃ results, overlap.run = .ok results ∧
      (results.map fun e => (e.1, e.2.map (·.kind))) = [(sampleList, [.mapping])] :=
    exists_ok_of_toOption (by decide +kernel)
  have hm : (sampleList, [MatchKind.mapping]) ∈
      results.map fun e => (e.1, e.2.map (·.kind)) := by
    rw [hk]
    exact List.mem_singleton_self _
  obtain ⟨m, hms, hkind⟩ := exists_single hm
  obtain ⟨r, marked, others, -, -, -, -, hnotes⟩ := run_marks h
  obtain ⟨l, hl⟩ := overlap_explainsAs
  refine ⟨results, m, h, hms, hkind, ?_⟩
  exact (hnotes _ _ hms m List.mem_cons_self hkind).2 ⟨ringRoot, List.mem_singleton_self _, l, hl⟩

end SlotLens.Scene

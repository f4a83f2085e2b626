import SlotLens.Proofs.Layout.Stored
import SlotLens.Proofs.Search.Agenda
import Mathlib.Data.List.Pairwise

namespace SlotLens

def Match.Apart (a b : Match) : Prop := a.offset + a.size ≤ b.offset ∨ b.offset + b.size ≤ a.offset

/-- Matches at a slot take bytes of their own, from the right end to the left. -/
structure Match.HaveOwnBytes (ms : List Match) : Prop where
  inside : ∀ m ∈ ms, 0 ≤ m.offset ∧ 1 ≤ m.size ∧ m.offset + m.size ≤ 32
  apart : ms.Pairwise fun a b => a.offset + a.size ≤ b.offset

def Descriptor.matchesAt (kind : MatchKind) (slot : Int) (ds : List Descriptor) : List Match :=
  ds.flatMap fun d => (d.leavesAt (slot - d.slot)).map (Match.ofLocated slot d [] kind none)

namespace Layout

/-- Each variable is well-formed, and they take bytes of their own. -/
structure WellFormed (l : Layout) : Prop where
  wellFormed : ∀ d ∈ l.descriptors, d.WellFormed
  apart : l.descriptors.Pairwise Descriptor.Apart

def leavesAt (l : Layout) (kind : MatchKind) (slot : Int) : List Match :=
  Descriptor.matchesAt kind slot l.descriptors

end Layout

namespace Descriptor

variable {d d' : Descriptor} {slot : Int} {kind : MatchKind} {f : Stored} {l : Located}

instance : Std.Symm Descriptor.Apart := ⟨fun _ _ => Or.symm⟩

theorem mem_leavesAt : l ∈ d.leavesAt (slot - d.slot) ↔
    ∃ f ∈ d.leaves, d.slot + f.slot = slot ∧ f.field = l := by
  simp only [leavesAt, Stored.locatedAt, List.mem_map, List.mem_filter, decide_eq_true_eq]
  constructor
  · rintro ⟨f, ⟨hf, hs⟩, rfl⟩
    exact ⟨f, hf, by omega, rfl⟩
  · rintro ⟨f, hf, hs, rfl⟩
    exact ⟨f, ⟨hf, by omega⟩, rfl⟩

theorem bounds_of_mem_leavesAt (hw : d.WellFormed) (hl : l ∈ d.leavesAt (slot - d.slot)) :
    (0 ≤ l.offset ∧ 1 ≤ l.size ∧ l.offset + l.size ≤ 32) ∧
      d.start ≤ 32 * slot + l.offset ∧ 32 * slot + l.offset + l.size ≤ d.stop := by
  obtain ⟨f, hf, rfl, rfl⟩ := mem_leavesAt.1 hl
  obtain ⟨hoffset, hsize, hinside, hstart, hstop⟩ := holds_of_mem_leaves d hw hf
  simp only [Stored.stop, Stored.start] at hstart hstop
  rw [stop, start]
  omega

theorem takesSlots_of_kind (hw : d.WellFormed) (hk : d.kind = .staticArray) :
    d.entry.TakesSlots := by
  cases d with
  | staticArray e length element => exact takesSlots_of_staticArray hw
  | cut e k =>
    cases hk
    exact hw
  | _ => cases hk

theorem leavesAt_eq_nil_of_staticArray (hw : d.WellFormed) (hw' : d'.WellFormed)
    (hk : d.kind = .staticArray) (ha : d.Apart d') (hn : d.leavesAt (slot - d.slot) ≠ []) :
    d'.leavesAt (slot - d'.slot) = [] := by
  obtain ⟨l, hl⟩ := List.exists_mem_of_ne_nil _ hn
  obtain ⟨f, hf, hslot, -⟩ := mem_leavesAt.1 hl
  obtain ⟨hpos, n, hsize⟩ := takesSlots_of_kind hw hk
  have hcount : d.slotCount = n := by
    simp only [slotCount, hk, hsize]
    omega
  have hlead : d.lead = 0 := if_neg (by simp [hk])
  have := slot_of_mem_leaves hw hf
  rw [List.eq_nil_iff_forall_not_mem]
  intro l' hl'
  obtain ⟨⟨hoffset, hpos', hinside⟩, hstart, hstop⟩ := bounds_of_mem_leavesAt hw' hl'
  rw [Apart, stop, start] at ha
  omega

theorem leavesAt_of_kind_mapping {rel : Int} (hk : d.kind = .mapping) : d.leavesAt rel = [] := by
  cases d with
  | mapping e keyType value => rfl
  | cut e k =>
    cases hk
    rfl
  | _ => cases hk

theorem leavesAt_of_not_covers (hw : d.WellFormed) (hc : d.covers slot = false) :
    d.leavesAt (slot - d.slot) = [] := by
  refine leavesAt_eq_nil hw ?_
  simp only [covers, Bool.and_eq_false_iff, decide_eq_false_iff_not] at hc
  omega

theorem locate_ofLocated (slot : Int) (kind : MatchKind) (hw : d.WellFormed) :
    ∃ located, d.locate (slot - d.slot) = .ok located ∧
    (located = [] ↔ d.leavesAt (slot - d.slot) = []) ∧
    (Hunt.claimed slot d [] kind none located).Perm
      ((d.leavesAt (slot - d.slot)).map (Match.ofLocated slot d [] kind none)) := by
  obtain ⟨located, hl, hperm⟩ := locate_perm (slot - d.slot) d hw
  refine ⟨located, hl, ?_, hperm.map _⟩
  constructor
  · rintro rfl
    exact hperm.symm.eq_nil
  · intro hn
    rw [hn] at hperm
    exact hperm.eq_nil

theorem fieldsAt_perm (slot : Int) {ds : List Descriptor} (hw : ∀ d ∈ ds, d.WellFormed) :
    ∃ found, (ds.filter fun d => d.isFixed && d.covers slot).mapM (fieldsAt slot) = .ok found ∧
      found.flatten.Perm (matchesAt .exact slot (ds.filter (·.kind ≠ .staticArray))) := by
  induction ds with
  | nil => exact ⟨[], rfl, .nil⟩
  | cons d ds ih =>
    have hd := hw d List.mem_cons_self
    obtain ⟨found, hfound, hperm⟩ := ih fun d hd => hw d (List.mem_cons_of_mem _ hd)
    by_cases hk : d.kind = .staticArray
    · have hc : (d.isFixed && d.covers slot) = false := by simp [isFixed, hk]
      simp only [List.filter_cons, hc, hk, ne_eq, not_true, decide_false]
      exact ⟨found, hfound, hperm⟩
    · simp only [List.filter_cons, hk, ne_eq, not_false_eq_true, decide_true, if_true]
      rw [matchesAt, List.flatMap_cons]
      by_cases hc : (d.isFixed && d.covers slot) = true
      · rw [if_pos hc]
        obtain ⟨located, hl, -, hperm'⟩ := locate_ofLocated slot .exact hd
        refine ⟨Hunt.claimed slot d [] .exact none located :: found, ?_, ?_⟩
        · rw [List.mapM_cons, fieldsAt, hl, hfound]
          rfl
        · rw [List.flatten_cons]
          exact hperm'.append hperm
      · rw [if_neg hc]
        refine ⟨found, hfound, ?_⟩
        have hn : d.leavesAt (slot - d.slot) = [] := by
          rw [Bool.not_eq_true, Bool.and_eq_false_iff] at hc
          rcases hc with hc | hc
          · exact leavesAt_of_kind_mapping (by simpa [isFixed, hk] using hc)
          · exact leavesAt_of_not_covers hd hc
        rw [hn]
        exact hperm

end Descriptor

namespace Layout

variable {l : Layout} {d d' : Descriptor} {slot : Int} {kind : MatchKind} {ms : List Match}

theorem WellFormed.apart_of_ne (hw : l.WellFormed) (hd : d ∈ l.descriptors)
    (hd' : d' ∈ l.descriptors) (hn : d ≠ d') : d.Apart d' := hw.apart.forall hd hd' hn

theorem WellFormed.nodup (hw : l.WellFormed) : l.descriptors.Nodup := by
  refine hw.apart.imp_of_mem ?_
  rintro d d' hd - ha rfl
  have := (hw.wellFormed d hd).spans.size_pos
  rw [Descriptor.Apart, Descriptor.stop] at ha
  omega

theorem leavesAt_of_ne (hw : l.WellFormed) (hd : d ∈ l.descriptors) (hk : d.kind = .staticArray)
    (hn : d.leavesAt (slot - d.slot) ≠ []) (hd' : d' ∈ l.descriptors) (hne : d' ≠ d) :
    d'.leavesAt (slot - d'.slot) = [] :=
  Descriptor.leavesAt_eq_nil_of_staticArray (hw.wellFormed d hd) (hw.wellFormed d' hd') hk
    (hw.apart_of_ne hd hd' hne.symm) hn

theorem leavesAt_of_staticArray (hw : l.WellFormed) (hd : d ∈ l.descriptors)
    (hk : d.kind = .staticArray) (hn : d.leavesAt (slot - d.slot) ≠ []) :
    l.leavesAt kind slot =
      (d.leavesAt (slot - d.slot)).map (Match.ofLocated slot d [] kind none) := by
  rw [leavesAt, Descriptor.matchesAt, flatMap_eq_of_mem hw.nodup hd]
  intro d' hd' hne
  rw [leavesAt_of_ne hw hd hk hn hd' hne, List.map_nil]

theorem fixedFields_perm (hw : l.WellFormed) (slot : Int) :
    ∃ fields, l.fixedFields slot = .ok fields ∧
      fields.Perm (Descriptor.matchesAt .exact slot
        (l.descriptors.filter (·.kind ≠ .staticArray))) := by
  obtain ⟨found, hf, hperm⟩ := Descriptor.fieldsAt_perm slot hw.wellFormed
  exact ⟨found.flatten, map_eq_ok.2 ⟨found, hf, rfl⟩, hperm⟩

theorem matchesAt_filter {ds : List Descriptor} {p : Descriptor → Bool}
    (h : ∀ d ∈ ds, p d = false → d.leavesAt (slot - d.slot) = []) :
    Descriptor.matchesAt kind slot (ds.filter p) = Descriptor.matchesAt kind slot ds := by
  induction ds with
  | nil => rfl
  | cons d ds ih =>
    have ih := ih fun d hd => h d (List.mem_cons_of_mem _ hd)
    by_cases hp : p d
    · rw [List.filter_cons_of_pos hp]
      exact congrArg (_ ++ ·) ih
    · rw [List.filter_cons_of_neg hp, ih, Descriptor.matchesAt, Descriptor.matchesAt,
        List.flatMap_cons, h d List.mem_cons_self (Bool.not_eq_true _ ▸ hp)]
      rfl

theorem leavesAt_apart (hw : l.WellFormed) : (l.leavesAt kind slot).Pairwise Match.Apart := by
  rw [leavesAt, Descriptor.matchesAt, List.pairwise_flatMap]
  -- Fields of one variable are apart among themselves, those of two as their variables are.
  constructor
  · intro d hd
    have hp := (Descriptor.leaves_pairwise d (hw.wellFormed d hd)).filter
      fun f => f.slot = slot - d.slot
    rw [Descriptor.leavesAt, Stored.locatedAt, List.pairwise_map, List.pairwise_map]
    refine hp.imp_of_mem fun {f g} hf hg ha => ?_
    have hf := (List.mem_filter.1 hf).2
    have hg := (List.mem_filter.1 hg).2
    simp only [decide_eq_true_eq] at hf hg
    simp only [Stored.Apart, Stored.stop, Stored.start] at ha
    simp only [Match.Apart, Match.ofLocated]
    omega
  · refine hw.apart.imp_of_mem fun {d d'} hd hd' ha m hm m' hm' => ?_
    obtain ⟨f, hf, rfl⟩ := List.mem_map.1 hm
    obtain ⟨f', hf', rfl⟩ := List.mem_map.1 hm'
    have hb := (Descriptor.bounds_of_mem_leavesAt (hw.wellFormed d hd) hf).2
    have hb' := (Descriptor.bounds_of_mem_leavesAt (hw.wellFormed d' hd') hf').2
    simp only [Descriptor.Apart] at ha
    simp only [Match.Apart, Match.ofLocated]
    omega

theorem haveOwnBytes_of_perm (hw : l.WellFormed) (hp : ms.Perm (l.leavesAt kind slot))
    (hs : ms.Pairwise fun a b => a.offset ≤ b.offset) : Match.HaveOwnBytes ms := by
  have hinside : ∀ m ∈ ms, 0 ≤ m.offset ∧ 1 ≤ m.size ∧ m.offset + m.size ≤ 32 := by
    intro m hm
    obtain ⟨d, hd, hm⟩ := List.mem_flatMap.1 (hp.mem_iff.1 hm)
    obtain ⟨f, hf, rfl⟩ := List.mem_map.1 hm
    exact (Descriptor.bounds_of_mem_leavesAt (hw.wellFormed d hd) hf).1
  refine ⟨hinside, ?_⟩
  have ha := (hp.pairwise_iff (R := Match.Apart) fun {_ _} => Or.symm).2 (leavesAt_apart hw)
  refine (hs.and ha).imp_of_mem fun {a b} ha hb h => ?_
  have := hinside a ha
  have := hinside b hb
  simp only [Match.Apart] at h
  omega

end Layout

namespace Scene

variable {s : Scene} {slot : Int} {results : List (Int × List Match)} {ms : List Match}
  {d : Descriptor}

theorem perm_leavesAt_exact (hw : s.layout.WellFormed) (h : s.run = .ok results)
    (hm : (slot, ms) ∈ results) (hd : d ∈ s.layout.descriptors) (hk : d.kind ≠ .staticArray)
    (hn : d.leavesAt (slot - d.slot) ≠ []) : ms.Perm (s.layout.leavesAt .exact slot) := by
  obtain ⟨fields, hf, hperm⟩ := Layout.fixedFields_perm hw slot
  have hall : Descriptor.matchesAt .exact slot
      (s.layout.descriptors.filter (·.kind ≠ .staticArray)) = s.layout.leavesAt .exact slot := by
    refine Layout.matchesAt_filter fun d' hd' hk' => ?_
    by_contra hn'
    have hk' : d'.kind = .staticArray := by simpa using hk'
    exact hn (Layout.leavesAt_of_ne hw hd' hk' hn' hd fun he => hk (he ▸ hk'))
  rw [hall] at hperm
  -- The variable with a field at the slot keeps the first pass from finding nothing.
  have hne : fields ≠ [] := by
    rintro rfl
    have hempty := List.flatMap_eq_nil_iff.1 hperm.nil_eq.symm d hd
    exact hn (List.map_eq_nil_iff.1 hempty)
  obtain ⟨r, -, -, hp, -⟩ := run_cases h
  obtain ⟨fields', hf', hfound, -⟩ := (attributed_of_mem h hp hm).source
  cases hf.symm.trans hf'
  rw [hfound hne]
  exact (perm_sortBy _ _).trans hperm

section StaticArray

variable (hw : s.layout.WellFormed) (hd : d ∈ s.layout.descriptors) (hk : d.kind = .staticArray)
  (hn : d.leavesAt (slot - d.slot) ≠ [])
include hw hd hk hn

theorem fixedFields_of_staticArray : s.layout.fixedFields slot = .ok [] := by
  obtain ⟨fields, hf, hperm⟩ := Layout.fixedFields_perm hw slot
  have hfields : fields = [] := by
    refine (hperm.trans (.of_eq ?_)).eq_nil
    refine List.flatMap_eq_nil_iff.2 fun d' hd' => ?_
    obtain ⟨hd', hk'⟩ := List.mem_filter.1 hd'
    have hne : d' ≠ d := fun he => by simp [he, hk] at hk'
    rw [Layout.leavesAt_of_ne hw hd hk hn hd' hne, List.map_nil]
  rw [hf, hfields]

theorem exists_located_of_staticArray : d ∈ s.layout.staticArrays ∧ d.covers slot ∧
    ∃ located, d.locate (slot - d.slot) = .ok located ∧ located ≠ [] ∧
      (Hunt.claimed slot d [] .array none located).Perm (s.layout.leavesAt .array slot) := by
  refine ⟨List.mem_filter.2 ⟨hd, beq_iff_eq.2 hk⟩, ?_, ?_⟩
  · by_contra hc
    exact hn (Descriptor.leavesAt_of_not_covers (hw.wellFormed d hd) (Bool.not_eq_true _ ▸ hc))
  · obtain ⟨located, hl, hempty, hperm⟩ :=
      Descriptor.locate_ofLocated slot .array (hw.wellFormed d hd)
    refine ⟨located, hl, fun he => hn (hempty.1 he), hperm.trans (.of_eq ?_)⟩
    exact (Layout.leavesAt_of_staticArray hw hd hk hn).symm

theorem claimed_of_staticArray {before : Engine} {v : Descriptor} {level : Nat} {path : Path}
    {kind : MatchKind} {note : Option String} {found : List Located} (hb : s.Reaches before)
    (ho : slot ∈ before.run.remaining) (hx : before.Finds slot v level path kind note found)
    (hv : v ∈ s.layout.descriptors) (hf : found ≠ []) (hexact : kind ≠ .exact)
    (hmapping : kind ≠ .mapping) :
    kind = .array ∧
      (Hunt.claimed slot v path kind note found).Perm (s.layout.leavesAt .array slot) := by
  obtain ⟨hs, hc, located, hl, hne, hperm⟩ := exists_located_of_staticArray hw hd hk hn
  have hcases := hx.cases_of_staticArray hb ho hs hc fun found' hl' =>
    Except.ok.inj (hl.symm.trans hl') ▸ hne
  obtain ⟨rfl, -, -, rfl, rfl, hvl⟩ := (hcases.resolve_left hexact).resolve_left hmapping
  have he : v = d := by
    by_contra hvd
    obtain ⟨located', hl', hempty, -⟩ :=
      Descriptor.locate_ofLocated slot .array (hw.wellFormed v hv)
    cases hvl.symm.trans hl'
    exact hf (hempty.2 (Layout.leavesAt_of_ne hw hd hk hn hv hvd))
  subst he
  cases hl.symm.trans hvl
  exact ⟨rfl, hperm⟩

theorem perm_leavesAt_array (h : s.run = .ok results) (hm : (slot, ms) ∈ results)
    (hx : ∀ m ∈ ms, m.kind ≠ .mapping) : ms.Perm (s.layout.leavesAt .array slot) := by
  obtain ⟨r, -, -, hp, -⟩ := run_cases h
  obtain ⟨_, hu⟩ := (attributed_of_mem h hp hm).uniform
  obtain ⟨m, hmem⟩ := List.exists_mem_of_ne_nil ms hu.nonempty
  rcases mem_run h hp hm with ⟨recorded, hg, hr⟩ | ⟨ho, -⟩
  · have hs : slot ∈ s.observed.keys :=
      (slots_of_run h).2.mem_iff.1 (List.mem_map.2 ⟨_, hm, rfl⟩)
    obtain ⟨fields, hf, -, hlater⟩ := passes_source hp hs
    -- The first pass finds nothing here, so one later step sets down what is recorded.
    cases hf.symm.trans (fixedFields_of_staticArray hw hd hk hn)
    obtain ⟨⟨before, after, set, hb, hstep, hend, ho, hrec, hset, -⟩, -⟩ := hlater rfl recorded hg
    cases (hset _ hend).symm.trans hg
    obtain ⟨v, hv, level, path, kind, note, found, hfinds, hne, rfl⟩ :=
      Engine.exists_finds hb hstep ho (hset after .refl)
    have hkind : ∀ m ∈ sortBy Match.offset (Hunt.claimed slot v path kind note found),
        m.kind = kind := fun m hm => (Hunt.mem_claimed ((perm_sortBy _ _).mem_iff.1 hm)).2
    obtain ⟨m₀, hm₀, hren⟩ := Match.Renoted.exists_mem hr hmem
    have hexact : kind ≠ .exact := hkind m₀ hm₀ ▸ hrec.kind_ne_exact hm₀
    have hmapping : kind ≠ .mapping := hkind m₀ hm₀ ▸ hren.kind_eq ▸ hx m hmem
    obtain ⟨rfl, hperm⟩ :=
      claimed_of_staticArray hw hd hk hn hb ho hfinds hv hne hexact hmapping
    rw [Match.Renoted.eq_of_forall hr fun m hm => by simp [hkind m hm]]
    exact (perm_sortBy _ _).trans hperm
  · obtain ⟨hs, hc, located, hl, hne, -⟩ := exists_located_of_staticArray hw hd hk hn
    exact absurd (.item hs hc hl hne) (passes_misses hp ho)

end StaticArray

/-- In a well-formed layout, what is reported for an observed slot at which a variable stores a
field is all that is stored there. Slots of static arrays can be derived from a mapping instead. -/
theorem run_fixed (hw : s.layout.WellFormed) (h : s.run = .ok results)
    (hs : slot ∈ s.observed.keys) : ∃ ms, (slot, ms) ∈ results ∧
      ((∃ d ∈ s.layout.descriptors, d.kind ≠ .staticArray ∧ d.leavesAt (slot - d.slot) ≠ []) →
        ms.Perm (s.layout.leavesAt .exact slot) ∧ Match.HaveOwnBytes ms) ∧
      ((∃ d ∈ s.layout.descriptors, d.kind = .staticArray ∧ d.leavesAt (slot - d.slot) ≠ []) →
        (∀ m ∈ ms, m.kind ≠ .mapping) →
        ms.Perm (s.layout.leavesAt .array slot) ∧ Match.HaveOwnBytes ms) := by
  obtain ⟨⟨slot, ms⟩, hm, rfl⟩ := List.mem_map.1 ((slots_of_run h).2.mem_iff.2 hs)
  obtain ⟨r, -, -, hp, -⟩ := run_cases h
  obtain ⟨_, hu⟩ := (attributed_of_mem h hp hm).uniform
  refine ⟨ms, hm, ?_, ?_⟩
  · rintro ⟨d, hd, hk, hn⟩
    have hperm := perm_leavesAt_exact hw h hm hd hk hn
    exact ⟨hperm, Layout.haveOwnBytes_of_perm hw hperm hu.sorted⟩
  · rintro ⟨d, hd, hk, hn⟩ hx
    have hperm := perm_leavesAt_array hw hd hk hn h hm hx
    exact ⟨hperm, Layout.haveOwnBytes_of_perm hw hperm hu.sorted⟩

def chest : Scene where
  layout := ⟨[.primitive ⟨.text "open", "t_bool", .text "bool", 0, 0, 1⟩,
    .primitive ⟨.text "owner", "t_address", .text "address", 0, 1, 20⟩,
    .staticArray ⟨.text "marks", "t_marks", .text "uint128[3]", 1, 0, 64⟩ 3
      (.primitive ⟨.text "", "t_uint128", .text "uint128", 0, 0, 16⟩)]⟩
  observed := Table.ofList [(0, ⟨Word.ofNat 1, none⟩), (1, ⟨Word.ofNat 2, none⟩),
    (2, ⟨Word.ofNat 3, none⟩)]
  candidates := []
  bounds := .standard
  lengths := .empty

theorem wellFormed_chest : chest.layout.WellFormed := by
  constructor
  · intro d hd
    simp only [chest, List.mem_cons, List.not_mem_nil, or_false] at hd
    rcases hd with rfl | rfl | rfl
    · exact ⟨by decide, by decide, by decide⟩
    · exact ⟨by decide, by decide, by decide⟩
    · exact ⟨⟨by decide, by decide, by decide⟩, by decide, 2, rfl, rfl⟩
  · simp only [chest, List.pairwise_cons, List.mem_cons, List.not_mem_nil, or_false]
    refine ⟨?_, ?_, ?_, .nil⟩
    · rintro d (rfl | rfl)
      · exact .inl (by decide)
      · exact .inl (by decide)
    · rintro d rfl
      exact .inl (by decide)
    · rintro d ⟨⟩

theorem run_fixed_chest : ∃ results, chest.run = .ok results ∧
    (results.map fun e => (e.1, e.2.map fun m => (m.kind, m.offset, m.size))) =
      [(0, [(.exact, 0, 1), (.exact, 1, 20)]), (1, [(.array, 0, 16), (.array, 16, 16)]),
        (2, [(.array, 0, 16)])] ∧
    (∃ ms, (0, ms) ∈ results ∧ ms.Perm (chest.layout.leavesAt .exact 0) ∧
      Match.HaveOwnBytes ms) ∧
    ∃ ms, (2, ms) ∈ results ∧ ms.Perm (chest.layout.leavesAt .array 2) ∧
      Match.HaveOwnBytes ms := by
  obtain ⟨results, h, hk⟩ : ∃ results, chest.run = .ok results ∧
      (results.map fun e => (e.1, e.2.map fun m => (m.kind, m.offset, m.size))) =
        [(0, [(.exact, 0, 1), (.exact, 1, 20)]), (1, [(.array, 0, 16), (.array, 16, 16)]),
          (2, [(.array, 0, 16)])] :=
    exists_ok_of_toOption (by decide +kernel)
  have hobserved : 0 ∈ chest.observed.keys ∧ 2 ∈ chest.observed.keys := by decide
  obtain ⟨ms, hm, hexact, -⟩ := run_fixed wellFormed_chest h hobserved.1
  obtain ⟨ms', hm', -, harray⟩ := run_fixed wellFormed_chest h hobserved.2
  refine ⟨results, h, hk, ⟨ms, hm, hexact ?_⟩, ms', hm', harray ?_ fun m hmem => ?_⟩
  · exact ⟨_, List.mem_cons_self, by decide, by decide⟩
  · exact ⟨_, List.mem_cons_of_mem _ (List.mem_cons_of_mem _ List.mem_cons_self), rfl, by decide⟩
  · have hshown : (2, ms'.map fun m => (m.kind, m.offset, m.size)) ∈
        results.map fun e => (e.1, e.2.map fun m => (m.kind, m.offset, m.size)) :=
      List.mem_map.2 ⟨_, hm', rfl⟩
    have hmem : (m.kind, m.offset, m.size) ∈ ms'.map fun m => (m.kind, m.offset, m.size) :=
      List.mem_map.2 ⟨m, hmem, rfl⟩
    rw [hk] at hshown
    simp only [List.mem_cons, Prod.mk.injEq, List.not_mem_nil, or_false] at hshown
    rcases hshown with ⟨h2, -⟩ | ⟨h2, -⟩ | ⟨-, he⟩
    · simp at h2
    · simp at h2
    · rw [he, List.mem_singleton, Prod.mk.injEq] at hmem
      simp [hmem.1]

end Scene

end SlotLens

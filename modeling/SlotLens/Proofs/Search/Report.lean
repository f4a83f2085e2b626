import SlotLens.Proofs.Search.Hunt
import SlotLens.Proofs.Table

namespace SlotLens

theorem exists_render {name : Value} {path : Path} :
    (∃ text, path.render name = .ok text) ↔ ∃ label, name = .text label := by
  constructor
  · rintro ⟨text, h⟩
    cases name with
    | text label => exact ⟨label, rfl⟩
    | _ => cases h
  · rintro ⟨label, rfl⟩
    exact ⟨_, rfl⟩

def Match.Renoted (m m' : Match) : Prop :=
  m' = m ∨ m.kind = .mapping ∧ ∃ note, m' = { m with note := some note }

namespace Match.Renoted

variable {m m' : Match} {ms ms' : List Match}

theorem slot_eq (h : m.Renoted m') : m'.slot = m.slot := by
  rcases h with rfl | ⟨-, note, rfl⟩ <;> rfl

theorem kind_eq (h : m.Renoted m') : m'.kind = m.kind := by
  rcases h with rfl | ⟨-, note, rfl⟩ <;> rfl

theorem offset_eq (h : m.Renoted m') : m'.offset = m.offset := by
  rcases h with rfl | ⟨-, note, rfl⟩ <;> rfl

theorem refl_list (ms : List Match) : List.Forall₂ Renoted ms ms := by
  induction ms with
  | nil => exact .nil
  | cons m ms ih => exact .cons (.inl rfl) ih

theorem exists_mem (h : List.Forall₂ Renoted ms ms') (hm : m' ∈ ms') : ∃ m ∈ ms, m.Renoted m' :=
  exists_of_forall₂ h hm

theorem sorted (h : List.Forall₂ Renoted ms ms')
    (hs : ms.Pairwise fun a b => a.offset ≤ b.offset) :
    ms'.Pairwise fun a b => a.offset ≤ b.offset := by
  induction h with
  | nil => exact .nil
  | cons hr h ih =>
    rw [List.pairwise_cons] at hs ⊢
    refine ⟨?_, ih hs.2⟩
    intro b hb
    obtain ⟨a, ha, hab⟩ := exists_mem h hb
    rw [hr.offset_eq, hab.offset_eq]
    exact hs.1 a ha

theorem eq_of_forall (h : List.Forall₂ Renoted ms ms') (hk : ∀ m ∈ ms, m.kind ≠ .mapping) :
    ms' = ms := by
  induction h with
  | nil => rfl
  | cons hr _ ih =>
    rcases hr with rfl | ⟨hm, -⟩
    · rw [ih fun m hm => hk m (List.mem_cons_of_mem _ hm)]
    · exact absurd hm (hk _ List.mem_cons_self)

end Match.Renoted

/-- A match that was derived from a mapping has a note on the other explanation of its slot; all
others are as they were. -/
inductive Match.Noted (other : String) (m : Match) : Match → Prop
  | kept : m.kind ≠ .mapping → Noted other m m
  | noted {kept : String} : m.kind = .mapping → m.expression = .ok kept →
      Noted other m { m with note := some (Scene.ambiguityNote kept other) }

theorem Match.Noted.renoted {other : String} {m m' : Match} (h : m.Noted other m') :
    m.Renoted m' := by
  cases h with
  | kept => exact .inl rfl
  | noted hk => exact .inr ⟨hk, _, rfl⟩

namespace Scene

variable {β : Type} {s : Scene} {results : List (Int × List Match)}

/-- What becomes of an array: it may explain slots where its length is known and not zero. -/
inductive Considered (s : Scene) (root : Root) : Option Hypothesis → Prop
  | skipped : (∀ length, s.lengthAt root.slot = some length → length = 0) → Considered s root none
  | asked {length data : Int} : s.lengthAt root.slot = some length → length ≠ 0 →
      Slot.ofData root.slot = .ok data → Considered s root (some ⟨root, length, data⟩)

theorem hypotheses_cases {found : List Hypothesis} (h : s.hypotheses = .ok found) :
    ∃ all, List.Forall₂ s.Considered s.layout.arrayRoots all ∧ found = all.filterMap id := by
  obtain ⟨all, hall, h⟩ := bind_eq_ok.1 h
  refine ⟨all, (mapM_eq_ok.1 hall).imp fun root y hy => ?_, (pure_eq_ok.1 h).symm⟩
  split at hy
  · next hl =>
    cases hy
    exact .skipped fun length hlength => nomatch hl.symm.trans hlength
  · next length hl =>
    split at hy
    · next hzero =>
      cases hy
      exact .skipped fun length' hlength => Option.some.inj (hlength.symm.trans hl) ▸ hzero
    · next hzero =>
      obtain ⟨data, hdata, rfl⟩ := map_eq_ok.1 hy
      exact .asked hl hzero hdata

theorem markMatch_noted {other : String} {m m' : Match} (h : markMatch other m = .ok m') :
    m.Noted other m' := by
  rw [markMatch] at h
  split at h
  · next hk =>
    obtain ⟨kept, hkept, h⟩ := bind_eq_ok.1 h
    cases pure_eq_ok.1 h
    exact .noted hk hkept
  · next hk =>
    cases pure_eq_ok.1 h
    exact .kept hk

theorem markSlot_cases {found : List Hypothesis} {slot : Int} {ms ms' : List Match}
    (h : markSlot found slot ms = .ok ms') :
    (ms' = ms ∧ ((∀ m ∈ ms, m.kind ≠ .mapping) ∨ explainFirst slot found = .ok none)) ∨
      ∃ other, explainFirst slot found = .ok (some other) ∧
        List.Forall₂ (Match.Noted other) ms ms' := by
  rw [markSlot] at h
  split at h
  · obtain ⟨explained, he, h⟩ := bind_eq_ok.1 h
    cases explained with
    | none => exact .inl ⟨(pure_eq_ok.1 h).symm, .inr he⟩
    | some other =>
      exact .inr ⟨other, he,
        (mapM_eq_ok.1 h).imp fun _ _ hm => markMatch_noted (liftM_eq_ok.1 hm)⟩
  · next hk =>
    cases h
    refine .inl ⟨rfl, .inl fun m hm hmapping => hk ?_⟩
    exact List.any_eq_true.2 ⟨m, hm, beq_iff_eq.2 hmapping⟩

theorem markSlot_renoted {found : List Hypothesis} {slot : Int} {ms ms' : List Match}
    (h : markSlot found slot ms = .ok ms') : List.Forall₂ Match.Renoted ms ms' := by
  rcases markSlot_cases h with ⟨rfl, -⟩ | ⟨other, -, hms⟩
  · exact Match.Renoted.refl_list _
  · exact hms.imp fun _ _ hm => hm.renoted

def Reported (recorded reported : Int × List Match) : Prop :=
  reported.1 = recorded.1 ∧ List.Forall₂ Match.Renoted recorded.2 reported.2

theorem markAmbiguous_cases {marked : List (Int × List Match)}
    (h : s.markAmbiguous results = .ok marked) : ∃ found, s.hypotheses = .ok found ∧
      List.Forall₂ (fun recorded reported => reported.1 = recorded.1 ∧
        markSlot found recorded.1 recorded.2 = .ok reported.2) results marked := by
  obtain ⟨found, hf, h⟩ := bind_eq_ok.1 h
  refine ⟨found, hf, (mapM_eq_ok.1 h).imp fun recorded reported h => ?_⟩
  obtain ⟨ms, hm, rfl⟩ := map_eq_ok.1 h
  exact ⟨rfl, hm⟩

theorem markAmbiguous_reported {marked : List (Int × List Match)}
    (h : s.markAmbiguous results = .ok marked) : List.Forall₂ Reported results marked := by
  obtain ⟨found, -, hmarked⟩ := markAmbiguous_cases h
  exact hmarked.imp fun _ _ hm => ⟨hm.1, markSlot_renoted hm.2⟩

theorem reported_keys {marked : List (Int × List Match)}
    (h : List.Forall₂ Reported results marked) :
    marked.map Prod.fst = results.map Prod.fst := by
  induction h with
  | nil => rfl
  | cons hr _ ih => rw [List.map_cons, List.map_cons, hr.1, ih]

theorem exists_reported {marked : List (Int × List Match)} {slot : Int} {ms : List Match}
    (h : List.Forall₂ Reported results marked) (hm : (slot, ms) ∈ marked) :
    ∃ recorded, (slot, recorded) ∈ results ∧ List.Forall₂ Match.Renoted recorded ms := by
  induction h with
  | nil => exact absurd hm List.not_mem_nil
  | cons hr _ ih =>
    rcases List.mem_cons.1 hm with rfl | hm
    · obtain ⟨rfl, hr⟩ := hr
      exact ⟨_, List.mem_cons_self, hr⟩
    · obtain ⟨recorded, hm, hr⟩ := ih hm
      exact ⟨recorded, List.mem_cons_of_mem _ hm, hr⟩

theorem unresolved_cases {r : Run} {others : List (Int × List Match)}
    (h : s.unresolved r = .ok others) :
    (r.remaining = [] ∧ others = []) ∨
      (r.remaining ≠ [] ∧ ∃ note, unresolvedNote s.bounds r.tallies = .ok note ∧
        others = r.remaining.map fun slot => (slot, [Match.unresolved slot note])) := by
  rw [unresolved] at h
  split at h
  · next hr => exact .inl ⟨List.isEmpty_iff.1 hr, (pure_eq_ok.1 h).symm⟩
  · next hr =>
    rw [List.isEmpty_iff] at hr
    obtain ⟨note, hn, h⟩ := bind_eq_ok.1 h
    exact .inr ⟨hr, note, hn, (pure_eq_ok.1 h).symm⟩

theorem run_cases (h : s.run = .ok results) :
    ∃ r marked others, s.passes = .ok r ∧ s.markAmbiguous r.results.entries = .ok marked ∧
      s.unresolved r = .ok others ∧ results = sortBy Prod.fst (marked ++ others) := by
  simp only [run, bind_eq_ok, pure_eq_ok, liftM_eq_ok] at h
  obtain ⟨r, hp, marked, hm, others, ho, rfl⟩ := h
  exact ⟨r, marked, others, hp, hm, ho, rfl⟩

theorem keys_of_run {r : Run} (h : s.run = .ok results) (hp : s.passes = .ok r) :
    (results.map Prod.fst).Perm (r.results.keys ++ r.remaining) := by
  obtain ⟨r', marked, others, hp', hm, ho, rfl⟩ := run_cases h
  cases hp.symm.trans hp'
  have hk : others.map Prod.fst = r.remaining := by
    rcases unresolved_cases ho with ⟨hr, rfl⟩ | ⟨-, note, -, rfl⟩
    · rw [hr]
      rfl
    · simp [Function.comp_def]
  have hperm := (perm_sortBy Prod.fst (marked ++ others)).map Prod.fst
  rwa [List.map_append, reported_keys (markAmbiguous_reported hm), hk] at hperm

theorem mem_run {r : Run} {slot : Int} {ms : List Match} (h : s.run = .ok results)
    (hp : s.passes = .ok r) (hm : (slot, ms) ∈ results) :
    (∃ recorded, r.results.get? slot = some recorded ∧
        List.Forall₂ Match.Renoted recorded ms) ∨
      (slot ∈ r.remaining ∧ ∃ note, unresolvedNote s.bounds r.tallies = .ok note ∧
        ms = [Match.unresolved slot note]) := by
  obtain ⟨r', marked, others, hp', ha, ho, rfl⟩ := run_cases h
  cases hp.symm.trans hp'
  rcases List.mem_append.1 ((perm_sortBy _ _).mem_iff.1 hm) with hm | hm
  · obtain ⟨recorded, hr, hf⟩ := exists_reported (markAmbiguous_reported ha) hm
    exact .inl ⟨recorded, Table.get?_eq_some.2 hr, hf⟩
  · rcases unresolved_cases ho with ⟨-, rfl⟩ | ⟨-, note, hn, rfl⟩
    · exact absurd hm List.not_mem_nil
    · obtain ⟨open_, hr, he⟩ := List.mem_map.1 hm
      cases he
      exact .inr ⟨hr, note, hn, rfl⟩

theorem exists_single {f : Match → β} {slot : Int} {b : β}
    (h : (slot, [b]) ∈ results.map fun e => (e.1, e.2.map f)) :
    ∃ m, (slot, [m]) ∈ results ∧ f m = b := by
  obtain ⟨⟨slot', ms⟩, hms, he⟩ := List.mem_map.1 h
  obtain ⟨rfl, hs⟩ := Prod.mk.inj he
  obtain ⟨m, rfl, hm⟩ := List.map_eq_singleton_iff.1 hs
  exact ⟨m, hms, hm⟩

def sampleKey : Candidate := ⟨(Word.ofNat 0xabc).bytes, .null, .text "address", .address⟩

def sampleList : Int := Slot.ofHash (sampleKey.raw ++ (Word.ofNat 1).bytes)

def sampleItems : Int := Slot.ofHash (Word.ofNat sampleList.toNat).bytes

def sample (b : Bounds) : Scene where
  layout := ⟨[.primitive ⟨.text "owner", "t_address", .text "address", 0, 0, 20⟩,
    .mapping ⟨.text "lists", "t_mapping", .text "mapping(address => uint256[])", 1, 0, 32⟩
      (.text "address")
      (.dynamicArray ⟨.text "", "t_array", .text "uint256[]", 0, 0, 32⟩
        (.primitive ⟨.text "", "t_uint256", .text "uint256", 0, 0, 32⟩))]⟩
  observed := Table.ofList [(0, ⟨Word.ofNat 0xabc, none⟩), (sampleList, ⟨Word.ofNat 3, none⟩),
    (sampleItems + 1, ⟨Word.ofNat 5, some (Word.ofNat 6)⟩), (7, ⟨Word.ofNat 0, none⟩)]
  candidates := [sampleKey]
  bounds := b
  lengths := .empty

end Scene

end SlotLens

import SlotLens.Proofs.Search.FirstPass
import SlotLens.Proofs.Search.Partition
import SlotLens.Proofs.Search.Report
import SlotLens.Proofs.Search.Simulation

namespace SlotLens

structure Match.Uniform (slot : Int) (kind : MatchKind) (ms : List Match) : Prop where
  nonempty : ms ≠ []
  sorted : ms.Pairwise fun a b => a.offset ≤ b.offset
  slot_eq : ∀ m ∈ ms, m.slot = slot
  kind_eq : ∀ m ∈ ms, m.kind = kind

namespace Match

variable {slot : Int} {kind : MatchKind} {ms ms' : List Match}

theorem uniform_sortBy (hn : ms ≠ []) (hs : ∀ m ∈ ms, m.slot = slot)
    (hk : ∀ m ∈ ms, m.kind = kind) : Uniform slot kind (sortBy Match.offset ms) := by
  have hp := perm_sortBy Match.offset ms
  refine ⟨fun h => hn (sortBy_eq_nil.1 h), sorted_sortBy _ _, ?_, ?_⟩
  · intro m hm
    exact hs m (hp.mem_iff.1 hm)
  · intro m hm
    exact hk m (hp.mem_iff.1 hm)

theorem uniform_unresolved (note : String) :
    Uniform slot .unresolved [Match.unresolved slot note] := by
  refine ⟨List.cons_ne_nil _ _, List.pairwise_singleton _ _, fun m hm => ?_, fun m hm => ?_⟩ <;>
    · cases List.mem_singleton.1 hm
      rfl

theorem Uniform.renoted (hu : Uniform slot kind ms) (hr : List.Forall₂ Renoted ms ms') :
    Uniform slot kind ms' := by
  refine ⟨?_, Renoted.sorted hr hu.sorted, ?_, ?_⟩
  · rintro rfl
    cases hr
    exact hu.nonempty rfl
  · intro m' hm
    obtain ⟨m, hm, h⟩ := Renoted.exists_mem hr hm
    rw [h.slot_eq, hu.slot_eq m hm]
  · intro m' hm
    obtain ⟨m, hm, h⟩ := Renoted.exists_mem hr hm
    rw [h.kind_eq, hu.kind_eq m hm]

end Match

theorem Hunt.mem_claimed {slot : Int} {owner : Descriptor} {before : Path} {kind : MatchKind}
    {note : Option String} {located : List Located} {m : Match}
    (hm : m ∈ claimed slot owner before kind note located) : m.slot = slot ∧ m.kind = kind := by
  obtain ⟨l, -, rfl⟩ := List.mem_map.1 hm
  exact ⟨rfl, rfl⟩

theorem Layout.mem_fixedFields {l : Layout} {slot : Int} {fields : List Match} {m : Match}
    (hf : l.fixedFields slot = .ok fields) (hm : m ∈ fields) : m.slot = slot ∧ m.kind = .exact := by
  obtain ⟨found, hv, rfl⟩ := map_eq_ok.1 hf
  rw [mapM_eq_ok] at hv
  clear hf
  generalize l.variablesAt slot = owners at hv
  induction hv with
  | nil => exact absurd hm List.not_mem_nil
  | cons ho _ ih =>
    rcases List.mem_append.1 hm with hm | hm
    · obtain ⟨located, -, rfl⟩ := map_eq_ok.1 ho
      exact Hunt.mem_claimed hm
    · exact ih hm

namespace Scene

variable {s : Scene} {slot : Int} {ms : List Match}

theorem IsRecord.uniform (h : s.IsRecord slot ms) :
    ∃ kind, kind ≠ .unresolved ∧ Match.Uniform slot kind ms := by
  obtain ⟨owner, -, before, kind, note, located, hl, -, hu, rfl⟩ := h
  exact ⟨kind, hu, Match.uniform_sortBy (Hunt.claimed_ne_nil hl)
    (fun m hm => (Hunt.mem_claimed hm).1) fun m hm => (Hunt.mem_claimed hm).2⟩

/-- On the way to the state `e`, one step sets down matches at an open slot for one variable. No
state behind that step has others for the slot, and they are reported up to their notes. -/
def SetDownOnce (s : Scene) (e : Engine) (slot : Int) (ms : List Match) : Prop :=
  ∃ before after recorded, s.Reaches before ∧ Engine.Step s before after ∧ Engine.Steps s after e ∧
    slot ∈ before.run.remaining ∧ s.IsRecord slot recorded ∧
    (∀ later, Engine.Steps s after later → later.run.results.get? slot = some recorded) ∧
    List.Forall₂ Match.Renoted recorded ms

/-- What is reported for a slot, where `e` is the state after the passes. -/
structure Attributed (s : Scene) (e : Engine) (slot : Int) (ms : List Match) : Prop where
  uniform : ∃ kind, Match.Uniform slot kind ms
  unresolved : ∀ m ∈ ms, m.kind = .unresolved → ms = [m]
  source : ∃ fields, s.layout.fixedFields slot = .ok fields ∧
    (fields ≠ [] → ms = sortBy Match.offset fields) ∧
    (fields = [] → s.SetDownOnce e slot ms ∨ ∃ note, ms = [Match.unresolved slot note])

/-- The passes end in a state in which each slot has the fields that are found there directly, has
what one step set down, or is open. -/
theorem passes_source {r : Run} (hp : s.passes = .ok r) (hs : slot ∈ s.observed.keys) :
    ∃ fields, s.layout.fixedFields slot = .ok fields ∧
      (fields ≠ [] → slot ∉ r.remaining ∧
        r.results.get? slot = some (sortBy Match.offset fields)) ∧
      (fields = [] → ∀ recorded, r.results.get? slot = some recorded →
        s.SetDownOnce (.between r []) slot recorded ∧ s.IsRecord slot recorded) := by
  simp only [passes, bind_eq_ok] at hp
  obtain ⟨r₁, ⟨r₂, he, hm⟩, ha⟩ := hp
  obtain ⟨fields, hf, hempty, hfound⟩ := matchExact_results he hs
  have hreach : s.Reaches (.between r₂ s.laterTasks) := Engine.matchExact_steps he
  have hsteps := Engine.laterTasks_steps hm ha
  have hsound := Engine.sound_of_reaches hreach
  have hindexed : ¬ (Engine.between r₂ s.laterTasks).IsIndexed slot := by
    rintro ⟨owner, ho⟩
    exact fixed_not_mem_laterTasks ho
  refine ⟨fields, hf, ?_, ?_⟩
  · intro hn
    have hclosed := hsound.partitions.not_mem_remaining (hfound hn)
    obtain ⟨hclosed, hkept⟩ := hsound.results_eq hsteps hindexed hclosed
    exact ⟨hclosed, hkept.trans (hfound hn)⟩
  · intro hn recorded hg
    -- The first pass leaves the slot open, since it has no results then.
    have hopen : slot ∈ r₂.remaining := by
      rcases List.mem_append.1 (hsound.partitions.mem_iff.2 hs) with ho | hk
      · exact ho
      · exact absurd hk (Table.get?_eq_none.1 (hempty hn))
    have hend := Engine.sound_of_reaches (hreach.trans hsteps)
    obtain ⟨d, d', hd, hstep, hd', hi, ho, hc, set, hrec, hget⟩ :=
      hsound.exists_record hsteps hindexed hopen (hend.partitions.not_mem_remaining hg)
    have hsound' := Engine.sound_of_reaches ((hreach.trans hd).tail hstep)
    have hlater : ∀ later, Engine.Steps s d' later → later.run.results.get? slot = some set :=
      fun later hl => (hsound'.results_eq hl hi hc).2.trans hget
    have heq : set = recorded := Option.some.inj ((hlater _ hd').symm.trans hg)
    subst heq
    exact ⟨⟨d, d', set, hreach.trans hd, hstep, hd', ho, hrec, hlater,
      Match.Renoted.refl_list set⟩, hrec⟩

theorem SetDownOnce.renoted {e : Engine} {recorded : List Match}
    (h : s.SetDownOnce e slot recorded) (hr : List.Forall₂ Match.Renoted recorded ms)
    (hg : e.run.results.get? slot = some recorded) : s.SetDownOnce e slot ms := by
  obtain ⟨before, after, set, hb, hstep, ha, ho, hrec, hl, -⟩ := h
  cases (hl e ha).symm.trans hg
  exact ⟨before, after, _, hb, hstep, ha, ho, hrec, hl, hr⟩

theorem uniform_of_get? {r : Run} (hp : s.passes = .ok r) (hg : r.results.get? slot = some ms) :
    ∃ kind, kind ≠ .unresolved ∧ Match.Uniform slot kind ms := by
  have hpart := (Engine.sound_of_reaches (Engine.passes_steps hp)).partitions
  have hs : slot ∈ s.observed.keys :=
    hpart.mem_iff.1 (List.mem_append_right _ (Table.mem_keys.2 ⟨ms, hg⟩))
  obtain ⟨fields, hf, hfound, hlater⟩ := passes_source hp hs
  by_cases hn : fields = []
  · exact (hlater hn ms hg).2.uniform
  · cases (hfound hn).2.symm.trans hg
    exact ⟨.exact, by simp, Match.uniform_sortBy hn (fun m hm => (Layout.mem_fixedFields hf hm).1)
      fun m hm => (Layout.mem_fixedFields hf hm).2⟩

theorem attributed_of_get? {r : Run} {recorded : List Match} (hp : s.passes = .ok r)
    (hs : slot ∈ s.observed.keys) (hg : r.results.get? slot = some recorded)
    (hr : List.Forall₂ Match.Renoted recorded ms) :
    s.Attributed (.between r []) slot ms := by
  obtain ⟨kind, hku, hu⟩ := uniform_of_get? hp hg
  obtain ⟨fields, hf, hfound, hlater⟩ := passes_source hp hs
  have hu' := hu.renoted hr
  refine ⟨⟨kind, hu'⟩, ?_, fields, hf, ?_, ?_⟩
  · intro m hm hk
    exact absurd ((hu'.kind_eq m hm).symm.trans hk) hku
  · intro hn
    cases (hfound hn).2.symm.trans hg
    refine Match.Renoted.eq_of_forall hr fun m hm hk => ?_
    have hx := (Layout.mem_fixedFields hf ((perm_sortBy _ _).mem_iff.1 hm)).2
    rw [hk] at hx
    cases hx
  · intro hn
    exact .inl ((hlater hn recorded hg).1.renoted hr hg)

theorem attributed_of_open {r : Run} {note : String} (hp : s.passes = .ok r)
    (hs : slot ∈ s.observed.keys) (ho : slot ∈ r.remaining) :
    s.Attributed (.between r []) slot [Match.unresolved slot note] := by
  obtain ⟨fields, hf, hfound, -⟩ := passes_source hp hs
  refine ⟨⟨.unresolved, Match.uniform_unresolved note⟩, ?_, fields, hf,
    fun hn => absurd ho (hfound hn).1, fun _ => .inr ⟨note, rfl⟩⟩
  intro m hm _
  rw [List.mem_singleton.1 hm]

theorem slots_of_run {results : List (Int × List Match)} (h : s.run = .ok results) :
    (results.map Prod.fst).Pairwise (· < ·) ∧ (results.map Prod.fst).Perm s.observed.keys := by
  obtain ⟨r, marked, others, hp, -, -, hsort⟩ := run_cases h
  have hpart := (Engine.sound_of_reaches (Engine.passes_steps hp)).partitions
  have hperm : (results.map Prod.fst).Perm s.observed.keys :=
    (keys_of_run h hp).trans (List.perm_append_comm.trans hpart)
  refine ⟨pairwise_lt_of_nodup (hperm.nodup_iff.2 s.observed.nodup) ?_, hperm⟩
  rw [hsort]
  exact sorted_sortBy _ _

theorem attributed_of_mem {results : List (Int × List Match)} {r : Run} (h : s.run = .ok results)
    (hp : s.passes = .ok r) (hm : (slot, ms) ∈ results) :
    s.Attributed (.between r []) slot ms := by
  have hs : slot ∈ s.observed.keys :=
    (slots_of_run h).2.mem_iff.1 (List.mem_map.2 ⟨_, hm, rfl⟩)
  rcases mem_run h hp hm with ⟨recorded, hg, hr⟩ | ⟨ho, note, -, rfl⟩
  · exact attributed_of_get? hp hs hg hr
  · exact attributed_of_open hp hs ho

/-- A run reports each observed slot once, in ascending order, with results of one kind. The state
after the passes is one that the machine reaches, and in each such state the open slots and the
resolved ones are a partition of the observed ones. -/
theorem run_attributes {results : List (Int × List Match)} (h : s.run = .ok results) :
    (results.map Prod.fst).Pairwise (· < ·) ∧
      (∀ slot, slot ∈ results.map Prod.fst ↔ slot ∈ s.observed.keys) ∧
      (∀ e, s.Reaches e → s.Partitions e.run.remaining e.run.results) ∧
      ∃ r, s.passes = .ok r ∧ s.Reaches (.between r []) ∧
        ∀ slot ms, (slot, ms) ∈ results → s.Attributed (.between r []) slot ms := by
  obtain ⟨r, -, -, hp, -⟩ := run_cases h
  obtain ⟨hsorted, hperm⟩ := slots_of_run h
  exact ⟨hsorted, fun slot => hperm.mem_iff, fun e he => (Engine.sound_of_reaches he).partitions,
    r, hp, Engine.passes_steps hp, fun slot ms => attributed_of_mem h hp⟩

theorem run_attributes_sample : ∃ results, (sample .standard).run = .ok results ∧
    (results.map fun e => (e.1, e.2.map (·.kind))) =
      [(0, [.exact]), (7, [.unresolved]), (sampleItems + 1, [.mapping]), (sampleList, [.mapping])] ∧
    (results.map Prod.fst).Pairwise (· < ·) ∧
    ∃ r, (sample .standard).passes = .ok r ∧ ∀ slot ms, (slot, ms) ∈ results →
      (sample .standard).Attributed (.between r []) slot ms := by
  obtain ⟨results, h, hk⟩ : ∃ results, (sample .standard).run = .ok results ∧
      (results.map fun e => (e.1, e.2.map (·.kind))) = [(0, [.exact]), (7, [.unresolved]),
        (sampleItems + 1, [.mapping]), (sampleList, [.mapping])] :=
    exists_ok_of_toOption (by decide +kernel)
  obtain ⟨hs, -, -, r, hp, -, ha⟩ := run_attributes h
  exact ⟨results, h, hk, hs, r, hp, ha⟩

end Scene

end SlotLens

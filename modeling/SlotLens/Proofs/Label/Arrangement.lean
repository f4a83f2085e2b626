import SlotLens.Proofs.Label.Lossless

/-!
# How entries are arranged

Each match of an account has an entry of its own under its name, and there are no other entries. The
entries of a name stand in the order of their slots and offsets, and so do the names by their first
entries.
-/

namespace SlotLens

section Groups

variable {α κ : Type} [DecidableEq κ] {key : α → κ} {items : List α} {a : α}

theorem filter_key_cons_self :
    (a :: items).filter (key · = key a) = a :: items.filter (key · = key a) :=
  List.filter_cons_of_pos (decide_eq_true rfl)

theorem filter_key_cons_of_ne {k : κ} (h : k ≠ key a) : (a :: items).filter (key · = k) =
    (items.filter (key · ≠ key a)).filter (key · = k) := by
  rw [List.filter_cons_of_neg (by simpa using h.symm), List.filter_filter]
  refine List.filter_congr fun b _ => ?_
  by_cases hb : key b = k
  · simp [hb, h]
  · simp [hb]

theorem eraseDups_map_cons : ((a :: items).map key).eraseDups =
    key a :: ((items.filter (key · ≠ key a)).map key).eraseDups := by
  rw [List.map_cons, List.eraseDups_cons, List.filter_map]
  congr 3
  refine List.filter_congr fun b _ => ?_
  exact Bool.eq_iff_iff.2 (by simp)

theorem ne_of_mem_eraseDups {k : κ}
    (h : k ∈ ((items.filter (key · ≠ key a)).map key).eraseDups) : k ≠ key a := by
  rw [List.mem_eraseDups, List.mem_map] at h
  obtain ⟨b, hb, rfl⟩ := h
  simpa using (List.mem_filter.1 hb).2

def groupsBy (key : α → κ) (items : List α) : List (List α) :=
  (items.map key).eraseDups.map fun k => items.filter (key · = k)

theorem groupsBy_cons : groupsBy key (a :: items) =
    (a :: items.filter (key · = key a)) :: groupsBy key (items.filter (key · ≠ key a)) := by
  rw [groupsBy, eraseDups_map_cons, List.map_cons, filter_key_cons_self]
  refine congrArg _ (List.map_congr_left fun k hk => ?_)
  exact filter_key_cons_of_ne (ne_of_mem_eraseDups hk)

theorem length_filter_lt_cons (p : α → Bool) :
    (items.filter p).length < (a :: items).length :=
  Nat.lt_succ_of_le (List.length_filter_le p items)

theorem flatten_groupsBy_perm (items : List α) : (groupsBy key items).flatten.Perm items := by
  match items with
  | [] => exact .refl _
  | a :: items =>
    have hrest := flatten_groupsBy_perm (items.filter (key · ≠ key a))
    rw [groupsBy_cons, List.flatten_cons, List.cons_append]
    refine List.Perm.cons a ((List.Perm.append_left _ hrest).trans ?_)
    simpa using List.filter_append_perm (fun b => decide (key b = key a)) items
termination_by items.length
decreasing_by exact length_filter_lt_cons _

theorem pairwise_groupsBy {R : α → α → Prop} {items : List α} (h : items.Pairwise R) :
    (groupsBy key items).Pairwise fun g g' => ∀ a ∈ g.head?, ∀ b ∈ g'.head?, R a b := by
  match items with
  | [] => exact .nil
  | a :: items =>
    obtain ⟨hfirst, hrest⟩ := List.pairwise_cons.1 h
    rw [groupsBy_cons]
    refine List.pairwise_cons.2 ⟨fun g hg b hb c hc => ?_, pairwise_groupsBy (hrest.filter _)⟩
    obtain rfl : a = b := by simpa using hb
    obtain ⟨k, -, rfl⟩ := List.mem_map.1 hg
    have hmem := List.mem_of_mem_filter (List.mem_of_mem_head? hc)
    exact hfirst c (List.mem_of_mem_filter hmem)
termination_by items.length
decreasing_by exact length_filter_lt_cons _

end Groups

namespace Match

/-- One match stands in front of another in a report: by the slots, and in a slot by the offsets. -/
def Precedes (m m' : Match) : Prop :=
  m.slot < m'.slot ∨ m.slot = m'.slot ∧ m.offset ≤ m'.offset

theorem precedes_of_lt {ms ms' : List Match} {slot slot' : Int} (hlt : slot < slot')
    (h : ∀ m ∈ ms, m.slot = slot) (h' : ∀ m ∈ ms', m.slot = slot') :
    ∀ m ∈ ms, ∀ m' ∈ ms', m.Precedes m' := by
  intro m hm m' hm'
  rw [Precedes, h m hm, h' m' hm']
  exact .inl hlt

theorem Uniform.pairwise_precedes {slot : Int} {kind : MatchKind} {ms : List Match}
    (hu : Uniform slot kind ms) : ms.Pairwise Precedes := by
  refine hu.sorted.imp_of_mem fun hm hm' hle => .inr ⟨?_, hle⟩
  exact (hu.slot_eq _ hm).trans (hu.slot_eq _ hm').symm

end Match

theorem Scene.pairwise_precedes_of_run {s : Scene} {results : List (Int × List Match)}
    (h : s.run = .ok results) : (results.flatMap Prod.snd).Pairwise Match.Precedes := by
  obtain ⟨r, -, -, hp, -⟩ := run_cases h
  have hu (e : Int × List Match) (he : e ∈ results) : ∃ kind, Match.Uniform e.1 kind e.2 :=
    (attributed_of_mem h hp he).uniform
  have hslots := List.pairwise_map.1 (slots_of_run h).1
  refine List.pairwise_flatMap.2 ⟨fun e he => ?_, hslots.imp_of_mem fun he he' hlt => ?_⟩
  · obtain ⟨kind, hu⟩ := hu e he
    exact hu.pairwise_precedes
  · obtain ⟨kind, hu₁⟩ := hu _ he
    obtain ⟨kind', hu₂⟩ := hu _ he'
    exact Match.precedes_of_lt hlt hu₁.slot_eq hu₂.slot_eq

namespace Label

variable {a : Account} {layout : Option Layout} {candidates : List Candidate} {bounds : Bounds}
  {lengths : Lengths} {matched : List Match} {m : Match} {e : TraceEntry} {state : LabeledState}
  {storage storage' : Table String LabeledVariable}

theorem pairwise_precedes_of_matchAccount
    (h : matchAccount a layout candidates bounds lengths = .ok matched) :
    matched.Pairwise Match.Precedes := by
  cases layout with
  | none =>
    cases h
    refine List.pairwise_map.2 ((sorted_sortBy id a.storage.keys).imp fun {x y} hle => ?_)
    rcases Int.lt_or_eq_of_le hle with hlt | heq
    · exact .inl hlt
    · exact .inr ⟨heq, Int.le_refl 0⟩
  | some layout =>
    obtain ⟨results, hrun, rfl⟩ := map_eq_ok.1 h
    exact Scene.pairwise_precedes_of_run hrun

section Names

def namesOf (matched : List Match) : List String := (matched.map (·.name.plain)).eraseDups

theorem namesOf_append (m : Match) : namesOf (matched ++ [m]) =
    if m.name.plain ∈ namesOf matched then namesOf matched
    else namesOf matched ++ [m.name.plain] := by
  simp only [namesOf, List.mem_eraseDups]
  rw [List.map_append, List.map_singleton, eraseDups_concat]

theorem keys_assemble (hs : ∀ m ∈ matched, m.slot ∈ a.storage.keys)
    (h : assemble a layout matched = .ok storage) : storage.keys = namesOf matched := by
  obtain ⟨-, -, h⟩ := bind_eq_ok.1 h
  let good (done : List Match) (storage : Table String LabeledVariable) : Prop :=
    (∀ m ∈ done, m.slot ∈ a.storage.keys) → storage.keys = namesOf done
  have hstart : good [] .empty := fun _ => rfl
  refine foldlM_keeps ?_ hstart h hs
  intro done m storage storage' hg hm hs
  obtain ⟨e, -, rfl⟩ := addMatch_cases (hs m (List.mem_append_right _ List.mem_cons_self)) hm
  rw [addEntry, Table.keys_insert, hg fun m hm => hs m (List.mem_append_left _ hm),
    namesOf_append]

end Names

structure StandsFor (a : Account) (m : Match) (e : TraceEntry) : Prop where
  tells : Tells a m e
  slots : e.toValue.lookup "slots" = some (.list [.text (Slot.hex m.slot)])
  path : m.path <+: e.path

theorem Tells.standsFor (h : Tells a m e) : StandsFor a m e := by
  refine ⟨h, h.slot_eq ▸ e.lookup_slots, ?_⟩
  obtain ⟨access, -, he⟩ := h
  rcases (TraceEntry.shows_of_ofMatch he).path with hp | hp
  · exact hp ▸ List.prefix_rfl
  · exact hp ▸ List.prefix_append _ _

/-- A variable holds the entries of some matches, one for each and in their order. -/
structure HoldsMatches (a : Account) (name : String) (ms : List Match) (v : LabeledVariable) :
    Prop where
  name_eq : v.name = name
  named : ∀ m ∈ ms, m.name = .text name
  trace : List.Forall₂ (StandsFor a) ms v.trace

theorem Gathers.holdsMatches {name : String} {v : LabeledVariable}
    (h : Gathers a layout matched name (some v)) :
    under name matched ≠ [] ∧ HoldsMatches a name (under name matched) v := by
  obtain ⟨first, rest, hu, hv, htrace⟩ := h
  rw [← hu] at htrace
  refine ⟨hu ▸ List.cons_ne_nil _ _, by rw [hv], fun m hm => ?_, ?_⟩
  · obtain ⟨e, -, ht⟩ := exists_of_forall₂ htrace.flip hm
    exact (Tells.of_under ht hm).2
  · exact htrace.imp fun m e ht => ht.standsFor

/-- The matches of an account, in groups with one name each, make up its variables. Each match is in
one group, and the entries of a variable stand for the matches of its group. -/
structure Arranges (a : Account) (matched : List Match) (groups : List (String × List Match))
    (storage : Table String LabeledVariable) : Prop where
  once : (groups.flatMap Prod.snd).Perm matched
  holds : List.Forall₂ (fun g e => e.1 = g.1 ∧ HoldsMatches a g.1 g.2 e.2) groups storage.entries
  nonempty : ∀ v ∈ storage.values, v.trace ≠ []
  inside : ∀ g ∈ groups, g.2.Pairwise Match.Precedes
  across : groups.Pairwise fun g g' =>
    ∀ m ∈ g.2.head?, ∀ m' ∈ g'.2.head?, m.Precedes m'

theorem arranges_of_gathers (hm : matched.Pairwise Match.Precedes)
    (hk : storage.keys = namesOf matched)
    (hg : ∀ name, Gathers a layout matched name (storage.get? name)) :
    Arranges a matched (storage.keys.map fun name => (name, under name matched)) storage := by
  have hsnd : (storage.keys.map fun name => (name, under name matched)).map Prod.snd =
      groupsBy (·.name.plain) matched := by
    rw [List.map_map, hk]
    rfl
  have hv (e : String × LabeledVariable) (he : e ∈ storage.entries) :
      under e.1 matched ≠ [] ∧ HoldsMatches a e.1 (under e.1 matched) e.2 := by
    have hg := hg e.1
    rw [Table.get?_eq_some.2 (show (e.1, e.2) ∈ storage.entries from he)] at hg
    exact hg.holdsMatches
  refine ⟨?_, ?_, ?_, ?_, ?_⟩
  · rw [List.flatMap_def, hsnd]
    exact flatten_groupsBy_perm matched
  · rw [Table.keys, List.map_map, List.forall₂_map_left_iff, List.forall₂_same]
    exact fun e he => ⟨rfl, (hv e he).2⟩
  · intro v hmem hempty
    obtain ⟨e, he, rfl⟩ := List.mem_map.1 hmem
    obtain ⟨hne, hholds⟩ := hv e he
    have htrace := hholds.trace
    rw [hempty, List.forall₂_nil_right_iff] at htrace
    exact hne htrace
  · intro g hgroup
    obtain ⟨name, -, rfl⟩ := List.mem_map.1 hgroup
    exact hm.filter _
  · have hp : (groupsBy (·.name.plain) matched).Pairwise _ := pairwise_groupsBy hm
    rw [← hsnd] at hp
    exact List.pairwise_map.1 hp

/-- A labeled account holds one entry for each match, under the name of the match, and no others.
The entries of a variable are ordered by their slots and offsets, and so are the variables by their
first entries. -/
theorem account_arranges (h : account a layout candidates bounds lengths = .ok state) :
    ∃ matched groups, matchAccount a layout candidates bounds lengths = .ok matched ∧
      Arranges a matched groups state.storage := by
  obtain ⟨matched, hm, h⟩ := bind_eq_ok.1 h
  obtain ⟨storage, hs, h⟩ := bind_eq_ok.1 h
  cases pure_eq_ok.1 h
  have hslots : ∀ m ∈ matched, m.slot ∈ a.storage.keys :=
    fun m hmem => (slots_of_matchAccount hm _).1 ⟨m, hmem, rfl⟩
  exact ⟨matched, _, hm, arranges_of_gathers (pairwise_precedes_of_matchAccount hm)
    (keys_assemble hslots hs) (assemble_gathers hslots hs)⟩

theorem account_arranges_sample : ∃ state matched groups,
    account ⟨"", (Scene.sample .standard).observed, []⟩ (some (Scene.sample .standard).layout)
      [Scene.sampleKey] .standard .empty = .ok state ∧
    (state.storage.entries.map fun e => (e.1, e.2.trace.map (·.slot))) =
      [("owner", [0]), (Match.slotName 7, [7]),
        ("lists", [Scene.sampleItems + 1, Scene.sampleList])] ∧
    Arranges ⟨"", (Scene.sample .standard).observed, []⟩ matched groups state.storage := by
  obtain ⟨state, h, hk⟩ : ∃ state,
      account ⟨"", (Scene.sample .standard).observed, []⟩ (some (Scene.sample .standard).layout)
        [Scene.sampleKey] .standard .empty = .ok state ∧
      (state.storage.entries.map fun e => (e.1, e.2.trace.map (·.slot))) =
        [("owner", [0]), (Match.slotName 7, [7]),
          ("lists", [Scene.sampleItems + 1, Scene.sampleList])] :=
    exists_ok_of_toOption (by decide +kernel)
  obtain ⟨matched, groups, -, ha⟩ := account_arranges h
  exact ⟨state, matched, groups, h, hk, ha⟩

end Label

end SlotLens

import SlotLens.Proofs.Search.Attribution
import SlotLens.Proofs.Search.Monotone

namespace SlotLens

def Bounds.unlimited (b : Bounds) : Bounds :=
  ⟨none, none, b.threshold, none_pos, b.threshold_pos⟩

def Scene.unlimited (s : Scene) : Scene := { s with bounds := s.bounds.unlimited }

structure Tally.Quiet (t : Tally) : Prop where
  limit : t.limitHit = false
  depth : t.depthHit = false

theorem Tally.FlagsIn.quiet {t t' : Tally} (h : t.FlagsIn t') (hq : t'.Quiet) : t.Quiet := by
  constructor
  · rw [← Bool.not_eq_true]
    intro hl
    have := h.limit hl
    rw [hq.limit] at this
    cases this
  · rw [← Bool.not_eq_true]
    intro hd
    have := h.depth hd
    rw [hq.depth] at this
    cases this

variable {s : Scene} {owner element value : Descriptor} {item : WorkItem} {h h' : Hunt}
  {keyType : Value} {front : List WorkItem} {ok : Bool}

namespace Hunt

theorem spend_unlimited {b : Bounds} (hp : h.spend b = (h', true)) :
    h.spend b.unlimited = (h', true) := by
  simp only [spend, Tally.spend] at hp ⊢
  split at hp
  · cases hp
  · exact hp

theorem limitHit_of_spend {b : Bounds} (hp : h.spend b = (h', false)) :
    h'.tally.limitHit = true := by
  simp only [spend, Tally.spend] at hp
  split at hp
  · cases hp
    rfl
  · cases hp

end Hunt

namespace Scene

theorem enter_unlimited (he : s.enter item h = (h', ok)) (hq : h'.tally.Quiet) :
    s.unlimited.enter item h = (h', ok) := by
  have hl' := hq.limit
  rw [enter] at he ⊢
  split at he
  · next hl => rw [if_pos hl, he]
  · next hl =>
    rw [if_neg hl]
    split at he
    · next hs =>
      have hs' : h.tally.isStopped s.unlimited.bounds := hs
      rw [if_pos hs', he]
    · next hs =>
      have hs' : ¬ h.tally.isStopped s.unlimited.bounds := hs
      rw [if_neg hs']
      cases ok with
      | false =>
        rw [Hunt.limitHit_of_spend he] at hl'
        cases hl'
      | true => exact Hunt.spend_unlimited he

theorem pushNested_unlimited {base : Int} {level : Nat} {path : Path}
    (hq : (s.pushNested value base level path h).tally.Quiet) :
    s.unlimited.pushNested value base level path h = s.pushNested value base level path h := by
  unfold pushNested at hq ⊢
  dsimp only at hq ⊢
  rw [if_pos (show s.unlimited.bounds.depthAllows (level + 1) from rfl)]
  split
  · rfl
  · next hd =>
    rw [if_neg hd] at hq
    split
    · next hn =>
      have hn' : value.containers.filter (s.unlimited.isSearchable base) = [] :=
        List.isEmpty_iff.1 hn
      rw [hn']
      simp
    · next hn =>
      rw [if_neg hn] at hq
      cases hq.depth

theorem tryKey_unlimited {c : Candidate} (ht : s.tryKey owner item keyType value c h = .ok h')
    (hq : h'.tally.Quiet) : s.unlimited.tryKey owner item keyType value c h = .ok h' := by
  rw [tryKey, bind_eq_ok] at ht ⊢
  obtain ⟨derived, hd, ht⟩ := ht
  refine ⟨derived, hd, ?_⟩
  dsimp only at ht ⊢
  split at ht
  · next hm => rw [if_pos hm, ht]
  · next hm =>
    rw [if_neg hm]
    simp only [bind_eq_ok, pure_eq_ok] at ht ⊢
    obtain ⟨key, hk, h₁, hv, rfl⟩ := ht
    exact ⟨key, hk, h₁, hv, pushNested_unlimited hq⟩

theorem expandMapping_unlimited {rest : List Candidate}
    (he : s.expandMapping owner item keyType value rest h = .ok h') (hq : h'.tally.Quiet) :
    s.unlimited.expandMapping owner item keyType value rest h = .ok h' := by
  induction rest generalizing h with
  | nil => exact he
  | cons c rest ih =>
    have hthreshold : s.unlimited.bounds.thresholdReached h.tally.found =
      s.bounds.thresholdReached h.tally.found := rfl
    rw [expandMapping, hthreshold]
    rcases expandMapping_cons he with ⟨hs, rfl⟩ | ⟨hr, hf, hp | ⟨h₁, h₂, hp, ht, he⟩⟩
    · rw [if_pos (by simpa using hs)]
    · cases (Hunt.limitHit_of_spend hp).symm.trans hq.limit
    · have hsteps : Search.Steps s owner ⟨h₂, [], .keys item keyType value rest⟩
          ⟨h', [], .waiting⟩ := Search.expandMapping_steps he
      have hp' : h.spend s.unlimited.bounds = (h₁, true) := Hunt.spend_unlimited hp
      rw [if_neg (by simp [hr, hf]), hp']
      exact bind_eq_ok.2 ⟨h₂, tryKey_unlimited ht (hsteps.flags.quiet hq), ih he⟩

theorem pushElements_unlimited {data : Int} {count index : Nat}
    (hq : (s.pushElements element data item front.length count index h).tally.Quiet) :
    s.unlimited.pushElements element data item front.length count index h =
      s.pushElements element data item front.length count index h := by
  induction count generalizing index h with
  | zero => rfl
  | succ count ih =>
    have hstop : h.tally.isStopped s.unlimited.bounds = h.tally.isStopped s.bounds := rfl
    have hfull : (h.tally.budgetLeft s.unlimited.bounds).any (· ≤ front.length + h.next.size) =
      false := rfl
    rw [pushElements] at hq ⊢
    rw [pushElements, hstop, hfull]
    split
    · rfl
    · next hs =>
      rw [if_neg hs] at hq
      split at hq
      · cases hq.limit
      · next hb =>
        have hsteps : Search.Steps s element
          ⟨s.pushNested element (data + index * element.slotCount) item.level
            (item.path ++ [.index index]) h, front, .nested item element data count (index + 1)⟩
          ⟨_, front, .waiting⟩ := Search.pushElements_steps
        rw [if_neg hb, if_neg (by simp), pushNested_unlimited (hsteps.flags.quiet hq)]
        exact ih hq

theorem expandArray_unlimited
    (he : s.expandArray owner item element front.length h = .ok h') (hq : h'.tally.Quiet) :
    s.unlimited.expandArray owner item element front.length h = .ok h' := by
  rw [expandArray]
  rcases expandArray_cases he with ⟨hl, rfl⟩ | ⟨length, data, span, h₁, hl, hd, hs, hv, hn⟩
  · have hl' : s.unlimited.lengthAt item.base = none := hl
    rw [hl']
  · have hl' : s.unlimited.lengthAt item.base = some length := hl
    rw [hl']
    simp only [bind_eq_ok, pure_eq_ok]
    refine ⟨data, hd, span, hs, h₁, hv, ?_⟩
    rcases hn with ⟨hc, rfl⟩ | ⟨hc, rfl⟩
    · rw [if_neg (by simp [hc])]
    · rw [if_pos hc]
      exact pushElements_unlimited hq

theorem expand_unlimited (he : s.expand owner item front.length h = .ok h')
    (hq : h'.tally.Quiet) : s.unlimited.expand owner item front.length h = .ok h' := by
  rw [expand] at he ⊢
  split at he
  · exact expandMapping_unlimited he hq
  · exact expandArray_unlimited he hq
  · exact he
  · exact he

theorem exploreLevel_unlimited {items : List WorkItem} {goesOn : Bool}
    (he : s.exploreLevel owner items h = .ok (h', goesOn)) (hq : h'.tally.Quiet) :
    s.unlimited.exploreLevel owner items h = .ok (h', goesOn) := by
  induction items generalizing h with
  | nil => exact he
  | cons item rest ih =>
    rw [exploreLevel]
    rcases exploreLevel_cons he with ⟨hr, rfl, rfl⟩ | ⟨hr, ⟨hn, rfl⟩ | ⟨h₁, h₂, hn, hx, he⟩⟩
    · rw [if_pos (by simpa using hr)]
    · rw [if_neg (by simpa using hr), enter_unlimited hn hq]
      rfl
    · have hq₂ : h₂.tally.Quiet := by
        rcases Search.exploreLevel_steps he with ⟨-, hs⟩ | ⟨-, front, hs⟩
        · exact hs.flags.quiet hq
        · exact hs.flags.quiet hq
      have hq₁ : h₁.tally.Quiet := (Search.expand_steps hx).flags.quiet hq₂
      rw [if_neg (by simpa using hr), enter_unlimited hn hq₁]
      exact bind_eq_ok.2 ⟨h₂, expand_unlimited hx hq₂, ih he⟩

theorem exploreLevels_unlimited {levels : Nat} {items : List WorkItem}
    (hh : ∀ i ∈ items, i.container.height ≤ levels)
    (he : s.exploreLevels owner levels items h = .ok h') (hq : h'.tally.Quiet) :
    s.unlimited.exploreLevels owner levels items h = .ok h' := by
  induction levels generalizing items h with
  | zero => exact he
  | succ levels ih =>
    rw [exploreLevels]
    by_cases hi : items = []
    · subst hi
      exact he
    · rw [if_neg (by simpa using hi), bind_eq_ok]
      rcases exploreLevels_succ hi he with hl | ⟨h₁, hl, he⟩
      · exact ⟨_, exploreLevel_unlimited hl hq, rfl⟩
      · have hheight := Search.exploreLevel_height hh (by simp) hl
        obtain ⟨front, hs⟩ := Search.exploreLevels_resume hheight he
        exact ⟨_, exploreLevel_unlimited hl (hs.flags.quiet hq), ih hheight he⟩

theorem exploreRoot_unlimited {root : Root} (he : s.exploreRoot root h = .ok h')
    (hq : h'.tally.Quiet) : s.unlimited.exploreRoot root h = .ok h' := by
  refine exploreLevels_unlimited ?_ he hq
  intro i hi
  cases List.mem_singleton.1 hi
  exact Nat.le_refl _

end Scene

def Run.Quiet (r : Run) : Prop := ∀ key t, r.tallies.get? key = some t → t.Quiet

theorem Engine.Steps.quiet {e e' : Engine} (st : Engine.Steps s e e') (hq : e'.run.Quiet) :
    e.run.Quiet := by
  intro key t hg
  obtain ⟨t', hg', hf⟩ := st.flags hg
  exact hf.quiet (hq key t' hg')

namespace Scene

variable {r r' : Run}

theorem matchRoot_unlimited {root : Root} (hm : s.matchRoot r root = .ok r') (hq : r'.Quiet) :
    s.unlimited.matchRoot r root = .ok r' := by
  rw [matchRoot]
  rcases matchRoot_cases hm with ⟨hn, rfl⟩ | ⟨hn, key, h, hk, he, rfl⟩
  · rw [if_pos (by simpa using hn)]
    rfl
  · have hquiet : h.tally.Quiet := hq key h.tally (by simp [Table.get?_insert])
    rw [if_neg (by simpa using hn)]
    simp only [bind_eq_ok, liftM_eq_ok, pure_eq_ok]
    exact ⟨key, hk, h, exploreRoot_unlimited he hquiet, rfl⟩

theorem roots_unlimited {roots : List Root} (hm : roots.foldlM s.matchRoot r = .ok r')
    (hq : r'.Quiet) : roots.foldlM s.unlimited.matchRoot r = .ok r' := by
  induction roots generalizing r with
  | nil => exact hm
  | cons root roots ih =>
    rw [List.foldlM_cons, bind_eq_ok] at hm ⊢
    obtain ⟨r₁, hroot, hm⟩ := hm
    have hsteps : Engine.Steps s (.between r₁ (roots.map .root ++ [])) (.between r' []) :=
      Engine.roots_steps hm
    exact ⟨r₁, matchRoot_unlimited hroot (hsteps.quiet hq), ih hm⟩

theorem passes_unlimited (hp : s.passes = .ok r) (hq : r.Quiet) :
    s.unlimited.passes = .ok r := by
  simp only [passes, matchArrays, bind_eq_ok] at hp ⊢
  obtain ⟨r₁, ⟨r₂, he, hm⟩, r₃, hs, ha⟩ := hp
  have harrays : Engine.Steps s
      (.between r₃ ((s.layout.arrayRoots ++ s.layout.bytesRoots).map .root ++ []))
      (.between r []) := Engine.roots_steps ha
  have hq₃ : r₃.Quiet := harrays.quiet hq
  have hstatic : Engine.Steps s (.between r₁ (s.layout.staticArrays.map .staticArray ++ []))
      (.between r₃ []) := Engine.staticArrays_steps hs
  exact ⟨r₁, ⟨r₂, he, roots_unlimited hm (hstatic.quiet hq₃)⟩, r₃, hs, roots_unlimited ha hq⟩

section Notes

variable {holds : Tally → Bool} {tallies : Table LabelKey Tally}

theorem insertText_ne_nil {a : String} {texts : List String} : insertText a texts ≠ [] := by
  cases texts with
  | nil => simp [insertText]
  | cons b rest =>
    rw [insertText]
    split <;> simp

theorem labelsWhere_eq_nil (h : labelsWhere holds tallies = .ok []) {key : LabelKey} {t : Tally}
    (hg : tallies.get? key = some t) : holds t = false := by
  obtain ⟨found, hf, h⟩ := bind_eq_ok.1 h
  have hnil : found = [] := by
    cases found with
    | nil => rfl
    | cons a found => exact absurd (pure_eq_ok.1 h) insertText_ne_nil
  subst hnil
  have hfilter : tallies.entries.filter (fun e => holds e.2) = [] := by
    generalize tallies.entries.filter (fun e => holds e.2) = entries at hf
    cases mapM_eq_ok.1 hf
    rfl
  rw [List.filter_eq_nil_iff] at hfilter
  simpa using hfilter _ (Table.get?_eq_some.1 hg)

theorem unresolvedNote_plain {b : Bounds}
    (h : unresolvedNote b tallies = .ok "Could not label this slot access.") :
    (∀ key t, tallies.get? key = some t → t.Quiet) ∧
      unresolvedNote b.unlimited tallies = .ok "Could not label this slot access." := by
  simp only [unresolvedNote, bind_eq_ok, pure_eq_ok] at h ⊢
  obtain ⟨limited, hl, deep, hd, h⟩ := h
  have hlength := congrArg String.length h
  simp only [String.length_append] at hlength
  have hlimited : limited = [] := by
    by_contra hn
    have hword : (" Exploration stopped at the limit of " : String).length = 37 := by decide
    have hc : ¬ limited.isEmpty := by simpa using hn
    rw [if_neg hc] at hlength
    simp only [String.length_append] at hlength
    omega
  have hdeep : deep = [] := by
    by_contra hn
    have hword : (" Nested containers deeper than " : String).length = 31 := by decide
    have hc : ¬ deep.isEmpty := by simpa using hn
    rw [if_neg hc] at hlength
    simp only [String.length_append] at hlength
    omega
  subst hlimited hdeep
  refine ⟨fun key t hg => ⟨labelsWhere_eq_nil hl hg, labelsWhere_eq_nil hd hg⟩, [], hl, [], hd, rfl⟩

end Notes

theorem unresolved_unlimited {note : String} {others : List (Int × List Match)}
    (h : s.unresolved r = .ok others)
    (hn : unresolvedNote s.bounds r.tallies = .ok note)
    (hn' : unresolvedNote s.unlimited.bounds r.tallies = .ok note) :
    s.unlimited.unresolved r = .ok others := by
  rw [unresolved] at h ⊢
  rw [hn']
  rw [hn] at h
  exact h

/-- Where a slot is reported as not resolved without a word on the limit or the depth, a run without
these two bounds reports the same for every slot. -/
theorem run_unlimited {results : List (Int × List Match)} {slot : Int} {ms : List Match} {m : Match}
    (h : s.run = .ok results) (hs : (slot, ms) ∈ results) (hm : m ∈ ms)
    (hk : m.kind = .unresolved) (hn : m.note = some "Could not label this slot access.") :
    s.unlimited.run = .ok results := by
  obtain ⟨r, marked, others, hp, ha, ho, rfl⟩ := run_cases h
  rcases mem_run h hp hs with ⟨recorded, hg, hr⟩ | ⟨-, note, hnote, rfl⟩
  · obtain ⟨kind, hu, huni⟩ := uniform_of_get? hp hg
    exact absurd (((huni.renoted hr).kind_eq m hm).symm.trans hk) hu
  · cases List.mem_singleton.1 hm
    cases Option.some.inj hn
    obtain ⟨hq, hnote'⟩ := unresolvedNote_plain hnote
    simp only [run, bind_eq_ok, liftM_eq_ok, pure_eq_ok]
    exact ⟨r, passes_unlimited hp hq, marked, ha, others,
      unresolved_unlimited ho hnote hnote', rfl⟩

theorem run_unlimited_sample : ∃ results, (sample .standard).run = .ok results ∧
    (sample .standard).unlimited.run = .ok results ∧ 7 ∈ results.map Prod.fst := by
  obtain ⟨results, h, hk⟩ : ∃ results, (sample .standard).run = .ok results ∧
      (results.map fun e => (e.1, e.2.map fun m => (m.kind, m.note))) =
        [(0, [(.exact, none)]),
          (7, [(.unresolved, some "Could not label this slot access.")]),
          (sampleItems + 1, [(.mapping, none)]), (sampleList, [(.mapping, none)])] :=
    exists_ok_of_toOption (by decide +kernel)
  have hm : (7, [(MatchKind.unresolved, some "Could not label this slot access.")]) ∈
      results.map fun e => (e.1, e.2.map fun m => (m.kind, m.note)) := by
    rw [hk]
    simp
  obtain ⟨m, hms, he⟩ := exists_single hm
  obtain ⟨hkind, hnote⟩ := Prod.mk.inj he
  exact ⟨results, h, run_unlimited h hms (List.mem_singleton_self m) hkind hnote,
    List.mem_map.2 ⟨_, hms, rfl⟩⟩

end Scene

end SlotLens

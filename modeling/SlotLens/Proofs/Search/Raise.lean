import SlotLens.Proofs.Search.Attribution
import SlotLens.Proofs.Search.Lockstep

namespace SlotLens

variable {s : Scene} {b : Bounds} {r r' r₁ r₁' : Run} {root : Root} {agenda : List Task}

namespace Run

/-- The second run has closed all slots that the first one has. It has no open slot, or they have
come equally far for every label for which the first one is not over. -/
structure Ahead (b : Bounds) (r r' : Run) : Prop where
  sublist : r'.remaining.Sublist r.remaining
  progress : r'.remaining = [] ∨
    ∀ key, (r.tally key).IsOver b ∨ (r.tally key).Abreast (r'.tally key)

theorem Ahead.of_nil (hn : r'.remaining = []) : r.Ahead b r' :=
  ⟨hn ▸ List.nil_sublist _, .inl hn⟩

theorem ahead_refl (r : Run) : r.Ahead b r :=
  ⟨.refl _, .inr fun key => .inr (.refl (r.tally key))⟩

end Run

namespace Engine

def Persists (s : Scene) (b : Bounds) (e : Engine) : Prop :=
  b.limit = s.bounds.limit ∨ ∀ e', Steps s e e' → ¬ e'.GivesUp s

variable {e e' : Engine}

theorem Persists.steps (hp : Persists s b e) (st : Steps s e e') : Persists s b e' :=
  hp.imp_right fun h y hy => h y (st.trans hy)

theorem Persists.within {key : LabelKey} {x : Search}
    (hp : Persists s b (.within r root key x agenda)) :
    Search.Persists s b root.variableDescriptor x :=
  hp.imp_right fun h _ hy => h _ (within_steps hy)

end Engine

namespace Scene

variable {h h' h₁ h₁' : Hunt} {t t' : Tally}

theorem exploreRoot_cases (hr : h.remaining ≠ []) (he : s.exploreRoot root h = .ok h₁) :
    ∃ h₂, s.expand root.variableDescriptor (rootItem root) 0 { h with next := #[] } = .ok h₂ ∧
      s.exploreLevels root.variableDescriptor (root.container.height - 1) h₂.next.toList h₂ =
        .ok h₁ := by
  obtain ⟨levels, hl⟩ := Nat.exists_eq_add_of_le' root.container.one_le_height
  -- The container of the root is entered without a try, and no other one is at its level.
  have opened {h₂ : Hunt} {goesOn : Bool} (hx : s.exploreLevel root.variableDescriptor
      [rootItem root] { h with next := #[] } = .ok (h₂, goesOn)) : goesOn = true ∧
        s.expand root.variableDescriptor (rootItem root) 0 { h with next := #[] } = .ok h₂ := by
    rcases exploreLevel_cons hx with ⟨hn, -⟩ | ⟨-, ⟨hrefused, -⟩ | ⟨h₃, h₄, henter, hopen, hend⟩⟩
    · exact absurd hn hr
    · cases hrefused
    · cases henter
      cases hend
      exact ⟨rfl, hopen⟩
  rw [exploreRoot, hl] at he
  rcases exploreLevels_succ (List.cons_ne_nil _ _) he with hx | ⟨h₂, hx, he⟩
  · cases (opened hx).1
  · rw [hl]
    exact ⟨h₂, (opened hx).2, he⟩

theorem ahead_exploreRoot (hb : s.bounds.Raised b)
    (hg : Search.Persists s b root.variableDescriptor (.ofRoot r t root)) (hr : r.remaining ≠ [])
    (hr' : r'.remaining ≠ []) (ha : (beginHunt r t).Ahead s.bounds (beginHunt r' t'))
    (he : s.exploreRoot root (beginHunt r t) = .ok h₁)
    (he' : (s.under b).exploreRoot root (beginHunt r' t') = .ok h₁') :
    h₁.Ahead s.bounds h₁' := by
  obtain ⟨h₂, hx, he⟩ := exploreRoot_cases hr he
  obtain ⟨h₂', hx', he'⟩ := exploreRoot_cases hr' he'
  have hopen : Search.Persists s b root.variableDescriptor
      ⟨beginHunt r t, [], .opened (rootItem root)⟩ := hg.steps (.single (.enter hr rfl))
  have ha₂ : h₂.Ahead s.bounds h₂' := ahead_expand hb hopen ha hx hx'
  refine ahead_exploreLevels ?_ hb (hopen.steps (Search.expand_steps hx)) ha₂ he he'
  intro i hi
  rcases expand_next hx hi with hi | hi
  · exact absurd hi (by simp)
  · have hlevel := hi.level
    rw [hlevel]
    exact Nat.lt_succ_self 1

theorem ahead_matchRoot (hb : s.bounds.Raised b)
    (hg : Engine.Persists s b (.between r (.root root :: agenda))) (ha : r.Ahead s.bounds r')
    (hm : s.matchRoot r root = .ok r₁) (hm' : (s.under b).matchRoot r' root = .ok r₁') :
    r₁.Ahead s.bounds r₁' := by
  rcases matchRoot_cases hm' with ⟨hn, rfl⟩ | ⟨hr', key, h', hk', he', rfl⟩
  · exact .of_nil hn
  · have hr : r.remaining ≠ [] := by
      intro hn
      have hs := ha.sublist
      rw [hn, List.sublist_nil] at hs
      exact hr' hs
    rcases matchRoot_cases hm with ⟨hn, -⟩ | ⟨-, key', h, hk, he, rfl⟩
    · exact absurd hn hr
    · cases hk.symm.trans hk'
      have htallies := ha.progress.resolve_left hr'
      have hstart : (beginHunt r (r.tally key)).Ahead s.bounds (beginHunt r' (r'.tally key)) :=
        ⟨ha.sublist, .inr ((htallies key).imp_right fun hp => ⟨hp, rfl⟩)⟩
      have hsearch := (hg.steps (.single (.search hr hk))).within
      have hend := ahead_exploreRoot hb hsearch hr hr' hstart he he'
      refine ⟨hend.sublist, ?_⟩
      -- The tallies of other labels are as they were before the search.
      refine hend.progress.imp_right fun hp key' => ?_
      rw [Run.tally_insert, Run.tally_insert]
      split
      · exact hp.imp_right Hunt.Abreast.tally
      · exact htallies key'

theorem ahead_roots {roots : List Root} (hb : s.bounds.Raised b)
    (hg : Engine.Persists s b (.between r (roots.map .root ++ agenda))) (ha : r.Ahead s.bounds r')
    (hm : roots.foldlM s.matchRoot r = .ok r₁)
    (hm' : roots.foldlM (s.under b).matchRoot r' = .ok r₁') : r₁.Ahead s.bounds r₁' := by
  induction roots generalizing r r' with
  | nil =>
    cases hm
    cases hm'
    exact ha
  | cons root roots ih =>
    obtain ⟨r₂, hroot, hm⟩ := bind_eq_ok.1 hm
    obtain ⟨r₂', hroot', hm'⟩ := bind_eq_ok.1 hm'
    exact ih (hg.steps (Engine.matchRoot_steps hroot)) (ahead_matchRoot hb hg ha hroot hroot') hm
      hm'

theorem claimFixed_claims {owner : Descriptor} {kind : MatchKind} {slots : List Int}
    (hf : slots.foldlM (fun r slot => claimFixed owner kind slot r) r = .ok r₁) :
    r₁.tallies = r.tallies ∧ ∃ h₁, Hunt.claimEach owner [] kind (fun _ => none)
      (fun slot => owner.locate (slot - owner.slot)) slots (beginHunt r t) = .ok h₁ ∧
        r₁.remaining = h₁.remaining := by
  induction slots generalizing r t with
  | nil =>
    cases hf
    exact ⟨rfl, _, rfl, rfl⟩
  | cons slot slots ih =>
    obtain ⟨r₂, hfixed, hf⟩ := bind_eq_ok.1 hf
    obtain ⟨located, hl, rfl⟩ := claimFixed_cases hfixed
    obtain ⟨ht, h₁, hc, hr⟩ :=
      ih (t := ((beginHunt r t).claim slot owner [] kind none located).tally) hf
    refine ⟨ht, h₁, bind_eq_ok.2 ⟨located, hl, ?_⟩, hr⟩
    cases located with
    | nil => exact hc
    | cons l located => exact hc

theorem ahead_matchStaticArray {owner : Descriptor} (ha : r.Ahead s.bounds r')
    (hm : matchStaticArray r owner = .ok r₁) (hm' : matchStaticArray r' owner = .ok r₁') :
    r₁.Ahead s.bounds r₁' := by
  obtain ⟨ht, h₁, hc, hr⟩ := claimFixed_claims (t := .zero) hm
  obtain ⟨ht', h₁', hc', hr'⟩ := claimFixed_claims (t := .zero) hm'
  have hclosed := Hunt.claimEach_hits hc
  have hclosed' := Hunt.claimEach_hits hc'
  refine ⟨?_, ?_⟩
  · rw [hr, hr', hclosed, hclosed']
    exact ha.sublist.filter _
  · rcases ha.progress with hn | hp
    · left
      rw [hr', hclosed', show (beginHunt r' .zero).remaining = [] from hn, List.filter_nil]
    · right
      simpa only [Run.tally, ht, ht'] using hp

theorem ahead_staticArrays {owners : List Descriptor} (ha : r.Ahead s.bounds r')
    (hm : owners.foldlM matchStaticArray r = .ok r₁)
    (hm' : owners.foldlM matchStaticArray r' = .ok r₁') : r₁.Ahead s.bounds r₁' := by
  induction owners generalizing r r' with
  | nil =>
    cases hm
    cases hm'
    exact ha
  | cons owner owners ih =>
    obtain ⟨r₂, hf, hm⟩ := bind_eq_ok.1 hm
    obtain ⟨r₂', hf', hm'⟩ := bind_eq_ok.1 hm'
    exact ih (ahead_matchStaticArray ha hf hf') hm hm'

theorem passes_ahead (hb : s.bounds.Raised b) (hg : Engine.Persists s b s.engineStart)
    (hp : s.passes = .ok r) (hp' : (s.under b).passes = .ok r') : r.Ahead s.bounds r' := by
  simp only [passes, matchArrays, bind_eq_ok] at hp hp'
  obtain ⟨r₁, ⟨r₀, he, hm⟩, r₂, hs, ha⟩ := hp
  obtain ⟨r₁', ⟨r₀', he', hm'⟩, r₂', hs', ha'⟩ := hp'
  have hexact : (s.under b).matchExact (s.under b).start = s.matchExact s.start := rfl
  cases he.symm.trans (hexact.symm.trans he')
  have hg₀ := hg.steps (Engine.matchExact_steps he)
  rw [laterTasks, List.append_assoc] at hg₀
  have ha₁ : r₁.Ahead s.bounds r₁' := ahead_roots hb hg₀ r₀.ahead_refl hm hm'
  have hg₁ := hg₀.steps (Engine.roots_steps hm)
  have ha₂ : r₂.Ahead s.bounds r₂' := ahead_staticArrays ha₁ hs hs'
  have hg₂ := hg₁.steps (Engine.staticArrays_steps hs)
  rw [← List.append_nil (List.map _ _)] at hg₂
  exact ahead_roots hb hg₂ ha₂ ha ha'

/-- A slot is reported with results, and not as unresolved. -/
def Labels (results : List (Int × List Match)) (slot : Int) : Prop :=
  ∃ e ∈ results, e.1 = slot ∧ e.2 ≠ [] ∧ ∀ m ∈ e.2, m.kind ≠ .unresolved

instance (results : List (Int × List Match)) (slot : Int) : Decidable (Labels results slot) :=
  inferInstanceAs
    (Decidable (∃ e ∈ results, e.1 = slot ∧ e.2 ≠ [] ∧ ∀ m ∈ e.2, m.kind ≠ .unresolved))

variable {results results' : List (Int × List Match)} {slot : Int}

theorem labels_iff (h : s.run = .ok results) (hp : s.passes = .ok r) :
    Labels results slot ↔ slot ∈ s.observed.keys ∧ slot ∉ r.remaining := by
  have hpart := (Engine.sound_of_reaches (Engine.passes_steps hp)).partitions
  constructor
  · rintro ⟨⟨slot', ms⟩, hm, rfl, -, hk⟩
    rcases mem_run h hp hm with ⟨recorded, hg, -⟩ | ⟨-, note, -, rfl⟩
    · exact ⟨hpart.mem_iff.1 (List.mem_append_right _ (Table.mem_keys.2 ⟨recorded, hg⟩)),
        hpart.not_mem_remaining hg⟩
    · exact absurd rfl (hk _ (List.mem_singleton_self _))
  · rintro ⟨hs, ho⟩
    have hm : slot ∈ results.map Prod.fst := by
      rw [(keys_of_run h hp).mem_iff, List.mem_append]
      exact .inl ((List.mem_append.1 (hpart.mem_iff.2 hs)).resolve_left ho)
    obtain ⟨⟨slot', ms⟩, he, rfl⟩ := List.mem_map.1 hm
    rcases mem_run h hp he with ⟨recorded, hg, hr⟩ | ⟨hopen, -⟩
    · obtain ⟨kind, hu, huni⟩ := uniform_of_get? hp hg
      have huni' := huni.renoted hr
      exact ⟨_, he, rfl, huni'.nonempty, fun m hm => huni'.kind_eq m hm ▸ hu⟩
    · exact absurd hopen ho

theorem labels_of_raised (hb : s.bounds.Raised b) (hg : Engine.Persists s b s.engineStart)
    (h : s.run = .ok results) (h' : (s.under b).run = .ok results') (hl : Labels results slot) :
    Labels results' slot := by
  obtain ⟨r, -, -, hp, -⟩ := run_cases h
  obtain ⟨r', -, -, hp', -⟩ := run_cases h'
  obtain ⟨hs, ho⟩ := (labels_iff h hp).1 hl
  have ha := passes_ahead hb hg hp hp'
  exact (labels_iff h' hp').2 ⟨hs, fun hr => ho (ha.sublist.subset hr)⟩

theorem sample_labels_items : ∃ results, (sample .standard).run = .ok results ∧
    Labels results (sampleItems + 1) := by
  obtain ⟨results, h, hk⟩ : ∃ results, (sample .standard).run = .ok results ∧
      decide (Labels results (sampleItems + 1)) = true :=
    exists_ok_of_toOption (by decide +kernel)
  exact ⟨results, h, of_decide_eq_true hk⟩

/-- Raising the threshold alone loses no label. -/
theorem run_threshold_raised (hl : b.limit = s.bounds.limit) (hd : b.depth = s.bounds.depth)
    (ht : Bounds.AtMost s.bounds.threshold b.threshold) (h : s.run = .ok results)
    (h' : (s.under b).run = .ok results') : ∀ slot, Labels results slot → Labels results' slot :=
  fun _ => labels_of_raised ⟨hl ▸ .refl _, hd, ht⟩ (.inl hl) h h'

def firstOnly : Bounds :=
  { Bounds.standard with threshold := some 1, threshold_pos := by decide }

theorem run_threshold_raised_sample : ∃ results results', (sample firstOnly).run = .ok results ∧
    (sample .standard).run = .ok results' ∧ Labels results sampleList ∧
    ¬ Labels results (sampleItems + 1) ∧ Labels results' sampleList ∧
    Labels results' (sampleItems + 1) := by
  obtain ⟨results, h, hk⟩ : ∃ results, (sample firstOnly).run = .ok results ∧
      decide (Labels results sampleList ∧ ¬ Labels results (sampleItems + 1)) = true :=
    exists_ok_of_toOption (by decide +kernel)
  obtain ⟨results', h', hitems'⟩ := sample_labels_items
  obtain ⟨hlist, hitems⟩ := of_decide_eq_true hk
  have hraised : Bounds.AtMost firstOnly.threshold Bounds.standard.threshold := by
    intro n hn
    cases hn
    exact ⟨1, rfl, by decide⟩
  exact ⟨results, results', h, h', hlist, hitems,
    run_threshold_raised (b := .standard) rfl rfl hraised h h' sampleList hlist, hitems'⟩

/-- Raising the limit alone loses no label, if under the smaller limit no array is given up while
tries are left. -/
theorem run_limit_raised (hl : Bounds.AtMost s.bounds.limit b.limit)
    (hd : b.depth = s.bounds.depth) (ht : b.threshold = s.bounds.threshold)
    (hg : ∀ e, s.Reaches e → ¬ e.GivesUp s) (h : s.run = .ok results)
    (h' : (s.under b).run = .ok results') : ∀ slot, Labels results slot → Labels results' slot :=
  fun _ => labels_of_raised ⟨hl, hd, ht ▸ .refl _⟩ (.inr hg) h h'

def oneTry : Bounds := { Bounds.standard with limit := some 1 }

theorem run_limit_raised_sample : ∃ results results', (sample oneTry).run = .ok results ∧
    (sample .standard).run = .ok results' ∧ Labels results sampleList ∧
    ¬ Labels results (sampleItems + 1) ∧ Labels results' sampleList ∧
    Labels results' (sampleItems + 1) := by
  obtain ⟨results, h, hk⟩ : ∃ results, (sample oneTry).run = .ok results ∧
      decide (Labels results sampleList ∧ ¬ Labels results (sampleItems + 1)) = true :=
    exists_ok_of_toOption (by decide +kernel)
  obtain ⟨results', h', hitems'⟩ := sample_labels_items
  obtain ⟨hlist, hitems⟩ := of_decide_eq_true hk
  have hraised : Bounds.AtMost oneTry.limit Bounds.standard.limit := by
    intro n hn
    cases hn
    exact ⟨1, rfl, by decide⟩
  have hplain : ∀ d ∈ (sample oneTry).layout.descriptors, d.hasPlainArrays := by decide
  exact ⟨results, results', h, h', hlist, hitems,
    run_limit_raised (b := .standard) hraised rfl rfl
      (fun e => not_givesUp_of_hasPlainArrays hplain) h h' sampleList hlist, hitems'⟩

def bookPages : Int := Slot.ofHash (crowdKey.raw ++ (Word.ofNat 0).bytes)

def bookPrice : Int := Slot.ofHash (crowdKey.raw ++ (Word.ofNat 1).bytes)

def book (limit : Nat) : Scene where
  layout := ⟨[.struct ⟨.text "book", "t_struct", .text "struct Book", 0, 0, 64⟩
    [.mapping ⟨.text "pages", "t_mapping",
        .text "mapping(uint256 => mapping(uint256 => uint256)[])", 0, 0, 32⟩ (.text "uint256")
        (.dynamicArray ⟨.text "", "t_array", .text "mapping(uint256 => uint256)[]", 0, 0, 32⟩
          (.mapping ⟨.text "", "t_mapping", .text "mapping(uint256 => uint256)", 0, 0, 32⟩
            (.text "uint256")
            (.primitive ⟨.text "", "t_uint256", .text "uint256", 0, 0, 32⟩))),
      .mapping ⟨.text "prices", "t_mapping", .text "mapping(uint256 => uint256)", 1, 0, 32⟩
        (.text "uint256") (.primitive ⟨.text "", "t_uint256", .text "uint256", 0, 0, 32⟩)]]⟩
  observed := Table.ofList [(bookPages, ⟨Word.ofNat 2, none⟩), (bookPrice, ⟨Word.ofNat 5, none⟩)]
  candidates := [crowdKey]
  bounds := { Bounds.standard with limit := some limit }
  lengths := .empty

/-- With a limit of 3 the second page is given up, and the first one, which waits, is not entered.
The try that is left finds the price. With a limit of 4 the first page is searched, and no try is
left for the price. -/
theorem book_loses_price : ∃ results results', (book 3).run = .ok results ∧
    (book 4).run = .ok results' ∧ Labels results bookPrice ∧ ¬ Labels results' bookPrice := by
  obtain ⟨results, h, hk⟩ : ∃ results, (book 3).run = .ok results ∧
      decide (Labels results bookPrice) = true := exists_ok_of_toOption (by decide +kernel)
  obtain ⟨results', h', hk'⟩ : ∃ results, (book 4).run = .ok results ∧
      decide (¬ Labels results bookPrice) = true := exists_ok_of_toOption (by decide +kernel)
  exact ⟨results, results', h, h', of_decide_eq_true hk, of_decide_eq_true hk'⟩

end Scene

end SlotLens

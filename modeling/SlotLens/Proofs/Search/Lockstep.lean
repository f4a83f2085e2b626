import SlotLens.Proofs.Search.Limit

/-!
# The same search under two bounds

Under larger bounds a search does what it does under smaller ones, one container and one key after
the other, as long as the smaller bounds let it. Since it may have fewer slots that are open, it
never comes to the threshold before. Once the search under the smaller bounds is over for a
variable, it only closes slots that the other one closes at the same place.
-/

namespace SlotLens

namespace Bounds

def AtMost (bound bound' : Option Nat) : Prop := ∀ n' ∈ bound', ∃ n ∈ bound, n ≤ n'

theorem AtMost.refl (bound : Option Nat) : AtMost bound bound :=
  fun n hn => ⟨n, hn, Nat.le_refl n⟩

/-- The second bounds allow more tries and more slots, at the same depth. -/
structure Raised (b b' : Bounds) : Prop where
  limit : AtMost b.limit b'.limit
  depth : b'.depth = b.depth
  threshold : AtMost b.threshold b'.threshold

end Bounds

def Scene.under (s : Scene) (b : Bounds) : Scene := { s with bounds := b }

namespace Tally

variable {t t' : Tally} {b b' : Bounds}

def IsOver (b : Bounds) (t : Tally) : Prop :=
  b.exhausted t.explored ∨ b.thresholdReached t.found

theorem not_isOver_iff : ¬ t.IsOver b ↔
    b.exhausted t.explored = false ∧ b.thresholdReached t.found = false := by
  simp [IsOver]

theorem IsOver.grow (ho : t.IsOver b) (he : t.explored ≤ t'.explored) (hf : t.found ≤ t'.found) :
    t'.IsOver b := by
  rcases ho with ho | ho
  · obtain ⟨n, hn, hle⟩ := exhausted_iff.1 ho
    exact .inl (exhausted_iff.2 ⟨n, hn, Nat.le_trans hle he⟩)
  · obtain ⟨n, hn, hle⟩ := thresholdReached_iff.1 ho
    exact .inr (thresholdReached_iff.2 ⟨n, hn, Nat.le_trans hle hf⟩)

structure Abreast (t t' : Tally) : Prop where
  explored : t'.explored = t.explored
  limitHit : t'.limitHit = t.limitHit
  found : t'.found ≤ t.found

theorem Abreast.refl (t : Tally) : t.Abreast t := ⟨rfl, rfl, Nat.le_refl _⟩

theorem Abreast.not_isOver (ha : t.Abreast t') (hb : b.Raised b') (hn : ¬ t.IsOver b) :
    ¬ t'.IsOver b' := by
  rintro (ho | ho)
  · obtain ⟨n', hn', hle⟩ := exhausted_iff.1 ho
    obtain ⟨n, hl, hnn⟩ := hb.limit n' hn'
    rw [ha.explored] at hle
    exact hn (.inl (exhausted_iff.2 ⟨n, hl, Nat.le_trans hnn hle⟩))
  · obtain ⟨n', hn', hle⟩ := thresholdReached_iff.1 ho
    obtain ⟨n, hl, hnn⟩ := hb.threshold n' hn'
    have hfound := ha.found
    exact hn (.inr (thresholdReached_iff.2 ⟨n, hl, by omega⟩))

theorem Abreast.suffices (ha : t.Abreast t') (hb : b.Raised b') {n : Nat}
    (h : (t.budgetLeft b).any (· ≤ n) = false) : (t'.budgetLeft b').any (· ≤ n) = false := by
  rw [← Bool.not_eq_true, budgetLeft_any] at h ⊢
  rintro ⟨l', hl', hle⟩
  obtain ⟨l, hl, hll⟩ := hb.limit l' hl'
  rw [ha.explored] at hle
  exact h ⟨l, hl, by omega⟩

theorem Abreast.budgetLeft_eq (ha : t.Abreast t') (hl : b'.limit = b.limit) :
    t'.budgetLeft b' = t.budgetLeft b := by
  rw [budgetLeft, budgetLeft, ha.explored, hl]

end Tally

variable {s : Scene} {b : Bounds} {owner element value : Descriptor} {item : WorkItem}
  {h h' h₁ h₁' : Hunt} {keyType : Value} {front : List WorkItem}

namespace Hunt

structure Abreast (h h' : Hunt) : Prop where
  tally : h.tally.Abreast h'.tally
  next : h'.next = h.next

/-- The second search has closed all slots that the first one has. They have come equally far,
unless no slot is left to the second one or the first one is over. -/
structure Ahead (b : Bounds) (h h' : Hunt) : Prop where
  sublist : h'.remaining.Sublist h.remaining
  progress : h'.remaining = [] ∨ h.tally.IsOver b ∨ h.Abreast h'

theorem Ahead.of_nil (hn : h'.remaining = []) : h.Ahead b h' :=
  ⟨hn ▸ List.nil_sublist _, .inl hn⟩

theorem Ahead.clear (ha : h.Ahead b h') :
    Ahead b { h with next := #[] } { h' with next := #[] } :=
  ⟨ha.sublist, ha.progress.imp_right (Or.imp_right fun hp => ⟨hp.tally, rfl⟩)⟩

def spent (h : Hunt) : Hunt :=
  { h with tally := { h.tally with explored := h.tally.explored + 1 } }

theorem spend_of_not_isOver (hn : ¬ h.tally.IsOver b) : h.spend b = (h.spent, true) := by
  rw [spend, Tally.spend, (Tally.not_isOver_iff.1 hn).1]
  rfl

theorem Ahead.spent (ha : h.Abreast h') (hs : h'.remaining.Sublist h.remaining) :
    h.spent.Ahead b h'.spent :=
  ⟨hs, .inr (.inr ⟨⟨congrArg (· + 1) ha.tally.explored, ha.tally.limitHit, ha.tally.found⟩,
    ha.next⟩)⟩

theorem Ahead.claimEach {owner' : Descriptor} {path path' : Path} {kind kind' : MatchKind}
    {note note' : Int → Option String} {locate : Int → Except Fault (List Located)}
    {base span : Int} (ha : h.Ahead b h')
    (hc : claimEach owner path kind note locate (h.hits base span) h = .ok h₁)
    (hc' : Hunt.claimEach owner' path' kind' note' locate (h'.hits base span) h' = .ok h₁') :
    h₁.Ahead b h₁' := by
  have hfound := claimEach_found hc
  refine ⟨?_, ?_⟩
  · rw [claimEach_hits hc, claimEach_hits hc']
    exact ha.sublist.filter _
  · rcases ha.progress with hn | ho | hp
    · left
      rw [claimEach_hits hc', hn, List.filter_nil]
    · exact .inr (.inl (ho.grow (Nat.le_of_eq (claimEach_explored hc).symm) (by omega)))
    · refine .inr (.inr ⟨⟨?_, ?_, ?_⟩, ?_⟩)
      · rw [claimEach_explored hc, claimEach_explored hc', hp.tally.explored]
      · rw [claimEach_limitHit hc, claimEach_limitHit hc', hp.tally.limitHit]
      · -- Where the second search finds something in the range, the first one does as well.
        have hfound' := claimEach_found hc'
        have hle : (h'.hits base span).countP (finds locate) ≤
            (h.hits base span).countP (finds locate) := (ha.sublist.filter _).countP_le
        have hbefore := hp.tally.found
        omega
      · rw [claimEach_next hc, claimEach_next hc', hp.next]

/-- Where the second search has no open slot, or the first one is over and leaves its open slots as
they are, it does not matter how far they go. -/
theorem Ahead.trail (ha : h.Ahead b h') (hp : h'.remaining = [] ∨ h.tally.IsOver b)
    (ho : h.tally.IsOver b → h₁.remaining = h.remaining ∧ h₁.tally.IsOver b)
    (hs : h₁'.remaining.Sublist h'.remaining) :
    h₁.Ahead b h₁' ∧ (h₁'.remaining = [] ∨ h₁.tally.IsOver b) := by
  rcases hp with hn | hover
  · rw [hn, List.sublist_nil] at hs
    exact ⟨.of_nil hs, .inl hs⟩
  · obtain ⟨hr, ho⟩ := ho hover
    exact ⟨⟨hr ▸ hs.trans ha.sublist, .inr (.inl ho)⟩, .inr ho⟩

theorem Ahead.cases (ha : h.Ahead b h') : (h'.remaining = [] ∨ h.tally.IsOver b) ∨
    (h.remaining ≠ [] ∧ h'.remaining ≠ [] ∧ ¬ h.tally.IsOver b ∧ h.Abreast h') := by
  by_cases hn : h'.remaining = []
  · exact .inl (.inl hn)
  · by_cases ho : h.tally.IsOver b
    · exact .inl (.inr ho)
    · refine .inr ⟨?_, hn, ho, (ha.progress.resolve_left hn).resolve_left ho⟩
      intro hr
      have hs := ha.sublist
      rw [hr, List.sublist_nil] at hs
      exact hn hs

end Hunt

namespace Search

theorem Steps.isOver {x x' : Search} (st : Steps s owner x x') (ho : x.hunt.tally.IsOver b) :
    x'.hunt.tally.IsOver b :=
  ho.grow st.grows.1 st.grows.2

/-- From a state on, no array is given up, unless the other limit is the same. -/
def Persists (s : Scene) (b : Bounds) (owner : Descriptor) (x : Search) : Prop :=
  b.limit = s.bounds.limit ∨ ∀ y, Steps s owner x y → ¬ y.GivesUp s

theorem Persists.steps {x x' : Search} (hp : Persists s b owner x) (st : Steps s owner x x') :
    Persists s b owner x' :=
  hp.imp_right fun h y hy => h y (st.trans hy)

end Search

namespace Scene

theorem depthAllows_under (hb : s.bounds.Raised b) (level : Int) :
    (s.under b).bounds.depthAllows level = s.bounds.depthAllows level := by
  simp only [under, Bounds.depthAllows, hb.depth]

theorem ahead_pushNested {base : Int} {level : Nat} {path : Path} (hb : s.bounds.Raised b)
    (ha : h.Ahead s.bounds h') : (s.pushNested value base level path h).Ahead s.bounds
      ((s.under b).pushNested value base level path h') := by
  refine ⟨?_, ?_⟩
  · simpa using ha.sublist
  · simp only [pushNested_remaining]
    refine ha.progress.imp_right (Or.imp ?_ ?_)
    · intro ho
      exact ho.grow (Nat.le_of_eq pushNested_explored.symm) (Nat.le_of_eq pushNested_found.symm)
    · intro hp
      refine ⟨⟨?_, ?_, ?_⟩, ?_⟩
      · simpa using hp.tally.explored
      · simpa using hp.tally.limitHit
      · simpa using hp.tally.found
      · apply Array.toList_inj.1
        rw [next_pushNested, next_pushNested, hp.next, depthAllows_under hb]
        rfl

section Mapping

variable {c : Candidate} {rest : List Candidate}

theorem tryKey_claims (ht : s.tryKey owner item keyType value c h = .ok h') :
    ∃ derived path h₁, Slot.ofKey c.raw item.base = .ok derived ∧
      Hunt.claimEach owner path .mapping (fun _ => none) (fun slot => value.locate (slot - derived))
        (h.hits derived value.slotCount) h = .ok h₁ ∧
      (value.hasContainers = false ∧ h' = h₁ ∨
        value.hasContainers ∧ ∃ key, Field.decodeKey keyType c.raw = .ok key ∧
          h' = s.pushNested value derived item.level (item.path ++ [.key key c.hex keyType])
            h₁) := by
  obtain ⟨derived, hd, ⟨hn, hc, rfl⟩ | ⟨-, key, h₁, hk, hv, rfl⟩⟩ := tryKey_cases ht
  · refine ⟨derived, [], h', hd, ?_, .inl ⟨hc, rfl⟩⟩
    rw [hn]
    rfl
  · rw [claimValue_eq] at hv
    refine ⟨derived, _, h₁, hd, hv, ?_⟩
    cases hc : value.hasContainers with
    | false =>
      refine .inl ⟨rfl, ?_⟩
      have hnil := Descriptor.containers_eq_nil hc
      simp [pushNested, hnil]
    | true => exact .inr ⟨rfl, key, hk, rfl⟩

theorem ahead_tryKey (hb : s.bounds.Raised b) (ha : h.Ahead s.bounds h')
    (ht : s.tryKey owner item keyType value c h = .ok h₁)
    (ht' : (s.under b).tryKey owner item keyType value c h' = .ok h₁') :
    h₁.Ahead s.bounds h₁' := by
  obtain ⟨derived, path, h₂, hd, hv, hn⟩ := tryKey_claims ht
  obtain ⟨derived', path', h₂', hd', hv', hn'⟩ := tryKey_claims ht'
  cases hd.symm.trans hd'
  -- The paths may differ where nothing is located, but then no container is queued behind them.
  have ha₂ : h₂.Ahead s.bounds h₂' := ha.claimEach hv hv'
  rcases hn with ⟨hc, rfl⟩ | ⟨hc, key, hk, rfl⟩
  · rcases hn' with ⟨-, rfl⟩ | ⟨hc', -⟩
    · exact ha₂
    · cases hc.symm.trans hc'
  · rcases hn' with ⟨hc', -⟩ | ⟨-, key', hk', rfl⟩
    · cases hc.symm.trans hc'
    · cases hk.symm.trans hk'
      exact ahead_pushNested hb ha₂

theorem expandMapping_isOver (ho : h.tally.IsOver s.bounds)
    (he : s.expandMapping owner item keyType value rest h = .ok h₁) :
    h₁.remaining = h.remaining := by
  cases rest with
  | nil =>
    cases he
    rfl
  | cons c rest =>
    rcases expandMapping_cons he with ⟨-, rfl⟩ | ⟨-, hf, hp | ⟨h₂, -, hp, -⟩⟩
    · rfl
    · exact (Hunt.spend_keeps hp).1
    · rcases Hunt.spend_cases hp with ⟨-, hfree, -⟩ | ⟨hok, -, -⟩
      · exact absurd ho (Tally.not_isOver_iff.2 ⟨hfree, hf⟩)
      · cases hok

theorem expandMapping_of_not_isOver (hr : h.remaining ≠ []) (hn : ¬ h.tally.IsOver s.bounds)
    (he : s.expandMapping owner item keyType value (c :: rest) h = .ok h₁) :
    ∃ h₂, s.tryKey owner item keyType value c h.spent = .ok h₂ ∧
      s.expandMapping owner item keyType value rest h₂ = .ok h₁ := by
  have hspend := Hunt.spend_of_not_isOver hn
  rcases expandMapping_cons he with ⟨hs, -⟩ | ⟨-, -, hp | ⟨h₂, h₃, hp, ht, he⟩⟩
  · rcases hs with hs | hs
    · exact absurd hs hr
    · exact absurd (.inr hs) hn
  · cases hspend.symm.trans hp
  · cases hspend.symm.trans hp
    exact ⟨h₃, ht, he⟩

theorem ahead_expandMapping (hb : s.bounds.Raised b) (ha : h.Ahead s.bounds h')
    (he : s.expandMapping owner item keyType value rest h = .ok h₁)
    (he' : (s.under b).expandMapping owner item keyType value rest h' = .ok h₁') :
    h₁.Ahead s.bounds h₁' := by
  induction rest generalizing h h' with
  | nil =>
    cases he
    cases he'
    exact ha
  | cons c rest ih =>
    rcases ha.cases with hp | ⟨hr, hr', hn, hp⟩
    · have hsteps : Search.Steps s owner ⟨h, [], .keys item keyType value (c :: rest)⟩
        ⟨h₁, [], .waiting⟩ := Search.expandMapping_steps he
      have hsteps' : Search.Steps (s.under b) owner
        ⟨h', [], .keys item keyType value (c :: rest)⟩ ⟨h₁', [], .waiting⟩ :=
        Search.expandMapping_steps he'
      exact (ha.trail hp (fun ho => ⟨expandMapping_isOver ho he, hsteps.isOver ho⟩)
        hsteps'.sublist).1
    · obtain ⟨h₂, ht, he⟩ := expandMapping_of_not_isOver hr hn he
      obtain ⟨h₂', ht', he'⟩ := expandMapping_of_not_isOver hr' (hp.tally.not_isOver hb hn) he'
      exact ih (ahead_tryKey hb (.spent hp ha.sublist) ht ht') he he'

end Mapping

section Array

variable {data : Int} {count index : Nat}

theorem pushElements_remaining {ahead : Nat} :
    (s.pushElements element data item ahead count index h).remaining = h.remaining := by
  induction count generalizing index h with
  | zero => rfl
  | succ count ih =>
    rw [pushElements]
    split
    · rfl
    · split
      · rfl
      · rw [ih, pushNested_remaining]

theorem isStopped_of_not_isOver (hn : ¬ h.tally.IsOver b) :
    h.tally.isStopped b = h.tally.limitHit := by
  rw [Tally.isStopped, (Tally.not_isOver_iff.1 hn).2, Bool.or_false]

theorem ahead_pushElements (hb : s.bounds.Raised b)
    (hg : Search.Persists s b owner ⟨h, front, .nested item element data count index⟩)
    (ha : h.Ahead s.bounds h') :
    (s.pushElements element data item front.length count index h).Ahead s.bounds
      ((s.under b).pushElements element data item front.length count index h') := by
  induction count generalizing index h h' with
  | zero => exact ha
  | succ count ih =>
    rcases ha.cases with hp | ⟨-, -, hn, hp⟩
    · refine (ha.trail hp (fun ho => ⟨pushElements_remaining, ?_⟩) ?_).1
      · have hsteps : Search.Steps s owner ⟨h, front, .nested item element data (count + 1) index⟩
          ⟨_, front, .waiting⟩ := Search.pushElements_steps
        exact hsteps.isOver ho
      · rw [pushElements_remaining]
    · have hn' : ¬ h'.tally.IsOver (s.under b).bounds := hp.tally.not_isOver hb hn
      rw [pushElements, pushElements, isStopped_of_not_isOver hn, isStopped_of_not_isOver hn',
        hp.tally.limitHit, congrArg Array.size hp.next]
      cases hl : h.tally.limitHit with
      | true => exact ha
      | false =>
        have hstop : h.tally.isStopped s.bounds = false := by
          rw [isStopped_of_not_isOver hn, hl]
        rw [if_neg Bool.false_ne_true, if_neg Bool.false_ne_true]
        cases hfull : (h.tally.budgetLeft s.bounds).any (· ≤ front.length + h.next.size) with
        | true =>
          rcases hg with hlimit | hg
          · have hleft : h'.tally.budgetLeft (s.under b).bounds = h.tally.budgetLeft s.bounds :=
              hp.tally.budgetLeft_eq hlimit
            rw [hleft, hfull, if_pos rfl, if_pos rfl]
            exact ⟨ha.sublist, .inr (.inr ⟨⟨hp.tally.explored, rfl, hp.tally.found⟩, hp.next⟩)⟩
          · -- Only the limit of the first search can be hit here, so it has to be used up.
            rcases Search.exhausted_or_givesUp hstop hfull with hused | hgives
            · exact absurd (.inl hused) hn
            · exact absurd hgives (hg _ .refl)
        | false =>
          have hroom : (h'.tally.budgetLeft (s.under b).bounds).any
              (· ≤ front.length + h.next.size) = false := hp.tally.suffices hb hfull
          rw [hroom, if_neg Bool.false_ne_true, if_neg Bool.false_ne_true]
          exact ih (hg.steps (.single (.nest hstop hfull))) (ahead_pushNested hb ha)

theorem ahead_expandArray {e : Entry} (hm : item.container = .dynamicArray e element)
    (hb : s.bounds.Raised b) (hg : Search.Persists s b owner ⟨h, front, .opened item⟩)
    (ha : h.Ahead s.bounds h') (he : s.expandArray owner item element front.length h = .ok h₁)
    (he' : (s.under b).expandArray owner item element front.length h' = .ok h₁') :
    h₁.Ahead s.bounds h₁' := by
  have hunder : (s.under b).lengthAt item.base = s.lengthAt item.base := rfl
  rcases expandArray_cases he with ⟨hl, rfl⟩ | ⟨length, data, span, h₂, hl, hd, hs, hv, hn⟩
  · rcases expandArray_cases he' with ⟨-, rfl⟩ | ⟨length, data, span, h₂, hl', -⟩
    · exact ha
    · cases hl.symm.trans (hunder.symm.trans hl')
  · rcases expandArray_cases he' with
      ⟨hl', -⟩ | ⟨length', data', span', h₂', hl', hd', hs', hv', hn'⟩
    · cases hl.symm.trans (hunder.symm.trans hl')
    · cases hl.symm.trans (hunder.symm.trans hl')
      cases hd.symm.trans hd'
      cases hs.symm.trans hs'
      have hsteps : Search.Steps s owner ⟨h, front, .opened item⟩
          ⟨h₂, front, .elements item element data length []⟩ :=
        .head (.openArray hm hl hd hs) (Search.claimElements_steps hv)
      rw [claimElements_eq] at hv hv'
      have ha₂ : h₂.Ahead s.bounds h₂' := ha.claimEach hv hv'
      rcases hn with ⟨hc, rfl⟩ | ⟨hc, rfl⟩
      · rcases hn' with ⟨-, rfl⟩ | ⟨hc', -⟩
        · exact ha₂
        · cases hc.symm.trans hc'
      · rcases hn' with ⟨hc', -⟩ | ⟨-, rfl⟩
        · cases hc.symm.trans hc'
        · exact ahead_pushElements hb (hg.steps (hsteps.tail (.elementsNested hc))) ha₂

end Array

theorem ahead_expandBytes {e : Entry} (ha : h.Ahead s.bounds h')
    (he : s.expandBytes owner item e h = .ok h₁)
    (he' : (s.under b).expandBytes owner item e h' = .ok h₁') : h₁.Ahead s.bounds h₁' := by
  have hunder : ((s.under b).observed.get? item.base).bind (longLength? e.typeLabel) =
    (s.observed.get? item.base).bind (longLength? e.typeLabel) := rfl
  rcases expandBytes_cases he with ⟨hl, rfl⟩ | ⟨length, data, hl, hd, rfl⟩
  · rcases expandBytes_cases he' with ⟨-, rfl⟩ | ⟨length, data, hl', -⟩
    · exact ha
    · cases hl.symm.trans (hunder.symm.trans hl')
  · rcases expandBytes_cases he' with ⟨hl', -⟩ | ⟨length', data', hl', hd', rfl⟩
    · cases hl.symm.trans (hunder.symm.trans hl')
    · cases hl.symm.trans (hunder.symm.trans hl')
      cases hd.symm.trans hd'
      exact ha.claimEach claimChunks_eq.symm claimChunks_eq.symm

theorem ahead_expand (hb : s.bounds.Raised b)
    (hg : Search.Persists s b owner ⟨h, front, .opened item⟩) (ha : h.Ahead s.bounds h')
    (he : s.expand owner item front.length h = .ok h₁)
    (he' : (s.under b).expand owner item front.length h' = .ok h₁') : h₁.Ahead s.bounds h₁' := by
  rw [expand] at he he'
  split at he
  · next hm =>
    rw [hm] at he'
    exact ahead_expandMapping hb ha he he'
  · next hm =>
    rw [hm] at he'
    exact ahead_expandArray hm hb hg ha he he'
  · next hm =>
    rw [hm] at he'
    exact ahead_expandBytes ha he he'
  · next hm hm' hm'' =>
    cases he
    split at he'
    · next hc => exact absurd hc (hm _ _ _)
    · next hc => exact absurd hc (hm' _ _)
    · next hc => exact absurd hc (hm'' _)
    · cases he'
      exact ha

section Levels

variable {items : List WorkItem} {goesOn goesOn' : Bool} {levels : Nat}

theorem enter_of_not_isOver (hl : 1 < item.level) (hn : ¬ h.tally.IsOver s.bounds) :
    s.enter item h = if h.tally.limitHit then (h, false) else (h.spent, true) := by
  rw [enter, if_neg (by omega), isStopped_of_not_isOver hn, Hunt.spend_of_not_isOver hn]

theorem enter_isOver {ok : Bool} (hl : 1 < item.level) (ho : h.tally.IsOver s.bounds)
    (he : s.enter item h = (h₁, ok)) : ok = false := by
  rcases enter_cases he with ⟨hroot, -⟩ | ⟨-, -, hok, -⟩ | ⟨-, hs, hp⟩
  · omega
  · exact hok
  · rw [Tally.isStopped, Bool.or_eq_false_iff] at hs
    rcases Hunt.spend_cases hp with ⟨-, hfree, -⟩ | ⟨hok, -, -⟩
    · exact absurd ho (Tally.not_isOver_iff.2 ⟨hfree, hs.2⟩)
    · exact hok

theorem exploreLevel_isOver (hi : ∀ i ∈ items, 1 < i.level) (ho : h.tally.IsOver s.bounds)
    (he : s.exploreLevel owner items h = .ok (h₁, goesOn)) :
    h₁.remaining = h.remaining ∧ h₁.tally.IsOver s.bounds ∧ (items ≠ [] → goesOn = false) := by
  have hover : h₁.tally.IsOver s.bounds := by
    rcases Search.exploreLevel_steps he with ⟨-, hs⟩ | ⟨-, front, hs⟩
    · exact hs.isOver ho
    · exact hs.isOver ho
  cases items with
  | nil =>
    cases he
    exact ⟨rfl, hover, fun hn => absurd rfl hn⟩
  | cons item rest =>
    rcases exploreLevel_cons he with ⟨-, rfl, hg⟩ | ⟨-, ⟨hp, hg⟩ | ⟨h₂, -, hp, -⟩⟩
    · exact ⟨rfl, hover, fun _ => hg⟩
    · exact ⟨(enter_keeps hp).1, hover, fun _ => hg⟩
    · cases enter_isOver (hi item List.mem_cons_self) ho hp

theorem exploreLevels_isOver (hi : ∀ i ∈ items, 1 < i.level) (ho : h.tally.IsOver s.bounds)
    (he : s.exploreLevels owner levels items h = .ok h₁) :
    h₁.remaining = h.remaining ∧ h₁.tally.IsOver s.bounds := by
  cases levels with
  | zero =>
    cases he
    exact ⟨rfl, ho⟩
  | succ levels =>
    by_cases hn : items = []
    · subst hn
      cases exploreLevels_nil he
      exact ⟨rfl, ho⟩
    · rcases exploreLevels_succ hn he with hl | ⟨h₂, hl, -⟩
      · obtain ⟨hr, hover, -⟩ := exploreLevel_isOver (h := { h with next := #[] }) hi ho hl
        exact ⟨hr, hover⟩
      · obtain ⟨-, -, hg⟩ := exploreLevel_isOver (h := { h with next := #[] }) hi ho hl
        cases hg hn

theorem exploreLevel_sublist (he : s.exploreLevel owner items h = .ok (h₁, goesOn)) :
    h₁.remaining.Sublist h.remaining := by
  rcases Search.exploreLevel_steps he with ⟨-, hs⟩ | ⟨-, front, hs⟩
  · exact hs.sublist
  · exact hs.sublist

theorem exploreLevels_sublist (he : s.exploreLevels owner levels items h = .ok h₁) :
    h₁.remaining.Sublist h.remaining := by
  induction levels generalizing items h with
  | zero =>
    cases he
    exact .refl _
  | succ levels ih =>
    by_cases hn : items = []
    · subst hn
      cases exploreLevels_nil he
      exact .refl _
    · rcases exploreLevels_succ hn he with hl | ⟨h₂, hl, he⟩
      · exact exploreLevel_sublist (h := { h with next := #[] }) hl
      · exact (ih he).trans (exploreLevel_sublist (h := { h with next := #[] }) hl)

theorem ahead_exploreLevel (hi : ∀ i ∈ items, 1 < i.level) (hb : s.bounds.Raised b)
    (hg : Search.Persists s b owner ⟨h, items, .waiting⟩) (ha : h.Ahead s.bounds h')
    (he : s.exploreLevel owner items h = .ok (h₁, goesOn))
    (he' : (s.under b).exploreLevel owner items h' = .ok (h₁', goesOn')) :
    h₁.Ahead s.bounds h₁' ∧
      (goesOn' = goesOn ∨ h₁'.remaining = [] ∨ h₁.tally.IsOver s.bounds) := by
  induction items generalizing h h' with
  | nil =>
    cases he
    cases he'
    exact ⟨ha, .inl rfl⟩
  | cons item rest ih =>
    rcases ha.cases with hp | ⟨hr, hr', hn, hp⟩
    · obtain ⟨ha, hsettled⟩ := ha.trail hp (fun ho => by
        obtain ⟨hr, hover, -⟩ := exploreLevel_isOver hi ho he
        exact ⟨hr, hover⟩) (exploreLevel_sublist he')
      exact ⟨ha, .inr hsettled⟩
    · have hl : 1 < item.level := hi item List.mem_cons_self
      have henter := enter_of_not_isOver hl hn
      have henter' : (s.under b).enter item h' =
          if h.tally.limitHit then (h', false) else (h'.spent, true) := by
        rw [← hp.tally.limitHit]
        exact enter_of_not_isOver hl (hp.tally.not_isOver hb hn)
      rw [exploreLevel, if_neg (by simpa using hr), henter] at he
      rw [exploreLevel, if_neg (by simpa using hr'), henter'] at he'
      cases hlimit : h.tally.limitHit with
      | true =>
        rw [hlimit] at he he'
        cases he
        cases he'
        exact ⟨ha, .inl rfl⟩
      | false =>
        rw [hlimit] at he he' henter
        obtain ⟨h₂, hx, he⟩ := bind_eq_ok.1 he
        obtain ⟨h₂', hx', he'⟩ := bind_eq_ok.1 he'
        have hopen := hg.steps (.single (.enter hr henter))
        have ha₂ := ahead_expand hb hopen (.spent hp ha.sublist) hx hx'
        exact ih (fun i hm => hi i (List.mem_cons_of_mem _ hm))
          (hopen.steps (Search.expand_steps hx)) ha₂ he he'

theorem ahead_exploreLevels (hi : ∀ i ∈ h.next.toList, 1 < i.level) (hb : s.bounds.Raised b)
    (hg : Search.Persists s b owner ⟨h, [], .waiting⟩) (ha : h.Ahead s.bounds h')
    (he : s.exploreLevels owner levels h.next.toList h = .ok h₁)
    (he' : (s.under b).exploreLevels owner levels h'.next.toList h' = .ok h₁') :
    h₁.Ahead s.bounds h₁' := by
  induction levels generalizing h h' with
  | zero =>
    cases he
    cases he'
    exact ha
  | succ levels ih =>
    rcases ha.cases with hp | ⟨-, -, -, hp⟩
    · exact (ha.trail hp (fun ho => exploreLevels_isOver hi ho he) (exploreLevels_sublist he')).1
    · rw [hp.next] at he'
      by_cases hn : h.next = #[]
      · rw [hn] at he he'
        cases exploreLevels_nil he
        cases exploreLevels_nil he'
        exact ha
      · have hn' : h.next.toList ≠ [] := by simpa using hn
        have hdescend := hg.steps (.single (.descend hn))
        have hnext : ∀ {h₂ : Hunt} {goesOn : Bool},
            s.exploreLevel owner h.next.toList { h with next := #[] } = .ok (h₂, goesOn) →
              ∀ i ∈ h₂.next.toList, 1 < i.level := by
          refine fun hl => Search.exploreLevel_next (fun item hm i hbelow => ?_) (by simp) hl
          have hlevel := hbelow.level
          have hitem := hi item hm
          omega
        -- Where only one of them goes on behind the level, it does not matter how far.
        rcases exploreLevels_succ hn' he with hl | ⟨h₂, hl, he⟩
        · rcases exploreLevels_succ hn' he' with hl' | ⟨h₂', hl', he'⟩
          · exact (ahead_exploreLevel hi hb hdescend ha.clear hl hl').1
          · obtain ⟨ha₂, hsettled⟩ := ahead_exploreLevel hi hb hdescend ha.clear hl hl'
            have hp₂ := hsettled.resolve_left (by simp)
            exact (ha₂.trail hp₂ (fun ho => ⟨rfl, ho⟩) (exploreLevels_sublist he')).1
        · rcases exploreLevels_succ hn' he' with hl' | ⟨h₂', hl', he'⟩
          · obtain ⟨ha₂, hsettled⟩ := ahead_exploreLevel hi hb hdescend ha.clear hl hl'
            have hp₂ := hsettled.resolve_left (by simp)
            exact (ha₂.trail hp₂ (fun ho => exploreLevels_isOver (hnext hl) ho he) (.refl _)).1
          · obtain ⟨ha₂, -⟩ := ahead_exploreLevel hi hb hdescend ha.clear hl hl'
            rcases Search.exploreLevel_steps hl with ⟨-, hs⟩ | ⟨hfalse, -⟩
            · exact ih (hnext hl) (hdescend.steps hs) ha₂ he he'
            · cases hfalse

end Levels

end Scene

end SlotLens

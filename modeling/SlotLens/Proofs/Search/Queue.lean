import SlotLens.Proofs.Layout.Part
import SlotLens.Proofs.Search.Depth

namespace SlotLens

variable {s : Scene} {owner : Descriptor} {root : Root}

theorem Engine.within_of_reaches {P : Root → Search → Prop}
    (start : ∀ r tally root, root ∈ s.layout.roots → P root (.ofRoot r tally root))
    (step : ∀ {r root key x x' agenda}, s.Reaches (.within r root key x agenda) → P root x →
      Search.Step s root.variableDescriptor x x' → P root x')
    {r : Run} {key : LabelKey} {x : Search} {agenda : List Task}
    (h : s.Reaches (.within r root key x agenda)) : P root x := by
  generalize he : Engine.within r root key x agenda = e at h
  induction h generalizing r root key x agenda with
  | refl => cases he
  | tail h st ih =>
    cases st with
    | search =>
      cases he
      exact start _ _ _ ((traced_of_reaches h).agenda (.root _) List.mem_cons_self)
    | inside st =>
      cases he
      exact step h (ih rfl) st
    | fixed | staticArray | skip | leave => cases he

structure WorkItem.IsPartOf (i item : WorkItem) : Prop where
  contains : item.container.Contains i.container
  level : i.level = item.level + 1

structure WorkItem.AtLevel (root : Root) (level : Nat) (i : WorkItem) : Prop where
  level_eq : i.level = level
  fits : level + i.container.height ≤ root.container.height + 1

theorem WorkItem.IsPartOf.atLevel {i item : WorkItem} {level : Nat} (h : i.IsPartOf item)
    (hi : item.AtLevel root level) : i.AtLevel root (level + 1) := by
  refine ⟨by rw [h.level, hi.level_eq], ?_⟩
  have := h.contains.height_lt
  have := hi.fits
  omega

theorem WorkItem.AtLevel.level_le {i : WorkItem} {level : Nat} (h : i.AtLevel root level) :
    level ≤ root.container.height := by
  have := i.container.one_le_height
  have := h.fits
  omega

namespace Activity

/-- How much is left to do with the container at hand: first how far it is, then what is left to be
tried and to be set down. -/
def work : Activity → Nat × Nat × Nat
  | .ended => (0, 0, 0)
  | .waiting => (0, 1, 0)
  | .keys _ _ _ rest => (1, rest.length, 0)
  | .fields _ _ _ rest _ _ slots => (1, rest.length, slots.length + 1)
  | .elements _ _ _ _ slots => (1, 1, slots.length)
  | .nested _ _ _ left _ => (1, 0, left)
  | .chunks _ _ _ slots => (1, 0, slots.length)
  | .opened _ => (2, 0, 0)

def Lighter (a b : Activity) : Prop :=
  Prod.Lex (· < ·) (Prod.Lex (· < ·) (· < ·)) a.work b.work

end Activity

namespace Search

variable {x x' : Search} {level : Nat}

/-- What a step does to the containers that wait: it goes down to the next level, takes the first
one, or queues containers behind the others while it works on the one at hand. -/
inductive Moves : Search → Search → Prop
  | descend {h : Hunt} : h.next ≠ #[] →
      Moves ⟨h, [], .waiting⟩ ⟨{ h with next := #[] }, h.next.toList, .waiting⟩
  | take {h h' : Hunt} {item : WorkItem} {front : List WorkItem} {activity : Activity} :
      h.remaining ≠ [] → h'.next = h.next → (∀ i ∈ activity.item?, i = item) →
      Moves ⟨h, item :: front, .waiting⟩ ⟨h', front, activity⟩
  | work {h h' : Hunt} {front queued : List WorkItem} {activity activity' : Activity} :
      h'.next.toList = h.next.toList ++ queued → (∀ i ∈ activity'.item?, i ∈ activity.item?) →
      (∀ i ∈ queued, ∃ item ∈ activity.item?, i.IsPartOf item) → activity'.Lighter activity →
      Moves ⟨h, front, activity⟩ ⟨h', front, activity'⟩

theorem Moves.idle {h h' : Hunt} {front : List WorkItem} {activity activity' : Activity}
    (hn : h'.next = h.next) (hi : ∀ i ∈ activity'.item?, i ∈ activity.item?)
    (hw : activity'.Lighter activity) : Moves ⟨h, front, activity⟩ ⟨h', front, activity'⟩ := by
  have hqueued : h'.next.toList = h.next.toList ++ [] := by rw [hn, List.append_nil]
  exact .work hqueued hi (fun i hi => absurd hi List.not_mem_nil) hw

theorem Moves.push {h : Hunt} {front : List WorkItem} {activity activity' : Activity}
    {item : WorkItem} {value : Descriptor} {place : Int} {path : Path}
    (hp : item.container.HasPart value) (hitem : item ∈ activity.item?)
    (hi : ∀ i ∈ activity'.item?, i ∈ activity.item?) (hw : activity'.Lighter activity) :
    Moves ⟨h, front, activity⟩
      ⟨s.pushNested value place item.level path h, front, activity'⟩ := by
  refine .work Scene.next_pushNested hi (fun i hi => ⟨item, hitem, ?_⟩) hw
  split at hi
  · obtain ⟨c, hc, rfl⟩ := List.mem_map.1 hi
    exact ⟨hp.contains (List.mem_filter.1 hc).1, rfl⟩
  · exact absurd hi List.not_mem_nil

theorem Step.moves (ht : x.Traced s owner) (hs : Step s owner x x') : Moves x x' := by
  have ha := ht.activity
  cases hs with
  | descend hn => exact .descend hn
  | refuse hr he => exact .take hr (Scene.enter_keeps he).2.2 nofun
  | enter hr he =>
    exact .take hr (Scene.enter_keeps he).2.2 fun i hi => (Option.some.inj hi).symm
  | keysLimit _ _ hp =>
    exact .idle (Hunt.spend_keeps hp).2.2 nofun
      (by simp [Activity.Lighter, Activity.work, Prod.lex_def])
  | keyMiss _ _ hp | keyHit _ _ hp =>
    exact .idle (Hunt.spend_keeps hp).2.2 (fun i hi => hi)
      (by simp [Activity.Lighter, Activity.work, Prod.lex_def])
  | field | element | chunk =>
    exact .idle Hunt.claim_next (fun i hi => hi)
      (by simp [Activity.Lighter, Activity.work, Prod.lex_def])
  | fieldsDone =>
    cases ha with
    | fields _ hm =>
      exact .push (hm ▸ .value) rfl (fun i hi => hi)
        (by simp [Activity.Lighter, Activity.work, Prod.lex_def])
  | nest =>
    cases ha with
    | nested _ hm =>
      exact .push (hm ▸ .element) rfl (fun i hi => hi)
        (by simp [Activity.Lighter, Activity.work, Prod.lex_def])
  | openMapping | openArray | openLong | elementsNested =>
    exact .idle rfl (fun i hi => hi) (by simp [Activity.Lighter, Activity.work, Prod.lex_def])
  | _ => exact .idle rfl nofun (by simp [Activity.Lighter, Activity.work, Prod.lex_def])

/-- The containers of a level are worked off, and those of the next level wait. -/
structure Tiered (root : Root) (level : Nat) (x : Search) : Prop where
  front : ∀ i ∈ x.front, i.AtLevel root level
  atHand : ∀ i ∈ x.activity.item?, i.AtLevel root level
  next : ∀ i ∈ x.hunt.next.toList, i.AtLevel root (level + 1)

/-- What is left of a search: levels, containers of the level at hand, and work on the container at
hand. -/
def left (root : Root) (level : Nat) (x : Search) : Nat × Nat × Nat × Nat × Nat :=
  (root.container.height + 1 - level, x.front.length, x.activity.work)

def Less : Nat × Nat × Nat × Nat × Nat → Nat × Nat × Nat × Nat × Nat → Prop :=
  Prod.Lex (· < ·) (Prod.Lex (· < ·) (Prod.Lex (· < ·) (Prod.Lex (· < ·) (· < ·))))

theorem less_wf : WellFounded Less :=
  (Prod.lex Nat.lt_wfRel (Prod.lex Nat.lt_wfRel
    (Prod.lex Nat.lt_wfRel (Prod.lex Nat.lt_wfRel Nat.lt_wfRel)))).wf

theorem Moves.tiered (h : Moves x x') (ht : x.Tiered root level) :
    ∃ level', level ≤ level' ∧ x'.Tiered root level' ∧ Less (x'.left root level') (x.left root level) := by
  cases h with
  | @descend h hn =>
    refine ⟨level + 1, Nat.le_succ level, ⟨ht.next, nofun, by simp⟩, .left _ _ ?_⟩
    obtain ⟨i, hi⟩ : ∃ i, i ∈ h.next.toList := List.exists_mem_of_ne_nil _ (by simpa using hn)
    have := (ht.next i hi).level_le
    omega
  | @take h h' item front activity _ hn hi =>
    refine ⟨level, Nat.le_refl level, ⟨fun i hi => ht.front i (List.mem_cons_of_mem _ hi), ?_, ?_⟩, ?_⟩
    · intro i hitem
      exact hi i hitem ▸ ht.front item List.mem_cons_self
    · exact hn ▸ ht.next
    · exact .right _ (.left _ _ (Nat.lt_succ_self _))
  | @work h h' front queued activity activity' hn hi hq hw =>
    refine ⟨level, Nat.le_refl level, ⟨ht.front, fun i hitem => ht.atHand i (hi i hitem), ?_⟩, ?_⟩
    · intro i hmem
      rw [hn, List.mem_append] at hmem
      rcases hmem with hmem | hmem
      · exact ht.next i hmem
      · obtain ⟨item, hitem, hpart⟩ := hq i hmem
        exact hpart.atLevel (ht.atHand item hitem)
    · exact .right _ (.right _ hw)

theorem tiered_of_reaches {r : Run} {key : LabelKey} {agenda : List Task}
    (h : s.Reaches (.within r root key x agenda)) : ∃ level, x.Tiered root level := by
  refine Engine.within_of_reaches (P := fun root x => ∃ level, x.Tiered root level) ?_ ?_ h
  · intro r tally root _
    refine ⟨1, fun i hi => ?_, nofun, by simp [ofRoot, Scene.beginHunt]⟩
    cases List.mem_singleton.1 hi
    exact ⟨rfl, by simp only [Scene.rootItem]; omega⟩
  · rintro r root key x x' agenda h ⟨level, ht⟩ st
    cases (Engine.traced_of_reaches h).searches with
    | within _ htraced =>
      obtain ⟨level', -, ht', -⟩ := (st.moves htraced).tiered ht
      exact ⟨level', ht'⟩

theorem Tiered.acc (ho : owner ∈ s.layout.descriptors) (htraced : x.Traced s owner)
    (ht : x.Tiered root level) : Acc (fun x' x => Step s owner x x') x := by
  generalize hleft : x.left root level = left
  induction left using less_wf.induction generalizing x level with
  | h left ih =>
    subst hleft
    refine .intro x fun x' st => ?_
    obtain ⟨level', -, ht', hless⟩ := (st.moves htraced).tiered ht
    exact ih _ hless (htraced.step ho st) ht' rfl

def taken (x : Search) : Option WorkItem :=
  match x.activity, x.front with
  | .waiting, item :: _ => if x.hunt.remaining.isEmpty then none else some item
  | _, _ => none

theorem mem_front_of_taken {item : WorkItem} (h : item ∈ x.taken) : item ∈ x.front := by
  unfold taken at h
  split at h
  · next first front _ hfront =>
    split at h
    · cases h
    · cases h
      exact hfront ▸ List.mem_cons_self
  · cases h

inductive Takes (s : Scene) (owner : Descriptor) : Search → List WorkItem → Search → Prop
  | stop {x : Search} : Takes s owner x [] x
  | step {x y z : Search} {items : List WorkItem} : Step s owner x y → Takes s owner y items z →
      Takes s owner x (x.taken.toList ++ items) z

theorem Takes.sorted {y : Search} {items : List WorkItem} (h : Takes s owner x items y)
    (ho : owner ∈ s.layout.descriptors) (htraced : x.Traced s owner) (ht : x.Tiered root level) :
    (items.Pairwise fun i j => i.level ≤ j.level) ∧ ∀ i ∈ items, level ≤ i.level := by
  induction h generalizing level with
  | stop => exact ⟨.nil, nofun⟩
  | @step x y z items st _ ih =>
    obtain ⟨level', hle, ht', -⟩ := (st.moves htraced).tiered ht
    obtain ⟨hsorted, hlevel⟩ := ih (htraced.step ho st) ht'
    have htaken : ∀ i ∈ x.taken.toList, i.level = level := fun i hi =>
      (ht.front i (mem_front_of_taken (Option.mem_toList.1 hi))).level_eq
    refine ⟨List.pairwise_append.2 ⟨?_, hsorted, fun i hi j hj => ?_⟩, fun i hi => ?_⟩
    · cases x.taken with
      | none => exact .nil
      | some item => exact List.pairwise_singleton _ item
    · exact (htaken i hi).trans_le (hle.trans (hlevel j hj))
    · rcases List.mem_append.1 hi with hi | hi
      · exact (htaken i hi).ge
      · exact hle.trans (hlevel i hi)

end Search

namespace Scene

theorem exploreLevels_eq {levels n : Nat} {items : List WorkItem} {h : Hunt} (hle : n ≤ levels)
    (hh : ∀ i ∈ items, i.container.height ≤ n) :
    s.exploreLevels owner levels items h = s.exploreLevels owner n items h := by
  induction n generalizing levels items h with
  | zero =>
    have hitems : items = [] := by
      rw [List.eq_nil_iff_forall_not_mem]
      intro i hi
      have := hh i hi
      have := i.container.one_le_height
      omega
    subst hitems
    cases levels <;> rfl
  | succ n ih =>
    obtain ⟨levels, rfl⟩ : ∃ m, levels = m + 1 := ⟨levels - 1, by omega⟩
    rw [exploreLevels, exploreLevels]
    split
    · rfl
    cases hl : s.exploreLevel owner items { h with next := #[] } with
    | error fault => rfl
    | ok result =>
      obtain ⟨h', goesOn⟩ := result
      cases goesOn with
      | false => rfl
      | true => exact ih (by omega) (Search.exploreLevel_height hh (by simp) hl)

end Scene

end SlotLens

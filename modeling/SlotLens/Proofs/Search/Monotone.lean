import SlotLens.Proofs.Search.Partition

namespace SlotLens

variable {s : Scene}

structure Tally.FlagsIn (t t' : Tally) : Prop where
  limit : t.limitHit → t'.limitHit
  depth : t.depthHit → t'.depthHit

namespace Tally.FlagsIn

variable {t t' t'' : Tally}

theorem refl (t : Tally) : t.FlagsIn t := ⟨id, id⟩

theorem trans (h : t.FlagsIn t') (h' : t'.FlagsIn t'') : t.FlagsIn t'' :=
  ⟨fun hl => h'.limit (h.limit hl), fun hd => h'.depth (h.depth hd)⟩

end Tally.FlagsIn

section Hunt

variable {h h' : Hunt} {item : WorkItem} {ok : Bool} {value : Descriptor} {base : Int} {level : Nat}
  {path : Path}

theorem Hunt.spend_flags {b : Bounds} (hp : h.spend b = (h', ok)) :
    h.tally.FlagsIn h'.tally := by
  rcases Hunt.spend_cases hp with ⟨-, -, rfl⟩ | ⟨-, -, rfl⟩
  · exact ⟨id, id⟩
  · exact ⟨fun _ => rfl, id⟩

theorem Scene.enter_flags (he : s.enter item h = (h', ok)) : h.tally.FlagsIn h'.tally := by
  rcases Scene.enter_cases he with ⟨-, -, rfl⟩ | ⟨-, -, -, rfl⟩ | ⟨-, -, hp⟩
  · exact .refl _
  · exact .refl _
  · exact Hunt.spend_flags hp

theorem Scene.pushNested_flags :
    h.tally.FlagsIn (s.pushNested value base level path h).tally := by
  unfold Scene.pushNested
  split
  · exact .refl _
  · dsimp only
    split
    · exact .refl _
    · exact ⟨id, fun _ => rfl⟩

theorem Hunt.spend_limitHit {b : Bounds} (hb : b.limit = none) (hp : h.spend b = (h', ok)) :
    ok = true ∧ h'.tally.limitHit = h.tally.limitHit := by
  rcases Hunt.spend_cases hp with ⟨hok, -, rfl⟩ | ⟨-, hused, -⟩
  · exact ⟨hok, rfl⟩
  · simp [Bounds.exhausted, hb] at hused

theorem Scene.enter_limitHit (hb : s.bounds.limit = none) (he : s.enter item h = (h', ok)) :
    h'.tally.limitHit = h.tally.limitHit := by
  rcases Scene.enter_cases he with ⟨-, -, rfl⟩ | ⟨-, -, -, rfl⟩ | ⟨-, -, hp⟩
  · rfl
  · rfl
  · exact (Hunt.spend_limitHit hb hp).2

end Hunt

namespace Search

variable {owner : Descriptor} {x x' : Search} {slot : Int}

theorem Step.sublist (st : Step s owner x x') :
    x'.hunt.remaining.Sublist x.hunt.remaining := by
  rcases st.effect with ⟨hr, -, -⟩ | ⟨other, before, kind, note, located, -, -, -, hh⟩
  · rw [hr]
  · rw [hh, Hunt.claim_remaining]
    exact Hunt.resolve_sublist _ _ _

theorem Steps.sublist (st : Steps s owner x x') :
    x'.hunt.remaining.Sublist x.hunt.remaining := by
  induction st with
  | refl => exact .refl _
  | tail _ st ih => exact st.sublist.trans ih

theorem Step.mem_remaining (st : Step s owner x x') (ho : slot ∈ x'.hunt.remaining) :
    slot ∈ x.hunt.remaining :=
  st.sublist.subset ho

theorem Steps.mem_remaining (st : Steps s owner x x') (ho : slot ∈ x'.hunt.remaining) :
    slot ∈ x.hunt.remaining :=
  st.sublist.subset ho

theorem Step.grows (st : Step s owner x x') :
    x.hunt.tally.explored ≤ x'.hunt.tally.explored ∧ x.hunt.tally.found ≤ x'.hunt.tally.found := by
  have spends {h h' : Hunt} {ok : Bool} (hp : h.spend s.bounds = (h', ok)) :
      h.tally.explored ≤ h'.tally.explored ∧ h.tally.found ≤ h'.tally.found := by
    rcases Hunt.spend_cases hp with ⟨-, -, rfl⟩ | ⟨-, -, rfl⟩
    · exact ⟨Nat.le_succ _, Nat.le_refl _⟩
    · exact ⟨Nat.le_refl _, Nat.le_refl _⟩
  cases st with
  | refuse _ he | enter _ he =>
    rcases Scene.enter_cases he with ⟨-, -, rfl⟩ | ⟨-, -, -, rfl⟩ | ⟨-, -, hp⟩
    · exact ⟨Nat.le_refl _, Nat.le_refl _⟩
    · exact ⟨Nat.le_refl _, Nat.le_refl _⟩
    · exact spends hp
  | keysLimit _ _ hp | keyMiss _ _ hp | keyHit _ _ hp => exact spends hp
  | field | element | chunk =>
    simp only [Hunt.claim_explored, Hunt.claim_found]
    exact ⟨Nat.le_refl _, Nat.le_add_right _ _⟩
  | fieldsDone | nest => simp
  | _ => exact ⟨Nat.le_refl _, Nat.le_refl _⟩

theorem Steps.grows (st : Steps s owner x x') :
    x.hunt.tally.explored ≤ x'.hunt.tally.explored ∧ x.hunt.tally.found ≤ x'.hunt.tally.found := by
  induction st with
  | refl => exact ⟨Nat.le_refl _, Nat.le_refl _⟩
  | tail _ st ih => exact ⟨Nat.le_trans ih.1 st.grows.1, Nat.le_trans ih.2 st.grows.2⟩

theorem Step.flags (st : Step s owner x x') : x.hunt.tally.FlagsIn x'.hunt.tally := by
  cases st with
  | refuse _ he | enter _ he => exact Scene.enter_flags he
  | keysLimit _ _ hp | keyMiss _ _ hp | keyHit _ _ hp => exact Hunt.spend_flags hp
  | field | element | chunk => exact ⟨by simp, by simp⟩
  | fieldsDone | nest => exact Scene.pushNested_flags
  | nestedFull => exact ⟨fun _ => rfl, id⟩
  | _ => exact .refl _

theorem Steps.flags (st : Steps s owner x x') : x.hunt.tally.FlagsIn x'.hunt.tally := by
  induction st with
  | refl => exact .refl _
  | tail _ st ih => exact ih.trans st.flags

theorem Step.limitHit_eq (hb : s.bounds.limit = none) (st : Step s owner x x') :
    x'.hunt.tally.limitHit = x.hunt.tally.limitHit := by
  cases st with
  | refuse _ he | enter _ he => exact Scene.enter_limitHit hb he
  | keysLimit _ _ hp | keyMiss _ _ hp | keyHit _ _ hp => exact (Hunt.spend_limitHit hb hp).2
  | field | element | chunk => simp
  | fieldsDone | nest => simp
  | nestedFull _ hf => simp [Tally.budgetLeft, hb] at hf
  | _ => rfl

theorem Steps.limitHit_eq (hb : s.bounds.limit = none) (st : Steps s owner x x') :
    x'.hunt.tally.limitHit = x.hunt.tally.limitHit := by
  induction st with
  | refl => rfl
  | tail _ st ih => exact (st.limitHit_eq hb).trans ih

end Search

namespace Engine

variable {e e' : Engine} {slot : Int} {key : LabelKey} {t : Tally}

theorem Step.sublist (st : Step s e e') : e'.run.remaining.Sublist e.run.remaining := by
  cases st with
  | fixed hf =>
    obtain ⟨located, -, rfl⟩ := Scene.claimFixed_cases hf
    exact Hunt.resolve_sublist _ _ _
  | inside st => exact st.sublist
  | staticArray | skip | search | leave => exact .refl _

theorem Steps.sublist (st : Steps s e e') : e'.run.remaining.Sublist e.run.remaining := by
  induction st with
  | refl => exact .refl _
  | tail _ st ih => exact st.sublist.trans ih

theorem Step.mem_remaining (st : Step s e e') (ho : slot ∈ e'.run.remaining) :
    slot ∈ e.run.remaining :=
  st.sublist.subset ho

theorem Steps.mem_remaining (st : Steps s e e') (ho : slot ∈ e'.run.remaining) :
    slot ∈ e.run.remaining :=
  st.sublist.subset ho

theorem get?_tallies_within {r : Run} {root : Root} {key' : LabelKey} {x : Search}
    {agenda : List Task} : (within r root key' x agenda).run.tallies.get? key =
      if key' = key then some x.hunt.tally else r.tallies.get? key := Table.get?_insert _ _ _ _

theorem Step.flags (st : Step s e e') (hg : e.run.tallies.get? key = some t) :
    ∃ t', e'.run.tallies.get? key = some t' ∧ t.FlagsIn t' := by
  cases st with
  | fixed hf =>
    obtain ⟨located, -, rfl⟩ := Scene.claimFixed_cases hf
    exact ⟨t, hg, .refl t⟩
  | staticArray | skip | leave => exact ⟨t, hg, .refl t⟩
  | @search r root agenda key' =>
    rw [get?_tallies_within]
    split
    · next he =>
      subst he
      refine ⟨_, rfl, ?_⟩
      have hg' : r.tallies.get? key' = some t := hg
      simp only [Search.ofRoot, Scene.beginHunt, hg', Option.getD_some]
      exact .refl t
    · exact ⟨t, hg, .refl t⟩
  | inside st =>
    rw [get?_tallies_within] at hg ⊢
    split at hg
    · next he =>
      cases hg
      rw [if_pos he]
      exact ⟨_, rfl, st.flags⟩
    · next he =>
      rw [if_neg he]
      exact ⟨t, hg, .refl t⟩

theorem Steps.flags (st : Steps s e e') (hg : e.run.tallies.get? key = some t) :
    ∃ t', e'.run.tallies.get? key = some t' ∧ t.FlagsIn t' := by
  induction st with
  | refl => exact ⟨t, hg, .refl t⟩
  | tail _ st ih =>
    obtain ⟨t₁, hg₁, h₁⟩ := ih
    obtain ⟨t₂, hg₂, h₂⟩ := st.flags hg₁
    exact ⟨t₂, hg₂, h₁.trans h₂⟩

def WithinLimit (e : Engine) : Prop :=
  ∀ key t, e.run.tallies.get? key = some t → t.limitHit = false

theorem WithinLimit.step (hb : s.bounds.limit = none) (hw : e.WithinLimit) (st : Step s e e') :
    e'.WithinLimit := by
  intro key t hg
  cases st with
  | fixed hf =>
    obtain ⟨located, -, rfl⟩ := Scene.claimFixed_cases hf
    exact hw key t hg
  | staticArray | skip | leave => exact hw key t hg
  | @search r root agenda key' =>
    rw [get?_tallies_within] at hg
    split at hg
    · next he =>
      subst he
      cases hg
      cases hk : r.tallies.get? key' with
      | none => rfl
      | some known => exact hw key' known hk
    · exact hw key t hg
  | inside st =>
    rw [get?_tallies_within] at hg
    split at hg
    · next he =>
      cases hg
      rw [st.limitHit_eq hb]
      exact hw key _ (by rw [get?_tallies_within, if_pos he])
    · next he => exact hw key t (by rw [get?_tallies_within, if_neg he, hg])

theorem withinLimit_of_reaches (hb : s.bounds.limit = none) (h : s.Reaches e) : e.WithinLimit := by
  induction h with
  | refl =>
    intro key t hg
    cases hg
  | tail _ st ih => exact ih.step hb st

end Engine

end SlotLens

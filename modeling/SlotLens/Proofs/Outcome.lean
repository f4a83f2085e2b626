import SlotLens.Fault
import Mathlib.Data.List.Forall2

namespace SlotLens

variable {ε ε' α β : Type}

theorem bind_eq_ok {x : Except ε α} {f : α → Except ε β} {b : β} :
    (x >>= f) = .ok b ↔ ∃ a, x = .ok a ∧ f a = .ok b := by
  cases x with
  | error e => simp [bind, Except.bind]
  | ok a => simp [bind, Except.bind]

theorem pure_eq_ok {a b : α} : (pure a : Except ε α) = .ok b ↔ a = b := by
  simp [pure, Except.pure]

theorem map_eq_ok {x : Except ε α} {f : α → β} {b : β} :
    x.map f = .ok b ↔ ∃ a, x = .ok a ∧ f a = b := by
  cases x with
  | error e => simp [Except.map]
  | ok a => simp [Except.map]

theorem mapError_eq_ok {x : Except ε α} {f : ε → ε'} {a : α} :
    x.mapError f = .ok a ↔ x = .ok a := by
  cases x with
  | error e => simp [Except.mapError]
  | ok a => simp [Except.mapError]

theorem exists_error {x : Except ε α} : (∃ e, x = .error e) ↔ ∀ a, x ≠ .ok a := by
  cases x with
  | error e => simp
  | ok a => simp

theorem exists_bind {x : Except ε α} {f : α → Except ε β} (hx : ∃ a, x = .ok a)
    (hf : ∀ a, x = .ok a → ∃ b, f a = .ok b) : ∃ b, (x >>= f) = .ok b := by
  obtain ⟨a, ha⟩ := hx
  obtain ⟨b, hb⟩ := hf a ha
  exact ⟨b, bind_eq_ok.2 ⟨a, ha, hb⟩⟩

theorem exists_map {x : Except ε α} {f : α → β} (hx : ∃ a, x = .ok a) :
    ∃ b, x.map f = .ok b := by
  obtain ⟨a, ha⟩ := hx
  exact ⟨f a, map_eq_ok.2 ⟨a, ha, rfl⟩⟩

theorem exists_ok_of_toOption {x : Except ε α} {f : α → β} {b : β}
    (h : x.toOption.map f = some b) : ∃ a, x = .ok a ∧ f a = b := by
  cases x with
  | error e => cases h
  | ok a => exact ⟨a, rfl, Option.some.inj h⟩

theorem liftM_eq_ok {x : Except ShapeFault α} {a : α} :
    (liftM x : Except Fault α) = .ok a ↔ x = .ok a := by
  cases x with
  | error e => simp [liftM, monadLift, MonadLift.monadLift, Except.mapError]
  | ok b => simp [liftM, monadLift, MonadLift.monadLift, Except.mapError]

theorem exists_liftM {x : Except ShapeFault α} (hx : ∃ a, x = .ok a) :
    ∃ a, (liftM x : Except Fault α) = .ok a := by
  obtain ⟨a, ha⟩ := hx
  exact ⟨a, liftM_eq_ok.2 ha⟩

theorem mapM_eq_ok {f : α → Except ε β} {items : List α} {results : List β} :
    items.mapM f = .ok results ↔ List.Forall₂ (fun a b => f a = .ok b) items results := by
  induction items generalizing results with
  | nil =>
    rw [List.mapM_nil, pure_eq_ok]
    constructor
    · rintro rfl
      exact .nil
    · rintro ⟨⟩
      rfl
  | cons a items ih =>
    simp only [List.mapM_cons, bind_eq_ok, pure_eq_ok, ih]
    constructor
    · rintro ⟨b, hb, rest, hrest, rfl⟩
      exact .cons hb hrest
    · rintro (_ | ⟨hb, hrest⟩)
      exact ⟨_, hb, _, hrest, rfl⟩

section MapM

variable {f : α → Except ε β} {items : List α} {results : List β}

theorem mem_of_mapM (h : items.mapM f = .ok results) {b : β} :
    b ∈ results ↔ ∃ a ∈ items, f a = .ok b := by
  rw [mapM_eq_ok] at h
  induction h with
  | nil => simp
  | cons hb _ ih => simp [ih, hb, eq_comm]

theorem exists_mapM : (∃ results, items.mapM f = .ok results) ↔ ∀ a ∈ items, ∃ b, f a = .ok b := by
  induction items with
  | nil => exact ⟨fun _ a ha => absurd ha List.not_mem_nil, fun _ => ⟨[], rfl⟩⟩
  | cons a items ih =>
    rw [List.forall_mem_cons, ← ih]
    simp only [List.mapM_cons, bind_eq_ok, pure_eq_ok]
    constructor
    · rintro ⟨-, b, hb, rest, hrest, -⟩
      exact ⟨⟨b, hb⟩, rest, hrest⟩
    · rintro ⟨⟨b, hb⟩, rest, hrest⟩
      exact ⟨_, b, hb, rest, hrest, rfl⟩

theorem split_of_mapM {front back : List α} {a : α}
    (h : (front ++ a :: back).mapM f = .ok results) : ∃ before b after,
      f a = .ok b ∧ back.mapM f = .ok after ∧ results = before ++ b :: after := by
  rw [List.mapM_append, bind_eq_ok] at h
  obtain ⟨before, -, h⟩ := h
  obtain ⟨rest, hrest, h⟩ := bind_eq_ok.1 h
  cases pure_eq_ok.1 h
  obtain ⟨b, after, hb, hafter, rfl⟩ := List.forall₂_cons_left_iff.1 (mapM_eq_ok.1 hrest)
  exact ⟨before, b, after, hb, mapM_eq_ok.2 hafter, rfl⟩

end MapM

theorem option_mapM_eq_ok {f : α → Except ε β} {x : Option α} {y : Option β} :
    x.mapM f = .ok y ↔ (x = none ∧ y = none) ∨ ∃ a b, x = some a ∧ y = some b ∧ f a = .ok b := by
  cases x with
  | none =>
    rw [Option.mapM_none, pure_eq_ok]
    simp [eq_comm]
  | some a =>
    rw [Option.mapM_some]
    constructor
    · intro h
      obtain ⟨b, hb, rfl⟩ := map_eq_ok.1 h
      exact .inr ⟨a, b, rfl, rfl, hb⟩
    · rintro (⟨h, -⟩ | ⟨a, b, h, rfl, hb⟩)
      · cases h
      · cases h
        exact map_eq_ok.2 ⟨b, hb, rfl⟩

section FoldlM

variable {f : β → α → Except ε β} {items : List α} {b b' : β}

theorem foldlM_keeps {holds : List α → β → Prop}
    (step : ∀ done a b b', holds done b → f b a = .ok b' → holds (done ++ [a]) b')
    {done : List α} (hb : holds done b) (h : items.foldlM f b = .ok b') :
    holds (done ++ items) b' := by
  induction items generalizing done b with
  | nil =>
    cases pure_eq_ok.1 h
    rwa [List.append_nil]
  | cons a items ih =>
    rw [List.foldlM_cons, bind_eq_ok] at h
    obtain ⟨b₁, ha, h⟩ := h
    have hrest := ih (step done a b b₁ hb ha) h
    rwa [List.append_assoc] at hrest

theorem exists_foldlM {good : β → Prop}
    (step : ∀ a ∈ items, ∀ b, good b → ∃ b', f b a = .ok b' ∧ good b') (hb : good b) :
    ∃ b', items.foldlM f b = .ok b' ∧ good b' := by
  induction items generalizing b with
  | nil => exact ⟨b, rfl, hb⟩
  | cons a items ih =>
    obtain ⟨b₁, ha, hb₁⟩ := step a List.mem_cons_self b hb
    obtain ⟨b', hrest, hb'⟩ := ih (fun a ha => step a (List.mem_cons_of_mem _ ha)) hb₁
    exact ⟨b', by rw [List.foldlM_cons, bind_eq_ok]; exact ⟨b₁, ha, hrest⟩, hb'⟩

end FoldlM

/-- What an operation fails with is of one kind. -/
structure FailsOnly (P : ε → Prop) (x : Except ε α) : Prop where
  of_error : ∀ fault, x = .error fault → P fault

namespace FailsOnly

variable {P Q : ε → Prop} {x : Except ε α}

theorem ok (a : α) : FailsOnly P (.ok a : Except ε α) where
  of_error fault h := by cases h

theorem error {fault : ε} (h : P fault) : FailsOnly P (.error fault : Except ε α) where
  of_error fault' h' := by
    cases h'
    exact h

theorem error_iff {fault : ε} : FailsOnly P (.error fault : Except ε α) ↔ P fault :=
  ⟨fun h => h.of_error fault rfl, fun h => error h⟩

theorem of_forall (h : ∀ fault, P fault) : FailsOnly P x where
  of_error fault _ := h fault

theorem of_isOk (h : x.isOk) : FailsOnly P x := by
  cases x with
  | error fault => cases h
  | ok a => exact ok a

theorem mono (hx : FailsOnly P x) (h : ∀ fault, P fault → Q fault) : FailsOnly Q x where
  of_error fault he := h fault (hx.of_error fault he)

theorem bind {f : α → Except ε β} (hx : FailsOnly P x)
    (hf : ∀ a, x = .ok a → FailsOnly P (f a)) : FailsOnly P (x >>= f) := by
  cases x with
  | error fault => exact error (hx.of_error fault rfl)
  | ok a => exact hf a rfl

theorem bind_iff {f : α → Except ε β} (hf : ∀ a, ∃ b, f a = .ok b) :
    FailsOnly P (x >>= f) ↔ FailsOnly P x := by
  cases x with
  | error fault => exact error_iff.trans error_iff.symm
  | ok a =>
    obtain ⟨b, hb⟩ := hf a
    refine ⟨fun _ => ok a, fun _ => ?_⟩
    change FailsOnly P (f a)
    rw [hb]
    exact ok b

theorem map_iff {f : α → β} : FailsOnly P (x.map f) ↔ FailsOnly P x := by
  cases x with
  | error fault => exact error_iff.trans error_iff.symm
  | ok a => exact ⟨fun _ => ok a, fun _ => ok (f a)⟩

theorem map {f : α → β} (hx : FailsOnly P x) : FailsOnly P (x.map f) := map_iff.2 hx

theorem mapError_iff {P : ε' → Prop} {lift : ε → ε'} :
    FailsOnly P (x.mapError lift) ↔ FailsOnly (fun fault => P (lift fault)) x := by
  cases x with
  | error fault =>
    rw [error_iff (P := fun fault => P (lift fault))]
    exact error_iff
  | ok a => exact ⟨fun _ => ok a, fun _ => ok a⟩

theorem mapError {P : ε' → Prop} {lift : ε → ε'} (hx : FailsOnly (fun fault => P (lift fault)) x) :
    FailsOnly P (x.mapError lift) :=
  mapError_iff.2 hx

theorem mapM {f : α → Except ε β} {items : List α} (hf : ∀ a ∈ items, FailsOnly P (f a)) :
    FailsOnly P (items.mapM f) := by
  induction items with
  | nil => exact ok []
  | cons a items ih =>
    rw [List.mapM_cons]
    apply bind (hf a List.mem_cons_self)
    intro b _
    apply bind (ih fun a ha => hf a (List.mem_cons_of_mem _ ha))
    intro rest _
    exact ok (b :: rest)

/-- Where each step of a fold keeps what the next one needs, the fold fails as its steps do, and what
is needed holds at the end. -/
theorem foldlM {f : β → α → Except ε β} {items : List α} {b : β} {good : β → Prop} (hb : good b)
    (step : ∀ a ∈ items, ∀ b, good b → FailsOnly P (f b a) ∧ ∀ b', f b a = .ok b' → good b') :
    FailsOnly P (items.foldlM f b) ∧ ∀ b', items.foldlM f b = .ok b' → good b' := by
  induction items generalizing b with
  | nil =>
    refine ⟨ok b, fun b' h => ?_⟩
    cases h
    exact hb
  | cons a items ih =>
    obtain ⟨hfails, hkeeps⟩ := step a List.mem_cons_self b hb
    have hrest (b₁ : β) (h : f b a = .ok b₁) :=
      ih (hkeeps b₁ h) fun a ha => step a (List.mem_cons_of_mem _ ha)
    rw [List.foldlM_cons]
    refine ⟨hfails.bind fun b₁ h => (hrest b₁ h).1, fun b' h => ?_⟩
    obtain ⟨b₁, h₁, h⟩ := bind_eq_ok.1 h
    exact (hrest b₁ h₁).2 b' h

end FailsOnly

theorem exists_of_forall₂ {R : α → β → Prop} {as : List α} {bs : List β}
    (h : List.Forall₂ R as bs) {b : β} (hb : b ∈ bs) : ∃ a ∈ as, R a b := by
  induction h with
  | nil => exact absurd hb List.not_mem_nil
  | cons hr _ ih =>
    rcases List.mem_cons.1 hb with rfl | hb
    · exact ⟨_, List.mem_cons_self, hr⟩
    · obtain ⟨a, ha, hr⟩ := ih hb
      exact ⟨a, List.mem_cons_of_mem _ ha, hr⟩

theorem exists_forall₂ {γ : Type} {R : α → β → Prop} {S : β → γ → Prop} {as : List α}
    {cs : List γ} : (∃ bs, List.Forall₂ R as bs ∧ List.Forall₂ S bs cs) ↔
      List.Forall₂ (fun a c => ∃ b, R a b ∧ S b c) as cs := by
  constructor
  · rintro ⟨bs, hr, hs⟩
    induction hr generalizing cs with
    | nil =>
      cases hs
      exact .nil
    | cons hr _ ih =>
      cases hs with
      | cons hs hrest => exact .cons ⟨_, hr, hs⟩ (ih hrest)
  · intro h
    induction h with
    | nil => exact ⟨[], .nil, .nil⟩
    | cons h _ ih =>
      obtain ⟨b, hr, hs⟩ := h
      obtain ⟨bs, hrs, hss⟩ := ih
      exact ⟨b :: bs, .cons hr hrs, .cons hs hss⟩

end SlotLens

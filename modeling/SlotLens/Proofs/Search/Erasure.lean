import SlotLens.Proofs.Search.Congruence
import SlotLens.Proofs.Search.Partition
import SlotLens.Proofs.Search.Simulation

/-!
# Searching without a variable

A variable for which nothing is found leaves no trace but its tally, which no variable with another
label reads. So the passes go the same way without it.
-/

namespace SlotLens

section Drops

variable {α β γ ε : Type} {out kept : β → Prop} {items others : List β}

/-- A list with and without some of its items. -/
inductive Drops (out kept : β → Prop) : List β → List β → Prop
  | nil : Drops out kept [] []
  | keep {b items others} : kept b → Drops out kept items others →
      Drops out kept (b :: items) (b :: others)
  | drop {b items others} : out b → Drops out kept items others →
      Drops out kept (b :: items) others

namespace Drops

theorem of_kept (h : ∀ b ∈ items, kept b) : Drops out kept items items := by
  induction items with
  | nil => exact .nil
  | cons b items ih =>
    exact .keep (h b List.mem_cons_self) (ih fun b hb => h b (List.mem_cons_of_mem _ hb))

theorem of_out (h : ∀ b ∈ items, out b) : Drops out kept items [] := by
  induction items with
  | nil => exact .nil
  | cons b items ih =>
    exact .drop (h b List.mem_cons_self) (ih fun b hb => h b (List.mem_cons_of_mem _ hb))

theorem append {items' others' : List β} (h : Drops out kept items others)
    (h' : Drops out kept items' others') :
    Drops out kept (items ++ items') (others ++ others') := by
  induction h with
  | nil => exact h'
  | keep hb _ ih => exact .keep hb ih
  | drop hb _ ih => exact .drop hb ih

theorem filter (h : Drops out kept items others) (p : β → Bool) :
    Drops out kept (items.filter p) (others.filter p) := by
  induction h with
  | nil => exact .nil
  | @keep b _ _ hb _ ih =>
    by_cases hp : p b
    · rw [List.filter_cons_of_pos hp, List.filter_cons_of_pos hp]
      exact .keep hb ih
    · rwa [List.filter_cons_of_neg hp, List.filter_cons_of_neg hp]
  | @drop b _ _ hb _ ih =>
    by_cases hp : p b
    · rw [List.filter_cons_of_pos hp]
      exact .drop hb ih
    · rwa [List.filter_cons_of_neg hp]

theorem flatMap {out' kept' : γ → Prop} {f : β → List γ} (h : Drops out kept items others)
    (hkept : ∀ b, kept b → ∀ c ∈ f b, kept' c) (hout : ∀ b, out b → ∀ c ∈ f b, out' c) :
    Drops out' kept' (items.flatMap f) (others.flatMap f) := by
  induction h with
  | nil => exact .nil
  | keep hb _ ih => exact (of_kept (hkept _ hb)).append ih
  | drop hb _ ih => exact (of_out (hout _ hb)).append ih

theorem sublist (h : Drops out kept items others) : others.Sublist items := by
  induction h with
  | nil => exact .refl _
  | keep _ _ ih => exact ih.cons_cons _
  | drop _ _ ih => exact ih.cons _

/-- Where the items that are left out change nothing that `φ` keeps, a fold over all items goes like
the one without them, as long as its end is good. -/
theorem foldlM {f g : α → β → Except ε α} (hd : Drops out kept items others) (φ : α → α)
    (good : α → Prop) (hback : ∀ a b a', f a b = .ok a' → good a' → good a)
    (hkept : ∀ a b a', kept b → f a b = .ok a' → good a' → g (φ a) b = .ok (φ a'))
    (hout : ∀ a b a', out b → f a b = .ok a' → good a' → φ a' = φ a) {a a' : α}
    (h : items.foldlM f a = .ok a') (hg : good a') :
    good a ∧ others.foldlM g (φ a) = .ok (φ a') := by
  -- The induction carries `good` from the end back to the state before each item.
  induction hd generalizing a with
  | nil =>
    cases h
    exact ⟨hg, rfl⟩
  | keep hb _ ih =>
    rw [List.foldlM_cons, bind_eq_ok] at h
    obtain ⟨a₁, hf, h⟩ := h
    obtain ⟨hg₁, hrest⟩ := ih h
    refine ⟨hback _ _ _ hf hg₁, ?_⟩
    rw [List.foldlM_cons, bind_eq_ok]
    exact ⟨φ a₁, hkept _ _ _ hb hf hg₁, hrest⟩
  | drop hb _ ih =>
    rw [List.foldlM_cons, bind_eq_ok] at h
    obtain ⟨a₁, hf, h⟩ := h
    obtain ⟨hg₁, hrest⟩ := ih h
    refine ⟨hback _ _ _ hf hg₁, ?_⟩
    rw [← hout _ _ _ hb hf hg₁]
    exact hrest

end Drops

end Drops

def Mentions (results : Table Int (List Match)) (label : Value) : Prop :=
  ∃ slot ms, results.get? slot = some ms ∧ ∃ m ∈ ms, m.name = label ∧ m.kind ≠ .unresolved

section Mentions

variable {s : Scene} {owner : Descriptor} {label : Value} {slot : Int} {path : Path}
  {kind : MatchKind} {note : Option String} {located : List Located}

namespace Hunt

variable {h : Hunt} {found : List Match}

theorem mentions_resolve (hm : Mentions h.results label) :
    Mentions (h.resolve slot found).results label := by
  obtain ⟨other, ms, hg, m, hmem, hname⟩ := hm
  by_cases hf : found = []
  · subst hf
    exact ⟨other, ms, hg, m, hmem, hname⟩
  · by_cases he : other = slot
    · subst he
      refine ⟨other, _, get?_resolve_self hf, m, ?_, hname⟩
      rw [hg]
      exact (perm_sortBy _ _).mem_iff.2 (List.mem_append_left _ hmem)
    · exact ⟨other, ms, (get?_resolve_of_ne he).trans hg, m, hmem, hname⟩

theorem resolve_silent (hk : kind ≠ .unresolved) :
    let h' := h.resolve slot (claimed slot owner path kind note located)
    h' = h ∨ Mentions h'.results owner.label := by
  cases located with
  | nil => exact .inl rfl
  | cons l located =>
    have hn : claimed slot owner path kind note (l :: located) ≠ [] := List.cons_ne_nil _ _
    refine .inr ⟨slot, _, get?_resolve_self hn, Match.ofLocated slot owner path kind note l, ?_,
      rfl, hk⟩
    exact (perm_sortBy _ _).mem_iff.2 (List.mem_append_right _ List.mem_cons_self)

end Hunt

namespace Search

variable {x x' : Search}

theorem Step.mentions (st : Step s owner x x') (hm : Mentions x.hunt.results label) :
    Mentions x'.hunt.results label := by
  rcases st.effect with ⟨-, he, -⟩ | ⟨slot, path, kind, note, located, -, -, -, hh⟩
  · rwa [he]
  · rw [hh, Hunt.claim_results]
    exact Hunt.mentions_resolve hm

theorem Steps.mentions (st : Steps s owner x x') (hm : Mentions x.hunt.results label) :
    Mentions x'.hunt.results label := by
  induction st with
  | refl => exact hm
  | tail _ st ih => exact st.mentions ih

theorem Steps.silent (st : Steps s owner x x') :
    (x'.hunt.remaining = x.hunt.remaining ∧ x'.hunt.results = x.hunt.results) ∨
      Mentions x'.hunt.results owner.label := by
  induction st with
  | refl => exact .inl ⟨rfl, rfl⟩
  | @tail y z _ st ih =>
    rcases ih with ⟨hr, hres⟩ | hm
    · rcases st.effect with ⟨hr', hres', -⟩ | ⟨slot, path, kind, note, located, -, -, hu, hh⟩
      · exact .inl ⟨hr'.trans hr, hres'.trans hres⟩
      · rw [hh, Hunt.claim_remaining, Hunt.claim_results]
        refine (Hunt.resolve_silent (h := y.hunt) hu).imp (fun he => ?_) id
        rw [he]
        exact ⟨hr, hres⟩
    · exact .inr (st.mentions hm)

end Search

end Mentions

namespace Run

variable {r : Run} {label : Value}

def without (r : Run) (label : Value) : Run :=
  match LabelKey.ofValue label with
  | .ok key => { r with tallies := r.tallies.erase key }
  | .error _ => r

@[simp] theorem without_remaining : (r.without label).remaining = r.remaining := by
  unfold without
  split <;> rfl

@[simp] theorem without_results : (r.without label).results = r.results := by
  unfold without
  split <;> rfl

theorem mem_tallies_without : ∀ e ∈ (r.without label).tallies.entries, e ∈ r.tallies.entries := by
  unfold without
  split
  · exact fun e he => (List.mem_filter.1 he).1
  · exact fun e he => he

theorem without_congr {remaining : List Int} {results : Table Int (List Match)}
    {key : LabelKey} {tally : Tally} (hk : LabelKey.ofValue label = .ok key)
    (hr : remaining = r.remaining) (hres : results = r.results) :
    (⟨remaining, results, r.tallies.insert key tally⟩ : Run).without label = r.without label := by
  subst hr hres
  simp only [without, hk, Table.erase_insert_self]

theorem without_insert {remaining : List Int} {results : Table Int (List Match)}
    {key : LabelKey} {tally : Tally} (hk : LabelKey.ofValue label ≠ .ok key) :
    (⟨remaining, results, r.tallies.insert key tally⟩ : Run).without label =
      ⟨remaining, results, (r.without label).tallies.insert key tally⟩ := by
  unfold without
  split
  · next key' hk' =>
    have hne : key ≠ key' := fun he => hk (he ▸ hk')
    simp only [Table.erase_insert_of_ne hne]
  · rfl

theorem get?_without {key : LabelKey} (hk : LabelKey.ofValue label ≠ .ok key) :
    (r.without label).tallies.get? key = r.tallies.get? key := by
  unfold without
  split
  · next key' hk' =>
    have hne : key' ≠ key := fun he => hk (he ▸ hk')
    rw [Table.get?_erase, if_neg hne]
  · rfl

end Run

def Descriptor.SharesTally (d d' : Descriptor) : Prop :=
  ∃ key, LabelKey.ofValue d.label = .ok key ∧ LabelKey.ofValue d'.label = .ok key

namespace Scene

variable {s : Scene} {l : Layout} {v owner : Descriptor} {kind : MatchKind} {slot : Int}
  {r r' : Run} {root : Root} {label : Value}

theorem claimFixed_mentions (hf : claimFixed owner kind slot r = .ok r')
    (hm : Mentions r.results label) : Mentions r'.results label := by
  obtain ⟨located, -, rfl⟩ := claimFixed_cases hf
  exact Hunt.mentions_resolve (h := beginHunt r .zero) hm

theorem claimFixed_silent (hf : claimFixed owner kind slot r = .ok r') (hk : kind ≠ .unresolved)
    (hn : ¬ Mentions r'.results owner.label) : r' = r := by
  obtain ⟨located, -, rfl⟩ := claimFixed_cases hf
  rw [(Hunt.resolve_silent (h := beginHunt r .zero) hk).resolve_right hn]
  rfl

theorem claimFixed_without (hf : claimFixed owner kind slot r = .ok r') :
    claimFixed owner kind slot (r.without label) = .ok (r'.without label) := by
  obtain ⟨located, hl, rfl⟩ := claimFixed_cases hf
  simp only [claimFixed, hl, beginHunt, Run.without_remaining, Run.without_results]
  unfold Run.without
  split <;> rfl

theorem matchRoot_mentions (hm : s.matchRoot r root = .ok r') (hn : Mentions r.results label) :
    Mentions r'.results label := by
  rcases matchRoot_cases hm with ⟨-, rfl⟩ | ⟨-, key, h, -, he, rfl⟩
  · exact hn
  · obtain ⟨front, hs⟩ := Search.exploreRoot_steps he
    exact hs.mentions hn

theorem matchRoot_silent (hm : s.matchRoot r root = .ok r')
    (hn : ¬ Mentions r'.results root.variableDescriptor.label) :
    r'.without root.variableDescriptor.label = r.without root.variableDescriptor.label := by
  rcases matchRoot_cases hm with ⟨-, rfl⟩ | ⟨-, key, h, hk, he, rfl⟩
  · rfl
  · obtain ⟨front, hs⟩ := Search.exploreRoot_steps he
    obtain ⟨hr, hres⟩ := hs.silent.resolve_right hn
    exact Run.without_congr hk hr hres

theorem matchRoot_without (hk : ¬ root.variableDescriptor.SharesTally v)
    (hm : s.matchRoot r root = .ok r') :
    (s.withLayout l).matchRoot (r.without v.label) root = .ok (r'.without v.label) := by
  rw [matchRoot, Run.without_remaining]
  rcases matchRoot_cases hm with ⟨hr, rfl⟩ | ⟨hr, key, h, hkey, he, rfl⟩
  · rw [hr]
    rfl
  · -- The search reads and writes the tally of its own key only.
    have hne : LabelKey.ofValue v.label ≠ .ok key := fun hv => hk ⟨key, hkey, hv⟩
    have hbegin (tally : Tally) : beginHunt (r.without v.label) tally = beginHunt r tally := by
      simp only [beginHunt, Run.without_remaining, Run.without_results]
    rw [if_neg (by simpa using hr), Run.without_insert hne]
    simp only [bind_eq_ok, liftM_eq_ok, pure_eq_ok]
    refine ⟨key, hkey, h, ?_, rfl⟩
    rw [hbegin, Run.get?_without hne, (agrees_withLayout s l).exploreRoot]
    exact he

end Scene

end SlotLens

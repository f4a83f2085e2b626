import SlotLens.Proofs.Search.Direct

namespace SlotLens

variable {s : Scene} {owner : Descriptor} {slot : Int}

namespace Task

def stage : Task → Nat
  | .fixed .exact .. => 0
  | .fixed .. | .staticArray _ => 2
  | .root r => if r.container.kind = .mapping then 1 else 3

abbrev InOrder (tasks : List Task) : Prop := tasks.Pairwise fun t t' => t.stage ≤ t'.stage

variable {tasks others : List Task} {n : Nat}

theorem inOrder_of_stage (h : ∀ t ∈ tasks, t.stage = n) : InOrder tasks :=
  List.pairwise_of_forall_mem_list fun t ht t' ht' => by rw [h t ht, h t' ht']

theorem InOrder.append (h : InOrder tasks) (h' : InOrder others) (hn : ∀ t ∈ tasks, t.stage ≤ n)
    (hn' : ∀ t ∈ others, n ≤ t.stage) : InOrder (tasks ++ others) :=
  List.pairwise_append.2 ⟨h, h', fun t ht t' ht' => (hn t ht).trans (hn' t' ht')⟩

end Task

namespace Scene

theorem stage_exactTasks : ∀ t ∈ s.exactTasks, t.stage = 0 := by
  intro t ht
  obtain ⟨slot, -, ht⟩ := List.mem_flatMap.1 ht
  obtain ⟨owner, -, rfl⟩ := List.mem_map.1 ht
  rfl

theorem stage_mappingRoots : ∀ t ∈ s.layout.mappingRoots.map Task.root, t.stage = 1 := by
  intro t ht
  obtain ⟨root, hr, rfl⟩ := List.mem_map.1 ht
  exact if_pos (beq_iff_eq.1 (List.mem_filter.1 hr).2)

theorem stage_staticArrays : ∀ t ∈ s.layout.staticArrays.map Task.staticArray, t.stage = 2 := by
  intro t ht
  obtain ⟨owner, -, rfl⟩ := List.mem_map.1 ht
  rfl

theorem stage_otherRoots :
    ∀ t ∈ (s.layout.arrayRoots ++ s.layout.bytesRoots).map Task.root, t.stage = 3 := by
  intro t ht
  obtain ⟨root, hr, rfl⟩ := List.mem_map.1 ht
  exact if_neg (container_kind_ne hr)

theorem inOrder_start : Task.InOrder (s.exactTasks ++ s.laterTasks) := by
  have hroots := Task.inOrder_of_stage s.stage_otherRoots
  have hstatic := (Task.inOrder_of_stage s.stage_staticArrays).append (n := 2) hroots
    (fun t ht => (s.stage_staticArrays t ht).le) fun t ht => by rw [s.stage_otherRoots t ht]; decide
  have hlater : ∀ t ∈ s.layout.staticArrays.map Task.staticArray ++
      (s.layout.arrayRoots ++ s.layout.bytesRoots).map Task.root, 2 ≤ t.stage := by
    intro t ht
    rcases List.mem_append.1 ht with ht | ht
    · rw [s.stage_staticArrays t ht]
    · rw [s.stage_otherRoots t ht]
      decide
  have hmappings := (Task.inOrder_of_stage s.stage_mappingRoots).append (n := 1) hstatic
    (fun t ht => (s.stage_mappingRoots t ht).le) fun t ht => Nat.le_of_succ_le (hlater t ht)
  rw [laterTasks, List.append_assoc]
  exact (Task.inOrder_of_stage s.stage_exactTasks).append (n := 0) hmappings
    (fun t ht => (s.stage_exactTasks t ht).le) fun t _ => Nat.zero_le _

end Scene

namespace Engine

variable {e e' : Engine}

def tasks : Engine → List Task
  | .between _ agenda => agenda
  | .within _ root _ _ agenda => .root root :: agenda

theorem inOrder_step (h : Task.InOrder e.tasks) (st : Step s e e') : Task.InOrder e'.tasks := by
  cases st with
  | fixed | skip | leave => exact (List.pairwise_cons.1 h).2
  | search | inside => exact h
  | @staticArray r owner agenda =>
    obtain ⟨hhead, htail⟩ := List.pairwise_cons.1 h
    have hstage : ∀ t ∈ ((Scene.beginHunt r .zero).hits owner.slot owner.slotCount).map
        (Task.fixed .array owner), t.stage = 2 := by
      intro t ht
      obtain ⟨slot, -, rfl⟩ := List.mem_map.1 ht
      rfl
    exact (Task.inOrder_of_stage hstage).append htail (fun t ht => (hstage t ht).le) hhead

theorem inOrder_of_reaches (h : s.Reaches e) : Task.InOrder e.tasks := by
  induction h with
  | refl => exact s.inOrder_start
  | tail _ st ih => exact inOrder_step ih st

/-- As long as a slot is open, it is left to be set down what a static array holds there. -/
def Owes (e : Engine) (owner : Descriptor) (slot : Int) : Prop :=
  slot ∈ e.run.remaining → .staticArray owner ∈ e.agenda ∨ .fixed .array owner slot ∈ e.agenda

theorem owes_step (hc : owner.covers slot)
    (hl : ∀ located, owner.locate (slot - owner.slot) = .ok located → located ≠ [])
    (h : e.Owes owner slot) (st : Step s e e') : e'.Owes owner slot := by
  intro ho
  have hopen := st.mem_remaining ho
  cases st with
  | @fixed r r' kind other at_ agenda hf =>
    refine (h hopen).imp (fun ht => ?_) fun ht => ?_
    · exact (List.mem_cons.1 ht).resolve_left (by simp)
    · refine (List.mem_cons.1 ht).resolve_left fun he => ?_
      -- The task that is owed closes the slot.
      cases he
      obtain ⟨located, hloc, rfl⟩ := Scene.claimFixed_cases hf
      rw [run, Hunt.resolve_remaining (Hunt.claimed_ne_nil (hl located hloc))] at ho
      simp at ho
  | @staticArray r other agenda =>
    rcases h hopen with ht | ht
    · rcases List.mem_cons.1 ht with he | ht
      · -- The static array is taken up: the slot is still open, so it gets a task.
        cases he
        simp only [Descriptor.covers, Bool.and_eq_true, decide_eq_true_eq] at hc
        have hhit : slot ∈ (Scene.beginHunt r .zero).hits owner.slot owner.slotCount :=
          Hunt.mem_hits.2 ⟨hopen, hc⟩
        exact .inr (List.mem_append_left _ (List.mem_map.2 ⟨slot, hhit, rfl⟩))
      · exact .inl (List.mem_append_right _ ht)
    · exact .inr (List.mem_append_right _ ((List.mem_cons.1 ht).resolve_left (by simp)))
  | skip | search =>
    exact (h hopen).imp (fun ht => (List.mem_cons.1 ht).resolve_left (by simp))
      fun ht => (List.mem_cons.1 ht).resolve_left (by simp)
  | inside | leave => exact h hopen

theorem owes_of_reaches (hs : owner ∈ s.layout.staticArrays) (hc : owner.covers slot)
    (hl : ∀ located, owner.locate (slot - owner.slot) = .ok located → located ≠ [])
    (h : s.Reaches e) : e.Owes owner slot := by
  induction h with
  | refl =>
    intro _
    refine .inl (List.mem_append_right _ (List.mem_append_left _ (List.mem_append_right _ ?_)))
    exact List.mem_map.2 ⟨owner, hs, rfl⟩
  | tail _ st ih => exact owes_step hc hl ih st

variable {v : Descriptor} {level : Nat} {path : Path} {kind : MatchKind} {note : Option String}
  {located : List Located}

theorem Finds.cases_of_staticArray (h : s.Reaches e) (ho : slot ∈ e.run.remaining)
    (hx : e.Finds slot v level path kind note located) (hs : owner ∈ s.layout.staticArrays)
    (hc : owner.covers slot)
    (hl : ∀ located, owner.locate (slot - owner.slot) = .ok located → located ≠ []) :
    kind = .exact ∨ kind = .mapping ∨
      (kind = .array ∧ v ∈ s.layout.staticArrays ∧ v.covers slot ∧ path = [] ∧ note = none ∧
        v.locate (slot - v.slot) = .ok located) := by
  cases hx with
  | direct hloc =>
    rcases fits_of_reaches h (.fixed _ _ _) List.mem_cons_self with hk | ⟨hk, hv, hvc⟩
    · exact .inl hk
    · exact .inr (.inr ⟨hk, hv, hvc, rfl, rfl, hloc⟩)
  | @derived r root key x agenda item path kind note located hi hx =>
    -- The static array waits behind the root, so the root is a mapping.
    have hstage : (Task.root root).stage ≤ 2 := by
      have horder := (List.pairwise_cons.1 (inOrder_of_reaches h)).1
      rcases owes_of_reaches hs hc hl h ho with ht | ht
      · exact horder _ ht
      · exact horder _ ht
    have hroot : root.container.kind = .mapping := by
      by_contra hn
      rw [Task.stage, if_neg hn] at hstage
      omega
    cases (traced_of_reaches h).searches with
    | within _ ht =>
      cases ranked_of_reaches h with
      | within hr => exact .inr (.inl (hr.kind_eq ht hx hroot))

end Engine

end SlotLens

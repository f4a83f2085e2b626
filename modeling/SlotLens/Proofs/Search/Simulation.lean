import SlotLens.Proofs.Search.Inside
import SlotLens.Proofs.Search.Step

namespace SlotLens

open Relation

namespace Search

variable {s : Scene} {owner element value : Descriptor} {item : WorkItem} {h h' : Hunt}
  {front : List WorkItem} {keyType : Value}

theorem claimValue_steps {rest : List Candidate} {derived : Int} {path : Path} {slots : List Int}
    (hv : Scene.claimValue owner value derived path slots h = .ok h') :
    Steps s owner ⟨h, front, .fields item keyType value rest derived path slots⟩
      ⟨h', front, .fields item keyType value rest derived path []⟩ := by
  induction slots generalizing h with
  | nil =>
    cases hv
    exact .refl
  | cons slot slots ih =>
    rw [Scene.claimValue, bind_eq_ok] at hv
    obtain ⟨located, hl, hv⟩ := hv
    exact .head (.field hl) (ih hv)

theorem claimElements_steps {data length : Int} {slots : List Int}
    (hv : Scene.claimElements owner item.container data length item.path slots h = .ok h') :
    Steps s owner ⟨h, front, .elements item element data length slots⟩
      ⟨h', front, .elements item element data length []⟩ := by
  induction slots generalizing h with
  | nil =>
    cases hv
    exact .refl
  | cons slot slots ih =>
    rw [Scene.claimElements, bind_eq_ok] at hv
    obtain ⟨located, hl, hv⟩ := hv
    exact .head (.element hl) (ih hv)

theorem claimChunks_steps {entry : Entry} {data : Int} {slots : List Int} :
    Steps s owner ⟨h, front, .chunks item entry data slots⟩
      ⟨Scene.claimChunks owner entry data item.path slots h, front, .waiting⟩ := by
  induction slots generalizing h with
  | nil => exact .single .chunksDone
  | cons slot slots ih => exact .head .chunk ih

theorem expandMapping_steps {rest : List Candidate}
    (he : s.expandMapping owner item keyType value rest h = .ok h') :
    Steps s owner ⟨h, front, .keys item keyType value rest⟩ ⟨h', front, .waiting⟩ := by
  induction rest generalizing h with
  | nil =>
    cases he
    exact .single .keysTried
  | cons c rest ih =>
    rcases Scene.expandMapping_cons he with
      ⟨hs, rfl⟩ | ⟨hr, hf, hp | ⟨h₁, h₂, hp, ht, he⟩⟩
    · exact .single (.keysStop hs)
    · exact .single (.keysLimit hr hf hp)
    · obtain ⟨derived, hd, ⟨hh, hc, rfl⟩ | ⟨hm, key, h₃, hk, hv, rfl⟩⟩ := Scene.tryKey_cases ht
      · exact .head (.keyMiss hr hf hp hd hh hc) (ih he)
      · exact .head (.keyHit hr hf hp hd hm hk)
          ((claimValue_steps hv).trans (.head .fieldsDone (ih he)))

theorem pushElements_steps {data : Int} {count index : Nat} :
    Steps s owner ⟨h, front, .nested item element data count index⟩
      ⟨s.pushElements element data item front.length count index h, front, .waiting⟩ := by
  induction count generalizing index h with
  | zero => exact .single .nestedDone
  | succ count ih =>
    rw [Scene.pushElements]
    split
    · next hs => exact .single (.nestedStop hs)
    · next hs =>
      rw [Bool.not_eq_true] at hs
      split
      · next hb => exact .single (.nestedFull hs hb)
      · next hb =>
        rw [Bool.not_eq_true] at hb
        exact .head (.nest hs hb) ih

theorem expandArray_steps {e : Entry} (ha : item.container = .dynamicArray e element)
    (he : s.expandArray owner item element front.length h = .ok h') :
    Steps s owner ⟨h, front, .opened item⟩ ⟨h', front, .waiting⟩ := by
  rcases Scene.expandArray_cases he with
    ⟨hl, rfl⟩ | ⟨length, data, span, h₁, hl, hd, hs, hv, hn⟩
  · exact .single (.openUnknown ha hl)
  · refine .head (.openArray ha hl hd hs) ((claimElements_steps hv).trans ?_)
    rcases hn with ⟨hc, rfl⟩ | ⟨hc, rfl⟩
    · exact .single (.elementsDone hc)
    · exact .head (.elementsNested hc) pushElements_steps

theorem expandBytes_steps {e : Entry} (hb : item.container = .bytes e)
    (he : s.expandBytes owner item e h = .ok h') :
    Steps s owner ⟨h, front, .opened item⟩ ⟨h', front, .waiting⟩ := by
  rcases Scene.expandBytes_cases he with ⟨hl, rfl⟩ | ⟨length, data, hl, hd, rfl⟩
  · exact .single (.openShort hb hl)
  · exact .head (.openLong hb hl hd) claimChunks_steps

theorem expand_steps (he : s.expand owner item front.length h = .ok h') :
    Steps s owner ⟨h, front, .opened item⟩ ⟨h', front, .waiting⟩ := by
  rw [Scene.expand] at he
  split at he
  · next hm => exact .head (.openMapping hm) (expandMapping_steps he)
  · next ha => exact expandArray_steps ha he
  · next hb => exact expandBytes_steps hb he
  · next hm ha hb =>
    cases he
    exact .single (.openOther hm ha hb)

theorem exploreLevel_steps {items : List WorkItem} {goesOn : Bool}
    (he : s.exploreLevel owner items h = .ok (h', goesOn)) :
    (goesOn = true ∧ Steps s owner ⟨h, items, .waiting⟩ ⟨h', [], .waiting⟩) ∨
      (goesOn = false ∧ ∃ front, Steps s owner ⟨h, items, .waiting⟩ ⟨h', front, .ended⟩) := by
  induction items generalizing h with
  | nil =>
    cases he
    exact .inl ⟨rfl, .refl⟩
  | cons item rest ih =>
    rcases Scene.exploreLevel_cons he with
      ⟨hr, rfl, rfl⟩ | ⟨hr, ⟨hn, rfl⟩ | ⟨h₁, h₂, hn, hx, he⟩⟩
    · exact .inr ⟨rfl, _, .single (.solved hr)⟩
    · exact .inr ⟨rfl, _, .single (.refuse hr hn)⟩
    · have hs : Steps s owner ⟨h, item :: rest, .waiting⟩ ⟨h₂, rest, .waiting⟩ :=
        .head (.enter hr hn) (expand_steps hx)
      rcases ih he with ⟨hg, ht⟩ | ⟨hg, front, ht⟩
      · exact .inl ⟨hg, hs.trans ht⟩
      · exact .inr ⟨hg, front, hs.trans ht⟩

theorem exploreLevel_next {p : WorkItem → Prop} {items : List WorkItem} {goesOn : Bool}
    (hi : ∀ item ∈ items, ∀ i, s.Below item i → p i) (hn : ∀ i ∈ h.next.toList, p i)
    (he : s.exploreLevel owner items h = .ok (h', goesOn)) : ∀ i ∈ h'.next.toList, p i := by
  induction items generalizing h with
  | nil =>
    cases he
    exact hn
  | cons item rest ih =>
    rcases Scene.exploreLevel_cons he with
      ⟨-, rfl, -⟩ | ⟨-, ⟨hp, -⟩ | ⟨h₁, h₂, hp, hx, he⟩⟩
    · exact hn
    · exact (Scene.enter_keeps hp).2.2 ▸ hn
    · refine ih (fun i hm => hi i (List.mem_cons_of_mem _ hm)) ?_ he
      intro i hm
      rcases Scene.expand_next hx hm with hm | hm
      · exact hn i ((Scene.enter_keeps hp).2.2 ▸ hm)
      · exact hi item List.mem_cons_self i hm

theorem exploreLevel_height {n : Nat} {items : List WorkItem} {goesOn : Bool}
    (hi : ∀ i ∈ items, i.container.height ≤ n + 1)
    (hn : ∀ i ∈ h.next.toList, i.container.height ≤ n)
    (he : s.exploreLevel owner items h = .ok (h', goesOn)) :
    ∀ i ∈ h'.next.toList, i.container.height ≤ n := by
  refine exploreLevel_next (fun item hm i hb => ?_) hn he
  have hlt := hb.inside.height_lt
  have hle := hi item hm
  simp only [WorkItem.site] at hlt
  omega

theorem resume_of_steps {levels : Nat}
    (hs : h.next.toList ≠ [] → ∃ front,
      Steps s owner ⟨{ h with next := #[] }, h.next.toList, .waiting⟩ ⟨h', front, .ended⟩)
    (he : s.exploreLevels owner levels h.next.toList h = .ok h') :
    ∃ front, Steps s owner ⟨h, [], .waiting⟩ ⟨h', front, .ended⟩ := by
  by_cases hn : h.next = #[]
  · rw [hn] at he
    cases Scene.exploreLevels_nil he
    exact ⟨_, .single (.finish hn)⟩
  · obtain ⟨front, hs⟩ := hs (by simpa using hn)
    exact ⟨front, .head (.descend hn) hs⟩

theorem exploreLevels_steps {levels : Nat} {items : List WorkItem} (hi : items ≠ [])
    (hh : ∀ i ∈ items, i.container.height ≤ levels)
    (he : s.exploreLevels owner levels items h = .ok h') :
    ∃ front, Steps s owner ⟨{ h with next := #[] }, items, .waiting⟩ ⟨h', front, .ended⟩ := by
  induction levels generalizing items h with
  | zero =>
    obtain ⟨item, hm⟩ := List.exists_mem_of_ne_nil items hi
    have := hh item hm
    have := item.container.one_le_height
    omega
  | succ levels ih =>
    rcases Scene.exploreLevels_succ hi he with hl | ⟨h₁, hl, he⟩
    · rcases exploreLevel_steps hl with ⟨hg, -⟩ | ⟨-, hs⟩
      · cases hg
      · exact hs
    · rcases exploreLevel_steps hl with ⟨-, hs⟩ | ⟨hg, -⟩
      · have hheight := exploreLevel_height hh (by simp) hl
        obtain ⟨front, ht⟩ := resume_of_steps (fun hn => ih hn hheight he) he
        exact ⟨front, hs.trans ht⟩
      · cases hg

theorem exploreLevels_resume {levels : Nat} (hh : ∀ i ∈ h.next.toList, i.container.height ≤ levels)
    (he : s.exploreLevels owner levels h.next.toList h = .ok h') :
    ∃ front, Steps s owner ⟨h, [], .waiting⟩ ⟨h', front, .ended⟩ :=
  resume_of_steps (fun hn => exploreLevels_steps hn hh he) he

/-- The search of a root is a path of the machine from its start to its end. -/
theorem exploreRoot_steps {r : Run} {tally : Tally} {root : Root}
    (he : s.exploreRoot root (Scene.beginHunt r tally) = .ok h') :
    ∃ front, Steps s root.variableDescriptor (.ofRoot r tally root) ⟨h', front, .ended⟩ := by
  refine exploreLevels_steps (List.cons_ne_nil _ _) ?_ he
  intro i hi
  cases List.mem_singleton.1 hi
  exact Nat.le_refl _

end Search

namespace Engine

variable {s : Scene} {r r' : Run} {agenda : List Task}

theorem within_steps {root : Root} {key : LabelKey} {x y : Search}
    (hs : Search.Steps s root.variableDescriptor x y) :
    Steps s (.within r root key x agenda) (.within r root key y agenda) := by
  induction hs with
  | refl => exact .refl
  | tail _ hs ih => exact .tail ih (.inside hs)

theorem matchRoot_steps {root : Root} (hm : s.matchRoot r root = .ok r') :
    Steps s (.between r (.root root :: agenda)) (.between r' agenda) := by
  rcases Scene.matchRoot_cases hm with ⟨hr, rfl⟩ | ⟨hr, key, h, hk, hh, rfl⟩
  · exact .single (.skip hr)
  · obtain ⟨front, hs⟩ := Search.exploreRoot_steps hh
    exact .head (.search hr hk) ((within_steps hs).tail .leave)

theorem claimFixed_steps {kind : MatchKind} {α : Type} {owner : α → Descriptor} {slot : α → Int}
    {items : List α}
    (hf : items.foldlM (fun r a => Scene.claimFixed (owner a) kind (slot a) r) r = .ok r') :
    Steps s (.between r (items.map (fun a => .fixed kind (owner a) (slot a)) ++ agenda))
      (.between r' agenda) := by
  induction items generalizing r with
  | nil =>
    cases hf
    exact .refl
  | cons a items ih =>
    rw [List.foldlM_cons, bind_eq_ok] at hf
    obtain ⟨r₁, ha, hf⟩ := hf
    exact .head (.fixed ha) (ih hf)

theorem roots_steps {roots : List Root} (hm : roots.foldlM s.matchRoot r = .ok r') :
    Steps s (.between r (roots.map .root ++ agenda)) (.between r' agenda) := by
  induction roots generalizing r with
  | nil =>
    cases hm
    exact .refl
  | cons root roots ih =>
    rw [List.foldlM_cons, bind_eq_ok] at hm
    obtain ⟨r₁, hr, hm⟩ := hm
    exact (matchRoot_steps hr).trans (ih hm)

theorem staticArrays_steps {owners : List Descriptor}
    (hm : owners.foldlM Scene.matchStaticArray r = .ok r') :
    Steps s (.between r (owners.map .staticArray ++ agenda)) (.between r' agenda) := by
  induction owners generalizing r with
  | nil =>
    cases hm
    exact .refl
  | cons owner owners ih =>
    rw [List.foldlM_cons, bind_eq_ok] at hm
    obtain ⟨r₁, hr, hm⟩ := hm
    exact .head .staticArray ((claimFixed_steps hr).trans (ih hm))

theorem exactPass_steps {slots : List Int}
    (hm : slots.foldlM (fun r slot =>
      (s.layout.variablesAt slot).foldlM (fun r owner => Scene.claimFixed owner .exact slot r) r)
      r = .ok r') :
    Steps s (.between r (slots.flatMap (fun slot =>
      (s.layout.variablesAt slot).map (.fixed .exact · slot)) ++ agenda)) (.between r' agenda) := by
  induction slots generalizing r with
  | nil =>
    cases hm
    exact .refl
  | cons slot slots ih =>
    rw [List.foldlM_cons, bind_eq_ok] at hm
    obtain ⟨r₁, hv, hm⟩ := hm
    rw [List.flatMap_cons, List.append_assoc]
    exact (claimFixed_steps hv).trans (ih hm)

theorem matchExact_steps (hm : s.matchExact s.start = .ok r) :
    Steps s s.engineStart (.between r s.laterTasks) := exactPass_steps hm

theorem laterTasks_steps {r₁ : Run} (hm : s.matchMappings r = .ok r₁)
    (ha : s.matchArrays r₁ = .ok r') :
    Steps s (.between r s.laterTasks) (.between r' []) := by
  rw [Scene.matchArrays, bind_eq_ok] at ha
  obtain ⟨r₂, hs, hd⟩ := ha
  rw [Scene.laterTasks, List.append_assoc]
  refine (roots_steps hm).trans ((staticArrays_steps hs).trans ?_)
  rw [← List.append_nil (List.map _ _)]
  exact roots_steps hd

/-- The passes are a path of the machine from its start to the end of its agenda. -/
theorem passes_steps (hp : s.passes = .ok r) : s.Reaches (.between r []) := by
  simp only [Scene.passes, bind_eq_ok] at hp
  obtain ⟨r₁, ⟨r₂, he, hm⟩, ha⟩ := hp
  exact (matchExact_steps he).trans (laterTasks_steps hm ha)

end Engine

end SlotLens

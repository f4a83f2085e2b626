import SlotLens.Proofs.Layout.Container
import SlotLens.Proofs.Layout.Locate
import Mathlib.Data.List.Nodup

namespace SlotLens.Descriptor

/-- One step of a path, and how many boundaries it crosses. The length of an array and the words of
a byte string belong to the array and to the byte string. -/
inductive Enters : Descriptor → Segment → Nat → Descriptor → Prop
  | field {e} {members : List Descriptor} {m : Descriptor} : m ∈ members →
      Enters (.struct e members) (.field m.label) 0 m
  | item {e length element i} : Enters (.staticArray e length element) (.index i) 0 element
  | element {e element i} : Enters (.dynamicArray e element) (.index i) 1 element
  | key {e keyType value key hex} :
      Enters (.mapping e keyType value) (.key key hex keyType) 1 value
  | length {d : Descriptor} : d.kind = .dynamicArray → Enters d .arrayLength 0 d
  | chunk {e i} : Enters (.bytes e) (.chunk i) 1 (.bytes e)

/-- A path leads from a descriptor to another one and crosses a number of boundaries. -/
inductive Crosses : Descriptor → Path → Nat → Descriptor → Prop
  | nil {d} : Crosses d [] 0 d
  | cons {a b c segment path k n} : Enters a segment k b → Crosses b path n c →
      Crosses a (segment :: path) (k + n) c

mutual
def HasDistinctMembers : Descriptor → Prop
  | .mapping _ _ value => value.HasDistinctMembers
  | .dynamicArray _ element => element.HasDistinctMembers
  | .staticArray _ _ element => element.HasDistinctMembers
  | .struct _ members => (members.map label).Nodup ∧ AllHaveDistinctMembers members
  | _ => True

def AllHaveDistinctMembers : List Descriptor → Prop
  | [] => True
  | d :: rest => d.HasDistinctMembers ∧ AllHaveDistinctMembers rest
end

theorem hasDistinctMembers_of_mem {members : List Descriptor} {m : Descriptor}
    (h : AllHaveDistinctMembers members) (hm : m ∈ members) : m.HasDistinctMembers := by
  induction members with
  | nil => exact absurd hm List.not_mem_nil
  | cons d rest ih =>
    rcases List.mem_cons.1 hm with rfl | hm
    · exact h.1
    · exact ih h.2 hm

variable {a b c d : Descriptor} {path rest : Path} {segment : Segment} {k n : Nat}

theorem Enters.crosses (h : Enters a segment k b) : Crosses a [segment] k b := .cons h .nil

theorem Enters.crosses_cons (h : Enters a segment k b) (h' : Crosses b path 0 c) :
    Crosses a (segment :: path) k c := .cons h h'

theorem Crosses.append (h : Crosses a path n b) (h' : Crosses b rest k c) :
    Crosses a (path ++ rest) (n + k) c := by
  induction h with
  | nil => simpa using h'
  | cons hstep _ ih =>
    rw [Nat.add_assoc]
    exact .cons hstep (ih h')

theorem Enters.hasDistinctMembers (h : Enters a segment k b) (ha : a.HasDistinctMembers) :
    b.HasDistinctMembers := by
  cases h with
  | field hm => exact hasDistinctMembers_of_mem ha.2 hm
  | item | element | key | length | chunk => exact ha

theorem Enters.unique (ha : a.HasDistinctMembers) (h : Enters a segment k b)
    (h' : Enters a segment n c) : k = n ∧ b = c := by
  cases h with
  | field hm =>
    generalize hl : Segment.field _ = other at h'
    cases h' with
    | field hm' => exact ⟨rfl, List.inj_on_of_nodup_map ha.1 hm hm' (Segment.field.inj hl)⟩
    | _ => cases hl
  | item | element | key | length | chunk =>
    cases h'
    exact ⟨rfl, rfl⟩

theorem Crosses.unique (ha : a.HasDistinctMembers) (h : Crosses a path n b)
    (h' : Crosses a path k c) : n = k := by
  induction h generalizing k with
  | nil =>
    cases h'
    rfl
  | cons hstep _ ih =>
    cases h' with
    | cons hstep' h' =>
      obtain ⟨rfl, rfl⟩ := hstep.unique ha hstep'
      rw [ih (hstep.hasDistinctMembers ha) h']

section Located

variable {element : Descriptor} {rel length : Int} {found : List Located} {l : Located}

theorem locateAmong_crosses
    (ih : ∀ {rel found l}, element.locate rel = .ok found → l ∈ found →
      ∃ c, element.Crosses l.path 0 c)
    (h : locateAmong element element.locate rel (some length) = .ok found) (hl : l ∈ found) :
    ∃ i path c, l.path = .index i :: path ∧ element.Crosses path 0 c := by
  obtain ⟨i, -, -, -, -, ⟨-, -, rfl⟩ | ⟨-, rest, inner, l', -, hinner, hl', rfl⟩⟩ :=
    locateAmong_cases h hl
  · exact ⟨i, [], element, rfl, .nil⟩
  · obtain ⟨c, hc⟩ := ih hinner hl'
    exact ⟨i, l'.path, c, rfl, hc⟩

mutual
theorem locate_crosses {rel : Int} {found : List Located} {l : Located} :
    (d : Descriptor) → d.locate rel = .ok found → l ∈ found → ∃ c, d.Crosses l.path 0 c
  | .primitive e, h, hl | .bytes e, h, hl => by
    cases h
    obtain ⟨-, rfl⟩ := by simpa using hl
    exact ⟨_, .nil⟩
  | .mapping .., h, hl => by
    cases h
    exact absurd hl List.not_mem_nil
  | .dynamicArray e element, h, hl => by
    cases h
    obtain ⟨-, rfl⟩ := by simpa using hl
    exact ⟨_, (Enters.length rfl).crosses⟩
  | .staticArray e n element, h, hl => by
    rw [locate] at h
    split at h
    · obtain ⟨i, path, c, hpath, hc⟩ :=
        locateAmong_crosses (fun h hl => locate_crosses element h hl) h hl
      rw [hpath]
      exact ⟨c, .cons .item hc⟩
    · cases h
      exact absurd hl List.not_mem_nil
  | .struct e members, h, hl => by
    rw [locate] at h
    split at h
    · cases h
      exact absurd hl List.not_mem_nil
    · obtain ⟨inner, hinner, rfl⟩ := map_eq_ok.1 h
      obtain ⟨m, hm, path, c, hpath, hc⟩ :=
        locateMembers_crosses members hinner ((perm_sortBy _ _).mem_iff.1 hl)
      rw [hpath]
      exact ⟨c, .cons (.field hm) hc⟩
  | .cut e kind, h, hl => by
    cases h
    cases kind with
    | primitive | bytes =>
      obtain ⟨-, rfl⟩ := by simpa using hl
      exact ⟨_, .nil⟩
    | dynamicArray =>
      obtain ⟨-, rfl⟩ := by simpa using hl
      exact ⟨_, (Enters.length rfl).crosses⟩
    | mapping | staticArray | struct => exact absurd hl List.not_mem_nil

theorem locateMembers_crosses {rel : Int} {found : List Located} {l : Located} :
    (members : List Descriptor) → locateMembers members rel = .ok found → l ∈ found →
      ∃ m ∈ members, ∃ path c, l.path = .field m.label :: path ∧ m.Crosses path 0 c
  | [], h, hl => by
    cases h
    exact absurd hl List.not_mem_nil
  | m :: rest, h, hl => by
    obtain ⟨here, others, hothers, rfl, hhere⟩ := locateMembers_cons h
    rcases List.mem_append.1 hl with hl | hl
    · obtain ⟨l', hl', rfl⟩ := List.mem_map.1 hl
      rcases hhere with rfl | hhere
      · exact absurd hl' List.not_mem_nil
      · obtain ⟨c, hc⟩ := locate_crosses m hhere hl'
        exact ⟨m, List.mem_cons_self, l'.path, c, rfl, hc⟩
    · obtain ⟨m', hm', hpath⟩ := locateMembers_crosses rest hothers hl
      exact ⟨m', List.mem_cons_of_mem _ hm', hpath⟩
end

end Located

mutual
theorem containers_crosses {c : Container} :
    (d : Descriptor) → c ∈ d.containers → d.Crosses c.path 0 c.descriptor
  | .primitive _, hc => by simp [containers] at hc
  | .bytes _, hc | .mapping .., hc | .dynamicArray .., hc => by
    simp only [containers, List.mem_singleton] at hc
    subst hc
    exact .nil
  | .staticArray e n element, hc => by
    rw [containers] at hc
    split at hc
    · simp only [List.mem_flatMap, List.mem_map, List.mem_range] at hc
      obtain ⟨i, -, c', hc', rfl⟩ := hc
      exact .cons .item (containers_crosses element hc')
    · exact absurd hc List.not_mem_nil
  | .struct e members, hc => by
    obtain ⟨m, hm, c', rfl, hw⟩ :=
      memberContainers_crosses members (by simpa [containers] using hc)
    exact .cons (.field hm) hw
  | .cut e kind, hc => by
    cases kind with
    | primitive | staticArray | struct => exact absurd hc List.not_mem_nil
    | mapping | dynamicArray | bytes =>
      cases List.mem_singleton.1 hc
      exact .nil

theorem memberContainers_crosses {c : Container} :
    (members : List Descriptor) → c ∈ memberContainers members →
      ∃ m ∈ members, ∃ c', c = Container.under m.slot (.field m.label) c' ∧
        m.Crosses c'.path 0 c'.descriptor
  | [], hc => by simp [memberContainers] at hc
  | m :: rest, hc => by
    rw [memberContainers, List.mem_append] at hc
    rcases hc with hc | hc
    · split at hc
      · obtain ⟨c', hc', rfl⟩ := List.mem_map.1 hc
        exact ⟨m, List.mem_cons_self, c', rfl, containers_crosses m hc'⟩
      · exact absurd hc List.not_mem_nil
    · obtain ⟨m', hm', hw⟩ := memberContainers_crosses rest hc
      exact ⟨m', List.mem_cons_of_mem _ hm', hw⟩
end

end SlotLens.Descriptor

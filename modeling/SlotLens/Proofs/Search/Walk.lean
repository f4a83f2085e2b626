import SlotLens.Proofs.Layout.Container
import SlotLens.Proofs.Layout.Locate
import SlotLens.Match.Run

/-!
# Walking a path

A path leads from a variable to a field one step at a time: to a member of a struct, to an element
of an array, or to the value of a mapping. What is located inside a descriptor, and every container
inside it, is at the end of its path.
-/

namespace SlotLens

/-- A descriptor and where it stands: its slot, which may leave the slot space, and the offset of
its first byte. -/
structure Spot where
  descriptor : Descriptor
  slot : Int
  offset : Int

def Descriptor.spot (d : Descriptor) : Spot := ⟨d, d.slot, d.entry.offset⟩

def Descriptor.spotAt (d : Descriptor) (slot offset : Int) : Spot :=
  ⟨d, slot, if d.isPacked then offset else d.entry.offset⟩

namespace Descriptor

variable {d : Descriptor} {slot offset : Int}

theorem spotAt_packed (h : d.isPacked) : d.spotAt slot offset = ⟨d, slot, offset⟩ := by
  rw [spotAt, if_pos h]

theorem spotAt_unpacked (h : d.isPacked = false) :
    d.spotAt slot offset = ⟨d, slot, d.entry.offset⟩ := by
  simp [spotAt, h]

end Descriptor

namespace Scene

variable {s : Scene}

/-- One step of a path. Derived slots are hashes of the slot that the container has in the slot
space. -/
inductive Hop (s : Scene) : Spot → Segment → Spot → Prop
  | field {e place offset} {members : List Descriptor} {m : Descriptor} : m ∈ members →
      Hop s ⟨.struct e members, place, offset⟩ (.field m.label) ⟨m, place + m.slot, m.entry.offset⟩
  | item {e element place offset rel shift} {n i : Nat} : i < n →
      (Descriptor.staticArray e n element).elementPosition i = .ok (rel, shift) →
      Hop s ⟨.staticArray e n element, place, offset⟩ (.index i)
        (element.spotAt (place + rel) shift)
  | element {e element place offset length data rel shift} {i : Nat} :
      s.lengthAt (Slot.wrap place) = some length → i < length →
      Slot.ofData (Slot.wrap place) = .ok data →
      (Descriptor.dynamicArray e element).elementPosition i = .ok (rel, shift) →
      Hop s ⟨.dynamicArray e element, place, offset⟩ (.index i) (element.spotAt (data + rel) shift)
  | key {e keyType value place offset key derived} {c : Candidate} : c ∈ s.candidates →
      Field.decodeKey keyType c.raw = .ok key →
      Slot.ofKey c.raw (Slot.wrap place) = .ok derived →
      Hop s ⟨.mapping e keyType value, place, offset⟩ (.key key c.hex keyType)
        ⟨value, derived, value.entry.offset⟩

inductive Walk (s : Scene) : Spot → Path → Spot → Prop
  | nil {a} : Walk s a [] a
  | cons {a b c segment path} : s.Hop a segment b → Walk s b path c → Walk s a (segment :: path) c

/-- A path leads to a slot and to the offset of a field there. -/
inductive Leads (s : Scene) : Spot → Path → Int → Leaf → Int → Prop
  | value {e place offset} : Leads s ⟨.primitive e, place, offset⟩ [] place (.value e) offset
  | cutValue {e place offset} :
      Leads s ⟨.cut e .primitive, place, offset⟩ [] place (.value e) offset
  | bytes {e place offset} : Leads s ⟨.bytes e, place, offset⟩ [] place (.bytes e) offset
  | cutBytes {e place offset} : Leads s ⟨.cut e .bytes, place, offset⟩ [] place (.bytes e) offset
  | length {e element place offset} :
      Leads s ⟨.dynamicArray e element, place, offset⟩ [.arrayLength] place .arrayLength 0
  | cutLength {e place offset} :
      Leads s ⟨.cut e .dynamicArray, place, offset⟩ [.arrayLength] place .arrayLength 0
  | chunk {e place offset length data} {i : Nat} :
      (s.observed.get? (Slot.wrap place)).bind (longLength? e.typeLabel) = some length →
      i < (length + 31) / 32 → Slot.ofData (Slot.wrap place) = .ok data →
      Leads s ⟨.bytes e, place, offset⟩ [.chunk i] (data + i) (.bytes e) 0
  | hop {a b segment path slot leaf offset} : s.Hop a segment b → Leads s b path slot leaf offset →
      Leads s a (segment :: path) slot leaf offset

variable {a b c : Spot} {path rest : Path}

theorem Walk.append (h : s.Walk a path b) (h' : s.Walk b rest c) : s.Walk a (path ++ rest) c := by
  induction h with
  | nil => exact h'
  | cons hop _ ih => exact .cons hop (ih h')

theorem Walk.snoc {segment : Segment} (h : s.Walk a path b) (hop : s.Hop b segment c) :
    s.Walk a (path ++ [segment]) c := h.append (.cons hop .nil)

theorem Walk.leads {slot offset : Int} {leaf : Leaf} (h : s.Walk a path b)
    (hl : s.Leads b rest slot leaf offset) : s.Leads a (path ++ rest) slot leaf offset := by
  induction h with
  | nil => exact hl
  | cons hop _ ih => exact .hop hop (ih hl)

section Located

variable {element : Descriptor} {rel : Int} {found : List Located} {l : Located}

theorem leads_of_isPacked {place offset : Int} (h : element.isPacked) :
    s.Leads ⟨element, place, offset⟩ [] place (.value element.entry) offset := by
  cases element with
  | primitive e => exact .value
  | cut e kind => cases kind <;> first | exact .cutValue | simp [Descriptor.isPacked] at h
  | _ => simp [Descriptor.isPacked] at h

theorem locateAmong_leads (base : Int) {length : Int}
    (ih : ∀ place {rel found l}, element.locate rel = .ok found → l ∈ found →
      s.Leads ⟨element, place, element.entry.offset⟩ l.path (place + rel) l.leaf l.offset)
    (h : Descriptor.locateAmong element element.locate rel (some length) = .ok found)
    (hl : l ∈ found) :
    ∃ (i : Nat) (place shift : Int) (path : Path), l.path = .index i :: path ∧ i < length ∧
      element.position i = .ok (place, shift) ∧
      s.Leads (element.spotAt (base + place) shift) path (base + rel) l.leaf l.offset := by
  obtain ⟨i, place, shift, hi, hpos, hpacked | hwhole⟩ := Descriptor.locateAmong_cases h hl
  · obtain ⟨hp, rfl, rfl⟩ := hpacked
    refine ⟨i, place, shift, [], rfl, hi, hpos, ?_⟩
    rw [Descriptor.spotAt_packed hp]
    exact leads_of_isPacked hp
  · obtain ⟨hp, rest, inner, l', rfl, hinner, hl', rfl⟩ := hwhole
    refine ⟨i, place, shift, l'.path, rfl, hi, hpos, ?_⟩
    rw [Descriptor.spotAt_unpacked hp, ← Int.add_assoc]
    exact ih _ hinner hl'

mutual
theorem locate_leads (place : Int) {rel : Int} {found : List Located} {l : Located} :
    (d : Descriptor) → d.locate rel = .ok found → l ∈ found →
      s.Leads ⟨d, place, d.entry.offset⟩ l.path (place + rel) l.leaf l.offset
  | .primitive e, h, hl => by
    cases h
    obtain ⟨rfl, rfl⟩ := by simpa using hl
    rw [Int.add_zero]
    exact .value
  | .bytes e, h, hl => by
    cases h
    obtain ⟨rfl, rfl⟩ := by simpa using hl
    rw [Int.add_zero]
    exact .bytes
  | .mapping .., h, hl => by
    cases h
    exact absurd hl List.not_mem_nil
  | .dynamicArray .., h, hl => by
    cases h
    obtain ⟨rfl, rfl⟩ := by simpa using hl
    rw [Int.add_zero]
    exact .length
  | .staticArray e n element, h, hl => by
    rw [Descriptor.locate] at h
    split at h
    · obtain ⟨i, at_, shift, path, hpath, hi, hpos, hleads⟩ :=
        locateAmong_leads place (fun place _ _ _ h hl => locate_leads place element h hl) h hl
      rw [hpath]
      exact .hop (.item (by exact_mod_cast hi) hpos) hleads
    · cases h
      exact absurd hl List.not_mem_nil
  | .struct e members, h, hl => by
    rw [Descriptor.locate] at h
    split at h
    · cases h
      exact absurd hl List.not_mem_nil
    · obtain ⟨inner, hinner, rfl⟩ := map_eq_ok.1 h
      obtain ⟨m, hm, path, hpath, hleads⟩ :=
        locateMembers_leads place members hinner ((perm_sortBy _ _).mem_iff.1 hl)
      rw [hpath]
      exact .hop (.field hm) hleads
  | .cut e kind, h, hl => by
    cases h
    cases kind with
    | primitive =>
      obtain ⟨rfl, rfl⟩ := by simpa using hl
      rw [Int.add_zero]
      exact .cutValue
    | bytes =>
      obtain ⟨rfl, rfl⟩ := by simpa using hl
      rw [Int.add_zero]
      exact .cutBytes
    | dynamicArray =>
      obtain ⟨rfl, rfl⟩ := by simpa using hl
      rw [Int.add_zero]
      exact .cutLength
    | mapping | staticArray | struct => exact absurd hl List.not_mem_nil

theorem locateMembers_leads (place : Int) {rel : Int} {found : List Located} {l : Located} :
    (members : List Descriptor) → Descriptor.locateMembers members rel = .ok found → l ∈ found →
      ∃ m ∈ members, ∃ path, l.path = .field m.label :: path ∧
        s.Leads ⟨m, place + m.slot, m.entry.offset⟩ path (place + rel) l.leaf l.offset
  | [], h, hl => by
    cases h
    exact absurd hl List.not_mem_nil
  | m :: rest, h, hl => by
    obtain ⟨here, others, hothers, rfl, hhere⟩ := Descriptor.locateMembers_cons h
    rcases List.mem_append.1 hl with hl | hl
    · obtain ⟨l', hl', rfl⟩ := List.mem_map.1 hl
      rcases hhere with rfl | hhere
      · exact absurd hl' List.not_mem_nil
      · have hleads := locate_leads (place + m.slot) m hhere hl'
        have hsum : place + m.slot + (rel - m.slot) = place + rel := by omega
        rw [hsum] at hleads
        exact ⟨m, List.mem_cons_self, l'.path, rfl, hleads⟩
    · obtain ⟨m', hm', hpath⟩ := locateMembers_leads place rest hothers hl
      exact ⟨m', List.mem_cons_of_mem _ hm', hpath⟩
end

end Located

mutual
theorem containers_walk (place offset : Int) {c : Container} :
    (d : Descriptor) → c ∈ d.containers →
      ∃ offset', s.Walk ⟨d, place, offset⟩ c.path ⟨c.descriptor, place + c.slot, offset'⟩
  | .primitive _, hc => by simp [Descriptor.containers] at hc
  | .bytes e, hc | .mapping e _ _, hc | .dynamicArray e _, hc => by
    simp only [Descriptor.containers, List.mem_singleton] at hc
    subst hc
    rw [Int.add_zero]
    exact ⟨offset, .nil⟩
  | .staticArray e n element, hc => by
    rw [Descriptor.containers] at hc
    split at hc
    · next hh =>
      simp only [List.mem_flatMap, List.mem_map, List.mem_range] at hc
      obtain ⟨i, hi, c', hc', rfl⟩ := hc
      obtain ⟨offset', hw⟩ := containers_walk (place + i * element.slotCount)
        element.entry.offset element hc'
      refine ⟨offset', .cons (.item hi (Descriptor.position_eq hh i)) ?_⟩
      rw [Descriptor.spotAt_unpacked (Descriptor.isPacked_eq_false hh)]
      simpa only [Container.under, Int.add_assoc] using hw
    · exact absurd hc List.not_mem_nil
  | .struct e members, hc => by
    obtain ⟨m, hm, c', rfl, offset', hw⟩ :=
      memberContainers_walk place members (by simpa [Descriptor.containers] using hc)
    exact ⟨offset', .cons (.field hm) hw⟩
  | .cut e kind, hc => by
    cases kind with
    | primitive | staticArray | struct => exact absurd hc List.not_mem_nil
    | mapping | dynamicArray | bytes =>
      cases List.mem_singleton.1 hc
      rw [Int.add_zero]
      exact ⟨offset, .nil⟩

theorem memberContainers_walk (place : Int) {c : Container} :
    (members : List Descriptor) → c ∈ Descriptor.memberContainers members →
      ∃ m ∈ members, ∃ c', c = Container.under m.slot (.field m.label) c' ∧ ∃ offset',
        s.Walk ⟨m, place + m.slot, m.entry.offset⟩ c'.path ⟨c.descriptor, place + c.slot, offset'⟩
  | [], hc => by simp [Descriptor.memberContainers] at hc
  | m :: rest, hc => by
    rw [Descriptor.memberContainers, List.mem_append] at hc
    rcases hc with hc | hc
    · split at hc
      · obtain ⟨c', hc', rfl⟩ := List.mem_map.1 hc
        obtain ⟨offset', hw⟩ := containers_walk (place + m.slot) m.entry.offset
          m hc'
        refine ⟨m, List.mem_cons_self, c', rfl, offset', ?_⟩
        simpa only [Container.under, Int.add_assoc] using hw
      · exact absurd hc List.not_mem_nil
    · obtain ⟨m', hm', hw⟩ := memberContainers_walk place rest hc
      exact ⟨m', List.mem_cons_of_mem _ hm', hw⟩
end

end Scene

end SlotLens

import SlotLens.Proofs.Layout.Container
import SlotLens.Proofs.Layout.Leaves

/-!
# Nothing is lost by pruning

The containers inside a descriptor are listed without going into parts that are said to have none.
A walk that goes into every member and every element finds the same containers, in the same order.
-/

namespace SlotLens

def Kind.isContainer (kind : Kind) : Bool :=
  kind == .mapping || kind == .dynamicArray || kind == .bytes

namespace Descriptor

/-- What is inside the elements of an array, seen from the array, where `inner` is inside each of
them. An element is asked for its position for each container inside it; elements of size zero have
no positions and no containers. -/
def underElements (array : Descriptor) (length : Nat) (inner : List Container) :
    Except Fault (List Container) := do
  let found ← (List.range length).mapM fun (i : Nat) => inner.mapM fun c =>
    (array.elementPosition i).map fun (place, _) => c.under place (.index i)
  return found.flatten

mutual
/-- The containers that a walk through all members and all elements finds. -/
def walk : Descriptor → Except Fault (List Container)
  | .staticArray e length element => do
    underElements (.staticArray e length element) length (← element.walk)
  | .struct _ members => walkMembers members
  | d => .ok (if d.kind.isContainer then [⟨d, 0, []⟩] else [])

def walkMembers : List Descriptor → Except Fault (List Container)
  | [] => .ok []
  | m :: rest => do
    let here ← m.walk
    let others ← walkMembers rest
    return here.map (·.under m.slot (.field m.label)) ++ others
end

mutual
def HasItems : Descriptor → Prop
  | .staticArray _ length element => (element.hasContainers → 1 ≤ length) ∧ element.HasItems
  | .struct _ members => AllHaveItems members
  | _ => True

def AllHaveItems : List Descriptor → Prop
  | [] => True
  | d :: rest => d.HasItems ∧ AllHaveItems rest
end

mutual
/-- Structs and static arrays are as large as what they contain. Nothing is asked of values of
mappings and elements of dynamic arrays, which are stored elsewhere. -/
def CoversParts : Descriptor → Prop
  | .staticArray e length element => element.CoversParts ∧
      ∃ span, (staticArray e length element).dataSlotCount length = .ok span ∧
        span ≤ (staticArray e length element).slotCount
  | .struct e members => AllCoverParts members ∧
      ∀ m ∈ members, 0 ≤ m.slot ∧ m.slot + m.slotCount ≤ (struct e members).slotCount
  | _ => True

def AllCoverParts : List Descriptor → Prop
  | [] => True
  | d :: rest => d.CoversParts ∧ AllCoverParts rest
end

variable {e : Entry} {length : Nat} {element : Descriptor}

theorem underElements_nil (array : Descriptor) : array.underElements length [] = .ok [] := by
  have hempty : (List.range length).mapM (fun i => ([] : List Container).mapM fun c =>
      (array.elementPosition (i : Nat)).map fun (place, _) => c.under place (.index i)) =
      .ok ((List.range length).map fun _ => []) := by
    rw [mapM_eq_ok, List.forall₂_map_right_iff]
    exact List.forall₂_same.2 fun i _ => rfl
  rw [underElements, hempty]
  simp [bind, Except.bind, pure, Except.pure]

theorem underElements_eq (h : element.hasContainers) (inner : List Container) :
    (staticArray e length element).underElements length inner =
      .ok ((List.range length).flatMap fun (i : Nat) =>
        inner.map (·.under (i * element.slotCount) (.index i))) := by
  have hplaced : (List.range length).mapM (fun i => inner.mapM fun c =>
      ((staticArray e length element).elementPosition (i : Nat)).map fun (place, _) =>
        c.under place (.index i)) =
      .ok ((List.range length).map fun (i : Nat) =>
        inner.map (·.under (i * element.slotCount) (.index i))) := by
    rw [mapM_eq_ok, List.forall₂_map_right_iff]
    refine List.forall₂_same.2 fun i _ => ?_
    rw [mapM_eq_ok, List.forall₂_map_right_iff]
    refine List.forall₂_same.2 fun c _ => ?_
    rw [elementPosition, element?]
    simp only [position_eq h]
    rfl
  rw [underElements, hplaced, List.flatMap_def]
  rfl

mutual
theorem walk_eq : (d : Descriptor) → d.walk = .ok d.containers
  | .primitive _ | .bytes _ | .mapping .. | .dynamicArray .. => rfl
  | .staticArray e length element => by
    rw [walk, walk_eq element, containers]
    split
    · next h => exact underElements_eq h _
    · next h =>
      rw [Bool.not_eq_true] at h
      rw [containers_eq_nil h]
      exact underElements_nil _
  | .struct e members => by
    rw [walk, containers]
    exact walkMembers_eq members
  | .cut e kind => by cases kind <;> rfl

theorem walkMembers_eq : (members : List Descriptor) →
    walkMembers members = .ok (memberContainers members)
  | [] => rfl
  | m :: rest => by
    rw [walkMembers, walk_eq m, walkMembers_eq rest, memberContainers]
    split
    · rfl
    · next h =>
      rw [Bool.not_eq_true] at h
      rw [containers_eq_nil h]
      rfl
end

mutual
theorem containers_ne_nil : (d : Descriptor) → d.hasContainers → d.HasItems → d.containers ≠ []
  | .primitive _, h, _ => by simp [hasContainers] at h
  | .bytes _, _, _ | .mapping .., _, _ | .dynamicArray .., _, _ => by simp [containers]
  | .staticArray e length element, h, hi => by
    rw [hasContainers] at h
    have hlength : 0 < length := hi.1 h
    obtain ⟨c, hc⟩ := List.exists_mem_of_ne_nil _ (containers_ne_nil element h hi.2)
    have hfirst : c.under ((0 : Nat) * element.slotCount) (.index 0) ∈
        (staticArray e length element).containers := by
      rw [containers, if_pos h]
      exact List.mem_flatMap.2 ⟨0, List.mem_range.2 hlength, List.mem_map_of_mem hc⟩
    exact List.ne_nil_of_mem hfirst
  | .struct e members, h, hi => by
    rw [containers]
    exact memberContainers_ne_nil members (by simpa [hasContainers] using h) hi
  | .cut e kind, h, _ => by cases kind <;> simp_all [hasContainers, containers]

theorem memberContainers_ne_nil : (members : List Descriptor) → anyHasContainers members →
    AllHaveItems members → memberContainers members ≠ []
  | [], h, _ => by simp [anyHasContainers] at h
  | m :: rest, h, hi => by
    rw [memberContainers]
    rw [anyHasContainers, Bool.or_eq_true] at h
    rcases h with h | h
    · rw [if_pos h]
      simp [containers_ne_nil m h hi.1]
    · simp [memberContainers_ne_nil rest h hi.2]
end

section WellFormed

variable {d : Descriptor} {members : List Descriptor}

theorem wellFormed_of_mem (h : AllWellFormed members) (hd : d ∈ members) : d.WellFormed := by
  induction members with
  | nil => exact absurd hd List.not_mem_nil
  | cons m rest ih =>
    rcases List.mem_cons.1 hd with rfl | hd
    · exact h.1
    · exact ih h.2 hd

theorem WellFormed.takes_slots (hw : d.WellFormed) :
    d.lead < 32 ∧ 32 * d.slotCount < d.lead + d.entry.size + 32 := by
  have hspans := hw.spans
  have := hspans.lead_nonneg
  have := hspans.size_pos
  have := hspans.stop_le
  by_cases hk : d.kind = .primitive
  · have hcount : d.slotCount = 1 := by simp [slotCount, hk]
    omega
  · have hlead : d.lead = 0 := if_neg hk
    rw [slotCount]
    split <;> omega

mutual
theorem WellFormed.coversParts : (d : Descriptor) → d.WellFormed → d.CoversParts
  | .primitive _, _ | .bytes _, _ | .mapping .., _ | .dynamicArray .., _ | .cut .., _ => trivial
  | .staticArray e length element, ⟨helement, _, span, hspan, hsize⟩ => by
    have hcount : (staticArray e length element).slotCount = max 1 ((e.size + 31) / 32) := rfl
    exact ⟨WellFormed.coversParts element helement, span, hspan, by omega⟩
  | .struct e members, ⟨hmembers, htakes, hin, _⟩ => by
    refine ⟨AllWellFormed.coverParts members hmembers, fun m hm => ?_⟩
    obtain ⟨hstart, hstop⟩ := hin m hm
    obtain ⟨hlead, hlast⟩ := (wellFormed_of_mem hmembers hm).takes_slots
    have hspans := (wellFormed_of_mem hmembers hm).spans.lead_nonneg
    obtain ⟨n, hn⟩ := htakes.dvd_size
    rw [start] at hstart
    rw [stop, start] at hstop
    have hcount : (struct e members).slotCount = max 1 ((e.size + 31) / 32) := rfl
    omega

theorem AllWellFormed.coverParts : (members : List Descriptor) → AllWellFormed members →
    AllCoverParts members
  | [], _ => trivial
  | m :: rest, ⟨hm, hrest⟩ => ⟨WellFormed.coversParts m hm, AllWellFormed.coverParts rest hrest⟩
end

end WellFormed

mutual
theorem slot_of_mem_containers {c : Container} : (d : Descriptor) → d.CoversParts →
    c ∈ d.containers → 0 ≤ c.slot ∧ c.slot < d.slotCount
  | .primitive _, _, hc => by simp [containers] at hc
  | .bytes _, _, hc | .mapping .., _, hc | .dynamicArray .., _, hc => by
    simp only [containers, List.mem_singleton] at hc
    subst hc
    exact ⟨Int.le_refl 0, slotCount_pos _⟩
  | .staticArray e length element, ⟨hparts, span, hspan, hle⟩, hc => by
    rw [containers] at hc
    split at hc
    · next h =>
      simp only [List.mem_flatMap, List.mem_map, List.mem_range] at hc
      obtain ⟨i, hi, c', hc', rfl⟩ := hc
      obtain ⟨hnn, hlt⟩ := slot_of_mem_containers element hparts hc'
      have hcount := element.slotCount_pos
      have hstart : 0 ≤ (i : Int) * element.slotCount := Int.mul_nonneg (by omega) (by omega)
      have hend := mul_add_lt_span (isPacked_eq_false h) hspan (Int.ofNat_lt.2 hi) hlt
      simp only [Container.under]
      omega
    · exact absurd hc List.not_mem_nil
  | .struct e members, ⟨hparts, hin⟩, hc => by
    obtain ⟨m, hm, c', hnn, hlt, rfl⟩ :=
      slot_of_mem_memberContainers members hparts (by simpa [containers] using hc)
    obtain ⟨hstart, hstop⟩ := hin m hm
    simp only [Container.under]
    omega
  | .cut e kind, _, hc => by
    cases kind with
    | primitive | staticArray | struct => exact absurd hc List.not_mem_nil
    | mapping | dynamicArray | bytes =>
      cases List.mem_singleton.1 hc
      exact ⟨Int.le_refl 0, slotCount_pos _⟩

theorem slot_of_mem_memberContainers {c : Container} : (members : List Descriptor) →
    AllCoverParts members → c ∈ memberContainers members →
      ∃ m ∈ members, ∃ c' : Container, 0 ≤ c'.slot ∧ c'.slot < m.slotCount ∧
        c = c'.under m.slot (.field m.label)
  | [], _, hc => by simp [memberContainers] at hc
  | m :: rest, ⟨hparts, hrest⟩, hc => by
    rw [memberContainers, List.mem_append] at hc
    rcases hc with hc | hc
    · split at hc
      · obtain ⟨c', hc', rfl⟩ := List.mem_map.1 hc
        obtain ⟨hnn, hlt⟩ := slot_of_mem_containers m hparts hc'
        exact ⟨m, List.mem_cons_self, c', hnn, hlt, rfl⟩
      · exact absurd hc List.not_mem_nil
    · obtain ⟨m', hm', hc⟩ := slot_of_mem_memberContainers rest hrest hc
      exact ⟨m', List.mem_cons_of_mem _ hm', hc⟩
end

/-- The list of the containers inside a descriptor is what a walk through all members and elements
finds. It is empty where the descriptor is said to have none, and only there if no static array on
the way is empty. Where structs and static arrays are large enough for what they contain, the
containers lie in the slots of the descriptor. -/
theorem containers_complete (d : Descriptor) :
    d.walk = .ok d.containers ∧
      (d.hasContainers = false → d.containers = []) ∧
      (d.hasContainers → d.HasItems → d.containers ≠ []) ∧
      (d.CoversParts → ∀ c ∈ d.containers, 0 ≤ c.slot ∧ c.slot < d.slotCount) :=
  ⟨walk_eq d, containers_eq_nil, containers_ne_nil d, fun h _ => slot_of_mem_containers d h⟩

def shelf : Descriptor :=
  .struct ⟨.text "shelf", "t_shelf", .text "struct Shelf", 5, 0, 128⟩
    [.primitive ⟨.text "id", "t_uint256", .text "uint256", 0, 0, 32⟩,
      .staticArray ⟨.text "notes", "t_notes", .text "string[2]", 1, 0, 64⟩ 2
        (.bytes ⟨.text "", "t_string", .text "string", 0, 0, 32⟩),
      .mapping ⟨.text "counts", "t_counts", .text "mapping(uint256 => uint256)", 3, 0, 32⟩
        (.text "uint256") (.primitive ⟨.text "", "t_uint256", .text "uint256", 0, 0, 32⟩)]

theorem wellFormed_shelf : shelf.WellFormed := by
  refine ⟨⟨⟨by decide, by decide, by decide⟩, ⟨⟨rfl, rfl⟩, by decide, 2, rfl, rfl⟩, ⟨rfl, rfl⟩,
    trivial⟩, ⟨by decide, by decide⟩, ?_, ?_⟩
  · simp only [List.mem_cons, List.not_mem_nil, or_false]
    rintro m (rfl | rfl | rfl) <;> decide
  · simp only [List.pairwise_cons, List.mem_cons, List.not_mem_nil, or_false]
    refine ⟨?_, ?_, ?_, .nil⟩
    · rintro m (rfl | rfl) <;> exact .inl (by decide)
    · rintro m rfl
      exact .inl (by decide)
    · rintro m ⟨⟩

theorem containers_complete_shelf : shelf.HasItems ∧ shelf.CoversParts ∧
    shelf.walk = .ok shelf.containers ∧ shelf.containers.map (·.slot) = [1, 2, 3] ∧
    shelf.containers ≠ [] ∧ ∀ c ∈ shelf.containers, 0 ≤ c.slot ∧ c.slot < 4 := by
  have hitems : shelf.HasItems := ⟨trivial, ⟨fun _ => by decide, trivial⟩, trivial, trivial⟩
  have hcovers := wellFormed_shelf.coversParts
  obtain ⟨hwalk, -, hsome, hslots⟩ := containers_complete shelf
  exact ⟨hitems, hcovers, hwalk, by decide, hsome (by decide) hitems, hslots hcovers⟩

end Descriptor

end SlotLens

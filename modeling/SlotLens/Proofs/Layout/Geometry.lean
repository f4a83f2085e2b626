import SlotLens.Proofs.Layout.Emitted
import SlotLens.Proofs.Layout.Stored
import Mathlib.Order.Bounds.Defs

namespace SlotLens.Descriptor

variable {array element : Descriptor} {length r span : Int} {located : List Located}
  {locate : Int → Except Fault (List Located)}

/-- What is located where elements share a slot: all elements of the array that have their position
there and no others, each once and in bytes of its own. -/
structure SharesSlot (element : Descriptor) (length r : Int) (located : List Located) : Prop where
  mem_iff : ∀ l, l ∈ located ↔ ∃ (i : Nat) (shift : Int), i < length ∧
    element.position i = .ok (r, shift) ∧ l = ⟨.value element.entry, shift, [.index i]⟩
  once : located.Pairwise fun l l' => l.path ≠ l'.path
  inside : ∀ l ∈ located, 0 ≤ l.offset ∧ l.offset + l.size ≤ 32
  apart : located.Pairwise fun l l' => l.offset + l.size ≤ l'.offset

theorem sharesSlot_nil (h : ∀ (i : Nat) (shift : Int), i < length →
    element.position i ≠ .ok (r, shift)) : element.SharesSlot length r [] where
  mem_iff l := by
    constructor
    · intro hl
      exact absurd hl List.not_mem_nil
    · rintro ⟨i, shift, hi, hpos, -⟩
      exact absurd hpos (h i shift hi)
  once := .nil
  inside l hl := absurd hl List.not_mem_nil
  apart := .nil

section Packed

variable (hp : element.isPacked) (hs : 1 ≤ element.entry.size)
include hp hs

theorem mem_packedAt_iff {l : Located} (hr : 0 ≤ r) :
    l ∈ packedAt element.entry (r * (32 / element.entry.size)) (some length)
        (32 / element.entry.size) ↔
      ∃ (i : Nat) (shift : Int), i < length ∧ element.position i = .ok (r, shift) ∧
        l = ⟨.value element.entry, shift, [.index i]⟩ := by
  have hper := perSlot_pos hs (kind_of_isPacked hp).2
  have hnn : 0 ≤ r * (32 / element.entry.size) := Int.mul_nonneg hr (by omega)
  constructor
  · intro hl
    obtain ⟨i, hi, hlength, rfl⟩ := mem_packedAt hl
    have hnumber : ((r * (32 / element.entry.size) + i).toNat : Int) =
        r * (32 / element.entry.size) + i := Int.toNat_of_nonneg (by omega)
    refine ⟨_, _, by rwa [hnumber], ?_, rfl⟩
    rw [hnumber]
    exact position_packed hp (perSlot_eq hs) hi
  · rintro ⟨j, shift, hj, hpos, rfl⟩
    rw [position_of_packed hp hs, Except.ok.injEq, Prod.mk.injEq] at hpos
    obtain ⟨rfl, rfl⟩ := hpos
    have hdiv := Int.mul_ediv_add_emod (j : Int) (32 / element.entry.size)
    have hmod := Int.emod_nonneg (j : Int) (show 32 / element.entry.size ≠ 0 by omega)
    have hmod' := Int.emod_lt_of_pos (j : Int) (show 0 < 32 / element.entry.size by omega)
    rw [Int.mul_comm] at hdiv
    have hrest : (((j : Int) % (32 / element.entry.size)).toNat : Int) =
        j % (32 / element.entry.size) := Int.toNat_of_nonneg hmod
    rw [packedAt_eq_filter]
    refine List.mem_map.2 ⟨((j : Int) % (32 / element.entry.size)).toNat,
      List.mem_filter.2 ⟨List.mem_range.2 (by omega), ?_⟩, ?_⟩
    · rw [hrest, hdiv]
      exact decide_eq_true hj
    · rw [hrest, hdiv]
      rfl

theorem packedAt_shares (hr : 0 ≤ r) : element.SharesSlot length r
    (packedAt element.entry (r * (32 / element.entry.size)) (some length)
      (32 / element.entry.size)) := by
  have hper := perSlot_pos hs (kind_of_isPacked hp).2
  have hnn : 0 ≤ r * (32 / element.entry.size) := Int.mul_nonneg hr (by omega)
  refine ⟨fun l => mem_packedAt_iff hp hs hr, ?_, fun l hl => ?_, ?_⟩
  · rw [packedAt_eq_filter, List.pairwise_map]
    refine (List.pairwise_lt_range.filter _).imp fun {i j} hij heq => ?_
    simp only [List.cons.injEq, Segment.index.injEq, and_true] at heq
    omega
  · obtain ⟨i, shift, -, hpos, rfl⟩ := (mem_packedAt_iff hp hs hr).1 hl
    rw [position_of_packed hp hs, Except.ok.injEq, Prod.mk.injEq] at hpos
    obtain ⟨-, rfl⟩ := hpos
    have hfits := packed_offset_fits hs (kind_of_isPacked hp).2 i
    simp only [Located.size, Leaf.size]
    omega
  · rw [packedAt_eq_filter, List.pairwise_map]
    refine (List.pairwise_lt_range.filter _).imp fun {i j} hij => ?_
    have hmul : ((i : Int) + 1) * element.entry.size ≤ j * element.entry.size :=
      Int.mul_le_mul_of_nonneg_right (by omega) (by omega)
    rw [Int.add_mul] at hmul
    simp only [Located.size, Leaf.size]
    omega

theorem locateAmong_packed (locate : Int → Except Fault (List Located)) (length r : Int) :
    ∃ located, locateAmong element locate r (some length) = .ok located ∧
      element.SharesSlot length r located := by
  have hper := perSlot_pos hs (kind_of_isPacked hp).2
  obtain ⟨span, hspan, -, hroom, -⟩ := exists_spanOf_packed hp hs length
  by_cases hr : r < 0 ∨ span ≤ r
  · refine ⟨[], locateAmong_outside hspan hr, sharesSlot_nil fun i shift hi hpos => ?_⟩
    rw [position_of_packed hp hs, Except.ok.injEq, Prod.mk.injEq] at hpos
    have hnn : 0 ≤ (i : Int) / (32 / element.entry.size) := Int.ediv_nonneg (by omega) (by omega)
    have hbefore : (i : Int) / (32 / element.entry.size) < span :=
      Int.ediv_lt_of_lt_mul (by omega) (by omega)
    omega
  · exact ⟨_, locateAmong_packedAt hp hs hspan (by omega) (by omega),
      packedAt_shares hp hs (by omega)⟩

end Packed

section Whole

variable (hp : element.isPacked = false)
include hp

theorem locateAmong_element {i : Nat} {j : Int} (hi : i < length) (hj : 0 ≤ j)
    (hlt : j < element.slotCount) :
    locateAmong element locate (i * element.slotCount + j) (some length) =
      (locate j).map (List.map (·.under (.index i))) := by
  have hcount := element.slotCount_pos
  have hspan : element.spanOf length = .ok _ := spanOf_whole hp
  have hnn : 0 ≤ (i : Int) * element.slotCount := Int.mul_nonneg (by omega) (by omega)
  have hrest : ((i : Int) * element.slotCount + j) % element.slotCount = j := by
    rw [Int.add_comm, Int.add_mul_emod_self_right, Int.emod_eq_of_lt hj hlt]
  have hindex : ((i : Int) * element.slotCount + j) / element.slotCount = i := by
    rw [Int.add_comm, Int.add_mul_ediv_right _ _ (by omega), Int.ediv_eq_zero_of_lt hj hlt,
      Int.zero_add]
  rw [locateAmong_whole hp hspan (Int.add_nonneg hnn hj) (mul_add_lt_span hp hspan hi hlt), hrest,
    hindex, Int.toNat_natCast]

end Whole

theorem exists_locateAmong_last {found : List Located}
    (hs : element.isPacked → 1 ≤ element.entry.size)
    (hspan : element.spanOf length = .ok span) (hpos : 0 < span)
    (hloc : locate (element.slotCount - 1) = .ok found) (hn : found ≠ []) :
    ∃ located, locateAmong element locate (span - 1) (some length) = .ok located ∧
      located ≠ [] := by
  have hcount := element.slotCount_pos
  cases hp : element.isPacked with
  | true =>
    have hper := perSlot_pos (hs hp) (kind_of_isPacked hp).2
    obtain ⟨span', hspan', -, -, hneeded⟩ := exists_spanOf_packed hp (hs hp) length
    cases hspan.symm.trans hspan'
    obtain ⟨located, hlocated, hshares⟩ :=
      locateAmong_packed hp (hs hp) locate length (span - 1)
    have hfirst : (((span - 1) * (32 / element.entry.size)).toNat : Int) =
        (span - 1) * (32 / element.entry.size) :=
      Int.toNat_of_nonneg (Int.mul_nonneg (by omega) (by omega))
    refine ⟨located, hlocated, List.ne_nil_of_mem ((hshares.mem_iff _).2
      ⟨((span - 1) * (32 / element.entry.size)).toNat, 0, ?_, ?_, rfl⟩)⟩
    · rw [hfirst]
      exact hneeded hpos
    · rw [position_of_packed hp (hs hp), hfirst, Int.mul_ediv_cancel _ (by omega),
        Int.mul_emod_left, Int.zero_mul]
  | false =>
    have hlength : 0 < length := by
      by_contra hlength
      rw [spanOf, if_pos (by omega)] at hspan
      cases hspan
      omega
    obtain ⟨i, hi⟩ : ∃ i : Nat, length = i + 1 := ⟨(length - 1).toNat, by omega⟩
    have hlast : span - 1 = i * element.slotCount + (element.slotCount - 1) := by
      rw [spanOf_eq hp hspan, if_neg (by omega), hi, Int.add_mul]
      omega
    rw [hlast, locateAmong_element hp (by omega) (by omega) (by omega), hloc]
    exact ⟨_, rfl, by simpa using hn⟩

theorem exists_place (hs : element.isPacked → 1 ≤ element.entry.size)
    (hspan : element.spanOf length = .ok span) (i : Nat) (hi : i < length) :
    ∃ place shift, element.position i = .ok (place, shift) ∧ 0 ≤ place ∧ place < span := by
  cases hp : element.isPacked with
  | true =>
    have hper := perSlot_pos (hs hp) (kind_of_isPacked hp).2
    obtain ⟨span', hspan', -, hroom, -⟩ := exists_spanOf_packed hp (hs hp) length
    cases hspan.symm.trans hspan'
    exact ⟨_, _, position_of_packed hp (hs hp) i, Int.ediv_nonneg (by omega) (by omega),
      Int.ediv_lt_of_lt_mul (by omega) (by omega)⟩
  | false =>
    have hcount := element.slotCount_pos
    have hplace := mul_add_lt_span hp hspan hi (show 0 < element.slotCount by omega)
    rw [Int.add_zero] at hplace
    exact ⟨_, _, by rw [position, hp]; rfl, Int.mul_nonneg (by omega) (by omega), hplace⟩

theorem exists_spanOf_nonneg (hs : element.isPacked → 1 ≤ element.entry.size) (length : Int) :
    ∃ span, element.spanOf length = .ok span ∧ 0 ≤ span := by
  cases hp : element.isPacked with
  | true =>
    obtain ⟨span, hspan, hnn, -⟩ := exists_spanOf_packed hp (hs hp) length
    exact ⟨span, hspan, hnn⟩
  | false =>
    have hcount := element.slotCount_pos
    refine ⟨_, spanOf_whole hp, ?_⟩
    split
    · exact Int.le_refl 0
    · exact Int.mul_nonneg (by omega) (by omega)

theorem exists_index {l : Located} (h : array.locateElement r (some length) = .ok located)
    (hl : l ∈ located) : ∃ i path, l.path = .index i :: path := by
  rw [locateElement] at h
  split at h
  · cases h
    exact absurd hl List.not_mem_nil
  · obtain ⟨i, -, -, -, -, ⟨-, -, rfl⟩ | ⟨-, -, -, l', -, -, -, rfl⟩⟩ := locateAmong_cases h hl
    · exact ⟨i, [], rfl⟩
    · exact ⟨i, l'.path, rfl⟩

/-- The positions of elements, the slots that they take and the fields located at these slots belong
together: each element has its place among the slots, the fields at a slot are those of the elements
that have their place there, and outside there is none. -/
structure ElementGeometry (array element : Descriptor) (length span : Int) : Prop where
  place (i : Nat) : i < length → ∃ place shift, array.elementPosition i = .ok (place, shift) ∧
    0 ≤ place ∧ place < span
  shared : element.isPacked → ∀ r, ∃ located,
    array.locateElement r (some length) = .ok located ∧ element.SharesSlot length r located
  whole : element.isPacked = false → ∀ r, 0 ≤ r → r < span →
    array.locateElement r (some length) = (element.locate (r % element.slotCount)).map
        (List.map (·.under (.index (r / element.slotCount).toNat))) ∧
      0 ≤ r / element.slotCount ∧ r / element.slotCount < length
  outside (r : Int) : r < 0 ∨ span ≤ r → array.locateElement r (some length) = .ok []
  least (found : List Located) : element.locate (element.slotCount - 1) = .ok found → found ≠ [] →
    IsLeast {m : Int | 0 ≤ m ∧ ∀ r, m ≤ r → array.locateElement r (some length) = .ok []} span

/-- Whatever the elements are and however many, as long as those that share slots have a size. -/
theorem exists_elementGeometry (he : array.element? = some element)
    (hs : element.isPacked → 1 ≤ element.entry.size) (length : Int) :
    ∃ span, array.dataSlotCount length = .ok span ∧ array.ElementGeometry element length span := by
  obtain ⟨span, hspan, hnn⟩ := exists_spanOf_nonneg hs length
  have hlocate (r : Int) : array.locateElement r (some length) =
      locateAmong element element.locate r (some length) := by rw [locateElement, he]
  have houtside (r : Int) (h : r < 0 ∨ span ≤ r) : array.locateElement r (some length) = .ok [] :=
    (hlocate r).trans (locateAmong_outside hspan h)
  refine ⟨span, by rwa [dataSlotCount, he], fun i hi => ?_, fun hp r => ?_, fun hp r hr hlt => ?_,
    houtside, fun found hloc hn => ⟨⟨hnn, fun r hr => houtside r (.inr hr)⟩, ?_⟩⟩
  · simpa only [elementPosition, he] using exists_place hs hspan i hi
  · rw [hlocate]
    exact locateAmong_packed hp (hs hp) element.locate length r
  · have hcount := element.slotCount_pos
    rw [hlocate]
    exact ⟨locateAmong_whole hp hspan hr hlt, Int.ediv_nonneg hr (by omega),
      ediv_lt_length hp hspan hr hlt⟩
  · -- With fewer slots than `span` the last one would be empty.
    rintro m ⟨hm, hempty⟩
    by_contra hlt
    obtain ⟨located, hlast, hne⟩ :=
      exists_locateAmong_last hs hspan (by omega) hloc hn
    cases (hempty (span - 1) (by omega)).symm.trans ((hlocate _).trans hlast)
    exact hne rfl

def price : Descriptor := .primitive ⟨.text "", "t_uint24", .text "uint24", 0, 0, 3⟩

def prices : Descriptor :=
  .dynamicArray ⟨.text "prices", "t_array", .text "uint24[]", 0, 0, 32⟩ price

def lot : Descriptor := .struct ⟨.text "", "t_struct", .text "struct Lot", 0, 0, 64⟩
  [.primitive ⟨.text "owner", "t_address", .text "address", 0, 0, 20⟩,
    .primitive ⟨.text "ends", "t_uint64", .text "uint64", 1, 0, 8⟩]

def lots : Descriptor := .dynamicArray ⟨.text "lots", "t_array", .text "struct Lot[]", 1, 0, 32⟩ lot

theorem exists_elementGeometry_market :
    (prices.dataSlotCount 21 = .ok 3 ∧ prices.ElementGeometry price 21 3) ∧
      lots.dataSlotCount 21 = .ok 42 ∧ lots.ElementGeometry lot 21 42 := by
  obtain ⟨shared, hshared, hprices⟩ : ∃ span, prices.dataSlotCount 21 = .ok span ∧
      prices.ElementGeometry price 21 span := exists_elementGeometry rfl (by decide) 21
  obtain ⟨own, hown, hlots⟩ : ∃ span, lots.dataSlotCount 21 = .ok span ∧
      lots.ElementGeometry lot 21 span := exists_elementGeometry rfl (by decide) 21
  cases hshared.symm.trans (rfl : prices.dataSlotCount 21 = .ok 3)
  cases hown.symm.trans (rfl : lots.dataSlotCount 21 = .ok 42)
  exact ⟨⟨hshared, hprices⟩, hown, hlots⟩

end SlotLens.Descriptor

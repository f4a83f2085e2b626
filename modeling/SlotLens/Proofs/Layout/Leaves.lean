import SlotLens.Layout.Basic
import SlotLens.Proofs.Layout.Locate
import Mathlib.Data.List.Nodup

/-!
# The fields of a layout

What a descriptor stores at its own place: the fields of all members of a struct and of all elements
of a static array. In a well-formed layout they take bytes of their own.
-/

namespace SlotLens

structure Stored where
  slot : Int
  field : Located

namespace Stored

def start (f : Stored) : Int := 32 * f.slot + f.field.offset

def stop (f : Stored) : Int := f.start + f.field.size

def Apart (f g : Stored) : Prop := f.stop ≤ g.start ∨ g.stop ≤ f.start

def under (slot : Int) (segment : Segment) (f : Stored) : Stored :=
  ⟨slot + f.slot, f.field.under segment⟩

@[simp] theorem start_under (slot : Int) (segment : Segment) (f : Stored) :
    (f.under slot segment).start = 32 * slot + f.start := by
  simp only [start, under, Located.under]
  omega

@[simp] theorem stop_under (slot : Int) (segment : Segment) (f : Stored) :
    (f.under slot segment).stop = 32 * slot + f.stop := by
  rw [stop, start_under, stop, Int.add_assoc]
  rfl

end Stored

namespace Descriptor

def packedLeaf (element : Descriptor) (i : Nat) : Stored :=
  let per := 32 / element.entry.size
  ⟨i / per, ⟨.value element.entry, i % per * element.entry.size, [.index i]⟩⟩

mutual
/-- The fields that a descriptor stores at its own place. Values of mappings, elements of dynamic
arrays and long contents are stored elsewhere. -/
def leaves : Descriptor → List Stored
  | .primitive e => [⟨0, .value e, e.offset, []⟩]
  | .bytes e => [⟨0, .bytes e, e.offset, []⟩]
  | .mapping .. => []
  | .dynamicArray .. => [⟨0, .arrayLength, 0, [.arrayLength]⟩]
  | .staticArray _ length element =>
    (List.range length).flatMap fun (i : Nat) =>
      if element.isPacked then [element.packedLeaf i]
      else element.leaves.map (·.under (i * element.slotCount) (.index i))
  | .struct _ members => memberLeaves members
  | .cut e kind =>
    match kind with
    | .primitive => [⟨0, .value e, e.offset, []⟩]
    | .bytes => [⟨0, .bytes e, e.offset, []⟩]
    | .dynamicArray => [⟨0, .arrayLength, 0, [.arrayLength]⟩]
    | _ => []

def memberLeaves : List Descriptor → List Stored
  | [] => []
  | m :: rest => m.leaves.map (·.under m.slot (.field m.label)) ++ memberLeaves rest
end

def lead (d : Descriptor) : Int := if d.kind = .primitive then d.entry.offset else 0

def start (d : Descriptor) : Int := 32 * d.slot + d.lead

def stop (d : Descriptor) : Int := d.start + d.entry.size

def Apart (d d' : Descriptor) : Prop := d.stop ≤ d'.start ∨ d'.stop ≤ d.start

end Descriptor

structure Entry.FitsSlot (e : Entry) : Prop where
  size_pos : 1 ≤ e.size
  offset_nonneg : 0 ≤ e.offset
  stop_le : e.offset + e.size ≤ 32

structure Entry.TakesSlot (e : Entry) : Prop where
  offset_eq : e.offset = 0
  size_eq : e.size = 32

structure Entry.TakesSlots (e : Entry) : Prop where
  size_pos : 0 < e.size
  dvd_size : 32 ∣ e.size

namespace Descriptor

mutual
/-- Each part has the size that what it stores needs, and the members of a struct take bytes of
their own. Nothing is asked of values of mappings and elements of dynamic arrays. -/
def WellFormed : Descriptor → Prop
  | .primitive e => e.FitsSlot
  | .bytes e | .mapping e _ _ | .dynamicArray e _ => e.TakesSlot
  | .staticArray e length element => element.WellFormed ∧ 1 ≤ length ∧
      ∃ n, (staticArray e length element).dataSlotCount length = .ok n ∧ e.size = 32 * n
  | .struct e members => AllWellFormed members ∧ e.TakesSlots ∧
      (∀ m ∈ members, 0 ≤ m.start ∧ m.stop ≤ e.size) ∧ members.Pairwise Apart
  | .cut e kind =>
    match kind with
    | .primitive => e.FitsSlot
    | .bytes | .mapping | .dynamicArray => e.TakesSlot
    | .staticArray | .struct => e.TakesSlots

def AllWellFormed : List Descriptor → Prop
  | [] => True
  | d :: rest => d.WellFormed ∧ AllWellFormed rest
end

/-- A field lies in one slot, among the bytes of a descriptor. -/
structure Holds (d : Descriptor) (f : Stored) : Prop where
  offset_nonneg : 0 ≤ f.field.offset
  size_pos : 1 ≤ f.field.size
  inside : f.field.offset + f.field.size ≤ 32
  start_le : d.lead ≤ f.start
  stop_le : f.stop ≤ d.lead + d.entry.size

variable {d element : Descriptor} {f g : Stored} {e : Entry}

section Packed

theorem entry_size_of_isPacked (hp : element.isPacked) (hw : element.WellFormed) :
    1 ≤ element.entry.size ∧ element.entry.size < 32 := by
  cases element with
  | primitive e =>
    have := hw.size_pos
    simp only [isPacked, decide_eq_true_eq] at hp
    exact ⟨this, hp⟩
  | cut e kind =>
    cases kind with
    | primitive =>
      have : e.FitsSlot := hw
      simp only [isPacked, decide_eq_true_eq] at hp
      exact ⟨this.size_pos, hp⟩
    | _ => simp [isPacked] at hp
  | _ => simp [isPacked] at hp

theorem packed_offset_fits {size : Int} (hs : 1 ≤ size) (hlt : size < 32) (i : Int) :
    0 ≤ i % (32 / size) * size ∧ i % (32 / size) * size + size ≤ 32 := by
  have hper := perSlot_pos hs hlt
  have hmod := Int.emod_nonneg i (show 32 / size ≠ 0 by omega)
  have hmod' := Int.emod_lt_of_pos i (show 0 < 32 / size by omega)
  have hmul : (i % (32 / size) + 1) * size ≤ 32 / size * size :=
    Int.mul_le_mul_of_nonneg_right (by omega) (by omega)
  have hfull := Int.ediv_mul_le 32 (show size ≠ 0 by omega)
  rw [Int.add_mul] at hmul
  exact ⟨Int.mul_nonneg hmod (by omega), by omega⟩

theorem packedLeaf_fits (hp : element.isPacked) (hw : element.WellFormed) (i : Nat) :
    0 ≤ (element.packedLeaf i).field.offset ∧
      (element.packedLeaf i).field.size = element.entry.size ∧
      (element.packedLeaf i).field.offset + element.entry.size ≤ 32 := by
  obtain ⟨hs, hlt⟩ := entry_size_of_isPacked hp hw
  obtain ⟨hoffset, hstop⟩ := packed_offset_fits hs hlt i
  refine ⟨hoffset, ?_, hstop⟩
  simp only [packedLeaf, Located.size, Leaf.size]
  omega

theorem packedLeaf_apart (hp : element.isPacked) (hw : element.WellFormed) {i j : Nat}
    (hij : i < j) : (element.packedLeaf i).stop ≤ (element.packedLeaf j).start := by
  obtain ⟨hs, hlt⟩ := entry_size_of_isPacked hp hw
  have hper := perSlot_pos hs hlt
  obtain ⟨-, hsize, hstop⟩ := packedLeaf_fits hp hw i
  obtain ⟨hstart, -, -⟩ := packedLeaf_fits hp hw j
  simp only [Stored.stop, Stored.start, hsize]
  have hle : (i : Int) / (32 / element.entry.size) ≤ j / (32 / element.entry.size) :=
    Int.ediv_le_ediv (by omega) (by omega)
  -- The second one is in a later slot, or further to the left in the same one.
  rcases Int.lt_or_eq_of_le hle with hlt | heq
  · simp only [packedLeaf] at hstop hstart ⊢
    omega
  · have hi := Int.mul_ediv_add_emod (i : Int) (32 / element.entry.size)
    have hj := Int.mul_ediv_add_emod (j : Int) (32 / element.entry.size)
    rw [heq] at hi
    have hmul : (i % (32 / element.entry.size) + 1) * element.entry.size ≤
        j % (32 / element.entry.size) * element.entry.size :=
      Int.mul_le_mul_of_nonneg_right (by omega) (by omega)
    rw [Int.add_mul] at hmul
    simp only [packedLeaf]
    omega

end Packed

section Extent

structure Spans (d : Descriptor) : Prop where
  lead_nonneg : 0 ≤ d.lead
  size_pos : 1 ≤ d.entry.size
  stop_le : d.lead + d.entry.size ≤ 32 * d.slotCount

theorem spans_of_fitsSlot (h : e.FitsSlot) (hd : d.entry = e) (hk : d.kind = .primitive) :
    d.Spans := by
  have hlead : d.lead = e.offset := by rw [lead, if_pos hk, hd]
  have hcount : d.slotCount = 1 := by simp only [slotCount, hk]
  exact ⟨hlead ▸ h.offset_nonneg, hd ▸ h.size_pos, by rw [hlead, hd, hcount]; exact h.stop_le⟩

theorem spans_of_takesSlot (h : e.TakesSlot) (hd : d.entry = e) (hk : d.kind ≠ .primitive) :
    d.Spans := by
  subst hd
  have hlead : d.lead = 0 := if_neg hk
  have hcount := d.slotCount_pos
  have := h.size_eq
  exact ⟨by omega, by omega, by omega⟩

theorem spans_of_takesSlots (h : e.TakesSlots) (hd : d.entry = e)
    (hk : d.kind = .struct ∨ d.kind = .staticArray) : d.Spans := by
  subst hd
  have hlead : d.lead = 0 := if_neg (by rcases hk with hk | hk <;> simp [hk])
  have hcount : d.slotCount = max 1 ((d.entry.size + 31) / 32) := by
    rcases hk with hk | hk <;> simp only [slotCount, hk]
  have := h.size_pos
  exact ⟨by omega, by omega, by omega⟩

theorem spanOf_pos {length : Nat} {n : Int} (hw : element.WellFormed) (hl : 1 ≤ length)
    (h : element.spanOf length = .ok n) : 1 ≤ n := by
  by_cases hp : element.isPacked
  · obtain ⟨span, hs, hnn, hroom, -⟩ :=
      exists_spanOf_packed hp (entry_size_of_isPacked hp hw).1 length
    cases hs.symm.trans h
    by_contra hn
    obtain rfl : n = 0 := by omega
    rw [Int.zero_mul] at hroom
    omega
  · rw [spanOf_eq (Bool.not_eq_true _ ▸ hp) h, if_neg (by omega)]
    have hcount := element.slotCount_pos
    exact Int.mul_pos (by omega) (by omega)

theorem takesSlots_of_staticArray {length : Nat}
    (hw : (staticArray e length element).WellFormed) : e.TakesSlots := by
  obtain ⟨helement, hl, n, hn, hs⟩ := hw
  have := spanOf_pos helement hl hn
  exact ⟨by omega, ⟨n, hs⟩⟩

theorem WellFormed.spans (hw : d.WellFormed) : d.Spans := by
  cases d with
  | primitive e => exact spans_of_fitsSlot hw rfl rfl
  | bytes e | mapping e | dynamicArray e =>
    exact spans_of_takesSlot (e := e) hw rfl (by simp [kind])
  | staticArray e => exact spans_of_takesSlots (takesSlots_of_staticArray hw) rfl (.inr rfl)
  | struct e => exact spans_of_takesSlots hw.2.1 rfl (.inl rfl)
  | cut e k =>
    cases k with
    | primitive => exact spans_of_fitsSlot (e := e) hw rfl rfl
    | bytes | mapping | dynamicArray => exact spans_of_takesSlot (e := e) hw rfl (by simp [kind])
    | staticArray => exact spans_of_takesSlots (e := e) hw rfl (.inr rfl)
    | struct => exact spans_of_takesSlots (e := e) hw rfl (.inl rfl)

end Extent

section Leaves

theorem mem_leaves_staticArray {length : Nat} (h : f ∈ (staticArray e length element).leaves) :
    ∃ i < length, (element.isPacked ∧ f = element.packedLeaf i) ∨
      (element.isPacked = false ∧ ∃ g ∈ element.leaves,
        f = g.under (i * element.slotCount) (.index i)) := by
  rw [leaves, List.mem_flatMap] at h
  obtain ⟨i, hi, h⟩ := h
  refine ⟨i, List.mem_range.1 hi, ?_⟩
  split at h
  · next hp => exact .inl ⟨hp, List.mem_singleton.1 h⟩
  · next hp =>
    obtain ⟨g, hg, rfl⟩ := List.mem_map.1 h
    exact .inr ⟨Bool.not_eq_true _ ▸ hp, g, hg, rfl⟩

theorem holds_of_fitsSlot (h : e.FitsSlot) (hd : d.entry = e) (hk : d.kind = .primitive) :
    d.Holds ⟨0, .value e, e.offset, []⟩ := by
  have hlead : d.lead = e.offset := by rw [lead, if_pos hk, hd]
  obtain ⟨hs, ho, hstop⟩ := h
  refine ⟨ho, ?_, ?_, ?_, ?_⟩ <;>
    simp only [Stored.stop, Stored.start, Located.size, Leaf.size, hlead, hd] <;> omega

theorem holds_of_takesSlot (h : e.TakesSlot) (hd : d.entry = e) (hk : d.kind ≠ .primitive)
    {l : Located} (hl : l.offset = 0) (hs : l.size = 32) : d.Holds ⟨0, l⟩ := by
  subst hd
  have hlead : d.lead = 0 := if_neg hk
  have := h.size_eq
  refine ⟨?_, ?_, ?_, ?_, ?_⟩ <;> simp only [Stored.stop, Stored.start] <;> omega

theorem Holds.between {i : Nat} (hs : element.Spans) (h : element.Holds g) :
    32 * (i * element.slotCount) ≤ (g.under (i * element.slotCount) (.index i)).start ∧
      (g.under (i * element.slotCount) (.index i)).stop ≤ 32 * ((i + 1) * element.slotCount) := by
  have := hs.lead_nonneg
  have := hs.stop_le
  have := h.start_le
  have := h.stop_le
  rw [Stored.start_under, Stored.stop_under, Int.add_mul]
  omega

theorem Holds.of_element {length i : Nat} (hw : (staticArray e length element).WellFormed)
    (hi : i < length) (hp : element.isPacked = false) (h : element.Holds g) :
    (staticArray e length element).Holds (g.under (i * element.slotCount) (.index i)) := by
  obtain ⟨helement, hl, n, hn, hs⟩ := hw
  have hspans := helement.spans
  obtain ⟨hstart, hstop⟩ := h.between (i := i) hspans
  have hn' := spanOf_eq hp hn
  rw [if_neg (by omega)] at hn'
  have hcount := element.slotCount_pos
  have hnn : 0 ≤ (i : Int) * element.slotCount := Int.mul_nonneg (by omega) (by omega)
  have hle : ((i : Int) + 1) * element.slotCount ≤ length * element.slotCount :=
    Int.mul_le_mul_of_nonneg_right (by omega) (by omega)
  refine ⟨h.offset_nonneg, h.size_pos, h.inside, ?_, ?_⟩
  · rw [lead, if_neg (by simp [kind])]
    omega
  · rw [lead, if_neg (by simp [kind]), entry, hs, hn']
    omega

theorem Holds.of_packed {length i : Nat} (hw : (staticArray e length element).WellFormed)
    (hi : i < length) (hp : element.isPacked) :
    (staticArray e length element).Holds (element.packedLeaf i) := by
  obtain ⟨helement, hl, n, hn, hs⟩ := hw
  obtain ⟨hsize, hlt⟩ := entry_size_of_isPacked hp helement
  have hper := perSlot_pos hsize hlt
  obtain ⟨hoffset, hfield, hstop⟩ := packedLeaf_fits hp helement i
  obtain ⟨span, hspan, -, hroom, -⟩ := exists_spanOf_packed hp hsize length
  have he : span = n := Except.ok.inj (hspan.symm.trans hn)
  subst he
  have hslot : (element.packedLeaf i).slot < span :=
    Int.ediv_lt_of_lt_mul (by omega) (by omega)
  have hslot' : 0 ≤ (element.packedLeaf i).slot := Int.ediv_nonneg (by omega) (by omega)
  refine ⟨hoffset, by omega, by omega, ?_, ?_⟩
  · rw [lead, if_neg (by simp [kind]), Stored.start]
    omega
  · rw [lead, if_neg (by simp [kind]), entry, hs, Stored.stop, Stored.start, hfield]
    omega

theorem Holds.of_member {members : List Descriptor} {m : Descriptor} {segment : Segment}
    (hw : (struct e members).WellFormed) (hm : m ∈ members) (h : m.Holds g) :
    (struct e members).Holds (g.under m.slot segment) := by
  obtain ⟨-, -, hin, -⟩ := hw
  obtain ⟨hstart, hstop⟩ := hin m hm
  have := h.start_le
  have := h.stop_le
  rw [stop] at hstop
  rw [start] at hstart hstop
  refine ⟨h.offset_nonneg, h.size_pos, h.inside, ?_, ?_⟩
  · rw [lead, if_neg (by simp [kind]), Stored.start_under]
    omega
  · rw [lead, if_neg (by simp [kind]), entry, Stored.stop_under]
    omega

mutual
theorem holds_of_mem_leaves {f : Stored} :
    (d : Descriptor) → d.WellFormed → f ∈ d.leaves → d.Holds f
  | .primitive e, hw, hf => by
    cases List.mem_singleton.1 hf
    exact holds_of_fitsSlot hw rfl rfl
  | .bytes e, hw, hf => by
    cases List.mem_singleton.1 hf
    exact holds_of_takesSlot (e := e) hw rfl (by simp [kind]) hw.offset_eq rfl
  | .mapping .., _, hf => absurd hf List.not_mem_nil
  | .dynamicArray e _, hw, hf => by
    cases List.mem_singleton.1 hf
    exact holds_of_takesSlot (e := e) hw rfl (by simp [kind]) rfl rfl
  | .staticArray e length element, hw, hf => by
    obtain ⟨i, hi, ⟨hp, rfl⟩ | ⟨hp, g, hg, rfl⟩⟩ := mem_leaves_staticArray hf
    · exact .of_packed hw hi hp
    · exact .of_element hw hi hp (holds_of_mem_leaves element hw.1 hg)
  | .struct e members, hw, hf => by
    obtain ⟨m, hm, g, hg, rfl⟩ := holds_of_mem_memberLeaves members hw.1 hf
    exact .of_member hw hm hg
  | .cut e kind, hw, hf => by
    cases kind with
    | primitive =>
      cases List.mem_singleton.1 hf
      exact holds_of_fitsSlot (e := e) hw rfl rfl
    | bytes =>
      cases List.mem_singleton.1 hf
      exact holds_of_takesSlot (e := e) hw rfl (by simp [Descriptor.kind]) hw.offset_eq rfl
    | dynamicArray =>
      cases List.mem_singleton.1 hf
      exact holds_of_takesSlot (e := e) hw rfl (by simp [Descriptor.kind]) rfl rfl
    | mapping | staticArray | struct => exact absurd hf List.not_mem_nil

theorem holds_of_mem_memberLeaves {f : Stored} :
    (members : List Descriptor) → AllWellFormed members → f ∈ memberLeaves members →
      ∃ m ∈ members, ∃ g, m.Holds g ∧ f = g.under m.slot (.field m.label)
  | [], _, hf => by simp [memberLeaves] at hf
  | m :: rest, hw, hf => by
    rw [memberLeaves, List.mem_append] at hf
    rcases hf with hf | hf
    · obtain ⟨g, hg, rfl⟩ := List.mem_map.1 hf
      exact ⟨m, List.mem_cons_self, g, holds_of_mem_leaves m hw.1 hg, rfl⟩
    · obtain ⟨m', hm', hf⟩ := holds_of_mem_memberLeaves rest hw.2 hf
      exact ⟨m', List.mem_cons_of_mem _ hm', hf⟩
end

theorem pairwise_under {fields : List Stored} (slot : Int) (segment : Segment)
    (h : fields.Pairwise Stored.Apart) :
    (fields.map (·.under slot segment)).Pairwise Stored.Apart := by
  rw [List.pairwise_map]
  refine h.imp fun ha => ?_
  rw [Stored.Apart, Stored.start_under, Stored.start_under, Stored.stop_under, Stored.stop_under]
  rw [Stored.Apart] at ha
  omega

theorem Holds.apart {m m' : Descriptor} {segment segment' : Segment} (h : m.Holds f)
    (h' : m'.Holds g) (ha : m.Apart m') :
    (f.under m.slot segment).Apart (g.under m'.slot segment') := by
  have := h.start_le
  have := h.stop_le
  have := h'.start_le
  have := h'.stop_le
  rw [Stored.Apart, Stored.start_under, Stored.start_under, Stored.stop_under, Stored.stop_under]
  rw [Apart, start, start, stop, stop, start, start] at ha
  omega

mutual
theorem leaves_pairwise : (d : Descriptor) → d.WellFormed → d.leaves.Pairwise Stored.Apart
  | .primitive _, _ | .bytes _, _ | .dynamicArray .., _ => List.pairwise_singleton _ _
  | .mapping .., _ => .nil
  | .staticArray e length element, hw => by
    have hspans := hw.1.spans
    rw [leaves, List.pairwise_flatMap]
    refine ⟨fun i _ => ?_, List.pairwise_lt_range.imp fun {i j} hij => ?_⟩
    · split
      · exact List.pairwise_singleton _ _
      · exact pairwise_under _ _ (leaves_pairwise element hw.1)
    · split
      · next hp =>
        intro f hf g hg
        cases List.mem_singleton.1 hf
        cases List.mem_singleton.1 hg
        exact .inl (packedLeaf_apart hp hw.1 hij)
      · intro f hf g hg
        obtain ⟨f', hf', rfl⟩ := List.mem_map.1 hf
        obtain ⟨g', hg', rfl⟩ := List.mem_map.1 hg
        have hstop := ((holds_of_mem_leaves element hw.1 hf').between (i := i) hspans).2
        have hstart := ((holds_of_mem_leaves element hw.1 hg').between (i := j) hspans).1
        have hle : ((i : Int) + 1) * element.slotCount ≤ j * element.slotCount :=
          Int.mul_le_mul_of_nonneg_right (by omega) (by have := element.slotCount_pos; omega)
        exact .inl (by omega)
  | .struct e members, hw => memberLeaves_pairwise members hw.1 hw.2.2.2
  | .cut e kind, _ => by
    cases kind with
    | primitive | bytes | dynamicArray => exact List.pairwise_singleton _ _
    | mapping | staticArray | struct => exact .nil

theorem memberLeaves_pairwise : (members : List Descriptor) → AllWellFormed members →
    members.Pairwise Apart → (memberLeaves members).Pairwise Stored.Apart
  | [], _, _ => .nil
  | m :: rest, hw, ha => by
    obtain ⟨hm, hrest⟩ := List.pairwise_cons.1 ha
    rw [memberLeaves, List.pairwise_append]
    refine ⟨pairwise_under _ _ (leaves_pairwise m hw.1), memberLeaves_pairwise rest hw.2 hrest, ?_⟩
    intro f hf g hg
    obtain ⟨f', hf', rfl⟩ := List.mem_map.1 hf
    obtain ⟨m', hm', g', hg', rfl⟩ := holds_of_mem_memberLeaves rest hw.2 hg
    exact (holds_of_mem_leaves m hw.1 hf').apart hg' (hm m' hm')
end

end Leaves

end Descriptor

end SlotLens

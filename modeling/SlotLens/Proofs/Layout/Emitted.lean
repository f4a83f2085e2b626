import SlotLens.Proofs.Field
import SlotLens.Proofs.Layout.Container
import SlotLens.Proofs.Layout.Stored
import SlotLens.Slot

/-!
# Layouts as they are emitted

What every layout from a compiler has: values fit into a slot, types can be decoded, and parts lie
inside what they are part of. In such a layout everything can be located, and every container whose
slot needs no derivation has one in the slot space.
-/

namespace SlotLens

def Slot.InSpace (slot : Int) : Prop := 0 ≤ slot ∧ slot < space

structure Entry.IsValue (e : Entry) : Prop where
  fits : e.FitsSlot
  decodable : Field.IsDecodable e.typeLabel (some e.size)

def Leaf.Fits : Leaf → Int → Prop
  | .value e, offset => 0 ≤ offset ∧ 1 ≤ e.size ∧ offset + e.size ≤ 32 ∧
      Field.IsDecodable e.typeLabel (some e.size)
  | .bytes _, _ => True

theorem Leaf.arrayLength_fits : Leaf.arrayLength.Fits 0 :=
  ⟨by decide, by decide, by decide, "uint256", rfl, by decide +kernel⟩

namespace Descriptor

mutual
/-- Nothing is asked of the sizes of mappings, dynamic arrays and byte strings, nor of what is cut,
but for values. -/
def Emitted : Descriptor → Prop
  | .primitive e => e.IsValue
  | .bytes _ => True
  | .mapping _ keyType value =>
    (keyType = .null ∨ Field.IsDecodable keyType none) ∧ value.Emitted
  | .dynamicArray _ element => element.Emitted
  | .staticArray e length element => element.Emitted ∧
      ∃ n, element.spanOf length = .ok n ∧ n ≤ (staticArray e length element).slotCount
  | .struct e members => AllEmitted members ∧
      ∀ m ∈ members, 0 ≤ m.slot ∧ m.slot + m.slotCount ≤ (struct e members).slotCount
  | .cut e kind => kind = .primitive → e.IsValue

def AllEmitted : List Descriptor → Prop
  | [] => True
  | d :: rest => d.Emitted ∧ AllEmitted rest
end

variable {d element : Descriptor} {e : Entry} {members : List Descriptor} {rel : Int}

theorem emitted_of_mem {m : Descriptor} (h : AllEmitted members) (hm : m ∈ members) :
    m.Emitted := by
  induction members with
  | nil => exact absurd hm List.not_mem_nil
  | cons d rest ih =>
    rcases List.mem_cons.1 hm with rfl | hm
    · exact h.1
    · exact ih h.2 hm

namespace Emitted

theorem isValue (h : d.Emitted) (hk : d.kind = .primitive) : d.entry.IsValue := by
  cases d with
  | primitive e => exact h
  | cut e kind => exact h hk
  | _ => cases hk

theorem of_element? (h : d.Emitted) (he : d.element? = some element) : element.Emitted := by
  cases d with
  | mapping e keyType value =>
    cases he
    exact h.2
  | dynamicArray e element =>
    cases he
    exact h
  | staticArray e length element =>
    cases he
    exact h.1
  | _ => cases he

end Emitted

theorem Emitted.size_pos (h : d.Emitted) (hp : d.isPacked) : 1 ≤ d.entry.size :=
  (h.isValue (kind_of_isPacked hp).1).fits.size_pos

section Locate

mutual
theorem exists_locate (rel : Int) :
    (d : Descriptor) → d.Emitted → ∃ found, d.locate rel = .ok found
  | .primitive _, _ | .bytes _, _ | .mapping .., _ | .dynamicArray .., _ | .cut _ _, _ =>
    ⟨_, rfl⟩
  | .staticArray e length element, h => by
    rw [locate]
    split
    · exact exists_locateAmong
        ⟨fun hp => h.1.size_pos hp, fun rel => exists_locate rel element h.1⟩ rel length
    · exact ⟨[], rfl⟩
  | .struct e members, h => by
    rw [locate]
    split
    · exact ⟨[], rfl⟩
    · exact exists_map (exists_locateMembers rel members h.1)

theorem exists_locateMembers (rel : Int) :
    (members : List Descriptor) → AllEmitted members →
      ∃ found, locateMembers members rel = .ok found
  | [], _ => ⟨[], rfl⟩
  | m :: rest, h => by
    have others := exists_locateMembers rel rest h.2
    rw [locateMembers]
    dsimp only
    split
    · exact exists_bind (exists_locate (rel - m.slot) m h.1) fun _ _ =>
        exists_bind others fun _ _ => ⟨_, rfl⟩
    · exact exists_bind ⟨[], rfl⟩ fun _ _ => exists_bind others fun _ _ => ⟨_, rfl⟩
end

theorem Emitted.locates (h : d.Emitted) : d.Locates :=
  ⟨fun hp => h.size_pos hp, fun rel => exists_locate rel d h⟩

end Locate

section Containers

mutual
theorem emitted_of_mem_containers {c : Container} :
    (d : Descriptor) → d.Emitted → c ∈ d.containers →
      c.descriptor.Emitted ∧ 0 ≤ c.slot ∧ c.slot < d.slotCount
  | .primitive _, _, hc => by simp [containers] at hc
  | .bytes e, h, hc | .mapping e _ _, h, hc | .dynamicArray e _, h, hc => by
    simp only [containers, List.mem_singleton] at hc
    subst hc
    exact ⟨h, Int.le_refl 0, slotCount_pos _⟩
  | .staticArray e length element, h, hc => by
    obtain ⟨he, n, hn, hle⟩ := h
    rw [containers] at hc
    split at hc
    · next hh =>
      simp only [List.mem_flatMap, List.mem_map, List.mem_range] at hc
      obtain ⟨i, hi, c', hc', rfl⟩ := hc
      obtain ⟨hc'', hslot, hlt⟩ := emitted_of_mem_containers element he hc'
      have hend := mul_add_lt_span (isPacked_eq_false hh) hn (Int.ofNat_lt.2 hi) hlt
      have hcount := element.slotCount_pos
      have hnn : 0 ≤ (i : Int) * element.slotCount := Int.mul_nonneg (by omega) (by omega)
      simp only [Container.under]
      exact ⟨hc'', by omega, by omega⟩
    · exact absurd hc List.not_mem_nil
  | .struct e members, h, hc => by
    obtain ⟨m, hm, c', hc', rfl, hslot, hlt⟩ :=
      emitted_of_mem_memberContainers members h.1 (by simpa [containers] using hc)
    obtain ⟨hstart, hstop⟩ := h.2 m hm
    simp only [Container.under]
    exact ⟨hc', by omega, by omega⟩
  | .cut e kind, h, hc => by
    cases kind with
    | primitive | staticArray | struct => exact absurd hc List.not_mem_nil
    | mapping | dynamicArray | bytes =>
      cases List.mem_singleton.1 hc
      exact ⟨h, Int.le_refl 0, slotCount_pos _⟩

theorem emitted_of_mem_memberContainers {c : Container} :
    (members : List Descriptor) → AllEmitted members → c ∈ memberContainers members →
      ∃ m ∈ members, ∃ c', c'.descriptor.Emitted ∧ c = Container.under m.slot (.field m.label) c' ∧
        0 ≤ c'.slot ∧ c'.slot < m.slotCount
  | [], _, hc => by simp [memberContainers] at hc
  | m :: rest, h, hc => by
    rw [memberContainers, List.mem_append] at hc
    rcases hc with hc | hc
    · split at hc
      · obtain ⟨c', hc', rfl⟩ := List.mem_map.1 hc
        obtain ⟨he, hslot, hlt⟩ := emitted_of_mem_containers m h.1 hc'
        exact ⟨m, List.mem_cons_self, c', he, rfl, hslot, hlt⟩
      · exact absurd hc List.not_mem_nil
    · obtain ⟨m', hm', hrest⟩ := emitted_of_mem_memberContainers rest h.2 hc
      exact ⟨m', List.mem_cons_of_mem _ hm', hrest⟩
end

end Containers

section Position

theorem Emitted.position_fits {i : Nat} {shift : Int} (h : element.Emitted) (hp : element.isPacked)
    (hpos : element.position i = .ok (rel, shift)) :
    0 ≤ shift ∧ shift + element.entry.size ≤ 32 := by
  have hs := h.size_pos hp
  rw [position_of_packed hp hs, Except.ok.injEq, Prod.mk.injEq] at hpos
  obtain ⟨-, rfl⟩ := hpos
  exact packed_offset_fits hs (kind_of_isPacked hp).2 i

end Position

end Descriptor

structure Descriptor.IsVariable (d : Descriptor) : Prop where
  label : ∃ text, d.label = .text text
  emitted : d.Emitted
  slot_nonneg : 0 ≤ d.slot
  stop_le : d.slot + d.slotCount ≤ Slot.space

def Layout.Emitted (l : Layout) : Prop := ∀ d ∈ l.descriptors, d.IsVariable

theorem Layout.Emitted.root {l : Layout} (h : l.Emitted) {root : Root} (hr : root ∈ l.roots) :
    root.container.Emitted ∧ Slot.InSpace root.slot := by
  obtain ⟨d, hd, c, hc, rfl⟩ := Layout.mem_roots hr
  obtain ⟨-, he, hslot, hstop⟩ := h d hd
  obtain ⟨hce, hcslot, hlt⟩ := Descriptor.emitted_of_mem_containers d he hc
  refine ⟨hce, ?_⟩
  simp only [Slot.InSpace]
  omega

end SlotLens

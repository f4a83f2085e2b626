import SlotLens.Layout.Basic

namespace SlotLens.Descriptor

theorem one_le_height (d : Descriptor) : 1 ≤ d.height := by
  cases d <;> simp [height]

mutual
theorem height_le_of_mem_containers {c : Container} :
    (d : Descriptor) → c ∈ d.containers → c.descriptor.height ≤ d.height
  | .primitive _, hc => by simp [containers] at hc
  | .bytes e, hc => by
    simp only [containers, List.mem_singleton] at hc
    subst hc
    exact Nat.le_refl _
  | .mapping e keyType value, hc => by
    simp only [containers, List.mem_singleton] at hc
    subst hc
    exact Nat.le_refl _
  | .dynamicArray e element, hc => by
    simp only [containers, List.mem_singleton] at hc
    subst hc
    exact Nat.le_refl _
  | .staticArray e length element, hc => by
    rw [containers] at hc
    split at hc
    · simp only [List.mem_flatMap, List.mem_map] at hc
      obtain ⟨i, -, c', hc', rfl⟩ := hc
      have := height_le_of_mem_containers element hc'
      simp only [Container.under, height]
      omega
    · exact absurd hc List.not_mem_nil
  | .struct e members, hc => by
    have := height_le_of_mem_memberContainers members (by simpa [containers] using hc)
    simp only [height]
    omega
  | .cut e kind, hc => by
    cases kind <;> simp_all [containers, height]

theorem height_le_of_mem_memberContainers {c : Container} :
    (members : List Descriptor) → c ∈ memberContainers members →
      c.descriptor.height ≤ heights members
  | [], hc => by simp [memberContainers] at hc
  | m :: rest, hc => by
    rw [memberContainers, List.mem_append] at hc
    rw [heights]
    rcases hc with hc | hc
    · split at hc
      · obtain ⟨c', hc', rfl⟩ := List.mem_map.1 hc
        have := height_le_of_mem_containers m hc'
        simp only [Container.under]
        omega
      · exact absurd hc List.not_mem_nil
    · have := height_le_of_mem_memberContainers rest hc
      omega
end

theorem memberContainers_eq_nil {members : List Descriptor} (h : anyHasContainers members = false) :
    memberContainers members = [] := by
  induction members with
  | nil => rfl
  | cons m rest ih =>
    rw [anyHasContainers, Bool.or_eq_false_iff] at h
    simp [memberContainers, h.1, ih h.2]

theorem containers_eq_nil {d : Descriptor} (h : d.hasContainers = false) : d.containers = [] := by
  cases d with
  | primitive e => rfl
  | bytes e => simp [hasContainers] at h
  | mapping e keyType value => simp [hasContainers] at h
  | dynamicArray e element => simp [hasContainers] at h
  | staticArray e length element => simp_all [hasContainers, containers]
  | struct e members => exact memberContainers_eq_nil (by simpa [hasContainers] using h)
  | cut e kind => cases kind <;> simp_all [hasContainers, containers]

theorem isPacked_eq_false {d : Descriptor} (h : d.hasContainers) : d.isPacked = false := by
  cases d with
  | primitive e => simp [hasContainers] at h
  | cut e kind => cases kind <;> simp_all [hasContainers, isPacked]
  | _ => rfl

theorem position_eq {element : Descriptor} (h : element.hasContainers) (index : Int) :
    element.position index = .ok (index * element.slotCount, 0) := by
  simp [position, isPacked_eq_false h]

end SlotLens.Descriptor

namespace SlotLens.Layout

theorem mem_roots {l : Layout} {root : Root} (h : root ∈ l.roots) :
    ∃ d ∈ l.descriptors, ∃ c ∈ d.containers, root = ⟨d, c.descriptor, d.slot + c.slot, c.path⟩ := by
  obtain ⟨d, hd, hr⟩ := List.mem_flatMap.1 h
  obtain ⟨c, hc, rfl⟩ := List.mem_map.1 hr
  exact ⟨d, hd, c, hc, rfl⟩

theorem mem_descriptors_of_root {l : Layout} {root : Root} (h : root ∈ l.roots) :
    root.variableDescriptor ∈ l.descriptors := by
  obtain ⟨d, hd, c, -, rfl⟩ := mem_roots h
  exact hd

end SlotLens.Layout

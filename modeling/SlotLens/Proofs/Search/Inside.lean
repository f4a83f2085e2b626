import SlotLens.Proofs.Layout.Container
import SlotLens.Proofs.Search.Cases

namespace SlotLens

structure Site where
  container : Descriptor
  base : Int

def WorkItem.site (i : WorkItem) : Site := ⟨i.container, i.base⟩

namespace Scene

variable {s : Scene} {owner : Descriptor} {item i : WorkItem} {h h' : Hunt}

/-- What a container places where. -/
inductive Places (s : Scene) : Site → Descriptor → Int → Prop
  | value {e keyType value base derived} {c : Candidate} : c ∈ s.candidates →
      Slot.ofKey c.raw base = .ok derived →
      Places s ⟨.mapping e keyType value, base⟩ value derived
  | element {e element base length data rel offset} {i : Nat} :
      s.lengthAt base = some length → i < length → Slot.ofData base = .ok data →
      element.position i = .ok (rel, offset) →
      Places s ⟨.dynamicArray e element, base⟩ element (data + rel)

def Inside (s : Scene) (outer inner : Site) : Prop :=
  ∃ value place, s.Places outer value place ∧ ∃ c ∈ value.containers,
    inner = ⟨c.descriptor, innerBase place c⟩

theorem Places.height_lt {outer : Site} {value : Descriptor} {place : Int}
    (hp : s.Places outer value place) : value.height < outer.container.height := by
  cases hp with
  | value _ _ => exact Nat.lt_succ_self _
  | element _ _ _ _ => exact Nat.lt_succ_self _

theorem Inside.height_lt {outer inner : Site} (hi : s.Inside outer inner) :
    inner.container.height < outer.container.height := by
  obtain ⟨value, place, hp, c, hc, rfl⟩ := hi
  exact Nat.lt_of_le_of_lt (Descriptor.height_le_of_mem_containers value hc) hp.height_lt

/-- An item is inside what another one places, and one level below it. -/
structure Below (s : Scene) (item i : WorkItem) : Prop where
  inside : s.Inside item.site i.site
  level : i.level = item.level + 1

theorem below_queued {place : Int} {value : Descriptor} {path : Path}
    (hp : s.Places item.site value place)
    (hi : i ∈ (s.pushNested value place item.level path h).next.toList) :
    i ∈ h.next.toList ∨ s.Below item i := by
  rcases mem_next_pushNested hi with hi | ⟨c, hc, -, rfl⟩
  · exact .inl hi
  · exact .inr ⟨⟨value, place, hp, c, hc, rfl⟩, rfl⟩

theorem tryKey_next {e : Entry} {keyType : Value} {value : Descriptor} {c : Candidate}
    (hc : c ∈ s.candidates) (hm : item.container = .mapping e keyType value)
    (ht : s.tryKey owner item keyType value c h = .ok h') (hi : i ∈ h'.next.toList) :
    i ∈ h.next.toList ∨ s.Below item i := by
  obtain ⟨derived, hd, ⟨-, -, rfl⟩ | ⟨-, key, h₁, -, hv, rfl⟩⟩ := tryKey_cases ht
  · exact .inl hi
  · have hp : s.Places item.site value derived := by
      rw [WorkItem.site, hm]
      exact .value hc hd
    rw [claimValue_eq] at hv
    rw [← Hunt.claimEach_next hv]
    exact below_queued hp hi

theorem expandMapping_next {e : Entry} {keyType : Value} {value : Descriptor}
    {rest : List Candidate} (hr : ∀ c ∈ rest, c ∈ s.candidates)
    (hm : item.container = .mapping e keyType value)
    (he : s.expandMapping owner item keyType value rest h = .ok h') (hi : i ∈ h'.next.toList) :
    i ∈ h.next.toList ∨ s.Below item i := by
  induction rest generalizing h with
  | nil =>
    cases he
    exact .inl hi
  | cons c rest ih =>
    rcases expandMapping_cons he with ⟨-, rfl⟩ | ⟨-, -, hp | ⟨h₁, h₂, hp, ht, he⟩⟩
    · exact .inl hi
    · exact .inl ((Hunt.spend_keeps hp).2.2 ▸ hi)
    · rcases ih (fun c hc => hr c (List.mem_cons_of_mem _ hc)) he with hi | hi
      · rw [← (Hunt.spend_keeps hp).2.2]
        exact tryKey_next (hr c List.mem_cons_self) hm ht hi
      · exact .inr hi

theorem pushElements_next {e : Entry} {element : Descriptor} {data length : Int}
    {ahead count index : Nat} (ha : item.container = .dynamicArray e element)
    (hc : element.hasContainers) (hl : s.lengthAt item.base = some length)
    (hd : Slot.ofData item.base = .ok data) (hn : count + index ≤ length.toNat)
    (hi : i ∈ (s.pushElements element data item ahead count index h).next.toList) :
    i ∈ h.next.toList ∨ s.Below item i := by
  induction count generalizing index h with
  | zero => exact .inl hi
  | succ count ih =>
    rw [pushElements] at hi
    split at hi
    · exact .inl hi
    · split at hi
      · exact .inl hi
      · have hp : s.Places item.site element (data + index * element.slotCount) := by
          rw [WorkItem.site, ha]
          exact .element hl (by omega) hd (Descriptor.position_eq hc index)
        rcases ih (by omega) hi with hi | hi
        · exact below_queued hp hi
        · exact .inr hi

theorem expand_next {ahead : Nat} (he : s.expand owner item ahead h = .ok h')
    (hi : i ∈ h'.next.toList) : i ∈ h.next.toList ∨ s.Below item i := by
  rw [expand] at he
  split at he
  · next hm => exact expandMapping_next (fun c hc => hc) hm he hi
  · next ha =>
    rcases expandArray_cases he with ⟨-, rfl⟩ | ⟨length, data, span, h₁, hl, hd, -, hv, hn⟩
    · exact .inl hi
    · rw [claimElements_eq] at hv
      rw [← Hunt.claimEach_next hv]
      rcases hn with ⟨-, rfl⟩ | ⟨hc, rfl⟩
      · exact .inl hi
      · exact pushElements_next ha hc hl hd (by omega) hi
  · rcases expandBytes_cases he with ⟨-, rfl⟩ | ⟨length, data, -, -, rfl⟩
    · exact .inl hi
    · exact .inl (Hunt.claimEach_next claimChunks_eq.symm ▸ hi)
  · cases he
    exact .inl hi

end Scene

end SlotLens

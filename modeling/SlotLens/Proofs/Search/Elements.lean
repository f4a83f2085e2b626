import SlotLens.Proofs.Layout.Geometry
import SlotLens.Proofs.Search.Direct
import Mathlib.Algebra.Group.Int.Defs
import Mathlib.Algebra.Group.Nat.Defs

namespace SlotLens

theorem Slot.wrap_lt_of_crosses {data p : Int} (hp : p < space) (hlt : data < space)
    (h : space ≤ data + p) : wrap (data + p) < data := by
  have hrest : wrap (data + p) = data + p - space := by
    rw [wrap, ← Int.sub_emod_right, Int.emod_eq_of_lt (by omega) (by omega)]
  omega

namespace Descriptor

variable {array element : Descriptor} {length p : Int}

/-- An element of an array has a field at a slot, counted from the first slot of the elements. -/
def HasFieldAt (array : Descriptor) (length p : Int) : Prop :=
  ∃ element ∈ array.element?, ∃ (i : Nat) (place shift j : Int) (located : List Located),
    i < length ∧ array.elementPosition i = .ok (place, shift) ∧ 0 ≤ j ∧ j < element.slotCount ∧
      element.locate j = .ok located ∧ located ≠ [] ∧ p = place + j

variable {i : Nat} {place shift j : Int} {locate : Int → Except Fault (List Located)}
  {located : List Located}

theorem exists_locateAmong_packed (hp : element.isPacked) (hs : 1 ≤ element.entry.size)
    (hi : i < length) (hpos : element.position i = .ok (place, shift)) :
    ∃ found, locateAmong element locate place (some length) = .ok found ∧ found ≠ [] := by
  obtain ⟨found, hfound, hshares⟩ := locateAmong_packed hp hs locate length place
  exact ⟨found, hfound, List.ne_nil_of_mem ((hshares.mem_iff _).2 ⟨i, shift, hi, hpos, rfl⟩)⟩

theorem exists_locateAmong_whole (hp : element.isPacked = false) (hi : i < length)
    (hpos : element.position i = .ok (place, shift)) (hj : 0 ≤ j) (hlt : j < element.slotCount)
    (hloc : locate j = .ok located) (hn : located ≠ []) :
    ∃ found, locateAmong element locate (place + j) (some length) = .ok found ∧ found ≠ [] := by
  rw [position, hp] at hpos
  cases hpos
  rw [locateAmong_element hp hi hj hlt, hloc]
  exact ⟨_, rfl, by simpa using hn⟩

theorem HasFieldAt.exists_locateElement (h : array.HasFieldAt length p)
    (hs : ∀ element ∈ array.element?, element.isPacked → 1 ≤ element.entry.size) :
    ∃ found, array.locateElement p (some length) = .ok found ∧ found ≠ [] := by
  obtain ⟨element, he, i, place, shift, j, located, hi, hpos, hj, hlt, hloc, hn, rfl⟩ := h
  have hs := hs element he
  rw [Option.mem_def] at he
  simp only [elementPosition, he] at hpos
  simp only [locateElement, he]
  cases hp : element.isPacked with
  | true =>
    have hcount : element.slotCount = 1 := by simp [slotCount, (kind_of_isPacked hp).1]
    obtain rfl : j = 0 := by omega
    rw [Int.add_zero]
    exact exists_locateAmong_packed hp (hs hp) hi hpos
  | false => exact exists_locateAmong_whole hp hi hpos hj hlt hloc hn

theorem nonneg_of_locateElement (h : array.locateElement p (some length) = .ok located)
    (hn : located ≠ []) : 0 ≤ p := by
  by_contra hp
  rw [locateElement] at h
  split at h
  · cases h
    exact hn rfl
  · rw [locateAmong, if_pos (by omega)] at h
    exact hn (pure_eq_ok.1 h).symm

end Descriptor

namespace Scene

variable {s : Scene} {owner element : Descriptor} {item : WorkItem} {h h' : Hunt} {root : Root}
  {ahead : Nat} {slot data length : Int} {results : List (Int × List Match)}

theorem expandArray_keeps (hd : Slot.ofData item.base = .ok data)
    (he : s.expandArray owner item element ahead h = .ok h') (ho : slot ∈ h.remaining)
    (hlt : slot < data) : slot ∈ h'.remaining := by
  rcases expandArray_cases he with ⟨-, rfl⟩ | ⟨length, data', span, h₁, -, hd', -, hv, hn⟩
  · exact ho
  · cases hd.symm.trans hd'
    have hopen : slot ∈ h₁.remaining := by
      rw [claimElements_eq] at hv
      rw [Hunt.claimEach_hits hv, List.mem_filter]
      have hbefore : ¬ data ≤ slot := by omega
      simp [ho, hbefore]
    rcases hn with ⟨-, rfl⟩ | ⟨-, rfl⟩
    · exact hopen
    · rwa [pushElements_remaining]

theorem expand_keeps (hk : item.container.kind = .dynamicArray)
    (hd : Slot.ofData item.base = .ok data) (he : s.expand owner item ahead h = .ok h')
    (ho : slot ∈ h.remaining) (hlt : slot < data) : slot ∈ h'.remaining := by
  rw [expand] at he
  split at he
  · next hc => simp [hc, Descriptor.kind] at hk
  · exact expandArray_keeps hd he ho hlt
  · next hc => simp [hc, Descriptor.kind] at hk
  · cases he
    exact ho

theorem Shows.of_hasFieldAt {array : Descriptor} {base p : Int} (hk : array.kind = .dynamicArray)
    (hs : ∀ element ∈ array.element?, element.isPacked → 1 ≤ element.entry.size)
    (hl : s.lengthAt base = some length) (hd : Slot.ofData base = .ok data)
    (hp : array.HasFieldAt length p) : 0 ≤ p ∧ s.Shows (data + p) ⟨array, base⟩ := by
  obtain ⟨found, hfound, hn⟩ := hp.exists_locateElement hs
  refine ⟨Descriptor.nonneg_of_locateElement hfound hn, ?_⟩
  cases array with
  | dynamicArray e element =>
    have hrel : data + p - data = p := by omega
    apply Shows.element hl hd _ hn
    rwa [hrel]
  | cut e kind =>
    obtain ⟨element, he, -⟩ := hp
    cases he
  | _ => cases hk

/-- Whatever the candidates and the bounds are, the fields of the elements of an array that needs no
derivation are labeled up to the end of the slot space. Where they go on from slot 0, the search of
the array leaves them open. -/
theorem run_elements (h : s.run = .ok results) (hr : root ∈ s.layout.arrayRoots)
    (hs : ∀ element ∈ root.container.element?, element.isPacked → 1 ≤ element.entry.size)
    (hl : s.lengthAt root.slot = some length) (hd : Slot.ofData root.slot = .ok data) :
    (∀ p, root.container.HasFieldAt length p → data + p < Slot.space →
      Slot.wrap (data + p) ∈ s.observed.keys → Labels results (Slot.wrap (data + p))) ∧
    ∀ p < Slot.space, Slot.space ≤ data + p → ∀ owner ahead h h',
      s.expand owner (rootItem root) ahead h = .ok h' →
      Slot.wrap (data + p) ∈ h.remaining → Slot.wrap (data + p) ∈ h'.remaining := by
  have hk : root.container.kind = .dynamicArray := beq_iff_eq.1 (List.mem_filter.1 hr).2
  have hdata : 0 ≤ data ∧ data < Slot.space := by
    obtain ⟨bytes, -, rfl⟩ := map_eq_ok.1 hd
    exact ⟨Slot.ofHash_nonneg bytes, Slot.ofHash_lt bytes⟩
  constructor
  · intro p hp hlt hobs
    obtain ⟨hnn, hshows⟩ := Shows.of_hasFieldAt hk hs hl hd hp
    have hwrap : Slot.wrap (data + p) = data + p :=
      Slot.wrap_of_mem (Int.add_nonneg hdata.1 hnn) hlt
    obtain ⟨r, -, -, hpasses, -⟩ := run_cases h
    rw [labels_iff h hpasses]
    refine ⟨hobs, fun ho => passes_misses hpasses ho ?_⟩
    rw [hwrap]
    exact .root (List.mem_append_left _ hr) hshows
  · intro p hlt hcross owner ahead h h' he ho
    exact expand_keeps hk hd he ho (Slot.wrap_lt_of_crosses hlt hdata.2 hcross)

def ringData : Int := Slot.ofHash (Word.ofNat 0).bytes

def ringElement : Descriptor := .primitive ⟨.text "", "t_uint256", .text "uint256", 0, 0, 32⟩

def ring : Scene where
  layout := ⟨[.dynamicArray ⟨.text "ring", "t_array", .text "uint256[]", 0, 0, 32⟩ ringElement]⟩
  observed := Table.ofList [(0, ⟨Word.ofNat (2 ^ 256 - 1), none⟩), (5, ⟨Word.ofNat 7, none⟩),
    (ringData + 2, ⟨Word.ofNat 9, none⟩)]
  candidates := []
  bounds := .standard
  lengths := .empty

def ringRoot : Root :=
  ⟨.dynamicArray ⟨.text "ring", "t_array", .text "uint256[]", 0, 0, 32⟩ ringElement,
    .dynamicArray ⟨.text "ring", "t_array", .text "uint256[]", 0, 0, 32⟩ ringElement, 0, []⟩

theorem ring_hasFieldAt {length : Int} {i : Nat} (hi : i < length) :
    ringRoot.container.HasFieldAt length i :=
  ⟨ringElement, rfl, i, i, 0, 0, _, hi, by simp [ringRoot, ringElement, Descriptor.elementPosition,
    Descriptor.element?, Descriptor.position, Descriptor.isPacked, Descriptor.slotCount,
    Descriptor.kind], by decide, by decide, rfl, List.cons_ne_nil _ _, by simp⟩

theorem run_elements_ring : ∃ results, ring.run = .ok results ∧
    Labels results (Slot.wrap (ringData + 2)) := by
  obtain ⟨results, h, -⟩ : ∃ results, ring.run = .ok results ∧ results.length = 3 :=
    exists_ok_of_toOption (by decide +kernel)
  have hr : ringRoot ∈ ring.layout.arrayRoots := List.mem_singleton_self _
  have hl : ring.lengthAt ringRoot.slot = some (2 ^ 256 - 1) := by decide +kernel
  have hd : Slot.ofData ringRoot.slot = .ok ringData := rfl
  have hlt : ringData + 2 < Slot.space := by decide +kernel
  have hobs : Slot.wrap (ringData + 2) ∈ ring.observed.keys := by decide +kernel
  obtain ⟨hlabels, -⟩ := run_elements h hr (by decide) hl hd
  exact ⟨results, h, hlabels 2 (ring_hasFieldAt (by decide)) hlt hobs⟩

/-- Behind the last slot the elements go on with slot 0, and the one at slot 5 is not found. -/
theorem ring_misses_wrapped : ∃ results, ring.run = .ok results ∧
    ringRoot ∈ ring.layout.arrayRoots ∧ ring.lengthAt ringRoot.slot = some (2 ^ 256 - 1) ∧
    Slot.ofData ringRoot.slot = .ok ringData ∧
    ringRoot.container.HasFieldAt (2 ^ 256 - 1) (Slot.space + 5 - ringData) ∧
    Slot.wrap (ringData + (Slot.space + 5 - ringData)) = 5 ∧ 5 ∈ ring.observed.keys ∧
    ¬ Labels results 5 := by
  obtain ⟨results, h, hk⟩ : ∃ results, ring.run = .ok results ∧
      decide (¬ Labels results 5) = true := exists_ok_of_toOption (by decide +kernel)
  have hindex : ((Slot.space + 5 - ringData).toNat : Int) = Slot.space + 5 - ringData := by
    decide +kernel
  refine ⟨results, h, List.mem_singleton_self _, by decide +kernel, rfl, ?_, by decide +kernel,
    by decide +kernel, of_decide_eq_true hk⟩
  rw [← hindex]
  apply ring_hasFieldAt
  decide +kernel

end Scene

end SlotLens

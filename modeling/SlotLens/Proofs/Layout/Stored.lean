import SlotLens.Proofs.Layout.Leaves
import SlotLens.Proofs.Table

namespace SlotLens

variable {α β : Type}

theorem takeWhile_eq_filter {p : α → Bool} {items : List α}
    (h : items.Pairwise fun a b => p b → p a) : items.takeWhile p = items.filter p := by
  induction items with
  | nil => rfl
  | cons a items ih =>
    obtain ⟨ha, h⟩ := List.pairwise_cons.1 h
    by_cases hp : p a
    · rw [List.takeWhile_cons_of_pos hp, List.filter_cons_of_pos hp, ih h]
    · rw [List.takeWhile_cons_of_neg hp, List.filter_cons_of_neg hp, eq_comm,
        List.filter_eq_nil_iff]
      exact fun b hb hpb => hp (ha b hb hpb)

theorem flatMap_eq_of_mem {f : α → List β} {items : List α} {a : α} (hn : items.Nodup)
    (ha : a ∈ items) (h : ∀ b ∈ items, b ≠ a → f b = []) : items.flatMap f = f a := by
  obtain ⟨before, after, rfl⟩ := List.append_of_mem ha
  have hn := List.nodup_append.1 hn
  have hb : before.flatMap f = [] := List.flatMap_eq_nil_iff.2 fun b hb =>
    h b (List.mem_append_left _ hb) (hn.2.2 b hb a List.mem_cons_self)
  have hd : after.flatMap f = [] := List.flatMap_eq_nil_iff.2 fun b hb =>
    h b (List.mem_append_right _ (List.mem_cons_of_mem _ hb)) fun he =>
      (List.nodup_cons.1 hn.2.1).1 (he ▸ hb)
  rw [List.flatMap_append, List.flatMap_cons, hb, hd, List.append_nil, List.nil_append]

namespace Stored

def locatedAt (fields : List Stored) (slot : Int) : List Located :=
  (fields.filter fun f => f.slot = slot).map field

variable {fields others : List Stored} {slot : Int}

theorem locatedAt_append :
    locatedAt (fields ++ others) slot = locatedAt fields slot ++ locatedAt others slot := by
  simp [locatedAt]

theorem locatedAt_flatMap {items : List α} {f : α → List Stored} :
    locatedAt (items.flatMap f) slot = items.flatMap fun a => locatedAt (f a) slot := by
  induction items with
  | nil => rfl
  | cons a items ih => rw [List.flatMap_cons, locatedAt_append, ih, List.flatMap_cons]

theorem locatedAt_under {place : Int} {segment : Segment} :
    locatedAt (fields.map (·.under place segment)) slot =
      (locatedAt fields (slot - place)).map (·.under segment) := by
  have hp : ((fun f : Stored => decide (f.slot = slot)) ∘ under place segment) =
      fun f : Stored => decide (f.slot = slot - place) := by
    funext f
    change decide (place + f.slot = slot) = decide (f.slot = slot - place)
    rw [decide_eq_decide]
    omega
  rw [locatedAt, List.filter_map, hp, locatedAt, List.map_map, List.map_map]
  rfl

theorem locatedAt_eq_nil (h : ∀ f ∈ fields, f.slot ≠ slot) : locatedAt fields slot = [] := by
  rw [locatedAt, List.map_eq_nil_iff, List.filter_eq_nil_iff]
  exact fun f hf hs => h f hf (by simpa using hs)

theorem locatedAt_singleton {l : Located} :
    locatedAt [⟨0, l⟩] slot = if slot = 0 then [l] else [] := by
  by_cases h : slot = 0
  · simp [locatedAt, h]
  · simp [locatedAt, h, Ne.symm h]

end Stored

namespace Descriptor

variable {d element : Descriptor} {f : Stored} {e : Entry} {rel : Int}

def leavesAt (d : Descriptor) (rel : Int) : List Located := Stored.locatedAt d.leaves rel

theorem slot_of_mem_leaves (hw : d.WellFormed) (hf : f ∈ d.leaves) :
    0 ≤ f.slot ∧ f.slot < d.slotCount := by
  have hs := hw.spans
  have hh := holds_of_mem_leaves d hw hf
  have := hs.lead_nonneg
  have := hs.stop_le
  obtain ⟨hoffset, hsize, hinside, hstart, hstop⟩ := hh
  simp only [Stored.stop, Stored.start] at hstart hstop
  omega

theorem leavesAt_eq_nil (hw : d.WellFormed) (h : rel < 0 ∨ d.slotCount ≤ rel) :
    d.leavesAt rel = [] := by
  refine Stored.locatedAt_eq_nil fun f hf => ?_
  have := slot_of_mem_leaves hw hf
  omega

section StaticArray

theorem packedAt_eq_filter (e : Entry) (first length per : Int) :
    packedAt e first (some length) per =
      ((List.range per.toNat).filter fun (i : Nat) => first + i < length).map fun (i : Nat) =>
        ⟨.value e, i * e.size, [.index (first + i).toNat]⟩ := by
  rw [packedAt, takeWhile_eq_filter]
  · rfl
  · refine List.pairwise_lt_range.imp fun {i j} hij => ?_
    simp only [Option.all_some, decide_eq_true_eq]
    omega

theorem packedAt_perm (length : Nat) (hp : element.isPacked) (hw : element.WellFormed)
    (hrel : 0 ≤ rel) :
    (packedAt element.entry (rel * (32 / element.entry.size)) (some (length : Int))
        (32 / element.entry.size)).Perm
      (Stored.locatedAt ((List.range length).map element.packedLeaf) rel) := by
  obtain ⟨hs, hlt⟩ := entry_size_of_isPacked hp hw
  have hper := perSlot_pos hs hlt
  rw [Stored.locatedAt, List.filter_map, List.map_map]
  obtain ⟨per, hdef⟩ : ∃ per, per = 32 / element.entry.size := ⟨_, rfl⟩
  simp only [Function.comp_def, packedLeaf, ← hdef] at hper ⊢
  have hnn : 0 ≤ rel * per := Int.mul_nonneg hrel (by omega)
  have hnumber (i : Nat) : ((rel * per + i).toNat : Int) = rel * per + i :=
    Int.toNat_of_nonneg (by omega)
  have hnumbers : (((List.range per.toNat).filter fun (i : Nat) =>
      decide (rel * per + i < length)).map fun (i : Nat) => (rel * per + i).toNat).Perm
      ((List.range length).filter fun (i : Nat) => (i : Int) / per = rel) := by
    refine (List.perm_ext_iff_of_nodup ?_ (List.nodup_range.filter _)).2 fun j => ?_
    · refine (List.nodup_range.filter _).map fun i j hij => ?_
      have := hnumber i
      have := hnumber j
      omega
    · simp only [List.mem_map, List.mem_filter, List.mem_range, decide_eq_true_eq]
      constructor
      · rintro ⟨i, ⟨hi, hlt⟩, rfl⟩
        refine ⟨by omega, ?_⟩
        rw [hnumber, Int.add_comm, Int.add_mul_ediv_right _ _ (by omega),
          Int.ediv_eq_zero_of_lt (by omega) (by omega), Int.zero_add]
      · rintro ⟨hlt, rfl⟩
        have hdiv := Int.mul_ediv_add_emod (j : Int) per
        have hmod := Int.emod_nonneg (j : Int) (show per ≠ 0 by omega)
        have hmod' := Int.emod_lt_of_pos (j : Int) (show 0 < per by omega)
        rw [Int.mul_comm] at hdiv
        exact ⟨(j % per : Int).toNat, ⟨by omega, by omega⟩, by omega⟩
  have hmap := hnumbers.map fun i : Nat =>
    (⟨.value element.entry, i % per * element.entry.size, [.index i]⟩ : Located)
  rw [packedAt_eq_filter]
  refine List.Perm.trans (List.Perm.of_eq ?_) hmap
  rw [List.map_map]
  refine List.map_congr_left fun i hi => ?_
  have hi := List.mem_range.1 (List.mem_filter.1 hi).1
  simp only [Function.comp_def, hnumber]
  rw [Int.add_comm, Int.add_mul_emod_self_right, Int.emod_eq_of_lt (by omega) (by omega)]

theorem locatedAt_elements (length : Nat) (hw : element.WellFormed) (hrel : 0 ≤ rel)
    (hlt : rel < length * element.slotCount) :
    Stored.locatedAt ((List.range length).flatMap fun (i : Nat) =>
        element.leaves.map (·.under (i * element.slotCount) (.index i))) rel =
      (element.leavesAt (rel % element.slotCount)).map
        (·.under (.index (rel / element.slotCount).toNat)) := by
  have hcount := element.slotCount_pos
  have hdiv : ((rel / element.slotCount).toNat : Int) = rel / element.slotCount :=
    Int.toNat_of_nonneg (Int.ediv_nonneg hrel (by omega))
  have hsum := Int.mul_ediv_add_emod rel element.slotCount
  have hmod := Int.emod_nonneg rel (show element.slotCount ≠ 0 by omega)
  have hmod' := Int.emod_lt_of_pos rel (show 0 < element.slotCount by omega)
  rw [Int.mul_comm] at hsum
  rw [Stored.locatedAt_flatMap, flatMap_eq_of_mem (a := (rel / element.slotCount).toNat)
    List.nodup_range]
  · rw [Stored.locatedAt_under, hdiv, show rel - rel / element.slotCount * element.slotCount =
      rel % element.slotCount by omega]
    rfl
  · rw [List.mem_range]
    have := Int.ediv_lt_of_lt_mul (by omega) hlt
    omega
  · intro i _ hi
    rw [Stored.locatedAt_under, List.map_eq_nil_iff]
    refine leavesAt_eq_nil hw ?_
    -- Every other element lies before or behind the slot.
    rcases Int.lt_or_gt_of_ne (show (i : Int) ≠ rel / element.slotCount by omega) with hlt | hgt
    · right
      have := Int.mul_le_mul_of_nonneg_right (show (i : Int) + 1 ≤ rel / element.slotCount by omega)
        (show 0 ≤ element.slotCount by omega)
      rw [Int.add_mul] at this
      omega
    · left
      have := Int.mul_le_mul_of_nonneg_right (show rel / element.slotCount + 1 ≤ (i : Int) by omega)
        (show 0 ≤ element.slotCount by omega)
      rw [Int.add_mul] at this
      omega

theorem locate_staticArray {length : Nat} (hw : (staticArray e length element).WellFormed)
    (ih : ∀ rel, ∃ found, element.locate rel = .ok found ∧ found.Perm (element.leavesAt rel)) :
    ∃ found, (staticArray e length element).locate rel = .ok found ∧
      found.Perm ((staticArray e length element).leavesAt rel) := by
  obtain ⟨n, hn, hs⟩ := hw.2.2
  have hpos := spanOf_pos hw.1 hw.2.1 hn
  have hcount : (staticArray e length element).slotCount = n := by
    simp only [slotCount, kind, entry, hs]
    omega
  rw [locate]
  by_cases hin : 0 ≤ rel ∧ rel < (staticArray e length element).slotCount
  · obtain ⟨hrel, hlt⟩ := hin
    rw [if_pos hlt]
    by_cases hp : element.isPacked
    · have hsize := (entry_size_of_isPacked hp hw.1).1
      refine ⟨_, locateAmong_packedAt hp hsize hn hrel (hcount ▸ hlt),
        (packedAt_perm length hp hw.1 hrel).trans (.of_eq ?_)⟩
      rw [leavesAt, leaves]
      simp only [hp, if_true]
      rw [← List.map_eq_flatMap]
    · obtain ⟨found, hf, hperm⟩ := ih (rel % element.slotCount)
      have hp := Bool.not_eq_true _ ▸ hp
      refine ⟨found.map (·.under (.index (rel / element.slotCount).toNat)), ?_, ?_⟩
      · rw [locateAmong_whole hp hn hrel (hcount ▸ hlt), hf]
        rfl
      · rw [leavesAt, leaves]
        simp only [hp]
        have hspan := spanOf_eq hp hn
        have hlength := hw.2.1
        rw [if_neg (by omega)] at hspan
        have hlt' : rel < length * element.slotCount := by omega
        exact (hperm.map _).trans (List.Perm.of_eq
          (locatedAt_elements length hw.1 hrel hlt').symm)
  · refine ⟨[], ?_, by rw [leavesAt_eq_nil hw (by omega)]⟩
    split
    · exact locateAmong_outside hn (by omega)
    · rfl

end StaticArray

mutual
theorem locate_perm (rel : Int) : (d : Descriptor) → d.WellFormed →
    ∃ found, d.locate rel = .ok found ∧ found.Perm (d.leavesAt rel)
  | .primitive _, _ | .bytes _, _ | .dynamicArray .., _ =>
    ⟨_, rfl, List.Perm.of_eq Stored.locatedAt_singleton.symm⟩
  | .mapping .., _ => ⟨[], rfl, .nil⟩
  | .staticArray e length element, hw =>
    locate_staticArray hw fun rel => locate_perm rel element hw.1
  | .struct e members, hw => by
    rw [locate]
    split
    · next hrel => exact ⟨[], rfl, by rw [leavesAt_eq_nil hw (.inl hrel)]⟩
    · obtain ⟨found, hf, hperm⟩ := locateMembers_perm rel members hw.1
      refine ⟨sortBy Located.offset found, by rw [hf]; rfl, ?_⟩
      exact (perm_sortBy _ _).trans hperm
  | .cut e kind, _ => by
    cases kind with
    | primitive | bytes | dynamicArray =>
      exact ⟨_, rfl, List.Perm.of_eq Stored.locatedAt_singleton.symm⟩
    | mapping | staticArray | struct => exact ⟨[], rfl, .nil⟩

theorem locateMembers_perm (rel : Int) : (members : List Descriptor) → AllWellFormed members →
    ∃ found, locateMembers members rel = .ok found ∧
      found.Perm (Stored.locatedAt (memberLeaves members) rel)
  | [], _ => ⟨[], rfl, .nil⟩
  | m :: rest, hw => by
    obtain ⟨others, ho, hperm⟩ := locateMembers_perm rel rest hw.2
    rw [locateMembers, memberLeaves, Stored.locatedAt_append, Stored.locatedAt_under]
    dsimp only
    by_cases hin : 0 ≤ rel - m.slot ∧ rel - m.slot < m.slotCount
    · obtain ⟨here, hh, hperm'⟩ := locate_perm (rel - m.slot) m hw.1
      refine ⟨here.map (·.under (.field m.label)) ++ others, ?_, (hperm'.map _).append hperm⟩
      rw [if_pos hin, hh, ho]
      rfl
    · have hnil : m.leavesAt (rel - m.slot) = [] := leavesAt_eq_nil hw.1 (by omega)
      refine ⟨others, ?_, ?_⟩
      · rw [if_neg hin, ho]
        rfl
      · rw [leavesAt] at hnil
        rw [hnil]
        exact hperm
end

section Total

structure Locates (d : Descriptor) : Prop where
  size_pos : d.isPacked → 1 ≤ d.entry.size
  locate : ∀ rel, ∃ found, d.locate rel = .ok found

theorem WellFormed.locates (hw : d.WellFormed) : d.Locates := by
  refine ⟨fun hp => (entry_size_of_isPacked hp hw).1, fun rel => ?_⟩
  obtain ⟨found, hf, -⟩ := locate_perm rel d hw
  exact ⟨found, hf⟩

variable {array : Descriptor}

theorem exists_spanOf (hl : element.Locates) (length : Int) :
    ∃ span, element.spanOf length = .ok span := by
  rw [spanOf]
  split
  · exact ⟨0, rfl⟩
  · split
    · next hp => exact exists_bind ⟨_, perSlot_eq (hl.size_pos hp)⟩ fun _ _ => ⟨_, rfl⟩
    · exact ⟨_, rfl⟩

theorem exists_dataSlotCount (hl : ∀ element ∈ array.element?, element.Locates) (length : Int) :
    ∃ span, array.dataSlotCount length = .ok span := by
  rw [dataSlotCount]
  split
  · exact ⟨_, rfl⟩
  · next element he => exact exists_spanOf (hl element he) length

theorem exists_locateAmong (hl : element.Locates) (rel length : Int) :
    ∃ located, locateAmong element element.locate rel (some length) = .ok located := by
  have hreaches : ∃ reached, element.reaches rel (some length) = .ok reached :=
    exists_map (exists_spanOf hl length)
  rw [locateAmong]
  split
  · exact ⟨[], rfl⟩
  · refine exists_bind hreaches fun reached _ => ?_
    dsimp only
    split
    · exact ⟨[], rfl⟩
    · split
      · next hp => exact exists_bind ⟨_, perSlot_eq (hl.size_pos hp)⟩ fun _ _ => ⟨_, rfl⟩
      · exact exists_bind (hl.locate _) fun _ _ => ⟨_, rfl⟩

theorem exists_locateElement (hl : ∀ element ∈ array.element?, element.Locates)
    (rel length : Int) : ∃ located, array.locateElement rel (some length) = .ok located := by
  rw [locateElement]
  split
  · exact ⟨[], rfl⟩
  · next element he => exact exists_locateAmong (hl element he) rel length

end Total

end Descriptor

end SlotLens

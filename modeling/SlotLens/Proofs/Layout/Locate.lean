import SlotLens.Layout.Locate
import SlotLens.Proofs.Outcome
import Mathlib.Data.List.TakeWhile

namespace SlotLens.Descriptor

variable {element : Descriptor} {rel length span : Int} {found : List Located} {l : Located}

theorem kind_of_isPacked (hp : element.isPacked) :
    element.kind = .primitive ∧ element.entry.size < 32 := by
  cases element with
  | primitive e => exact ⟨rfl, of_decide_eq_true hp⟩
  | cut e kind => cases kind <;> first | exact ⟨rfl, of_decide_eq_true hp⟩ | cases hp
  | _ => cases hp

theorem perSlot_eq {size : Int} (hs : 1 ≤ size) : perSlot size = .ok (32 / size) := by
  rw [perSlot, if_neg (by omega), Int.fdiv_eq_ediv_of_nonneg _ (by omega)]

theorem perSlot_pos {size : Int} (hs : 1 ≤ size) (hlt : size < 32) : 1 ≤ 32 / size := by
  rw [Int.le_ediv_iff_mul_le (by omega)]
  omega

theorem spanOf_whole (hp : element.isPacked = false) :
    element.spanOf length = .ok (if length ≤ 0 then 0 else length * element.slotCount) := by
  rw [spanOf, hp]
  split <;> rfl

theorem spanOf_eq (hp : element.isPacked = false) (h : element.spanOf length = .ok span) :
    span = if length ≤ 0 then 0 else length * element.slotCount :=
  Except.ok.inj (h.symm.trans (spanOf_whole hp))

theorem mul_add_lt_span {i : Nat} {j : Int} (hp : element.isPacked = false)
    (hspan : element.spanOf length = .ok span) (hi : i < length) (hlt : j < element.slotCount) :
    i * element.slotCount + j < span := by
  have hcount := element.slotCount_pos
  have hspan := spanOf_eq hp hspan
  rw [if_neg (by omega)] at hspan
  have hle : ((i : Int) + 1) * element.slotCount ≤ length * element.slotCount :=
    Int.mul_le_mul_of_nonneg_right (by omega) (by omega)
  rw [Int.add_mul, Int.one_mul] at hle
  omega

theorem position_of_packed (hp : element.isPacked) (hs : 1 ≤ element.entry.size) (i : Nat) :
    element.position i = .ok ((i : Int) / (32 / element.entry.size),
      i % (32 / element.entry.size) * element.entry.size) := by
  have hper := perSlot_pos hs (kind_of_isPacked hp).2
  have hdiv : (i : Int).fdiv (32 / element.entry.size) = i / (32 / element.entry.size) :=
    Int.fdiv_eq_ediv_of_nonneg _ (by omega)
  have hmod : (i : Int).fmod (32 / element.entry.size) = i % (32 / element.entry.size) :=
    Int.fmod_eq_emod_of_nonneg _ (by omega)
  rw [position, if_pos hp, ← hdiv, ← hmod]
  simp only [perSlot_eq hs, bind, Except.bind, pure, Except.pure]

theorem exists_spanOf_packed (hp : element.isPacked) (hs : 1 ≤ element.entry.size) (length : Int) :
    ∃ span, element.spanOf length = .ok span ∧ 0 ≤ span ∧
      length ≤ span * (32 / element.entry.size) ∧
      (0 < span → (span - 1) * (32 / element.entry.size) < length) := by
  have hper := perSlot_pos hs (kind_of_isPacked hp).2
  by_cases hn : length ≤ 0
  · exact ⟨0, by rw [spanOf, if_pos hn], Int.le_refl 0, by omega, fun h => absurd h (by decide)⟩
  · have hspan : element.spanOf length = .ok (-(-length / (32 / element.entry.size))) := by
      rw [spanOf, if_neg hn, if_pos hp, perSlot_eq hs,
        ← Int.fdiv_eq_ediv_of_nonneg (-length) (show 0 ≤ 32 / element.entry.size by omega)]
      rfl
    have hdiv := Int.mul_ediv_add_emod (-length) (32 / element.entry.size)
    have hmod := Int.emod_nonneg (-length) (show 32 / element.entry.size ≠ 0 by omega)
    have hmod' := Int.emod_lt_of_pos (-length) (show 0 < 32 / element.entry.size by omega)
    have hlow : -length / (32 / element.entry.size) ≤ 0 := by
      by_contra hpos
      have := Int.mul_pos (show 0 < 32 / element.entry.size by omega) (Int.not_le.1 hpos)
      omega
    rw [Int.mul_comm] at hdiv
    refine ⟨_, hspan, by omega, ?_, fun _ => ?_⟩
    · rw [Int.neg_mul]
      omega
    · rw [Int.sub_mul, Int.neg_mul]
      omega

theorem position_packed {per : Int} {i : Nat} (hp : element.isPacked)
    (hper : perSlot element.entry.size = .ok per) (hi : i < per) :
    element.position (rel * per + i) = .ok (rel, i * element.entry.size) := by
  have hdiv : (rel * per + i).fdiv per = rel := by
    rw [Int.fdiv_eq_ediv_of_nonneg _ (by omega), Int.add_comm,
      Int.add_mul_ediv_right _ _ (by omega), Int.ediv_eq_zero_of_lt (by omega) hi, Int.zero_add]
  have hmod : (rel * per + i).fmod per = i := by
    rw [Int.fmod_eq_emod_of_nonneg _ (by omega), Int.add_comm, Int.add_mul_emod_self_right,
      Int.emod_eq_of_lt (by omega) hi]
  rw [position, if_pos hp]
  dsimp only
  rw [bind_eq_ok]
  exact ⟨per, hper, by rw [hdiv, hmod, pure_eq_ok]⟩

theorem mem_packedAt {e : Entry} {first per : Int}
    (hl : l ∈ packedAt e first (some length) per) :
    ∃ i : Nat, i < per ∧ first + i < length ∧
      l = ⟨.value e, i * e.size, [.index (first + i).toNat]⟩ := by
  obtain ⟨i, hi, rfl⟩ := List.mem_map.1 hl
  have hr := (List.takeWhile_sublist _).subset hi
  have hp := List.mem_takeWhile_imp hi
  simp only [Option.all_some, decide_eq_true_eq] at hp
  rw [List.mem_range] at hr
  exact ⟨i, by omega, hp, rfl⟩

section LocateAmong

variable {locate : Int → Except Fault (List Located)}

theorem locateAmong_outside (hspan : element.spanOf length = .ok span) (h : rel < 0 ∨ span ≤ rel) :
    locateAmong element locate rel (some length) = .ok [] := by
  rw [locateAmong]
  split
  · rfl
  · have hlt : ¬ rel < span := by omega
    rw [reaches, hspan]
    simp only [Except.map, hlt]
    rfl

theorem locateAmong_packedAt (hp : element.isPacked) (hs : 1 ≤ element.entry.size)
    (hspan : element.spanOf length = .ok span) (hrel : 0 ≤ rel) (hlt : rel < span) :
    locateAmong element locate rel (some length) = .ok (packedAt element.entry
      (rel * (32 / element.entry.size)) (some length) (32 / element.entry.size)) := by
  rw [locateAmong, if_neg (by omega), reaches, hspan]
  simp only [Except.map, hlt, hp, perSlot_eq hs]
  rfl

theorem locateAmong_whole (hp : element.isPacked = false)
    (hspan : element.spanOf length = .ok span) (hrel : 0 ≤ rel) (hlt : rel < span) :
    locateAmong element locate rel (some length) = (locate (rel % element.slotCount)).map
      (List.map (·.under (.index (rel / element.slotCount).toNat))) := by
  rw [locateAmong, if_neg (by omega), reaches, hspan]
  simp only [Except.map, hlt, hp]
  cases locate (rel % element.slotCount) <;> rfl

theorem ediv_lt_length (hp : element.isPacked = false) (hspan : element.spanOf length = .ok span)
    (hrel : 0 ≤ rel) (hlt : rel < span) : rel / element.slotCount < length := by
  rw [spanOf_eq hp hspan] at hlt
  have hcount := element.slotCount_pos
  split at hlt
  · omega
  · exact Int.ediv_lt_of_lt_mul (by omega) hlt

end LocateAmong

theorem locateAmong_cases (h : locateAmong element element.locate rel (some length) = .ok found)
    (hl : l ∈ found) :
    ∃ (i : Nat) (place shift : Int), i < length ∧ element.position i = .ok (place, shift) ∧
      ((element.isPacked ∧ place = rel ∧ l = ⟨.value element.entry, shift, [.index i]⟩) ∨
        (element.isPacked = false ∧ ∃ rest inner l', place + rest = rel ∧
          element.locate rest = .ok inner ∧ l' ∈ inner ∧ l = l'.under (.index i))) := by
  rw [locateAmong] at h
  split at h
  · cases pure_eq_ok.1 h
    exact absurd hl List.not_mem_nil
  next hrel =>
  obtain ⟨reached, hreached, h⟩ := bind_eq_ok.1 h
  obtain ⟨span, hspan, rfl⟩ := map_eq_ok.1 hreached
  split at h
  · cases pure_eq_ok.1 h
    exact absurd hl List.not_mem_nil
  next hr =>
  rw [Bool.not_eq_true, Bool.not_eq_false', decide_eq_true_eq] at hr
  split at h
  · next hp =>
    obtain ⟨per, hper, h⟩ := bind_eq_ok.1 h
    cases pure_eq_ok.1 h
    obtain ⟨i, hi, hlt, rfl⟩ := mem_packedAt hl
    have hnn : 0 ≤ rel * per := Int.mul_nonneg (by omega) (by omega)
    have hcast : ((rel * per + i).toNat : Int) = rel * per + i := Int.toNat_of_nonneg (by omega)
    refine ⟨(rel * per + i).toNat, rel, i * element.entry.size, by omega, ?_, .inl ⟨hp, rfl, rfl⟩⟩
    rw [hcast]
    exact position_packed hp hper hi
  · next hp =>
    rw [Bool.not_eq_true] at hp
    obtain ⟨inner, hinner, h⟩ := bind_eq_ok.1 h
    cases pure_eq_ok.1 h
    obtain ⟨l', hl', rfl⟩ := List.mem_map.1 hl
    have hcount := element.slotCount_pos
    have hnn : 0 ≤ rel / element.slotCount := Int.ediv_nonneg (by omega) (by omega)
    have hcast : ((rel / element.slotCount).toNat : Int) = rel / element.slotCount :=
      Int.toNat_of_nonneg hnn
    have hlt := ediv_lt_length hp hspan (by omega) hr
    refine ⟨(rel / element.slotCount).toNat, rel / element.slotCount * element.slotCount, 0,
      by omega, ?_, .inr ⟨hp, rel % element.slotCount, inner, l', ?_, hinner, hl', rfl⟩⟩
    · rw [position, hp, hcast]
      rfl
    · exact Int.ediv_mul_add_emod rel element.slotCount

theorem locateMembers_cons {m : Descriptor} {rest : List Descriptor}
    (h : locateMembers (m :: rest) rel = .ok found) :
    ∃ here others, locateMembers rest rel = .ok others ∧
      found = here.map (·.under (.field m.label)) ++ others ∧
      (here = [] ∨ m.locate (rel - m.slot) = .ok here) := by
  rw [locateMembers] at h
  dsimp only at h
  split at h
  all_goals
    obtain ⟨here, hhere, h⟩ := bind_eq_ok.1 h
    obtain ⟨others, hothers, h⟩ := bind_eq_ok.1 h
    cases pure_eq_ok.1 h
    refine ⟨here, others, hothers, rfl, ?_⟩
  · exact .inr hhere
  · cases hhere
    exact .inl rfl

end SlotLens.Descriptor

import SlotLens.Text.CodePoint
import Mathlib.Data.List.Basic

namespace SlotLens.Text

def utf8Bytes (u : String) : List UInt8 := u.toUTF8.data.toList

theorem toNat_valid (c : Char) :
    c.toNat < 0xD800 ∨ 0xDFFF < c.toNat ∧ c.toNat < 0x110000 := c.valid

theorem isHalf_toNat (c : Char) : isHalf c.toNat = false := by
  have h := toNat_valid c
  simp only [isHalf, Bool.and_eq_false_iff, decide_eq_false_iff_not]
  omega

theorem ofPoint_toNat (c : Char) : ofPoint c.toNat = keepChar c := by
  rw [ofPoint, isHalf_toNat, if_neg Bool.false_ne_true, Char.ofNat_toNat]

theorem toList_keep (u : String) : (keep u).toList = u.toList.flatMap keepChar := by
  rw [keep]
  split
  · exact String.toList_ofList
  · next h =>
    have hplain : ∀ c ∈ u.toList, keepChar c = [c] := by
      intro c hc
      rw [keepChar, if_neg fun hr => h (List.any_eq_true.2 ⟨c, hc, hr⟩)]
    rw [List.flatMap_congr hplain, List.flatMap_singleton']

theorem keep_of_ascii {u : String} (h : ∀ c ∈ u.toList, c.toNat < 0x80) : keep u = u := by
  have hplain : u.toList.any isReserved = false := by
    rw [List.any_eq_false]
    intro c hc hr
    have hlt := h c hc
    have hmark : mark.toNat = 0x10FFFF := toNat_ofNat (by decide)
    simp only [isReserved, standsForHalf, Bool.or_eq_true, beq_iff_eq, Bool.and_eq_true,
      decide_eq_true_eq] at hr
    rcases hr with rfl | hr
    · omega
    · omega
  rw [keep, hplain, if_neg Bool.false_ne_true]

theorem points_keep (u : String) : points (keep u).toList = u.toList.map Char.toNat := by
  have hkeep : u.toList.flatMap keepChar = (u.toList.map Char.toNat).flatMap ofPoint := by
    rw [List.flatMap_map]
    exact List.flatMap_congr fun c _ => (ofPoint_toNat c).symm
  rw [toList_keep, hkeep]
  refine points_ofPoints fun n hn => ?_
  obtain ⟨c, -, rfl⟩ := List.mem_map.1 hn
  have := toNat_valid c
  omega

theorem utf8?_of_points {s u : String} (h : points s.toList = u.toList.map Char.toNat) :
    utf8? s = some (utf8Bytes u) := by
  have hhalf : (u.toList.map Char.toNat).any isHalf = false := by
    simp [isHalf_toNat]
  rw [utf8?, h, hhalf, if_neg Bool.false_ne_true, List.map_map]
  have hchars : u.toList.map (Char.ofNat ∘ Char.toNat) = u.toList := by
    simp [Function.comp_def, Char.ofNat_toNat]
  rw [hchars, String.ofList_toList, utf8Bytes]

theorem utf8?_keep (u : String) : utf8? (keep u) = some (utf8Bytes u) :=
  utf8?_of_points (points_keep u)

theorem ofUtf8?_utf8Bytes (u : String) : ofUtf8? (utf8Bytes u) = some (keep u) := by
  have hvalid : (ByteArray.mk (utf8Bytes u).toArray).IsValidUTF8 := u.isValidUTF8
  rw [ofUtf8?, String.fromUTF8?, dif_pos hvalid]
  rfl

theorem ofUtf8?_eq_none {bytes : List UInt8} (h : ∀ u, utf8Bytes u ≠ bytes) :
    ofUtf8? bytes = none := by
  have hinvalid : ¬ (ByteArray.mk bytes.toArray).IsValidUTF8 := fun hvalid =>
    h (String.fromUTF8 ⟨bytes.toArray⟩ hvalid) rfl
  rw [ofUtf8?, String.fromUTF8?, dif_neg hinvalid]
  rfl

end SlotLens.Text

import SlotLens.Field
import SlotLens.Proofs.Text.Utf8
import Mathlib.Algebra.Group.Nat.Defs

namespace SlotLens.BytesSlot

variable {label : Value} {content filling front : List UInt8} {last : UInt8} {w : Word} {n : Nat}

/-- How a content is shown: for texts as the text that it is, for all others by its bytes. -/
inductive Shown (label : Value) (content : List UInt8) : Value → Prop
  | text {u : String} : label = .text "string" → Text.utf8Bytes u = content →
      Shown label content (.text (Text.keep u))
  | hex : (label = .text "string" → ∀ u, Text.utf8Bytes u ≠ content) →
      Shown label content (.text (Hex.text content))

theorem shown_present (label : Value) (content : List UInt8) :
    Shown label content (present label content) := by
  unfold present
  dsimp only
  split
  · by_cases hu : ∃ u, Text.utf8Bytes u = content
    · obtain ⟨u, rfl⟩ := hu
      rw [Text.ofUtf8?_utf8Bytes]
      exact .text rfl rfl
    · have hnone := not_exists.1 hu
      rw [Text.ofUtf8?_eq_none hnone]
      exact .hex fun _ => hnone
  · next hlabel => exact .hex fun h => absurd h hlabel

theorem read_word (label : Value) (w : Word) : read label w.bytes = .ok (ofBytes label w.bytes) := by
  have hne : w.bytes.isEmpty = false := by
    rw [List.isEmpty_eq_false_iff]
    exact List.ne_nil_of_length_pos (by rw [w.length_bytes]; decide)
  rw [read, hne, if_neg Bool.false_ne_true]

theorem ofBytes_odd (h : w.toNat = 2 * n + 1) : ofBytes label w.bytes = ⟨n, true, .null⟩ := by
  have hn : BigEndian.toNat w.bytes = 2 * n + 1 := h
  have hodd : (2 * n + 1) % 2 = 1 := by omega
  have hhalf : (2 * n + 1 - 1) / 2 = n := by omega
  simp only [ofBytes, hn, hodd, hhalf, if_true]

theorem toNat_of_isLong (h : (ofBytes label w.bytes).isLong) :
    w.toNat = 2 * (ofBytes label w.bytes).length + 1 := by
  unfold ofBytes at h ⊢
  dsimp only at h ⊢
  split at h
  · next hodd =>
    rw [if_pos hodd, Word.toNat]
    dsimp only
    omega
  · split at h <;> cases h

theorem ofBytes_even (he : last.toNat % 2 = 0) : ofBytes label (front ++ [last]) =
    if last.toNat / 2 < 32 then
      ⟨last.toNat / 2, false, present label ((front ++ [last]).take (last.toNat / 2))⟩
    else ⟨last.toNat / 2, false, .null⟩ := by
  have hlt := last.toNat_lt
  have hlast : (BigEndian.toNat front * 256 + last.toNat) % 256 = last.toNat := by omega
  have heven : ¬ (BigEndian.toNat front * 256 + last.toNat) % 2 = 1 := by omega
  simp only [ofBytes, BigEndian.toNat_append_singleton, hlast, if_neg heven]

theorem read_short (h : w.bytes = content ++ filling ++ [UInt8.ofNat (2 * content.length)]) :
    read label w.bytes = .ok ⟨content.length, false, present label content⟩ := by
  have hlen := congrArg List.length h
  simp only [w.length_bytes, List.length_append, List.length_singleton] at hlen
  have hlast : (UInt8.ofNat (2 * content.length)).toNat = 2 * content.length := by
    rw [UInt8.toNat_ofNat']
    omega
  have hhalf : 2 * content.length / 2 = content.length := by omega
  rw [read_word, h, ofBytes_even (by omega), hlast, hhalf, if_pos (by omega), List.append_assoc,
    List.take_left]

theorem read_long (hn : n < 2 ^ 255) :
    read label (Word.ofNat (2 * n + 1)).bytes = .ok ⟨n, true, .null⟩ := by
  rw [read_word, ofBytes_odd]
  rw [Word.toNat_ofNat, Nat.pow_eq]
  omega

theorem read_overfull (hl : w.bytes.getLast? = some last) (he : w.toNat % 2 = 0)
    (hb : 64 ≤ last.toNat) : read label w.bytes = .ok ⟨last.toNat / 2, false, .null⟩ := by
  obtain ⟨front, hw⟩ := List.getLast?_eq_some_iff.1 hl
  have hlast : last.toNat % 2 = 0 := by
    rw [Word.toNat, hw, BigEndian.toNat_append_singleton] at he
    omega
  rw [read_word, hw, ofBytes_even hlast, if_neg (by omega)]

end SlotLens.BytesSlot

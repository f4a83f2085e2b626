import SlotLens.Text.CodePoint
import Mathlib.Data.List.Basic

namespace SlotLens

theorem mem_of_mem_intercalate {α : Type} {sep : List α} {parts : List (List α)} {a : α}
    (h : a ∈ sep.intercalate parts) : a ∈ sep ∨ ∃ part ∈ parts, a ∈ part := by
  induction parts with
  | nil => simp at h
  | cons part rest ih =>
    cases rest with
    | nil => exact .inr ⟨part, List.mem_singleton_self _, by simpa using h⟩
    | cons next rest =>
      rw [List.intercalate_cons_cons, List.mem_append, List.mem_append] at h
      rcases h with (h | h) | h
      · exact .inr ⟨part, List.mem_cons_self, h⟩
      · exact .inl h
      · exact (ih h).imp_right fun ⟨other, ho, ha⟩ => ⟨other, List.mem_cons_of_mem _ ho, ha⟩

namespace Text

variable {c : Char} {s t : List Char}

def IsAscii (s : List Char) : Prop := ∀ c ∈ s, c.toNat < 128

instance : Decidable (IsAscii s) :=
  decidable_of_iff (s.all fun c => c.toNat < 128) (by simp [IsAscii])

@[simp] theorem isAscii_nil : IsAscii [] := nofun

@[simp] theorem isAscii_cons : IsAscii (c :: s) ↔ c.toNat < 128 ∧ IsAscii s := List.forall_mem_cons

@[simp] theorem isAscii_append : IsAscii (s ++ t) ↔ IsAscii s ∧ IsAscii t := List.forall_mem_append

theorem IsAscii.mono (h : IsAscii s) (hs : t ⊆ s) : IsAscii t := fun c hc => h c (hs hc)

theorem isAscii_replicate (n : Nat) (h : c.toNat < 128) : IsAscii (List.replicate n c) :=
  fun _ hc => List.eq_of_mem_replicate hc ▸ h

theorem isAscii_flatMap {α : Type} {items : List α} {f : α → List Char}
    (h : ∀ a ∈ items, IsAscii (f a)) : IsAscii (items.flatMap f) := by
  intro c hc
  obtain ⟨a, ha, hc⟩ := List.mem_flatMap.1 hc
  exact h a ha c hc

theorem isAscii_intercalate {sep : String} {parts : List String} (hs : IsAscii sep.toList)
    (h : ∀ part ∈ parts, IsAscii part.toList) : IsAscii (sep.intercalate parts).toList := by
  intro c hc
  rw [String.toList_intercalate] at hc
  rcases mem_of_mem_intercalate hc with hc | ⟨part, hpart, hc⟩
  · exact hs c hc
  · obtain ⟨part, hm, rfl⟩ := List.mem_map.1 hpart
    exact h part hm c hc

theorem toNat_lt_of_isAlphanum (h : c.isAlphanum) : c.toNat < 128 := by
  change ((decide (65 ≤ c.val ∧ c.val ≤ 90) ||
    (decide (97 ≤ c.val) && decide (c.val ≤ 122))) ||
    (decide (48 ≤ c.val) && decide (c.val ≤ 57))) = true at h
  simp only [Bool.or_eq_true, Bool.and_eq_true, decide_eq_true_eq, UInt32.le_iff_toNat_le] at h
  change ((65 ≤ c.toNat ∧ c.toNat ≤ 90) ∨ (97 ≤ c.toNat ∧ c.toNat ≤ 122)) ∨
    (48 ≤ c.toNat ∧ c.toNat ≤ 57) at h
  omega

theorem isAscii_toDigits (n : Nat) : IsAscii (Nat.toDigits 10 n) := by
  intro c hc
  have hdigit : c.isDigit := Nat.isDigit_of_mem_toDigits (by decide) (by decide) hc
  exact toNat_lt_of_isAlphanum (by simp [Char.isAlphanum, hdigit])

theorem points_cons (hc : c ≠ mark) (rest : List Char) :
    points (c :: rest) = point c :: points rest := by
  cases rest with
  | nil => rfl
  | cons d rest => rw [points, if_neg hc]

theorem point_of_ascii (h : c.toNat < 128) : c ≠ mark ∧ point c < 128 := by
  have hmark : mark.toNat = 0x10FFFF := toNat_ofNat (by decide)
  refine ⟨?_, ?_⟩
  · rintro rfl
    omega
  · have hs : standsForHalf c = false := by
      simp only [standsForHalf, Bool.and_eq_false_iff, decide_eq_false_iff_not]
      omega
    simpa [point, hs] using h

theorem IsAscii.points_lt (h : IsAscii s) : ∀ n ∈ points s, n < 128 := by
  induction s with
  | nil => simp [points]
  | cons c rest ih =>
    obtain ⟨hc, hrest⟩ := isAscii_cons.1 h
    obtain ⟨hmark, hpoint⟩ := point_of_ascii hc
    rw [points_cons hmark, List.forall_mem_cons]
    exact ⟨hpoint, ih hrest⟩

theorem IsAscii.exists_utf8 {s : String} (h : IsAscii s.toList) :
    ∃ bytes, utf8? s = some bytes := by
  have hhalf : (points s.toList).any isHalf = false := by
    rw [List.any_eq_false]
    intro n hn
    have hlt := h.points_lt n hn
    simp only [isHalf, Bool.and_eq_true, decide_eq_true_eq]
    omega
  simp [utf8?, hhalf]

end Text

end SlotLens
